import RemoteCall.Timeline

/-!
# Cancel handles

A running invocation and those who want to cancel it share a handle. It holds the strongest
request made so far and the first report on whether the invocation was cancelled.
-/

namespace RemoteCall

/-- How strongly cancellation has been requested. -/
inductive CancelLevel where
  | nothing
  | polite
  /-- Also an invocation that is already running is to be stopped. -/
  | aggressive
  deriving DecidableEq, Repr

namespace CancelLevel

/-- The levels in order. -/
def rank : CancelLevel → Nat
  | nothing => 0
  | polite => 1
  | aggressive => 2

/-- The level of a single request. -/
def ofRequest (isAggressive : Bool) : CancelLevel :=
  if isAggressive then aggressive else polite

/-- The stronger of two levels. -/
def max (a b : CancelLevel) : CancelLevel :=
  if a.rank < b.rank then b else a

/-- The text shown for a level. -/
def text : CancelLevel → String
  | nothing => "Nothing"
  | polite => "Polite"
  | aggressive => "Aggressive"

end CancelLevel

/-- What is known about the cancellation of one invocation. -/
structure CancelHandle where
  requested : CancelLevel
  /-- Whether the invocation reported that it was cancelled, once it has reported. -/
  acknowledged : Option Bool
  deriving DecidableEq, Repr

namespace CancelHandle

/-- The handle of a new invocation. -/
def fresh : CancelHandle := ⟨.nothing, none⟩

/-- Requests cancellation. -/
def cancel (h : CancelHandle) (isAggressive : Bool) : CancelHandle :=
  { h with requested := h.requested.max (.ofRequest isAggressive) }

/-- Reports whether the invocation was cancelled; only the first report counts. -/
def acknowledge (h : CancelHandle) (cancelled : Bool) : CancelHandle :=
  { h with acknowledged := h.acknowledged <|> some cancelled }

/-- Whether cancellation has been requested at all. -/
def isCancelled (h : CancelHandle) : Bool :=
  h.requested != .nothing

/-- Whether a running invocation is to be stopped. -/
def isAggressive (h : CancelHandle) : Bool :=
  h.requested == .aggressive

/-- The text shown for a handle. -/
def text (h : CancelHandle) : String :=
  let acknowledged := match h.acknowledged with
    | none => "None"
    | some true => "Some(true)"
    | some false => "Some(false)"
  "CancelHandle \x7b requested: " ++ h.requested.text ++ ", acknowledged: " ++ acknowledged ++
    " \x7d"

/-- What others may do to a handle while somebody waits. -/
inductive Event where
  | cancel (isAggressive : Bool)
  | acknowledge (cancelled : Bool)
  deriving DecidableEq, Repr

/-- A handle after an event. -/
def happen : Event → CancelHandle → CancelHandle
  | .cancel isAggressive, h => h.cancel isAggressive
  | .acknowledge cancelled, h => h.acknowledge cancelled

/-- Waits for the report of an invocation. -/
def awaitReport (limit : Nat) (t : Timeline CancelHandle Event) :
    Option Bool × Timeline CancelHandle Event :=
  t.await happen acknowledged limit

/-- Waits for a request. -/
def awaitRequest (limit : Nat) (t : Timeline CancelHandle Event) :
    Bool × Timeline CancelHandle Event :=
  let (answer, t) := t.await happen (fun h => if h.isCancelled then some () else none) limit
  (answer.isSome, t)

end CancelHandle

end RemoteCall
