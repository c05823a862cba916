import RemoteCall.Cancel.Board
import RemoteCall.Cancel.Endpoint

/-!
# Invocations and those who cancel them

The board where both meet, the guards of the invocations, and the reports that invocations will
give when they are asked to stop. A cancel request that finds a handle waits for its report, and
only then do the invocations get the time to give it.
-/

namespace RemoteCall.Cancel

/-- The state that invocations and cancel requests share. Handles and guards go by names. -/
structure Desk where
  board : Board String
  guards : List (String × Guard String)
  /-- The invocations that will report as soon as they are asked to stop, and what. -/
  answering : List (String × Bool)

namespace Desk

/-- Nothing runs. -/
def empty : Desk := ⟨Board.empty, [], []⟩

/-- Makes sure that there is a handle of a name. -/
def meet (d : Desk) (name : String) : Desk :=
  { d with board := d.board.meet name }

/-- The handle that is registered under an identifier. -/
def registered? (d : Desk) (id : InvocationId) : Option CancelHandle :=
  (d.board.registry.get? id).map d.board.handle

/-- Whether an invocation that will report has been asked to. -/
def isAsked (d : Desk) (report : String × Bool) : Bool :=
  (d.board.handle report.1).isCancelled

/-- Those who have been asked to stop report. -/
def giveTime (d : Desk) : Desk :=
  let reporting := d.answering.filter d.isAsked
  { d with
    answering := d.answering.filter fun report => !d.isAsked report
    board := reporting.foldl (fun b (name, cancelled) => b.acknowledge name cancelled) d.board }

/-- Requests cancellation and waits for the report. -/
def cancel (d : Desk) (order : Order) (limit : Nat) : Outcome × Desk :=
  match d.board.request order.id order.isAggressive with
  | (none, _) => (.notFound, d)
  | (some name, board) =>
    let d := { d with board }
    if d.board.hasReport name then (.acknowledged, d)
    else if limit = 0 then (.unknown, d)
    else
      let d := d.giveTime
      (if d.board.hasReport name then .acknowledged else .unknown, d)

/-- Releases a guard. -/
def release (d : Desk) (g : Guard String) : Guard String × Desk :=
  let (guard, board) := d.board.release g
  (guard, { d with board })

/-- Puts a guard in the place of the one of the same name. -/
def replaceGuard (d : Desk) (name : String) (g : Guard String) : Desk :=
  { d with guards := d.guards.map fun (n, old) => if n = name then (n, g) else (n, old) }

/-- What may be done at the desk. -/
inductive Action where
  | register (id : InvocationId) (handle : String)
  | remove (id : InvocationId)
  | has (id : InvocationId)
  | get (id : InvocationId)
  | cancel (order : Order) (limit : Nat)
  | acknowledge (handle : String) (cancelled : Bool)
  /-- From now on the invocation reports when it is asked to stop. -/
  | answer (handle : String) (cancelled : Bool)
  /-- Registers with a guard; a guard of the same name is dropped afterwards. -/
  | hold (guard : String) (id : InvocationId) (handle : String)
  | release (guard : String)
  | drop (guard : String)
  /-- A cancel request over HTTP. -/
  | serve (request : Http.Request)
  | look (handle : String)

/-- What an action shows. -/
inductive Result where
  | nothing
  | handle (h : Option CancelHandle)
  | flag (b : Bool)
  | outcome (o : Outcome)
  | status (s : Http.Status)

/-- How long a cancel request over HTTP waits for the report. -/
def patience : Nat := 50

/-- One action at the desk. -/
def step (d : Desk) : Action → Result × Desk
  | .register id name =>
    let d := d.meet name
    (.handle (d.registered? id),
      { d with board := { d.board with registry := d.board.registry.register id name } })
  | .remove id =>
    (.flag (d.board.registry.has id),
      { d with board := { d.board with registry := d.board.registry.remove id } })
  | .has id => (.flag (d.board.registry.has id), d)
  | .get id => (.handle (d.registered? id), d)
  | .cancel order limit =>
    let (o, d) := d.cancel order limit
    (.outcome o, d)
  | .acknowledge name cancelled =>
    (.nothing, { d with board := (d.board.meet name).acknowledge name cancelled })
  | .answer name cancelled =>
    let d := d.meet name
    (.nothing, { d with answering := d.answering ++ [(name, cancelled)] })
  | .hold guardName id name =>
    let d := d.meet name
    let (g, board) := d.board.hold id name
    let d := { d with board }
    match d.guards.lookup guardName with
    | none => (.flag false, { d with guards := d.guards ++ [(guardName, g)] })
    | some old => (.flag true, (d.release old).2.replaceGuard guardName g)
  | .release guardName =>
    match d.guards.lookup guardName with
    | none => (.flag false, d)
    | some g =>
      let (g, d) := d.release g
      (.flag true, d.replaceGuard guardName g)
  | .drop guardName =>
    match d.guards.lookup guardName with
    | none => (.flag false, d)
    | some g =>
      let (_, d) := d.release g
      (.flag true, { d with guards := d.guards.filter (·.1 != guardName) })
  | .serve request =>
    match Order.ofRequest request with
    | .error s => (.status s, d)
    | .ok order =>
      let (o, d) := d.cancel order patience
      (.status o.status, d)
  | .look name =>
    let d := d.meet name
    (.handle (some (d.board.handle name)), d)

end Desk

end RemoteCall.Cancel
