import RemoteCall.Invocation.Target
import RemoteCall.Text.Quoted

/-!
# Exchanges as conversations

An exchange asks its collaborators one thing after the other and ends with a response. What it
asks next depends on their replies only, so the questions of an exchange, in order, are all that it
does. A collaborator may also break down; then nothing more is asked, except that the guard of a
registered invocation is released.
-/

namespace RemoteCall

/-- What an exchange asks of others. -/
inductive Question where
  /-- The branch of this service in the transaction of the caller. -/
  | importBranch (x : Xid) (timeout : Int32)
  /-- Whether a view is the home of a component. -/
  | isHome (component : ComponentId) (view : String)
  /-- The target that a method belongs to. -/
  | locate (locator : Locator) (method : MethodId)
  /-- A place in the register, under which the call can be cancelled. -/
  | register (id : InvocationId)
  | invoke (call : ResolvedCall)
  /-- Whoever wants to cancel the call is told whether it was cancelled. -/
  | acknowledge (cancelled : Bool)
  /-- The place in the register is given back. -/
  | release

/-- What a question is answered with. -/
abbrev Question.Reply : Question → Type
  | importBranch _ _ => Except XaError BranchRef
  | isHome _ _ => Bool
  | locate _ _ => Except TargetError Unit
  | register _ => Unit
  | invoke _ => CallOutcome
  | acknowledge _ => Unit
  | release => Unit

/-- An exchange from some point on. -/
inductive Exchange where
  | respond (r : Http.Response)
  | ask (q : Question) (next : q.Reply → Exchange)

/-- How a collaborator breaks down: in a task, which has a number, and with a text. -/
structure Breakdown where
  task : Nat
  message : String
  deriving DecidableEq, Repr

/-- The text shown for a breakdown. -/
def Breakdown.text (b : Breakdown) : String :=
  "task " ++ toString b.task ++ " panicked with message " ++ Text.quoted b.message

/-- A reply, or how a collaborator broke down. -/
inductive Answer (α : Type) where
  | reply (a : α)
  | broke (b : Breakdown)

/-- How an exchange ends. -/
inductive Ending where
  | response (r : Http.Response)
  | broke (b : Breakdown)

/-- Whether a place in the register is held after a question, if it was held before. -/
def Question.holds (q : Question) (before : Bool) : Bool :=
  match q with
  | register _ => true
  | release => false
  | _ => before

/-- Whether a question gives the place in the register back. -/
def Question.isRelease : Question → Bool
  | release => true
  | _ => false

namespace Exchange

variable {σ : Type}

/-- The questions of an exchange, how it ends, and the state it leaves behind, for collaborators
with a state of their own. `held` tells whether a place in the register is held. -/
def run (collaborator : (q : Question) → σ → Answer q.Reply × σ) :
    Exchange → (held : Bool) → σ → List Question × Ending × σ
  | respond r, _, s => ([], .response r, s)
  | ask q next, held, s =>
    match collaborator q s with
    | (.reply a, s) =>
      let (asked, ending, s) := run collaborator (next a) (q.holds held) s
      (q :: asked, ending, s)
    | (.broke m, s) =>
      if held && !q.isRelease then ([q, .release], .broke m, (collaborator .release s).2)
      else ([q], .broke m, s)

end Exchange

end RemoteCall
