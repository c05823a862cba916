import RemoteCall.Branch.Ledger
import RemoteCall.Invocation.Address
import RemoteCall.Invocation.Attachments
import RemoteCall.Invocation.Identifier

/-!
# What invocations reach

A target is a view of a component with a method of it. It is reached in one of three ways: without
state, through a session, or as the home of the component.
-/

namespace RemoteCall

/-- How an instance behind a view is reached. -/
inductive Access where
  | stateless
  | stateful (session : Bytes)
  | home
  deriving DecidableEq, Repr

/-- A view of a component and how to reach an instance behind it. -/
structure Locator where
  component : ComponentId
  view : String
  access : Access
  deriving DecidableEq, Repr

/-- Why a target is not reached. -/
inductive TargetError where
  | noSuchComponent (component : ComponentId)
  | noSuchMethod (method : MethodId)
  | wrongView (view : String)
  /-- A session was sent for a component that keeps none. -/
  | notStateful (component : ComponentId)
  | sessionNotActive (component : ComponentId)
  deriving DecidableEq, Repr

namespace TargetError

/-- The text shown for an error. -/
def message : TargetError → String
  | noSuchComponent c => "No such component: " ++ c.text
  | noSuchMethod m => "No such method: " ++ m.text
  | wrongView v => "Wrong view type: " ++ v
  | notStateful c => "Component is not stateful: " ++ c.text
  | sessionNotActive c => "Session not active: " ++ c.text

/-- The status of the response that tells an error. -/
def status : TargetError → Http.Status
  | noSuchComponent _ => .notFound
  | noSuchMethod _ => .notFound
  | wrongView _ => .notFound
  | notStateful _ => .internalError
  | sessionNotActive _ => .internalError

/-- The class of the exception that tells an error. -/
def className : TargetError → String
  | noSuchComponent _ => Fault.Class.noSuchComponent
  | noSuchMethod _ => Fault.Class.noSuchMethod
  | wrongView _ => Fault.Class.illegalArgument
  | notStateful _ => Fault.Class.illegalArgument
  | sessionNotActive _ => Fault.Class.noSuchComponent

end TargetError

/-- All that a target needs for one call. -/
structure ResolvedCall where
  locator : Locator
  method : MethodId
  parameters : List Value
  attachments : Attachments
  affinity : Option String
  transaction : Option Descriptor
  /-- The branch of this service in the transaction, where transactions are managed. -/
  imported : Option BranchRef
  identifier : Option InvocationId

/-- How a call ends. -/
inductive CallOutcome where
  | success (result : Value)
  /-- The target failed in its own terms. -/
  | exception (e : RemoteException)
  /-- The target was gone after all. -/
  | target (e : TargetError)
  /-- The target was asked to stop, and did. -/
  | cancelled

/-- Whether a call ended because it was cancelled. -/
def CallOutcome.isCancelled : CallOutcome → Bool
  | cancelled => true
  | _ => false

end RemoteCall
