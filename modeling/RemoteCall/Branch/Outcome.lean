import RemoteCall.RemoteException

/-!
# Outcomes of a branch

The votes of a prepared branch and the errors of all primitives, with the outcome codes of the
two-phase protocol.
-/

namespace RemoteCall

/-- The vote of a branch that has prepared. -/
inductive Vote where
  | ok
  /-- The branch did no work and takes no part in the second phase. -/
  | readOnly
  deriving DecidableEq, Repr

/-- The outcome code of a vote. -/
def Vote.code : Vote → Int32
  | ok => 0
  | readOnly => 3

namespace Outcome

/-- The branch was rolled back. -/
def rolledBack : Int32 := 100
/-- The resource manager failed. -/
def managerError : Int32 := -3
/-- The branch is not known. -/
def unknownBranch : Int32 := -4
/-- An argument is not valid. -/
def invalidArgument : Int32 := -5
/-- The primitive does not fit the state of the branch. -/
def wrongState : Int32 := -6

end Outcome

/-- The error of a primitive. -/
structure XaError where
  code : Int32
  message : String
  /-- The wait for an outcome was given up, so the outcome is not known. -/
  interrupted : Bool
  /-- The texts of what led to the error, nearest first. -/
  sources : List String
  deriving DecidableEq, Repr

namespace XaError

/-- An error with a code and a message. -/
def make (code : Int32) (message : String) : XaError :=
  ⟨code, message, false, []⟩

/-- A failure of the resource manager, caused by a failure with the given texts. -/
def managerFailure (text : String) (sources : List String) : XaError :=
  ⟨Outcome.managerError, text, false, text :: sources⟩

/-- The wait for an outcome was given up. -/
def interruption : XaError :=
  ⟨Outcome.managerError, "interrupted while awaiting outcome", true, []⟩

/-- The text shown for an error. -/
def text (e : XaError) : String :=
  "XA error " ++ toString e.code.toInt ++ ": " ++ e.message

/-- The texts of an error and of what led to it. -/
def trace (e : XaError) : List String :=
  e.text :: e.sources

/-- Equality up to what led to the errors. -/
def same (a b : XaError) : Bool :=
  a.code == b.code && a.message == b.message && a.interrupted == b.interrupted

/-- The exception that carries an error. -/
def toRemote (e : XaError) : RemoteException :=
  ⟨⟨Fault.Class.transactionError, some e.message, some e.code⟩, []⟩

/-- The error that an exception carries, if it carries one. -/
def ofRemote? (e : RemoteException) : Option XaError :=
  if e.top.className = Fault.Class.transactionError then
    e.top.code.map fun code => make code (e.top.message.getD "")
  else none

end XaError

/-- What a coordinator asks of a branch. -/
inductive Primitive where
  | prepare
  | commit (onePhase : Bool)
  | rollback
  | beforeCompletion
  | forget
  deriving DecidableEq, Repr

/-- What a primitive answers: preparing answers with a vote. -/
abbrev PrimitiveResult := Except XaError (Option Vote)

end RemoteCall
