import RemoteCall.Codec.Lift

/-!
# Failures that travel

A failure is carried as an object whose class is the class of the exception, with a message, an
optional error code and an optional cause, which is again such an object. Since an exception has
at most one cause, an exception is a chain of faults.
-/

namespace RemoteCall

/-- An exception without its cause. -/
structure Fault where
  className : String
  message : Option String
  code : Option Int32
  deriving DecidableEq, Repr

/-- An exception: a fault, and the faults that led to it, nearest first. -/
structure RemoteException where
  top : Fault
  causes : List Fault
  deriving DecidableEq, Repr

/-! The classes of the exceptions that a service itself raises. -/

namespace Fault.Class

/-- A message names a type that is refused. -/
def invalidClass := "java.io.InvalidClassException"
/-- A message cannot be decoded. -/
def streamCorrupted := "java.io.StreamCorruptedException"
/-- A transaction cannot be imported. -/
def illegalState := "java.lang.IllegalStateException"
/-- An invocation was cancelled. -/
def cancellation := "java.util.concurrent.CancellationException"
/-- A component, or a session of it, does not exist. -/
def noSuchComponent := "jakarta.ejb.NoSuchEJBException"
/-- A component has no such method. -/
def noSuchMethod := "java.lang.NoSuchMethodException"
/-- A component is addressed in a way that does not fit it. -/
def illegalArgument := "java.lang.IllegalArgumentException"
/-- A transaction branch answered with an error code. -/
def transactionError := "javax.transaction.xa.XAException"
/-- Any other failure. -/
def runtime := "java.lang.RuntimeException"

end Fault.Class

namespace Fault

/-- The text shown for a fault. -/
def text (f : Fault) : String :=
  match f.message with
  | some m => f.className ++ ": " ++ m
  | none => f.className

/-- The object for a fault with the object for its cause. -/
def toValue (f : Fault) (cause : Option Value) : Value :=
  .object f.className <|
    ("message", match f.message with | some m => .text m | none => .null) ::
      ((f.code.toList.map fun c => ("errorCode", .int c)) ++
        cause.toList.map fun c => ("cause", c))

/-- The object for the first of a chain of faults. -/
def chainValue : List Fault → Option Value
  | [] => none
  | f :: fs => some (f.toValue (chainValue fs))

end Fault

namespace RemoteException

/-- A fault without a cause. -/
def ofMessage (className message : String) : RemoteException :=
  ⟨⟨className, some message, none⟩, []⟩

/-- The exception for a failure that is known by texts only, that of the failure and those of what
led to it. -/
def ofTrace (className text : String) (sources : List String) : RemoteException :=
  ⟨⟨className, some text, none⟩, sources.map fun s => ⟨Fault.Class.runtime, some s, none⟩⟩

/-- The exception with another one as its cause. -/
def causedBy (e cause : RemoteException) : RemoteException :=
  ⟨e.top, cause.top :: cause.causes⟩

/-- The faults of the chain, from the exception itself to its root. -/
def chain (e : RemoteException) : List Fault :=
  e.top :: e.causes

/-- The text shown for an exception. -/
def text (e : RemoteException) : String :=
  e.top.text

/-- The texts of the exception and of what led to it. -/
def trace (e : RemoteException) : List String :=
  e.chain.map Fault.text

/-- The object for an exception. -/
def toValue (e : RemoteException) : Value :=
  e.top.toValue (Fault.chainValue e.causes)

mutual

/-- The exception that an object stands for. A message that is not a text and a code that is not a
32-bit number count as absent, and so does a null cause. -/
def ofValue : Value → Except ProtocolError RemoteException
  | .object className fields => do
    let causes ← causesOf fields
    pure
      ⟨⟨className, (fields.lookup "message").bind Value.text?,
        (fields.lookup "errorCode").bind Value.int?⟩, causes⟩
  | _ => .error (.violation "exception payload is not an object")

/-- The chain under the first field that names a cause. -/
def causesOf : List (String × Value) → Except ProtocolError (List Fault)
  | [] => .ok []
  | (key, v) :: fields =>
    if key = "cause" then
      match v with
      | .null => .ok []
      | v => do
        let e ← ofValue v
        pure e.chain
    else causesOf fields

end

/-- Writes an exception. -/
def write (d : Dialect) (e : RemoteException) : Wire :=
  Wire.value d e.toValue

/-- Reads an exception, with which the message has to end. -/
def read (d : Dialect) : Parse RemoteException := do
  let v ← Parse.value d
  Parse.finish
  match ofValue v with
  | .ok e => pure e
  | .error e => throw e

end RemoteException

end RemoteCall
