import RemoteCall.Branch.Xid
import RemoteCall.Invocation.Attachments

/-!
# The bodies of invocations

A request carries an optional transaction descriptor, the parameters, and attachments; a response
carries the result and attachments. Nothing in a request says how many parameters there are, so
whoever decodes it has to know; and a body ends with its attachments.
-/

namespace RemoteCall.Invocation

/-- The body of a call. -/
structure Request where
  transaction : Option Descriptor
  parameters : List Value
  attachments : Attachments

/-- The body of an answer. -/
structure Response where
  result : Value
  attachments : Attachments

namespace Request

/-- Writes the body of a call. -/
def write (d : Dialect) (r : Request) : Wire :=
  Descriptor.writeOptional r.transaction ++ .concat (r.parameters.map (Wire.value d)) ++
    r.attachments.write d

/-- Reads the body of a call with the given number of parameters, to its end. -/
def read (d : Dialect) (parameterCount : Nat) : Parse Request := do
  let transaction ← Descriptor.readOptional
  let parameters ← Reader.times (Parse.value d) parameterCount
  let attachments ← Attachments.read d
  Parse.finish
  pure ⟨transaction, parameters, attachments⟩

end Request

namespace Response

/-- Writes the body of an answer. -/
def write (d : Dialect) (r : Response) : Wire :=
  Wire.value d r.result ++ r.attachments.write d

/-- Reads the body of an answer, to its end. -/
def read (d : Dialect) : Parse Response := do
  let result ← Parse.value d
  let attachments ← Attachments.read d
  Parse.finish
  pure ⟨result, attachments⟩

end Response

end RemoteCall.Invocation
