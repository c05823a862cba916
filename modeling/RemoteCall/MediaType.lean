import RemoteCall.ProtocolError
import RemoteCall.Text.Blank
import RemoteCall.Text.Letters
import RemoteCall.Text.Split

/-!
# Media types with a version

The header that says what a body is: a type, and a version among its parameters. The type is
compared without regard to case and other parameters are ignored.
-/

namespace RemoteCall

/-- A media type in a given version. -/
structure MediaType where
  name : String
  version : UInt32
  deriving DecidableEq, Repr

namespace MediaType

/-- The header text of a media type. -/
def text (m : MediaType) : String :=
  m.name ++ ";version=" ++ toString m.version.toNat

/-- The version that a parameter gives: nothing if it is another parameter, and nothing inside if
it gives no number. -/
def versionOf? (parameter : List Char) : Option (Option UInt32) :=
  match Text.cut '=' parameter with
  | none => none
  | some (key, value) =>
    if Text.sameFolded (Text.trim key) "version".toList then
      some (Text.word? (Text.strip (· == '"') (Text.trim value)))
    else none

/-- The last version that parameters give, if every version among them is a number. -/
def lastVersion (latest : Option UInt32) : List (List Char) → Option UInt32
  | [] => latest
  | parameter :: rest =>
    match versionOf? parameter with
    | none => lastVersion latest rest
    | some (some version) => lastVersion (some version) rest
    | some none => none

/-- The media type that a header text names. -/
def parse? (header : List Char) : Option MediaType :=
  match Text.split ';' header with
  | [] => none
  | part :: parameters =>
    let name := Text.trim part
    if '/' ∈ name then
      (lastVersion none parameters).map fun version => ⟨String.ofList (Text.fold name), version⟩
    else none

/-- The media type that a header names, or the header that names none. -/
def parse (header : String) : Except ProtocolError MediaType :=
  match parse? header.toList with
  | some m => .ok m
  | none => .error (.mediaType header)

/-- The same type in the same version. -/
def agrees (a b : MediaType) : Bool :=
  Text.sameFolded a.name.toList b.name.toList && a.version == b.version

/-- A header has to be there and to name this media type. -/
def expect (m : MediaType) : Option String → Except ProtocolError Unit
  | none => .error (.mediaType "<missing>")
  | some header => do
    let named ← parse header
    if m.agrees named then pure () else .error (.mediaType header)

/-- The body of a call. -/
def invocation : MediaType := ⟨"application/x-wf-ejb-jbmar-invocation", 1⟩

/-- The body of an answer to a call. -/
def invocationResponse : MediaType := ⟨"application/x-wf-ejb-jbmar-response", 1⟩

/-- The body of a failure. -/
def exception : MediaType := ⟨"application/x-wf-jbmar-exception", 1⟩

/-- The body of a request about a transaction branch. -/
def xid : MediaType := ⟨"application/x-wf-jbmar-xid", 1⟩

end MediaType

end RemoteCall
