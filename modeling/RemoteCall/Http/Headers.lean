import RemoteCall.Text.Blank
import RemoteCall.Text.Letters
import RemoteCall.Text.Split

/-!
# Header fields and cookies

Names of header fields are kept in small letters. A value may hold any text without control
characters, but a value with other than ASCII characters is not readable, and whoever looks such a
field up finds nothing.
-/

namespace RemoteCall.Http

/-- Header fields in the order in which they were added. -/
structure Headers where
  fields : List (String × String)
  deriving DecidableEq, Repr

namespace Headers

/-- The name of a header field in small letters. -/
def canonical (name : String) : String :=
  String.ofList (Text.fold name.toList)

/-- No header fields. -/
def empty : Headers := ⟨[]⟩

/-- Adds a field; there may be others of the same name. -/
def add (h : Headers) (name value : String) : Headers :=
  ⟨h.fields ++ [(canonical name, value)]⟩

/-- The given fields. -/
def ofList (fields : List (String × String)) : Headers :=
  fields.foldl (fun h (name, value) => h.add name value) empty

/-- Makes a field the only one of its name. -/
def set (h : Headers) (name value : String) : Headers :=
  add ⟨h.fields.filter (·.1 != canonical name)⟩ name value

/-- The values of the fields of a name, in order. -/
def values (h : Headers) (name : String) : List String :=
  (h.fields.filter (·.1 == canonical name)).map (·.2)

/-- Whether there is a field of a name. -/
def has (h : Headers) (name : String) : Bool :=
  h.fields.any (·.1 == canonical name)

/-- Whether a value can be read as a text: visible ASCII characters, spaces and tabs. -/
def isReadable (value : String) : Bool :=
  value.toList.all fun c => c == '\t' || (0x20 ≤ c.toNat && c.toNat < 0x7F)

/-- Whether a text can be the value of a field: no control characters, except tabs. -/
def isValue (value : String) : Bool :=
  value.toList.all fun c => c == '\t' || (0x20 ≤ c.toNat && c.toNat != 0x7F)

/-- The first value of a name, if it is readable. -/
def get? (h : Headers) (name : String) : Option String :=
  match h.values name with
  | [] => none
  | value :: _ => if isReadable value then some value else none

/-- The value that one `Cookie` field gives to a name. -/
def cookieIn? (name field : List Char) : Option String :=
  (Text.split ';' field).findSome? fun pair =>
    match Text.cut '=' (Text.trim pair) with
    | some (key, value) =>
      if key = name then some (String.ofList (Text.strip (· == '"') value)) else none
    | none => none

/-- The value of a cookie, from the first readable `Cookie` field that names it. -/
def cookie? (h : Headers) (name : String) : Option String :=
  let name := name.toList
  ((h.values "cookie").filter isReadable).findSome? fun field => cookieIn? name field.toList

end Headers

/-- The cookie that holds the session affinity. -/
def sessionCookie : String := "JSESSIONID"

/-- The header that holds the invocation identifier. -/
def invocationIdHeader : String := "x-wf-invocation-id"

/-- The header that tells a read-only vote. -/
def readOnlyHeader : String := "x-wf-txn-read-only"

end RemoteCall.Http
