import RemoteCall.Text.Quoted
import RemoteCall.Value.Basic

/-!
# Values in messages

The text of a value inside a message: the kind of the value with its contents in brackets, texts
quoted, numbers in decimal.
-/

namespace RemoteCall.Value

/-- Parts between commas. -/
def listed (parts : List String) : String :=
  ", ".intercalate parts

mutual

/-- The text of a value in a message. -/
def describe : Value → String
  | .null => "Null"
  | .bool true => "Bool(true)"
  | .bool false => "Bool(false)"
  | .int n => "Int(" ++ toString n.toInt ++ ")"
  | .long n => "Long(" ++ toString n.toInt ++ ")"
  | .double d => "Double(" ++ d.numeral ++ ")"
  | .text s => "String(" ++ Text.quoted s ++ ")"
  | .bytes b => "Bytes([" ++ listed (b.map fun x => toString x.toNat) ++ "])"
  | .list items => "List([" ++ listed (describeItems items) ++ "])"
  | .object c fields =>
    "Object \x7b class: " ++ Text.quoted c ++ ", fields: [" ++ listed (describeFields fields) ++
      "] \x7d"
  | .proxy interfaces handler =>
    "Proxy \x7b interfaces: [" ++ listed (interfaces.map Text.quoted) ++ "], handler: " ++
      describe handler ++ " \x7d"

/-- The texts of values. -/
def describeItems : List Value → List String
  | [] => []
  | v :: vs => describe v :: describeItems vs

/-- The texts of fields, each a name and a value in round brackets. -/
def describeFields : List (String × Value) → List String
  | [] => []
  | (k, v) :: fields => ("(" ++ Text.quoted k ++ ", " ++ describe v ++ ")") :: describeFields fields

end

/-- The text of named values in a message. -/
def describeEntries (entries : List (String × Value)) : String :=
  "\x7b" ++ listed (entries.map fun (k, v) => Text.quoted k ++ ": " ++ describe v) ++ "\x7d"

end RemoteCall.Value
