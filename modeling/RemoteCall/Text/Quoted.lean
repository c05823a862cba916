import RemoteCall.Text.Extending
import RemoteCall.Text.Numeral
import RemoteCall.Text.Unprintable

/-!
# Quoted text

A text between double quotes, for messages about values: quotes, backslashes and the common
controls have short escapes, and every other character that would not show is written as its code
point.
-/

namespace RemoteCall.Text

/-- A character as it stands inside quotes. -/
def escape (c : Char) : List Char :=
  if c = '\x00' then ['\\', '0']
  else if c = '\t' then ['\\', 't']
  else if c = '\n' then ['\\', 'n']
  else if c = '\r' then ['\\', 'r']
  else if c = '"' then ['\\', '"']
  else if c = '\\' then ['\\', '\\']
  else if isExtending c || isUnprintable c then
    ['\\', 'u', '\x7b'] ++ hexNumeral c.toNat ++ ['\x7d']
  else [c]

/-- A text between double quotes. -/
def quoted (s : String) : String :=
  String.ofList ('"' :: (s.toList.flatMap escape ++ ['"']))

end RemoteCall.Text
