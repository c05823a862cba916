/-!
# Numerals

Decimal numerals as headers carry them, and the hexadecimal digits of bytes.
-/

namespace RemoteCall.Text

/-- A number with one more decimal digit behind it, if that is below a limit. -/
def addDigit? (limit n : Nat) (c : Char) : Option Nat :=
  let next := 10 * n + (c.toNat - '0'.toNat)
  if c.isDigit && next < limit then some next else none

/-- The value of a run of decimal digits, if it is not empty and its value is below a limit. A
numeral only grows with more digits, so nothing is read beyond the one that reaches the limit. -/
def digits? (limit : Nat) : List Char → Option Nat
  | [] => none
  | cs => cs.foldlM (addDigit? limit) 0

/-- A decimal numeral below 2^32, with at most one plus sign before it. -/
def word? (cs : List Char) : Option UInt32 :=
  let unsigned := match cs with
    | '+' :: rest => rest
    | _ => cs
  (digits? 0x100000000 unsigned).map UInt32.ofNat

/-- A hexadecimal digit, in small letters. -/
def hexDigit (n : Nat) : Char :=
  if n < 10 then Char.ofNat ('0'.toNat + n) else Char.ofNat ('a'.toNat + (n - 10))

/-- A byte as two hexadecimal digits. -/
def hexByte (b : UInt8) : List Char :=
  [hexDigit (b.toNat / 16), hexDigit (b.toNat % 16)]

/-- Bytes as hexadecimal digits, two for each byte. -/
def hex (bs : List UInt8) : List Char :=
  bs.flatMap hexByte

/-- A number in hexadecimal, without leading zeros. -/
def hexNumeral (n : Nat) : List Char :=
  Nat.toDigits 16 n

@[simp] theorem hex_nil : hex [] = [] := rfl

@[simp] theorem hex_cons (b : UInt8) (bs : List UInt8) : hex (b :: bs) = hexByte b ++ hex bs := rfl

end RemoteCall.Text
