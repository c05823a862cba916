import RemoteCall.Decimal.Shortest

/-!
# Double precision numbers

A double travels as its sixty-four bits, so it is kept as those bits: two numbers that compare as
equal may differ as data, and a number may fail to compare as equal to itself.
-/

namespace RemoteCall

/-- A double precision number, as its bits in the IEEE 754 format. -/
structure Double where
  bits : UInt64
  deriving DecidableEq, Repr

namespace Double

/-- The sign bit. -/
def isNegative (d : Double) : Bool :=
  d.bits.toNat / 0x8000000000000000 = 1

/-- The eleven exponent bits. -/
def exponentField (d : Double) : Nat :=
  d.bits.toNat / 0x10000000000000 % 0x800

/-- The fifty-two fraction bits. -/
def fractionField (d : Double) : Nat :=
  d.bits.toNat % 0x10000000000000

/-- Neither infinite nor a number. -/
def isNaN (d : Double) : Bool :=
  d.exponentField == 2047 && d.fractionField != 0

/-- Infinite, of either sign. -/
def isInfinite (d : Double) : Bool :=
  d.exponentField == 2047 && d.fractionField == 0

/-- Zero, of either sign. -/
def isZero (d : Double) : Bool :=
  d.exponentField == 0 && d.fractionField == 0

/-- Numerical equality: not-a-number equals nothing, and both zeros are equal. -/
def same (a b : Double) : Bool :=
  !a.isNaN && !b.isNaN && (a.bits == b.bits || (a.isZero && b.isZero))

/-- The magnitude of a finite number. -/
def magnitude (d : Double) : Decimal.Binary :=
  if d.exponentField = 0 then ⟨d.fractionField, -1074, false⟩
  else
    ⟨0x10000000000000 + d.fractionField, (d.exponentField : Int) - 1075,
      d.fractionField == 0 && d.exponentField != 1⟩

/-- A decimal in positional notation, with at least one digit on either side of the point. -/
def positional (s : Decimal.Scientific) : String :=
  let digits := Nat.toDigits 10 s.significand
  let point : Int := digits.length + s.exponent
  String.ofList <|
    if point ≤ 0 then ['0', '.'] ++ List.replicate (-point).toNat '0' ++ digits
    else if 0 ≤ s.exponent then digits ++ List.replicate s.exponent.toNat '0' ++ ['.', '0']
    else digits.take point.toNat ++ '.' :: digits.drop point.toNat

/-- A decimal with one digit before the point and a power of ten. -/
def scientific (s : Decimal.Scientific) : String :=
  let digits := Nat.toDigits 10 s.significand
  let power : Int := digits.length + s.exponent - 1
  String.ofList (digits.take 1 ++ (if digits.length ≤ 1 then [] else '.' :: digits.drop 1)) ++
    "e" ++ toString power

/-- The shortest numeral that reads back, positional from `1e-4` up to but not including `1e16`. -/
def numeral (d : Double) : String :=
  if d.isNaN then "NaN"
  else
    let sign := if d.isNegative then "-" else ""
    if d.isInfinite then sign ++ "inf"
    else if d.isZero then sign ++ "0.0"
    else
      let s := d.magnitude.shortest
      let point : Int := Decimal.digitCount s.significand + s.exponent
      sign ++ if -4 < point ∧ point ≤ 16 then positional s else scientific s

theorem same_self_iff {d : Double} : d.same d = true ↔ d.isNaN = false := by
  simp [same]

end Double

end RemoteCall
