/-!
# The shortest decimal that reads back

A positive binary number `m * 2 ^ q` stands for all reals that round to it. Among the decimals in
that interval, the one with the fewest digits is chosen, and of those the nearest. All arithmetic
is on natural numbers.
-/

namespace RemoteCall.Decimal

/-- A decimal `significand * 10 ^ exponent`. -/
structure Scientific where
  significand : Nat
  exponent : Int
  deriving DecidableEq, Repr

/-- A positive binary number together with the reals that round to it. -/
structure Binary where
  /-- The number is `mantissa * 2 ^ exponent`. -/
  mantissa : Nat
  exponent : Int
  /-- The number below is half as far away as the number above. -/
  narrowBelow : Bool
  deriving DecidableEq, Repr

/-- The least count from `d` on that is enough for the decimal digits of a number, at most `fuel`
more than `d`. -/
def enoughDigits (n : Nat) : (fuel d : Nat) → Nat
  | 0, d => d
  | fuel + 1, d => if n < Nat.pow 10 d then d else enoughDigits n fuel (d + 1)

/-- The number of decimal digits of a natural number. Ten binary digits are worth more than three
decimal ones, and a binary digit is worth less than one. -/
def digitCount (n : Nat) : Nat :=
  enoughDigits n n.log2 (3 * n.log2 / 10 + 1)

/-- The `e` with `10 ^ (e - 1) ≤ num / den < 10 ^ e`, for positive arguments. -/
def magnitude (num den : Nat) : Int :=
  if den ≤ num then digitCount (num / den)
  else 1 - digitCount ((den - 1) / num)

/-- Leaves out the zeros at the end of the significand, looking at no more than `fuel` of them. -/
def Scientific.dropZeros (s : Scientific) : (fuel : Nat) → Scientific
  | 0 => s
  | fuel + 1 =>
    if s.significand % 10 = 0 then
      Scientific.dropZeros ⟨s.significand / 10, s.exponent + 1⟩ fuel
    else s

namespace Binary

/-- A quarter of the last place of the mantissa, where multiples of `10 ^ e` are multiples of
`grid e`. -/
def quarter (b : Binary) (e : Int) : Nat :=
  Nat.pow 2 (b.exponent - 2).toNat * Nat.pow 10 (-e).toNat

/-- The distance of the multiples of `10 ^ e`, where a quarter of the last place is `quarter e`. -/
def grid (b : Binary) (e : Int) : Nat :=
  Nat.pow 2 (2 - b.exponent).toNat * Nat.pow 10 e.toNat

/-- Whether a point rounds to the number, where a quarter of the last place is `unit`. The ends of
the interval belong to it when the mantissa is even. -/
def covers (b : Binary) (unit point : Nat) : Bool :=
  let low := (4 * b.mantissa - if b.narrowBelow then 1 else 2) * unit
  let high := (4 * b.mantissa + 2) * unit
  if b.mantissa % 2 = 0 then low ≤ point && point ≤ high
  else low < point && point < high

/-- The multiple of `10 ^ e` that rounds to the number, if one of its two neighbours on that grid
does: of both the nearer, and the upper one if they are equally near. -/
def onGrid? (b : Binary) (e : Int) : Option Nat :=
  let unit := b.quarter e
  let step := b.grid e
  let value := 4 * b.mantissa * unit
  let below := value / step
  match b.covers unit (below * step), b.covers unit ((below + 1) * step) with
  | true, true => if 2 * (value % step) < step then some below else some (below + 1)
  | true, false => some below
  | false, true => some (below + 1)
  | false, false => none

/-- The first grid with a hit, from `places` significant digits on. -/
def search (b : Binary) (top : Int) : (fuel places : Nat) → Scientific
  | 0, places => ⟨b.mantissa, top - places⟩
  | fuel + 1, places =>
    match b.onGrid? (top - places) with
    | some n => ⟨n, top - places⟩
    | none => b.search top fuel (places + 1)

/-- The shortest decimal that rounds to the number; seventeen digits always suffice. -/
def shortest (b : Binary) : Scientific :=
  let top := magnitude (b.mantissa * Nat.pow 2 b.exponent.toNat) (Nat.pow 2 (-b.exponent).toNat)
  (b.search top 17 1).dropZeros 17

end Binary

end RemoteCall.Decimal
