import RemoteCall.Bytes

/-!
# Session tokens

A session identifier inside a path is written in base 64 with the alphabet that is safe in
addresses. Tokens are written with padding and read with or without it.
-/

namespace RemoteCall.SessionToken

/-- The byte of the padding sign. -/
def pad : UInt8 := 61

/-- The sign for a number below 64. -/
def sign (n : Nat) : UInt8 :=
  UInt8.ofNat <|
    if n < 26 then 65 + n
    else if n < 52 then 97 + (n - 26)
    else if n < 62 then 48 + (n - 52)
    else if n = 62 then 45
    else 95

/-- The number that a sign stands for. -/
def value? (b : UInt8) : Option Nat :=
  let n := b.toNat
  if 65 ≤ n ∧ n ≤ 90 then some (n - 65)
  else if 97 ≤ n ∧ n ≤ 122 then some (n - 97 + 26)
  else if 48 ≤ n ∧ n ≤ 57 then some (n - 48 + 52)
  else if n = 45 then some 62
  else if n = 95 then some 63
  else none

/-- Three bytes become four signs; a group that is not full is padded. -/
def encode : Bytes → Bytes
  | a :: b :: c :: rest =>
    let n := Bytes.toNat [a, b, c]
    sign (n / 262144) :: sign (n / 4096 % 64) :: sign (n / 64 % 64) :: sign (n % 64) ::
      encode rest
  | [a, b] =>
    let n := Bytes.toNat [a, b]
    [sign (n / 1024), sign (n / 16 % 64), sign (n % 16 * 4), pad]
  | [a] =>
    let n := a.toNat
    [sign (n / 4), sign (n % 4 * 16), pad, pad]
  | [] => []

/-- Why a text is no token. -/
inductive Failure where
  | badSign (b : UInt8) (offset : Nat)
  | badLength (length : Nat)
  /-- The last sign carries bits that no byte takes up. -/
  | badLast (b : UInt8) (offset : Nat)
  deriving DecidableEq, Repr

/-- The text shown for a failure. -/
def Failure.message : Failure → String
  | badSign b i => "Invalid symbol " ++ toString b.toNat ++ ", offset " ++ toString i ++ "."
  | badLength n => "Invalid input length: " ++ toString n
  | badLast b i => "Invalid last symbol " ++ toString b.toNat ++ ", offset " ++ toString i ++ "."

/-- The number of the sign at an offset. -/
def valueAt (offset : Nat) (b : UInt8) : Except Failure Nat :=
  match value? b with
  | some n => .ok n
  | none => .error (.badSign b offset)

/-- The signs of the last group, with the offset of the group, the place in the group, and the
place of the first padding sign, if one was met. Padding may stand in the third and fourth place
only, and nothing may follow it. -/
def lastSigns (offset : Nat) : (place : Nat) → (padded : Option Nat) → Bytes →
    Except Failure (List (UInt8 × Nat))
  | _, _, [] => .ok []
  | place, padded, b :: rest => do
    if b = pad then
      if place < 2 then .error (.badSign b (offset + place))
      else lastSigns offset (place + 1) (padded <|> some place) rest
    else
      match padded with
      | some first => .error (.badSign pad (offset + first))
      | none => do
        let n ← valueAt (offset + place) b
        let signs ← lastSigns offset (place + 1) none rest
        pure ((b, n) :: signs)

/-- Decodes the last group, which may lack padding. -/
def decodeLast (offset : Nat) (group : Bytes) : Except Failure Bytes := do
  match ← lastSigns offset 0 none group with
  | [(_, a), (_, b), (_, c), (_, d)] =>
    pure (Bytes.ofNat 3 (a * 262144 + b * 4096 + c * 64 + d))
  | [(_, a), (_, b), (s, c)] =>
    if c % 4 = 0 then pure (Bytes.ofNat 2 (a * 1024 + b * 16 + c / 4))
    else .error (.badLast s (offset + 2))
  | [(_, a), (s, b)] =>
    if b % 16 = 0 then pure (Bytes.ofNat 1 (a * 4 + b / 16))
    else .error (.badLast s (offset + 1))
  | signs => .error (.badLength (offset + signs.length))

/-- Decodes group by group, from the group at an offset on. -/
def decodeFrom (offset : Nat) : Bytes → Except Failure Bytes
  | a :: b :: c :: d :: e :: rest => do
    let a ← valueAt offset a
    let b ← valueAt (offset + 1) b
    let c ← valueAt (offset + 2) c
    let d ← valueAt (offset + 3) d
    let tail ← decodeFrom (offset + 4) (e :: rest)
    pure (Bytes.ofNat 3 (a * 262144 + b * 4096 + c * 64 + d) ++ tail)
  | group => decodeLast offset group

/-- The bytes that a token stands for. A single sign after the last full group is reported first
if it is none. -/
def decode (token : Bytes) : Except Failure Bytes :=
  match token.getLast? with
  | some b =>
    if token.length % 4 = 1 ∧ b ≠ pad ∧ value? b = none then
      .error (.badSign b (token.length - 1))
    else decodeFrom 0 token
  | none => .ok []

end RemoteCall.SessionToken
