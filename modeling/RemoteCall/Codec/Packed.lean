import RemoteCall.Codec.Emission
import RemoteCall.Codec.Reader

/-!
# Packed numbers

A number below 2^32 in groups of seven bits, least significant first. The top bit of a byte says
that another group follows; there are at most five groups, and the fifth has four bits.
-/

namespace RemoteCall.Packed

/-- The groups of a number, at most `fuel + 1` of them. -/
def groups : (fuel : Nat) → Nat → Bytes
  | 0, n => [UInt8.ofNat n]
  | fuel + 1, n =>
    if n < 128 then [UInt8.ofNat n]
    else UInt8.ofNat (n % 128 + 128) :: groups fuel (n / 128)

/-- The groups of a word. -/
def encode (n : UInt32) : Bytes :=
  groups 4 n.toNat

/-- Writes a packed number. -/
def write {ε : Type} (n : UInt32) : Emission ε :=
  .put (encode n)

/-- Reads at most `fuel` more groups, of which the first counts `scale` times, after those that add
up to `sum`. -/
def readFrom : (fuel scale sum : Nat) → Reader CodecError UInt32
  | 0, _, _ => throw .packedOverflow
  | fuel + 1, scale, sum => do
    let b ← Reader.byte
    let group := b.toNat % 128
    if fuel = 0 ∧ 15 < group then throw .packedOverflow
    else
      let total := sum + group * scale
      if b.toNat < 128 then pure (UInt32.ofNat total) else readFrom fuel (scale * 128) total

/-- Reads a packed number. -/
def read : Reader CodecError UInt32 :=
  readFrom 5 1 0

end RemoteCall.Packed
