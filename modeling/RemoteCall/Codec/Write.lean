import RemoteCall.Codec.Emission
import RemoteCall.Codec.KnownValues
import RemoteCall.Codec.Resolver
import RemoteCall.Codec.Tag

/-!
# Writing values

A value is its tag followed by its contents; lengths and counts are 32-bit words, and everything
is most significant byte first. Values may be nested 64 deep below the outermost.
-/

namespace RemoteCall

/-- What two ends have to agree on besides the format: the names of types and the values known by
number. -/
structure Dialect where
  resolver : Resolver
  known : KnownValues

namespace Dialect

/-- Names as they are, and no value known by number. -/
def plain : Dialect := ⟨Resolver.plain, KnownValues.empty⟩

end Dialect

namespace Codec

/-- How many values may stand inside one another. -/
def maxNesting : Nat := 65

/-- A byte that tells the kind of what follows. -/
def putTag (t : Tag) : Emission CodecError :=
  .put [t.code]

/-- A length or count, if it fits in 32 bits. -/
def putLength (n : Nat) : Emission CodecError :=
  if n < 0x100000000 then .put (Bytes.ofNat 4 n) else .stop (.tooLong n)

/-- A byte string after its length. -/
def putBlock (b : Bytes) : Emission CodecError :=
  putLength b.length ++ .put b

/-- A text after its length in bytes. -/
def putText (s : String) : Emission CodecError :=
  putBlock (Bytes.ofText s)

theorem putLength_eq_put_iff {n : Nat} {w : Bytes} :
    putLength n = .put w ↔ n < 0x100000000 ∧ w = Bytes.ofNat 4 n := by
  unfold putLength
  split
  · next h => simp [h, eq_comm (a := w)]
  · next h => simp [h]

theorem putBlock_eq_put_iff {b w : Bytes} :
    putBlock b = .put w ↔ b.length < 0x100000000 ∧ w = Bytes.ofNat 4 b.length ++ b := by
  simp only [putBlock, Emission.append_eq_put_iff, putLength_eq_put_iff, Emission.put_inj]
  constructor
  · rintro ⟨_, _, ⟨h, rfl⟩, rfl, rfl⟩
    exact ⟨h, rfl⟩
  · rintro ⟨h, rfl⟩
    exact ⟨_, _, ⟨h, rfl⟩, rfl, rfl⟩

/-- A signed number in four bytes. -/
def intBytes (n : Int32) : Bytes :=
  Bytes.ofNat 4 n.toUInt32.toNat

/-- A signed number in eight bytes. -/
def longBytes (n : Int64) : Bytes :=
  Bytes.ofNat 8 n.toUInt64.toNat

/-- Writes a value with at most `levels` values inside one another. A well-known value is written
as a reference wherever it stands, but no deeper than any other. -/
def writeValue (d : Dialect) : (levels : Nat) → Value → Emission CodecError
  | 0, _ => .stop .tooDeep
  | levels + 1, v =>
    match d.known.indexOf v with
    | some i => putTag .reference ++ .put [i]
    | none =>
      match v with
      | .null => putTag .null
      | .bool true => putTag .yes
      | .bool false => putTag .no
      | .int n => putTag .int ++ .put (intBytes n)
      | .long n => putTag .long ++ .put (longBytes n)
      | .double x => putTag .double ++ .put (Bytes.ofNat 8 x.bits.toNat)
      | .text s => putTag .text ++ putText s
      | .bytes b => putTag .bytes ++ putBlock b
      | .list items =>
        putTag .list ++ putLength items.length ++
          .concat (items.map (writeValue d levels))
      | .object c fields =>
        putTag .object ++ putText (d.resolver.annotate c) ++ putLength fields.length ++
          .concat (fields.map fun (k, field) => putText k ++ writeValue d levels field)
      | .proxy interfaces handler =>
        putTag .proxy ++ putLength interfaces.length ++
          .concat (interfaces.map fun i => putText (d.resolver.annotate i)) ++
          writeValue d levels handler

/-- A well-known value is written as its number, wherever it stands. -/
theorem writeValue_of_known {d : Dialect} {levels : Nat} {v : Value} {i : UInt8}
    (h : d.known.indexOf v = some i) :
    writeValue d (levels + 1) v = putTag .reference ++ .put [i] := by
  simp only [writeValue, h]

/-- Writes a value. -/
def write (d : Dialect) (v : Value) : Emission CodecError :=
  writeValue d maxNesting v

end Codec

end RemoteCall
