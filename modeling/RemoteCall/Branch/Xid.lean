import RemoteCall.Codec.Lift
import RemoteCall.Text.Numeral

/-!
# Transaction branches by name

A branch is named by a format number and two byte strings, the global identifier and the branch
qualifier, of at most 64 bytes each. On the wire each of them follows its length. An optional
descriptor adds the time that is left, behind a marker byte that says whether there is one.
-/

namespace RemoteCall

/-- The name of a transaction branch. -/
structure Xid where
  format : Int32
  globalId : Bytes
  qualifier : Bytes
  deriving DecidableEq, Repr

namespace Xid

/-- The most bytes that the global identifier or the branch qualifier may have. -/
def maxPart : Nat := 64

/-- Neither part of the name is too long. -/
def WithinLimits (x : Xid) : Prop :=
  x.globalId.length ≤ maxPart ∧ x.qualifier.length ≤ maxPart

instance (x : Xid) : Decidable x.WithinLimits := inferInstanceAs (Decidable (_ ∧ _))

/-- The branch with the given name, if the name is within its limits. -/
def make (format : Int32) (globalId qualifier : Bytes) : Except ProtocolError Xid :=
  if maxPart < globalId.length then
    .error (.invalidXid ("global id is " ++ toString globalId.length ++ " bytes"))
  else if maxPart < qualifier.length then
    .error (.invalidXid ("branch qualifier is " ++ toString qualifier.length ++ " bytes"))
  else .ok ⟨format, globalId, qualifier⟩

/-- The name in a message: the format in decimal and both parts in hexadecimal. -/
def text (x : Xid) : String :=
  toString x.format.toInt ++ ":" ++ String.ofList (Text.hex x.globalId) ++ ":" ++
    String.ofList (Text.hex x.qualifier)

/-- A byte string after its length. -/
def writePart (b : Bytes) : Wire :=
  Wire.int (Int32.ofNat b.length) ++ .put b

/-- Writes the name of a branch. -/
def write (x : Xid) : Wire :=
  Wire.int x.format ++ writePart x.globalId ++ writePart x.qualifier

/-- Reads a byte string after its length, which has to be within the limit. -/
def readPart : Parse Bytes := do
  let length ← Parse.int
  if 0 ≤ length.toInt ∧ length.toInt ≤ maxPart then
    Parse.ofCodec (Reader.take length.toInt.toNat)
  else throw (.invalidXid ("block length " ++ toString length.toInt))

/-- Reads the name of a branch. -/
def read : Parse Xid := do
  let format ← Parse.int
  let globalId ← readPart
  let qualifier ← readPart
  pure ⟨format, globalId, qualifier⟩

theorem make_eq_ok_iff {format : Int32} {globalId qualifier : Bytes} {x : Xid} :
    make format globalId qualifier = .ok x ↔
      x = ⟨format, globalId, qualifier⟩ ∧ x.WithinLimits := by
  unfold make
  split
  · constructor
    · intro h; cases h
    · rintro ⟨rfl, h, -⟩; simp only at h; omega
  · split
    · constructor
      · intro h; cases h
      · rintro ⟨rfl, -, h⟩; simp only at h; omega
    · constructor
      · intro h; cases h; exact ⟨rfl, by simp only [WithinLimits]; omega⟩
      · rintro ⟨rfl, -⟩; rfl

end Xid

/-- The transaction that an invocation runs under. -/
structure Descriptor where
  xid : Xid
  /-- The seconds that are left. -/
  timeout : Int32
  deriving DecidableEq, Repr

namespace Descriptor

/-- Writes a descriptor behind its marker, or the marker for none. -/
def writeOptional : Option Descriptor → Wire
  | none => Wire.byte 0
  | some d => Wire.byte 1 ++ d.xid.write ++ Wire.int d.timeout

/-- Reads a marker and the descriptor it announces. -/
def readOptional : Parse (Option Descriptor) := do
  let marker ← Parse.byte
  if marker = 0 then pure none
  else if marker = 1 then do
    let xid ← Xid.read
    let timeout ← Parse.int
    pure (some ⟨xid, timeout⟩)
  else throw (.unknownMarker marker)

end Descriptor

end RemoteCall
