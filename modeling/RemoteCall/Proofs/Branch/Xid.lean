import RemoteCall.Branch.Xid
import RemoteCall.Proofs.Codec.Accepted
import RemoteCall.Proofs.Codec.Delimited

/-!
# Branch names and descriptors delimit themselves

The length before a part of a branch name is a signed number, which stands for the length because
the part is within its limit. Nothing else than what is written for a name within its limits is read
as one.
-/

namespace RemoteCall

open Reader

namespace Xid

theorem toInt_ofNat_length {b : Bytes} (h : b.length ≤ maxPart) :
    (Int32.ofNat b.length).toInt = b.length := by
  rw [Int32.toInt_ofNat_of_lt]
  exact Nat.lt_of_le_of_lt h (by decide)

theorem delimits_part {b : Bytes} (h : b.length ≤ maxPart) :
    Delimits (.codec .unexpectedEnd) readPart (Codec.intBytes (Int32.ofNat b.length) ++ b) b := by
  apply (Delimits.int _).ofCodec.bind
  have hlimit : 0 ≤ (b.length : Int) ∧ (b.length : Int) ≤ maxPart := by omega
  rw [toInt_ofNat_length h, if_pos hlimit, Int.toNat_natCast]
  exact (Delimits.take b).ofCodec

/-- The bytes of a branch name. -/
def encoding (x : Xid) : Bytes :=
  Codec.intBytes x.format ++
    (Codec.intBytes (Int32.ofNat x.globalId.length) ++ x.globalId ++
      (Codec.intBytes (Int32.ofNat x.qualifier.length) ++ x.qualifier))

theorem write_eq_put (x : Xid) : x.write = .put x.encoding := by
  simp only [write, writePart, Wire.int, Emission.put_append_put, encoding, List.append_assoc]

/-- A branch name within its limits delimits itself. -/
theorem delimits_encoding {x : Xid} (h : x.WithinLimits) :
    Delimits (.codec .unexpectedEnd) read x.encoding x := by
  refine (Delimits.int _).ofCodec.bind ((delimits_part h.1).bind ?_)
  exact (delimits_part h.2).bind_nil (Delimits.pure x)

theorem accepts_part : Accepts readPart fun b part =>
    b = Codec.intBytes (Int32.ofNat part.length) ++ part ∧ part.length ≤ maxPart := by
  apply Accepts.int.ofCodec.bind
  rintro _ length rfl
  split
  · next hlimit =>
    apply (Accepts.take _).ofCodec.weaken
    rintro _ part ⟨rfl, hlength⟩
    have hle : part.length ≤ maxPart := by omega
    have hsame : Int32.ofNat part.length = length := by
      rw [← Int32.toInt_inj, toInt_ofNat_length hle]
      omega
    exact ⟨by rw [hsame], hle⟩
  · exact .throw _

/-- What is read as a branch name is what is written for it, and the name is within its limits. -/
theorem accepts_read : Accepts read fun b x => b = x.encoding ∧ x.WithinLimits := by
  apply Accepts.int.ofCodec.bind
  rintro _ format rfl
  apply accepts_part.bind
  rintro _ globalId ⟨rfl, hglobal⟩
  apply accepts_part.bind
  rintro _ qualifier ⟨rfl, hqualifier⟩
  exact .pure ⟨by rw [List.append_nil]; rfl, hglobal, hqualifier⟩

end Xid

namespace Descriptor

/-- A descriptor, or the mark that there is none, delimits itself. -/
theorem delimits_writeOptional {t : Option Descriptor} {w : Bytes}
    (h : ∀ d ∈ t, d.xid.WithinLimits) (hw : writeOptional t = .put w) :
    Delimits (.codec .unexpectedEnd) readOptional w t := by
  cases t with
  | none =>
      obtain rfl := Emission.put_inj.mp hw
      exact (Delimits.byte 0).ofCodec.bind_nil (Delimits.pure none)
  | some d =>
      simp only [writeOptional, Wire.byte, Wire.int, Xid.write_eq_put, Emission.put_append_put,
        Emission.put_inj, List.append_assoc] at hw
      subst hw
      apply (Delimits.byte 1).ofCodec.bind
      apply (Xid.delimits_encoding (h d rfl)).bind
      exact (Delimits.int d.timeout).ofCodec.bind_nil (Delimits.pure (some d))

end Descriptor

end RemoteCall
