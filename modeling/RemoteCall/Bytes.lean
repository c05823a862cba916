/-!
# Bytes and words

Byte strings, and numbers written as a fixed count of bytes, most significant first.
-/

namespace RemoteCall

/-- A byte string. -/
abbrev Bytes := List UInt8

namespace Bytes

/-- The last `width` base-256 digits of a number, most significant first. -/
def ofNat : (width : Nat) → Nat → Bytes
  | 0, _ => []
  | width + 1, n => ofNat width (n / 256) ++ [UInt8.ofNat n]

/-- The number that bytes are the base-256 digits of. -/
def toNat (b : Bytes) : Nat :=
  b.foldl (fun n x => 256 * n + x.toNat) 0

/-- The bytes of a text in UTF-8. -/
def ofText (s : String) : Bytes :=
  s.toUTF8.data.toList

/-- The text that bytes are the UTF-8 form of, if there is one. -/
def toText? (b : Bytes) : Option String :=
  String.fromUTF8? ⟨b.toArray⟩

/-- Whether there are at least `n` bytes; looks at no more than `n` of them. -/
def hasAtLeast (n : Nat) (b : Bytes) : Bool :=
  (b.take n).length == n

@[simp] theorem length_ofNat (width n : Nat) : (ofNat width n).length = width := by
  induction width generalizing n with
  | zero => rfl
  | succ width ih => simp [ofNat, ih]

@[simp] theorem toNat_append_singleton (b : Bytes) (x : UInt8) :
    toNat (b ++ [x]) = 256 * toNat b + x.toNat := by
  simp [toNat]

/-- A number that fits is read back. -/
theorem toNat_ofNat {width n : Nat} (h : n < Nat.pow 256 width) : toNat (ofNat width n) = n := by
  induction width generalizing n with
  | zero =>
      have hn : n = 0 := Nat.lt_one_iff.mp h
      simp [hn, ofNat, toNat]
  | succ width ih =>
      have hq : n / 256 < Nat.pow 256 width := Nat.div_lt_of_lt_mul (by
        rw [Nat.mul_comm]
        exact h)
      rw [ofNat, toNat_append_singleton, ih hq, UInt8.toNat_ofNat']
      omega

theorem exists_eq_append_singleton {b : Bytes} {width : Nat} (h : b.length = width + 1) :
    ∃ front x, b = front ++ [x] ∧ front.length = width := by
  have hb : b ≠ [] := List.ne_nil_of_length_eq_add_one h
  refine ⟨b.dropLast, b.getLast hb, (List.dropLast_concat_getLast hb).symm, ?_⟩
  rw [List.length_dropLast, h, Nat.add_sub_cancel]

theorem toNat_lt (b : Bytes) : toNat b < Nat.pow 256 b.length := by
  induction h : b.length generalizing b with
  | zero => simp [List.eq_nil_of_length_eq_zero h, toNat]
  | succ width ih =>
      obtain ⟨front, x, rfl, hfront⟩ := exists_eq_append_singleton h
      have hlt := ih front hfront
      have hx : x.toNat < 256 := x.toNat_lt
      have hpow : Nat.pow 256 (width + 1) = Nat.pow 256 width * 256 := rfl
      rw [toNat_append_singleton, hpow]
      omega

/-- Bytes are the digits of the number that they stand for. -/
theorem ofNat_toNat (b : Bytes) : ofNat b.length (toNat b) = b := by
  induction h : b.length generalizing b with
  | zero => simp [List.eq_nil_of_length_eq_zero h, ofNat]
  | succ width ih =>
      obtain ⟨front, x, rfl, hfront⟩ := exists_eq_append_singleton h
      have hx : x.toNat < 256 := x.toNat_lt
      rw [toNat_append_singleton, ofNat]
      have hq : (256 * toNat front + x.toNat) / 256 = toNat front := by omega
      rw [hq, ih front hfront]
      have hr : UInt8.ofNat (256 * toNat front + x.toNat) = x := by
        apply UInt8.toNat_inj.mp
        rw [UInt8.toNat_ofNat']
        omega
      rw [hr]

theorem hasAtLeast_iff {n : Nat} {b : Bytes} : hasAtLeast n b = true ↔ n ≤ b.length := by
  simp only [hasAtLeast, List.length_take, beq_iff_eq]
  omega

@[simp] theorem toText?_ofText (s : String) : toText? (ofText s) = some s := by
  have h : String.fromUTF8? s.toUTF8 = some s := by
    unfold String.fromUTF8?
    split
    · rfl
    · next h => exact absurd s.isValidUTF8 h
  exact h

theorem ofText_of_toText? {b : Bytes} {s : String} (h : toText? b = some s) : ofText s = b := by
  unfold toText? String.fromUTF8? at h
  split at h
  · cases h
    simp [ofText, String.toUTF8, String.fromUTF8]
  · cases h

end Bytes

end RemoteCall
