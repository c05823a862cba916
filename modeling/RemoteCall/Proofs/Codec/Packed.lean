import Mathlib.Tactic.Ring
import RemoteCall.Proofs.Codec.Delimited

/-!
# Packed numbers are read back

The reader keeps the sum of the groups before the place where it stands and the scale of the next
group. A number that is left at that place and fits in the groups that are left is added to the
sum, whatever the sum and the scale are.
-/

namespace RemoteCall.Packed

open Reader

/-- Groups that are not the last one carry a top bit, which the reader takes off again. -/
theorem continued_group (n : Nat) : (UInt8.ofNat (n % 128 + 128)).toNat = n % 128 + 128 := by
  rw [UInt8.toNat_ofNat']
  omega

theorem last_group {n : Nat} (h : n < 128) : (UInt8.ofNat n).toNat = n := by
  rw [UInt8.toNat_ofNat']
  omega

/-- The groups of a number are delimited for a reader that has as many groups left. -/
theorem delimits_groups (fuel scale sum n : Nat) (h : n < 16 * Nat.pow 128 fuel) :
    Delimits .unexpectedEnd (readFrom (fuel + 1) scale sum) (groups fuel n)
      (UInt32.ofNat (sum + n * scale)) := by
  induction fuel generalizing scale sum n with
  | zero =>
      have hn : n < 16 := h
      apply (Delimits.byte _).bind_nil
      rw [last_group (by omega), if_neg (by omega), if_pos (by omega), Nat.mod_eq_of_lt (by omega)]
      exact Delimits.pure _
  | succ fuel ih =>
      have hcount : ¬ (fuel + 1 = 0 ∧ 15 < (n % 128)) := by omega
      by_cases hn : n < 128
      · rw [groups, if_pos hn]
        apply (Delimits.byte _).bind_nil
        rw [last_group hn, if_neg hcount, if_pos hn, Nat.mod_eq_of_lt hn]
        exact Delimits.pure _
      · have hq : n / 128 < 16 * Nat.pow 128 fuel := by
          have hpow : Nat.pow 128 (fuel + 1) = Nat.pow 128 fuel * 128 := rfl
          rw [hpow, ← Nat.mul_assoc] at h
          exact Nat.div_lt_of_lt_mul (by rwa [Nat.mul_comm])
        have hsum : sum + n % 128 * scale + n / 128 * (scale * 128) = sum + n * scale := by
          have hn := Nat.mod_add_div n 128
          calc
            sum + n % 128 * scale + n / 128 * (scale * 128)
                = sum + (n % 128 + 128 * (n / 128)) * scale := by ring
            _ = sum + n * scale := by rw [hn]
        rw [groups, if_neg hn]
        refine (Delimits.byte _).bind (b := [_]) ?_
        have hgroup : (n % 128 + 128) % 128 = n % 128 := by omega
        rw [continued_group, hgroup, if_neg hcount, if_neg (by omega), ← hsum]
        exact ih (scale * 128) _ (n / 128) hq

/-- A number below 128 is one byte. -/
theorem encode_of_lt {n : UInt32} (h : n.toNat < 128) : encode n = [UInt8.ofNat n.toNat] :=
  if_pos h

/-- A number from 128 on starts with a byte from 128 on. -/
theorem encode_of_le {n : UInt32} (h : 128 ≤ n.toNat) :
    ∃ x l, encode n = x :: l ∧ 128 ≤ x.toNat := by
  refine ⟨_, _, if_neg (Nat.not_lt.mpr h), ?_⟩
  rw [continued_group]
  exact Nat.le_add_left _ _

/-- A packed number delimits itself. -/
theorem delimits_encode (n : UInt32) : Delimits .unexpectedEnd read (encode n) n := by
  have h := delimits_groups 4 1 0 n.toNat n.toNat_lt
  rw [Nat.zero_add, Nat.mul_one, UInt32.ofNat_toNat] at h
  exact h

end RemoteCall.Packed
