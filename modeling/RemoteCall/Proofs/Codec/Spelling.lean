import Mathlib.Algebra.BigOperators.Fin
import Mathlib.Tactic.Ring
import RemoteCall.Proofs.Codec.Packed

/-!
# The byte strings that stand for a packed number

A number may be spelled in several ways, since its last groups may be zero. The reader takes every
spelling that has at most five groups, and nothing else; the writer chooses the shortest one. The
main statement, `read_spellings`, says so for all numbers and all inputs.

## Implementation notes

The reader is followed with any scale and any sum before it, as it finds them after some groups.
How many groups are left bounds what may still be added: after `fuel + 1` groups that is less than
`16 * 128 ^ fuel`, which is all of a word for five groups. `shiftIn` keeps a word of thirty-two
bits throughout, and the same bound shows that none of them is lost.
-/

namespace RemoteCall.Packed

/-- Groups each of which says that another one follows, except for the last. -/
inductive Closed : Bytes → Prop
  | last {b : UInt8} (h : b.toNat < 128) : Closed [b]
  | more {b : UInt8} {rest : Bytes} (h : 128 ≤ b.toNat) (hrest : Closed rest) : Closed (b :: rest)

/-- What groups add up to: the group at place `i` counts `128 ^ i` times. -/
def total (used : Bytes) : Nat :=
  ∑ i : Fin used.length, used[i].toNat % 128 * 128 ^ i.val

/-- A word to which groups are added bit by bit, the first of them at the bit `place`. -/
def shiftIn : (place : Nat) → (word : UInt32) → Bytes → UInt32
  | _, word, [] => word
  | place, word, b :: rest =>
    shiftIn (place + 7) (word ||| (b &&& 0x7F).toUInt32 <<< UInt32.ofNat place) rest

/-- Bytes that stand for a number. -/
structure Spells (used : Bytes) (n : UInt32) : Prop where
  closed : Closed used
  length_le : used.length ≤ 5
  total_eq : total used = n.toNat

@[simp] theorem total_nil : total [] = 0 := rfl

@[simp] theorem total_cons (b : UInt8) (rest : Bytes) :
    total (b :: rest) = b.toNat % 128 + 128 * total rest := by
  have hsplit : total (b :: rest) =
      b.toNat % 128 * 128 ^ 0 + ∑ i : Fin rest.length, rest[i].toNat % 128 * 128 ^ (i.val + 1) :=
    Fin.sum_univ_succ _
  rw [hsplit, total, Finset.mul_sum, Nat.pow_zero, Nat.mul_one]
  congr 1
  refine Finset.sum_congr rfl fun i _ => ?_
  ring

theorem total_lt (used : Bytes) : total used < 128 ^ used.length := by
  induction used with
  | nil => exact Nat.one_pos
  | cons b rest ih =>
      rw [total_cons, List.length_cons, Nat.pow_succ]
      omega

theorem Closed.length_pos {used : Bytes} (h : Closed used) : 0 < used.length := by
  cases h with
  | last _ => exact Nat.one_pos
  | more _ _ => exact Nat.succ_pos _

theorem Closed.exists_last {used : Bytes} (h : Closed used) :
    ∃ front last, used = front ++ [last] ∧ (∀ b ∈ front, 128 ≤ b.toNat) ∧ last.toNat < 128 := by
  induction h with
  | @last b hb => exact ⟨[], b, rfl, List.forall_mem_nil _, hb⟩
  | @more b rest hb _ ih =>
      obtain ⟨front, last, rfl, hfront, hlast⟩ := ih
      exact ⟨b :: front, last, rfl, List.forall_mem_cons.mpr ⟨hb, hfront⟩, hlast⟩

/-! ### The writer -/

theorem closed_groups (fuel n : Nat) (h : n < 16 * 128 ^ fuel) : Closed (groups fuel n) := by
  induction fuel generalizing n with
  | zero =>
      rw [Nat.pow_zero] at h
      exact .last (by rw [last_group (by omega)]; omega)
  | succ fuel ih =>
      rw [groups]
      split
      · next hn => exact .last (by rw [last_group hn]; exact hn)
      · rw [Nat.pow_succ] at h
        exact .more (by rw [continued_group]; omega) (ih (n / 128) (by omega))

theorem total_groups (fuel n : Nat) (h : n < 16 * 128 ^ fuel) : total (groups fuel n) = n := by
  induction fuel generalizing n with
  | zero =>
      rw [Nat.pow_zero] at h
      rw [groups, total_cons, total_nil, last_group (by omega)]
      omega
  | succ fuel ih =>
      rw [groups]
      split
      · next hn =>
        rw [total_cons, total_nil, last_group hn]
        omega
      · rw [Nat.pow_succ] at h
        rw [total_cons, continued_group, ih (n / 128) (by omega)]
        omega

/-- A number below `128 ^ (k + 1)` has no more than `k + 1` groups. -/
theorem length_groups_le (fuel k n : Nat) (h : n < 128 ^ (k + 1)) :
    (groups fuel n).length ≤ k + 1 := by
  induction fuel generalizing k n with
  | zero => exact Nat.le_add_left 1 k
  | succ fuel ih =>
      rw [groups]
      split
      · exact Nat.le_add_left 1 k
      · next hn =>
        cases k with
        | zero =>
            rw [Nat.zero_add, Nat.pow_one] at h
            exact absurd h hn
        | succ k =>
            rw [Nat.pow_succ] at h
            exact Nat.succ_le_succ (ih k (n / 128) (by omega))

theorem spells_encode (n : UInt32) : Spells (encode n) n where
  closed := closed_groups 4 n.toNat n.toNat_lt
  length_le := length_groups_le 4 4 n.toNat (Nat.lt_trans n.toNat_lt (by decide))
  total_eq := total_groups 4 n.toNat n.toNat_lt

/-- No spelling is shorter than the one that is written. -/
theorem Spells.length_encode_le {used : Bytes} {n : UInt32} (h : Spells used n) :
    (encode n).length ≤ used.length := by
  obtain ⟨k, hk⟩ := Nat.exists_eq_add_of_lt h.closed.length_pos
  rw [Nat.zero_add] at hk
  rw [hk]
  apply length_groups_le
  rw [← h.total_eq, ← hk]
  exact total_lt used

/-! ### The word that is put together -/

theorem toNat_group (b : UInt8) : (b &&& 0x7F).toUInt32.toNat = b.toNat % 128 := by
  rw [UInt8.toNat_toUInt32, UInt8.toNat_and]
  exact Nat.and_two_pow_sub_one_eq_mod b.toNat 7

/-- A group that fits is added to the bits below its place. -/
theorem toNat_or_shiftLeft {place : Nat} {word : UInt32} {b : UInt8} (hplace : place < 32)
    (hword : word.toNat < 2 ^ place) (hfits : b.toNat % 128 * 2 ^ place < 2 ^ 32) :
    (word ||| (b &&& 0x7F).toUInt32 <<< UInt32.ofNat place).toNat =
      word.toNat + b.toNat % 128 * 2 ^ place := by
  have hamount : (UInt32.ofNat place).toNat % 32 = place := by
    rw [UInt32.toNat_ofNat']
    omega
  rw [UInt32.toNat_or, UInt32.toNat_shiftLeft, toNat_group, hamount, Nat.shiftLeft_eq,
    Nat.mod_eq_of_lt hfits, Nat.or_comm, Nat.mul_comm, ← Nat.two_pow_add_eq_or_of_lt hword,
    Nat.add_comm]

/-- Groups that fit in a word are added up in it. -/
theorem toNat_shiftIn {place : Nat} {word : UInt32} {used : Bytes}
    (hplace : place + 7 * used.length ≤ 35) (hword : word.toNat < 2 ^ place)
    (hfits : word.toNat + 2 ^ place * total used < 2 ^ 32) :
    (shiftIn place word used).toNat = word.toNat + 2 ^ place * total used := by
  induction used generalizing place word with
  | nil => rfl
  | cons b rest ih =>
      rw [List.length_cons] at hplace
      have hnext : 2 ^ (place + 7) = 2 ^ place * 128 := Nat.pow_add 2 place 7
      have hsum : word.toNat + 2 ^ place * total (b :: rest) =
          word.toNat + b.toNat % 128 * 2 ^ place + 2 ^ (place + 7) * total rest := by
        rw [total_cons, hnext]
        ring
      have hgroup : b.toNat % 128 * 2 ^ place ≤ 127 * 2 ^ place :=
        Nat.mul_le_mul_right _ (by omega)
      have hadded := toNat_or_shiftLeft (b := b) (by omega) hword (by omega)
      rw [hsum] at hfits ⊢
      rw [shiftIn, ih (by omega) (by omega) (by rwa [hadded]), hadded]

/-- The number that bytes stand for is the word that their groups make up. -/
theorem Spells.shiftIn_eq {used : Bytes} {n : UInt32} (h : Spells used n) :
    shiftIn 0 0 used = n := by
  have hplace : 0 + 7 * used.length ≤ 35 := by
    have := h.length_le
    omega
  have htotal : (0 : UInt32).toNat + 2 ^ 0 * total used = n.toNat := by
    rw [h.total_eq, Nat.pow_zero, Nat.one_mul]
    exact Nat.zero_add _
  apply UInt32.toNat_inj.mp
  rw [toNat_shiftIn hplace (by decide) (by rw [htotal]; exact n.toNat_lt), htotal]

/-! ### The reader -/

variable {fuel scale sum : Nat} {asked : Array String} {n : UInt32} {c : Cursor}

theorem readFrom_nil :
    readFrom (fuel + 1) scale sum ⟨[], asked⟩ = .error .unexpectedEnd ⟨[], asked⟩ := rfl

theorem readFrom_cons {b : UInt8} {rest : Bytes} :
    readFrom (fuel + 1) scale sum ⟨b :: rest, asked⟩ =
      if fuel = 0 ∧ 15 < b.toNat % 128 then .error .packedOverflow ⟨rest, asked⟩
      else if b.toNat < 128 then
        .ok (UInt32.ofNat (sum + b.toNat % 128 * scale)) ⟨rest, asked⟩
      else readFrom fuel (scale * 128) (sum + b.toNat % 128 * scale) ⟨rest, asked⟩ := by
  have hbyte : Reader.byte ⟨b :: rest, asked⟩ = .ok b ⟨rest, asked⟩ := rfl
  refine (Reader.bind_of_ok hbyte _).trans ?_
  dsimp only
  split
  · rfl
  · split
    · rfl
    · rfl

/-- Closed groups that are not more than are left, and add up to no more than those may, are read
whatever follows them. -/
theorem readFrom_of_closed {used : Bytes} (h : Closed used) (hlength : used.length ≤ fuel + 1)
    (hfits : total used < 16 * 128 ^ fuel) (rest : Bytes) :
    readFrom (fuel + 1) scale sum ⟨used ++ rest, asked⟩ =
      .ok (UInt32.ofNat (sum + total used * scale)) ⟨rest, asked⟩ := by
  induction h generalizing fuel scale sum with
  | @last b hb =>
      have hgroup : ¬ (fuel = 0 ∧ 15 < b.toNat % 128) := by
        rintro ⟨rfl, hb⟩
        rw [total_cons, total_nil, Nat.pow_zero] at hfits
        omega
      rw [List.cons_append, readFrom_cons, if_neg hgroup, if_pos hb, total_cons, total_nil]
      rfl
  | @more b later hb hlater ih =>
      rw [List.length_cons] at hlength
      have hpos := hlater.length_pos
      obtain ⟨fuel, rfl⟩ : ∃ k, fuel = k + 1 := ⟨fuel - 1, by omega⟩
      rw [total_cons, Nat.pow_succ] at hfits
      rw [List.cons_append, readFrom_cons, if_neg (fun h => Nat.succ_ne_zero _ h.1),
        if_neg (by omega), ih (by omega) (by omega), total_cons]
      congr 2
      ring

/-- What is read as a number starts with closed groups that add up to it. -/
theorem closed_of_readFrom {input : Bytes}
    (h : readFrom fuel scale sum ⟨input, asked⟩ = .ok n c) :
    ∃ used, input = used ++ c.unread ∧ c.asked = asked ∧ Closed used ∧ used.length ≤ fuel ∧
      128 * total used < 16 * 128 ^ fuel ∧ n = UInt32.ofNat (sum + total used * scale) := by
  induction fuel generalizing scale sum input with
  | zero => cases h
  | succ fuel ih =>
      cases input with
      | nil =>
          rw [readFrom_nil] at h
          cases h
      | cons b rest =>
          rw [readFrom_cons] at h
          split at h
          · cases h
          · next hgroup =>
            split at h
            · next hb =>
              cases h
              refine ⟨[b], rfl, rfl, .last hb, Nat.le_add_left 1 fuel, ?_, ?_⟩
              · have hpow := Nat.one_le_pow fuel 128 (by decide)
                rw [total_cons, total_nil, Nat.pow_succ]
                rcases Nat.eq_zero_or_pos fuel with rfl | hfuel
                · omega
                · have := Nat.pow_le_pow_right (n := 128) (by decide) hfuel
                  omega
              · rw [total_cons, total_nil]
                rfl
            · next hb =>
              obtain ⟨used, rfl, hasked, hclosed, hlength, hfits, rfl⟩ := ih h
              refine ⟨b :: used, rfl, hasked, .more (by omega) hclosed, Nat.succ_le_succ hlength,
                ?_, ?_⟩
              · have hpos := hclosed.length_pos
                obtain ⟨k, rfl⟩ : ∃ k, fuel = k + 1 := ⟨fuel - 1, by omega⟩
                rw [Nat.pow_succ] at hfits
                rw [total_cons, Nat.pow_succ, Nat.pow_succ]
                omega
              · rw [total_cons]
                congr 1
                ring

/-- The input ends too early where it has fewer groups than are left and each of them says that
another one follows. -/
theorem readFrom_eq_end_iff {input : Bytes} :
    (∃ c, readFrom fuel scale sum ⟨input, asked⟩ = .error .unexpectedEnd c) ↔
      input.length < fuel ∧ ∀ b ∈ input, 128 ≤ b.toNat := by
  induction fuel generalizing scale sum input with
  | zero => exact ⟨(fun ⟨_, h⟩ => nomatch h), fun h => absurd h.1 (Nat.not_lt_zero _)⟩
  | succ fuel ih =>
      cases input with
      | nil => exact ⟨fun _ => ⟨Nat.succ_pos _, List.forall_mem_nil _⟩, fun _ => ⟨_, rfl⟩⟩
      | cons b rest =>
          rw [readFrom_cons, List.length_cons, List.forall_mem_cons]
          split
          · next hgroup =>
            refine ⟨(fun ⟨_, h⟩ => nomatch h), fun h => ?_⟩
            omega
          · split
            · next hb =>
              refine ⟨(fun ⟨_, h⟩ => nomatch h), fun h => ?_⟩
              omega
            · next hb =>
              rw [ih]
              constructor
              · rintro ⟨hlength, hrest⟩
                exact ⟨Nat.succ_lt_succ hlength, by omega, hrest⟩
              · rintro ⟨hlength, -, hrest⟩
                exact ⟨Nat.lt_of_succ_lt_succ hlength, hrest⟩

theorem cause_of_readFrom {input : Bytes} {e : CodecError}
    (h : readFrom fuel scale sum ⟨input, asked⟩ = .error e c) :
    e = .unexpectedEnd ∨ e = .packedOverflow := by
  induction fuel generalizing scale sum input with
  | zero =>
      cases h
      exact .inr rfl
  | succ fuel ih =>
      cases input with
      | nil =>
          cases h
          exact .inl rfl
      | cons b rest =>
          rw [readFrom_cons] at h
          split at h
          · cases h
            exact .inr rfl
          · split at h
            · cases h
            · exact ih h

/-! ### All inputs -/

theorem read_of_spells {used : Bytes} (h : Spells used n) (rest : Bytes) :
    read ⟨used ++ rest, asked⟩ = .ok n ⟨rest, asked⟩ := by
  have hfits : total used < 16 * 128 ^ 4 := by
    rw [h.total_eq]
    exact n.toNat_lt
  rw [read, readFrom_of_closed h.closed h.length_le hfits, h.total_eq, Nat.zero_add, Nat.mul_one,
    UInt32.ofNat_toNat]

theorem read_eq_ok_iff {input : Bytes} :
    read ⟨input, asked⟩ = .ok n c ↔
      ∃ used, Spells used n ∧ input = used ++ c.unread ∧ c.asked = asked := by
  constructor
  · intro h
    obtain ⟨used, hinput, hasked, hclosed, hlength, hfits, rfl⟩ := closed_of_readFrom h
    have hword : total used < 2 ^ 32 := by omega
    refine ⟨used, ⟨hclosed, hlength, ?_⟩, hinput, hasked⟩
    rw [Nat.zero_add, Nat.mul_one, UInt32.toNat_ofNat', Nat.mod_eq_of_lt hword]
  · rintro ⟨used, hspells, rfl, rfl⟩
    exact read_of_spells hspells c.unread

/-- A number is written in one to five bytes, from which it is read back whatever follows. What is
read as a number is one of its spellings, with the rest left unread. Any other input is too short
exactly when it has fewer than five bytes, each of which says that another one follows, and says
too much in all other cases. No spelling is shorter than the one that is written, and none loses a
bit in a word of thirty-two bits. -/
theorem read_spellings {ε : Type} :
    (∀ (n : UInt32) (rest : Bytes) (asked : Array String),
      (write n : Emission ε) = .put (encode n) ∧
      1 ≤ (encode n).length ∧ (encode n).length ≤ 5 ∧
      read ⟨encode n ++ rest, asked⟩ = .ok n ⟨rest, asked⟩) ∧
    (∀ (input : Bytes) (asked : Array String),
      (∀ n c, read ⟨input, asked⟩ = .ok n c ↔
        ∃ used, Spells used n ∧ input = used ++ c.unread ∧ c.asked = asked) ∧
      ((∃ c, read ⟨input, asked⟩ = .error .unexpectedEnd c) ↔
        input.length < 5 ∧ ∀ b ∈ input, 128 ≤ b.toNat) ∧
      ∀ e c, read ⟨input, asked⟩ = .error e c → e = .unexpectedEnd ∨ e = .packedOverflow) ∧
    ∀ used n, Spells used n →
      (∃ front last, used = front ++ [last] ∧ (∀ b ∈ front, 128 ≤ b.toNat) ∧ last.toNat < 128) ∧
      shiftIn 0 0 used = n ∧ (encode n).length ≤ used.length := by
  refine ⟨fun n rest asked => ?_, fun input asked => ?_, fun used n h => ?_⟩
  · have hspells := spells_encode n
    exact ⟨rfl, hspells.closed.length_pos, hspells.length_le, read_of_spells hspells rest⟩
  · exact ⟨fun n c => read_eq_ok_iff, readFrom_eq_end_iff, fun e c h => cause_of_readFrom h⟩
  · exact ⟨h.closed.exists_last, h.shiftIn_eq, h.length_encode_le⟩

/-- A number may be spelled with a group of nothing at its end, which is not how it is written. -/
theorem read_spellings_trailing_nothing :
    Spells [0x81, 0x00] 1 ∧ encode 1 = [0x01] ∧
      read ⟨[0x81, 0x00, 0x05], #[]⟩ = .ok 1 ⟨[0x05], #[]⟩ ∧
      shiftIn 0 0 [0x81, 0x00] = 1 ∧ (encode 1).length ≤ [(0x81 : UInt8), 0x00].length := by
  have hspells : Spells [0x81, 0x00] 1 :=
    ⟨.more (by decide) (.last (by decide)), by decide, by decide⟩
  obtain ⟨-, hread, hspelled⟩ := @read_spellings Unit
  refine ⟨hspells, by decide, ?_, (hspelled _ _ hspells).2⟩
  exact ((hread _ _).1 _ _).mpr ⟨_, hspells, rfl, rfl⟩

end RemoteCall.Packed
