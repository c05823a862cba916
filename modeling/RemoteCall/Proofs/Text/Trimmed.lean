import Mathlib.Data.List.DropRight
import RemoteCall.Text.Blank
import RemoteCall.Text.Letters

/-!
# Texts that lose nothing at their ends

Taking a class of characters off the ends of a text gives a part of the text, which is the whole
text exactly when neither end is in the class. Whether a character is white space does not change
when letters are folded, so what is trimmed stays so.
-/

namespace RemoteCall.Text

variable {p : Char → Bool} {cs : List Char}

theorem isPrefix_dropTrailing (p : Char → Bool) (cs : List Char) : dropTrailing p cs <+: cs :=
  List.rdropWhile_prefix p cs

theorem dropTrailing_eq_self_iff :
    dropTrailing p cs = cs ↔ ∀ c ∈ cs.getLast?, p c = false := by
  refine List.rdropWhile_eq_self_iff.trans ⟨fun h c hc => ?_, fun h hne => ?_⟩
  · obtain ⟨hne, rfl⟩ := List.mem_getLast?_eq_getLast hc
    exact Bool.eq_false_iff.mpr (h hne)
  · exact Bool.eq_false_iff.mp (h _ (List.getLast_mem_getLast? hne))

/-- Nothing is dropped before a character that stays. -/
theorem dropTrailing_append {front : List Char} (hfront : ∀ c ∈ front.getLast?, p c = false)
    (cs : List Char) : dropTrailing p (front ++ cs) = front ++ dropTrailing p cs := by
  have hkept := dropTrailing_eq_self_iff.mpr hfront
  unfold dropTrailing at hkept ⊢
  rw [List.reverse_append, List.dropWhile_append]
  split
  · next hnone =>
    rw [hkept, List.isEmpty_iff.mp hnone, List.reverse_nil, List.append_nil]
  · rw [List.reverse_append, List.reverse_reverse]

theorem getLast?_dropTrailing {c : Char} (h : (dropTrailing p cs).getLast? = some c) :
    p c = false := by
  rw [dropTrailing, List.getLast?_reverse] at h
  have hnot := List.head?_dropWhile_not p cs.reverse
  rw [h] at hnot
  exact hnot

theorem exists_eq_dropTrailing_append (sep : Char) (cs : List Char) :
    ∃ n, cs = dropTrailing (· == sep) cs ++ List.replicate n sep := by
  induction cs using List.reverseRecOn with
  | nil => exact ⟨0, rfl⟩
  | append_singleton cs c ih =>
      rw [dropTrailing_append_singleton]
      by_cases hc : c = sep
      · obtain ⟨n, hn⟩ := ih
        refine ⟨n + 1, ?_⟩
        rw [if_pos (beq_iff_eq.mpr hc), List.replicate_succ', ← List.append_assoc, ← hn, hc]
      · rw [if_neg (by rwa [beq_iff_eq])]
        exact ⟨0, (List.append_nil _).symm⟩

/-- A text that does not end with a separator is what is left without the separators behind it. -/
theorem dropTrailing_append_replicate {sep : Char} (h : cs.getLast? ≠ some sep) (n : Nat) :
    dropTrailing (· == sep) (cs ++ List.replicate n sep) = cs := by
  have hkept : ∀ c ∈ cs.getLast?, (c == sep) = false := fun c hc =>
    beq_eq_false_iff_ne.mpr fun heq => h (heq ▸ hc)
  have hnone : dropTrailing (· == sep) (List.replicate n sep) = [] := by
    simp [dropTrailing]
  rw [dropTrailing_append hkept, hnone, List.append_nil]

theorem dropWhile_eq_self_iff : cs.dropWhile p = cs ↔ ∀ c ∈ cs.head?, p c = false := by
  cases cs with
  | nil => simp
  | cons c cs =>
      rw [List.head?_cons]
      by_cases hc : p c = true
      · have hshort : (cs.dropWhile p).length < (c :: cs).length :=
          Nat.lt_succ_of_le (List.dropWhile_suffix p).length_le
        rw [List.dropWhile_cons_of_pos hc]
        simp only [Option.mem_some_iff, forall_eq', hc, Bool.true_eq_false, iff_false]
        exact fun h => Nat.ne_of_lt hshort (congrArg List.length h)
      · rw [List.dropWhile_cons_of_neg hc]
        simpa using hc

theorem isInfix_strip (p : Char → Bool) (cs : List Char) : strip p cs <:+: cs :=
  (isPrefix_dropTrailing p _).isInfix.trans (List.dropWhile_suffix p).isInfix

/-- A text stays as it is when characters are taken off its ends if neither of them is one. -/
theorem strip_eq_self_iff :
    strip p cs = cs ↔ (∀ c ∈ cs.head?, p c = false) ∧ ∀ c ∈ cs.getLast?, p c = false := by
  rw [← dropWhile_eq_self_iff, ← dropTrailing_eq_self_iff]
  constructor
  · intro h
    have hfront : cs.dropWhile p = cs := by
      refine (List.dropWhile_suffix p).eq_of_length_le ?_
      have hle := (isPrefix_dropTrailing p (cs.dropWhile p)).length_le
      rwa [show dropTrailing p (cs.dropWhile p) = cs from h] at hle
    exact ⟨hfront, by rwa [strip, hfront] at h⟩
  · rintro ⟨hfront, hback⟩
    rw [strip, hfront, hback]

theorem strip_strip (p : Char → Bool) (cs : List Char) : strip p (strip p cs) = strip p cs := by
  have hfront : (strip p cs).dropWhile p = strip p cs := by
    refine dropWhile_eq_self_iff.mpr fun c hc => ?_
    have hhead : (cs.dropWhile p).head? = some c := by
      obtain ⟨back, hback⟩ := isPrefix_dropTrailing p (cs.dropWhile p)
      obtain ⟨rest, hrest⟩ := List.head?_eq_some_iff.mp (Option.mem_def.mp hc)
      rw [← hback, show dropTrailing p (cs.dropWhile p) = c :: rest from hrest]
      rfl
    have hnot := List.head?_dropWhile_not p cs
    rwa [hhead] at hnot
  conv_lhs => rw [strip, hfront]
  exact List.rdropWhile_idempotent p _

/-! ### Folded letters -/

theorem toLower_cases (c : Char) :
    c.toLower = c ∨ 65 ≤ c.toNat ∧ c.toNat ≤ 90 ∧ c.toLower.toNat = c.toNat + 32 := by
  unfold Char.toLower
  split
  · next h =>
    have hlow : 65 ≤ c.val.toNat := UInt32.le_iff_toNat_le.mp h.1
    have hhigh : c.val.toNat ≤ 90 := UInt32.le_iff_toNat_le.mp h.2
    refine .inr ⟨hlow, hhigh, ?_⟩
    change (c.val + 32).toNat = c.val.toNat + 32
    rw [UInt32.toNat_add]
    have hshift : (32 : UInt32).toNat = 32 := rfl
    omega
  · exact .inl rfl

theorem isBlank_toLower (c : Char) : isBlank c.toLower = isBlank c := by
  rcases toLower_cases c with h | ⟨hlow, hhigh, h⟩
  · rw [h]
  · have hblank : ∀ n, 65 ≤ n → n ≤ 122 → ∀ c : Char, c.toNat = n → isBlank c = false := by
      rintro n hlow hhigh c rfl
      simp only [isBlank, Bool.or_eq_false_iff, Bool.and_eq_false_iff, decide_eq_false_iff_not,
        beq_eq_false_iff_ne]
      omega
    rw [hblank _ (by omega) (by omega) c.toLower rfl, hblank _ hlow (by omega) c rfl]

/-- Folding makes no character out of another unless that is a small letter. -/
theorem mem_fold_iff {c : Char} (hc : c.toNat < 97) (hfolded : c.toLower = c) :
    c ∈ fold cs ↔ c ∈ cs := by
  refine List.mem_map.trans ⟨fun ⟨d, hd, heq⟩ => ?_, fun h => ⟨c, h, hfolded⟩⟩
  rcases toLower_cases d with h | ⟨hlow, -, h⟩
  · rwa [← heq, h]
  · rw [heq] at h
    omega

@[simp] theorem fold_fold (cs : List Char) : fold (fold cs) = fold cs := by
  refine (List.map_map).trans (List.map_congr_left fun c _ => ?_)
  rw [Function.comp_apply]
  rcases toLower_cases c with h | ⟨hlow, hhigh, h⟩
  · rw [h, h]
  · rcases toLower_cases c.toLower with h' | ⟨_, _, _⟩
    · exact h'
    · omega

theorem trim_fold (cs : List Char) : trim (fold cs) = fold (trim cs) := by
  have hblank : isBlank ∘ Char.toLower = isBlank := funext isBlank_toLower
  simp only [trim, strip, dropTrailing, fold, List.dropWhile_map, ← List.map_reverse, hblank]

end RemoteCall.Text
