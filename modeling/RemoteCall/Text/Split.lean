/-!
# Texts made of parts

Splitting at every occurrence of a separator, joining again, and cutting once at the first
occurrence. A text without separators is one part, and so is the empty text.
-/

namespace RemoteCall.Text

/-- The parts between the separators, in order; there is always at least one. -/
def split (sep : Char) : List Char → List (List Char)
  | [] => [[]]
  | c :: cs =>
    if c = sep then [] :: split sep cs
    else
      match split sep cs with
      | [] => [[c]]
      | part :: parts => (c :: part) :: parts

/-- The parts with one separator between neighbours. -/
def join (sep : Char) : List (List Char) → List Char
  | [] => []
  | [part] => part
  | part :: parts => part ++ sep :: join sep parts

/-- What stands before and after the first separator, if there is one. -/
def cut (sep : Char) : List Char → Option (List Char × List Char)
  | [] => none
  | c :: cs =>
    if c = sep then some ([], cs)
    else (cut sep cs).map fun (before, after) => (c :: before, after)

theorem split_ne_nil (sep : Char) (cs : List Char) : split sep cs ≠ [] := by
  induction cs with
  | nil => simp [split]
  | cons c cs ih =>
      by_cases h : c = sep
      · simp [split, h]
      · simp only [split, h, if_false]
        split <;> simp

theorem join_cons (sep : Char) (part : List Char) {parts : List (List Char)} (h : parts ≠ []) :
    join sep (part :: parts) = part ++ sep :: join sep parts := by
  cases parts with
  | nil => exact absurd rfl h
  | cons _ _ => rfl

/-- Splitting loses nothing. -/
theorem join_split (sep : Char) (cs : List Char) : join sep (split sep cs) = cs := by
  induction cs with
  | nil => rfl
  | cons c cs ih =>
      by_cases h : c = sep
      · simp [split, h, join_cons sep [] (split_ne_nil sep cs), ih]
      · simp only [split, h, if_false]
        cases hs : split sep cs with
        | nil => exact absurd hs (split_ne_nil sep cs)
        | cons part parts =>
            rw [hs] at ih
            cases parts with
            | nil => simpa [join] using ih
            | cons _ _ => simpa [join] using ih

theorem split_of_not_mem {sep : Char} {cs : List Char} (h : sep ∉ cs) : split sep cs = [cs] := by
  induction cs with
  | nil => rfl
  | cons c cs ih =>
      obtain ⟨hc, hcs⟩ := List.ne_and_not_mem_of_not_mem_cons h
      simp only [split, if_neg (Ne.symm hc), ih hcs]

theorem split_append {sep : Char} {cs : List Char} (h : sep ∉ cs) (rest : List Char) :
    split sep (cs ++ sep :: rest) = cs :: split sep rest := by
  induction cs with
  | nil => simp [split]
  | cons c cs ih =>
      obtain ⟨hc, hcs⟩ := List.ne_and_not_mem_of_not_mem_cons h
      simp only [List.cons_append, split, if_neg (Ne.symm hc), ih hcs]

/-- The first part is what stands before the first separator. -/
theorem split_eq_takeWhile_cons (sep : Char) (cs : List Char) :
    ∃ more, split sep cs = cs.takeWhile (· != sep) :: more := by
  induction cs with
  | nil => exact ⟨[], rfl⟩
  | cons c cs ih =>
      by_cases h : c = sep
      · simp [split, h]
      · obtain ⟨more, hmore⟩ := ih
        exact ⟨more, by simp [split, h, hmore]⟩

/-- Parts without separators come back from between them. -/
theorem split_join {sep : Char} {parts : List (List Char)} (hne : parts ≠ [])
    (h : ∀ part ∈ parts, sep ∉ part) : split sep (join sep parts) = parts := by
  induction parts with
  | nil => exact absurd rfl hne
  | cons part parts ih =>
      obtain ⟨hpart, hparts⟩ := List.forall_mem_cons.mp h
      cases parts with
      | nil => exact split_of_not_mem hpart
      | cons next parts =>
          have hmore := List.cons_ne_nil next parts
          rw [join_cons sep part hmore, split_append hpart, ih hmore hparts]

theorem cut_append {sep : Char} {cs : List Char} (h : sep ∉ cs) (rest : List Char) :
    cut sep (cs ++ sep :: rest) = some (cs, rest) := by
  induction cs with
  | nil => simp [cut]
  | cons c cs ih =>
      obtain ⟨hc, hcs⟩ := List.ne_and_not_mem_of_not_mem_cons h
      simp only [List.cons_append, cut, if_neg (Ne.symm hc), ih hcs, Option.map_some]

theorem mem_of_mem_split {sep c : Char} {cs part : List Char} (hpart : part ∈ split sep cs)
    (hc : c ∈ part) : c ∈ cs ∧ c ≠ sep := by
  induction cs generalizing part with
  | nil =>
      obtain rfl := List.mem_singleton.mp hpart
      cases hc
  | cons d cs ih =>
      by_cases hd : d = sep
      · rw [split, if_pos hd] at hpart
        rcases List.mem_cons.mp hpart with rfl | hpart
        · cases hc
        · obtain ⟨hmem, hne⟩ := ih hpart hc
          exact ⟨List.mem_cons_of_mem _ hmem, hne⟩
      · rw [split, if_neg hd] at hpart
        cases hs : split sep cs with
        | nil => exact absurd hs (split_ne_nil sep cs)
        | cons first parts =>
            rw [hs] at hpart ih
            rcases List.mem_cons.mp hpart with rfl | hpart
            · rcases List.mem_cons.mp hc with rfl | hc
              · exact ⟨List.mem_cons_self, hd⟩
              · obtain ⟨hmem, hne⟩ := ih List.mem_cons_self hc
                exact ⟨List.mem_cons_of_mem _ hmem, hne⟩
            · obtain ⟨hmem, hne⟩ := ih (List.mem_cons_of_mem _ hpart) hc
              exact ⟨List.mem_cons_of_mem _ hmem, hne⟩

theorem mem_join {sep c : Char} {parts : List (List Char)} (h : c ∈ join sep parts) :
    c = sep ∨ ∃ part ∈ parts, c ∈ part := by
  induction parts with
  | nil => cases h
  | cons part parts ih =>
      cases parts with
      | nil => exact .inr ⟨part, List.mem_cons_self, h⟩
      | cons next parts =>
          rw [join_cons sep part (List.cons_ne_nil _ _)] at h
          rcases List.mem_append.mp h with h | h
          · exact .inr ⟨part, List.mem_cons_self, h⟩
          · rcases List.mem_cons.mp h with rfl | h
            · exact .inl rfl
            · rcases ih h with rfl | ⟨other, hmem, hc⟩
              · exact .inl rfl
              · exact .inr ⟨other, List.mem_cons_of_mem _ hmem, hc⟩

end RemoteCall.Text
