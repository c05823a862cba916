import RemoteCall.Invocation.Attachments

/-!
# The entries of attachments and the table of their places

The operations keep the table in step with the entries. Attachments of which the table is in step
are determined by their entries, so that setting the entries again one after the other gives the
attachments back, the table included.
-/

namespace RemoteCall.Attachments

/-- Attachments that come about by setting and removing keys. -/
inductive Built : Attachments → Prop
  | empty : Built empty
  | insert {a : Attachments} (h : Built a) (key : String) (v : Value) : Built (a.insert key v).2
  | remove {a : Attachments} (h : Built a) (key : String) : Built (a.remove key).2

variable {a b : Attachments} {key : String}

theorem indexed_iff : a.Indexed ↔
    ∀ key slot, a.slot? key = some slot ↔ ∃ v, a.toList[slot]? = some (key, v) := by
  simp only [Indexed, toList, Array.getElem?_toList]

theorem mem_toList_insert {a : Attachments} {key : String} {v : Value} {e : String × Value}
    (h : e ∈ (a.insert key v).2.toList) : e.2 = v ∨ e ∈ a.toList := by
  cases hs : a.slot? key with
  | none =>
      rw [toList_insert_of_no_slot hs, List.mem_append, List.mem_singleton] at h
      rcases h with h | rfl
      · exact .inr h
      · exact .inl rfl
  | some slot =>
      rw [toList_insert_of_slot hs, List.mem_iff_getElem?] at h
      obtain ⟨i, hi⟩ := h
      rw [List.getElem?_modify] at hi
      obtain ⟨e', he', rfl⟩ := Option.map_eq_some_iff.mp hi
      split
      · exact .inl rfl
      · exact .inr (List.mem_of_getElem? he')

theorem slot?_insert_of_slot {slot : Nat} (h : a.slot? key = some slot) (v : Value) (k : String) :
    (a.insert key v).2.slot? k = a.slot? k := by
  simp only [insert, h]
  rfl

theorem slot?_insert_of_no_slot (h : a.slot? key = none) (v : Value) (k : String) :
    (a.insert key v).2.slot? k = if key = k then some a.size else a.slot? k := by
  simp only [insert, h]
  change (a.slots.insert key a.size)[k]? = _
  rw [Std.ExtHashMap.getElem?_insert]
  simp only [beq_iff_eq, slot?]

theorem slot?_remove_of_slot {slot : Nat} (h : a.slot? key = some slot) (k : String) :
    (a.remove key).2.slot? k =
      if key = k then none
      else (a.slot? k).map fun place => if slot < place then place - 1 else place := by
  simp only [remove, h]
  change ((a.slots.erase key).map _)[k]? = _
  rw [Std.ExtHashMap.getElem?_map, Std.ExtHashMap.getElem?_erase]
  simp only [beq_iff_eq, slot?]
  split <;> rfl

theorem getElem?_concat_eq_some_iff {α : Type} {l : List α} {x y : α} {i : Nat} :
    (l ++ [x])[i]? = some y ↔ l[i]? = some y ∨ i = l.length ∧ x = y := by
  rcases Nat.lt_trichotomy i l.length with h | rfl | h
  · simp [List.getElem?_append_left h, Nat.ne_of_lt h]
  · simp
  · have hpast : (l ++ [x]).length ≤ i := by
      rw [List.length_append, List.length_singleton]
      omega
    simp [List.getElem?_eq_none hpast, List.getElem?_eq_none (Nat.le_of_lt h), Nat.ne_of_gt h]

namespace Indexed

/-- No two places hold the same key. -/
theorem eq_of_getElem? (h : a.Indexed) {i j : Nat} {v w : Value}
    (hi : a.toList[i]? = some (key, v)) (hj : a.toList[j]? = some (key, w)) : i = j := by
  have hi' := (indexed_iff.mp h key i).mpr ⟨v, hi⟩
  have hj' := (indexed_iff.mp h key j).mpr ⟨w, hj⟩
  exact Option.some.inj (hi'.symm.trans hj')

theorem insert (h : a.Indexed) (key : String) (v : Value) : (a.insert key v).2.Indexed := by
  cases hs : a.slot? key with
  | some slot =>
      obtain ⟨w, hw⟩ := (indexed_iff.mp h key slot).mp hs
      rw [indexed_iff] at h ⊢
      intro k place
      rw [slot?_insert_of_slot hs, toList_insert_of_slot hs, h, List.getElem?_modify]
      by_cases hp : slot = place
      · subst hp
        simp [hw]
      · simp [hp]
  | none =>
      rw [indexed_iff] at h ⊢
      intro k place
      simp only [slot?_insert_of_no_slot hs, toList_insert_of_no_slot hs,
        getElem?_concat_eq_some_iff, exists_or, ← h, length_toList]
      by_cases hk : key = k
      · subst hk
        simp [hs, eq_comm]
      · simp [hk]

/-- The place that an entry has before one at another place is removed. -/
theorem place_before_removal {p slot place : Nat} (h : p ≠ slot) :
    (if slot < p then p - 1 else p) = place ↔ p = if place < slot then place else place + 1 := by
  split <;> split <;> omega

theorem remove (h : a.Indexed) (key : String) : (a.remove key).2.Indexed := by
  cases hs : a.slot? key with
  | none =>
      rw [Attachments.remove, hs]
      exact h
  | some slot =>
      obtain ⟨w, hw⟩ := (indexed_iff.mp h key slot).mp hs
      refine indexed_iff.mpr fun k place => ?_
      rw [slot?_remove_of_slot hs, toList_remove_of_slot hs, List.getElem?_eraseIdx,
        ← apply_ite (a.toList[·]?)]
      by_cases hk : key = k
      · subst hk
        rw [if_pos rfl]
        constructor
        · intro hnone
          cases hnone
        · rintro ⟨v, hv⟩
          have hplace := h.eq_of_getElem? hw hv
          split at hplace <;> omega
      · rw [if_neg hk, ← indexed_iff.mp h k]
        cases hp : a.slot? k with
        | none => simp
        | some p =>
            have hne : p ≠ slot := by
              rintro rfl
              obtain ⟨w', hw'⟩ := (indexed_iff.mp h k p).mp hp
              exact hk (congrArg Prod.fst (Option.some.inj (hw.symm.trans hw')))
            simp [place_before_removal hne]

theorem slot?_eq_none_iff (h : a.Indexed) :
    a.slot? key = none ↔ ∀ v, (key, v) ∉ a.toList := by
  rw [Option.eq_none_iff_forall_ne_some]
  simp only [ne_eq, indexed_iff.mp h key, List.mem_iff_getElem?, not_exists]
  exact forall_comm

theorem nodup_keys (h : a.Indexed) : (a.toList.map Prod.fst).Nodup := by
  rw [List.Nodup, List.pairwise_map, List.pairwise_iff_getElem]
  intro i j hi hj hij hkey
  have hi' : a.toList[i]? = some (a.toList[i].1, a.toList[i].2) := List.getElem?_eq_getElem hi
  have hj' : a.toList[j]? = some (a.toList[i].1, a.toList[j].2) := by
    rw [List.getElem?_eq_getElem hj, hkey]
  exact Nat.ne_of_lt hij (h.eq_of_getElem? hi' hj')

/-- Attachments that are in step with their table are determined by their entries. -/
theorem eq_of_toList_eq (ha : a.Indexed) (hb : b.Indexed) (h : a.toList = b.toList) : a = b := by
  obtain ⟨entries, slots⟩ := a
  obtain ⟨entries', slots'⟩ := b
  have hentries : entries = entries' := Array.toList_inj.mp h
  have hslots : slots = slots' := by
    refine Std.ExtHashMap.ext_getElem? fun key => Option.ext fun place => ?_
    exact ((indexed_iff.mp ha key place).trans (by rw [h])).trans (indexed_iff.mp hb key place).symm
  rw [hentries, hslots]

end Indexed

theorem Built.indexed (h : Built a) : a.Indexed := by
  induction h with
  | empty => exact empty_indexed
  | insert _ key v ih => exact ih.insert key v
  | remove _ key ih => exact ih.remove key

/-- Sets keys one after the other. -/
def insertAll (a : Attachments) (entries : List (String × Value)) : Attachments :=
  entries.foldl (fun a e => (a.insert e.1 e.2).2) a

theorem Built.insertAll (h : Built a) (entries : List (String × Value)) :
    Built (a.insertAll entries) := by
  induction entries generalizing a with
  | nil => exact h
  | cons e entries ih => exact ih (h.insert e.1 e.2)

theorem Built.ofList (entries : List (String × Value)) : Built (Attachments.ofList entries) :=
  Built.empty.insertAll entries

/-- Keys that are new and occur once are appended in order. -/
theorem toList_insertAll {entries : List (String × Value)} (h : a.Indexed)
    (hnew : ((a.toList ++ entries).map Prod.fst).Nodup) :
    (a.insertAll entries).Indexed ∧ (a.insertAll entries).toList = a.toList ++ entries := by
  induction entries generalizing a with
  | nil => exact ⟨h, (List.append_nil _).symm⟩
  | cons e entries ih =>
      obtain ⟨key, v⟩ := e
      have hslot : a.slot? key = none := by
        rw [h.slot?_eq_none_iff]
        intro w hw
        rw [List.map_append, List.nodup_append] at hnew
        exact hnew.2.2 key (List.mem_map_of_mem hw) key List.mem_cons_self rfl
      have htail := ih (h.insert key v) (by
        rw [toList_insert_of_no_slot hslot, List.append_assoc]
        exact hnew)
      rw [toList_insert_of_no_slot hslot, List.append_assoc] at htail
      exact htail

/-- Setting the entries of attachments again gives the attachments back. -/
theorem insertAll_toList (h : a.Indexed) : empty.insertAll a.toList = a := by
  have hnew : (((∅ : Attachments).toList ++ a.toList).map Prod.fst).Nodup := h.nodup_keys
  obtain ⟨hindexed, htoList⟩ := toList_insertAll empty_indexed hnew
  exact hindexed.eq_of_toList_eq h htoList

end RemoteCall.Attachments
