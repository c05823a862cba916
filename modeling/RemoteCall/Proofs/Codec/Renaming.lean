import RemoteCall.Proofs.Codec.RoundTrip
import RemoteCall.Value.Names

/-!
# Values and the names in them

How a value is written depends on the names that occur in it and on no others. No name is under
both roots at once, so renaming gives a name back unless it is a legacy name itself, and values
without legacy names are read back from peers of either kind.
-/

namespace RemoteCall

namespace Namespace

/-- The name is that of something that has moved, under the given root. -/
def IsUnder (root name : List Char) : Prop :=
  root.isPrefixOf name = true ∧ hasMoved (name.drop root.length) = true

/-- The name belongs to a package that has moved, and is under the legacy root. -/
def IsLegacy (name : String) : Prop :=
  legacyRoot.isPrefixOf name.toList = true ∧
    hasMoved (name.toList.drop legacyRoot.length) = true

instance (name : String) : Decidable (IsLegacy name) := inferInstanceAs (Decidable (_ ∧ _))

/-- The name belongs to a package that has moved, and is under the current root. -/
def IsCurrent (name : String) : Prop := IsUnder currentRoot name.toList

instance (name : String) : Decidable (IsCurrent name) := inferInstanceAs (Decidable (_ ∧ _))

theorem isUnder_iff {root name : List Char} :
    IsUnder root name ↔ ∃ rest, name = root ++ rest ∧ hasMoved rest = true := by
  unfold IsUnder
  rw [List.isPrefixOf_iff_prefix]
  constructor
  · rintro ⟨⟨rest, rfl⟩, hmoved⟩
    rw [List.drop_left] at hmoved
    exact ⟨rest, rfl, hmoved⟩
  · rintro ⟨rest, rfl, hmoved⟩
    rw [List.drop_left]
    exact ⟨List.prefix_append .., hmoved⟩

theorem changeRoot_eq_self {old new name : List Char} (h : ¬ IsUnder old name) :
    changeRoot old new name = name := by
  rw [changeRoot, if_neg]
  rwa [Bool.and_eq_true]

theorem changeRoot_append {old new rest : List Char} (h : hasMoved rest = true) :
    changeRoot old new (old ++ rest) = new ++ rest := by
  obtain ⟨hstart, hmoved⟩ := isUnder_iff.mpr ⟨rest, rfl, h⟩
  rw [changeRoot, if_pos (by rw [hstart, hmoved]; rfl), List.drop_left]

/-- A name under neither root is the new name of itself only. -/
theorem changeRoot_eq_iff {old new name other : List Char} (hold : ¬ IsUnder old other)
    (hnew : ¬ IsUnder new other) : changeRoot old new name = other ↔ name = other := by
  constructor
  · rintro rfl
    by_cases h : IsUnder old name
    · obtain ⟨rest, rfl, hmoved⟩ := isUnder_iff.mp h
      rw [changeRoot_append hmoved] at hnew
      exact absurd (isUnder_iff.mpr ⟨rest, rfl, hmoved⟩) hnew
    · exact (changeRoot_eq_self h).symm
  · rintro rfl
    exact changeRoot_eq_self hold

section Roots

/-! Two roots under which no name is at once. -/

variable {old new : List Char} (apart : ∀ rest rest', old ++ rest ≠ new ++ rest')

include apart

theorem not_isUnder_append (rest : List Char) : ¬ IsUnder old (new ++ rest) := by
  rw [isUnder_iff]
  rintro ⟨rest', hrest, -⟩
  exact apart rest' rest hrest.symm

/-- A name that is moved to another root is no longer under the first. -/
theorem not_isUnder_changeRoot (name : List Char) : ¬ IsUnder old (changeRoot old new name) := by
  by_cases h : IsUnder old name
  · obtain ⟨rest, rfl, hmoved⟩ := isUnder_iff.mp h
    rw [changeRoot_append hmoved]
    exact not_isUnder_append apart rest
  · rwa [changeRoot_eq_self h]

theorem changeRoot_eq_self_iff {name : List Char} :
    changeRoot old new name = name ↔ ¬ IsUnder old name :=
  ⟨fun h => h ▸ not_isUnder_changeRoot apart name, changeRoot_eq_self⟩

/-- Moving a name away first changes nothing about where it ends. -/
theorem changeRoot_changeRoot (name : List Char) :
    changeRoot old new (changeRoot new old name) = changeRoot old new name := by
  by_cases h : IsUnder new name
  · obtain ⟨rest, rfl, hmoved⟩ := isUnder_iff.mp h
    rw [changeRoot_append hmoved, changeRoot_append hmoved,
      changeRoot_eq_self (not_isUnder_append apart rest)]
  · rw [changeRoot_eq_self h]

end Roots

theorem roots_apart (rest rest' : List Char) : legacyRoot ++ rest ≠ currentRoot ++ rest' := by
  intro h
  have hthird : (legacyRoot ++ rest)[2]? = (currentRoot ++ rest')[2]? := congrArg (·[2]?) h
  rw [List.getElem?_append_left (by decide), List.getElem?_append_left (by decide)] at hthird
  exact absurd hthird (by decide)

/-- The names that reading from a legacy peer leaves as they are. -/
theorem toCurrent_eq_self_iff {name : String} : toCurrent name = name ↔ ¬ IsLegacy name := by
  rw [← String.toList_inj, toCurrent, String.toList_ofList]
  exact changeRoot_eq_self_iff roots_apart

/-- Going through a legacy name changes nothing about the current name. -/
theorem toCurrent_toLegacy_eq (name : String) : toCurrent (toLegacy name) = toCurrent name := by
  rw [toCurrent, toLegacy, String.toList_ofList, changeRoot_changeRoot roots_apart, toCurrent]

/-- Going through a current name changes nothing about the legacy name. -/
theorem toLegacy_toCurrent_eq (name : String) : toLegacy (toCurrent name) = toLegacy name := by
  have hapart (rest rest' : List Char) : currentRoot ++ rest ≠ legacyRoot ++ rest' :=
    (roots_apart rest' rest).symm
  rw [toLegacy, toCurrent, String.toList_ofList, changeRoot_changeRoot hapart, toLegacy]

/-- A name under neither root is the current name of itself only. -/
theorem toCurrent_eq_iff {name other : String} (hlegacy : ¬ IsLegacy other)
    (hcurrent : ¬ IsCurrent other) : toCurrent name = other ↔ name = other := by
  rw [← String.toList_inj, toCurrent, String.toList_ofList, changeRoot_eq_iff hlegacy hcurrent,
    String.toList_inj]

theorem toLegacy_eq_iff {name other : String} (hlegacy : ¬ IsLegacy other)
    (hcurrent : ¬ IsCurrent other) : toLegacy name = other ↔ name = other := by
  rw [← String.toList_inj, toLegacy, String.toList_ofList, changeRoot_eq_iff hcurrent hlegacy,
    String.toList_inj]

/-- A legacy peer is never sent the current name of something that has moved. -/
theorem not_isCurrent_toLegacy (name : String) : ¬ IsCurrent (toLegacy name) := by
  rw [IsCurrent, toLegacy, String.toList_ofList]
  exact not_isUnder_changeRoot (fun rest rest' => (roots_apart rest' rest).symm) name.toList

/-- A name that is not a legacy name itself comes back from a legacy peer. -/
theorem toCurrent_toLegacy {name : String} (h : ¬ IsLegacy name) :
    toCurrent (toLegacy name) = name :=
  (toCurrent_toLegacy_eq name).trans (toCurrent_eq_self_iff.mpr h)

end Namespace

namespace Value

theorem typeNames_item_subset {v : Value} {items : List Value} (h : v ∈ items) :
    v.typeNames ⊆ (list items).typeNames := fun _ hname =>
  mem_itemNames_iff.mpr ⟨v, h, hname⟩

theorem typeNames_field_subset {e : String × Value} {c : String}
    {fields : List (String × Value)} (h : e ∈ fields) :
    e.2.typeNames ⊆ (object c fields).typeNames := fun _ hname =>
  List.mem_cons_of_mem _ (mem_fieldNames_iff.mpr ⟨e, h, hname⟩)

/-- The names of a value within another one are among the names of that one. -/
theorem Within.typeNames_subset {x v : Value} (h : Within x v) : x.typeNames ⊆ v.typeNames := by
  induction h with
  | self => exact List.Subset.refl _
  | item hv _ ih => exact List.Subset.trans ih (typeNames_item_subset hv)
  | field hv _ ih => exact List.Subset.trans ih (typeNames_field_subset hv)
  | handler interfaces _ ih => exact List.Subset.trans ih (List.subset_append_right _ _)

end Value

namespace Resolver

/-- Values without legacy names are given back by a resolver that shows legacy names to a peer. -/
theorem translated_restores {v : Value} (h : ∀ name ∈ v.typeNames, ¬ Namespace.IsLegacy name) :
    (Namespace.translated plain).Restores v := by
  intro x hx
  have hx : ∀ name ∈ x.typeNames, ¬ Namespace.IsLegacy name := fun name hname =>
    h name (hx.typeNames_subset hname)
  cases x with
  | object c fields =>
      exact congrArg Except.ok (Namespace.toCurrent_toLegacy (hx c List.mem_cons_self))
  | proxy interfaces handler =>
      have hback : (interfaces.map (Namespace.translated plain).annotate).map Namespace.toCurrent =
          interfaces := by
        rw [List.map_map]
        refine (List.map_congr_left fun name hname => ?_).trans (List.map_id interfaces)
        exact Namespace.toCurrent_toLegacy (hx name (List.mem_append_left _ hname))
      change (plain.resolveProxy ((interfaces.map _).map Namespace.toCurrent)).answer = _
      rw [hback, plain_resolveProxy]
      rfl
  | _ => trivial

end Resolver

namespace Codec

/-- What is written for a value depends on what its own names are written as, and on the values
that are known by number. -/
theorem writeValue_congr {d d' : Dialect} (hknown : d.known = d'.known) {levels : Nat} {v : Value}
    (h : ∀ name ∈ v.typeNames, d.resolver.annotate name = d'.resolver.annotate name) :
    writeValue d levels v = writeValue d' levels v := by
  induction levels generalizing v with
  | zero => rfl
  | succ levels ih =>
      cases hi : d'.known.indexOf v with
      | some i => simp only [writeValue, hknown, hi]
      | none =>
          cases v with
          | list items =>
              have hitems : items.map (writeValue d levels) = items.map (writeValue d' levels) :=
                List.map_congr_left fun v hv =>
                  ih fun name hname => h name (Value.typeNames_item_subset hv hname)
              simp only [writeValue, hknown, hi, hitems]
          | object c fields =>
              have hfield : ∀ e ∈ fields, writeValue d levels e.2 = writeValue d' levels e.2 :=
                fun e he => ih fun name hname => h name (Value.typeNames_field_subset he hname)
              have hclass := h c List.mem_cons_self
              simp only [writeValue, hknown, hi, hclass]
              congr 2
              exact List.map_congr_left fun e he => congrArg (putText e.1 ++ ·) (hfield e he)
          | proxy interfaces handler =>
              have hinterfaces : (interfaces.map fun i => putText (d.resolver.annotate i)) =
                  interfaces.map fun i => putText (d'.resolver.annotate i) :=
                List.map_congr_left fun i hmem =>
                  congrArg putText (h i (List.mem_append_left _ hmem))
              have hhandler : writeValue d levels handler = writeValue d' levels handler :=
                ih fun name hname => h name (List.mem_append_right _ hname)
              simp only [writeValue, hknown, hi, hinterfaces, hhandler]
          | bool b => cases b <;> simp only [writeValue, hknown, hi]
          | _ => simp only [writeValue, hknown, hi]

end Codec

end RemoteCall
