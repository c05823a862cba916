import RemoteCall.Value.Basic

/-!
# The names of types in a value

Which classes and interfaces a value names, at any depth, and the value with other names in their
place. Renaming changes nothing else: the names of the renamed value are the renamed names.
-/

namespace RemoteCall.Value

mutual

/-- The class and interface names in a value, outermost first and in order. -/
def typeNames : Value → List String
  | .list items => itemNames items
  | .object c fields => c :: fieldNames fields
  | .proxy interfaces handler => interfaces ++ typeNames handler
  | _ => []

/-- The class and interface names in a list of values. -/
def itemNames : List Value → List String
  | [] => []
  | v :: vs => typeNames v ++ itemNames vs

/-- The class and interface names in the values of fields. -/
def fieldNames : List (String × Value) → List String
  | [] => []
  | (_, v) :: fields => typeNames v ++ fieldNames fields

end

mutual

/-- A value with its classes and interfaces renamed. -/
def rename (f : String → String) : Value → Value
  | .list items => .list (renameItems f items)
  | .object c fields => .object (f c) (renameFields f fields)
  | .proxy interfaces handler => .proxy (interfaces.map f) (rename f handler)
  | v => v

/-- Values with their classes and interfaces renamed. -/
def renameItems (f : String → String) : List Value → List Value
  | [] => []
  | v :: vs => rename f v :: renameItems f vs

/-- Fields with the classes and interfaces in their values renamed. -/
def renameFields (f : String → String) : List (String × Value) → List (String × Value)
  | [] => []
  | (k, v) :: fields => (k, rename f v) :: renameFields f fields

end

mutual

@[simp] theorem typeNames_rename (f : String → String) :
    (v : Value) → typeNames (rename f v) = (typeNames v).map f
  | .null | .bool _ | .int _ | .long _ | .double _ | .text _ | .bytes _ => by
    simp [rename, typeNames]
  | .list items => by simp [rename, typeNames, itemNames_rename f items]
  | .object c fields => by simp [rename, typeNames, fieldNames_rename f fields]
  | .proxy interfaces handler => by simp [rename, typeNames, typeNames_rename f handler]

theorem itemNames_rename (f : String → String) :
    (items : List Value) → itemNames (renameItems f items) = (itemNames items).map f
  | [] => rfl
  | v :: vs => by
    simp [renameItems, itemNames, typeNames_rename f v, itemNames_rename f vs]

theorem fieldNames_rename (f : String → String) :
    (fields : List (String × Value)) →
      fieldNames (renameFields f fields) = (fieldNames fields).map f
  | [] => rfl
  | (_, v) :: fields => by
    simp [renameFields, fieldNames, typeNames_rename f v, fieldNames_rename f fields]

end

theorem renameItems_eq_map (f : String → String) (items : List Value) :
    renameItems f items = items.map (rename f) := by
  induction items with
  | nil => rfl
  | cons v items ih => rw [renameItems, ih, List.map_cons]

theorem renameFields_eq_map (f : String → String) (fields : List (String × Value)) :
    renameFields f fields = fields.map fun e => (e.1, rename f e.2) := by
  induction fields with
  | nil => rfl
  | cons e fields ih => rw [renameFields, ih, List.map_cons]

mutual

theorem rename_rename (f g : String → String) :
    (v : Value) → rename f (rename g v) = rename (fun name => f (g name)) v
  | .null | .bool _ | .int _ | .long _ | .double _ | .text _ | .bytes _ => by simp [rename]
  | .list items => by simp [rename, renameItems_rename f g items]
  | .object c fields => by simp [rename, renameFields_rename f g fields]
  | .proxy interfaces handler => by simp [rename, rename_rename f g handler]

theorem renameItems_rename (f g : String → String) :
    (items : List Value) →
      renameItems f (renameItems g items) = renameItems (fun name => f (g name)) items
  | [] => rfl
  | v :: vs => by simp [renameItems, rename_rename f g v, renameItems_rename f g vs]

theorem renameFields_rename (f g : String → String) :
    (fields : List (String × Value)) →
      renameFields f (renameFields g fields) = renameFields (fun name => f (g name)) fields
  | [] => rfl
  | (_, v) :: fields => by
    simp [renameFields, rename_rename f g v, renameFields_rename f g fields]

end

mutual

theorem rename_eq_self {f : String → String} :
    (v : Value) → (∀ name ∈ typeNames v, f name = name) → rename f v = v
  | .null, _ | .bool _, _ | .int _, _ | .long _, _ | .double _, _ | .text _, _ | .bytes _, _ => by
    simp [rename]
  | .list items, h => by rw [rename, renameItems_eq_self items h]
  | .object c fields, h => by
    obtain ⟨hc, hfields⟩ := List.forall_mem_cons.mp h
    rw [rename, hc, renameFields_eq_self fields hfields]
  | .proxy interfaces handler, h => by
    obtain ⟨hinterfaces, hhandler⟩ := List.forall_mem_append.mp h
    rw [rename, List.map_congr_left hinterfaces, List.map_id', rename_eq_self handler hhandler]

theorem renameItems_eq_self {f : String → String} :
    (items : List Value) → (∀ name ∈ itemNames items, f name = name) → renameItems f items = items
  | [], _ => rfl
  | v :: vs, h => by
    obtain ⟨hv, hvs⟩ := List.forall_mem_append.mp h
    rw [renameItems, rename_eq_self v hv, renameItems_eq_self vs hvs]

theorem renameFields_eq_self {f : String → String} :
    (fields : List (String × Value)) → (∀ name ∈ fieldNames fields, f name = name) →
      renameFields f fields = fields
  | [], _ => rfl
  | (_, v) :: fields, h => by
    obtain ⟨hv, hfields⟩ := List.forall_mem_append.mp h
    rw [renameFields, rename_eq_self v hv, renameFields_eq_self fields hfields]

end

/-- Renaming leaves a value as it is exactly when it leaves its names as they are. -/
theorem rename_eq_self_iff {f : String → String} {v : Value} :
    rename f v = v ↔ ∀ name ∈ typeNames v, f name = name := by
  refine ⟨fun h => ?_, rename_eq_self v⟩
  have hnames : (typeNames v).map f = (typeNames v).map id := by
    rw [← typeNames_rename, h, List.map_id]
  exact List.map_inj_left.mp hnames

theorem mem_itemNames_iff {name : String} {items : List Value} :
    name ∈ itemNames items ↔ ∃ v ∈ items, name ∈ typeNames v := by
  induction items with
  | nil => simp [itemNames]
  | cons v items ih => simp [itemNames, ih]

theorem mem_fieldNames_iff {name : String} {fields : List (String × Value)} :
    name ∈ fieldNames fields ↔ ∃ e ∈ fields, name ∈ typeNames e.2 := by
  induction fields with
  | nil => simp [fieldNames]
  | cons e fields ih => simp [fieldNames, ih]

end RemoteCall.Value
