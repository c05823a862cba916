import RemoteCall.Value.Basic

/-!
# Values within values

A value stands within a list, an object or a proxy when it is, or stands within, one of the items,
the value of one of the fields, or the handler.
-/

namespace RemoteCall.Value

/-- The first value stands within the second, at any depth. -/
inductive Within : Value → Value → Prop
  | self (v : Value) : Within v v
  | item {x v : Value} {items : List Value} (hv : v ∈ items) (h : Within x v) :
      Within x (.list items)
  | field {x v : Value} {c key : String} {fields : List (String × Value)}
      (hv : (key, v) ∈ fields) (h : Within x v) : Within x (.object c fields)
  | handler {x v : Value} (interfaces : List String) (h : Within x v) :
      Within x (.proxy interfaces v)

/-- All values within a value, itself included, have a property. -/
def Everywhere (p : Value → Prop) (v : Value) : Prop :=
  ∀ x, Within x v → p x

/-- The values that a value holds directly. -/
def parts : Value → List Value
  | .list items => items
  | .object _ fields => fields.map Prod.snd
  | .proxy _ handler => [handler]
  | _ => []

namespace Everywhere

variable {p : Value → Prop}

theorem self {v : Value} (h : Everywhere p v) : p v :=
  h v (.self v)

theorem item {v : Value} {items : List Value} (h : Everywhere p (.list items))
    (hv : v ∈ items) : Everywhere p v := fun x hx => h x (.item hv hx)

theorem field {v : Value} {c key : String} {fields : List (String × Value)}
    (h : Everywhere p (.object c fields)) (hv : (key, v) ∈ fields) : Everywhere p v :=
  fun x hx => h x (.field hv hx)

theorem handler {v : Value} {interfaces : List String}
    (h : Everywhere p (.proxy interfaces v)) : Everywhere p v :=
  fun x hx => h x (.handler interfaces hx)

/-- A value that holds no other has a property everywhere when it has it itself. -/
theorem of_parts_eq_nil {v : Value} (h : v.parts = []) (own : p v) : Everywhere p v := by
  intro x hx
  cases hx with
  | self => exact own
  | item hv =>
      exact absurd hv (List.eq_nil_iff_forall_not_mem.mp h _)
  | field hv =>
      exact absurd hv (List.eq_nil_iff_forall_not_mem.mp (List.map_eq_nil_iff.mp h) _)
  | handler => cases h

theorem list {items : List Value} (own : p (.list items))
    (each : ∀ v ∈ items, Everywhere p v) : Everywhere p (.list items) := by
  intro x hx
  cases hx with
  | self => exact own
  | item hv h => exact each _ hv x h

theorem object {c : String} {fields : List (String × Value)} (own : p (.object c fields))
    (each : ∀ e ∈ fields, Everywhere p e.2) : Everywhere p (.object c fields) := by
  intro x hx
  cases hx with
  | self => exact own
  | field hv h => exact each _ hv x h

theorem proxy {interfaces : List String} {v : Value} (own : p (.proxy interfaces v))
    (h : Everywhere p v) : Everywhere p (.proxy interfaces v) := by
  intro x hx
  cases hx with
  | self => exact own
  | handler _ hx => exact h x hx

end Everywhere

end RemoteCall.Value
