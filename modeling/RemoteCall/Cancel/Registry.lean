import RemoteCall.Invocation.Identifier

/-!
# The register of running invocations

A register leads from an identifier to the handle of the invocation that runs under it. Of two
invocations under one identifier the later holds it, and when the earlier one ends its guard
leaves the entry of the later one alone. Handles are told apart by their own names.
-/

namespace RemoteCall

/-- A register of handles, known by names of type `η`. -/
structure Registry (η : Type) where
  entries : List (InvocationId × η)
  deriving Repr

/-- What an invocation holds while it is registered. -/
structure Guard (η : Type) where
  /-- Absent once the guard has been released. -/
  entry : Option (InvocationId × η)
  deriving Repr

namespace Registry

variable {η : Type}

/-- A register without entries. -/
def empty : Registry η := ⟨[]⟩

/-- The number of entries. -/
def size (r : Registry η) : Nat := r.entries.length

/-- The handle under an identifier. -/
def get? (r : Registry η) (id : InvocationId) : Option η :=
  r.entries.lookup id

/-- Whether there is a handle under an identifier. -/
def has (r : Registry η) (id : InvocationId) : Bool :=
  (r.get? id).isSome

/-- Removes the entry of an identifier, if there is one. -/
def remove (r : Registry η) (id : InvocationId) : Registry η :=
  ⟨r.entries.filter (·.1 != id)⟩

/-- Puts a handle under an identifier, in place of the one that is there. -/
def register (r : Registry η) (id : InvocationId) (h : η) : Registry η :=
  ⟨(id, h) :: (r.remove id).entries⟩

/-- Removes the entry of an identifier if it is the given handle. -/
def removeSame [DecidableEq η] (r : Registry η) (id : InvocationId) (h : η) : Registry η :=
  if r.get? id = some h then r.remove id else r

/-- Registers a handle for as long as a guard is held. -/
def hold (r : Registry η) (id : InvocationId) (h : η) : Guard η × Registry η :=
  (⟨some (id, h)⟩, r.register id h)

/-- Releases a guard; a second release does nothing. -/
def release [DecidableEq η] (r : Registry η) (g : Guard η) : Guard η × Registry η :=
  match g.entry with
  | none => (g, r)
  | some (id, h) => (⟨none⟩, r.removeSame id h)

theorem lookup_filter_ne {κ β : Type} [DecidableEq κ] (entries : List (κ × β)) (key other : κ) :
    (entries.filter (·.1 != key)).lookup other =
      if other = key then none else entries.lookup other := by
  induction entries with
  | nil => simp
  | cons e rest ih =>
      obtain ⟨k, b⟩ := e
      by_cases hk : k = key
      · have hf : ((k, b) :: rest).filter (·.1 != key) = rest.filter (·.1 != key) := by simp [hk]
        rw [hf, ih]
        by_cases ho : other = key
        · simp [ho]
        · simp [ho, hk, List.lookup_cons, beq_false_of_ne]
      · have hf : ((k, b) :: rest).filter (·.1 != key) =
            (k, b) :: rest.filter (·.1 != key) := by simp [hk]
        rw [hf]
        by_cases ho : other = k
        · simp [ho, hk]
        · simp only [List.lookup_cons, beq_false_of_ne ho]
          exact ih

@[simp] theorem get?_remove (r : Registry η) (id other : InvocationId) :
    (r.remove id).get? other = if other = id then none else r.get? other :=
  lookup_filter_ne r.entries id other

@[simp] theorem get?_register (r : Registry η) (id other : InvocationId) (h : η) :
    (r.register id h).get? other = if other = id then some h else r.get? other := by
  by_cases ho : other = id
  · subst ho
    simp [register, get?]
  · have hr := get?_remove r id other
    simp only [ho, if_false] at hr ⊢
    simpa only [register, get?, List.lookup_cons, beq_false_of_ne ho] using hr

end Registry

end RemoteCall
