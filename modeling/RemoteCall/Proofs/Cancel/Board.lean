import RemoteCall.Proofs.Cancel.Guards

/-!
# What the board knows

A request marks the handle that is registered and no other, provided that the board knows its name.
A name that is known stays known, and neither a report nor a registration changes what has been
requested.
-/

namespace RemoteCall.Cancel.Board

variable {η : Type} [DecidableEq η] {b : Board η} {name other : η}

/-- There is a handle of a name. -/
def Knows (b : Board η) (name : η) : Prop :=
  (b.handles.lookup name).isSome

/-- How strongly the cancellation of a name has been requested. -/
def requested (b : Board η) (name : η) : CancelLevel :=
  (b.handle name).requested

theorem knows_update {f : CancelHandle → CancelHandle} :
    (b.update name f).Knows other ↔ b.Knows other := by
  unfold Knows update
  rw [lookup_map_update]
  split
  · rw [Option.isSome_map]
  · rfl

theorem handle_update_self (h : b.Knows name) (f : CancelHandle → CancelHandle) :
    (b.update name f).handle name = f (b.handle name) := by
  obtain ⟨found, hfound⟩ := Option.isSome_iff_exists.mp h
  simp [handle, update, lookup_map_update, hfound]

/-- What a change leaves alone in every handle is left alone, whomever it is for. -/
theorem read_update {γ : Type} (read : CancelHandle → γ) {f : CancelHandle → CancelHandle}
    (hf : ∀ h, read (f h) = read h) (other : η) :
    read ((b.update name f).handle other) = read (b.handle other) := by
  unfold handle update
  rw [lookup_map_update]
  split
  · cases b.handles.lookup other with
    | none => rfl
    | some found => exact hf found
  · rfl

theorem requested_update {f : CancelHandle → CancelHandle}
    (hf : ∀ h, (f h).requested = h.requested) (other : η) :
    (b.update name f).requested other = b.requested other :=
  read_update CancelHandle.requested hf other

theorem requested_acknowledge (b : Board η) (name : η) (cancelled : Bool) (other : η) :
    (b.acknowledge name cancelled).requested other = b.requested other :=
  requested_update (f := (·.acknowledge cancelled)) (fun _ => rfl) other

/-- Only the first report of a known name counts. -/
theorem acknowledged_acknowledge (h : b.Knows name) (cancelled : Bool) (other : η) :
    ((b.acknowledge name cancelled).handle other).acknowledged =
      (b.handle other).acknowledged.or (if name = other then some cancelled else none) := by
  by_cases ho : name = other
  · subst ho
    rw [acknowledge, handle_update_self h, if_pos rfl]
    cases hreport : (b.handle name).acknowledged <;> simp [CancelHandle.acknowledge, hreport]
  · rw [acknowledge, handle_update_of_ne _ _ (Ne.symm ho), if_neg ho, Option.or_none]

theorem knows_meet (b : Board η) (name : η) : (b.meet name).Knows name := by
  unfold meet
  split
  · next h => exact Option.isSome_iff_exists.mpr ⟨_, h⟩
  · next h => simp [Knows, List.lookup_append, h]

theorem Knows.meet (h : b.Knows other) (name : η) : (b.meet name).Knows other := by
  obtain ⟨found, hfound⟩ := Option.isSome_iff_exists.mp h
  unfold Board.meet
  split
  · exact h
  · simp [Knows, List.lookup_append, hfound]

/-- A new name stands for a fresh handle, as it did before. -/
theorem handle_meet (b : Board η) (name other : η) :
    (b.meet name).handle other = b.handle other := by
  unfold handle meet
  split
  · rfl
  · next h =>
    by_cases ho : other = name
    · subst ho
      simp [List.lookup_append, h]
    · simp [List.lookup_append, List.lookup_cons, beq_false_of_ne ho]

theorem requested_meet (b : Board η) (name other : η) :
    (b.meet name).requested other = b.requested other :=
  congrArg CancelHandle.requested (b.handle_meet name other)

theorem registry_meet (b : Board η) (name : η) : (b.meet name).registry = b.registry := by
  unfold meet
  split
  · rfl
  · rfl

/-- What a release leaves in the register was there before. -/
theorem get?_of_release {g : Guard η} {id : InvocationId}
    (h : (b.release g).2.registry.get? id = some name) : b.registry.get? id = some name := by
  simp only [release, Registry.release_eq] at h
  exact (Registry.get?_letGo_eq_some_iff.mp h).1

end RemoteCall.Cancel.Board
