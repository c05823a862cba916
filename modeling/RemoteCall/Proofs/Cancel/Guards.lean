import RemoteCall.Cancel.Desk

/-!
# What one action does at the desk

An action registers something, removes something, or asks for something; it may also let a guard
go, and then the entry that this guard still holds is taken away if it still stands. A guard goes by
a name, which may be given to another guard later, and the guard that had it before is dropped then:
an action lets a guard go by releasing it, by dropping it, or by taking its name.
-/

namespace RemoteCall

namespace Registry

variable {η : Type} [DecidableEq η]

theorem get?_removeSame_eq_some_iff {r : Registry η} {i id : InvocationId} {h k : η} :
    (r.removeSame i h).get? id = some k ↔ r.get? id = some k ∧ (i, h) ≠ (id, k) := by
  unfold removeSame
  split
  · next hi =>
    rw [get?_remove]
    split
    · next hid => subst hid; simp [hi]
    · next hid => simp [Ne.symm hid]
  · next hi =>
    constructor
    · intro hk
      refine ⟨hk, fun he => ?_⟩
      obtain ⟨rfl, rfl⟩ := Prod.mk.inj he
      exact hi hk
    · exact And.left

/-- Letting a guard go removes what it still holds, if that still stands. -/
def letGo (r : Registry η) : Option (InvocationId × η) → Registry η
  | none => r
  | some (id, h) => r.removeSame id h

@[simp] theorem release_eq (r : Registry η) (g : Guard η) :
    r.release g = (⟨none⟩, r.letGo g.entry) := by
  obtain ⟨_ | ⟨id, h⟩⟩ := g <;> rfl

theorem get?_letGo_eq_some_iff {r : Registry η} {held : Option (InvocationId × η)}
    {id : InvocationId} {k : η} :
    (r.letGo held).get? id = some k ↔ r.get? id = some k ∧ held ≠ some (id, k) := by
  rcases held with _ | ⟨i, h⟩
  · simp [letGo]
  · simp [letGo, get?_removeSame_eq_some_iff]

end Registry

namespace Cancel.Desk

namespace Action

/-- What an action registers. -/
def entry? : Action → Option (InvocationId × String)
  | register id h => some (id, h)
  | hold _ id h => some (id, h)
  | _ => none

/-- The handle that an action registers. -/
def handle? (a : Action) : Option String :=
  a.entry?.map (·.2)

/-- The guard that an action makes. -/
def guard? : Action → Option String
  | hold g _ _ => some g
  | _ => none

/-- The guard that an action lets go. -/
def released? : Action → Option String
  | hold g _ _ => some g
  | release g => some g
  | drop g => some g
  | _ => none

/-- The identifier whose entry an action removes, whatever it is. -/
def removed? : Action → Option InvocationId
  | remove id => some id
  | _ => none

end Action

/-- What a guard still holds. -/
def held? (d : Desk) (guard : String) : Option (InvocationId × String) :=
  (d.guards.lookup guard).bind (·.entry)

/-- What an action does to the register before it lets a guard go. -/
def edit (r : Registry String) : Action → Registry String
  | .register id h => r.register id h
  | .hold _ id h => r.register id h
  | .remove id => r.remove id
  | _ => r

@[simp] theorem meet_registry (d : Desk) (name : String) :
    (d.meet name).board.registry = d.board.registry := by
  unfold meet Board.meet
  split <;> rfl

@[simp] theorem meet_guards (d : Desk) (name : String) : (d.meet name).guards = d.guards := rfl

theorem foldl_acknowledge_registry (reports : List (String × Bool)) (b : Board String) :
    (reports.foldl (fun b (name, cancelled) => b.acknowledge name cancelled) b).registry =
      b.registry := by
  induction reports generalizing b with
  | nil => rfl
  | cons report reports ih => exact ih _

/-- Neither the register nor a guard changes while invocations are asked to stop. -/
theorem cancel_frame (d : Desk) (order : Order) (limit : Nat) :
    (d.cancel order limit).2.board.registry = d.board.registry ∧
      (d.cancel order limit).2.guards = d.guards := by
  unfold cancel Board.request
  split
  · exact ⟨rfl, rfl⟩
  · next name board h =>
    have hboard : board.registry = d.board.registry := by
      split at h <;> cases h
      rfl
    simp only
    split
    · exact ⟨hboard, rfl⟩
    · split
      · exact ⟨hboard, rfl⟩
      · exact ⟨(foldl_acknowledge_registry _ _).trans hboard, rfl⟩

/-- An action changes what it names in the register, and then lets a guard go. -/
theorem step_registry (d : Desk) (a : Action) :
    (d.step a).2.board.registry =
      (edit d.board.registry a).letGo (a.released?.bind d.held?) := by
  cases a with
  | hold guard id h =>
      simp only [step, Board.hold, Registry.hold, meet_guards, meet_registry, edit,
        Action.released?, Option.bind_some, held?]
      split
      · next hg => simp [hg, Registry.letGo]
      · next old hg => simp [hg, replaceGuard, Desk.release, Board.release]
  | release guard =>
      simp only [step, edit, Action.released?, Option.bind_some, held?]
      split
      · next hg => simp [hg, Registry.letGo]
      · next old hg => simp [hg, replaceGuard, Desk.release, Board.release]
  | drop guard =>
      simp only [step, edit, Action.released?, Option.bind_some, held?]
      split
      · next hg => simp [hg, Registry.letGo]
      · next old hg => simp [hg, Desk.release, Board.release]
  | register id h => simp [step, edit, Action.released?, Registry.letGo]
  | cancel order limit => exact (d.cancel_frame order limit).1
  | acknowledge h cancelled => exact d.meet_registry h
  | answer h cancelled => exact d.meet_registry h
  | look h => exact d.meet_registry h
  | serve request =>
      simp only [step]
      split
      · rfl
      · next order _ => exact (d.cancel_frame order patience).1
  | remove id => rfl
  | has id => rfl
  | get id => rfl

theorem held?_of_guards_eq {d d' : Desk} (h : d.guards = d'.guards) (guard : String) :
    d.held? guard = d'.held? guard := by
  simp only [held?, h]

theorem held?_add {d : Desk} {name : String} (h : d.guards.lookup name = none)
    (board : Board String) (g : Guard String) (other : String) :
    held? { d with board, guards := d.guards ++ [(name, g)] } other =
      if other = name then g.entry else d.held? other := by
  unfold held?
  rw [List.lookup_append]
  by_cases ho : other = name
  · subst ho
    simp [h]
  · simp [List.lookup_cons, beq_false_of_ne ho, ho]

theorem held?_replaceGuard {d : Desk} {name : String} {old : Guard String}
    (h : d.guards.lookup name = some old) (g : Guard String) (other : String) :
    (d.replaceGuard name g).held? other = if other = name then g.entry else d.held? other := by
  have hlookup := Board.lookup_map_update d.guards name other fun _ => g
  unfold held? replaceGuard
  rw [hlookup]
  by_cases ho : other = name
  · subst ho
    simp [h]
  · simp [ho]

theorem held?_filter (d : Desk) (name : String) (board : Board String) (other : String) :
    held? { d with board, guards := d.guards.filter (·.1 != name) } other =
      if other = name then none else d.held? other := by
  unfold held?
  rw [Registry.lookup_filter_ne]
  split <;> rfl

theorem held?_of_lookup_eq_none {d : Desk} {name : String} (h : d.guards.lookup name = none)
    (other : String) : d.held? other = if other = name then none else d.held? other := by
  split
  · next ho => subst ho; simp [held?, h]
  · rfl

/-- A guard holds what it was made with until it is let go. -/
theorem step_held? (d : Desk) (a : Action) (guard : String) :
    (d.step a).2.held? guard =
      if a.released? = some guard then (if a.guard? = some guard then a.entry? else none)
      else d.held? guard := by
  cases a with
  | hold name id h =>
      have hheld : (d.step (.hold name id h)).2.held? guard =
          if guard = name then some (id, h) else d.held? guard := by
        simp only [step, Board.hold, Registry.hold, meet_guards]
        split
        · next hg => exact held?_add (d := d.meet h) hg _ _ guard
        · next old hg => exact held?_replaceGuard hg _ guard
      rw [hheld]
      by_cases hn : guard = name
      · simp [hn, Action.released?, Action.guard?, Action.entry?]
      · simp [hn, Ne.symm hn, Action.released?]
  | release name =>
      have hheld : (d.step (.release name)).2.held? guard =
          if guard = name then none else d.held? guard := by
        simp only [step]
        split
        · next hg => exact held?_of_lookup_eq_none hg guard
        · next old hg =>
          rw [Desk.release, Board.release, Registry.release_eq]
          exact held?_replaceGuard hg _ guard
      simp [hheld, Action.released?, Action.guard?, eq_comm]
  | drop name =>
      have hheld : (d.step (.drop name)).2.held? guard =
          if guard = name then none else d.held? guard := by
        simp only [step]
        split
        · next hg => exact held?_of_lookup_eq_none hg guard
        · exact held?_filter d name _ guard
      simp [hheld, Action.released?, Action.guard?, eq_comm]
  | register id h => exact held?_of_guards_eq (by simp [step]) guard
  | cancel order limit => exact held?_of_guards_eq (d.cancel_frame order limit).2 guard
  | serve request =>
      refine held?_of_guards_eq ?_ guard
      simp only [step]
      split
      · rfl
      · next order _ => exact (d.cancel_frame order patience).2
  | _ => rfl

theorem get?_edit_eq_some_iff {r : Registry String} {a : Action} {id : InvocationId} {h : String} :
    (edit r a).get? id = some h ↔ a.entry? = some (id, h) ∨
      (∀ k, a.entry? ≠ some (id, k)) ∧ a.removed? ≠ some id ∧ r.get? id = some h := by
  cases a with
  | register i k =>
      rw [edit, Registry.get?_register]
      by_cases hi : id = i
      · simp [hi, Action.entry?]
      · simp [hi, Ne.symm hi, Action.entry?, Action.removed?]
  | hold g i k =>
      rw [edit, Registry.get?_register]
      by_cases hi : id = i
      · simp [hi, Action.entry?]
      · simp [hi, Ne.symm hi, Action.entry?, Action.removed?]
  | remove i =>
      rw [edit, Registry.get?_remove]
      by_cases hi : id = i
      · simp [hi, Action.entry?, Action.removed?]
      · simp [hi, Ne.symm hi, Action.entry?, Action.removed?]
  | _ => simp [edit, Action.entry?, Action.removed?]

/-- What stands after an action was put there by it or stood before, and was not let go with its
guard. -/
theorem get?_step_eq_some_iff {d : Desk} {a : Action} {id : InvocationId} {h : String} :
    (d.step a).2.board.registry.get? id = some h ↔
      (a.entry? = some (id, h) ∨ (∀ k, a.entry? ≠ some (id, k)) ∧ a.removed? ≠ some id ∧
        d.board.registry.get? id = some h) ∧
      ∀ g, a.released? = some g → d.held? g ≠ some (id, h) := by
  rw [step_registry, Registry.get?_letGo_eq_some_iff, get?_edit_eq_some_iff]
  cases a.released? <;> simp

end Cancel.Desk

end RemoteCall
