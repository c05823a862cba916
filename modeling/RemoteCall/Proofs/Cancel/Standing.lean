import Mathlib.Data.List.Induction
import Mathlib.Data.List.Pairwise
import RemoteCall.Proofs.Cancel.Guards

/-!
# What stands in the register

Identifiers collide, and guards outlive the entries that they were made with. What a register
holds can still be told from its history alone: an entry stands from its registration until another
one takes its place, it is removed, or its own guard is let go. The guard of another invocation
never touches it.
-/

namespace RemoteCall

/-- Something has happened that starts a matter, and all that happened after it kept it up. -/
def Since {α : Type} (starts keeps : α → Prop) (history : List α) : Prop :=
  ∃ earlier a later, history = earlier ++ a :: later ∧ starts a ∧ ∀ b ∈ later, keeps b

theorem not_since_nil {α : Type} {starts keeps : α → Prop} : ¬ Since starts keeps [] := by
  rintro ⟨earlier, a, later, h, -⟩
  simp at h

theorem since_concat {α : Type} {starts keeps : α → Prop} {history : List α} {b : α} :
    Since starts keeps (history ++ [b]) ↔ starts b ∨ Since starts keeps history ∧ keeps b := by
  constructor
  · rintro ⟨earlier, a, later, h, ha, hlater⟩
    rcases List.eq_nil_or_concat later with rfl | ⟨later, c, rfl⟩
    · obtain ⟨-, hb⟩ := List.append_inj' h rfl
      exact .inl (List.singleton_inj.mp hb ▸ ha)
    · rw [List.concat_eq_append, ← List.cons_append, ← List.append_assoc] at h
      obtain ⟨rfl, hb⟩ := List.append_inj' h rfl
      obtain rfl := List.singleton_inj.mp hb
      rw [List.concat_eq_append] at hlater
      refine .inr ⟨⟨earlier, a, later, rfl, ha, fun c hc => ?_⟩, ?_⟩
      · exact hlater c (List.mem_append_left _ hc)
      · exact hlater b (List.mem_append_right _ List.mem_cons_self)
  · rintro (hb | ⟨⟨earlier, a, later, rfl, ha, hlater⟩, hb⟩)
    · exact ⟨history, b, [], rfl, hb, fun c hc => absurd hc List.not_mem_nil⟩
    · refine ⟨earlier, a, later ++ [b], by simp, ha, fun c hc => ?_⟩
      rcases List.mem_append.mp hc with hc | hc
      · exact hlater c hc
      · exact List.mem_singleton.mp hc ▸ hb

theorem mem_of_since {α : Type} {starts keeps : α → Prop} {history : List α}
    (h : Since starts keeps history) : ∃ a ∈ history, starts a := by
  obtain ⟨earlier, a, later, rfl, ha, -⟩ := h
  exact ⟨a, List.mem_append_right _ List.mem_cons_self, ha⟩

namespace Cancel.Desk

/-- The desk after a number of actions. -/
def after (d : Desk) (actions : List Action) : Desk :=
  actions.foldl (fun d a => (d.step a).2) d

theorem after_concat (d : Desk) (history : List Action) (a : Action) :
    d.after (history ++ [a]) = ((d.after history).step a).2 := by
  simp [after]

/-- An action registers a handle under an identifier, with a guard or without one. -/
def Action.Puts (id : InvocationId) (h : String) (guard : Option String) (a : Action) : Prop :=
  a.entry? = some (id, h) ∧ a.guard? = guard

/-- An action leaves alone what stands under an identifier with a guard or without one. -/
def Action.Spares (id : InvocationId) (guard : Option String) (a : Action) : Prop :=
  (∀ h, a.entry? ≠ some (id, h)) ∧ a.removed? ≠ some id ∧ ∀ g ∈ guard, a.released? ≠ some g

/-- Every handle is registered once. -/
def Fresh (history : List Action) : Prop :=
  (history.filterMap Action.handle?).Nodup

instance (history : List Action) : Decidable (Fresh history) :=
  inferInstanceAs (Decidable (List.Nodup _))

/-- The last registration under an identifier was of a handle, and since then its entry was not
removed, nor its guard let go, if it has one. -/
def Stands (history : List Action) (id : InvocationId) (h : String) : Prop :=
  ∃ guard, Since (Action.Puts id h guard) (Action.Spares id guard) history

/-- A guard was made with an entry and has not been let go. -/
def Holds (history : List Action) (guard : String) (id : InvocationId) (h : String) : Prop :=
  Since (· = .hold guard id h) (·.released? ≠ some guard) history

/-- A guard holds what it was made with last, until it is let go. -/
theorem held?_after_eq_some_iff {history : List Action} {guard : String} {id : InvocationId}
    {h : String} :
    (empty.after history).held? guard = some (id, h) ↔ Holds history guard id h := by
  induction history using List.reverseRecOn with
  | nil => exact iff_of_false (by simp [after, empty, held?]) not_since_nil
  | append_singleton history a ih =>
      rw [after_concat, step_held?, Holds, since_concat, ← Holds, ← ih]
      by_cases hr : a.released? = some guard
      · rw [if_pos hr]
        cases a <;> simp_all [Action.released?, Action.guard?, Action.entry?]
      · rw [if_neg hr]
        have hne : a ≠ .hold guard id h := by
          rintro rfl
          exact hr rfl
        simp [hne, hr]

theorem Action.handle?_of_entry? {a : Action} {id : InvocationId} {h : String}
    (ha : a.entry? = some (id, h)) : a.handle? = some h := by
  simp [handle?, ha]

/-- Of a fresh handle there is one registration. -/
theorem Fresh.eq_of_entry? {history : List Action} (fresh : Fresh history) {a b : Action}
    (ha : a ∈ history) (hb : b ∈ history) {i j : InvocationId} {h : String}
    (hae : a.entry? = some (i, h)) (hbe : b.entry? = some (j, h)) : a = b := by
  by_contra hne
  have hapart := List.pairwise_filterMap.mp fresh
  have : Std.Symm fun a b : Action =>
      ∀ h, a.handle? = some h → ∀ k, b.handle? = some k → h ≠ k :=
    ⟨fun a b hab k hk h hh he => hab h hh k hk he.symm⟩
  exact hapart.forall ha hb hne h (Action.handle?_of_entry? hae) h
    (Action.handle?_of_entry? hbe) rfl

theorem Fresh.of_append {earlier later : List Action} (fresh : Fresh (earlier ++ later)) :
    Fresh earlier := by
  unfold Fresh at fresh
  rw [List.filterMap_append] at fresh
  exact (List.nodup_append.mp fresh).1

/-- A handle that is registered now is registered for the first time. -/
theorem Fresh.last {history : List Action} {a b : Action} (fresh : Fresh (history ++ [a]))
    (hb : b ∈ history) {i j : InvocationId} {h : String} (hae : a.entry? = some (i, h)) :
    b.entry? ≠ some (j, h) := by
  intro hbe
  unfold Fresh at fresh
  rw [List.filterMap_append] at fresh
  refine (List.nodup_append.mp fresh).2.2 h ?_ h ?_ rfl
  · exact List.mem_filterMap.mpr ⟨b, hb, Action.handle?_of_entry? hbe⟩
  · exact List.mem_filterMap.mpr ⟨a, List.mem_cons_self, Action.handle?_of_entry? hae⟩

/-- The guard of an entry is the one that was made with it, if any was. -/
theorem holds_iff_guard_eq {history : List Action} (fresh : Fresh history) {id : InvocationId}
    {h : String} {guard : Option String}
    (hs : Since (Action.Puts id h guard) (Action.Spares id guard) history) (name : String) :
    Holds history name id h ↔ guard = some name := by
  constructor
  · intro hh
    obtain ⟨a, ha, hae, hag⟩ := mem_of_since hs
    obtain ⟨b, hb, rfl⟩ := mem_of_since hh
    obtain rfl := fresh.eq_of_entry? ha hb hae rfl
    exact hag.symm
  · rintro rfl
    obtain ⟨earlier, a, later, rfl, ⟨hae, hag⟩, hlater⟩ := hs
    refine ⟨earlier, a, later, rfl, ?_, fun b hb => (hlater b hb).2.2 name rfl⟩
    cases a <;> simp_all [Action.guard?, Action.entry?]

/-- After any history in which no handle is registered twice, the register holds what stands. -/
theorem get?_after_eq_some_iff {history : List Action} (fresh : Fresh history) {id : InvocationId}
    {h : String} :
    (empty.after history).board.registry.get? id = some h ↔ Stands history id h := by
  induction history using List.reverseRecOn with
  | nil =>
      refine iff_of_false (by simp [after, empty, Board.empty, Registry.empty, Registry.get?]) ?_
      rintro ⟨guard, hs⟩
      exact not_since_nil hs
  | append_singleton history a ih =>
      rw [after_concat, get?_step_eq_some_iff, ih fresh.of_append]
      simp only [Ne, held?_after_eq_some_iff, Stands, since_concat]
      constructor
      · rintro ⟨hae | ⟨hput, hremoved, guard, hs⟩, hreleased⟩
        · exact ⟨a.guard?, .inl ⟨hae, rfl⟩⟩
        · refine ⟨guard, .inr ⟨hs, hput, hremoved, fun g hg hr => hreleased g hr ?_⟩⟩
          exact (holds_iff_guard_eq fresh.of_append hs g).mpr hg
      · rintro ⟨guard, ⟨hae, hag⟩ | ⟨hs, hput, hremoved, hguard⟩⟩
        · refine ⟨.inl hae, fun g hr hh => ?_⟩
          obtain ⟨b, hb, rfl⟩ := mem_of_since hh
          exact fresh.last hb hae rfl
        · refine ⟨.inr ⟨hput, hremoved, guard, hs⟩, fun g hr hh => ?_⟩
          exact hguard g ((holds_iff_guard_eq fresh.of_append hs g).mp hh) hr

/-- Letting a guard go takes away what it still holds and nothing else. -/
theorem get?_after_release_eq_some_iff {history : List Action} {guard : String} {a : Action}
    (ha : a = .release guard ∨ a = .drop guard) {id : InvocationId} {h : String} :
    (empty.after (history ++ [a])).board.registry.get? id = some h ↔
      (empty.after history).board.registry.get? id = some h ∧ ¬ Holds history guard id h := by
  rw [after_concat, get?_step_eq_some_iff, ← held?_after_eq_some_iff]
  rcases ha with rfl | rfl <;> simp [Action.entry?, Action.removed?, Action.released?]

/-- A guard that has been let go holds nothing, unless its name was given to another one. -/
theorem not_holds_of_released {earlier later : List Action} {a : Action} {guard : String}
    (hr : a.released? = some guard) (hg : ∀ b ∈ a :: later, b.guard? ≠ some guard)
    (id : InvocationId) (h : String) : ¬ Holds (earlier ++ a :: later) guard id h := by
  induction later using List.reverseRecOn with
  | nil =>
      rw [Holds, since_concat]
      rintro (rfl | ⟨-, hkept⟩)
      · exact hg _ List.mem_cons_self rfl
      · exact hkept hr
  | append_singleton later b ih =>
      rw [← List.cons_append, ← List.append_assoc, Holds, since_concat]
      rintro (rfl | ⟨hh, -⟩)
      · exact hg (.hold guard id h) (List.mem_cons_of_mem a
          (List.mem_append_right later List.mem_cons_self)) rfl
      · refine ih (fun c hc => hg c ?_) hh
        rw [← List.cons_append]
        exact List.mem_append_left _ hc

theorem eq_of_holds {history : List Action} {guard : String} {id id' : InvocationId}
    {h h' : String} (hh : Holds history guard id h) (hh' : Holds history guard id' h') :
    (id, h) = (id', h') := by
  rw [← held?_after_eq_some_iff] at hh hh'
  exact Option.some.inj (hh.symm.trans hh')

/-- After any history in which no handle is registered twice: the register holds exactly what
stands; a guard that is let go takes away the one entry that it still holds and no other; after that
it takes nothing away any more; and when no guard holds anything, all that is left was registered
without a guard. -/
theorem register_holds_what_stands {history : List Action} (fresh : Fresh history) :
    (∀ id h, (empty.after history).board.registry.get? id = some h ↔ Stands history id h) ∧
    (∀ guard a, a = .release guard ∨ a = .drop guard →
      (∀ id h, (empty.after (history ++ [a])).board.registry.get? id = some h ↔
        (empty.after history).board.registry.get? id = some h ∧ ¬ Holds history guard id h) ∧
      ∀ id h id' h', Holds history guard id h → Holds history guard id' h' →
        (id, h) = (id', h')) ∧
    (∀ guard earlier a later, history = earlier ++ a :: later → a.released? = some guard →
      (∀ b ∈ a :: later, b.guard? ≠ some guard) → ∀ b, b = .release guard ∨ b = .drop guard →
      ∀ id, (empty.after (history ++ [b])).board.registry.get? id =
        (empty.after history).board.registry.get? id) ∧
    ((∀ guard id h, ¬ Holds history guard id h) → ∀ id h,
      (empty.after history).board.registry.get? id = some h →
        Since (· = .register id h) (Action.Spares id none) history) := by
  refine ⟨fun id h => get?_after_eq_some_iff fresh, fun guard a ha => ?_, ?_, ?_⟩
  · exact ⟨fun id h => get?_after_release_eq_some_iff ha, fun id h id' h' => eq_of_holds⟩
  · rintro guard earlier a later rfl hr hg b hb id
    apply Option.ext
    intro h
    rw [get?_after_release_eq_some_iff hb]
    exact and_iff_left (not_holds_of_released hr hg id h)
  · intro hgone id h hget
    obtain ⟨guard, hs⟩ := (get?_after_eq_some_iff fresh).mp hget
    rcases guard with _ | guard
    · obtain ⟨earlier, a, later, rfl, ⟨hae, hag⟩, hlater⟩ := hs
      refine ⟨earlier, a, later, rfl, ?_, hlater⟩
      cases a <;> simp_all [Action.guard?, Action.entry?]
    · exact absurd ((holds_iff_guard_eq fresh hs guard).mpr rfl) (hgone guard id h)

/-- Two invocations of one identifier: the guard of the first leaves the entry of the second alone,
which goes with its own guard, and a handle that was registered without a guard is left. -/
theorem second_entry_stands :
    let id : InvocationId := ⟨"1", "s"⟩
    let other : InvocationId := ⟨"2", "s"⟩
    let history : List Action := [.hold "a" id "first", .hold "b" id "second",
      .register other "third", .release "a"]
    Fresh history ∧ Stands history id "second" ∧
      (empty.after (history ++ [.drop "b"])).board.registry.get? id ≠ some "second" ∧
      (empty.after (history ++ [.drop "a"])).board.registry.get? id = some "second" ∧
      Since (· = .register other "third") (Action.Spares other none) (history ++ [.drop "b"]) := by
  intro id other history
  have fresh : Fresh history := by decide
  obtain ⟨hstands, hrelease, hspent, -⟩ := register_holds_what_stands fresh
  have hget : (empty.after history).board.registry.get? id = some "second" := by decide
  refine ⟨fresh, (hstands id "second").mp hget, fun h => ?_, ?_, ?_⟩
  · have hholds : Holds history "b" id "second" := held?_after_eq_some_iff.mp (by decide)
    exact (((hrelease "b" (.drop "b") (.inr rfl)).1 id "second").mp h).2 hholds
  · rw [hspent "a" [.hold "a" id "first", .hold "b" id "second", .register other "third"]
      (.release "a") [] rfl rfl (by decide) (.drop "a") (.inr rfl) id]
    exact hget
  · have fresh' : Fresh (history ++ [.drop "b"]) := by decide
    refine (register_holds_what_stands fresh').2.2.2 (fun guard i h hh => ?_) other "third" ?_
    · rw [← held?_after_eq_some_iff] at hh
      have hguards : (empty.after (history ++ [.drop "b"])).guards = [("a", ⟨none⟩)] := rfl
      rw [held?, hguards] at hh
      by_cases hg : guard = "a" <;> simp [List.lookup_cons, hg, beq_false_of_ne] at hh
    · decide

end Cancel.Desk

end RemoteCall
