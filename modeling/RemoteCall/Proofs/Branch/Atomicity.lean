import RemoteCall.Proofs.Branch.Discipline

/-!
# What a request leaves as it was

A request names one branch, and whatever comes of it, nothing else on record changes. A request that
fails changes nothing at all, unless it fails because the branch is rolled back: then this branch
has ended, and that is all.
-/

namespace RemoteCall

/-- A branch that turns a coordinator down stays as it is, or ends by being rolled back. -/
theorem Branch.after_of_answer_error {now : Nat} {x : Xid} {p : Primitive} {b : Branch} {e : XaError}
    (h : b.answer now x p = .error e) :
    b.after now p = if e.code = Outcome.rolledBack then b.ended else b := by
  have hstate : Outcome.wrongState ≠ Outcome.rolledBack := by decide
  cases p with
  | prepare =>
      simp only [answer] at h
      simp only [after]
      split at h
      · next hexpired =>
        cases h
        rw [if_pos hexpired]
        exact (if_pos rfl).symm
      · next hexpired =>
        rw [if_neg hexpired]
        split at h
        · next hprepared =>
          cases h
          rw [if_pos hprepared]
          exact (if_neg hstate).symm
        · split at h
          · cases h
          · cases h
  | commit onePhase =>
      simp only [answer] at h
      simp only [after]
      split at h
      · next hphase =>
        cases h
        rw [if_pos hphase]
        exact (if_neg hstate).symm
      · next hphase =>
        rw [if_neg hphase]
        split at h
        · cases h
          exact (if_pos rfl).symm
        · cases h
  | rollback => cases h
  | beforeCompletion =>
      simp only [answer] at h
      simp only [after]
      split at h
      · next hprepared =>
        cases h
        rw [if_pos hprepared]
        exact (if_neg hstate).symm
      · cases h
  | forget => cases h

namespace Ledger

variable {l l' : Ledger} {x : Xid} {i : BranchRef} {b : Branch} {now : Nat}

theorem Distinct.find?_eq_some_iff (hl : l.Distinct) :
    l.find? x = some i ↔ ∃ b, l.branches[i]? = some b ∧ b.goesBy x = true := by
  constructor
  · intro hfind
    obtain ⟨b, hb, hx, -⟩ := exists_of_find? hfind
    exact ⟨b, hb, hx⟩
  · rintro ⟨b, hb, hx⟩
    exact hl.find?_eq hb hx

theorem get?_eq_none_of_find? (h : l.find? x = none) : l.get? x = none :=
  List.find?_eq_none.mpr fun b hb => Bool.eq_false_iff.mp (find?_eq_none_iff.mp h b hb)

/-- What is found under a name is a branch of that name. -/
theorem Named.xid_of_get? (hl : l.Named) (h : l.get? x = some b) : b.xid = x :=
  hl b (List.mem_of_find?_eq_some h) x (List.find?_some h)

/-- From one ledger to another, nothing happens but to the branch of a name. -/
structure Spares (l : Ledger) (x : Xid) (l' : Ledger) : Prop where
  /-- Every other name finds the branch that it found before, as it was. -/
  found : ∀ y, y ≠ x → l'.find? y = l.find? y ∧ l'.get? y = l.get? y
  /-- Branches on record that are not found under the name are as they were, also those that have
  ended. -/
  kept : ∀ (i : BranchRef) b, l.branches[i]? = some b → b.goesBy x = false →
    l'.branches[i]? = some b

/-- It is enough to look at the branches on record, of which at most those under the name are new or
other than before. -/
theorem Distinct.spares (hl : l.Distinct) (hl' : l'.Distinct)
    (kept : ∀ (i : BranchRef) b, l.branches[i]? = some b → b.goesBy x = false →
      l'.branches[i]? = some b)
    (others : ∀ (i : BranchRef) c y, y ≠ x → l'.branches[i]? = some c → c.goesBy y = true →
      l.branches[i]? = some c) : l.Spares x l' := by
  refine ⟨fun y hy => ?_, kept⟩
  have hnot {b : Branch} (hb : b.goesBy y = true) : b.goesBy x = false :=
    Bool.eq_false_iff.mpr fun hx => hy (Branch.eq_of_goesBy hb hx)
  have hfind : l'.find? y = l.find? y := by
    refine Option.ext fun i => ?_
    rw [hl'.find?_eq_some_iff, hl.find?_eq_some_iff]
    constructor
    · rintro ⟨c, hc, hcy⟩
      exact ⟨c, others i c y hy hc hcy, hcy⟩
    · rintro ⟨b, hb, hby⟩
      exact ⟨b, kept i b hb (hnot hby), hby⟩
  refine ⟨hfind, ?_⟩
  cases h : l.find? y with
  | none => rw [get?_eq_none_of_find? h, get?_eq_none_of_find? (hfind.trans h)]
  | some i =>
      obtain ⟨b, hb, hby, hget⟩ := exists_of_find? h
      rw [hget, get?_eq_of_find? (hfind.trans h), kept i b hb (hnot hby)]

theorem Spares.refl (l : Ledger) (x : Xid) : l.Spares x l :=
  ⟨fun _ _ => ⟨rfl, rfl⟩, fun _ _ hb _ => hb⟩

theorem Distinct.spares_perform (hl : l.Distinct) (now : Nat) (p : Primitive) (x : Xid) :
    l.Spares x (l.perform now p x).2 := by
  refine hl.spares (hl.perform now p x) (fun i b hb hx => ?_) fun i c y hne hc hcy => ?_
  · rw [hl.getElem?_perform, hb, Option.map_some, hx]
    rfl
  · rw [hl.getElem?_perform] at hc
    obtain ⟨b, hb, rfl⟩ := Option.map_eq_some_iff.mp hc
    split at hcy
    · next hx => exact absurd (Branch.eq_of_goesBy (Branch.goesBy_of_after hcy) hx) hne
    · next hx => rw [hb, if_neg hx]

theorem Distinct.spares_findOrImport (hl : l.Distinct) (now : Nat) (x : Xid) (timeout : Int32) :
    l.Spares x (l.findOrImport now x timeout).2 := by
  have hl' := hl.findOrImport now x timeout
  obtain ⟨e, heq⟩ | ⟨j, c, -, -, -, heq⟩ | ⟨-, heq⟩ := findOrImport_cases now x timeout l
  · rw [heq]
    exact .refl l x
  · rw [heq]
    exact .refl l x
  · rw [heq] at hl' ⊢
    refine hl.spares hl' (fun i b hb _ => ?_) fun i c y hne hc hcy => ?_
    · exact (List.getElem?_append_left (List.getElem?_eq_some_iff.mp hb).1).trans hb
    · rw [List.getElem?_append] at hc
      split at hc
      · exact hc
      · obtain rfl := List.mem_singleton.mp (List.mem_of_getElem? hc)
        exact absurd (Option.some.inj (Branch.goesBy_iff.mp hcy)).symm hne

/-- A coordinator that is turned down has changed nothing, or has rolled the branch back. -/
theorem perform_of_error {p : Primitive} {e : XaError} (h : (l.perform now p x).1 = .error e) :
    if e.code = Outcome.rolledBack then
      ∃ i, l.find? x = some i ∧ (l.perform now p x).2 = l.retire i
    else (l.perform now p x).2 = l := by
  cases hfind : l.find? x with
  | none =>
      rw [perform_of_find?_eq_none hfind] at h ⊢
      cases h
      exact rfl
  | some i =>
      obtain ⟨b, hb, -, -⟩ := exists_of_find? hfind
      rw [perform_of_find? hfind hb] at h ⊢
      have hafter := Branch.after_of_answer_error h
      split
      · next hcode =>
        rw [if_pos hcode] at hafter
        exact ⟨i, rfl, update_congr hb hafter⟩
      · next hcode =>
        rw [if_neg hcode] at hafter
        exact update_eq_self hb hafter

/-- A call that is turned down has changed nothing, and is never told of a rollback. -/
theorem findOrImport_of_error {timeout : Int32} {e : XaError}
    (h : (l.findOrImport now x timeout).1 = .error e) :
    e.code ≠ Outcome.rolledBack ∧ (l.findOrImport now x timeout).2 = l := by
  have hargument : Outcome.invalidArgument ≠ Outcome.rolledBack := by decide
  have hstate : Outcome.wrongState ≠ Outcome.rolledBack := by decide
  by_cases hnegative : timeout.toInt < 0
  · rw [findOrImport, if_pos hnegative] at h ⊢
    cases h
    exact ⟨hargument, rfl⟩
  · rw [findOrImport, if_neg hnegative] at h ⊢
    cases hfind : l.find? x with
    | none =>
        simp only [hfind] at h
        cases h
    | some i =>
        obtain ⟨b, -, -, hget⟩ := exists_of_find? hfind
        simp only [hfind, hget] at h ⊢
        split at h
        · cases h
        · next hcompleting =>
          cases h
          rw [if_neg hcompleting]
          exact ⟨hstate, rfl⟩

/-- A call finds the active branch of its name as it is. -/
theorem findOrImport_of_active {timeout : Int32} (htimeout : 0 ≤ timeout.toInt)
    (hfind : l.find? x = some i) (hget : l.get? x = some b) (hactive : b.state = .active)
    (now : Nat) : l.findOrImport now x timeout = (.ok i, l) := by
  rw [findOrImport, if_neg (by omega)]
  simp only [hfind, hget, if_pos hactive]

end Ledger

namespace Traffic

open Ledger

/-- Whatever has happened before, a request at any time concerns the branch of its name alone. If it
fails, nothing has changed, except that a branch of which it is told that it was rolled back has
ended. A call with a timeout that is not negative finds an active branch as it is. And what is found
under a name is a branch of that name. -/
theorem failures_atomic (history : List (Nat × Move)) (now : Nat) (x : Xid) :
    let l := (start.after history).ledger
    (∀ timeout : Int32, l.Spares x (l.findOrImport now x timeout).2 ∧
      (∀ e, (l.findOrImport now x timeout).1 = .error e →
        e.code ≠ Outcome.rolledBack ∧ (l.findOrImport now x timeout).2 = l) ∧
      (0 ≤ timeout.toInt → ∀ i b, l.find? x = some i → l.get? x = some b → b.state = .active →
        l.findOrImport now x timeout = (.ok i, l))) ∧
    (∀ p, l.Spares x (l.perform now p x).2 ∧
      ∀ e, (l.perform now p x).1 = .error e →
        if e.code = Outcome.rolledBack then
          ∃ i, l.find? x = some i ∧ (l.perform now p x).2 = l.retire i ∧
            (l.perform now p x).2.get? x = none
        else (l.perform now p x).2 = l) ∧
    ∀ b, l.get? x = some b → b.xid = x := by
  intro l
  have hl : l.Distinct := start_after_distinct history
  refine ⟨fun timeout => ⟨hl.spares_findOrImport now x timeout, fun e => findOrImport_of_error,
    fun htimeout i b hfind hget hactive =>
      findOrImport_of_active htimeout hfind hget hactive now⟩,
    fun p => ⟨hl.spares_perform now p x, fun e he => ?_⟩, fun b => (start_after_named history).xid_of_get?⟩
  have herror := perform_of_error he
  split
  · next hcode =>
    rw [if_pos hcode] at herror
    obtain ⟨i, hfind, hretired⟩ := herror
    have hdone : Primitive.completes (p, (l.perform now p x).1) = true := by
      rw [he]
      exact decide_eq_true hcode
    exact ⟨i, hfind, hretired, get?_eq_none_of_find? (find?_of_completes hl hdone).2⟩
  · next hcode => rwa [if_neg hcode] at herror

/-- Two branches, of which one has timed out before its vote is asked for; the other is found by a
second call as it is, with the work that was done under it. -/
theorem failures_atomic_of_late_request :
    let x : Xid := ⟨1, [1], []⟩
    let y : Xid := ⟨1, [2], []⟩
    let l := (start.after [(0, .call x 1), (0, .call y 5), (0, .enlist 1)]).ledger
    let late := l.perform second .prepare x
    late.1 = .error (timedOut x) ∧ late.2 = l.retire 0 ∧ late.2.get? x = none ∧
      late.2.get? y = some ⟨y, 5 * second, .active, 1, some y⟩ ∧
      l.findOrImport second y 60 = (.ok 1, l) := by
  intro x y l late
  have hlate : late.1 = .error (timedOut x) := by decide +kernel
  have hfind : l.find? x = some 0 := by decide +kernel
  have hother : l.find? y = some 1 := by decide +kernel
  have hget : l.get? y = some ⟨y, 5 * second, .active, 1, some y⟩ := by decide +kernel
  obtain ⟨-, hperform, -⟩ :=
    failures_atomic [(0, .call x 1), (0, .call y 5), (0, .enlist 1)] second x
  obtain ⟨hcall, -, -⟩ :=
    failures_atomic [(0, .call x 1), (0, .call y 5), (0, .enlist 1)] second y
  obtain ⟨hspares, herror⟩ := hperform .prepare
  obtain ⟨i, hi, hretired, hgone⟩ := (herror _ hlate : if _ then _ else _)
  obtain rfl := Option.some.inj (hfind.symm.trans hi)
  refine ⟨hlate, hretired, hgone, ?_, (hcall 60).2.2 (by decide) 1 _ hother hget rfl⟩
  exact ((hspares.found y (by decide)).2).trans hget

/-- A call with a negative timeout does not find the branch of its name, though it is active. -/
theorem negative_timeout_refused :
    let x : Xid := ⟨1, [1], []⟩
    let l := (start.after [(0, .call x 10)]).ledger
    l.find? x = some 0 ∧ l.get? x = some ⟨x, 10 * second, .active, 0, some x⟩ ∧
      l.findOrImport 0 x (-1) =
        (.error (.make Outcome.invalidArgument "negative timeout -1"), l) ∧
      ¬ ∀ (timeout : Int32) i b, l.find? x = some i → l.get? x = some b → b.state = .active →
        l.findOrImport 0 x timeout = (.ok i, l) := by
  intro x l
  have hfind : l.find? x = some 0 := by decide +kernel
  have hget : l.get? x = some ⟨x, 10 * second, .active, 0, some x⟩ := by decide +kernel
  have hrefused : l.findOrImport 0 x (-1) =
      (.error (.make Outcome.invalidArgument "negative timeout -1"), l) := by decide +kernel
  refine ⟨hfind, hget, hrefused, fun h => ?_⟩
  have hfound := h (-1) 0 _ hfind hget rfl
  rw [hrefused] at hfound
  cases hfound

end Traffic

end RemoteCall
