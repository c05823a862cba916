import RemoteCall.Branch.Ledger
import Mathlib.Data.List.Basic

/-!
# What happens to one branch on record

Since at most one branch is found under a name, what is asked of a name is asked of one branch, and
all that happens to the ledger can be told branch by branch. A branch keeps its place on record, and
it is found under no name but its own.
-/

namespace RemoteCall

namespace Branch

/-- Whether a branch is the one that is found under a name. -/
def goesBy (x : Xid) (b : Branch) : Bool :=
  b.key == some x

/-- The branch after its end. -/
def ended (b : Branch) : Branch :=
  { b with key := none }

/-- The branch after work was done under it. -/
def enlisted (b : Branch) : Branch :=
  { b with work := b.work + 1 }

/-- What a coordinator makes of a branch. -/
def after (now : Nat) : Primitive → Branch → Branch
  | .prepare, b =>
    if b.isExpired now then b.ended
    else if b.state = .prepared then b
    else if b.work = 0 then b.ended
    else { b with state := .prepared }
  | .commit onePhase, b => if onePhase = decide (b.state = .prepared) then b else b.ended
  | .beforeCompletion, b =>
    if b.state = .prepared then b else { b with state := .beforeCompletion }
  | .rollback, b => b.ended
  | .forget, b => b.ended

/-- What a coordinator is told by a branch. -/
def answer (now : Nat) (x : Xid) : Primitive → Branch → PrimitiveResult
  | .prepare, b =>
    if b.isExpired now then .error (Ledger.timedOut x)
    else if b.state = .prepared then .error (Ledger.alreadyPrepared x)
    else if b.work = 0 then .ok (some .readOnly)
    else .ok (some .ok)
  | .commit onePhase, b =>
    if onePhase = decide (b.state = .prepared) then .error (Ledger.badCommit onePhase b.state)
    else if onePhase && b.isExpired now then .error (Ledger.timedOut x)
    else .ok none
  | .beforeCompletion, b =>
    if b.state = .prepared then .error (Ledger.alreadyPrepared x) else .ok none
  | .rollback, _ => .ok none
  | .forget, _ => .ok none

variable {x y : Xid} {b : Branch}

theorem goesBy_iff : b.goesBy x = true ↔ b.key = some x :=
  beq_iff_eq

theorem present_iff : b.present = true ↔ ∃ x, b.goesBy x = true := by
  simp only [goesBy_iff, present, Option.isSome_iff_exists]

theorem present_of_goesBy (h : b.goesBy x = true) : b.present = true :=
  present_iff.mpr ⟨x, h⟩

theorem eq_of_goesBy (hx : b.goesBy x = true) (hy : b.goesBy y = true) : x = y :=
  Option.some.inj ((goesBy_iff.mp hx).symm.trans (goesBy_iff.mp hy))

@[simp] theorem ended_present (b : Branch) : b.ended.present = false := rfl

@[simp] theorem ended_goesBy (b : Branch) (x : Xid) : b.ended.goesBy x = false := rfl

@[simp] theorem ended_work (b : Branch) : b.ended.work = b.work := rfl

@[simp] theorem enlisted_goesBy (b : Branch) (x : Xid) : b.enlisted.goesBy x = b.goesBy x := rfl

@[simp] theorem enlisted_work (b : Branch) : b.enlisted.work = b.work + 1 := rfl

/-- A branch is left as it is, ends, or changes its state. -/
theorem after_cases (now : Nat) (p : Primitive) (b : Branch) :
    b.after now p = b ∨ b.after now p = b.ended ∨ ∃ s, b.after now p = { b with state := s } := by
  cases p with
  | prepare =>
      simp only [after]
      split
      · exact .inr (.inl rfl)
      · split
        · exact .inl rfl
        · split
          · exact .inr (.inl rfl)
          · exact .inr (.inr ⟨_, rfl⟩)
  | commit onePhase =>
      simp only [after]
      split
      · exact .inl rfl
      · exact .inr (.inl rfl)
  | rollback => exact .inr (.inl rfl)
  | beforeCompletion =>
      simp only [after]
      split
      · exact .inl rfl
      · exact .inr (.inr ⟨_, rfl⟩)
  | forget => exact .inr (.inl rfl)

/-- A branch that has ended does not come back. -/
theorem goesBy_of_after {now : Nat} {p : Primitive} (h : (b.after now p).goesBy x = true) :
    b.goesBy x = true := by
  obtain hsame | hended | ⟨s, hstate⟩ := after_cases now p b
  · rwa [hsame] at h
  · rw [hended, ended_goesBy] at h
    cases h
  · rw [hstate] at h
    exact h

@[simp] theorem after_work (now : Nat) (p : Primitive) (b : Branch) :
    (b.after now p).work = b.work := by
  obtain hsame | hended | ⟨s, hstate⟩ := after_cases now p b
  · rw [hsame]
  · rw [hended, ended_work]
  · rw [hstate]

@[simp] theorem after_xid (now : Nat) (p : Primitive) (b : Branch) :
    (b.after now p).xid = b.xid := by
  obtain hsame | hended | ⟨s, hstate⟩ := after_cases now p b
  · rw [hsame]
  · rw [hended, ended]
  · rw [hstate]

/-- A prepared branch can only end. -/
theorem after_of_prepared (h : b.state = .prepared) (now : Nat) (p : Primitive) :
    b.after now p = b.ended ∨ b.after now p = b := by
  cases p with
  | prepare =>
      simp only [after, if_pos h]
      exact ite_eq_or_eq _ _ _
  | commit onePhase =>
      simp only [after]
      exact (ite_eq_or_eq _ _ _).symm
  | rollback => exact .inl rfl
  | beforeCompletion => exact .inr (if_pos h)
  | forget => exact .inl rfl

/-- A branch without work ends with its vote, and another one is prepared by it. -/
theorem vote_cases {now : Nat} {vote : Vote} (h : b.answer now x .prepare = .ok (some vote)) :
    (vote = .readOnly ∧ b.work = 0 ∧ b.after now .prepare = b.ended) ∨
    (vote = .ok ∧ b.work ≠ 0 ∧ b.after now .prepare = { b with state := .prepared }) := by
  simp only [answer] at h
  split at h
  · cases h
  · next hexpired =>
    split at h
    · cases h
    · next hstate =>
      simp only [after, if_neg hexpired, if_neg hstate]
      split at h
      · next hwork =>
        cases h
        exact .inl ⟨rfl, hwork, if_pos hwork⟩
      · next hwork =>
        cases h
        exact .inr ⟨rfl, hwork, if_neg hwork⟩

end Branch

namespace Ledger

variable {l : Ledger} {x : Xid} {i j : BranchRef} {b c : Branch}

/-- No two branches are found under one name. -/
def Distinct (l : Ledger) : Prop :=
  ∀ ⦃i j : BranchRef⦄ ⦃b c : Branch⦄ ⦃x : Xid⦄, l.branches[i]? = some b →
    l.branches[j]? = some c → b.goesBy x = true → c.goesBy x = true → i = j

theorem empty_distinct : empty.Distinct := by
  intro i j b c x hb
  simp [empty] at hb

theorem find?_eq_none_iff : l.find? x = none ↔ ∀ b ∈ l.branches, b.goesBy x = false :=
  List.findIdx?_eq_none_iff

theorem get?_eq_of_find? (h : l.find? x = some i) : l.get? x = l.branches[i]? := by
  obtain ⟨hi, hx, hbefore⟩ := List.findIdx?_eq_some_iff_getElem.mp h
  rw [List.getElem?_eq_getElem hi]
  refine List.find?_eq_some_iff_getElem.mpr ⟨hx, i, hi, rfl, fun j hj => ?_⟩
  rw [Bool.not_eq_true']
  exact Bool.eq_false_iff.mpr (hbefore j hj)

theorem exists_of_find? (h : l.find? x = some i) :
    ∃ b, l.branches[i]? = some b ∧ b.goesBy x = true ∧ l.get? x = some b := by
  obtain ⟨hi, hx, -⟩ := List.findIdx?_eq_some_iff_getElem.mp h
  have hb := List.getElem?_eq_getElem hi
  exact ⟨_, hb, hx, (get?_eq_of_find? h).trans hb⟩

/-- In a ledger without two present branches of a name, a name finds the branch that goes by it. -/
theorem Distinct.find?_eq (hl : l.Distinct) (hb : l.branches[i]? = some b)
    (hx : b.goesBy x = true) : l.find? x = some i := by
  cases hfind : l.find? x with
  | none =>
      have hnone := find?_eq_none_iff.mp hfind b (List.mem_of_getElem? hb)
      rw [hx] at hnone
      cases hnone
  | some j =>
      obtain ⟨c, hc, hcx, -⟩ := exists_of_find? hfind
      rw [hl hb hc hx hcx]

theorem getElem?_update (l : Ledger) (i : BranchRef) (f : Branch → Branch) (j : BranchRef) :
    (l.update i f).branches[j]? =
      (l.branches[j]?).map fun b => if i = j then f b else b :=
  List.getElem?_modify f i l.branches j

theorem eq_of_getElem? {l l' : Ledger} (h : ∀ j : BranchRef, l.branches[j]? = l'.branches[j]?) :
    l = l' := by
  cases l
  cases l'
  exact congrArg Ledger.mk (List.ext_getElem? h)

/-- A change matters by what it makes of the branch that it is made to. -/
theorem update_congr {f g : Branch → Branch} (hb : l.branches[i]? = some b) (hfg : f b = g b) :
    l.update i f = l.update i g := by
  refine eq_of_getElem? fun j => ?_
  rw [getElem?_update, getElem?_update]
  by_cases hij : i = j
  · subst hij
    simp only [hb, Option.map_some, hfg]
  · simp only [if_neg hij]

theorem update_eq_self {f : Branch → Branch} (hb : l.branches[i]? = some b) (hf : f b = b) :
    l.update i f = l := by
  rw [update_congr hb (g := id) hf]
  refine eq_of_getElem? fun j => ?_
  rw [getElem?_update]
  simp

theorem perform_of_find?_eq_none (h : l.find? x = none) (now : Nat) (p : Primitive) :
    l.perform now p x = (.error (unknown x), l) := by
  simp only [perform, h]

/-- What is asked of a name is asked of its branch. -/
theorem perform_of_find? (h : l.find? x = some i) (hb : l.branches[i]? = some b) (now : Nat)
    (p : Primitive) :
    l.perform now p x = (b.answer now x p, l.update i fun b => b.after now p) := by
  have hget := (get?_eq_of_find? h).trans hb
  have changed (f : Branch → Branch) (hf : f b = b.after now p) :
      l.update i f = l.update i fun b => b.after now p := update_congr hb hf
  have kept (hf : b.after now p = b) : (l.update i fun b => b.after now p) = l :=
    update_eq_self hb hf
  simp only [perform, h, hget]
  cases p with
  | prepare =>
      simp only [prepare, Branch.answer]
      split
      · next hexpired => rw [retire, changed]; simp [Branch.after, hexpired, Branch.ended]
      · next hexpired =>
        split
        · next hstate => rw [kept]; simp [Branch.after, hexpired, hstate]
        · next hstate =>
          split
          · next hwork =>
            rw [retire, changed]
            simp [Branch.after, hexpired, hstate, hwork, Branch.ended]
          · next hwork => rw [changed]; simp [Branch.after, hexpired, hstate, hwork]
  | commit onePhase =>
      simp only [commit, Branch.answer]
      split
      · next hstate => rw [kept]; simp [Branch.after, hstate]
      · next hstate =>
        have hended : l.retire i = l.update i fun b => b.after now (.commit onePhase) := by
          rw [retire, changed]
          simp [Branch.after, hstate, Branch.ended]
        split
        · rw [hended]
        · rw [hended]
  | rollback => rfl
  | beforeCompletion =>
      simp only [beforeCompletion, Branch.answer]
      split
      · next hstate => rw [kept]; simp [Branch.after, hstate]
      · next hstate => rw [changed]; simp [Branch.after, hstate]
  | forget => rfl

/-- What a coordinator asks of a name, told branch by branch. -/
theorem Distinct.getElem?_perform (hl : l.Distinct) (now : Nat) (p : Primitive) (x : Xid)
    (j : BranchRef) :
    (l.perform now p x).2.branches[j]? =
      (l.branches[j]?).map fun b => if b.goesBy x then b.after now p else b := by
  cases hfind : l.find? x with
  | none =>
      rw [perform_of_find?_eq_none hfind]
      cases hb : l.branches[j]? with
      | none => rfl
      | some b =>
          have hx := find?_eq_none_iff.mp hfind b (List.mem_of_getElem? hb)
          simp [hx]
  | some i =>
      obtain ⟨c, hc, hcx, -⟩ := exists_of_find? hfind
      rw [perform_of_find? hfind hc, getElem?_update]
      cases hb : l.branches[j]? with
      | none => rfl
      | some b =>
          have hij : i = j ↔ b.goesBy x = true := by
            constructor
            · rintro rfl
              rwa [← Option.some.inj (hc.symm.trans hb)]
            · exact fun hx => hl hc hb hcx hx
          simp [hij]

/-- A call finds the active branch of its name, puts a new one on record, or is refused. -/
theorem findOrImport_cases (now : Nat) (x : Xid) (timeout : Int32) (l : Ledger) :
    (∃ e, l.findOrImport now x timeout = (.error e, l)) ∨
    (∃ i b, l.branches[i]? = some b ∧ b.goesBy x = true ∧ b.state = .active ∧
      l.findOrImport now x timeout = (.ok i, l)) ∨
    (l.find? x = none ∧ l.findOrImport now x timeout = (.ok l.branches.length,
      ⟨l.branches ++ [⟨x, now + second * timeout.toInt.toNat, .active, 0, some x⟩]⟩)) := by
  unfold findOrImport
  split
  · exact .inl ⟨_, rfl⟩
  · cases hfind : l.find? x with
    | none => exact .inr (.inr ⟨rfl, rfl⟩)
    | some i =>
        obtain ⟨b, hb, hx, hget⟩ := exists_of_find? hfind
        rw [hget]
        by_cases hstate : b.state = .active
        · exact .inr (.inl ⟨i, b, hb, hx, hstate, if_pos hstate⟩)
        · exact .inl ⟨_, if_neg hstate⟩

/-- A change that brings no branch back keeps the branches of a name distinct. -/
theorem Distinct.of_map {l l' : Ledger} (hl : l.Distinct) {f : BranchRef → Branch → Branch}
    (h : ∀ j : BranchRef, l'.branches[j]? = (l.branches[j]?).map (f j))
    (hf : ∀ j b x, (f j b).goesBy x = true → b.goesBy x = true) : l'.Distinct := by
  intro i j b c x hb hc hx hy
  rw [h] at hb hc
  obtain ⟨b₀, hb₀, rfl⟩ := Option.map_eq_some_iff.mp hb
  obtain ⟨c₀, hc₀, rfl⟩ := Option.map_eq_some_iff.mp hc
  exact hl hb₀ hc₀ (hf _ _ _ hx) (hf _ _ _ hy)

theorem Distinct.perform (hl : l.Distinct) (now : Nat) (p : Primitive) (x : Xid) :
    (l.perform now p x).2.Distinct := by
  refine hl.of_map (hl.getElem?_perform now p x) fun j b y hy => ?_
  split at hy
  · exact Branch.goesBy_of_after hy
  · exact hy

theorem Distinct.enlist (hl : l.Distinct) (i : BranchRef) : (l.enlist i).Distinct := by
  refine hl.of_map (getElem?_update l i Branch.enlisted) fun j b y hy => ?_
  split at hy
  · exact hy
  · exact hy

/-- A new branch under a name that has none keeps the branches of a name distinct. -/
theorem Distinct.append (hl : l.Distinct) {new : Branch} (hnew : new.goesBy x = true)
    (hfind : l.find? x = none) : Distinct ⟨l.branches ++ [new]⟩ := by
  have hnone := find?_eq_none_iff.mp hfind
  have place {k : Nat} {d : Branch} {y : Xid} (hd : (l.branches ++ [new])[k]? = some d)
      (hy : d.goesBy y = true) :
      l.branches[k]? = some d ∧ y ≠ x ∨ k = l.branches.length ∧ y = x := by
    rw [List.getElem?_append] at hd
    split at hd
    · refine .inl ⟨hd, ?_⟩
      rintro rfl
      rw [hnone d (List.mem_of_getElem? hd)] at hy
      cases hy
    · next hk =>
      obtain ⟨hlt, rfl⟩ := List.getElem?_eq_some_iff.mp hd
      have hlast : k - l.branches.length < 1 := hlt
      rw [List.getElem_singleton] at hy
      exact .inr ⟨by omega, Branch.eq_of_goesBy hy hnew⟩
  intro i j b c y hb hc hx hy
  obtain ⟨hb, hne⟩ | ⟨hi, rfl⟩ := place hb hx <;> obtain ⟨hc, hne'⟩ | ⟨hj, heq⟩ := place hc hy
  · exact hl hb hc hx hy
  · exact absurd heq hne
  · exact absurd rfl hne'
  · rw [hi, hj]

theorem Distinct.findOrImport (hl : l.Distinct) (now : Nat) (x : Xid) (timeout : Int32) :
    (l.findOrImport now x timeout).2.Distinct := by
  obtain ⟨e, h⟩ | ⟨i, b, -, -, -, h⟩ | ⟨hfind, h⟩ := findOrImport_cases now x timeout l
  · rwa [h]
  · rwa [h]
  · rw [h]
    exact hl.append (Branch.goesBy_iff.mpr rfl) hfind

/-- Every branch is found under its own name, as far as it is found. -/
def Named (l : Ledger) : Prop :=
  ∀ b ∈ l.branches, ∀ x, b.goesBy x = true → b.xid = x

theorem empty_named : empty.Named :=
  List.forall_mem_nil _

/-- A change that keeps names and brings no branch back leaves every branch under its own name. -/
theorem Named.of_map {l l' : Ledger} (hl : l.Named) {f : BranchRef → Branch → Branch}
    (h : ∀ j : BranchRef, l'.branches[j]? = (l.branches[j]?).map (f j))
    (hf : ∀ j b, (f j b).xid = b.xid ∧ ∀ x, (f j b).goesBy x = true → b.goesBy x = true) :
    l'.Named := by
  intro c hc x hx
  obtain ⟨j, hj⟩ := List.mem_iff_getElem?.mp hc
  rw [h] at hj
  obtain ⟨b, hb, rfl⟩ := Option.map_eq_some_iff.mp hj
  obtain ⟨hname, hback⟩ := hf j b
  exact hname.trans (hl b (List.mem_of_getElem? hb) x (hback x hx))

theorem Named.perform (hnamed : l.Named) (hl : l.Distinct) (now : Nat) (p : Primitive) (x : Xid) :
    (l.perform now p x).2.Named := by
  refine hnamed.of_map (hl.getElem?_perform now p x) fun j b => ?_
  split
  · exact ⟨Branch.after_xid now p b, fun y => Branch.goesBy_of_after⟩
  · exact ⟨rfl, fun y => id⟩

theorem Named.enlist (hnamed : l.Named) (i : BranchRef) : (l.enlist i).Named := by
  refine hnamed.of_map (getElem?_update l i Branch.enlisted) fun j b => ?_
  split
  · exact ⟨rfl, fun y => id⟩
  · exact ⟨rfl, fun y => id⟩

theorem Named.findOrImport (hnamed : l.Named) (now : Nat) (x : Xid) (timeout : Int32) :
    (l.findOrImport now x timeout).2.Named := by
  obtain ⟨e, h⟩ | ⟨i, b, -, -, -, h⟩ | ⟨-, h⟩ := findOrImport_cases now x timeout l
  · rwa [h]
  · rwa [h]
  · rw [h]
    refine List.forall_mem_append.mpr ⟨hnamed, List.forall_mem_singleton.mpr fun y hy => ?_⟩
    exact Option.some.inj (Branch.goesBy_iff.mp hy)

end Ledger

end RemoteCall
