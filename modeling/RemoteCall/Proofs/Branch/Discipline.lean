import Mathlib.Data.List.Induction
import RemoteCall.Proofs.Branch.Traffic

/-!
# The discipline of the two phases

A ledger keeps no record of what it has answered, only how far each branch has come and whether it
is present. That is enough: along every run the two tell whether a branch has voted for the commit
and whether it has been completed, so that a commit in the second phase follows a vote, a commit in
one phase does not, and nothing is completed twice.
-/

namespace RemoteCall

/-- How far a branch has come, as a number. -/
def BranchState.rank : BranchState → Nat
  | active => 0
  | beforeCompletion => 1
  | prepared => 2

theorem BranchState.rank_le_prepared (s : BranchState) : s.rank ≤ prepared.rank := by
  cases s <;> decide

namespace Primitive

/-- Whether an answer completes a branch: it takes no part, it is committed, rolled back or
forgotten, or it was rolled back because its time was over. -/
def completes : Primitive × PrimitiveResult → Bool
  | (_, .error e) => e.code = Outcome.rolledBack
  | (prepare, .ok vote) => vote = some .readOnly
  | (beforeCompletion, .ok _) => false
  | (_, .ok _) => true

end Primitive

namespace Branch

variable {x : Xid} {b : Branch} {now : Nat} {p : Primitive}

/-- A branch is gone exactly after an answer that completes it. -/
theorem after_present (now : Nat) (x : Xid) (p : Primitive) (b : Branch) :
    (b.after now p).present = (b.present && !Primitive.completes (p, b.answer now x p)) := by
  have hstate : Outcome.wrongState ≠ Outcome.rolledBack := by decide
  cases p with
  | prepare =>
      simp only [after, answer]
      split
      · simp [Primitive.completes, Ledger.timedOut, XaError.make]
      · split
        · simp [Primitive.completes, Ledger.alreadyPrepared, XaError.make, hstate]
        · split
          · simp [Primitive.completes]
          · simp [Primitive.completes, present]
  | commit onePhase =>
      simp only [after, answer]
      split
      · simp [Primitive.completes, Ledger.badCommit, XaError.make, hstate]
      · split
        · simp [Primitive.completes, Ledger.timedOut, XaError.make]
        · simp [Primitive.completes]
  | rollback => simp [after, answer, Primitive.completes]
  | beforeCompletion =>
      simp only [after, answer]
      split
      · simp [Primitive.completes, Ledger.alreadyPrepared, XaError.make, hstate]
      · simp [Primitive.completes, present]
  | forget => simp [after, answer, Primitive.completes]

/-- A branch comes to be prepared by its vote for the commit and by nothing else. -/
theorem after_prepared_iff (now : Nat) (x : Xid) (p : Primitive) (b : Branch) :
    (b.after now p).state = .prepared ↔
      b.state = .prepared ∨ (p, b.answer now x p) = (.prepare, .ok (some .ok)) := by
  cases p with
  | prepare =>
      simp only [after, answer, Prod.mk.injEq, true_and]
      split
      · simp [ended]
      · split
        · next hb => simp [hb]
        · split
          · simp [ended]
          · simp
  | commit onePhase =>
      simp only [after]
      split
      · simp
      · simp [ended]
  | rollback => simp [after, ended]
  | beforeCompletion =>
      simp only [after]
      split
      · next hb => simp [hb]
      · next hb => simp [hb]
  | forget => simp [after, ended]

theorem rank_le_after (now : Nat) (p : Primitive) (b : Branch) :
    b.state.rank ≤ (b.after now p).state.rank := by
  cases p with
  | prepare =>
      simp only [after]
      split
      · exact Nat.le_refl _
      · split
        · exact Nat.le_refl _
        · split
          · exact Nat.le_refl _
          · exact BranchState.rank_le_prepared b.state
  | commit onePhase =>
      simp only [after]
      split
      · exact Nat.le_refl _
      · exact Nat.le_refl _
  | rollback => exact Nat.le_refl _
  | beforeCompletion =>
      simp only [after]
      split
      · exact Nat.le_refl _
      · next hb => cases hstate : b.state <;> simp_all [BranchState.rank]
  | forget => exact Nat.le_refl _

/-- A commit fits the state of its branch when it succeeds. -/
theorem prepared_iff_of_commit {onePhase : Bool} {vote : Option Vote}
    (h : b.answer now x (.commit onePhase) = .ok vote) :
    b.state = .prepared ↔ onePhase = false := by
  simp only [answer] at h
  split at h
  · cases h
  · next hphase => cases onePhase <;> simp_all

end Branch

namespace Traffic

variable {t : Traffic} {i : BranchRef} {b : Branch} {x : Xid}

/-- What a branch on record is asked by a move, and what it answers. -/
def answer? (t : Traffic) (i : BranchRef) (now : Nat) : Move → Option (Primitive × PrimitiveResult)
  | .perform p x =>
    if t.ledger.find? x = some i then some (p, (t.ledger.perform now p x).1) else none
  | _ => none

/-- What a branch on record is asked by moves, and what it answers. -/
def answers (i : BranchRef) : Traffic → List (Nat × Move) → List (Primitive × PrimitiveResult)
  | _, [] => []
  | t, m :: moves => (t.answer? i m.1 m.2).toList ++ answers i (t.step m.1 m.2) moves

/-- A branch has answered with a vote for the commit. -/
def Voted (answered : List (Primitive × PrimitiveResult)) : Prop :=
  (.prepare, .ok (some .ok)) ∈ answered

/-- A call gets hold of a branch of a name. -/
def Imports (t : Traffic) (x : Xid) (m : Nat × Move) : Prop :=
  ∃ timeout, m.2 = .call x timeout ∧ ∃ i, (t.ledger.findOrImport m.1 x timeout).1 = .ok i

@[simp] theorem answers_nil (i : BranchRef) (t : Traffic) : answers i t [] = [] := rfl

@[simp] theorem answers_cons (i : BranchRef) (t : Traffic) (m : Nat × Move)
    (moves : List (Nat × Move)) :
    answers i t (m :: moves) = (t.answer? i m.1 m.2).toList ++ answers i (t.step m.1 m.2) moves :=
  rfl

theorem answers_append (i : BranchRef) (t : Traffic) (earlier moves : List (Nat × Move)) :
    answers i t (earlier ++ moves) = answers i t earlier ++ answers i (t.after earlier) moves := by
  induction earlier generalizing t with
  | nil => rfl
  | cons m earlier ih => simp only [List.cons_append, answers_cons, ih, after_cons,
      List.append_assoc]

/-- How far a branch has come and whether it is present tell what it has answered. -/
structure Tells (b : Branch) (answered : List (Primitive × PrimitiveResult)) : Prop where
  prepared_iff : b.state = .prepared ↔ Voted answered
  completed : answered.countP Primitive.completes = if b.present then 0 else 1

theorem answer?_perform (h : t.ledger.Distinct) (hb : t.ledger.branches[i]? = some b) (now : Nat)
    (p : Primitive) (x : Xid) :
    t.answer? i now (.perform p x) =
      if b.goesBy x then some (p, b.answer now x p) else none := by
  by_cases hx : b.goesBy x = true
  · have hfind := h.find?_eq hb hx
    rw [answer?, if_pos hfind, if_pos hx, Ledger.perform_of_find? hfind hb]
  · rw [answer?, if_neg hx, if_neg]
    intro hfind
    obtain ⟨c, hc, hcx, -⟩ := Ledger.exists_of_find? hfind
    obtain rfl := Option.some.inj (hc.symm.trans hb)
    exact hx hcx

/-- A branch that is not on record yet is not asked anything. -/
theorem answer?_of_none (hi : t.ledger.branches[i]? = none) (now : Nat) (m : Move) :
    t.answer? i now m = none := by
  cases m with
  | call x timeout => rfl
  | enlist hold => rfl
  | perform p x =>
      refine if_neg fun hfind => ?_
      obtain ⟨c, hc, -, -⟩ := Ledger.exists_of_find? hfind
      rw [hi] at hc
      cases hc

/-- A branch comes on record with a call, and it is active, present and without work. -/
theorem getElem?_step_of_none (hi : t.ledger.branches[i]? = none) (now : Nat) (m : Move) :
    (t.step now m).ledger.branches[i]? = none ∨ ∃ x deadline, t.Imports x (now, m) ∧
      (t.step now m).ledger.branches[i]? = some ⟨x, deadline, .active, 0, some x⟩ := by
  cases m with
  | call x timeout =>
      obtain ⟨e, heq⟩ | ⟨j, c, -, -, -, heq⟩ | ⟨-, heq⟩ :=
        Ledger.findOrImport_cases now x timeout t.ledger
      · simp only [step, heq]
        exact .inl hi
      · simp only [step, heq]
        exact .inl hi
      · simp only [step, heq]
        rw [List.getElem?_append_right (List.getElem?_eq_none_iff.mp hi)]
        cases i - t.ledger.branches.length with
        | zero => exact .inr ⟨x, _, ⟨timeout, rfl, _, congrArg Prod.fst heq⟩, rfl⟩
        | succ k => exact .inl rfl
  | enlist hold =>
      refine .inl ?_
      simp only [step]
      split
      · rw [Ledger.enlist, Ledger.getElem?_update, hi, Option.map_none]
      · exact hi
  | perform p x =>
      cases hfind : t.ledger.find? x with
      | none =>
          simp only [step, Ledger.perform_of_find?_eq_none hfind]
          exact .inl hi
      | some j =>
          obtain ⟨c, hc, -, -⟩ := Ledger.exists_of_find? hfind
          simp only [step, Ledger.perform_of_find? hfind hc]
          rw [Ledger.getElem?_update, hi, Option.map_none]
          exact .inl rfl

theorem Tells.answer {answered : List (Primitive × PrimitiveResult)} (h : Tells b answered)
    (hx : b.goesBy x = true) (now : Nat) (p : Primitive) :
    Tells (b.after now p) (answered ++ [(p, b.answer now x p)]) := by
  have hpresent := Branch.present_of_goesBy hx
  have hnone : answered.countP Primitive.completes = 0 := by
    rw [h.completed, if_pos hpresent]
  constructor
  · rw [Branch.after_prepared_iff now x, h.prepared_iff, Voted, Voted, List.mem_append,
      List.mem_singleton]
    exact or_congr_right eq_comm
  · rw [List.countP_append, hnone, Nat.zero_add, List.countP_singleton,
      Branch.after_present now x, hpresent, Bool.true_and]
    cases Primitive.completes (p, b.answer now x p) with
    | false => rfl
    | true => rfl

/-- What a branch tells of its answers stays true with every move. -/
theorem Tells.step {answered : List (Primitive × PrimitiveResult)} (h : t.ledger.Distinct)
    (hb : t.ledger.branches[i]? = some b) (htells : Tells b answered) (now : Nat) (m : Move) :
    Tells (m.effect now t.held i b) (answered ++ (t.answer? i now m).toList) := by
  cases m with
  | call x timeout =>
      simpa only [Move.effect, answer?, Option.toList_none, List.append_nil] using htells
  | enlist hold =>
      simp only [Move.effect, answer?, Option.toList_none, List.append_nil]
      split
      · exact ⟨htells.prepared_iff, htells.completed⟩
      · exact htells
  | perform p x =>
      rw [answer?_perform h hb, Move.effect]
      split
      · next hx => exact htells.answer hx now p
      · simpa only [Option.toList_none, List.append_nil] using htells

/-- After every run each branch on record tells its answers, and none is asked before. -/
theorem tells_after (history : List (Nat × Move)) (i : BranchRef) :
    ((start.after history).ledger.branches[i]? = none → answers i start history = []) ∧
      ∀ b, (start.after history).ledger.branches[i]? = some b →
        Tells b (answers i start history) := by
  induction history using List.reverseRecOn with
  | nil => exact ⟨fun _ => rfl, fun b hb => nomatch hb⟩
  | append_singleton history m ih =>
      have hdistinct := start_after_distinct history
      rw [after_append, answers_append, after_cons, after_nil, answers_cons, answers_nil,
        List.append_nil]
      cases hi : (start.after history).ledger.branches[i]? with
      | none =>
          rw [ih.1 hi, answer?_of_none hi]
          refine ⟨fun _ => rfl, fun b hb => ?_⟩
          obtain hnone | ⟨x, deadline, -, hnew⟩ := getElem?_step_of_none hi m.1 m.2
          · rw [hnone] at hb
            cases hb
          · obtain rfl := Option.some.inj (hnew.symm.trans hb)
            exact ⟨by simp [Voted], rfl⟩
      | some b =>
          have hmoved := getElem?_step hdistinct hi m.1 m.2
          rw [hmoved]
          refine ⟨fun h => (Option.some_ne_none _ h).elim, fun c hc => ?_⟩
          obtain rfl := Option.some.inj hc
          exact (ih.2 b hi).step hdistinct hi m.1 m.2

/-- A move changes a branch by bringing its state forward. -/
theorem Move.effect_forward (now : Nat) (held : List BranchRef) (i : BranchRef) (b : Branch)
    (m : Move) :
    (m.effect now held i b).xid = b.xid ∧
      b.state.rank ≤ (m.effect now held i b).state.rank := by
  cases m with
  | call x timeout => exact ⟨rfl, Nat.le_refl _⟩
  | enlist hold =>
      simp only [effect]
      split
      · exact ⟨rfl, Nat.le_refl _⟩
      · exact ⟨rfl, Nat.le_refl _⟩
  | perform p x =>
      simp only [effect]
      split
      · exact ⟨Branch.after_xid now p b, Branch.rank_le_after now p b⟩
      · exact ⟨rfl, Nat.le_refl _⟩

/-- A branch keeps its name and its place on record, and its state only moves forward. -/
theorem forward_after (h : t.ledger.Distinct) (hb : t.ledger.branches[i]? = some b)
    (moves : List (Nat × Move)) :
    ∃ c, (t.after moves).ledger.branches[i]? = some c ∧ c.xid = b.xid ∧
      b.state.rank ≤ c.state.rank := by
  induction moves generalizing t b with
  | nil => exact ⟨b, hb, rfl, Nat.le_refl _⟩
  | cons m moves ih =>
      obtain ⟨hname, hrank⟩ := Move.effect_forward m.1 t.held i b m.2
      obtain ⟨c, hc, hcname, hcrank⟩ := ih (step_distinct h m.1 m.2) (getElem?_step h hb m.1 m.2)
      exact ⟨c, hc, hcname.trans hname, Nat.le_trans hrank hcrank⟩

/-- Without a call that gets hold of it, a name that has no branch gets none. -/
theorem find?_step_eq_none (h : t.ledger.Distinct) (hx : t.ledger.find? x = none)
    {m : Nat × Move} (hm : ¬ t.Imports x m) : (t.step m.1 m.2).ledger.find? x = none := by
  refine Ledger.find?_eq_none_iff.mpr fun c hc => Bool.eq_false_iff.mpr fun hcx => ?_
  obtain ⟨i, hi⟩ := List.mem_iff_getElem?.mp hc
  cases hb : t.ledger.branches[i]? with
  | none =>
      obtain hnone | ⟨y, deadline, hy, hnew⟩ := getElem?_step_of_none hb m.1 m.2
      · rw [hnone] at hi
        cases hi
      · obtain rfl := Option.some.inj (hnew.symm.trans hi)
        obtain rfl : y = x := Option.some.inj (Branch.goesBy_iff.mp hcx)
        exact hm hy
  | some b =>
      obtain rfl := Option.some.inj ((getElem?_step h hb m.1 m.2).symm.trans hi)
      have hbx := Ledger.find?_eq_none_iff.mp hx b (List.mem_of_getElem? hb)
      rw [Move.goesBy_of_effect hcx] at hbx
      cases hbx

theorem find?_after_eq_none (h : t.ledger.Distinct) (hx : t.ledger.find? x = none)
    {moves : List (Nat × Move)} (hmoves : ∀ before m later, moves = before ++ m :: later →
      ¬ (t.after before).Imports x m) : (t.after moves).ledger.find? x = none := by
  induction moves generalizing t with
  | nil => exact hx
  | cons m moves ih =>
      refine ih (step_distinct h m.1 m.2) ?_ fun before n later heq => ?_
      · exact find?_step_eq_none h hx (hmoves [] m moves rfl)
      · exact hmoves (m :: before) n later (congrArg (m :: ·) heq)

/-- An answer that completes a branch is given by the branch of the name, and then the name has
no branch. -/
theorem find?_of_completes (h : t.ledger.Distinct) {now : Nat} {p : Primitive}
    (hdone : Primitive.completes (p, (t.ledger.perform now p x).1) = true) :
    (∃ i, t.ledger.find? x = some i) ∧ (t.step now (.perform p x)).ledger.find? x = none := by
  cases hfind : t.ledger.find? x with
  | none =>
      rw [Ledger.perform_of_find?_eq_none hfind] at hdone
      cases hdone
  | some i =>
      refine ⟨⟨i, rfl⟩, Ledger.find?_eq_none_iff.mpr fun c hc => Bool.eq_false_iff.mpr fun hcx => ?_⟩
      obtain ⟨b, hb, hbx, -⟩ := Ledger.exists_of_find? hfind
      rw [Ledger.perform_of_find? hfind hb] at hdone
      have hmoved := getElem?_step h hb now (.perform p x)
      rw [Move.effect, if_pos hbx] at hmoved
      have hgone : (b.after now p).goesBy x = false := by
        refine Bool.eq_false_iff.mpr fun hx => ?_
        have hpresent := Branch.present_of_goesBy hx
        rw [Branch.after_present now x, hdone, Bool.not_true, Bool.and_false] at hpresent
        cases hpresent
      obtain ⟨j, hj⟩ := List.mem_iff_getElem?.mp hc
      have hold : (t.ledger.branches[j]?).map
          (fun b => if b.goesBy x then b.after now p else b) = some c :=
        (h.getElem?_perform now p x j).symm.trans hj
      obtain ⟨d, hd, rfl⟩ := Option.map_eq_some_iff.mp hold
      split at hcx
      · next hdx =>
        obtain rfl := h hb hd hbx hdx
        obtain rfl := Option.some.inj (hb.symm.trans hd)
        rw [hgone] at hcx
        cases hcx
      · next hdx => exact hdx hcx

/-- A name has no branch: whatever is asked of it is refused, and a call gets hold of a new one. -/
def IsUnknown (t : Traffic) (x : Xid) : Prop :=
  (∀ now p, t.ledger.perform now p x = (.error (Ledger.unknown x), t.ledger)) ∧
    ∀ now timeout i l, t.ledger.findOrImport now x timeout = (.ok i, l) →
      t.ledger.branches[i]? = none ∧ l.find? x = some i ∧
        l.get? x = some ⟨x, now + Ledger.second * timeout.toInt.toNat, .active, 0, some x⟩

theorem isUnknown_of_find?_eq_none (h : t.ledger.Distinct) (hx : t.ledger.find? x = none) :
    t.IsUnknown x := by
  refine ⟨fun now p => Ledger.perform_of_find?_eq_none hx now p, fun now timeout i l hcall => ?_⟩
  have hdistinct := h.findOrImport now x timeout
  obtain ⟨e, heq⟩ | ⟨j, c, hc, hcx, -, -⟩ | ⟨-, heq⟩ :=
    Ledger.findOrImport_cases now x timeout t.ledger
  · rw [heq] at hcall
    cases hcall
  · rw [Ledger.find?_eq_none_iff.mp hx c (List.mem_of_getElem? hc)] at hcx
    cases hcx
  · rw [heq] at hcall hdistinct
    cases hcall
    have hnew : (t.ledger.branches ++ [(⟨x, now + Ledger.second * timeout.toInt.toNat, .active, 0,
        some x⟩ : Branch)])[t.ledger.branches.length]? = some ⟨x, _, .active, 0, some x⟩ :=
      List.getElem?_concat_length
    have hfind := hdistinct.find?_eq hnew (Branch.goesBy_iff.mpr rfl)
    refine ⟨List.getElem?_eq_none (Nat.le_refl _), hfind, ?_⟩
    exact (Ledger.get?_eq_of_find? hfind).trans hnew

/-- The discipline of the two phases, after any run at any times. A commit that succeeds finds its
branch with a vote for the commit before it exactly if it is not a commit in one phase. A branch
keeps its name and its place on record, and its state only moves forward. It is present until it
gives an answer that completes it, which it does once at most, and nobody has asked anything of it
before it came on record. After an answer that completes a branch its name stays unknown up to the
next call that gets hold of it. -/
theorem two_phase_discipline (history : List (Nat × Move)) :
    (∀ now x onePhase vote,
      ((start.after history).ledger.perform now (.commit onePhase) x).1 = .ok vote →
        ∃ i, (start.after history).ledger.find? x = some i ∧
          (Voted (answers i start history) ↔ onePhase = false)) ∧
    (∀ (i : BranchRef) b, (start.after history).ledger.branches[i]? = some b →
      (b.present = true ↔ ∀ a ∈ answers i start history, Primitive.completes a = false) ∧
        ∀ moves, ∃ c, (start.after (history ++ moves)).ledger.branches[i]? = some c ∧
          c.xid = b.xid ∧ b.state.rank ≤ c.state.rank) ∧
    (∀ i, (answers i start history).countP Primitive.completes ≤ 1 ∧
      ((start.after history).ledger.branches[i]? = none → answers i start history = [])) ∧
    ∀ now p x, Primitive.completes (p, ((start.after history).ledger.perform now p x).1) = true →
      (∃ i, (start.after history).ledger.find? x = some i) ∧
        ∀ moves, (∀ before m later, moves = before ++ m :: later →
            ¬ (start.after (history ++ (now, .perform p x) :: before)).Imports x m) →
          (start.after (history ++ (now, .perform p x) :: moves)).IsUnknown x := by
  have hdistinct := start_after_distinct history
  refine ⟨fun now x onePhase vote h => ?_, fun i b hb => ⟨?_, fun moves => ?_⟩,
    fun i => ⟨?_, (tells_after history i).1⟩, fun now p x h => ?_⟩
  · cases hfind : (start.after history).ledger.find? x with
    | none =>
        rw [Ledger.perform_of_find?_eq_none hfind] at h
        cases h
    | some i =>
        obtain ⟨b, hb, -, -⟩ := Ledger.exists_of_find? hfind
        rw [Ledger.perform_of_find? hfind hb] at h
        refine ⟨i, rfl, ?_⟩
        rw [← ((tells_after history i).2 b hb).prepared_iff]
        exact Branch.prepared_iff_of_commit h
  · have hcount := ((tells_after history i).2 b hb).completed
    have hnone : (∀ a ∈ answers i start history, Primitive.completes a = false) ↔
        (answers i start history).countP Primitive.completes = 0 := by
      simp only [List.countP_eq_zero, Bool.not_eq_true]
    rw [hnone, hcount]
    cases b.present with
    | false => simp
    | true => simp
  · rw [after_append]
    exact forward_after hdistinct hb moves
  · cases hi : (start.after history).ledger.branches[i]? with
    | none =>
        rw [(tells_after history i).1 hi]
        exact Nat.zero_le 1
    | some b =>
        rw [((tells_after history i).2 b hi).completed]
        split
        · exact Nat.zero_le 1
        · exact Nat.le_refl 1
  · obtain ⟨hfind, hgone⟩ := find?_of_completes hdistinct h
    have hstep := step_distinct hdistinct now (.perform p x)
    refine ⟨hfind, fun moves hmoves => ?_⟩
    simp only [after_append, after_cons] at hmoves ⊢
    exact isUnknown_of_find?_eq_none (after_distinct hstep moves)
      (find?_after_eq_none hstep hgone hmoves)

/-- A branch that has voted is committed, however late; then its name is unknown. -/
theorem two_phase_discipline_of_commit :
    let x : Xid := ⟨1, [1], [2]⟩
    let history : List (Nat × Move) := [(0, .call x 1), (0, .enlist 0), (0, .perform .prepare x)]
    ((start.after history).ledger.perform Ledger.second (.commit false) x).1 = .ok none ∧
      Voted (answers 0 start history) ∧
      (∀ a ∈ answers 0 start history, Primitive.completes a = false) ∧
      (start.after (history ++ [(Ledger.second, .perform (.commit false) x)])).IsUnknown x := by
  intro x history
  have hcommitted :
      ((start.after history).ledger.perform Ledger.second (.commit false) x).1 = .ok none := by
    decide +kernel
  have hbranch : (start.after history).ledger.branches[0]? =
      some ⟨x, Ledger.second, .prepared, 1, some x⟩ := by
    decide +kernel
  obtain ⟨hphase, hbranches, -, hdone⟩ := two_phase_discipline history
  refine ⟨hcommitted, ?_, (hbranches 0 _ hbranch).1.mp rfl, ?_⟩
  · obtain ⟨i, hfind, hvoted⟩ := hphase _ _ _ _ hcommitted
    have hzero : (start.after history).ledger.find? x = some 0 := by
      decide +kernel
    obtain rfl := Option.some.inj (hzero.symm.trans hfind)
    exact hvoted.mpr rfl
  · have hcompletes : Primitive.completes (.commit false,
        ((start.after history).ledger.perform Ledger.second (.commit false) x).1) = true := by
      rw [hcommitted]
      rfl
    refine (hdone _ _ _ hcompletes).2 [] fun before m later heq => ?_
    simp at heq

end Traffic

end RemoteCall
