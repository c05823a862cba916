import RemoteCall.Proofs.Branch.Traffic

/-!
# Work that comes after the vote

A branch that has voted or ended takes no new calls, but the calls that have got hold of it before
are not turned away: each time one of them records work, the work of the branch grows, though its
vote does not count it.
-/

namespace RemoteCall

/-- A branch that waits for a decision or has had it. -/
def Branch.IsSettled (b : Branch) : Prop :=
  b.present = true → b.state = .prepared

namespace Branch

variable {b : Branch}

theorem ended_isSettled (b : Branch) : b.ended.IsSettled := fun h => nomatch h

/-- A settled branch stays settled. -/
theorem IsSettled.after (h : b.IsSettled) {x : Xid} (hx : b.goesBy x = true) (now : Nat)
    (p : Primitive) : (b.after now p).IsSettled := by
  obtain hended | hsame := after_of_prepared (h (present_of_goesBy hx)) now p
  · rw [hended]
    exact ended_isSettled b
  · rwa [hsame]

/-- A branch that answers with a vote is settled by it, and its vote tells whether it has work. -/
theorem after_isSettled_of_vote {now : Nat} {x : Xid} {vote : Vote}
    (h : b.answer now x .prepare = .ok (some vote)) :
    (b.after now .prepare).IsSettled ∧ (vote = .readOnly ↔ b.work = 0) := by
  obtain ⟨rfl, hwork, hafter⟩ | ⟨rfl, hwork, hafter⟩ := vote_cases h
  · rw [hafter]
    exact ⟨ended_isSettled b, iff_of_true rfl hwork⟩
  · rw [hafter]
    exact ⟨fun _ => rfl, iff_of_false (by decide) hwork⟩

end Branch

namespace Traffic

variable {t : Traffic} {i : BranchRef} {b : Branch}

/-- A move records work under a branch through a hold. -/
def Move.isWorkOn (held : List BranchRef) (i : BranchRef) : Move → Bool
  | .enlist hold => held[hold]? == some i
  | _ => false

theorem effect_of_isSettled (h : b.IsSettled) (now : Nat) (held : List BranchRef) (m : Move) :
    (m.effect now held i b).IsSettled ∧
      (m.effect now held i b).work = b.work + if m.isWorkOn held i then 1 else 0 := by
  cases m with
  | call x timeout => exact ⟨h, rfl⟩
  | enlist hold =>
      simp only [Move.effect, Move.isWorkOn, beq_iff_eq]
      split
      · exact ⟨h, rfl⟩
      · exact ⟨h, rfl⟩
  | perform p x =>
      simp only [Move.effect, Move.isWorkOn]
      split
      · next hx => exact ⟨h.after hx now p, Branch.after_work now p b⟩
      · exact ⟨h, rfl⟩

/-- A call does not get hold of a settled branch. -/
theorem held_step (hb : t.ledger.branches[i]? = some b) (h : b.IsSettled) (now : Nat) (m : Move) :
    (t.step now m).held = t.held ∨ ∃ j, (t.step now m).held = t.held ++ [j] ∧ j ≠ i := by
  cases m with
  | call x timeout =>
      obtain ⟨e, heq⟩ | ⟨j, c, hc, hx, hactive, heq⟩ | ⟨-, heq⟩ :=
        Ledger.findOrImport_cases now x timeout t.ledger
      · exact .inl (by simp only [step, heq])
      · refine .inr ⟨j, by simp only [step, heq], ?_⟩
        rintro rfl
        obtain rfl := Option.some.inj (hc.symm.trans hb)
        have hprepared := h (Branch.present_of_goesBy hx)
        rw [hactive] at hprepared
        cases hprepared
      · refine .inr ⟨t.ledger.branches.length, by simp only [step, heq], ?_⟩
        exact Nat.ne_of_gt (List.getElem?_eq_some_iff.mp hb).1
  | enlist hold =>
      refine .inl ?_
      simp only [step]
      split
      · rfl
      · rfl
  | perform p x => exact .inl rfl

theorem isWorkOn_append {held : List BranchRef} {j : BranchRef} (h : j ≠ i) (m : Move) :
    m.isWorkOn (held ++ [j]) i = m.isWorkOn held i := by
  cases m with
  | call x timeout => rfl
  | enlist hold =>
      have hsame : (held ++ [j])[hold]? = some i ↔ held[hold]? = some i := by
        rw [List.getElem?_append]
        split
        · rfl
        · next hlt =>
          rw [List.getElem?_eq_none (Nat.le_of_not_lt hlt)]
          refine iff_of_false (fun hlast => h ?_) nofun
          exact List.mem_singleton.mp (List.mem_of_getElem? hlast) ▸ rfl
      simp only [Move.isWorkOn, Bool.beq_eq_decide_eq, hsame]
  | perform p x => rfl

/-- After a branch is settled its work grows by one for each time that work is recorded through a
hold on it from before, and by nothing else. -/
theorem work_after_of_isSettled (h : t.ledger.Distinct) (hb : t.ledger.branches[i]? = some b)
    (hsettled : b.IsSettled) (moves : List (Nat × Move)) :
    ∃ c, (t.after moves).ledger.branches[i]? = some c ∧ c.IsSettled ∧
      c.work = b.work + moves.countP (·.2.isWorkOn t.held i) := by
  induction moves generalizing t b with
  | nil => exact ⟨b, hb, hsettled, rfl⟩
  | cons m moves ih =>
      have hstep := getElem?_step h hb m.1 m.2
      obtain ⟨hsettled', hwork⟩ := effect_of_isSettled hsettled m.1 t.held m.2
      obtain ⟨c, hc, hcsettled, hcwork⟩ := ih (step_distinct h m.1 m.2) hstep hsettled'
      have hheld : moves.countP (·.2.isWorkOn (t.step m.1 m.2).held i) =
          moves.countP (·.2.isWorkOn t.held i) := by
        obtain hsame | ⟨j, hmore, hj⟩ := held_step hb hsettled m.1 m.2
        · rw [hsame]
        · simp only [hmore, isWorkOn_append hj]
      refine ⟨c, hc, hcsettled, ?_⟩
      rw [hcwork, hwork, hheld, List.countP_cons]
      omega

/-- A vote settles its branch and tells whether the branch had work when it voted. The work of a
settled branch grows by exactly what is recorded through the holds that calls have had on it since
before, so that it stays as it was exactly as long as none of these calls does any more work. -/
theorem work_of_settled (history : List (Nat × Move)) :
    (∀ now x vote, ((start.after history).ledger.perform now .prepare x).1 = .ok (some vote) →
      ∃ i b, (start.after history).ledger.find? x = some i ∧
        (start.after history).ledger.get? x = some b ∧ (vote = .readOnly ↔ b.work = 0) ∧
        ∀ moves, ∃ c,
          (start.after (history ++ (now, .perform .prepare x) :: moves)).ledger.branches[i]? =
            some c ∧ c.IsSettled ∧
          c.work = b.work + moves.countP (·.2.isWorkOn (start.after history).held i)) ∧
    ∀ (i : BranchRef) b, (start.after history).ledger.branches[i]? = some b → b.IsSettled →
      ∀ moves, ∃ c, (start.after (history ++ moves)).ledger.branches[i]? = some c ∧ c.IsSettled ∧
        c.work = b.work + moves.countP (·.2.isWorkOn (start.after history).held i) := by
  have hdistinct := start_after_distinct history
  constructor
  · intro now x vote h
    cases hfind : (start.after history).ledger.find? x with
    | none =>
        rw [Ledger.perform_of_find?_eq_none hfind] at h
        cases h
    | some i =>
        obtain ⟨b, hb, hx, hget⟩ := Ledger.exists_of_find? hfind
        rw [Ledger.perform_of_find? hfind hb] at h
        obtain ⟨hsettled, hvote⟩ := Branch.after_isSettled_of_vote h
        refine ⟨i, b, rfl, hget, hvote, fun moves => ?_⟩
        have hmoved := getElem?_step hdistinct hb now (.perform .prepare x)
        rw [Move.effect, if_pos hx] at hmoved
        rw [after_append, after_cons, ← Branch.after_work now .prepare b]
        exact work_after_of_isSettled (step_distinct hdistinct now (.perform .prepare x)) hmoved
          hsettled moves
  · intro i b hb hsettled moves
    rw [after_append]
    exact work_after_of_isSettled hdistinct hb hsettled moves

/-- Work under a branch that has voted for the commit. -/
theorem work_of_voted_branch :
    let x : Xid := ⟨1, [1], [2]⟩
    ((start.after [(0, .call x 1), (0, .enlist 0)]).ledger.perform 0 .prepare x).1 =
        .ok (some .ok) ∧
      ∃ c, (start.after [(0, .call x 1), (0, .enlist 0), (0, .perform .prepare x),
          (0, .enlist 0)]).ledger.branches[0]? = some c ∧ c.IsSettled ∧ c.work = 2 := by
  intro x
  have hbefore : start.after [(0, .call x 1), (0, .enlist 0)] =
      ⟨⟨[⟨x, Ledger.second, .active, 1, some x⟩]⟩, [0]⟩ := by
    decide +kernel
  have hvoted : ((start.after [(0, .call x 1), (0, .enlist 0)]).ledger.perform 0 .prepare x).1 =
      .ok (some .ok) := by
    decide +kernel
  refine ⟨hvoted, ?_⟩
  obtain ⟨i, b, hfind, hget, -, hwork⟩ := (work_of_settled _).1 _ _ _ hvoted
  obtain ⟨c, hc, hsettled, hcwork⟩ := hwork [(0, .enlist 0)]
  rw [hbefore] at hfind hget hcwork
  obtain rfl : 0 = i := Option.some.inj hfind
  obtain rfl : ⟨x, Ledger.second, .active, 1, some x⟩ = b := Option.some.inj hget
  exact ⟨c, hc, hsettled, hcwork⟩

/-- A branch votes that it takes no part since it has no work, and the call that has got hold of it
does its work after that. -/
theorem work_after_read_only_vote :
    let x : Xid := ⟨1, [1], [2]⟩
    let before := start.after [(0, .call x 1)]
    let voted := before.step 0 (.perform .prepare x)
    (before.ledger.perform 0 .prepare x).1 = .ok (some .readOnly) ∧
      voted.ledger.branches[0]? = some ⟨x, Ledger.second, .active, 0, none⟩ ∧
      (voted.step 0 (.enlist 0)).ledger.branches[0]? =
        some ⟨x, Ledger.second, .active, 1, none⟩ := by
  intro x before voted
  decide +kernel

end Traffic

end RemoteCall
