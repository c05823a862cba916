import RemoteCall.Proofs.Branch.Traffic

/-!
# How long a branch stays prepared

After its vote a branch is to wait for the decision of its coordinator, however long that takes. It
does so whatever else happens, with one exception: a branch that is asked for its vote once more
after its deadline is rolled back before anyone looks at its state.
-/

namespace RemoteCall

namespace Primitive

/-- Whether a coordinator asks for the end of a branch. -/
def isCompletion : Primitive → Bool
  | commit _ => true
  | rollback => true
  | forget => true
  | prepare => false
  | beforeCompletion => false

end Primitive

namespace Branch

variable {b : Branch} {p : Primitive} {now : Nat} {x : Xid}

/-- A prepared branch is ended by a completion that succeeds and by a request for its vote that
comes too late. -/
def IsEndedBy (now : Nat) (x : Xid) (p : Primitive) (b : Branch) : Prop :=
  (p.isCompletion = true ∧ ∃ vote, b.answer now x p = .ok vote) ∨
    (p = .prepare ∧ b.deadline ≤ now)

theorem after_of_isEndedBy (hb : b.state = .prepared) (h : b.IsEndedBy now x p) :
    b.after now p = b.ended := by
  cases p with
  | prepare =>
      obtain ⟨h, -⟩ | ⟨-, h⟩ := h
      · cases h
      · simp [after, isExpired, h]
  | commit onePhase =>
      obtain ⟨-, vote, h⟩ | ⟨h, -⟩ := h
      · cases onePhase with
        | true => simp [answer, hb] at h
        | false => simp [after, hb]
      · cases h
  | rollback => rfl
  | beforeCompletion =>
      obtain ⟨h, -⟩ | ⟨h, -⟩ := h
      · cases h
      · cases h
  | forget => rfl

theorem after_of_not_isEndedBy (hb : b.state = .prepared) (h : ¬ b.IsEndedBy now x p) :
    b.after now p = b := by
  cases p with
  | prepare =>
      have hearly : b.isExpired now = false := by
        simpa [IsEndedBy, Primitive.isCompletion, isExpired] using h
      simp [after, hearly, hb]
  | commit onePhase =>
      cases onePhase with
      | true => simp [after, hb]
      | false => exact absurd (.inl ⟨rfl, none, by simp [answer, hb]⟩) h
  | rollback => exact absurd (.inl ⟨rfl, none, rfl⟩) h
  | beforeCompletion => simp [after, hb]
  | forget => exact absurd (.inl ⟨rfl, none, rfl⟩) h

/-- A branch that votes for the commit is prepared by its vote. -/
theorem after_of_voted (h : b.answer now x .prepare = .ok (some .ok)) :
    b.after now .prepare = { b with state := .prepared } := by
  obtain ⟨hvote, -⟩ | ⟨-, -, hafter⟩ := vote_cases h
  · cases hvote
  · exact hafter

end Branch

namespace Traffic

variable {t : Traffic} {x : Xid} {i : BranchRef} {b : Branch}

/-- The present branch of a name is the one at a place on record, and it is prepared. -/
def KeepsPrepared (t : Traffic) (x : Xid) (i : BranchRef) : Prop :=
  t.ledger.find? x = some i ∧ ∃ b, t.ledger.get? x = some b ∧ b.state = .prepared

/-- A coordinator asks for a commit or a rollback of a branch, or that it be forgotten, and gets
it. -/
def Completes (t : Traffic) (x : Xid) (m : Nat × Move) : Prop :=
  ∃ p, m.2 = .perform p x ∧ p.isCompletion = true ∧
    ∃ vote, (t.ledger.perform m.1 p x).1 = .ok vote

/-- A coordinator asks for the vote of a branch when its time is over. -/
def PreparesLate (x : Xid) (deadline : Nat) (m : Nat × Move) : Prop :=
  m.2 = .perform .prepare x ∧ deadline ≤ m.1

theorem keepsPrepared_iff (h : t.ledger.Distinct) (hb : t.ledger.branches[i]? = some b) :
    t.KeepsPrepared x i ↔ b.goesBy x = true ∧ b.state = .prepared := by
  constructor
  · rintro ⟨hfind, c, hget, hc⟩
    obtain ⟨c', hc', hx, hget'⟩ := Ledger.exists_of_find? hfind
    obtain rfl := Option.some.inj (hc'.symm.trans hb)
    obtain rfl := Option.some.inj (hget'.symm.trans hget)
    exact ⟨hx, hc⟩
  · rintro ⟨hx, hstate⟩
    have hfind := h.find?_eq hb hx
    exact ⟨hfind, b, (Ledger.get?_eq_of_find? hfind).trans hb, hstate⟩

/-- What is told of the ledger about a move that ends a branch can be told of the branch. -/
theorem ends_iff (h : t.ledger.Distinct) (hb : t.ledger.branches[i]? = some b)
    (hx : b.goesBy x = true) (m : Nat × Move) :
    t.Completes x m ∨ PreparesLate x b.deadline m ↔
      ∃ p, m.2 = .perform p x ∧ b.IsEndedBy m.1 x p := by
  have hanswer (p : Primitive) : (t.ledger.perform m.1 p x).1 = b.answer m.1 x p := by
    rw [Ledger.perform_of_find? (h.find?_eq hb hx) hb]
  constructor
  · rintro (⟨p, hm, hp, vote, hvote⟩ | ⟨hm, hlate⟩)
    · exact ⟨p, hm, .inl ⟨hp, vote, (hanswer p).symm.trans hvote⟩⟩
    · exact ⟨.prepare, hm, .inr ⟨rfl, hlate⟩⟩
  · rintro ⟨p, hm, ⟨hp, vote, hvote⟩ | ⟨rfl, hlate⟩⟩
    · exact .inl ⟨p, hm, hp, vote, (hanswer p).trans hvote⟩
    · exact .inr ⟨hm, hlate⟩

/-- A move that does not end a prepared branch leaves it prepared, with its deadline. -/
theorem effect_of_not_ends (hb : b.goesBy x = true) (hstate : b.state = .prepared)
    {m : Nat × Move} (h : ¬ ∃ p, m.2 = .perform p x ∧ b.IsEndedBy m.1 x p)
    (held : List BranchRef) (i : BranchRef) :
    ∃ c, m.2.effect m.1 held i b = c ∧ c.goesBy x = true ∧ c.state = .prepared ∧
      c.deadline = b.deadline := by
  obtain ⟨now, m⟩ := m
  cases m with
  | call y timeout => exact ⟨_, rfl, hb, hstate, rfl⟩
  | enlist hold =>
      simp only [Move.effect]
      split
      · exact ⟨_, rfl, hb, hstate, rfl⟩
      · exact ⟨_, rfl, hb, hstate, rfl⟩
  | perform p y =>
      simp only [Move.effect]
      split
      · next hy =>
        obtain rfl := Branch.eq_of_goesBy hb hy
        rw [Branch.after_of_not_isEndedBy hstate fun hp => h ⟨p, rfl, hp⟩]
        exact ⟨_, rfl, hb, hstate, rfl⟩
      · exact ⟨_, rfl, hb, hstate, rfl⟩

/-- A prepared branch stays prepared through all moves exactly when none of them ends it. -/
theorem keepsPrepared_after_iff (h : t.ledger.Distinct) (hb : t.ledger.branches[i]? = some b)
    (hx : b.goesBy x = true) (hstate : b.state = .prepared) (moves : List (Nat × Move)) :
    (t.after moves).KeepsPrepared x i ↔ ∀ before m later, moves = before ++ m :: later →
      ¬ ((t.after before).Completes x m ∨ PreparesLate x b.deadline m) := by
  induction moves generalizing t b with
  | nil =>
      refine iff_of_true ((keepsPrepared_iff h hb).mpr ⟨hx, hstate⟩) fun before m later heq => ?_
      simp at heq
  | cons m moves ih =>
      have hstep := step_distinct h m.1 m.2
      have hmoved := getElem?_step h hb m.1 m.2
      by_cases hends : ∃ p, m.2 = .perform p x ∧ b.IsEndedBy m.1 x p
      · refine iff_of_false (fun hkeeps => ?_) fun hnone => ?_
        · obtain ⟨p, hm, hp⟩ := hends
          have hended : m.2.effect m.1 t.held i b = b.ended := by
            rw [hm, Move.effect, if_pos hx, Branch.after_of_isEndedBy hstate hp]
          rw [hended] at hmoved
          obtain ⟨c, hc, hback⟩ := goesBy_of_after (x := x) hstep hmoved moves
          have hcx := ((keepsPrepared_iff (after_distinct hstep moves) hc).mp hkeeps).1
          rw [Branch.ended_goesBy] at hback
          cases hback hcx
        · exact hnone [] m moves rfl ((ends_iff h hb hx m).mpr hends)
      · obtain ⟨c, heffect, hcx, hcstate, hdeadline⟩ :=
          effect_of_not_ends hx hstate hends t.held i
        rw [heffect] at hmoved
        rw [after_cons, ih hstep hmoved hcx hcstate, hdeadline]
        constructor
        · rintro hlater (_ | ⟨m', before⟩) n later heq
          · obtain ⟨rfl, rfl⟩ := List.cons.inj heq
            rwa [after_nil, ends_iff h hb hx]
          · obtain ⟨rfl, rfl⟩ := List.cons.inj heq
            exact hlater before n later rfl
        · rintro hall before n later rfl
          exact hall (m :: before) n later rfl

/-- A branch that has voted for the commit stays prepared through all that may happen, at whatever
times, up to a commit, a rollback or a request to forget it that succeeds, or up to a request for
its vote at or after its deadline. -/
theorem prepared_until_completed_or_asked_late {history : List (Nat × Move)} {now : Nat} {x : Xid}
    {l : Ledger}
    (h : (start.after history).ledger.perform now .prepare x = (.ok (some .ok), l)) :
    ∃ i b, l.find? x = some i ∧ l.get? x = some b ∧ b.state = .prepared ∧
      ∀ moves, (start.after (history ++ (now, .perform .prepare x) :: moves)).KeepsPrepared x i ↔
        ∀ before m later, moves = before ++ m :: later →
          ¬ ((start.after (history ++ (now, .perform .prepare x) :: before)).Completes x m ∨
            PreparesLate x b.deadline m) := by
  have hdistinct := start_after_distinct history
  cases hfind : (start.after history).ledger.find? x with
  | none =>
      rw [Ledger.perform_of_find?_eq_none hfind] at h
      cases h
  | some i =>
      obtain ⟨b, hb, hx, -⟩ := Ledger.exists_of_find? hfind
      have hvoted := h
      rw [Ledger.perform_of_find? hfind hb, Prod.mk.injEq] at hvoted
      have hmoved := getElem?_step hdistinct hb now (.perform .prepare x)
      rw [Move.effect, if_pos hx, Branch.after_of_voted hvoted.1] at hmoved
      have hstep := step_distinct hdistinct now (.perform .prepare x)
      have hledger : ((start.after history).step now (.perform .prepare x)).ledger = l :=
        congrArg Prod.snd h
      obtain ⟨hfind', c, hget, hc⟩ := (keepsPrepared_iff hstep hmoved).mpr ⟨hx, rfl⟩
      obtain rfl := Option.some.inj
        ((Ledger.get?_eq_of_find? hfind').symm.trans hget ▸ hmoved)
      rw [hledger] at hfind' hget
      refine ⟨i, _, hfind', hget, rfl, fun moves => ?_⟩
      simp only [after_append, after_cons]
      exact keepsPrepared_after_iff hstep hmoved hx rfl moves

/-- The deadline alone does not end a branch that has voted. -/
theorem voted_branch_waits_past_deadline :
    let x : Xid := ⟨1, [1], [2]⟩
    (start.after [(0, .call x 1), (0, .enlist 0), (0, .perform .prepare x),
      (Ledger.second, .perform .beforeCompletion x)]).KeepsPrepared x 0 := by
  intro x
  have hvoted : (start.after [(0, .call x 1), (0, .enlist 0)]).ledger.perform 0 .prepare x =
      (.ok (some .ok), ⟨[⟨x, Ledger.second, .prepared, 1, some x⟩]⟩) := by
    decide +kernel
  obtain ⟨i, b, hfind, -, -, hkeeps⟩ := prepared_until_completed_or_asked_late hvoted
  obtain rfl : 0 = i := Option.some.inj hfind
  refine (hkeeps [(Ledger.second, .perform .beforeCompletion x)]).mpr ?_
  rintro (_ | ⟨m', before⟩) m later heq
  · obtain ⟨rfl, rfl⟩ := List.cons.inj heq
    rintro (⟨p, hm, hp, -⟩ | ⟨hm, -⟩)
    · obtain ⟨rfl, -⟩ := Move.perform.inj hm
      cases hp
    · cases hm
  · simp at heq

/-- A branch that has voted for the commit is gone after it is asked for its vote again a second
later, though nobody has ended it: it is the deadline that is looked at first. -/
theorem voted_branch_lost_by_late_request :
    let x : Xid := ⟨1, [1], [2]⟩
    let before := start.after [(0, .call x 1), (0, .enlist 0)]
    let voted := before.step 0 (.perform .prepare x)
    let asked := voted.step Ledger.second (.perform .prepare x)
    (before.ledger.perform 0 .prepare x).1 = .ok (some .ok) ∧
      voted.ledger.get? x = some ⟨x, Ledger.second, .prepared, 1, some x⟩ ∧
      (voted.ledger.perform Ledger.second .prepare x).1 = .error (Ledger.timedOut x) ∧
      asked.ledger.get? x = none ∧ ¬ asked.KeepsPrepared x 0 := by
  intro x before voted asked
  have hgone : asked.ledger.get? x = none := by
    decide +kernel
  refine ⟨by decide +kernel, by decide +kernel, by decide +kernel, hgone, ?_⟩
  rintro ⟨-, b, hget, -⟩
  rw [hgone] at hget
  cases hget

end Traffic

end RemoteCall
