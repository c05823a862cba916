import Mathlib.Order.Bounds.Basic
import RemoteCall.Proofs.Service.Records

/-!
# Cancel requests are kept apart

The level that has been requested of an invocation is the strongest of those cancel requests that
found this very invocation under their identifier and have marked it since. Which ones found it is
told by the register as it stood when they looked: a request for another identifier did not, nor did
one that came after the invocation was replaced or let go. So levels only rise, and in which order
the requests came does not matter.
-/

namespace RemoteCall

namespace CancelLevel

theorem rank_injective : Function.Injective rank := by
  intro a b h
  cases a <;> cases b <;> first | rfl | cases h

/-- Levels are ordered by their strength. -/
instance : LinearOrder CancelLevel := LinearOrder.lift' rank rank_injective

theorem le_aggressive (level : CancelLevel) : level ≤ aggressive := by
  cases level <;> decide

theorem max_eq (a b : CancelLevel) : a.max b = Max.max a b := by
  cases a <;> cases b <;> rfl

end CancelLevel

/-- A cancel request of a level that found an invocation has marked it. -/
def Log.Made (log : Log) (t : Ticket) (level : CancelLevel) : Prop :=
  ∃ k order, log.Has (.seek k order (some t)) ∧ log.Has (.mark k) ∧
    level = .ofRequest order.isAggressive

namespace Interplay

variable {config : ServiceConfig} {isManaged : Bool} {s s' : Interplay} {log : Log} {time : Nat}
  {d : Deed} {t : Ticket} {k : Ticket}

/-- Only a cancel request changes what is requested. -/
theorem Step.requested_of_ne (step : Step config isManaged s time d s')
    (h : ∀ k, d ≠ .mark k) (t : Ticket) : s'.board.requested t = s.board.requested t := by
  cases step with
  | begin a hnone => exact Cancel.Board.requested_meet ..
  | @reply u q next guard reply hcall =>
      cases q with
      | acknowledge cancelled => exact Cancel.Board.requested_acknowledge ..
      | _ => rfl
  | report cancelled hcall => exact Cancel.Board.requested_acknowledge ..
  | mark hfound => exact absurd rfl (h _)
  | _ => rfl

/-- A cancel request marks the invocation that it found. -/
theorem Step.requested_of_mark (step : Step config isManaged s time (.mark k) s') :
    ∃ order t, s.pursuits k = some (.found order t) ∧
      (s.board.Knows t → s'.board.requested t =
        Max.max (s.board.requested t) (.ofRequest order.isAggressive)) ∧
      ∀ u, u ≠ t → s'.board.requested u = s.board.requested u := by
  cases step with
  | @mark k order t hfound =>
      refine ⟨order, t, hfound, fun hknown => ?_, fun u hu => ?_⟩
      · rw [withPursuit_board, Cancel.Board.requested, Cancel.Board.handle_update_self hknown,
          ← CancelLevel.max_eq]
        rfl
      · rw [withPursuit_board, Cancel.Board.requested, Cancel.Board.handle_update_of_ne _ _ hu]
        rfl

/-- Nothing is made by anything but a mark. -/
theorem Runs.made_concat_of_ne (run : Runs config isManaged start log s)
    (step : Step config isManaged s time d s') (h : ∀ k, d ≠ .mark k) {level : CancelLevel} :
    Log.Made (log ++ [(time, d)]) t level ↔ log.Made t level := by
  constructor
  · rintro ⟨k, order, hseek, hmark, hlevel⟩
    rw [Log.has_concat, or_iff_left (h k)] at hmark
    rcases Log.has_concat.mp hseek with hseek | rfl
    · exact ⟨k, order, hseek, hmark, hlevel⟩
    · exact absurd hmark (run.unsought step.unsought rfl)
  · rintro ⟨k, order, hseek, hmark, hlevel⟩
    exact ⟨k, order, Log.has_concat.mpr (.inl hseek), Log.has_concat.mpr (.inl hmark), hlevel⟩

/-- A mark is made of the invocation that was found. -/
theorem Runs.made_concat_mark (run : Runs config isManaged start log s) {order : Cancel.Order}
    {u : Ticket} (h : s.pursuits k = some (.found order u)) {level : CancelLevel} :
    Log.Made (log ++ [(time, .mark k)]) t level ↔
      log.Made t level ∨ t = u ∧ level = .ofRequest order.isAggressive := by
  have htold := (run.told h).sought
  constructor
  · rintro ⟨k', order', hseek, hmark, hlevel⟩
    rw [Log.has_concat, or_iff_left nofun] at hseek
    rcases Log.has_concat.mp hmark with hmark | hmark
    · exact .inl ⟨k', order', hseek, hmark, hlevel⟩
    · cases hmark
      cases (htold order' (some t)).mp hseek
      exact .inr ⟨rfl, hlevel⟩
  · rintro (⟨k', order', hseek, hmark, hlevel⟩ | ⟨rfl, hlevel⟩)
    · exact ⟨k', order', Log.has_concat.mpr (.inl hseek), Log.has_concat.mpr (.inl hmark), hlevel⟩
    · exact ⟨k, order, Log.has_concat.mpr (.inl ((htold order (some t)).mpr rfl)),
        Log.has_concat.mpr (.inr rfl), hlevel⟩

/-- The level that is requested is the greatest that was made. -/
theorem Runs.requested_greatest (run : Runs config isManaged start log s) (t : Ticket) :
    IsGreatest (insert .nothing {level | log.Made t level}) (s.board.requested t) := by
  induction run with
  | refl =>
      refine ⟨Set.mem_insert CancelLevel.nothing _, ?_⟩
      rintro level (rfl | ⟨k, order, ⟨time, hmem⟩, -⟩)
      · exact le_rfl
      · cases hmem
  | @step log s s' time d run htime step ih =>
      by_cases hmark : ∃ k, d = .mark k
      · obtain ⟨k, rfl⟩ := hmark
        obtain ⟨order, u, hfound, hmarked, hspared⟩ := step.requested_of_mark
        simp only [run.made_concat_mark hfound]
        by_cases ht : t = u
        · subst ht
          have hseek := ((run.told hfound).sought order (some t)).mpr rfl
          rw [hmarked (run.knows_found hseek), max_comm]
          have hinsert : (insert .nothing {level | log.Made t level ∨
              t = t ∧ level = .ofRequest order.isAggressive} : Set CancelLevel) =
              insert (.ofRequest order.isAggressive)
                (insert .nothing {level | log.Made t level}) := by
            ext level
            simp only [Set.mem_insert_iff, Set.mem_ofPred_eq, true_and]
            tauto
          rw [hinsert]
          exact ih.insert _
        · rw [hspared t ht]
          simpa [ht] using ih
      · have hne : ∀ k, d ≠ .mark k := fun k hk => hmark ⟨k, hk⟩
        rw [step.requested_of_ne hne t]
        simpa only [run.made_concat_of_ne step hne] using ih

/-- Levels do not go down. -/
theorem Runs.requested_le (run : Runs config isManaged start log s) {more : Log}
    (further : Runs config isManaged s more s') (t : Ticket) :
    s.board.requested t ≤ s'.board.requested t := by
  induction further with
  | refl => exact le_rfl
  | @step more r r' time d further htime step ih =>
      refine ih.trans ?_
      by_cases hmark : ∃ k, d = .mark k
      · obtain ⟨k, rfl⟩ := hmark
        obtain ⟨order, u, hfound, hmarked, hspared⟩ := step.requested_of_mark
        have hrun := run.trans further
        by_cases ht : t = u
        · subst ht
          have hseek := ((hrun.told hfound).sought order (some t)).mpr rfl
          rw [hmarked (hrun.knows_found hseek)]
          exact le_max_left _ _
        · exact (hspared t ht).ge
      · exact (step.requested_of_ne (fun k hk => hmark ⟨k, hk⟩) t).ge

/-- What is true of all that has been requested, looked up and answered after a log. -/
structure Isolated (config : ServiceConfig) (isManaged : Bool) (log : Log) (s : Interplay) :
    Prop where
  /-- The level of an invocation is the greatest of those that were made of it. -/
  greatest : ∀ t, IsGreatest (insert .nothing {level | log.Made t level}) (s.board.requested t)
  /-- A cancel request looks once for an invocation. -/
  once : ∀ k order found order' found', log.Has (.seek k order found) →
    log.Has (.seek k order' found') → order = order' ∧ found = found'
  /-- It finds what stands under its identifier at that time. -/
  found_iff : ∀ (before : Log) sought k order found after,
    log = before ++ (sought, .seek k order found) :: after →
      ∀ t, found = some t ↔ before.Stands order.id t
  /-- What it found and has not marked yet, it is about to mark. -/
  unmarked : ∀ k order t, log.Has (.seek k order (some t)) → ¬ log.Has (.mark k) →
    s.pursuits k = some (.found order t)
  /-- What stands under an identifier carries it. -/
  carried : ∀ id t, log.Stands id t → ∃ a, log.Has (.begin t a) ∧ a.identifier = some id
  /-- What stands is what the register holds. -/
  register : ∀ id t, s.board.registry.get? id = some t ↔ log.Stands id t
  /-- Whatever is done later, no level goes down. -/
  rising : ∀ more s', Runs config isManaged s more s' →
    ∀ t, s.board.requested t ≤ s'.board.requested t
  /-- In which order the requests were made does not matter. -/
  unordered : ∀ log' s', Runs config isManaged start log' s' → ∀ t,
    (∀ level, log.Made t level ↔ log'.Made t level) → s.board.requested t = s'.board.requested t
  /-- A cancel request that is told of a report is told of the first one of what it found. -/
  firstReport : ∀ (before : Log) answered k cancelled after,
    log = before ++ (answered, .answer k (some cancelled)) :: after →
      ∃ order t, before.Has (.seek k order (some t)) ∧ (before.reports t).head? = some cancelled

theorem runs_isolated (run : Runs config isManaged start log s) :
    Isolated config isManaged log s where
  greatest := run.requested_greatest
  once k order found order' found' h h' := Prod.mk.inj (run.sought_once h h')
  found_iff := by
    rintro before sought k order found after rfl t
    obtain ⟨s₁, s₂, hbefore, -, hstep, -⟩ := run.split
    exact Step.seek_iff hbefore hstep
  unmarked k order t h hmark := by
    obtain ⟨p, hp⟩ := run.exists_pursuit h rfl
    obtain ⟨hsought, hmarked, -⟩ := run.told hp
    rw [hp, Pursuit.eq_found ((hsought order (some t)).mp h) fun hp => hmark (hmarked.mpr hp)]
  carried id t h := by
    obtain ⟨c, hcall⟩ := run.calls_isSome_of_stands h
    obtain ⟨a, hkept⟩ := run.kept hcall
    obtain ⟨event, hevent, hregister⟩ := h.holds.exists_event
    exact ⟨a, hkept.begun, hkept.registers event hevent id hregister⟩
  register id t := run.get?_eq_some_iff
  rising more s' further := run.requested_le further
  unordered log' s' run' t h := by
    have hgreatest := run.requested_greatest t
    simp only [h] at hgreatest
    exact hgreatest.unique (run'.requested_greatest t)
  firstReport := by
    rintro before answered k cancelled after rfl
    obtain ⟨s₁, s₂, hbefore, -, hstep, -⟩ := run.split
    obtain ⟨order, t, hseek, -, hseen, -⟩ := hbefore.answered hstep
    exact ⟨order, t, hseek, hseen.symm⟩

/-- An invocation is marked while its target runs, and its identifier leads to it. -/
theorem awaited_call_isolated :
    ∃ s, Runs .standard false start (.awaited clearing stopClearing) s ∧
      Isolated .standard false (.awaited clearing stopClearing) s ∧
      s.board.requested 0 = .aggressive ∧ s.board.registry.get? ⟨"7", "node1"⟩ = some 0 := by
  obtain ⟨s, call, run, -, -⟩ := clearing_awaited
  have hisolated := runs_isolated run
  refine ⟨s, run, hisolated, ?_, ?_⟩
  · apply le_antisymm (CancelLevel.le_aggressive _)
    refine (hisolated.greatest 0).2 (Set.mem_insert_of_mem _ ⟨1, stopClearing, ?_, ?_, rfl⟩)
    · exact ⟨0, by simp [Log.awaited]⟩
    · exact ⟨0, by simp [Log.awaited]⟩
  · refine (hisolated.register stopClearing.id 0).mpr
      ⟨(Log.awaited clearing stopClearing).take 3, _, _, rfl, rfl, ?_⟩
    simp [Deed.Spares, Deed.added?, Deed.released?]

end Interplay

end RemoteCall
