import RemoteCall.Proofs.Service.Records

/-!
# What a cancel request is told

A cancel request is told the first report on the invocation that it found, or nothing once its time
is over. An invocation that responds has been reported on whatever its outcome, so whoever found it
is told in time. An invocation that breaks down is not reported on by the service: its guard is
dropped and the response is given, but a request that has found it is told only what its target has
reported by itself, and else it waits to the end.
-/

namespace RemoteCall

namespace Log

variable {log : Log} {t : Ticket}

theorem exists_mem_of_mem_events {event : Event} (h : event ∈ log.events t) :
    log.Has (.ask t event) := by
  obtain ⟨⟨time, d⟩, hmem, hevent⟩ := List.mem_filterMap.mp h
  cases d with
  | ask u other =>
      simp only [Deed.event?, Option.ite_none_right_eq_some, Option.some.injEq] at hevent
      obtain ⟨rfl, rfl⟩ := hevent
      exact ⟨time, hmem⟩
  | _ => cases hevent

/-- An invocation that was acknowledged has been reported on. -/
theorem reports_ne_nil (h : Reached .acknowledge (log.events t)) : log.reports t ≠ [] := by
  obtain ⟨⟨q, answer⟩, hevent, hstage⟩ := h
  obtain ⟨time, hmem⟩ := exists_mem_of_mem_events hevent
  cases q with
  | acknowledge cancelled =>
      exact List.ne_nil_of_mem (List.mem_filterMap.mpr ⟨_, hmem, if_pos rfl⟩)
  | _ => cases hstage

/-- Of an invocation that was not acknowledged there are the reports of its target only. -/
theorem reports_eq_ownReports (h : ¬ Reached .acknowledge (log.events t)) :
    log.reports t = log.ownReports t := by
  refine List.filterMap_congr fun x hx => ?_
  obtain ⟨time, d⟩ := x
  cases d with
  | ask u event =>
      obtain ⟨q, answer⟩ := event
      cases q with
      | acknowledge cancelled =>
          refine if_neg fun hu => h ?_
          exact ⟨_, List.mem_filterMap.mpr ⟨_, hx, if_pos hu⟩, rfl⟩
      | _ => rfl
  | _ => rfl

end Log

namespace Interplay

variable {config : ServiceConfig} {isManaged : Bool} {s s' : Interplay} {log : Log} {time : Nat}
  {t k : Ticket}

/-- Whoever was found and has responded has been reported on. -/
theorem Runs.reported (run : Runs config isManaged start log s) {order : Cancel.Order}
    (hseek : log.Has (.seek k order (some t))) {r : Http.Response}
    (hfinish : log.Has (.finish t (.response r))) : log.reports t ≠ [] := by
  obtain ⟨guard, hcall⟩ := run.ended hfinish
  obtain ⟨a, hkept⟩ := run.kept hcall
  exact Log.reports_ne_nil (hkept.progress (run.registered_of_found hseek))

/-- Whoever broke down has not been acknowledged. -/
theorem Runs.not_acknowledged (run : Runs config isManaged start log s) {m : Breakdown}
    (hfinish : log.Has (.finish t (.broke m))) : ¬ Reached .acknowledge (log.events t) := by
  obtain ⟨guard, hcall⟩ := run.ended hfinish
  obtain ⟨a, hkept⟩ := run.kept hcall
  exact hkept.progress

/-- What is true of the answers to cancel requests in a log, and of those that may still be given in
the state that it led to. -/
structure Answered (config : ServiceConfig) (isManaged : Bool) (log : Log) (s : Interplay) :
    Prop where
  /-- An answer is the first report on what was found, or the time is over. -/
  explained : ∀ (before : Log) answered k seen after,
    log = before ++ (answered, .answer k seen) :: after →
      ∃ order t since, before.Has (.seek k order (some t)) ∧ (since, .wait k) ∈ before ∧
        seen = (before.reports t).head? ∧ (seen = none → since + config.cancelWait ≤ answered)
  /-- Of an invocation that responds before the time is over a report is told. -/
  responded : ∀ (before : Log) answered k seen after,
    log = before ++ (answered, .answer k seen) :: after →
      ∀ order t since finished r, before.Has (.seek k order (some t)) →
        (since, .wait k) ∈ before → (finished, .finish t (.response r)) ∈ log →
          finished < since + config.cancelWait → seen.isSome = true
  /-- Of an invocation that breaks down only what its target reported by itself is told. -/
  brokeDown : ∀ (before : Log) answered k seen after,
    log = before ++ (answered, .answer k seen) :: after →
      ∀ order t m, before.Has (.seek k order (some t)) → log.Has (.finish t (.broke m)) →
        seen = (before.ownReports t).head?
  /-- Whoever waits may be answered once there is a report or the time is over, and not before. -/
  due : ∀ k order t deadline time, s.pursuits k = some (.waiting order t deadline) →
    ((∃ seen s', Step config isManaged s time (.answer k seen) s') ↔
      log.reports t ≠ [] ∨ deadline ≤ time)
  /-- There is a report on every invocation that was found and has responded. -/
  settled : ∀ k order t r, log.Has (.seek k order (some t)) → log.Has (.finish t (.response r)) →
    log.reports t ≠ []

theorem runs_answered (run : Runs config isManaged start log s) :
    Answered config isManaged log s where
  explained := by
    rintro before answered k seen after rfl
    obtain ⟨s₁, s₂, hbefore, -, hstep, -⟩ := run.split
    obtain ⟨order, t, hseek, ⟨since, hsince⟩, hseen, hlate⟩ := hbefore.answered hstep
    exact ⟨order, t, since, hseek, hsince, hseen, fun hnone => hlate hnone since hsince⟩
  responded := by
    rintro before answered k seen after rfl order t since finished r hseek hsince hfinish hin
    obtain ⟨s₁, s₂, hbefore, -, hstep, hafter⟩ := run.split
    obtain ⟨order', t', hseek', -, hseen, hlate⟩ := hbefore.answered hstep
    cases hbefore.sought_once hseek hseek'
    rcases List.mem_append.mp hfinish with hfinish | hfinish
    · -- The invocation has responded by the time of the answer.
      have hreports := hbefore.reported hseek ⟨finished, hfinish⟩
      rw [hseen, List.isSome_head?]
      exact hreports
    · rcases List.mem_cons.mp hfinish with hfinish | hfinish
      · cases hfinish
      · -- It responds later, so the time is not over yet.
        rw [Option.isSome_iff_ne_none]
        intro hnone
        have hanswered := hafter.le_time _ hfinish
        rw [hstep.now] at hanswered
        have hover := hlate hnone since hsince
        omega
  brokeDown := by
    rintro before answered k seen after rfl order t m hseek hbroke
    obtain ⟨s₁, s₂, hbefore, -, hstep, -⟩ := run.split
    obtain ⟨order', t', hseek', -, hseen, -⟩ := hbefore.answered hstep
    cases hbefore.sought_once hseek hseek'
    rw [hseen, Log.reports_eq_ownReports]
    intro hreached
    apply run.not_acknowledged hbroke
    rw [Log.events, List.filterMap_append]
    exact hreached.append _
  due k order t deadline time hwaiting := by
    have hreport : log.reports t ≠ [] ↔ (s.board.handle t).acknowledged ≠ none := by
      rw [run.acknowledged, Ne, Ne, List.head?_eq_none_iff]
    rw [hreport]
    constructor
    · rintro ⟨seen, s', hstep⟩
      cases hstep with
      | answer hother hlate =>
          cases hwaiting.symm.trans hother
          exact Decidable.or_iff_not_imp_left.mpr fun hnone => hlate (not_not.mp hnone)
    · intro hready
      refine ⟨_, _, .answer hwaiting fun hnone => ?_⟩
      exact hready.resolve_left (not_not_intro hnone)
  settled k order t r hseek hfinish := run.reported hseek hfinish

/-- A target that stops when it is asked to is acknowledged, and the request is told so. -/
theorem cancelled_call_answered :
    ∃ call s,
      let log := Log.awaited clearing stopClearing ++
        [(1, .ask 0 ⟨.invoke call, .reply .cancelled⟩),
          (1, .ask 0 ⟨.acknowledge true, .reply ()⟩), (2, .answer 1 (some true))]
      Runs .standard false start log s ∧ Answered .standard false log s := by
  obtain ⟨s, call, run, hnow, hcall, hwaiting⟩ := clearing_awaited
  have hinvoked := run.step (show s.now ≤ 1 by omega)
    (.reply (t := 0) (q := .invoke call) .cancelled hcall)
  have hacknowledged := hinvoked.step (Nat.le_refl 1)
    (.reply (t := 0) (q := .acknowledge true) () rfl)
  have hreport := hacknowledged.acknowledged (t := 0)
  have hanswered := hacknowledged.step (Nat.le_succ 1)
    (.answer (k := 1) hwaiting fun hnone => nomatch hreport.symm.trans hnone)
  rw [hreport] at hanswered
  exact ⟨call, _, hanswered, runs_answered hanswered⟩

/-- An invocation that breaks down in time leaves the request that found it without an answer. -/
theorem broken_call_not_told :
    ¬ ∀ (log : Log) s, Runs .standard false start log s →
      ∀ (before : Log) answered k seen after,
        log = before ++ (answered, .answer k seen) :: after →
          ∀ order t since finished ending, before.Has (.seek k order (some t)) →
            (since, .wait k) ∈ before → (finished, .finish t ending) ∈ before →
              finished < since + ServiceConfig.standard.cancelWait → seen.isSome = true := by
  intro claim
  obtain ⟨s, call, run, hnow, hcall, hwaiting⟩ := clearing_awaited
  have hbroke := run.step (show s.now ≤ 1 by omega) (.broke (t := 0) ⟨3, "gone"⟩ hcall rfl)
  have hunwound := hbroke.step (Nat.le_refl 1) (.unwind (t := 0) rfl)
  have hfinished := hunwound.step (Nat.le_refl 1) (.fail (t := 0) rfl)
  have hreport := hfinished.acknowledged (t := 0)
  have hanswered := hfinished.step (show 1 ≤ 5000 by decide)
    (.answer (k := 1) hwaiting fun _ => Nat.le_refl 5000)
  rw [hreport] at hanswered
  have htold := claim _ _ hanswered _ 5000 1 none [] rfl stopClearing 0 0 1 (.broke ⟨3, "gone"⟩)
    ⟨0, by simp [Log.awaited]⟩ (by simp [Log.awaited]) (by simp) (by decide)
  cases htold

end Interplay

end RemoteCall
