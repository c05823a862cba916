import RemoteCall.Proofs.Cancel.Board
import RemoteCall.Proofs.Service.Interplay

/-!
# What every invocation keeps to

However invocations and cancel requests take turns, an invocation registers under the identifier
that its request carried and under no other. It is acknowledged before it responds if it has been
registered, and once it is acknowledged nobody is asked who may break down. So an invocation that
breaks down has not been acknowledged, and one that responds has. While it runs, its guard holds the
entry that it made, until the guard is let go.
-/

namespace RemoteCall

/-- Among the events of an invocation there is one of a stage. -/
def Reached (stage : Stage) (events : List Event) : Prop :=
  ∃ event ∈ events, event.question.stage = stage

theorem Reached.append {stage : Stage} {events : List Event} (h : Reached stage events)
    (more : List Event) : Reached stage (events ++ more) := by
  obtain ⟨event, hevent, hstage⟩ := h
  exact ⟨event, List.mem_append_left more hevent, hstage⟩

theorem reached_concat {stage : Stage} {events : List Event} {event : Event} :
    Reached stage (events ++ [event]) ↔ Reached stage events ∨ event.question.stage = stage := by
  simp [Reached, or_and_right, exists_or]

/-- An invocation that was registered has been acknowledged. -/
def Settled (events : List Event) : Prop :=
  Reached .register events → Reached .acknowledge events

/-- An invocation registers under its identifier only, and asks nobody who may break down once it is
acknowledged. -/
def Lawful (identifier : Option InvocationId) (before : List Event) (q : Question) : Prop :=
  (∀ id, q = .register id → identifier = some id) ∧
    (q.isOwn = false → ¬ Reached .acknowledge before)

namespace Dispatch

open Exchange

/-- An exchange asks what is lawful and responds when it is settled. -/
abbrev Conducts (identifier : Option InvocationId) : List Event → Exchange → Prop :=
  Obeys (Lawful identifier) fun before _ => Settled before

variable {identifier : Option InvocationId} {before : List Event}

theorem conducts_respond {r : Http.Response} (h : ¬ Reached .register before) :
    Conducts identifier before (.respond r) :=
  .respond fun hregistered => absurd hregistered h

theorem conclude_conducts (d : Dialect) (isRegistered : Bool) (attachments : Attachments)
    (outcome : CallOutcome) (before : List Event) :
    Conducts identifier before (conclude d isRegistered attachments outcome) := by
  have hsettled : ∀ more,
      Settled (before ++ [⟨.acknowledge outcome.isCancelled, .reply ()⟩] ++ more) :=
    fun more _ => (reached_concat.mpr (.inr rfl)).append more
  refine .ask ⟨nofun, nofun⟩ fun _ => ?_
  cases isRegistered with
  | false =>
      have h := hsettled []
      rw [List.append_nil] at h
      exact .respond h
  | true =>
      exact .ask ⟨nofun, nofun⟩ fun _ => .respond (hsettled _)

theorem perform_conducts (d : Dialect) (call : ResolvedCall)
    (h : ¬ Reached .acknowledge before) : Conducts call.identifier before (perform d call) := by
  unfold perform
  split
  · next id hid =>
    refine .ask ⟨fun other hother => ?_, nofun⟩ fun _ => ?_
    · cases hother
      exact hid
    · refine .ask ⟨nofun, fun _ hreached => ?_⟩ fun outcome =>
        conclude_conducts ..
      rcases reached_concat.mp hreached with hbefore | hstage
      · exact h hbefore
      · cases hstage
  · exact .ask ⟨nofun, fun _ => h⟩ fun outcome => conclude_conducts ..

theorem reach_conducts (d : Dialect) (a : Accepted) (request : Invocation.Request)
    (imported : Option BranchRef) (hregister : ¬ Reached .register before)
    (hacknowledge : ¬ Reached .acknowledge before) :
    Conducts a.identifier before (reach d a request imported) := by
  have hnot : ∀ {stage events} (event : Event), ¬ Reached stage events →
      event.question.stage ≠ stage → ¬ Reached stage (events ++ [event]) := by
    intro stage events event hevents hstage hreached
    exact (reached_concat.mp hreached).elim hevents hstage
  refine .ask ⟨nofun, fun _ => hacknowledge⟩ fun isHome => ?_
  refine .ask ⟨nofun, fun _ => hnot _ hacknowledge nofun⟩ fun found => ?_
  cases found with
  | error e =>
      exact conducts_respond (hnot _ (hnot _ hregister nofun) nofun)
  | ok _ =>
      refine perform_conducts d (resolved a request (locator a isHome) imported) ?_
      exact hnot _ (hnot _ hacknowledge nofun) nofun

theorem not_reached_nil (stage : Stage) : ¬ Reached stage [] := by
  rintro ⟨event, hevent, -⟩
  cases hevent

/-- Every accepted request is served lawfully. -/
theorem start_conducts (config : ServiceConfig) (isManaged : Bool) (a : Accepted) :
    Conducts a.identifier [] (start config isManaged a).2 := by
  unfold start converse
  dsimp only
  split
  · split
    · refine .ask ⟨nofun, fun _ => not_reached_nil _⟩ fun imported => ?_
      have hnot : ∀ {stage}, Stage.importBranch ≠ stage → ¬ Reached stage
          ([] ++ [⟨.importBranch _ _, .reply imported⟩]) := by
        intro stage hstage hreached
        exact (reached_concat.mp hreached).elim (not_reached_nil stage) hstage
      cases imported with
      | error e => exact conducts_respond (hnot nofun)
      | ok branch =>
          exact reach_conducts _ a _ _ (hnot nofun) (hnot nofun)
    · exact reach_conducts _ a _ _ (not_reached_nil _) (not_reached_nil _)
  · exact conducts_respond (not_reached_nil _)

end Dispatch

/-- What is known of an invocation from how far it has come. -/
def Progress.Keeps (identifier : Option InvocationId) (events : List Event) : Progress → Prop
  | going e => Dispatch.Conducts identifier events e
  | unwinding _ => ¬ Reached .acknowledge events
  | unwound _ => ¬ Reached .acknowledge events
  | ended (.response _) => Settled events
  | ended (.broke _) => ¬ Reached .acknowledge events

/-- An invocation has been registered under an identifier, and since then its guard was not let
go. -/
def Log.Holds (log : Log) (t : Ticket) (id : InvocationId) : Prop :=
  Since (·.2.added? = some (id, t)) (·.2.released? ≠ some t) log

namespace Log

variable {log : Log} {t : Ticket} {id : InvocationId} {x : Nat × Deed}

theorem holds_concat :
    Holds (log ++ [x]) t id ↔
      x.2.added? = some (id, t) ∨ log.Holds t id ∧ x.2.released? ≠ some t :=
  since_concat

/-- What neither registers an invocation nor lets its guard go leaves things as they are. -/
theorem holds_concat_of_ne (hentry : x.2.added? ≠ some (id, t))
    (hreleased : x.2.released? ≠ some t) : Holds (log ++ [x]) t id ↔ log.Holds t id := by
  rw [holds_concat, or_iff_right hentry, and_iff_left hreleased]

theorem Holds.exists_event (h : log.Holds t id) :
    ∃ event ∈ log.events t, event.question = .register id := by
  obtain ⟨⟨time, d⟩, hmem, hentry⟩ := mem_of_since h
  cases d with
  | ask u event =>
      obtain ⟨q, answer⟩ := event
      cases q with
      | register id' =>
          cases hentry
          exact ⟨_, List.mem_filterMap.mpr ⟨_, hmem, if_pos rfl⟩, rfl⟩
      | _ => cases hentry
  | _ => cases hentry

end Log

namespace Interplay

variable {config : ServiceConfig} {isManaged : Bool} {s s' : Interplay} {log : Log} {time : Nat}
  {d : Deed} {t : Ticket} {c : Call}

theorem eq_of_withCall {c' : Call} {board : Cancel.Board Ticket}
    (h : (s.withCall time t c' board).calls t = some c) : c' = c := by
  simpa using h

/-- Whoever does something has begun. -/
theorem Step.calls_isSome (step : Step config isManaged s time d s') (h : d.actor? = some t) :
    ∃ c, s'.calls t = some c := by
  cases step with
  | report cancelled hcall => cases h; exact ⟨_, hcall⟩
  | seek order hnone => cases h
  | mark hfound => cases h
  | wait hmarked => cases h
  | answer hwaiting hlate => cases h
  | _ => cases h; exact ⟨_, Function.update_self ..⟩

/-- What is not there has done nothing. -/
theorem Runs.absent (run : Runs config isManaged start log s) (h : s.calls t = none) :
    ∀ x ∈ log, x.2.actor? ≠ some t := by
  induction run with
  | refl => exact List.forall_mem_nil _
  | @step log s s' time d run htime step ih =>
      have hactor : d.actor? ≠ some t := by
        intro hactor
        obtain ⟨c, hc⟩ := step.calls_isSome hactor
        rw [h] at hc
        cases hc
      rw [step.calls_of_ne hactor] at h
      intro x hx
      rcases List.mem_append.mp hx with hx | hx
      · exact ih h x hx
      · rwa [List.mem_singleton.mp hx]

theorem Runs.events_of_absent (run : Runs config isManaged start log s) (h : s.calls t = none) :
    log.events t = [] :=
  List.filterMap_eq_nil_iff.mpr fun x hx => Deed.event?_of_actor?_ne (run.absent h x hx)

/-- What is known of an invocation in a state that a log has led to. -/
structure Kept (log : Log) (t : Ticket) (c : Call) (a : Accepted) : Prop where
  begun : log.Has (.begin t a)
  registers : ∀ event ∈ log.events t, ∀ id, event.question = .register id → a.identifier = some id
  progress : c.progress.Keeps a.identifier (log.events t)

/-- What is not answered to an invocation adds nothing to its events. -/
theorem Kept.concat {c' : Call} {a : Accepted} (k : Kept log t c a) (time : Nat)
    (hevent : d.event? t = none) (hprogress : c'.progress.Keeps a.identifier (log.events t)) :
    Kept (log ++ [(time, d)]) t c' a := by
  have hevents : Log.events (log ++ [(time, d)]) t = log.events t := by
    rw [Log.events_concat, hevent, Option.toList_none, List.append_nil]
  exact ⟨Log.has_concat.mpr (.inl k.begun), hevents ▸ k.registers, hevents ▸ hprogress⟩

/-- A lawful question adds one event. -/
theorem Kept.concat_ask {c' : Call} {a : Accepted} {event : Event} (k : Kept log t c a)
    (time : Nat) (hlaw : Lawful a.identifier (log.events t) event.question)
    (hprogress : c'.progress.Keeps a.identifier (log.events t ++ [event])) :
    Kept (log ++ [(time, .ask t event)]) t c' a := by
  have hevents : Log.events (log ++ [(time, .ask t event)]) t = log.events t ++ [event] := by
    rw [Log.events_concat, Deed.event?, if_pos rfl, Option.toList_some]
  refine ⟨Log.has_concat.mpr (.inl k.begun), ?_, hevents ▸ hprogress⟩
  rw [hevents]
  intro event' hmem id hid
  rcases List.mem_append.mp hmem with hmem | hmem
  · exact k.registers event' hmem id hid
  · rw [List.mem_singleton.mp hmem] at hid
    exact hlaw.1 id hid

theorem Runs.kept (run : Runs config isManaged start log s) (h : s.calls t = some c) :
    ∃ a, Kept log t c a := by
  induction run generalizing c with
  | refl => cases h
  | @step log s s' time d run htime step ih =>
      by_cases hactor : d.actor? = some t
      · cases step with
        | begin a hnone =>
            cases hactor
            obtain rfl := eq_of_withCall h
            have hevents := run.events_of_absent hnone
            refine ⟨a, Log.has_concat.mpr (.inr rfl), ?_, ?_⟩
            · rw [Log.events_concat, hevents]
              exact List.forall_mem_nil _
            · rw [Log.events_concat, hevents]
              exact Dispatch.start_conducts config isManaged a
        | @reply u q next guard reply hcall =>
            cases hactor
            obtain rfl := eq_of_withCall h
            obtain ⟨a, hkept⟩ := ih hcall
            cases hkept.progress with
            | ask hlaw tail => exact ⟨a, hkept.concat_ask time hlaw (tail reply)⟩
        | @broke u q next guard m hcall hq =>
            cases hactor
            obtain rfl := eq_of_withCall h
            obtain ⟨a, hkept⟩ := ih hcall
            cases hkept.progress with
            | ask hlaw tail =>
                refine ⟨a, hkept.concat_ask time hlaw fun hreached => ?_⟩
                rcases reached_concat.mp hreached with hbefore | hstage
                · exact hlaw.2 hq hbefore
                · cases q <;> cases hstage
                  cases hq
        | unwind hcall =>
            cases hactor
            obtain rfl := eq_of_withCall h
            obtain ⟨a, hkept⟩ := ih hcall
            exact ⟨a, hkept.concat time rfl hkept.progress⟩
        | respond hcall =>
            cases hactor
            obtain rfl := eq_of_withCall h
            obtain ⟨a, hkept⟩ := ih hcall
            cases hkept.progress with
            | respond hsettled => exact ⟨a, hkept.concat time rfl hsettled⟩
        | fail hcall =>
            cases hactor
            obtain rfl := eq_of_withCall h
            obtain ⟨a, hkept⟩ := ih hcall
            exact ⟨a, hkept.concat time rfl hkept.progress⟩
        | report cancelled hcall =>
            obtain ⟨a, hkept⟩ := ih h
            exact ⟨a, hkept.concat time rfl hkept.progress⟩
        | _ => cases hactor
      · rw [step.calls_of_ne hactor] at h
        obtain ⟨a, hkept⟩ := ih h
        exact ⟨a, hkept.concat time (Deed.event?_of_actor?_ne hactor) hkept.progress⟩

/-- The guard of an invocation holds the entry that was made for it, until it is let go. -/
theorem Runs.guard_iff (run : Runs config isManaged start log s) (h : s.calls t = some c)
    {id : InvocationId} {u : Ticket} :
    c.guard.entry = some (id, u) ↔ u = t ∧ log.Holds t id := by
  induction run generalizing c with
  | refl => cases h
  | @step log s s' time d run htime step ih =>
      have hquiet : ∀ {p : Progress} {guard : Guard Ticket} {d : Deed}, d.added? = none →
          d.released? = none → s.calls t = some ⟨p, guard⟩ →
          (guard.entry = some (id, u) ↔ u = t ∧ Log.Holds (log ++ [(time, d)]) t id) := by
        intro p guard d hentry hreleased hcall
        rw [Log.holds_concat_of_ne (hentry ▸ nofun) (hreleased ▸ nofun)]
        exact ih hcall
      have hgone : ∀ {guard : Guard Ticket} {d : Deed}, guard.entry = none → d.added? = none →
          d.released? = some t →
          (guard.entry = some (id, u) ↔ u = t ∧ Log.Holds (log ++ [(time, d)]) t id) := by
        intro guard d hguard hentry hreleased
        refine iff_of_false (by simp [hguard]) fun hright => ?_
        rcases Log.holds_concat.mp hright.2 with hnew | ⟨-, hkept⟩
        · rw [hentry] at hnew
          cases hnew
        · exact hkept hreleased
      by_cases hactor : d.actor? = some t
      · cases step with
        | begin a hnone =>
            cases hactor
            obtain rfl := eq_of_withCall h
            refine iff_of_false nofun fun ⟨_, hheld⟩ => ?_
            rw [Log.holds_concat_of_ne (by exact nofun) (by exact nofun)] at hheld
            obtain ⟨event, hevent, -⟩ := hheld.exists_event
            rw [run.events_of_absent hnone] at hevent
            cases hevent
        | @reply u' q next guard reply hcall =>
            cases hactor
            obtain rfl := eq_of_withCall h
            cases q with
            | register id' =>
                obtain ⟨a, hkept⟩ := run.kept hcall
                have hlawful : a.identifier = some id' := by
                  cases hkept.progress with
                  | ask hlaw tail => exact hlaw.1 id' rfl
                -- Whatever was registered before was registered under the same identifier.
                have hsame : log.Holds t id → id' = id := by
                  intro hheld
                  obtain ⟨event, hevent, hregister⟩ := hheld.exists_event
                  have hid := hkept.registers event hevent id hregister
                  exact Option.some.inj (hlawful.symm.trans hid)
                rw [Log.holds_concat]
                constructor
                · intro hentry
                  cases hentry
                  exact ⟨rfl, .inl rfl⟩
                · rintro ⟨rfl, hnew | ⟨hheld, -⟩⟩
                  · exact hnew
                  · rw [← hsame hheld]
                    rfl
            | release =>
                refine hgone ?_ rfl rfl
                simp [Cancel.Board.serve, Cancel.Board.release]
            | _ => exact hquiet rfl rfl hcall
        | @broke u q next guard m hcall hq =>
            cases hactor
            obtain rfl := eq_of_withCall h
            cases q <;> cases hq <;> exact hquiet rfl rfl hcall
        | unwind hcall =>
            cases hactor
            obtain rfl := eq_of_withCall h
            refine hgone ?_ rfl rfl
            simp [Cancel.Board.release]
        | respond hcall =>
            cases hactor
            obtain rfl := eq_of_withCall h
            exact hquiet rfl rfl hcall
        | fail hcall =>
            cases hactor
            obtain rfl := eq_of_withCall h
            exact hquiet rfl rfl hcall
        | report cancelled hcall => exact hquiet rfl rfl h
        | _ => cases hactor
      · rw [step.calls_of_ne hactor] at h
        rw [Log.holds_concat_of_ne (fun hentry => hactor (Deed.actor?_of_added? hentry))
          fun hreleased => hactor (Deed.actor?_of_released? hreleased)]
        exact ih h

/-- What the guard of an invocation holds. -/
def held? (s : Interplay) (t : Ticket) : Option (InvocationId × Ticket) :=
  (s.calls t).bind (·.guard.entry)

theorem Runs.held?_eq_some_iff (run : Runs config isManaged start log s) {id : InvocationId}
    {u : Ticket} : s.held? t = some (id, u) ↔ u = t ∧ log.Holds t id := by
  cases hcall : s.calls t with
  | none =>
      refine iff_of_false (by simp [held?, hcall]) fun ⟨_, hheld⟩ => ?_
      obtain ⟨event, hevent, -⟩ := hheld.exists_event
      rw [run.events_of_absent hcall] at hevent
      cases hevent
  | some c =>
      rw [held?, hcall, Option.bind_some]
      exact run.guard_iff hcall

/-- An invocation that has finished does nothing more. -/
theorem Step.calls_of_ended (step : Step config isManaged s time d s') {ending : Ending}
    {guard : Guard Ticket} (h : s.calls t = some ⟨.ended ending, guard⟩) :
    s'.calls t = s.calls t := by
  by_cases hactor : d.actor? = some t
  · cases step with
    | report cancelled hcall => rfl
    | begin a hcall => cases hactor; rw [h] at hcall; cases hcall
    | reply a hcall => cases hactor; rw [h] at hcall; cases hcall
    | broke m hcall hq => cases hactor; rw [h] at hcall; cases hcall
    | unwind hcall => cases hactor; rw [h] at hcall; cases hcall
    | respond hcall => cases hactor; rw [h] at hcall; cases hcall
    | fail hcall => cases hactor; rw [h] at hcall; cases hcall
    | _ => cases hactor
  · exact step.calls_of_ne hactor

theorem Runs.ended (run : Runs config isManaged start log s) {ending : Ending}
    (h : log.Has (.finish t ending)) : ∃ guard, s.calls t = some ⟨.ended ending, guard⟩ := by
  induction run with
  | refl =>
      obtain ⟨time, hmem⟩ := h
      cases hmem
  | @step log s s' time d run htime step ih =>
      rcases Log.has_concat.mp h with hbefore | hlast
      · obtain ⟨guard, hcall⟩ := ih hbefore
        exact ⟨guard, (step.calls_of_ended hcall).trans hcall⟩
      · cases hlast
        cases step with
        | respond hcall => exact ⟨_, Function.update_self ..⟩
        | fail hcall => exact ⟨_, Function.update_self ..⟩

end Interplay

end RemoteCall
