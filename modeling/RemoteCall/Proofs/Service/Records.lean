import RemoteCall.Proofs.Service.Conduct

/-!
# What the board shows of a log

What stands in the register, what was reported of an invocation, and how far a cancel request has
come can be told from the log alone. An entry stands from its registration until another invocation
takes its place or its own guard is let go, the first report counts, and a cancel request keeps to
the invocation that it found.
-/

namespace RemoteCall

theorem Cancel.Board.knows_serve {b : Cancel.Board Ticket} {t u : Ticket} {guard : Guard Ticket}
    {q : Question} : (b.serve t guard q).2.Knows u ↔ b.Knows u := by
  cases q with
  | acknowledge cancelled => exact knows_update
  | _ => exact Iff.rfl

@[simp] theorem Pursuit.sought_ofLookup (order : Cancel.Order) (found : Option Ticket) :
    (ofLookup order found).sought = (order, found) := by
  cases found <;> rfl

@[simp] theorem Pursuit.hasMarked_ofLookup (order : Cancel.Order) (found : Option Ticket) :
    (ofLookup order found).hasMarked = false := by
  cases found <;> rfl

@[simp] theorem Pursuit.hasWaited_ofLookup (order : Cancel.Order) (found : Option Ticket) :
    (ofLookup order found).hasWaited = false := by
  cases found <;> rfl

theorem Pursuit.ofLookup_ne_waiting (order order' : Cancel.Order) (found : Option Ticket)
    (t : Ticket) (deadline : Nat) : ofLookup order found ≠ waiting order' t deadline := by
  cases found <;> nofun

/-- A cancel request that has found an invocation and not marked it is about to mark it. -/
theorem Pursuit.eq_found {p : Pursuit} {order : Cancel.Order} {t : Ticket}
    (hsought : p.sought = (order, some t)) (hmarked : p.hasMarked ≠ true) : p = found order t := by
  cases p with
  | found order' u =>
      cases hsought
      rfl
  | answered order' target outcome =>
      cases hsought
      exact absurd rfl hmarked
  | _ => exact absurd rfl hmarked

namespace Deed

/-- A deed leaves alone what an invocation has under an identifier. -/
def Spares (id : InvocationId) (t : Ticket) (d : Deed) : Prop :=
  (∀ u, d.added? ≠ some (id, u)) ∧ d.released? ≠ some t

theorem released?_of_added? {d : Deed} {x : InvocationId × Ticket} (h : d.added? = some x) :
    d.released? = none := by
  unfold added? at h
  split at h
  · rfl
  · cases h

end Deed

namespace Log

/-- An invocation comes to its target while a cancel request comes to wait for it. -/
def awaited (a : Accepted) (order : Cancel.Order) : Log :=
  [(0, .begin 0 a),
    (0, .ask 0 ⟨.isHome a.address.component a.address.view, .reply false⟩),
    (0, .ask 0 ⟨.locate (Dispatch.locator a false) a.address.method, .reply (.ok ())⟩),
    (0, .ask 0 ⟨.register order.id, .reply ()⟩),
    (0, .seek 1 order (some 0)), (0, .mark 1), (0, .wait 1)]

/-- An invocation was the last one to be registered under an identifier, and since then its guard
was not let go. -/
def Stands (log : Log) (id : InvocationId) (t : Ticket) : Prop :=
  Since (·.2.added? = some (id, t)) (·.2.Spares id t) log

variable {log : Log} {id : InvocationId} {t : Ticket}

theorem stands_concat {x : Nat × Deed} :
    Stands (log ++ [x]) id t ↔
      x.2.added? = some (id, t) ∨ log.Stands id t ∧ x.2.Spares id t :=
  since_concat

/-- The guard of what stands holds it. -/
theorem Stands.holds (h : log.Stands id t) : log.Holds t id := by
  obtain ⟨earlier, x, later, hlog, hstart, hlater⟩ := h
  exact ⟨earlier, x, later, hlog, hstart, fun y hy => (hlater y hy).2⟩

end Log

namespace Interplay

variable {config : ServiceConfig} {isManaged : Bool} {s s' : Interplay} {log : Log} {time : Nat}
  {d : Deed} {t k : Ticket} {c : Call} {id : InvocationId}

theorem eq_of_withPursuit {p p' : Pursuit} {board : Cancel.Board Ticket}
    (h : (s.withPursuit time k p' board).pursuits k = some p) : p' = p := by
  simpa using h

/-- What is registered after a step was registered by it, or before it and left alone. -/
theorem Step.get?_eq_some_iff (step : Step config isManaged s time d s') :
    s'.board.registry.get? id = some t ↔
      (d.added? = some (id, t) ∨
        (∀ u, d.added? ≠ some (id, u)) ∧ s.board.registry.get? id = some t) ∧
      ∀ u, d.released? = some u → s.held? u ≠ some (id, t) := by
  have hquiet : ∀ {d : Deed} {board : Cancel.Board Ticket}, d.added? = none →
      d.released? = none → board.registry = s.board.registry →
      (board.registry.get? id = some t ↔
        (d.added? = some (id, t) ∨
          (∀ u, d.added? ≠ some (id, u)) ∧ s.board.registry.get? id = some t) ∧
        ∀ u, d.released? = some u → s.held? u ≠ some (id, t)) := by
    intro d board hentry hreleased hboard
    simp [hentry, hreleased, hboard]
  have hreleased : ∀ {d : Deed} {u : Ticket} {p : Progress} {guard : Guard Ticket},
      d.added? = none → d.released? = some u → s.calls u = some ⟨p, guard⟩ →
      ((s.board.release guard).2.registry.get? id = some t ↔
        (d.added? = some (id, t) ∨
          (∀ u, d.added? ≠ some (id, u)) ∧ s.board.registry.get? id = some t) ∧
        ∀ u, d.released? = some u → s.held? u ≠ some (id, t)) := by
    intro d u p guard hentry hreleased hcall
    simp [Cancel.Board.release, Registry.get?_letGo_eq_some_iff, held?, hentry, hreleased, hcall]
  cases step with
  | begin a hnone => exact hquiet rfl rfl (Cancel.Board.registry_meet ..)
  | @reply u q next guard reply hcall =>
      cases q with
      | register id' =>
          change (s.board.registry.register id' u).get? id = some t ↔ _
          rw [Registry.get?_register]
          by_cases hid : id = id'
          · simp [Deed.added?, Deed.released?, hid]
          · simp [Deed.added?, Deed.released?, hid, Ne.symm hid]
      | release => exact hreleased rfl rfl hcall
      | _ => exact hquiet rfl rfl rfl
  | @broke u q next guard m hcall hq => cases q <;> cases hq <;> exact hquiet rfl rfl rfl
  | unwind hcall => exact hreleased rfl rfl hcall
  | respond hcall => exact hquiet rfl rfl rfl
  | fail hcall => exact hquiet rfl rfl rfl
  | report cancelled hcall => exact hquiet rfl rfl rfl
  | seek order hnone => exact hquiet rfl rfl rfl
  | mark hfound => exact hquiet rfl rfl rfl
  | wait hmarked => exact hquiet rfl rfl rfl
  | answer hwaiting hlate => exact hquiet rfl rfl rfl

/-- The register holds what stands. -/
theorem Runs.get?_eq_some_iff (run : Runs config isManaged start log s) :
    s.board.registry.get? id = some t ↔ log.Stands id t := by
  induction run with
  | refl => exact iff_of_false nofun not_since_nil
  | @step log s s' time d run htime step ih =>
      rw [step.get?_eq_some_iff, ih, Log.stands_concat]
      simp only [Ne, run.held?_eq_some_iff]
      constructor
      · rintro ⟨hentry | ⟨hnone, hstands⟩, hreleased⟩
        · exact .inl hentry
        · exact .inr ⟨hstands, hnone, fun hdone => hreleased t hdone ⟨rfl, hstands.holds⟩⟩
      · rintro (hentry | ⟨hstands, hnone, hspared⟩)
        · refine ⟨.inl hentry, fun u hdone => ?_⟩
          rw [Deed.released?_of_added? hentry] at hdone
          cases hdone
        · exact ⟨.inr ⟨hnone, hstands⟩, fun u hdone hheld => hspared (hheld.1 ▸ hdone)⟩

/-- Whatever has been registered has begun. -/
theorem Runs.calls_isSome_of_stands (run : Runs config isManaged start log s)
    (h : log.Stands id t) : ∃ c, s.calls t = some c := by
  obtain ⟨x, hx, hentry⟩ := mem_of_since h
  cases hcall : s.calls t with
  | none => exact absurd (Deed.actor?_of_added? hentry) (run.absent hcall x hx)
  | some c => exact ⟨c, rfl⟩

/-- What is known to the board stays known. -/
theorem Step.knows (step : Step config isManaged s time d s') (h : s.board.Knows t) :
    s'.board.Knows t := by
  cases step with
  | begin a hnone => exact h.meet _
  | reply a hcall => exact Cancel.Board.knows_serve.mpr h
  | report cancelled hcall => exact Cancel.Board.knows_update.mpr h
  | mark hfound => exact Cancel.Board.knows_update.mpr h
  | _ => exact h

/-- Whoever begins is known to the board. -/
theorem Step.knows_of_begun (step : Step config isManaged s time d s') (hbefore : s.calls t = none)
    (h : s'.calls t = some c) : s'.board.Knows t := by
  by_cases hactor : d.actor? = some t
  · cases step with
    | begin a hnone => cases hactor; exact Cancel.Board.knows_meet s.board t
    | report cancelled hcall => cases hactor; rw [hbefore] at hcall; cases hcall
    | reply a hcall => cases hactor; rw [hbefore] at hcall; cases hcall
    | broke m hcall hq => cases hactor; rw [hbefore] at hcall; cases hcall
    | unwind hcall => cases hactor; rw [hbefore] at hcall; cases hcall
    | respond hcall => cases hactor; rw [hbefore] at hcall; cases hcall
    | fail hcall => cases hactor; rw [hbefore] at hcall; cases hcall
    | _ => cases hactor
  · rw [step.calls_of_ne hactor, hbefore] at h
    cases h

theorem Runs.knows (run : Runs config isManaged start log s) (h : s.calls t = some c) :
    s.board.Knows t := by
  induction run generalizing c with
  | refl => cases h
  | @step log s s' time d run htime step ih =>
      cases hbefore : s.calls t with
      | none => exact step.knows_of_begun hbefore h
      | some c => exact step.knows (ih hbefore)

/-- A step adds what it reports. -/
theorem Step.acknowledged (step : Step config isManaged s time d s')
    (hknown : ∀ u c, s.calls u = some c → s.board.Knows u) :
    (s'.board.handle t).acknowledged = (s.board.handle t).acknowledged.or (d.report? t) := by
  cases step with
  | begin a hnone =>
      rw [withCall_board, Cancel.Board.handle_meet]
      exact Option.or_none.symm
  | @reply u q next guard reply hcall =>
      cases q with
      | acknowledge cancelled =>
          exact Cancel.Board.acknowledged_acknowledge (hknown u _ hcall) cancelled t
      | _ => exact Option.or_none.symm
  | @broke u q next guard m hcall hq => cases q <;> cases hq <;> exact Option.or_none.symm
  | report cancelled hcall =>
      exact Cancel.Board.acknowledged_acknowledge (hknown _ _ hcall) cancelled t
  | mark hfound =>
      refine Eq.trans (Cancel.Board.read_update CancelHandle.acknowledged ?_ t) Option.or_none.symm
      exact fun _ => rfl
  | _ => exact Option.or_none.symm

/-- The first report counts. -/
theorem Runs.acknowledged (run : Runs config isManaged start log s) :
    (s.board.handle t).acknowledged = (log.reports t).head? := by
  induction run with
  | refl => rfl
  | @step log s s' time d run htime step ih =>
      rw [step.acknowledged fun u c => run.knows, ih, Log.reports_concat, List.head?_append]
      cases d.report? t <;> rfl

/-- Whoever has done something has been heard of. -/
theorem Step.pursuits_isSome (step : Step config isManaged s time d s') {k : Ticket}
    (h : d.pursuer? = some k) : ∃ p, s'.pursuits k = some p := by
  cases step with
  | seek order hnone => cases h; exact ⟨_, Function.update_self ..⟩
  | mark hfound => cases h; exact ⟨_, Function.update_self ..⟩
  | wait hmarked => cases h; exact ⟨_, Function.update_self ..⟩
  | answer hwaiting hlate => cases h; exact ⟨_, Function.update_self ..⟩
  | _ => cases h

/-- A cancel request that is not there has done nothing. -/
theorem Runs.unsought (run : Runs config isManaged start log s) {k : Ticket}
    (h : s.pursuits k = none) {d : Deed} (hk : d.pursuer? = some k) : ¬ log.Has d := by
  induction run with
  | refl =>
      rintro ⟨time, hmem⟩
      cases hmem
  | @step log s s' time last run htime step ih =>
      have hlast : last.pursuer? ≠ some k := by
        intro hlast
        obtain ⟨p, hp⟩ := step.pursuits_isSome hlast
        rw [h] at hp
        cases hp
      rw [step.pursuits_of_ne hlast] at h
      rw [Log.has_concat]
      rintro (hhas | rfl)
      · exact ih h hhas
      · exact hlast hk

theorem Runs.exists_pursuit (run : Runs config isManaged start log s) {k : Ticket} {d : Deed}
    (h : log.Has d) (hk : d.pursuer? = some k) : ∃ p, s.pursuits k = some p := by
  cases hp : s.pursuits k with
  | none => exact absurd h (run.unsought hp hk)
  | some p => exact ⟨p, rfl⟩

/-- What a log tells of a cancel request in the state that it has led to. -/
structure Told (config : ServiceConfig) (log : Log) (k : Ticket) (p : Pursuit) : Prop where
  sought : ∀ order found, log.Has (.seek k order found) ↔ p.sought = (order, found)
  marked : log.Has (.mark k) ↔ p.hasMarked = true
  waited : log.Has (.wait k) ↔ p.hasWaited = true
  deadline : ∀ order t deadline, p = .waiting order t deadline →
    ∀ since, (since, .wait k) ∈ log → deadline = since + config.cancelWait

/-- What does not concern a cancel request tells nothing new of it. -/
theorem Told.concat {p : Pursuit} (h : Told config log k p) (time : Nat)
    (hd : d.pursuer? ≠ some k) : Told config (log ++ [(time, d)]) k p := by
  have hne : ∀ {d' : Deed}, d'.pursuer? = some k → d ≠ d' := by
    rintro d' hd' rfl
    exact hd hd'
  obtain ⟨hsought, hmarked, hwaited, hdeadline⟩ := h
  refine ⟨fun order found => ?_, ?_, ?_, fun order t deadline hp since hsince => ?_⟩
  · exact (Log.has_concat_of_ne (hne rfl)).trans (hsought order found)
  · exact (Log.has_concat_of_ne (hne rfl)).trans hmarked
  · exact (Log.has_concat_of_ne (hne rfl)).trans hwaited
  · rcases List.mem_append.mp hsince with hsince | hsince
    · exact hdeadline order t deadline hp since hsince
    · exact absurd (congrArg Prod.snd (List.mem_singleton.mp hsince)).symm (hne rfl)

theorem Runs.told (run : Runs config isManaged start log s) {p : Pursuit}
    (h : s.pursuits k = some p) : Told config log k p := by
  induction run generalizing p with
  | refl => cases h
  | @step log s s' time d run htime step ih =>
      by_cases hpursuer : d.pursuer? = some k
      · cases step with
        | seek order hnone =>
            cases hpursuer
            obtain rfl := eq_of_withPursuit h
            refine ⟨fun order' found' => ?_, ?_, ?_, ?_⟩
            · rw [Log.has_concat, or_iff_right (run.unsought hnone rfl), Pursuit.sought_ofLookup]
              simp
            · rw [Pursuit.hasMarked_ofLookup]
              refine (Log.has_concat_of_ne (by nofun)).trans ?_
              exact iff_of_false (run.unsought hnone rfl) Bool.false_ne_true
            · rw [Pursuit.hasWaited_ofLookup]
              refine (Log.has_concat_of_ne (by nofun)).trans ?_
              exact iff_of_false (run.unsought hnone rfl) Bool.false_ne_true
            · intro order' t deadline hwaiting
              exact absurd hwaiting (Pursuit.ofLookup_ne_waiting _ _ _ _ _)
        | mark hfound =>
            cases hpursuer
            obtain rfl := eq_of_withPursuit h
            obtain ⟨hsought, -, hwaited, -⟩ := ih hfound
            refine ⟨fun order found => ?_, ?_, ?_, nofun⟩
            · exact (Log.has_concat_of_ne (by nofun)).trans (hsought order found)
            · exact iff_of_true (Log.has_concat.mpr (.inr rfl)) rfl
            · exact (Log.has_concat_of_ne (by nofun)).trans hwaited
        | wait hmark =>
            cases hpursuer
            obtain rfl := eq_of_withPursuit h
            obtain ⟨hsought, hmarked, hwaited, -⟩ := ih hmark
            refine ⟨fun order found => ?_, ?_, ?_, ?_⟩
            · exact (Log.has_concat_of_ne (by nofun)).trans (hsought order found)
            · exact (Log.has_concat_of_ne (by nofun)).trans hmarked
            · exact iff_of_true (Log.has_concat.mpr (.inr rfl)) rfl
            · rintro _ _ _ ⟨⟩ since hsince
              rcases List.mem_append.mp hsince with hsince | hsince
              · exact absurd (hwaited.mp ⟨since, hsince⟩) Bool.false_ne_true
              · cases List.mem_singleton.mp hsince
                rfl
        | answer hwaiting hlate =>
            cases hpursuer
            obtain rfl := eq_of_withPursuit h
            obtain ⟨hsought, hmarked, hwaited, -⟩ := ih hwaiting
            refine ⟨fun order found => ?_, ?_, ?_, nofun⟩
            · exact (Log.has_concat_of_ne (by nofun)).trans (hsought order found)
            · exact (Log.has_concat_of_ne (by nofun)).trans hmarked
            · exact (Log.has_concat_of_ne (by nofun)).trans hwaited
        | _ => cases hpursuer
      · rw [step.pursuits_of_ne hpursuer] at h
        exact (ih h).concat time hpursuer

/-- What a cancel request finds is what stands when it looks. -/
theorem Step.seek_iff (run : Runs config isManaged start log s) {order : Cancel.Order}
    {found : Option Ticket} (step : Step config isManaged s time (.seek k order found) s') :
    found = some t ↔ log.Stands order.id t := by
  cases step with
  | seek order hnone => exact run.get?_eq_some_iff

theorem Step.unsought {order : Cancel.Order} {found : Option Ticket}
    (step : Step config isManaged s time (.seek k order found) s') : s.pursuits k = none := by
  cases step with
  | seek order hnone => exact hnone

/-- Whatever was found had been registered. -/
theorem Runs.registered_of_found (run : Runs config isManaged start log s) {order : Cancel.Order}
    (h : log.Has (.seek k order (some t))) : Reached .register (log.events t) := by
  obtain ⟨time, hmem⟩ := h
  obtain ⟨before, after, rfl⟩ := List.append_of_mem hmem
  obtain ⟨s₁, s₂, hbefore, -, hstep, -⟩ := run.split
  have hstands := (Step.seek_iff hbefore hstep).mp rfl
  obtain ⟨event, hevent, hregister⟩ := hstands.holds.exists_event
  refine ⟨event, ?_, congrArg Question.stage hregister⟩
  rw [Log.events, List.filterMap_append]
  exact List.mem_append_left _ hevent

theorem Runs.knows_found (run : Runs config isManaged start log s) {order : Cancel.Order}
    (h : log.Has (.seek k order (some t))) : s.board.Knows t := by
  obtain ⟨event, hevent, -⟩ := run.registered_of_found h
  cases hcall : s.calls t with
  | none =>
      rw [run.events_of_absent hcall] at hevent
      cases hevent
  | some c => exact run.knows hcall

/-- A cancel request is answered with the first report, or for want of one when its time is
over. -/
theorem Runs.answered (run : Runs config isManaged start log s) {seen : Option Bool}
    (step : Step config isManaged s time (.answer k seen) s') :
    ∃ order t, log.Has (.seek k order (some t)) ∧ log.Has (.wait k) ∧
      seen = (log.reports t).head? ∧
      (seen = none → ∀ since, (since, .wait k) ∈ log → since + config.cancelWait ≤ time) := by
  cases step with
  | @answer k order t deadline hwaiting hlate =>
      obtain ⟨hsought, -, hwaited, hdeadline⟩ := run.told hwaiting
      refine ⟨order, t, (hsought order (some t)).mpr rfl, hwaited.mpr rfl, run.acknowledged, ?_⟩
      intro hnone since hsince
      rw [← hdeadline order t deadline rfl since hsince]
      exact hlate hnone

/-- A cancel request looks for an invocation once. -/
theorem Runs.sought_once (run : Runs config isManaged start log s) {order order' : Cancel.Order}
    {found found' : Option Ticket} (h : log.Has (.seek k order found))
    (h' : log.Has (.seek k order' found')) : (order, found) = (order', found') := by
  obtain ⟨p, hp⟩ := run.exists_pursuit h rfl
  have hsought := (run.told hp).sought
  exact ((hsought order found).mp h).symm.trans ((hsought order' found').mp h')

/-- An invocation that is accepted under an identifier can be found and awaited before its target is
called. -/
theorem exists_awaited {a : Accepted} {request : Invocation.Request} {d : Dialect}
    (hstart : (Dispatch.start config isManaged a).2 = Dispatch.reach d a request none)
    {order : Cancel.Order} (hid : a.identifier = some order.id) :
    ∃ s call, Runs config isManaged start (.awaited a order) s ∧ s.now = 0 ∧
      s.calls 0 = some ⟨.going (.ask (.invoke call)
        (Dispatch.conclude d true call.attachments)), ⟨some (order.id, 0)⟩⟩ ∧
      s.pursuits 1 = some (.waiting order 0 config.cancelWait) := by
  let call := Dispatch.resolved a request (Dispatch.locator a false) none
  have hperform : Dispatch.perform d call = .ask (.register order.id) fun _ =>
      .ask (.invoke call) (Dispatch.conclude d true call.attachments) := by
    have hcall : call.identifier = some order.id := hid
    simp only [Dispatch.perform, hcall]
  have hle := Nat.le_refl 0
  have hbegun : Runs config isManaged start [(0, .begin 0 a)]
      (start.withCall 0 0 ⟨.going (Dispatch.reach d a request none), ⟨none⟩⟩ (start.board.meet 0)) :=
    hstart ▸ .single hle (.begin a rfl)
  have hasked := hbegun.step hle
    (.reply (t := 0) (q := .isHome a.address.component a.address.view) false rfl)
  have hlocated := hasked.step hle
    (.reply (t := 0) (q := .locate (Dispatch.locator a false) a.address.method) (.ok ()) rfl)
  have hregistered := hlocated.step hle (.reply (t := 0) (q := .register order.id) ()
    (congrArg (fun e => some (Call.mk (.going e) ⟨none⟩)) hperform))
  have hfound := hregistered.step hle
    (.seek_of (k := 1) order rfl
      ((Registry.get?_register _ order.id order.id 0).trans (if_pos rfl)))
  have hmarked := hfound.step hle
    (.mark (k := 1) (show _ = some (Pursuit.found order 0) from rfl))
  have hwaiting := hmarked.step hle
    (.wait (k := 1) (show _ = some (Pursuit.marked order 0) from rfl))
  exact ⟨_, call, hwaiting, rfl, rfl,
    congrArg (fun deadline => some (Pursuit.waiting order 0 deadline)) (Nat.zero_add _)⟩

/-- A request to call a method without parameters. -/
def clearing : Accepted where
  address := {
    component := ⟨"shop", "orders", "", "Cart"⟩
    session := none
    view := "CartHome"
    method := ⟨"clear", []⟩ }
  peer := .v1
  identifier := some ⟨"7", "node1"⟩
  affinity := some "node1"
  body := [0x00, 0x00]

/-- An order to stop that call though it is running. -/
def stopClearing : Cancel.Order :=
  ⟨⟨"7", "node1"⟩, true⟩

theorem clearing_awaited :
    ∃ s call, Runs .standard false start (.awaited clearing stopClearing) s ∧ s.now = 0 ∧
      s.calls 0 = some ⟨.going (.ask (.invoke call) (Dispatch.conclude
        (ServiceConfig.standard.dialect .v1) true call.attachments)), ⟨some (stopClearing.id, 0)⟩⟩ ∧
      s.pursuits 1 = some (.waiting stopClearing 0 5000) :=
  exists_awaited (show _ = Dispatch.reach _ clearing ⟨none, [], .empty⟩ none from rfl) rfl

end Interplay

end RemoteCall
