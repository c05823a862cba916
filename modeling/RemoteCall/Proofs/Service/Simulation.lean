import RemoteCall.Proofs.Service.Cancelling
import RemoteCall.Proofs.Service.Interplay

/-!
# A running service is an interplay

A running service turns to one invocation after the other and answers a cancel request before it
goes on. That is one order among those in which invocations and cancel requests may take their
steps: whatever a service comes to, there are deeds that lead to the same board, and a cancel
request comes to the same outcome there. So all that is true in every order is true of the service.

## Implementation notes

An invocation goes by the number of its request in both, and so does a cancel request. In the
service time does not pass; here a cancel request that is not reported to is answered at its
deadline.
-/

namespace RemoteCall.Host

/-- A state shows a service: the board is the same, requests that wait for a worker have not begun,
and invocations whose targets wait have come to their targets. -/
structure Shows (setup : Setup) (h : Host) (s : Interplay) : Prop where
  setup : h.setup = setup
  board : s.board = h.board
  queued : ∀ x ∈ h.queued, x.1 < h.nextTicket ∧ s.calls x.1 = none
  parked : ∀ q ∈ h.parked, ∃ call,
    s.calls q.run.ticket = some ⟨.going (.ask (.invoke call) q.next), q.run.guard⟩
  apart : (h.parked.map (·.run.ticket)).Nodup
  fresh : ∀ t, h.nextTicket ≤ t → s.calls t = none ∧ s.pursuits t = none

/-- There are deeds of invocations alone that lead to a state which shows a service. -/
def Goes (setup : Setup) (s : Interplay) (h : Host) : Prop :=
  ∃ log s', Interplay.Runs setup.config setup.isManaged s log s' ∧ Shows setup h s' ∧
    s'.pursuits = s.pursuits

variable {setup : Setup} {s s' : Interplay} {h h' : Host} {run : Running} {t : Ticket}

/-- Two services differ in nothing that a state shows. -/
structure Alike (h h' : Host) : Prop where
  setup : h'.setup = h.setup
  board : h'.board = h.board
  queued : h'.queued = h.queued
  parked : h'.parked = h.parked
  nextTicket : h'.nextTicket = h.nextTicket

theorem Shows.alike (hshows : Shows setup h s) (halike : Alike h h') : Shows setup h' s where
  setup := halike.setup.trans hshows.setup
  board := hshows.board.trans halike.board.symm
  queued := by
    rw [halike.queued, halike.nextTicket]
    exact hshows.queued
  parked := by
    rw [halike.parked]
    exact hshows.parked
  apart := by
    rw [halike.parked]
    exact hshows.apart
  fresh := by
    rw [halike.nextTicket]
    exact hshows.fresh

theorem Goes.refl (hshows : Shows setup h s) : Goes setup s h :=
  ⟨[], s, .refl, hshows, rfl⟩

theorem Goes.of_step {d : Deed} (step : Interplay.Step setup.config setup.isManaged s s.now d s')
    (hpursuits : s'.pursuits = s.pursuits) (hgoes : Goes setup s' h) : Goes setup s h := by
  obtain ⟨log, s'', hrun, hshows, hlater⟩ := hgoes
  exact ⟨_, s'', (Interplay.Runs.single (Nat.le_refl _) step).trans hrun, hshows,
    hlater.trans hpursuits⟩

theorem Goes.trans (first : Goes setup s h) (rest : ∀ s', Shows setup h s' → Goes setup s' h') :
    Goes setup s h' := by
  obtain ⟨earlier, s', hearlier, hshows, hpursuits⟩ := first
  obtain ⟨later, s'', hlater, hshows', hpursuits'⟩ := rest s' hshows
  exact ⟨earlier ++ later, s'', hearlier.trans hlater, hshows', hpursuits'.trans hpursuits⟩

/-- An invocation that has begun and does not wait comes further. -/
theorem Shows.withCall {c c' : Call} (hshows : Shows setup h s) (hcall : s.calls t = some c)
    (hapart : ∀ q ∈ h.parked, q.run.ticket ≠ t) {board : Cancel.Board Ticket}
    (halike : Alike { h with board } h') : Shows setup h' (s.withCall s.now t c' board) := by
  have hother : ∀ u, s.calls u = none → (s.withCall s.now t c' board).calls u = none := by
    intro u hnone
    refine (Function.update_of_ne ?_ _ _).trans hnone
    rintro rfl
    rw [hcall] at hnone
    cases hnone
  refine Shows.alike (h := { h with board }) ⟨hshows.setup, rfl, fun x hx => ?_, fun q hq => ?_,
    hshows.apart, fun u hu => ?_⟩ halike
  · obtain ⟨hlt, hnone⟩ := hshows.queued x hx
    exact ⟨hlt, hother x.1 hnone⟩
  · obtain ⟨call, hparked⟩ := hshows.parked q hq
    exact ⟨call, (Function.update_of_ne (hapart q hq) _ _).trans hparked⟩
  · obtain ⟨hnone, hpursuit⟩ := hshows.fresh u hu
    exact ⟨hother u hnone, hpursuit⟩

/-- A call changes nothing that a state shows. -/
theorem react_alike (h : Host) (handle : CancelHandle) (c : ResolvedCall) :
    Alike h (h.react handle c).2 := by
  obtain ⟨ledger, openGates, heq⟩ := react_eq h handle c
  rw [heq]
  exact ⟨rfl, rfl, rfl, rfl, rfl⟩

/-- An invocation whose collaborator breaks down is unwound and responded to. -/
theorem break_goes {q : Question} {next : q.Reply → Exchange} {m : Breakdown}
    (hshows : Shows setup h s)
    (hcall : s.calls run.ticket = some ⟨.going (.ask q next), run.guard⟩) (hq : q.isOwn = false)
    (hapart : ∀ q ∈ h.parked, q.run.ticket ≠ run.ticket) (r : Http.Response) :
    Goes setup s ((h.release run).2.complete run.ticket r) := by
  have hboard : (h.release run).2.board = (s.board.release run.guard).2 := by
    rw [hshows.board]
    rfl
  refine .of_step (.broke m hcall hq) rfl ?_
  have hbroke : Shows setup h (s.withCall s.now run.ticket ⟨.unwinding m, run.guard⟩ s.board) :=
    hshows.withCall hcall hapart ⟨rfl, hshows.board.symm, rfl, rfl, rfl⟩
  refine .of_step (.unwind (Function.update_self ..)) rfl ?_
  have hunwound : Shows setup (h.release run).2
      ((s.withCall s.now run.ticket ⟨.unwinding m, run.guard⟩ s.board).withCall s.now run.ticket
        ⟨.unwound m, (s.board.release run.guard).1⟩ (s.board.release run.guard).2) :=
    hbroke.withCall (Function.update_self ..) hapart ⟨rfl, hboard, rfl, rfl, rfl⟩
  refine .of_step (.fail (Function.update_self ..)) rfl (.refl ?_)
  exact hunwound.withCall (Function.update_self ..) hapart ⟨rfl, hboard, rfl, rfl, rfl⟩

/-- What is done for an invocation are deeds of it. -/
theorem advance_goes (e : Exchange) (hshows : Shows setup h s)
    (hcall : s.calls run.ticket = some ⟨.going e, run.guard⟩)
    (hapart : ∀ q ∈ h.parked, q.run.ticket ≠ run.ticket) : Goes setup s (advance e run h) := by
  induction e generalizing run h s with
  | respond r =>
      refine .of_step (.respond hcall) rfl (.refl ?_)
      exact hshows.withCall hcall hapart ⟨rfl, hshows.board.symm, rfl, rfl, rfl⟩
  | ask q next ih =>
      have hrest : ∀ (a : q.Reply) (run' : Running) (h' : Host), run'.ticket = run.ticket →
          run'.guard = (h.board.serve run.ticket run.guard q).1 →
          Alike { h with board := (h.board.serve run.ticket run.guard q).2 } h' →
          Goes setup s (advance (next a) run' h') := by
        intro a run' h' hticket hguard halike
        rw [← hshows.board] at hguard halike
        refine .of_step (.reply a hcall) rfl (ih a ?_ ?_ ?_)
        · exact hshows.withCall hcall hapart halike
        · rw [hticket, hguard]
          exact Function.update_self ..
        · rw [halike.parked, hticket]
          exact hapart
      cases q with
      | importBranch x timeout => exact hrest _ run _ rfl rfl ⟨rfl, rfl, rfl, rfl, rfl⟩
      | isHome component view => exact hrest _ run _ rfl rfl ⟨rfl, rfl, rfl, rfl, rfl⟩
      | locate locator method => exact hrest _ run _ rfl rfl ⟨rfl, rfl, rfl, rfl, rfl⟩
      | register id => exact hrest () { run with guard := _ } _ rfl rfl ⟨rfl, rfl, rfl, rfl, rfl⟩
      | acknowledge cancelled => exact hrest () run _ rfl rfl ⟨rfl, rfl, rfl, rfl, rfl⟩
      | release => exact hrest () (h.release run).1 _ rfl rfl ⟨rfl, rfl, rfl, rfl, rfl⟩
      | invoke call =>
          have hcalled : Alike h { h with calls := h.calls + 1 } := ⟨rfl, rfl, rfl, rfl, rfl⟩
          have hreacted :=
            react_alike { h with calls := h.calls + 1 } (h.board.handle run.ticket) call
          rw [advance]
          split
          · next o after hreact =>
            rw [hreact] at hreacted
            exact hrest o run after rfl rfl ⟨hreacted.setup, hreacted.board, hreacted.queued,
              hreacted.parked, hreacted.nextTicket⟩
          · next m after hreact =>
            rw [hreact] at hreacted
            refine break_goes (m := ⟨after.task run.ticket, m⟩) ((hshows.alike hcalled).alike hreacted) hcall rfl ?_ _
            rw [hreacted.parked]
            exact hapart
          · next component isStubborn after hreact =>
            rw [hreact] at hreacted
            obtain ⟨hsetup, hboard, hqueued, hparked, hapart', hfresh⟩ :=
              (hshows.alike hcalled).alike hreacted
            refine .refl ⟨hsetup, hboard, hqueued, fun q hq => ?_, ?_, hfresh⟩
            · rcases List.mem_append.mp hq with hq | hq
              · exact hparked q hq
              · obtain rfl := List.mem_singleton.mp hq
                exact ⟨call, hcall⟩
            · rw [List.map_append]
              refine List.nodup_append.mpr ⟨hapart', List.nodup_singleton _, ?_⟩
              rintro u hu v hv rfl
              obtain ⟨q, hq, rfl⟩ := List.mem_map.mp hu
              rw [hreacted.parked] at hq
              exact hapart q hq (List.mem_singleton.mp hv)

theorem startNext?_goes (hshows : Shows setup h s) (hstart : h.startNext? = some h') :
    Goes setup s h' := by
  unfold startNext? at hstart
  split at hstart
  · cases hstart
  · next t pool _ =>
    split at hstart
    · cases hstart
      exact .refl (hshows.alike ⟨rfl, rfl, rfl, rfl, rfl⟩)
    · next a hlookup =>
      obtain ⟨front, back, hsplit, -⟩ := List.lookup_eq_some_iff.mp hlookup
      have hmem : (t, a) ∈ h.queued := by
        rw [hsplit]
        exact List.mem_append_right _ List.mem_cons_self
      obtain ⟨hlt, hnone⟩ := hshows.queued (t, a) hmem
      cases hstart
      obtain rfl := hshows.setup
      have hparked : ∀ q ∈ h.parked, q.run.ticket ≠ t := by
        rintro q hq rfl
        obtain ⟨call, hcall⟩ := hshows.parked q hq
        rw [hnone] at hcall
        cases hcall
      refine .of_step (.begin a hnone) rfl (advance_goes _ ?_ (Function.update_self ..) hparked)
      refine ⟨rfl, congrArg (Cancel.Board.meet · t) hshows.board, fun x hx => ?_, fun q hq => ?_,
        hshows.apart, fun u hu => ?_⟩
      · obtain ⟨hx, hne⟩ := List.mem_filter.mp hx
        obtain ⟨hlt', hnone'⟩ := hshows.queued x hx
        exact ⟨hlt', (Function.update_of_ne (bne_iff_ne.mp hne) _ _).trans hnone'⟩
      · obtain ⟨call, hcall⟩ := hshows.parked q hq
        exact ⟨call, (Function.update_of_ne (hparked q hq) _ _).trans hcall⟩
      · obtain ⟨hnone', hpursuit⟩ := hshows.fresh u hu
        exact ⟨(Function.update_of_ne (Nat.ne_of_gt (Nat.lt_of_lt_of_le hlt hu)) _ _).trans hnone',
          hpursuit⟩

/-- A waiting target that goes on has a reply for its invocation. -/
theorem resumeFirst?_goes (hshows : Shows setup h s) {p : Parked → Bool}
    {outcome : Parked → CallOutcome} (hresume : h.resumeFirst? p outcome = some h') :
    Goes setup s h' := by
  unfold resumeFirst? at hresume
  split at hresume
  · cases hresume
  · next q hfind =>
    cases hresume
    obtain ⟨front, back, hsplit, herase⟩ := split_parked hfind
    obtain ⟨call, hcall⟩ := hshows.parked q (List.mem_of_find?_eq_some hfind)
    have hfewer : ∀ r ∈ front ++ back, r ∈ h.parked := by
      intro r hr
      rw [hsplit]
      exact List.mem_append.mpr ((List.mem_append.mp hr).imp_right (List.mem_cons_of_mem _))
    have hapart := hshows.apart
    rw [hsplit, List.map_append, List.map_cons, List.nodup_middle, List.nodup_cons,
      ← List.map_append] at hapart
    have hne : ∀ r ∈ front ++ back, r.run.ticket ≠ q.run.ticket := by
      rintro r hr heq
      exact hapart.1 (heq ▸ List.mem_map_of_mem hr)
    rw [herase]
    -- The invocation has left the waiting ones, and its target replies.
    have hleft : Shows setup { h with parked := front ++ back } s :=
      ⟨hshows.setup, hshows.board, hshows.queued, fun r hr => hshows.parked r (hfewer r hr),
        hapart.2, hshows.fresh⟩
    refine .of_step (.reply (q := .invoke call) (outcome q) hcall) rfl
      (advance_goes _ ?_ (Function.update_self ..) hne)
    exact hleft.withCall hcall hne ⟨rfl, hshows.board.symm, rfl, rfl, rfl⟩

theorem settleIn_goes (hshows : Shows setup h s) (fuel : Nat) :
    Goes setup s (settleIn fuel h) := by
  induction fuel generalizing h s with
  | zero => exact .refl hshows
  | succ fuel ih =>
      unfold settleIn
      split
      · next hresume =>
        exact (resumeFirst?_goes hshows hresume).trans fun s' hshows' => ih hshows'
      · split
        · next hstart => exact (startNext?_goes hshows hstart).trans fun s' hshows' => ih hshows'
        · exact .refl hshows

theorem openGate_goes (hshows : Shows setup h s) (component : String) :
    Goes setup s (h.openGate component) := by
  unfold openGate
  split
  · next hresume => exact resumeFirst?_goes hshows hresume
  · exact .refl (hshows.alike ⟨rfl, rfl, rfl, rfl, rfl⟩)

theorem settle_goes (hshows : Shows setup h s) : Goes setup s h.settle :=
  settleIn_goes hshows _

/-- A cancel request comes further. -/
theorem Shows.withPursuit {k : Ticket} (hshows : Shows setup h s) (hk : k < h.nextTicket)
    (time : Nat) (p : Pursuit) (board : Cancel.Board Ticket) :
    Shows setup { h with board } (s.withPursuit time k p board) := by
  refine ⟨hshows.setup, rfl, hshows.queued, hshows.parked, hshows.apart, fun u hu => ?_⟩
  obtain ⟨hnone, hpursuit⟩ := hshows.fresh u hu
  have hne : u ≠ k := Nat.ne_of_gt (Nat.lt_of_lt_of_le hk hu)
  exact ⟨hnone, (Function.update_of_ne hne _ _).trans hpursuit⟩

/-- A cancel request that finds an invocation marks it and waits. -/
theorem mark_goes {k : Ticket} {order : Cancel.Order} (hshows : Shows setup h s)
    (hpursuit : s.pursuits k = none) (hk : k < h.nextTicket)
    (hget : h.board.registry.get? order.id = some t) :
    ∃ log s', Interplay.Runs setup.config setup.isManaged s log s' ∧
      Shows setup { h with board := h.board.update t (·.cancel order.isAggressive) } s' ∧
      s'.pursuits k = some (.waiting order t (s.now + setup.config.cancelWait)) := by
  have hboard : h.board.update t (·.cancel order.isAggressive) =
      s.board.update t (·.cancel order.isAggressive) := by
    rw [hshows.board]
  rw [← hshows.board] at hget
  refine ⟨_, _, ((Interplay.Runs.single (Nat.le_refl s.now) (.seek_of order hpursuit hget)).step
    (Nat.le_refl _) (.mark (Function.update_self ..))).step
      (Nat.le_refl _) (.wait (Function.update_self ..)), ?_, Function.update_self ..⟩
  have hfound := hshows.withPursuit hk s.now (.found order t) s.board
  have hmarked := hfound.withPursuit hk s.now (.marked order t)
    (s.board.update t (·.cancel order.isAggressive))
  exact (hmarked.withPursuit hk s.now _ _).alike ⟨rfl, hboard, rfl, rfl, rfl⟩

/-- A cancel request that waits is answered by the time that is over. -/
theorem answer_goes {k : Ticket} {order : Cancel.Order} {deadline : Nat}
    (hshows : Shows setup h s) (hwaiting : s.pursuits k = some (.waiting order t deadline)) :
    ∃ log s', Interplay.Runs setup.config setup.isManaged s log s' ∧ Shows setup h s' ∧
      s'.pursuits k = some (.answered order (some t)
        (if h.board.hasReport t then .acknowledged else .unknown)) := by
  have hk : k < h.nextTicket := by
    apply Nat.lt_of_not_le
    intro hle
    have hnone := (hshows.fresh k hle).2
    rw [hwaiting] at hnone
    cases hnone
  refine ⟨_, _, .single (Nat.le_max_left s.now deadline)
    (.answer hwaiting fun _ => Nat.le_max_right ..),
    (hshows.withPursuit hk _ _ _).alike ⟨rfl, hshows.board.symm, rfl, rfl, rfl⟩, ?_⟩
  rw [← hshows.board]
  exact Function.update_self ..

/-- A service that is asked for a cancellation does what a cancel request does, with the same
outcome. -/
theorem cancel_goes (hshows : Shows setup h s) {k : Ticket} (hpursuit : s.pursuits k = none)
    (hk : k < h.nextTicket) (order : Cancel.Order) :
    ∃ log s' target, Interplay.Runs setup.config setup.isManaged s log s' ∧
      Shows setup (h.cancel order).2 s' ∧
      s'.pursuits k = some (.answered order target (h.cancel order).1) := by
  unfold cancel Cancel.Board.request
  cases hget : h.board.registry.get? order.id with
  | none =>
      rw [← hshows.board] at hget
      exact ⟨_, _, none, .single (Nat.le_refl _) (.seek_of order hpursuit hget),
        (hshows.withPursuit hk _ _ _).alike ⟨rfl, hshows.board.symm, rfl, rfl, rfl⟩,
        Function.update_self ..⟩
  | some t =>
      obtain ⟨marking, s₁, hrun, hmarked, hwaiting⟩ := mark_goes hshows hpursuit hk hget
      -- Whatever goes on before the answer, the request is answered by what the board shows then.
      have hanswered : ∀ {after : Host}, Goes setup s₁ after → ∃ log s',
          Interplay.Runs setup.config setup.isManaged s log s' ∧ Shows setup after s' ∧
            s'.pursuits k = some (.answered order (some t)
              (if after.board.hasReport t then .acknowledged else .unknown)) := by
        rintro after ⟨waiting, s₂, hlater, hshows', hpursuits⟩
        obtain ⟨answering, s', hlast, hshows'', hanswer⟩ :=
          answer_goes hshows' ((congrFun hpursuits k).trans hwaiting)
        exact ⟨_, s', (hrun.trans hlater).trans hlast, hshows'', hanswer⟩
      dsimp only
      split
      · next hreport =>
        obtain ⟨log, s', hlog, hshows', hanswer⟩ := hanswered (.refl hmarked)
        rw [if_pos hreport] at hanswer
        exact ⟨log, s', some t, hlog, hshows', hanswer⟩
      · next hreport =>
        split
        · obtain ⟨log, s', hlog, hshows', hanswer⟩ := hanswered (.refl hmarked)
          rw [if_neg hreport] at hanswer
          exact ⟨log, s', some t, hlog, hshows', hanswer⟩
        · obtain ⟨log, s', hlog, hshows', hanswer⟩ := hanswered (settle_goes hmarked)
          exact ⟨log, s', some t, hlog, hshows', hanswer⟩

/-- A request that arrives goes on in deeds. -/
theorem deliver_goes (hshows : Shows setup h s) (r : Http.Request) :
    ∃ log s', Interplay.Runs setup.config setup.isManaged s log s' ∧
      Shows setup ({ h with nextTicket := h.nextTicket + 1 }.deliver h.nextTicket r) s' := by
  obtain ⟨hnone, hpursuit⟩ := hshows.fresh h.nextTicket (Nat.le_refl _)
  have hnext : Shows setup { h with nextTicket := h.nextTicket + 1 } s := by
    refine ⟨hshows.setup, hshows.board, fun x hx => ?_, hshows.parked, hshows.apart,
      fun u hu => hshows.fresh u (Nat.le_of_succ_le hu)⟩
    obtain ⟨hlt, hcalls⟩ := hshows.queued x hx
    exact ⟨Nat.lt_succ_of_lt hlt, hcalls⟩
  unfold deliver
  split
  · exact ⟨[], s, .refl, hnext.alike ⟨rfl, rfl, rfl, rfl, rfl⟩⟩
  · split
    · exact ⟨[], s, .refl, hnext.alike ⟨rfl, rfl, rfl, rfl, rfl⟩⟩
    · next a _ =>
      refine ⟨[], s, .refl, hnext.setup, hnext.board, fun x hx => ?_, hnext.parked, hnext.apart,
        hnext.fresh⟩
      rcases List.mem_append.mp hx with hx | hx
      · exact hnext.queued x hx
      · rw [List.mem_singleton.mp hx]
        exact ⟨Nat.lt_succ_self _, hnone⟩
  · split
    · exact ⟨[], s, .refl, hnext.alike ⟨rfl, rfl, rfl, rfl, rfl⟩⟩
    · next order _ =>
      obtain ⟨log, s', target, hrun, hshows', -⟩ :=
        cancel_goes hnext hpursuit (Nat.lt_succ_self _) order
      exact ⟨log, s', hrun, hshows'.alike ⟨rfl, rfl, rfl, rfl, rfl⟩⟩
  · exact ⟨[], s, .refl, hnext.alike ⟨rfl, rfl, rfl, rfl, rfl⟩⟩

theorem Ran.shows {log : List Http.Request} (ran : Ran setup log h) :
    ∃ deeds s, Interplay.Runs setup.config setup.isManaged .start deeds s ∧ Shows setup h s := by
  have hgo : ∀ {h h' : Host}, (∃ deeds s, Interplay.Runs setup.config setup.isManaged .start
      deeds s ∧ Shows setup h s) → (∀ s, Shows setup h s → Goes setup s h') →
      ∃ deeds s, Interplay.Runs setup.config setup.isManaged .start deeds s ∧
        Shows setup h' s := by
    rintro h h' ⟨deeds, s, hrun, hshows⟩ hgoes
    obtain ⟨more, s', hmore, hshows', -⟩ := hgoes s hshows
    exact ⟨deeds ++ more, s', hrun.trans hmore, hshows'⟩
  induction ran with
  | start =>
      refine ⟨[], .start, .refl, rfl, rfl, ?_, ?_, List.nodup_nil, fun t _ => ⟨rfl, rfl⟩⟩
      · exact List.forall_mem_nil _
      · exact List.forall_mem_nil _
  | submit r ran ih =>
      refine hgo ?_ fun s hshows => settle_goes hshows
      obtain ⟨deeds, s, hrun, hshows⟩ := ih
      obtain ⟨more, s', hmore, hshows'⟩ := deliver_goes hshows r
      exact ⟨deeds ++ more, s', hrun.trans hmore, hshows'⟩
  | settle ran ih => exact hgo ih fun s hshows => settle_goes hshows
  | openGate component ran ih => exact hgo ih fun s hshows => openGate_goes hshows component
  | ledger ledger ran ih =>
      exact hgo ih fun s hshows => .refl (hshows.alike ⟨rfl, rfl, rfl, rfl, rfl⟩)

/-- Whatever a service comes to, deeds of invocations and cancel requests lead to the same board. -/
theorem Ran.interplay {log : List Http.Request} (ran : Ran setup log h) :
    ∃ deeds s, Interplay.Runs setup.config setup.isManaged .start deeds s ∧ s.board = h.board := by
  obtain ⟨deeds, s, hrun, hshows⟩ := ran.shows
  exact ⟨deeds, s, hrun, hshows.board⟩

end RemoteCall.Host
