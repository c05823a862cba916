import RemoteCall.Proofs.Http.Routes
import RemoteCall.Proofs.Service.Progress

/-!
# What a request does to a running service

A request to cancel marks the one handle that is registered under the identifier that it names, as
strongly as it says, and nobody else's. It is answered by the time that the service comes to rest,
and it is told that nothing was found only where nothing was registered. All that has been said of
a service between requests is still true after any of them.
-/

namespace RemoteCall

namespace Http.Router

theorem headers_of_select {α : Type} {router : Router α} {r r' : Request} {handler : α}
    (h : router.select r = .ok (handler, r')) : r'.headers = r.headers := by
  unfold select at h
  split at h
  · cases h
  · split at h
    · cases h
      rfl
    · cases h

end Http.Router

namespace Host

variable {log : List Http.Request} {h h' : Host}

theorem Keeps.append (k : Keeps log h) (more : List Http.Request) : Keeps (log ++ more) h where
  responses x hx := by
    rw [List.length_append]
    exact Nat.lt_add_right _ (k.responses x hx)
  queued x hx := carried?_append (k.queued x hx) more
  parked q hq := by
    obtain ⟨hknown, identifier, hcarried, hnext⟩ := k.parked q hq
    exact ⟨hknown, identifier, carried?_append hcarried more, hnext⟩
  registered id t hget := by
    obtain ⟨hknown, hcarried⟩ := k.registered id t hget
    exact ⟨hknown, carried?_append hcarried more⟩

/-- What comes of the search for an invocation to cancel, if there was an order at all: nothing is
found only where nothing is registered, what is found is marked, and nothing else is. -/
structure Cancelled (h : Host) (sought : Option Cancel.Order) (outcome : Cancel.Outcome)
    (h' : Host) : Prop where
  notFound_iff : outcome = .notFound ↔ ∀ order ∈ sought, h.board.registry.get? order.id = none
  marked : ∀ order ∈ sought, ∀ t, h.board.registry.get? order.id = some t →
    h'.board.requested t = (h.board.requested t).max (.ofRequest order.isAggressive)
  spared : ∀ t, (∀ order ∈ sought, h.board.registry.get? order.id ≠ some t) →
    h'.board.requested t = h.board.requested t

/-- A registered invocation is found, and it alone is marked. -/
theorem Cancelled.of_registered {order : Cancel.Order} {outcome : Cancel.Outcome} {t : Ticket}
    (hcancelled : Cancelled h (some order) outcome h')
    (hget : h.board.registry.get? order.id = some t) :
    outcome ≠ .notFound ∧ ∀ u, h'.board.requested u =
      if u = t then (h.board.requested t).max (.ofRequest order.isAggressive)
      else h.board.requested u := by
  refine ⟨fun hnone => ?_, fun u => ?_⟩
  · have hgone := hcancelled.notFound_iff.mp hnone order rfl
    rw [hget] at hgone
    cases hgone
  · split
    · next hu =>
      subst hu
      exact hcancelled.marked order rfl u hget
    · next hu =>
      refine hcancelled.spared u ?_
      rintro _ ⟨⟩ hother
      exact hu (Option.some.inj (hother.symm.trans hget))

theorem keeps_mark (k : Keeps log h) (t : Ticket) (f : CancelHandle → CancelHandle) :
    Keeps log { h with board := h.board.update t f } where
  responses := k.responses
  queued := k.queued
  parked q hq := by
    obtain ⟨hknown, hcarried⟩ := k.parked q hq
    exact ⟨Cancel.Board.knows_update.mpr hknown, hcarried⟩
  registered id u hget := by
    obtain ⟨hknown, hcarried⟩ := k.registered id u hget
    exact ⟨Cancel.Board.knows_update.mpr hknown, hcarried⟩

/-- A request to cancel finds nothing, or marks what it finds before all else goes on. -/
theorem cancel_cases (k : Keeps log h) (order : Cancel.Order) :
    h.board.registry.get? order.id = none ∧ h.cancel order = (.notFound, h) ∨
    ∃ t, h.board.registry.get? order.id = some t ∧ (h.cancel order).1 ≠ .notFound ∧
      Leads log { h with board := h.board.update t (·.cancel order.isAggressive) }
        (h.cancel order).2 := by
  unfold cancel Cancel.Board.request
  cases hget : h.board.registry.get? order.id with
  | none => exact .inl ⟨rfl, rfl⟩
  | some t =>
      refine .inr ⟨t, rfl, ?_⟩
      dsimp only
      split
      · exact ⟨Cancel.Outcome.noConfusion, .refl _⟩
      · split
        · exact ⟨Cancel.Outcome.noConfusion, .refl _⟩
        · refine ⟨?_, settle_leads (keeps_mark k t _)⟩
          split
          · exact Cancel.Outcome.noConfusion
          · exact Cancel.Outcome.noConfusion

theorem cancel_keeps (k : Keeps log h) (order : Cancel.Order) :
    Keeps log (h.cancel order).2 ∧ (h.cancel order).2.nextTicket = h.nextTicket ∧
      (h.cancel order).2.setup = h.setup := by
  rcases cancel_cases k order with ⟨-, hnone⟩ | ⟨t, -, -, hleads⟩
  · rw [hnone]
    exact ⟨k, rfl, rfl⟩
  · exact ⟨hleads.keeps (keeps_mark k t _), hleads.nextTicket, hleads.setup⟩

theorem cancel_cancelled (k : Keeps log h) (order : Cancel.Order) :
    Cancelled h (some order) (h.cancel order).1 (h.cancel order).2 := by
  rcases cancel_cases k order with ⟨hget, hnone⟩ | ⟨t, hget, hfound, hleads⟩
  · rw [hnone]
    refine ⟨iff_of_true rfl ?_, ?_, fun _ _ => rfl⟩
    · rintro _ ⟨⟩
      exact hget
    · rintro _ ⟨⟩ t ht
      rw [hget] at ht
      cases ht
  · refine ⟨iff_of_false hfound fun hall => ?_, ?_, fun u hu => ?_⟩
    · have hgone := hall order rfl
      rw [hget] at hgone
      cases hgone
    · rintro _ ⟨⟩ u hu
      obtain rfl := Option.some.inj (hu.symm.trans hget)
      rw [hleads.requested, Cancel.Board.requested,
        Cancel.Board.handle_update_self (k.registered order.id u hget).1]
      rfl
    · have hne : u ≠ t := by
        rintro rfl
        exact hu order rfl hget
      rw [hleads.requested, Cancel.Board.requested, Cancel.Board.handle_update_of_ne _ _ hne]
      rfl

/-- A request keeps what a service keeps to. -/
theorem deliver_keeps (k : Keeps log h) (r : Http.Request) :
    Keeps (log ++ [r]) (h.deliver log.length r) ∧
      (h.deliver log.length r).nextTicket = h.nextTicket ∧
      (h.deliver log.length r).setup = h.setup := by
  have hlast : log.length < (log ++ [r]).length := by simp
  have hresponded : ∀ {before : Host} (response : Http.Response), Keeps (log ++ [r]) before →
      Keeps (log ++ [r])
        { before with responses := before.responses ++ [(log.length, response)] } :=
    fun response hbefore => (leads_respond hlast response).keeps hbefore
  unfold deliver
  split
  · exact ⟨hresponded _ (k.append [r]), rfl, rfl⟩
  · next r' hselect =>
    split
    · exact ⟨hresponded _ (k.append [r]), rfl, rfl⟩
    · next a haccept =>
      obtain ⟨-, -, address, -, rfl⟩ := Dispatch.accept_eq_ok_iff.mp haccept
      obtain ⟨hresponses, hqueued, hparked, hregistered⟩ := k.append [r]
      refine ⟨⟨hresponses, fun x hx => ?_, hparked, hregistered⟩, rfl, rfl⟩
      rcases List.mem_append.mp hx with hx | hx
      · exact hqueued x hx
      · obtain rfl := List.mem_singleton.mp hx
        simp only [carried?, List.getElem?_concat_length, Option.map_some,
          Http.Router.headers_of_select hselect]
  · next r' hselect =>
    split
    · exact ⟨hresponded _ (k.append [r]), rfl, rfl⟩
    · next order _ =>
      obtain ⟨hkeeps, hticket, hsetup⟩ := cancel_keeps k order
      exact ⟨hresponded _ (hkeeps.append [r]), hticket, hsetup⟩
  · next r' _ =>
    generalize BranchEndpoint.serve h.setup.config _ r' h.ledger = served
    obtain ⟨response, ledger⟩ := served
    have haside : Keeps log { h with ledger } :=
      (leads_aside h ledger h.pool h.openGates h.calls h.asked).keeps k
    exact ⟨hresponded response (haside.append [r]), rfl, rfl⟩

/-- A service that has been asked the requests of a log, one after the other, with whatever else
may happen to it. -/
inductive Ran (setup : Setup) : List Http.Request → Host → Prop
  | start (task : Ticket → Nat) : Ran setup [] (startWith setup task)
  | submit {log : List Http.Request} {h : Host} (r : Http.Request) (ran : Ran setup log h) :
      Ran setup (log ++ [r]) (h.submit r).2
  | settle {log : List Http.Request} {h : Host} (ran : Ran setup log h) : Ran setup log h.settle
  | openGate {log : List Http.Request} {h : Host} (component : String) (ran : Ran setup log h) :
      Ran setup log (h.openGate component)
  | ledger {log : List Http.Request} {h : Host} (ledger : Ledger) (ran : Ran setup log h) :
      Ran setup log { h with ledger }

variable {setup : Setup}

/-- A service numbers its requests by their places in the log. -/
theorem Ran.keeps (ran : Ran setup log h) : Keeps log h ∧ h.nextTicket = log.length := by
  induction ran with
  | start =>
      refine ⟨⟨?_, ?_, ?_, ?_⟩, rfl⟩
      · exact List.forall_mem_nil _
      · exact List.forall_mem_nil _
      · exact List.forall_mem_nil _
      · rintro id t ⟨⟩
  | @submit log h r _ ih =>
      obtain ⟨k, hnumbered⟩ := ih
      have hnext : Keeps log { h with nextTicket := h.nextTicket + 1 } :=
        ⟨k.responses, k.queued, k.parked, k.registered⟩
      obtain ⟨hdelivered, hticket, -⟩ := deliver_keeps hnext r
      rw [← hnumbered] at hdelivered hticket
      have hsettled := settle_leads hdelivered
      refine ⟨hsettled.keeps hdelivered, hsettled.nextTicket.trans (hticket.trans ?_)⟩
      simp [hnumbered]
  | settle _ ih => exact ⟨(settle_leads ih.1).keeps ih.1, (settle_leads ih.1).nextTicket.trans ih.2⟩
  | openGate component _ ih =>
      exact ⟨(openGate_leads ih.1 component).keeps ih.1,
        (openGate_leads ih.1 component).nextTicket.trans ih.2⟩
  | ledger ledger _ ih => exact ⟨⟨ih.1.responses, ih.1.queued, ih.1.parked, ih.1.registered⟩, ih.2⟩

/-- A request of a log that was registered is registered under the identifier that it carried. -/
theorem Ran.registered (ran : Ran setup log h) {r : Http.Request} {t : Ticket}
    {key : InvocationId} (hlogged : log[t]? = some r)
    (hget : h.board.registry.get? key = some t) : InvocationId.ofHeaders? r.headers = some key := by
  have hcarried := (ran.keeps.1.registered key t hget).2
  rw [carried?, hlogged] at hcarried
  exact Option.some.inj hcarried

/-- A request to cancel that reaches the service is carried out and answered. -/
theorem submit_cancel (ran : Ran setup log h) {r r' : Http.Request}
    (hselect : routes.select r = .ok (.cancellations, r')) {sought : Option Cancel.Order}
    (hread : Cancel.Order.ofRequest r' = sought.elim (.error .notFound) .ok) :
    ∃ outcome, Cancelled h sought outcome (h.submit r).2 ∧
      (h.submit r).2.responses.lookup (h.submit r).1 = some (.bare outcome.status) := by
  obtain ⟨k, hnumbered⟩ := ran.keeps
  let asked : Host := { h with nextTicket := h.nextTicket + 1 }
  have hasked : Keeps log asked := ⟨k.responses, k.queued, k.parked, k.registered⟩
  -- What is done for the request before it is answered and all else goes on.
  have hdone : ∃ outcome after, Keeps log after ∧ Cancelled h sought outcome after ∧
      asked.deliver log.length r =
        { after with responses := after.responses ++ [(log.length, .bare outcome.status)] } := by
    cases sought with
    | none =>
        refine ⟨.notFound, asked, hasked, ⟨iff_of_true rfl ?_, ?_, fun _ _ => rfl⟩, ?_⟩
        · exact fun _ hmem => nomatch hmem
        · exact fun _ hmem => nomatch hmem
        · simp only [deliver, hselect, hread, Option.elim]
          rfl
    | some order =>
        have hcancelled := cancel_cancelled hasked order
        refine ⟨(asked.cancel order).1, (asked.cancel order).2, (cancel_keeps hasked order).1,
          ⟨hcancelled.notFound_iff, hcancelled.marked, hcancelled.spared⟩, ?_⟩
        simp only [deliver, hselect, hread, Option.elim]
  obtain ⟨outcome, after, hkeeps, hcancelled, hdelivered⟩ := hdone
  have hlast : log.length < (log ++ [r]).length := by simp
  have hanswered := (leads_respond hlast (.bare outcome.status)).keeps (hkeeps.append [r])
  have hsettled := settle_leads hanswered
  have hsubmit : h.submit r = (log.length, (asked.deliver log.length r).settle) := by
    rw [submit, ← hnumbered]
  rw [hsubmit, hdelivered]
  refine ⟨outcome, ⟨hcancelled.notFound_iff, fun order hmem t hget => ?_, fun t ht => ?_⟩, ?_⟩
  · rw [hsettled.requested]
    exact hcancelled.marked order hmem t hget
  · rw [hsettled.requested]
    exact hcancelled.spared t ht
  · obtain ⟨more, hmore⟩ := hsettled.responses
    have hnone : after.responses.lookup log.length = none := by
      rw [List.lookup_eq_none_iff]
      intro x hx
      exact bne_iff_ne.mpr (Nat.ne_of_gt (hkeeps.responses x hx))
    rw [hmore, List.lookup_append, List.lookup_append, hnone]
    simp

end Host

end RemoteCall
