import RemoteCall.Proofs.Cancel.Board
import RemoteCall.Proofs.Service.Questions
import RemoteCall.Service.Host

/-!
# What a running service keeps to

Whatever a service does for an invocation, it only registers the invocation under the identifier
that its request carried, gives one response to it, and marks nobody's handle but by reporting. So
of a service that has run for a while it is known where the entries of its register come from, and
that a request yet to come has no response.

## Implementation notes

A request goes by its place in the log of all requests, which is the number that the service gives
it. One relation tells what may become of a service while no request arrives, and everything that
goes on is an instance of it.
-/

namespace RemoteCall

namespace Exchange

variable {law law' : List Event → Question → Prop}
  {verdict verdict' : List Event → Http.Response → Prop}

theorem Obeys.mono (hlaw : ∀ before q, law before q → law' before q)
    (hverdict : ∀ before r, verdict before r → verdict' before r) {before : List Event}
    {e : Exchange} (h : Obeys law verdict before e) : Obeys law' verdict' before e := by
  induction h with
  | respond h => exact .respond (hverdict _ _ h)
  | ask h _ ih => exact .ask (hlaw _ _ h) ih

/-- An exchange registers under a certain identifier, if at all. -/
def RegistersAs (identifier : Option InvocationId) (e : Exchange) : Prop :=
  ∃ before, Obeys (fun _ q => ∀ id, q = .register id → identifier = some id) (fun _ _ => True)
    before e

theorem RegistersAs.ask {identifier : Option InvocationId} {q : Question}
    {next : q.Reply → Exchange} (h : RegistersAs identifier (.ask q next)) :
    (∀ id, q = .register id → identifier = some id) ∧ ∀ a, RegistersAs identifier (next a) := by
  obtain ⟨before, h⟩ := h
  cases h with
  | ask h tail => exact ⟨h, fun a => ⟨_, tail a⟩⟩

end Exchange

theorem Dispatch.start_registersAs (config : ServiceConfig) (isManaged : Bool) (a : Accepted) :
    (start config isManaged a).2.RegistersAs a.identifier := by
  unfold start
  dsimp only
  split
  · next request c _ =>
    refine ⟨[], (converse_obeys _ isManaged a request).mono ?_ fun _ _ _ => trivial⟩
    rintro before q hdue id rfl
    exact hdue
  · exact ⟨[], .respond trivial⟩

namespace Host

/-- The identifier that a request of the log carried. -/
def carried? (log : List Http.Request) (t : Ticket) : Option (Option InvocationId) :=
  log[t]?.map fun r => InvocationId.ofHeaders? r.headers

theorem lt_of_carried? {log : List Http.Request} {t : Ticket} {identifier : Option InvocationId}
    (h : carried? log t = some identifier) : t < log.length := by
  obtain ⟨r, hr, -⟩ := Option.map_eq_some_iff.mp h
  exact (List.getElem?_eq_some_iff.mp hr).1

theorem carried?_append {log : List Http.Request} {t : Ticket} {identifier : Option InvocationId}
    (h : carried? log t = some identifier) (more : List Http.Request) :
    carried? (log ++ more) t = some identifier := by
  rw [carried?, List.getElem?_append_left (lt_of_carried? h)]
  exact h

/-- All that a service has at hand comes from requests of the log: responses, requests that wait,
invocations whose targets wait, and entries of the register. -/
structure Keeps (log : List Http.Request) (h : Host) : Prop where
  responses : ∀ x ∈ h.responses, x.1 < log.length
  queued : ∀ x ∈ h.queued, carried? log x.1 = some x.2.identifier
  parked : ∀ q ∈ h.parked, h.board.Knows q.run.ticket ∧
    ∃ identifier, carried? log q.run.ticket = some identifier ∧
      ∀ o, (q.next o).RegistersAs identifier
  registered : ∀ id t, h.board.registry.get? id = some t →
    h.board.Knows t ∧ carried? log t = some (some id)

/-- What may become of a service while no request arrives and nobody asks for a cancellation. -/
structure Leads (log : List Http.Request) (h h' : Host) : Prop where
  setup : h'.setup = h.setup
  nextTicket : h'.nextTicket = h.nextTicket
  knows : ∀ t, h.board.Knows t → h'.board.Knows t
  requested : ∀ t, h'.board.requested t = h.board.requested t
  responses : ∃ more, h'.responses = h.responses ++ more
  keeps : Keeps log h → Keeps log h'

variable {log : List Http.Request} {h h' h'' : Host} {run : Running}
  {identifier : Option InvocationId}

theorem Leads.refl (h : Host) : Leads log h h :=
  ⟨rfl, rfl, fun _ => id, fun _ => rfl, ⟨[], (List.append_nil _).symm⟩, id⟩

theorem Leads.trans (first : Leads log h h') (second : Leads log h' h'') : Leads log h h'' := by
  obtain ⟨earlier, hearlier⟩ := first.responses
  obtain ⟨later, hlater⟩ := second.responses
  exact ⟨second.setup.trans first.setup, second.nextTicket.trans first.nextTicket,
    fun t ht => second.knows t (first.knows t ht),
    fun t => (second.requested t).trans (first.requested t),
    ⟨earlier ++ later, by rw [hlater, hearlier, List.append_assoc]⟩,
    fun hkeeps => second.keeps (first.keeps hkeeps)⟩

/-- What the register, the queues and the responses do not show may change. -/
theorem leads_aside (h : Host) (ledger : Ledger) (pool : WorkerPool Ticket)
    (openGates : List String) (calls : Nat) (asked : List String) :
    Leads log h { h with ledger, pool, openGates, calls, asked } :=
  ⟨rfl, rfl, fun _ => id, fun _ => rfl, ⟨[], (List.append_nil _).symm⟩,
    fun k => ⟨k.responses, k.queued, k.parked, k.registered⟩⟩

/-- Requests and targets may stop waiting. -/
theorem leads_fewer {queued : List (Ticket × Accepted)} {parked : List Parked}
    (hqueued : queued ⊆ h.queued) (hparked : parked ⊆ h.parked) :
    Leads log h { h with queued, parked } :=
  ⟨rfl, rfl, fun _ => id, fun _ => rfl, ⟨[], (List.append_nil _).symm⟩,
    fun k => ⟨k.responses, fun x hx => k.queued x (hqueued hx),
      fun q hq => k.parked q (hparked hq), k.registered⟩⟩

/-- The board may change as long as nothing is forgotten or requested and all that is registered is
known to have carried its identifier. -/
theorem leads_board {board : Cancel.Board Ticket} (hknows : ∀ t, h.board.Knows t → board.Knows t)
    (hrequested : ∀ t, board.requested t = h.board.requested t)
    (hregistered : ∀ id t, board.registry.get? id = some t →
      h.board.registry.get? id = some t ∨ board.Knows t ∧ carried? log t = some (some id)) :
    Leads log h { h with board } := by
  refine ⟨rfl, rfl, hknows, hrequested, ⟨[], (List.append_nil _).symm⟩, fun k => ?_⟩
  refine ⟨k.responses, k.queued, fun q hq => ?_, fun id t hget => ?_⟩
  · obtain ⟨hknown, hcarried⟩ := k.parked q hq
    exact ⟨hknows _ hknown, hcarried⟩
  · rcases hregistered id t hget with hold | hnew
    · obtain ⟨hknown, hcarried⟩ := k.registered id t hold
      exact ⟨hknows t hknown, hcarried⟩
    · exact hnew

theorem leads_acknowledge (h : Host) (t : Ticket) (cancelled : Bool) :
    Leads log h { h with board := h.board.acknowledge t cancelled } :=
  leads_board (fun _ => Cancel.Board.knows_update.mpr)
    (Cancel.Board.requested_update fun _ => rfl) fun _ _ => .inl

theorem leads_meet (h : Host) (t : Ticket) : Leads log h { h with board := h.board.meet t } :=
  leads_board (fun _ hknown => hknown.meet t) (Cancel.Board.requested_meet h.board t)
    fun id u hget => .inl (by rwa [Cancel.Board.registry_meet] at hget)

theorem leads_hold {t : Ticket} {id : InvocationId} (hknown : h.board.Knows t)
    (hcarried : carried? log t = some (some id)) :
    Leads log h { h with board := (h.board.hold id t).2 } := by
  refine leads_board (fun _ h => h) (fun _ => rfl) fun key u hget => ?_
  change (h.board.registry.register id t).get? key = some u at hget
  rw [Registry.get?_register] at hget
  split at hget
  · next hkey =>
    obtain rfl := Option.some.inj hget
    subst hkey
    exact .inr ⟨hknown, hcarried⟩
  · exact .inl hget

theorem leads_release (h : Host) (run : Running) : Leads log h (h.release run).2 :=
  leads_board (fun _ => id) (fun _ => rfl) fun _ _ hget => .inl (Cancel.Board.get?_of_release hget)

/-- A request of the log may get its response. -/
theorem leads_respond {t : Ticket} (ht : t < log.length) (r : Http.Response) :
    Leads log h { h with responses := h.responses ++ [(t, r)] } := by
  refine ⟨rfl, rfl, fun _ => id, fun _ => rfl, ⟨[(t, r)], rfl⟩, fun k => ?_⟩
  refine ⟨fun x hx => ?_, k.queued, k.parked, k.registered⟩
  rcases List.mem_append.mp hx with hx | hx
  · exact k.responses x hx
  · obtain rfl := List.mem_singleton.mp hx
    exact ht

theorem leads_complete {t : Ticket} (ht : t < log.length) (r : Http.Response) :
    Leads log h (h.complete t r) :=
  (leads_respond ht r).trans (leads_aside _ h.ledger (h.pool.finish t) h.openGates h.calls h.asked)

theorem leads_park {q : Parked} (hknown : h.board.Knows q.run.ticket)
    (hcarried : carried? log q.run.ticket = some identifier)
    (hnext : ∀ o, (q.next o).RegistersAs identifier) :
    Leads log h { h with parked := h.parked ++ [q] } := by
  refine ⟨rfl, rfl, fun _ => id, fun _ => rfl, ⟨[], (List.append_nil _).symm⟩, fun k => ?_⟩
  refine ⟨k.responses, k.queued, fun p hp => ?_, k.registered⟩
  rcases List.mem_append.mp hp with hp | hp
  · exact k.parked p hp
  · obtain rfl := List.mem_singleton.mp hp
    exact ⟨hknown, identifier, hcarried, hnext⟩

/-- A call changes no more than the ledger and the gates. -/
theorem react_eq (h : Host) (handle : CancelHandle) (c : ResolvedCall) :
    ∃ ledger openGates, (h.react handle c).2 = { h with ledger, openGates } := by
  unfold react
  split
  · exact ⟨_, _, rfl⟩
  · next component _ =>
    cases component.behaviour with
    | enlist times =>
        dsimp only
        split <;> exact ⟨_, _, rfl⟩
    | park isStubborn =>
        dsimp only
        split <;> exact ⟨_, _, rfl⟩
    | _ => exact ⟨_, _, rfl⟩

theorem react_leads (h : Host) (handle : CancelHandle) (c : ResolvedCall) :
    Leads log h (h.react handle c).2 := by
  obtain ⟨ledger, openGates, heq⟩ := react_eq h handle c
  rw [heq]
  exact leads_aside h ledger h.pool openGates h.calls h.asked

/-- What is done for an invocation. -/
theorem advance_leads (e : Exchange) (hknown : h.board.Knows run.ticket)
    (hcarried : carried? log run.ticket = some identifier) (he : e.RegistersAs identifier) :
    Leads log h (advance e run h) := by
  induction e generalizing run h with
  | respond r => exact leads_complete (lt_of_carried? hcarried) r
  | ask q next ih =>
      obtain ⟨hregister, hnext⟩ := he.ask
      -- Whatever the answer is, the rest goes on from a state that the service may come to.
      have hrest : ∀ {before : Host} (after : Running) (a : q.Reply), after.ticket = run.ticket →
          Leads log h before → Leads log h (advance (next a) after before) := by
        intro before after a hticket hbefore
        rw [← hticket] at hknown hcarried
        exact hbefore.trans (ih a (hbefore.knows _ hknown) hcarried (hnext a))
      cases q with
      | importBranch x timeout =>
          exact hrest run _ rfl (leads_aside h _ h.pool h.openGates h.calls h.asked)
      | isHome component view => exact hrest run _ rfl (.refl h)
      | locate locator method => exact hrest run _ rfl (.refl h)
      | register id =>
          have hid : carried? log run.ticket = some (some id) := by
            rw [hcarried, hregister id rfl]
          exact hrest { run with guard := (h.board.hold id run.ticket).1 } () rfl
            (leads_hold hknown hid)
      | invoke call =>
          have hcalled : Leads log h { h with calls := h.calls + 1 } :=
            leads_aside h h.ledger h.pool h.openGates (h.calls + 1) h.asked
          have hreacted := hcalled.trans
            (react_leads { h with calls := h.calls + 1 } (h.board.handle run.ticket) call)
          rw [advance]
          split
          · next o after hreact =>
            rw [hreact] at hreacted
            exact hrest run o rfl hreacted
          · next m after hreact =>
            rw [hreact] at hreacted
            exact (hreacted.trans (leads_release after run)).trans
              (leads_complete (lt_of_carried? hcarried) _)
          · next component isStubborn after hreact =>
            rw [hreact] at hreacted
            exact hreacted.trans (leads_park (q := ⟨run, component, isStubborn, next⟩)
              (hreacted.knows _ hknown) hcarried hnext)
      | acknowledge cancelled => exact hrest run () rfl (leads_acknowledge h run.ticket cancelled)
      | release => exact hrest (h.release run).1 () rfl (leads_release h run)

theorem startNext?_leads (hkeeps : Keeps log h) (hstart : h.startNext? = some h') :
    Leads log h h' := by
  unfold startNext? at hstart
  split at hstart
  · cases hstart
  · next t pool _ =>
    split at hstart
    · cases hstart
      exact leads_aside h h.ledger _ h.openGates h.calls h.asked
    · next a hlookup =>
      obtain ⟨front, back, hqueued, -⟩ := List.lookup_eq_some_iff.mp hlookup
      have hcarried : carried? log t = some a.identifier :=
        hkeeps.queued (t, a) (by rw [hqueued]; simp)
      cases hstart
      let met : Host := { h with board := h.board.meet t }
      let taken : Host := { met with queued := h.queued.filter (·.1 != t) }
      have htaken : Leads log met taken :=
        leads_fewer (List.filter_subset_self _) (List.Subset.refl _)
      let ready : Host := { taken with
        pool, asked := h.asked ++ (Dispatch.start h.setup.config h.setup.isManaged a).1 }
      have hready : Leads log taken ready := leads_aside taken h.ledger pool _ h.calls _
      exact (((leads_meet h t).trans htaken).trans hready).trans
        (advance_leads _ (Cancel.Board.knows_meet h.board t) hcarried
          (Dispatch.start_registersAs h.setup.config h.setup.isManaged a))

/-- The first of the waiting targets that a predicate holds of, between the others. -/
theorem split_parked {p : Parked → Bool} {q : Parked} (hfind : h.parked.find? p = some q) :
    ∃ front back, h.parked = front ++ q :: back ∧ h.parked.eraseP p = front ++ back := by
  obtain ⟨hp, front, back, hsplit, hfront⟩ := List.find?_eq_some_iff_append.mp hfind
  refine ⟨front, back, hsplit, ?_⟩
  rw [hsplit, List.eraseP_append_right _ fun r hr => by simpa using hfront r hr,
    List.eraseP_cons_of_pos hp]

theorem resumeFirst?_leads (hkeeps : Keeps log h) {p : Parked → Bool}
    {outcome : Parked → CallOutcome} (hresume : h.resumeFirst? p outcome = some h') :
    Leads log h h' := by
  unfold resumeFirst? at hresume
  split at hresume
  · cases hresume
  · next q hfind =>
    obtain ⟨hknown, identifier, hcarried, hnext⟩ := hkeeps.parked q (List.mem_of_find?_eq_some hfind)
    cases hresume
    have hgone : Leads log h { h with parked := h.parked.eraseP p } :=
      leads_fewer (List.Subset.refl _) List.eraseP_subset
    exact hgone.trans (advance_leads _ hknown hcarried (hnext _))

theorem settleIn_leads (hkeeps : Keeps log h) (fuel : Nat) : Leads log h (settleIn fuel h) := by
  induction fuel generalizing h with
  | zero => exact .refl h
  | succ fuel ih =>
      unfold settleIn
      split
      · next hresume =>
        have hled := resumeFirst?_leads hkeeps hresume
        exact hled.trans (ih (hled.keeps hkeeps))
      · split
        · next hstart =>
          have hled := startNext?_leads hkeeps hstart
          exact hled.trans (ih (hled.keeps hkeeps))
        · exact .refl h

theorem settle_leads (hkeeps : Keeps log h) : Leads log h h.settle :=
  settleIn_leads hkeeps _

theorem openGate_leads (hkeeps : Keeps log h) (component : String) :
    Leads log h (h.openGate component) := by
  unfold openGate
  split
  · next hresume => exact resumeFirst?_leads hkeeps hresume
  · exact leads_aside h h.ledger h.pool _ h.calls h.asked

end Host

end RemoteCall
