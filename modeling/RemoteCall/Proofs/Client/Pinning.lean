import RemoteCall.Proofs.Client.Requests

/-!
# The version of a connection that many exchanges share

Any number of exchanges may be under way on one connection. Each of them writes the version in force
into its request, looks whether an answer has been seen, hands the request to the transport, and
takes note of what the transport brings back, and between these steps anything may happen to the
others. Several of them can find that no answer has been seen and all of them take note of theirs,
yet one of their answers settles the version, for good: the first.
-/

namespace RemoteCall

namespace ProtocolVersion

/-- Versions are numbered in the order in which they came. -/
def number : ProtocolVersion → Nat
  | v1 => 1
  | v2 => 2

theorem number_min (v w : ProtocolVersion) : (v.min w).number = Nat.min v.number w.number := by
  cases v <;> cases w <;> rfl

theorem number_min_le (v w : ProtocolVersion) : (v.min w).number ≤ v.number :=
  number_min v w ▸ Nat.min_le_left _ _

end ProtocolVersion

namespace Connection

/-- The version that a response settles: the smaller one of what is offered and what it announces,
and version 1 is all that can be settled if nothing readable is announced. -/
def agreed (offered : ProtocolVersion) (r : Http.Response) : ProtocolVersion :=
  match r.headers.get? header with
  | some announced => offered.min (ProtocolVersion.ofHeader announced)
  | none => offered.min .v1

theorem observe_of_unpinned {c : Connection} (h : c.pinned = none) (r : Http.Response) :
    c.observe (r.headers.get? header) = { c with pinned := some (agreed c.offered r) } := by
  unfold observe agreed
  rw [h]
  cases r.headers.get? header with
  | none => rfl
  | some announced => rfl

theorem observe_of_pinned {c : Connection} {v : ProtocolVersion} (h : c.pinned = some v)
    (announced : Option String) : c.observe announced = c := by
  unfold observe
  rw [h]

theorem number_agreed_le (offered : ProtocolVersion) (r : Http.Response) :
    (agreed offered r).number ≤ offered.number := by
  unfold agreed
  split
  · exact ProtocolVersion.number_min_le _ _
  · exact ProtocolVersion.number_min_le _ _

end Connection

namespace Context

open Http

/-- How far an exchange has come. -/
inductive Stage where
  /-- The request says a version. -/
  | written
  /-- The transport has the request. -/
  | sent (wasProbing : Bool)
  /-- What the transport brought back was taken note of. -/
  | over
  deriving DecidableEq, Repr

/-- A request that carries a version, and how far its exchange has come. -/
structure Sending where
  request : Request
  stage : Stage

/-- The exchanges of a context. -/
structure Exchanges where
  context : Context
  /-- The exchanges in the order in which they were started. -/
  sendings : List Sending
  /-- What came back, in the order in which it was taken note of, and whether its exchange was
  probing. -/
  completed : List (Bool × Delivery)

/-- What may happen next. -/
inductive Move where
  | start (r : Request)
  /-- An exchange finds out whether it is probing, and hands its request to the transport. -/
  | send (k : Nat)
  /-- The transport brings something back to an exchange. -/
  | complete (k : Nat) (delivery : Delivery)

namespace Exchanges

/-- The version that is settled. -/
def pinned (S : Exchanges) : Option ProtocolVersion :=
  S.context.connection.pinned

/-- The responses that came back, the earliest one first. -/
def answers (S : Exchanges) : List Response :=
  S.completed.filterMap fun (_, delivery) => delivery.toOption

/-- The responses that came back to probing exchanges, the earliest one first. -/
def probingAnswers (S : Exchanges) : List Response :=
  S.completed.filterMap fun (wasProbing, delivery) =>
    if wasProbing then delivery.toOption else none

/-- One step of one exchange. Steps that an exchange cannot take leave everything as it is. -/
def step (S : Exchanges) : Move → Exchanges
  | .start r => { S with sendings := S.sendings ++ [⟨S.context.outgoing r, .written⟩] }
  | .send k =>
    match S.sendings[k]? with
    | some ⟨request, .written⟩ =>
      { S with sendings := S.sendings.set k ⟨request, .sent S.context.connection.isProbing⟩ }
    | _ => S
  | .complete k delivery =>
    match S.sendings[k]? with
    | some ⟨request, .sent wasProbing⟩ =>
      ⟨S.context.afterExchange wasProbing delivery, S.sendings.set k ⟨request, .over⟩,
        S.completed ++ [(wasProbing, delivery)]⟩
    | _ => S

/-- The exchanges of a context after some steps. -/
def after (c : Context) (history : List Move) : Exchanges :=
  history.foldl step ⟨c, [], []⟩

theorem after_append (c : Context) (history later : List Move) :
    after c (history ++ later) = later.foldl step (after c history) :=
  List.foldl_append

/-- An exchange that nothing comes between is the one that a client waits for. -/
theorem after_exchange {σ : Type} (transport : Transport σ) (r : Request) (c : Context) (s : σ) :
    (∃ sending, (after c [.start r, .send 0]).sendings = [sending] ∧
      sending.request = c.outgoing r) ∧
    ∀ delivery t, transport (c.outgoing r) s = (some delivery, t) →
      c.exchange transport r s =
        (some delivery, (after c [.start r, .send 0, .complete 0 delivery]).context, t) := by
  refine ⟨⟨_, rfl, rfl⟩, fun delivery t h => ?_⟩
  unfold exchange
  rw [h]
  rfl

/-- All that a step can do. -/
theorem step_cases (S : Exchanges) (m : Move) :
    (∃ r, m = .start r ∧
      S.step m = { S with sendings := S.sendings ++ [⟨S.context.outgoing r, .written⟩] }) ∨
    (∃ k request, m = .send k ∧ S.sendings[k]? = some ⟨request, .written⟩ ∧
      S.step m =
        { S with sendings := S.sendings.set k ⟨request, .sent S.context.connection.isProbing⟩ }) ∨
    (∃ k request wasProbing delivery, m = .complete k delivery ∧
      S.sendings[k]? = some ⟨request, .sent wasProbing⟩ ∧
      S.step m = ⟨S.context.afterExchange wasProbing delivery, S.sendings.set k ⟨request, .over⟩,
        S.completed ++ [(wasProbing, delivery)]⟩) ∨
    S.step m = S := by
  cases m with
  | start r => exact .inl ⟨r, rfl, rfl⟩
  | send k =>
      simp only [step]
      split
      · next request h => exact .inr (.inl ⟨k, request, rfl, h, rfl⟩)
      · exact .inr (.inr (.inr rfl))
  | complete k delivery =>
      simp only [step]
      split
      · next request wasProbing h =>
          exact .inr (.inr (.inl ⟨k, request, wasProbing, delivery, rfl, h, rfl⟩))
      · exact .inr (.inr (.inr rfl))

/-! ### What a request says -/

/-- An exchange keeps its place and its request. -/
theorem request_step {S : Exchanges} {n : Nat} {request : Request}
    (h : (S.sendings[n]?).map Sending.request = some request) (m : Move) :
    ((S.step m).sendings[n]?).map Sending.request = some request := by
  -- Whatever changes the stage of an exchange puts its request back.
  have hset : ∀ {k : Nat} {r : Request} {stage stage' : Stage},
      S.sendings[k]? = some ⟨r, stage⟩ →
        ((S.sendings.set k ⟨r, stage'⟩)[n]?).map Sending.request = some request := by
    intro k r stage stage' hk
    rw [List.getElem?_set]
    split
    · next heq =>
        obtain ⟨hlt, -⟩ := List.getElem?_eq_some_iff.mp hk
        rw [if_pos hlt]
        rw [← heq, hk] at h
        exact h
    · exact h
  obtain ⟨r, -, hstep⟩ | ⟨k, r, -, hk, hstep⟩ | ⟨k, r, wasProbing, delivery, -, hk, hstep⟩ | hstep :=
    S.step_cases m
  · rw [hstep]
    obtain ⟨sending, hsending, hrequest⟩ := Option.map_eq_some_iff.mp h
    obtain ⟨hlt, -⟩ := List.getElem?_eq_some_iff.mp hsending
    rw [List.getElem?_append_left hlt, hsending, Option.map_some, hrequest]
  · rw [hstep]
    exact hset hk
  · rw [hstep]
    exact hset hk
  · rw [hstep]
    exact h

theorem request_foldl {S : Exchanges} {n : Nat} {request : Request}
    (h : (S.sendings[n]?).map Sending.request = some request) (later : List Move) :
    ((later.foldl step S).sendings[n]?).map Sending.request = some request := by
  induction later generalizing S with
  | nil => exact h
  | cons m later ih => exact ih (request_step h m)

/-- What an exchange sends is settled when it starts. -/
theorem request_after (c : Context) (front : List Move) (r : Request) (back : List Move) :
    ((after c (front ++ .start r :: back)).sendings[(after c front).sendings.length]?).map
      Sending.request = some ((after c front).context.outgoing r) := by
  rw [after_append, List.foldl_cons]
  refine request_foldl ?_ back
  simp only [step, List.getElem?_concat_length, Option.map_some]

/-! ### What is settled -/

theorem answers_complete (S : Exchanges) (c : Context) (sendings : List Sending)
    (wasProbing : Bool) (delivery : Delivery) :
    (⟨c, sendings, S.completed ++ [(wasProbing, delivery)]⟩ : Exchanges).answers =
      S.answers ++ delivery.toOption.toList := by
  simp only [answers, List.filterMap_append]
  cases delivery with
  | error e => rfl
  | ok r => rfl

theorem probingAnswers_complete (S : Exchanges) (c : Context) (sendings : List Sending)
    (wasProbing : Bool) (delivery : Delivery) :
    (⟨c, sendings, S.completed ++ [(wasProbing, delivery)]⟩ : Exchanges).probingAnswers =
      S.probingAnswers ++ if wasProbing then delivery.toOption.toList else [] := by
  simp only [probingAnswers, List.filterMap_append]
  cases wasProbing with
  | false => rfl
  | true =>
      cases delivery with
      | error e => rfl
      | ok r => rfl

/-- What ties the version of a connection to the answers that have come back on it. -/
structure Settled (offered : ProtocolVersion) (S : Exchanges) : Prop where
  offered_eq : S.context.connection.offered = offered
  pinned_eq : S.pinned = S.probingAnswers.head?.map (Connection.agreed offered)
  /-- As long as nothing is settled, whoever waits for an answer is probing. -/
  probing : S.pinned = none → ∀ request wasProbing,
    ⟨request, .sent wasProbing⟩ ∈ S.sendings → wasProbing = true
  answers_eq : S.answers.head? = S.probingAnswers.head?

theorem settled_start {c : Context} (h : c.connection.pinned = none) :
    (⟨c, [], []⟩ : Exchanges).Settled c.connection.offered :=
  ⟨rfl, h, fun _ _ _ hmem => absurd hmem List.not_mem_nil, rfl⟩

variable {offered : ProtocolVersion} {S : Exchanges}

theorem afterExchange_of_pinned {c : Context} {v : ProtocolVersion}
    (h : c.connection.pinned = some v) (wasProbing : Bool) (delivery : Delivery) :
    c.afterExchange wasProbing delivery = c := by
  unfold afterExchange
  split
  · rw [Connection.observe_of_pinned h, ite_self]
  · rfl

theorem Settled.no_answers (h : S.Settled offered) (hpinned : S.pinned = none) :
    S.probingAnswers = [] ∧ S.answers = [] := by
  rw [h.pinned_eq, Option.map_eq_none_iff] at hpinned
  exact ⟨List.head?_eq_none_iff.mp hpinned, List.head?_eq_none_iff.mp (h.answers_eq.trans hpinned)⟩

/-- What comes back while nothing is settled settles the version if it is a response, and nothing
if it is an error. -/
theorem Settled.complete_unpinned (h : S.Settled offered) (hpinned : S.pinned = none)
    {k : Nat} {request : Request} {wasProbing : Bool}
    (hk : S.sendings[k]? = some ⟨request, .sent wasProbing⟩) (delivery : Delivery) :
    Settled offered ⟨S.context.afterExchange wasProbing delivery,
      S.sendings.set k ⟨request, .over⟩, S.completed ++ [(wasProbing, delivery)]⟩ := by
  obtain rfl := h.probing hpinned request wasProbing (List.mem_of_getElem? hk)
  obtain ⟨hprobing, hanswers⟩ := h.no_answers hpinned
  cases delivery with
  | error e =>
      refine ⟨h.offered_eq, ?_, fun _ other wasProbing hmem => ?_, ?_⟩
      · rw [probingAnswers_complete, hprobing]
        exact hpinned
      · exact (List.mem_or_eq_of_mem_set hmem).elim (h.probing hpinned other wasProbing) nofun
      · rw [probingAnswers_complete, answers_complete, hprobing, hanswers]
        rfl
  | ok r =>
      have hcontext : S.context.afterExchange true (.ok r) =
          { S.context with connection := ⟨offered, some (Connection.agreed offered r)⟩ } := by
        simp only [afterExchange, if_true, Connection.observe_of_unpinned hpinned, h.offered_eq]
      rw [hcontext]
      refine ⟨rfl, ?_, fun hunpinned => absurd hunpinned (Option.some_ne_none _), ?_⟩
      · rw [probingAnswers_complete, hprobing]
        rfl
      · rw [probingAnswers_complete, answers_complete, hprobing, hanswers]
        rfl

/-- What comes back when the version is settled changes nothing about it. -/
theorem Settled.complete_pinned (h : S.Settled offered) {v : ProtocolVersion}
    (hpinned : S.pinned = some v) (k : Nat) (request : Request) (wasProbing : Bool)
    (delivery : Delivery) :
    Settled offered ⟨S.context.afterExchange wasProbing delivery,
      S.sendings.set k ⟨request, .over⟩, S.completed ++ [(wasProbing, delivery)]⟩ := by
  obtain ⟨first, hfirst, -⟩ := Option.map_eq_some_iff.mp (h.pinned_eq ▸ hpinned)
  rw [afterExchange_of_pinned hpinned]
  refine ⟨h.offered_eq, ?_, fun hunpinned => ?_, ?_⟩
  · rw [probingAnswers_complete, List.head?_append, hfirst, Option.some_or, ← hfirst]
    exact h.pinned_eq
  · exact nomatch hunpinned.symm.trans hpinned
  · rw [probingAnswers_complete, answers_complete, List.head?_append, List.head?_append,
      h.answers_eq, hfirst, Option.some_or, Option.some_or]

/-- Every step keeps to what is settled. -/
theorem Settled.step (h : S.Settled offered) (m : Move) : (S.step m).Settled offered := by
  obtain ⟨r, -, hstep⟩ | ⟨k, r, -, -, hstep⟩ | ⟨k, r, wasProbing, delivery, -, hk, hstep⟩ | hstep :=
    S.step_cases m
  · rw [hstep]
    refine ⟨h.offered_eq, h.pinned_eq, fun hpinned request wasProbing hmem => ?_, h.answers_eq⟩
    exact (List.mem_append.mp hmem).elim (h.probing hpinned request wasProbing)
      fun hnew => nomatch List.mem_singleton.mp hnew
  · rw [hstep]
    refine ⟨h.offered_eq, h.pinned_eq, fun hpinned request wasProbing hmem => ?_, h.answers_eq⟩
    obtain hold | hnew := List.mem_or_eq_of_mem_set hmem
    · exact h.probing hpinned request wasProbing hold
    · cases hnew
      exact Option.isNone_iff_eq_none.mpr hpinned
  · rw [hstep]
    cases hpinned : S.pinned with
    | none => exact h.complete_unpinned hpinned hk delivery
    | some v => exact h.complete_pinned hpinned k r wasProbing delivery
  · rw [hstep]
    exact h

theorem Settled.foldl (h : S.Settled offered) (later : List Move) :
    (later.foldl Exchanges.step S).Settled offered := by
  induction later generalizing S with
  | nil => exact h
  | cons m later ih => exact ih (h.step m)

/-- Errors of the transport tell nothing. -/
theorem context_complete_error (S : Exchanges) (k : Nat) (e : TransportError) :
    (S.step (.complete k (.error e))).context = S.context := by
  simp only [Exchanges.step]
  split
  · rfl
  · rfl

/-- What is settled stays settled. -/
theorem pinned_step {v : ProtocolVersion} (h : S.pinned = some v) (m : Move) :
    (S.step m).pinned = some v := by
  obtain ⟨r, -, hstep⟩ | ⟨k, r, -, -, hstep⟩ | ⟨k, r, wasProbing, delivery, -, -, hstep⟩ | hstep :=
    S.step_cases m
  · rw [hstep]
    exact h
  · rw [hstep]
    exact h
  · rw [hstep, afterExchange_of_pinned h]
    exact h
  · rw [hstep]
    exact h

theorem pinned_foldl {v : ProtocolVersion} (h : S.pinned = some v) (later : List Move) :
    (later.foldl step S).pinned = some v := by
  induction later generalizing S with
  | nil => exact h
  | cons m later ih => exact ih (pinned_step h m)

/-- However the exchanges of a new context come between each other, the first response to a probing
one, which is the first response at all, settles the version, for good and never above what is
offered. Errors of the transport do not change anything that the context knows. Every request says
what was settled when its exchange started, or else what is offered. -/
theorem pinned_by_first_answer (root : String) (known : KnownValues) (offered : ProtocolVersion)
    (history : List Move) :
    let c := Context.make root known offered
    let S := after c history
    (S.pinned = S.probingAnswers.head?.map (Connection.agreed offered) ∧
      S.answers.head? = S.probingAnswers.head?) ∧
    (∀ v, S.pinned = some v → v.number ≤ offered.number ∧
      ∀ later, (after c (history ++ later)).pinned = some v) ∧
    (∀ k e, (S.step (.complete k (.error e))).context = S.context) ∧
    ∀ front r back, history = front ++ .start r :: back →
      let v := (after c front).pinned.getD offered
      ∃ sending, S.sendings[(after c front).sendings.length]? = some sending ∧
        sending.request =
          { r with headers := r.headers.set Connection.header v.text } ∧
        sending.request.headers.values Connection.header = [v.text] := by
  intro c S
  have hsettled : ∀ history, (after c history).Settled offered := fun history =>
    (settled_start (c := c) rfl).foldl history
  refine ⟨⟨(hsettled history).pinned_eq, (hsettled history).answers_eq⟩, fun v hv => ⟨?_, fun later => ?_⟩,
    S.context_complete_error, ?_⟩
  · obtain ⟨first, -, rfl⟩ := Option.map_eq_some_iff.mp ((hsettled history).pinned_eq ▸ hv)
    exact Connection.number_agreed_le offered first
  · rw [after_append]
    exact pinned_foldl hv later
  · rintro front r back rfl v
    obtain ⟨sending, hsending, hrequest⟩ :=
      Option.map_eq_some_iff.mp (request_after c front r back)
    have hversion : (after c front).context.connection.current = v := by
      rw [Connection.current, (hsettled front).offered_eq]
      rfl
    have hsent : sending.request =
        { r with headers := r.headers.set Connection.header v.text } := by
      rw [hrequest, outgoing, hversion]
    refine ⟨sending, hsending, hsent, ?_⟩
    rw [hsent]
    exact Headers.values_set_self r.headers Connection.header v.text

/-- Two exchanges are probing at once. The second is answered first and told nothing, so that what
the first is told comes too late. -/
example (known : KnownValues) (r r' : Request) (b b' : Bytes) :
    (after (Context.make "http://localhost" known .v2)
      [.start r, .send 0, .start r', .send 1,
        .complete 1 (.ok ⟨.ok, .empty, b⟩),
        .complete 0 (.ok ⟨.ok, .ofList [(Connection.header, "2")], b'⟩)]).pinned = some .v1 :=
  rfl

end Exchanges

end Context

end RemoteCall
