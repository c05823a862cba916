import Mathlib.Logic.Relation
import RemoteCall.Proofs.Client.Transparency

/-!
# Clients that share a connection

Any number of calls may be under way on one connection. Each of them is written, sent, and read
when its answer has come back, and between these steps anything may happen to the others, and to
the service by the hands of others. The first answer that is read settles the version, and every
call is transparent all the same.
-/

namespace RemoteCall.Client

open Exchange Http

/-- A call of which something came back. -/
structure Flight where
  call : OutgoingCall
  /-- Whether no answer had been read when the call was sent. -/
  wasProbing : Bool
  delivery : Delivery
  /-- What the service asked its collaborators. -/
  events : List Event

/-- Clients that share what they know of a service, and the state of that service. -/
structure Shared (σ : Type) where
  context : Context
  service : σ
  /-- Requests that have not been sent. -/
  written : List (OutgoingCall × Request)
  /-- Calls whose answers have not been read. -/
  underWay : List Flight
  /-- Calls with what their callers got. -/
  finished : List (Flight × Except ClientError Invocation.Response)

namespace Shared

variable {σ : Type}

/-- Clients that have not made a call. -/
def start (c : Context) (s : σ) : Shared σ :=
  ⟨c, s, [], [], []⟩

/-- One step of one of the calls, or of somebody else at the service. -/
inductive Step (transport : Transport (σ × List Event)) : Shared σ → Shared σ → Prop
  | write {S : Shared σ} {call : OutgoingCall} {r : Request}
      (h : invokeRequest S.context call = .ok r) :
      Step transport S { S with written := (call, r) :: S.written }
  | send {S : Shared σ} {front back : List (OutgoingCall × Request)} {call : OutgoingCall}
      {r : Request} {delivery : Delivery} {t : σ} {events : List Event}
      (hwritten : S.written = front ++ (call, r) :: back)
      (h : transport (S.context.outgoing r) (S.service, []) = (some delivery, t, events)) :
      Step transport S { S with
        service := t
        written := front ++ back
        underWay := ⟨call, S.context.connection.isProbing, delivery, events⟩ :: S.underWay }
  | receive {S : Shared σ} {front back : List Flight} {flight : Flight}
      (hunderWay : S.underWay = front ++ flight :: back) :
      Step transport S
        (let context := S.context.afterExchange flight.wasProbing flight.delivery
        { S with
          context
          underWay := front ++ back
          finished := (flight, invokeResult context flight.delivery) :: S.finished })
  | elsewhere {S : Shared σ} (t : σ) : Step transport S { S with service := t }

/-- Steps one after the other. -/
abbrev Run (transport : Transport (σ × List Event)) : Shared σ → Shared σ → Prop :=
  Relation.ReflTransGen (Step transport)

/-- All connections on which something was written, sent or read have offered one version, and what
came of a call is what may come of it. -/
structure Sound (config : ServiceConfig) (isManaged : Bool) (root : String) (v : ProtocolVersion)
    (S : Shared σ) : Prop where
  context : S.context.Offers root v
  written : ∀ w ∈ S.written, ∃ c : Context, c.Offers root v ∧ invokeRequest c w.1 = .ok w.2
  underWay : ∀ flight ∈ S.underWay, Came config isManaged v flight.call flight.delivery flight.events
  finished : ∀ x ∈ S.finished, Came config isManaged v x.1.call x.1.delivery x.1.events ∧
    ∃ c : Context, c.Offers root v ∧ x.2 = invokeResult c x.1.delivery

variable {config : ServiceConfig} {isManaged : Bool} {root : String} {v : ProtocolVersion}
  {collaborator : (q : Question) → σ → Answer q.Reply × σ}
  {routes : List (String × Service (σ × List Event))}

theorem sound_start (config : ServiceConfig) (isManaged : Bool) (root : String)
    (v : ProtocolVersion) (s : σ) :
    (start (Context.make root .protocolV1 v) s).Sound config isManaged root v :=
  ⟨.make root v, List.forall_mem_nil _, List.forall_mem_nil _, List.forall_mem_nil _⟩

theorem offers_of_came {call : OutgoingCall} {delivery : Delivery} {events : List Event}
    (h : Came config isManaged v call delivery events) {c : Context} (hc : c.Offers root v)
    (wasProbing : Bool) : (c.afterExchange wasProbing delivery).Offers root v := by
  cases h with
  | lost e => exact hc
  | answered c' r _ =>
      exact hc.afterExchange wasProbing (Response.get?_answerProbe_outgoing c' r _)

theorem forall_mem_split {α : Type} {p : α → Prop} {front back : List α} {a : α}
    (h : ∀ x ∈ front ++ a :: back, p x) : p a ∧ ∀ x ∈ front ++ back, p x := by
  rw [List.forall_mem_append, List.forall_mem_cons] at h
  exact ⟨h.2.1, List.forall_mem_append.mpr ⟨h.1, h.2.2⟩⟩

/-- Every step keeps to what is sound. -/
theorem Step.sound (hmount : Router.Mounts routes "/ejb/v1/invoke"
      (Dispatch.service config isManaged (recording collaborator)))
    {S T : Shared σ} (hstep : Step (Loopback.routed root true routes) S T)
    (h : S.Sound config isManaged root v) : T.Sound config isManaged root v := by
  cases hstep with
  | write hr =>
      exact ⟨h.context, List.forall_mem_cons.mpr ⟨⟨_, h.context, hr⟩, h.written⟩, h.underWay,
        h.finished⟩
  | @send front back call r delivery t events hwritten hsent =>
      obtain ⟨⟨c, hc, hr⟩, hrest⟩ := forall_mem_split (hwritten ▸ h.written)
      obtain ⟨delivery', t', events', hsent', hcame⟩ :=
        came_of_sent hmount hc h.context hr S.service
      obtain ⟨rfl, rfl, rfl⟩ : delivery' = delivery ∧ t' = t ∧ events' = events := by
        simpa using hsent'.symm.trans hsent
      exact ⟨h.context, hrest, List.forall_mem_cons.mpr ⟨hcame, h.underWay⟩, h.finished⟩
  | @receive front back flight hunderWay =>
      obtain ⟨hcame, hrest⟩ := forall_mem_split (hunderWay ▸ h.underWay)
      have hcontext := offers_of_came hcame h.context flight.wasProbing
      exact ⟨hcontext, h.written, hrest,
        List.forall_mem_cons.mpr ⟨⟨hcame, _, hcontext, rfl⟩, h.finished⟩⟩
  | elsewhere t => exact ⟨h.context, h.written, h.underWay, h.finished⟩

theorem Run.sound (hmount : Router.Mounts routes "/ejb/v1/invoke"
      (Dispatch.service config isManaged (recording collaborator)))
    {S T : Shared σ} (hrun : Run (Loopback.routed root true routes) S T)
    (h : S.Sound config isManaged root v) : T.Sound config isManaged root v := by
  induction hrun with
  | refl => exact h
  | tail _ hstep ih => exact hstep.sound hmount ih

/-- Whatever happens between the steps of a call, the call is transparent, and a request that has
been written is answered or lost when it is sent. -/
theorem runs_transparent (hmount : Router.Mounts routes "/ejb/v1/invoke"
      (Dispatch.service config isManaged (recording collaborator)))
    (hconfig : config.Open) (offered : ProtocolVersion) {s : σ} {S : Shared σ}
    (hrun : Run (Loopback.routed root true routes)
      (start (Context.make root .protocolV1 offered) s) S) :
    (∀ x ∈ S.finished, Address.parse x.1.call.address.shown = .ok x.1.call.address →
      Plain x.1.call → Transparent offered x.1.call x.1.delivery x.1.events x.2) ∧
    ∀ w ∈ S.written, ∃ delivery t events, Loopback.routed root true routes
      (S.context.outgoing w.2) (S.service, []) = (some delivery, t, events) := by
  have hsound := hrun.sound hmount (sound_start config isManaged root offered s)
  refine ⟨fun x hx hshown hplain => ?_, fun w hw => ?_⟩
  · obtain ⟨hcame, c, hc, hresult⟩ := hsound.finished x hx
    rw [hresult]
    exact hcame.transparent hconfig hshown hplain hc
  · obtain ⟨c, hc, hr⟩ := hsound.written w hw
    obtain ⟨delivery, t, events, hsent, -⟩ :=
      came_of_sent hmount hc hsound.context hr S.service
    exact ⟨delivery, t, events, hsent⟩

/-- A call that is written, sent and read while nothing else happens. -/
theorem run_of_call {transport : Transport (σ × List Event)} {c : Context} {s t : σ}
    {call : OutgoingCall} {r : Request} {delivery : Delivery} {events : List Event}
    (hr : invokeRequest c call = .ok r)
    (hsent : transport (c.outgoing r) (s, []) = (some delivery, t, events)) :
    let flight : Flight := ⟨call, c.connection.isProbing, delivery, events⟩
    let context := c.afterExchange c.connection.isProbing delivery
    Run transport (start c s)
      ⟨context, t, [], [], [(flight, invokeResult context delivery)]⟩ := by
  intro flight context
  have hwrite : Step transport (start c s) ⟨c, s, [(call, r)], [], []⟩ := .write hr
  have hsend : Step transport ⟨c, s, [(call, r)], [], []⟩ ⟨c, t, [], [flight], []⟩ :=
    @Step.send _ transport ⟨c, s, [(call, r)], [], []⟩ [] [] call r delivery t events rfl hsent
  have hreceive : Step transport ⟨c, t, [], [flight], []⟩
      ⟨context, t, [], [], [(flight, invokeResult context delivery)]⟩ :=
    @Step.receive _ transport ⟨c, t, [], [flight], []⟩ [] [] flight rfl
  exact ((Relation.ReflTransGen.single hwrite).tail hsend).tail hreceive

/-- The first call on a connection, by a client that offers version 1 and has a current name among
its parameters. -/
theorem runs_transparent_probing :
    let config : ServiceConfig := { ServiceConfig.standard with interop := true }
    let invocations := Dispatch.service config true (recording obliging)
    let transport := Loopback.routed "http://localhost" true [("/ejb/v1/invoke", invocations)]
    let call : OutgoingCall := {
      address := ⟨⟨"shop", "orders", "", "Cart"⟩, none, "CartHome", ⟨"put", ["T"]⟩⟩
      parameters := [.object "jakarta.ejb.Handle" []]
      attachments := .empty
      transaction := some ⟨⟨1, [1], []⟩, 30⟩
      requestId := none
      affinity := none }
    ∃ S flight result,
      Run transport (start (Context.make "http://localhost" .protocolV1 .v1) ()) S ∧
      S.finished = [(flight, result)] ∧ flight.call = call ∧ flight.wasProbing = true ∧
      lookedUp flight.events =
        [(⟨⟨"shop", "orders", "", "Cart"⟩, "CartHome", .stateless⟩, ⟨"put", ["T"]⟩)] ∧
      Transparent .v1 flight.call flight.delivery flight.events result := by
  intro config invocations transport call
  have hmount : Router.Mounts [("/ejb/v1/invoke", invocations)] "/ejb/v1/invoke" invocations :=
    ⟨List.mem_singleton_self _, fun route hroute _ => List.mem_singleton.mp hroute⟩
  have hshown : Address.parse call.address.shown = .ok call.address := by decide
  have hplain : Plain call := by
    refine ⟨.empty, ?_, ?_, List.forall_mem_nil _⟩
    · rintro t ⟨⟩
      decide
    · refine List.forall_mem_singleton.mpr (List.forall_mem_singleton.mpr ?_)
      decide
  have hlooked : lookedUp (invoke transport call
      (Context.make "http://localhost" .protocolV1 .v1) ((), [])).2.2.2 =
        [(⟨⟨"shop", "orders", "", "Cart"⟩, "CartHome", .stateless⟩, ⟨"put", ["T"]⟩)] := by
    decide +kernel
  rw [invoke_state] at hlooked
  cases hr : invokeRequest (Context.make "http://localhost" .protocolV1 .v1) call with
  | error e =>
      rw [hr] at hlooked
      cases hlooked
  | ok r =>
      rw [hr] at hlooked
      obtain ⟨delivery, t, events, hsent, -⟩ := came_of_sent hmount (.make _ .v1) (.make _ .v1) hr ()
      simp only [transport, hsent] at hlooked
      have hrun := run_of_call hr hsent
      exact ⟨_, _, _, hrun, rfl, rfl, rfl, hlooked,
        (runs_transparent hmount ⟨rfl, rfl, rfl⟩ .v1 hrun).1 _ (List.mem_singleton_self _) hshown
          hplain⟩

end Shared

end RemoteCall.Client
