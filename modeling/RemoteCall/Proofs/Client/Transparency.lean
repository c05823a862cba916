import RemoteCall.Proofs.Client.Addressing
import RemoteCall.Proofs.RemoteException

/-!
# What a call and its target know of each other

Where a service changes names for legacy peers and keeps no filter, both ends of a connection write
and read in the dialect of the version that the client offers, before the first answer and after
it. So a target gets to see what its caller sent, and a caller what the target answered, as long as
no legacy name is among it.

## Implementation notes

The client may learn the version of the service while a call is under way. A request may therefore
be written, be sent, and be answered under three different connections, of which only the dialect
is the same.
-/

namespace RemoteCall

open Exchange Http

/-- The dialect of both ends of a connection on which a version has been offered. -/
def Dialect.offered (v : ProtocolVersion) : Dialect :=
  ⟨if v.isLegacy then Namespace.translated Resolver.plain else Resolver.plain, .protocolV1⟩

/-- No name in a value is a legacy name. -/
def Value.Unlegacy (v : Value) : Prop :=
  ∀ name ∈ v.typeNames, ¬ Namespace.IsLegacy name

theorem Value.Unlegacy.restored {v : Value} (h : v.Unlegacy) (version : ProtocolVersion) :
    (Dialect.offered version).resolver.Restores v := by
  unfold Dialect.offered
  dsimp only
  split
  · exact Resolver.translated_restores h
  · exact Resolver.plain_restores v

/-- A service that keeps no filter and changes names for legacy peers. -/
structure ServiceConfig.Open (config : ServiceConfig) : Prop where
  filter : config.filter = none
  interop : config.interop = true
  known : config.known = .protocolV1

theorem ServiceConfig.Open.dialect_eq {config : ServiceConfig} (h : config.Open)
    (peer : ProtocolVersion) : config.dialect peer = Dialect.offered peer := by
  simp [ServiceConfig.dialect, ServiceConfig.resolver, Dialect.offered, Resolver.filtered, h.filter,
    h.interop, h.known]

/-- A client of the service at a root that offers a version, and has not agreed on another one. -/
structure Context.Offers (root : String) (v : ProtocolVersion) (c : Context) : Prop where
  root : c.root = String.ofList (Loopback.mount root)
  known : c.known = .protocolV1
  offered : c.connection.offered = v
  pinned : ∀ w ∈ c.connection.pinned, w = v

namespace Context.Offers

variable {root : String} {v : ProtocolVersion} {c : Context}

theorem make (root : String) (v : ProtocolVersion) : (Context.make root .protocolV1 v).Offers root v :=
  ⟨rfl, rfl, rfl, fun _ h => nomatch h⟩

theorem current_eq (h : c.Offers root v) : c.connection.current = v := by
  unfold Connection.current
  cases hpinned : c.connection.pinned with
  | none => exact h.offered
  | some w => exact h.pinned w hpinned

theorem dialect_eq (h : c.Offers root v) : c.dialect = Dialect.offered v := by
  rw [Context.dialect, Dialect.offered, h.current_eq, h.known]

/-- The version of a service that announces the latest one changes nothing. -/
theorem afterExchange (h : c.Offers root v) (wasProbing : Bool) {response : Response}
    (hheader : response.headers.get? Connection.header = some ProtocolVersion.latest.text) :
    (c.afterExchange wasProbing (.ok response)).Offers root v := by
  have hmin : ∀ v : ProtocolVersion, v.min
      (ProtocolVersion.ofHeader? (some ProtocolVersion.latest.text)) = v := by
    intro v
    cases v <;> decide
  cases wasProbing with
  | false => exact h
  | true =>
      unfold Context.afterExchange Connection.observe
      simp only [if_true, hheader]
      cases hpinned : c.connection.pinned with
      | some w => exact ⟨h.root, h.known, h.offered, h.pinned⟩
      | none =>
          refine ⟨h.root, h.known, h.offered, fun w hw => ?_⟩
          rw [← Option.some.inj hw, hmin, h.offered]

end Context.Offers

namespace Client

/-- A call as a service accepts it where its address arrives unchanged. -/
structure Arrived (v : ProtocolVersion) (call : OutgoingCall) (a : Accepted) : Prop where
  address : a.address = call.address
  peer : a.peer = v
  arity : call.address.method.parameterTypes.length = call.parameters.length
  body : ((invokeBody call).write (Dialect.offered v)).result = .ok a.body

/-- What may come back for a call: it was lost, or a service that tells its version has answered,
as what it asked its collaborators explains. -/
inductive Came (config : ServiceConfig) (isManaged : Bool) (v : ProtocolVersion)
    (call : OutgoingCall) : Delivery → List Event → Prop
  | lost (e : TransportError) : Came config isManaged v call (.error e) []
  | answered {response : Response} {events : List Event} (c : Context) (r : Request)
      (h : Address.parse call.address.shown = .ok call.address →
        ∃ a, Arrived v call a ∧ Dispatch.Explains config isManaged a events response) :
      Came config isManaged v call (.ok (response.answerProbe (c.outgoing r))) events

variable {σ : Type} {root : String} {v : ProtocolVersion} {config : ServiceConfig}
  {isManaged : Bool} {collaborator : (q : Question) → σ → Answer q.Reply × σ}
  {routes : List (String × Service (σ × List Event))}

/-- What comes of a call that is written under one connection and sent under another. -/
theorem came_of_sent (hmount : Router.Mounts routes "/ejb/v1/invoke"
      (Dispatch.service config isManaged (recording collaborator)))
    {c c' : Context} (hc : c.Offers root v) (hc' : c'.Offers root v) {call : OutgoingCall}
    {r : Request} (h : invokeRequest c call = .ok r) (s : σ) :
    ∃ delivery t events,
      Loopback.routed root true routes (c'.outgoing r) (s, []) = (some delivery, t, events) ∧
      Came config isManaged v call delivery events := by
  rcases invoke_arrives true hmount c' hc.root h (s, []) with
    ⟨e, hlost⟩ | ⟨uri, hpath, harrived⟩
  · exact ⟨_, _, _, hlost, .lost e⟩
  · obtain ⟨response, t, events, hserve, hexplains⟩ := Dispatch.service_explains config isManaged
      collaborator { c'.outgoing r with uri } s
    simp only [hserve] at harrived
    refine ⟨_, _, _, harrived, .answered c' r fun hshown => ?_⟩
    obtain ⟨body, uri', harity, hbody, -, -, rfl⟩ := invokeRequest_eq_ok h
    have hparse : Address.parse uri.path = .ok call.address := by rw [hpath, hshown]
    have haccept := (Dispatch.accept_eq_ok_iff (r := { c'.outgoing
      ⟨"POST", uri', Headers.ofList (invokeFields call), body⟩ with uri })).mpr
      ⟨rfl, expect_invocation call c' uri' body, call.address, hparse, rfl⟩
    rcases hexplains with ⟨refusal, hrefused, -⟩ | ⟨a, ha, hexplains⟩
    · rw [hrefused] at haccept
      cases haccept
    · obtain rfl := Except.ok.inj (ha.symm.trans haccept)
      rw [hc.dialect_eq] at hbody
      exact ⟨_, ⟨rfl, (Context.peerVersion_outgoing c' _).trans hc'.current_eq, harity, hbody⟩,
        hexplains⟩

/-- A call that can be made as it is: with attachments in order, a branch name within its limits,
and without legacy names. -/
structure Plain (call : OutgoingCall) : Prop where
  built : Attachments.Built call.attachments
  limited : ∀ t ∈ call.transaction, t.xid.WithinLimits
  parameters : ∀ value ∈ call.parameters, value.Unlegacy
  attachments : ∀ entry ∈ call.attachments.toList, entry.2.Unlegacy

/-- What a call and its target know of each other when what came of the call has been read. A
target that was reached has seen what the caller sent; it was reached if everybody who was asked
granted what they were asked for; and unless somebody broke down, the caller got what the target
answered, if that can be written and has no legacy names. -/
structure Transparent (v : ProtocolVersion) (call : OutgoingCall) (delivery : Delivery)
    (events : List Event) (result : Except ClientError Invocation.Response) : Prop where
  seen : ∀ target answer, ⟨.invoke target, answer⟩ ∈ events →
    target.parameters = call.parameters ∧ target.attachments = call.attachments ∧
      target.transaction = call.transaction
  reached : ∀ response, delivery = .ok response → (∀ event ∈ events, event.succeeds = true) →
    ∃ target outcome, ⟨.invoke target, .reply outcome⟩ ∈ events
  succeeded : ∀ target value b, ⟨.invoke target, .reply (.success value)⟩ ∈ events →
    (∀ q m, ⟨q, .broke m⟩ ∉ events) → value.Unlegacy →
    (Invocation.Response.write (Dialect.offered v) ⟨value, call.attachments⟩).result = .ok b →
    result = .ok ⟨value, call.attachments⟩
  failed : ∀ target e b, ⟨.invoke target, .reply (.exception e)⟩ ∈ events →
    (∀ q m, ⟨q, .broke m⟩ ∉ events) → e.toValue.Unlegacy →
    (e.write (Dialect.offered v)).result = .ok b → result = .error (.remote e)

/-- A service reads what the caller wrote. -/
theorem Arrived.outcome_read {call : OutgoingCall} {a : Accepted} (h : Arrived v call a)
    (hplain : Plain call) :
    Reader.outcome (Invocation.Request.read (Dialect.offered v)
      a.address.method.parameterTypes.length) a.body = .ok (invokeBody call) := by
  have hframed := Invocation.Request.framed_write (d := Dialect.offered v)
    KnownValues.protocolV1_coherent hplain.limited hplain.built.indexed
    (fun value hvalue => (hplain.parameters value hvalue).restored v)
    (fun entry hentry => (hplain.attachments entry hentry).restored v)
    (Emission.result_eq_ok_iff.mp h.body)
  rw [h.address, h.arity]
  exact hframed.whole

/-- A caller reads the result that a service has written. -/
theorem invokeResult_success {call : OutgoingCall} (hplain : Plain call) {c : Context}
    (hc : c.Offers root v) {value : Value} (hvalue : value.Unlegacy) {b : Bytes}
    (hw : (Invocation.Response.write (Dialect.offered v) ⟨value, call.attachments⟩).result = .ok b)
    (request : Request) :
    invokeResult c (.ok
      ((Dispatch.success (Dialect.offered v) value call.attachments).answerProbe request)) =
        .ok ⟨value, call.attachments⟩ := by
  have hframed := Invocation.Response.framed_write (d := Dialect.offered v)
    KnownValues.protocolV1_coherent hplain.built.indexed (hvalue.restored v)
    (fun entry hentry => (hplain.attachments entry hentry).restored v)
    (Emission.result_eq_ok_iff.mp hw)
  have htype := Response.hasType_withBody .ok MediaType.invocationResponse (by simp) b
  have hsuccess : Dispatch.success (Dialect.offered v) value call.attachments =
      .withBody .ok MediaType.invocationResponse b := by
    simp only [Dispatch.success, hw]
  unfold invokeResult
  dsimp only
  rw [hsuccess, Response.status_answerProbe, Response.hasType_answerProbe,
    Response.body_answerProbe, hc.dialect_eq, if_pos ⟨rfl, htype⟩]
  exact congrArg (Except.mapError _) hframed.whole

/-- A caller reads the exception that a service has written. -/
theorem invokeResult_failure {c : Context} (hc : c.Offers root v) {e : RemoteException}
    (he : e.toValue.Unlegacy) {b : Bytes} (hw : (e.write (Dialect.offered v)).result = .ok b)
    (request : Request) :
    invokeResult c (.ok ((Dispatch.failure (Dialect.offered v) e).answerProbe request)) =
      .error (.remote e) := by
  have hread := RemoteException.outcome_read (d := Dialect.offered v)
    KnownValues.protocolV1_coherent (he.restored v) hw
  have hexception := Response.exception?_ofException .internalError hw hread
  unfold invokeResult failure Dispatch.failure
  dsimp only
  rw [Response.status_answerProbe, Response.ofException_status, Response.exception?_answerProbe,
    hc.dialect_eq, hexception, if_neg fun h => nomatch h.1]

/-- Whatever comes of a call, the call and its target know of each other. -/
theorem Came.transparent (hconfig : config.Open) {call : OutgoingCall} {delivery : Delivery}
    {events : List Event} (h : Came config isManaged v call delivery events)
    (hshown : Address.parse call.address.shown = .ok call.address) (hplain : Plain call)
    {c : Context} (hc : c.Offers root v) :
    Transparent v call delivery events (invokeResult c delivery) := by
  cases h with
  | lost e =>
      exact ⟨(fun _ _ hmem => nomatch hmem), (fun _ hok => nomatch hok),
        (fun _ _ _ hmem => nomatch hmem), (fun _ _ _ hmem => nomatch hmem)⟩
  | @answered response _ c' r hexplained =>
      obtain ⟨a, harrived, hexplains⟩ := hexplained hshown
      have hread := harrived.outcome_read hplain
      have hdialect : config.dialect a.peer = Dialect.offered v := by
        rw [hconfig.dialect_eq, harrived.peer]
      rw [← hdialect] at hread
      refine ⟨fun target answer hmem => ?_, fun _ _ hall => hexplains.reached hread hall, ?_, ?_⟩
      · obtain ⟨request, hrequest, before, -, l, imported, rfl, -, -⟩ := hexplains.due hmem
        obtain rfl := Except.ok.inj (hread.symm.trans hrequest)
        exact ⟨rfl, rfl, rfl⟩
      · intro target value b hmem hbroke hvalue hw
        rw [hexplains.responded hread hmem hbroke, hdialect]
        exact invokeResult_success hplain hc hvalue hw _
      · intro target e b hmem hbroke he hw
        rw [hexplains.responded hread hmem hbroke, hdialect]
        exact invokeResult_failure hc he hw _

end Client

end RemoteCall
