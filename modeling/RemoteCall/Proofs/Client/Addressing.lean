import RemoteCall.Proofs.Client.Arrival
import RemoteCall.Proofs.Client.Requests
import RemoteCall.Proofs.Invocation.Address
import RemoteCall.Proofs.Service.Questions

/-!
# Which target a call leads to

A client writes the names of an address into the target of its request as they are, and a target
is cut where a query or a fragment begins. So a call leads to the target that it names, or to none,
exactly when no name contains the sign of either.
-/

namespace RemoteCall

open Exchange Http

namespace Client

variable {σ : Type}

/-- What a call leaves behind is what its request leaves behind, if there is one. -/
theorem invoke_state (transport : Transport σ) (call : OutgoingCall) (c : Context) (s : σ) :
    (invoke transport call c s).2.2 =
      match invokeRequest c call with
      | .error _ => s
      | .ok r => (transport (c.outgoing r) s).2 := by
  unfold invoke Context.exchange
  cases invokeRequest c call with
  | error e => rfl
  | ok r =>
      dsimp only
      rcases transport (c.outgoing r) s with ⟨_ | _, t⟩
      · rfl
      · rfl

/-- Where the request of a call arrives, if it does, the path holds the address as far as it is
shown. The connection may have changed since the request was written. -/
theorem invoke_arrives {root : String} (answersProbes : Bool) {routes : List (String × Service σ)}
    {service : Service σ} (hmount : Router.Mounts routes "/ejb/v1/invoke" service) {c : Context}
    (c' : Context) (hroot : c.root = String.ofList (Loopback.mount root)) {call : OutgoingCall} {r : Request}
    (h : invokeRequest c call = .ok r) (s : σ) :
    (∃ e, Loopback.routed root answersProbes routes (c'.outgoing r) s = (some (.error e), s)) ∨
      ∃ uri, uri.path = call.address.shown ∧
        let arrived := { c'.outgoing r with uri }
        Loopback.routed root answersProbes routes (c'.outgoing r) s =
          (some (.ok (Loopback.announced answersProbes (c'.outgoing r) (service arrived s).1)),
            (service arrived s).2) := by
  obtain ⟨body, uri, -, -, huri, -, rfl⟩ := invokeRequest_eq_ok h
  have hfront : "/ejb/v1/invoke/" = "/ejb/v1/invoke" ++ "/" := by decide
  rw [hfront] at huri
  rcases Loopback.routed_below hmount (by decide) (by decide)
    ⟨'e', _, rfl, by decide⟩ hroot
    (r := c'.outgoing ⟨"POST", uri, Headers.ofList (invokeFields call), body⟩) huri s with
    hlost | harrived
  · exact .inl hlost
  · exact .inr ⟨_, Uri.path_behind_slash none _, harrived⟩

variable {root : String} {answersProbes : Bool}
  {routes : List (String × Service (σ × List Event))} {config : ServiceConfig} {isManaged : Bool}
  {collaborator : (q : Question) → σ → Answer q.Reply × σ} {c : Context}

/-- What is recorded of a call is nothing, or what comes of its request as it was accepted, under a
path that holds the address as far as it is shown. -/
theorem invoke_accepted (answersProbes : Bool)
    (hmount : Router.Mounts routes "/ejb/v1/invoke"
      (Dispatch.service config isManaged (recording collaborator)))
    (hroot : c.root = String.ofList (Loopback.mount root)) (call : OutgoingCall) (s : σ) :
    let events := (invoke (Loopback.routed root answersProbes routes) call c (s, [])).2.2.2
    events = [] ∨ ∃ r uri a response, invokeRequest c call = .ok r ∧
      uri.path = call.address.shown ∧ Dispatch.accept { c.outgoing r with uri } = .ok a ∧
      Dispatch.Explains config isManaged a events response := by
  intro events
  simp only [events, invoke_state]
  cases hr : invokeRequest c call with
  | error e => exact .inl rfl
  | ok r =>
      dsimp only
      rcases invoke_arrives answersProbes hmount c hroot hr (s, []) with
        ⟨e, hlost⟩ | ⟨uri, hpath, harrived⟩
      · rw [hlost]
        exact .inl rfl
      · obtain ⟨response, t, recorded, hserve, hexplains⟩ := Dispatch.service_explains config
          isManaged collaborator { c.outgoing r with uri } s
        rw [harrived, hserve]
        rcases hexplains with ⟨refusal, -, rfl, -⟩ | ⟨a, ha, hexplains⟩
        · exact .inl rfl
        · exact .inr ⟨r, uri, a, response, rfl, hpath, ha, hexplains⟩

/-- What is recorded of a call is nothing, or what comes of a request to the address that is
shown. -/
theorem invoke_explained (answersProbes : Bool)
    (hmount : Router.Mounts routes "/ejb/v1/invoke"
      (Dispatch.service config isManaged (recording collaborator)))
    (hroot : c.root = String.ofList (Loopback.mount root)) (call : OutgoingCall) (s : σ) :
    let events := (invoke (Loopback.routed root answersProbes routes) call c (s, [])).2.2.2
    events = [] ∨ ∃ a response, Address.parse call.address.shown = .ok a.address ∧
      Dispatch.Explains config isManaged a events response := by
  refine (invoke_accepted answersProbes hmount hroot call s).imp_right ?_
  rintro ⟨r, uri, a, response, -, hpath, ha, hexplains⟩
  obtain ⟨-, -, p, hp, rfl⟩ := Dispatch.accept_eq_ok_iff.mp ha
  rw [← hpath]
  exact ⟨_, response, hp, hexplains⟩

/-- The target that is looked up for a call is the one that the cut path of its address names, and
nothing is invoked that was not looked up. That target is the address of the call exactly when no
name in it is cut. -/
theorem located_as_shown
    (hmount : Router.Mounts routes "/ejb/v1/invoke"
      (Dispatch.service config isManaged (recording collaborator)))
    (hroot : c.root = String.ofList (Loopback.mount root)) {call : OutgoingCall}
    (hcarried : Address.parse call.address.render = .ok call.address) (s : σ) :
    let events := (invoke (Loopback.routed root answersProbes routes) call c (s, [])).2.2.2
    (∀ l m answer, ⟨.locate l m, answer⟩ ∈ events →
      ∃ p isHome, Address.parse call.address.shown = .ok p ∧
        (p = call.address ↔ call.address.Unmarked) ∧
        ⟨.isHome p.component p.view, .reply isHome⟩ ∈ events ∧
        l = ⟨p.component, p.view, Dispatch.access isHome p.session⟩ ∧ m = p.method) ∧
    ∀ target answer, ⟨.invoke target, answer⟩ ∈ events →
      ⟨.locate target.locator target.method, .reply (.ok ())⟩ ∈ events := by
  intro events
  rcases invoke_explained answersProbes hmount hroot call s with
    hnone | ⟨a, response, ha, hexplains⟩
  · simp only [events, hnone, List.not_mem_nil, false_implies, implies_true, and_self]
  · refine ⟨fun l m answer hmem => ?_, fun target answer hmem => ?_⟩
    · obtain ⟨request, -, before, hbefore, hm, isHome, hl, hhome⟩ := hexplains.due hmem
      refine ⟨a.address, isHome, ha, ?_, hbefore hhome, hl, hm⟩
      rw [← Address.parse_shown_eq_ok_self_iff hcarried, ha, Except.ok.injEq]
    · obtain ⟨request, -, before, hbefore, l, imported, rfl, hlocated, -⟩ := hexplains.due hmem
      exact hbefore hlocated

/-- The targets that were looked up. -/
def lookedUp (events : List Event) : List (Locator × MethodId) :=
  events.filterMap fun event =>
    match event.question with
    | .locate l m => some (l, m)
    | _ => none

/-- A collaborator of which every target can be had. -/
def obliging (q : Question) (s : Unit) : Answer q.Reply × Unit :=
  (match q with
    | .importBranch _ _ => .reply (.ok 0)
    | .isHome _ _ => .reply false
    | .locate _ _ => .reply (.ok ())
    | .register _ => .reply ()
    | .invoke _ => .reply (.success .null)
    | .acknowledge _ => .reply ()
    | .release => .reply (), s)

/-- A call of a method without parameters. -/
def callOf (method : String) : OutgoingCall where
  address := ⟨⟨"shop", "orders", "", "Cart"⟩, some [1, 2], "CartHome", ⟨method, []⟩⟩
  parameters := []
  attachments := .empty
  transaction := none
  requestId := none
  affinity := none

/-- A call without such a name leads to the target that it names. -/
theorem located_as_shown_in_session :
    let invocations := Dispatch.service .standard true (recording obliging)
    let c := Context.make "http://localhost:8080/services/" .protocolV1 .v2
    let events := (invoke (Loopback.routed "http://localhost:8080/services/" true
      [("/ejb/v1/invoke", invocations)]) (callOf "clear") c ((), [])).2.2.2
    lookedUp events =
      [(⟨⟨"shop", "orders", "", "Cart"⟩, "CartHome", .stateful [1, 2]⟩, ⟨"clear", []⟩)] ∧
    ∀ l m answer, ⟨.locate l m, answer⟩ ∈ events →
      ∃ p isHome, Address.parse (callOf "clear").address.shown = .ok p ∧
        (p = (callOf "clear").address ↔ (callOf "clear").address.Unmarked) ∧
        ⟨.isHome p.component p.view, .reply isHome⟩ ∈ events ∧
        l = ⟨p.component, p.view, Dispatch.access isHome p.session⟩ ∧ m = p.method := by
  intro invocations c events
  have hmount : Router.Mounts [("/ejb/v1/invoke", invocations)] "/ejb/v1/invoke" invocations :=
    ⟨List.mem_singleton_self _, fun route hroute _ => List.mem_singleton.mp hroute⟩
  refine ⟨by decide +kernel, ?_⟩
  exact (located_as_shown hmount rfl (by decide) ()).1

/-- A method whose name has a fragment is cut, and the call leads to another method. -/
theorem another_method_located :
    let invocations := Dispatch.service .standard true (recording obliging)
    let c := Context.make "http://localhost:8080" .protocolV1 .v2
    let call := callOf "remove#all"
    Address.parse call.address.render = .ok call.address ∧
    lookedUp (invoke (Loopback.routed "http://localhost:8080" true
      [("/ejb/v1/invoke", invocations)]) call c ((), [])).2.2.2 =
      [(⟨⟨"shop", "orders", "", "Cart"⟩, "CartHome", .stateful [1, 2]⟩, ⟨"remove", []⟩)] ∧
    call.address.method ≠ ⟨"remove", []⟩ := by
  decide +kernel

end Client

end RemoteCall
