import RemoteCall.Proofs.Client.Addressing
import RemoteCall.Proofs.Client.CancelPath
import RemoteCall.Proofs.Service.Cancelling
import RemoteCall.Service.Scenario

/-!
# Which call a cancel request leads to

A call carries its number in a field, and a request to cancel it carries the number in its path;
both carry the affinity in the same cookie. So the service looks for the identifier under which the
call is registered exactly when the path gives the number back as it was written.
-/

namespace RemoteCall

open Http Http.Uri

namespace Client

/-- Header fields are those of a call, but for the one that tells a version. -/
def SentFor (call : OutgoingCall) (h : Headers) : Prop :=
  ∀ name, Headers.canonical Connection.header ≠ Headers.canonical name →
    h.values name = (Headers.ofList (invokeFields call)).values name

section Identifier

variable {call : OutgoingCall} {h : Headers}

/-- What is read as the affinity of a call is what its cookie tells. -/
theorem cookie?_of_sent (hsent : SentFor call h) :
    h.cookie? Http.sessionCookie =
      (Headers.ofList (call.affinity.toList.map affinityField)).cookie? Http.sessionCookie :=
  Headers.cookie?_eq_of_values_eq
    ((hsent _ (by decide)).trans (values_invokeFields_cookie call)) _

/-- The identifier of a call is made of its number, if that can be read, and of what its cookie
tells. -/
theorem ofHeaders?_of_sent (hsent : SentFor call h) :
    InvocationId.ofHeaders? h =
      (call.requestId.filter fun id => Headers.isReadable id).bind fun id =>
        ((Headers.ofList (call.affinity.toList.map affinityField)).cookie?
          Http.sessionCookie).map fun affinity => ⟨id, affinity⟩ := by
  have hnumber : h.get? Http.invocationIdHeader =
      call.requestId.filter fun id => Headers.isReadable id := by
    rw [Headers.get?, hsent _ (by decide), values_invokeFields_id]
    cases call.requestId <;> rfl
  rw [InvocationId.ofHeaders?, hnumber, cookie?_of_sent hsent]
  cases (Headers.ofList (call.affinity.toList.map affinityField)).cookie? Http.sessionCookie <;> rfl

/-- The identifier that a call with a number and an affinity carries. -/
theorem ofHeaders?_invokeFields {id affinity : String} (hid : call.requestId = some id)
    (haffinity : call.affinity = some affinity) {key : InvocationId} (hsent : SentFor call h)
    (hkey : InvocationId.ofHeaders? h = some key) :
    key.requestId = id ∧
      (Headers.ofList [affinityField affinity]).cookie? Http.sessionCookie = some key.affinity := by
  rw [ofHeaders?_of_sent hsent, hid, haffinity, Option.bind_eq_some_iff] at hkey
  obtain ⟨found, hfound, hmap⟩ := hkey
  obtain ⟨cookie, hcookie, rfl⟩ := Option.map_eq_some_iff.mp hmap
  exact ⟨(Option.some.inj (Option.filter_eq_some_iff.mp hfound).1).symm, hcookie⟩

end Identifier

/-- The order that a service reads from a cancel request, for a given affinity. -/
def sought? (order : OutgoingCancel) (affinity : String) : Option Cancel.Order :=
  order.read?.map fun (id, isAggressive) => ⟨⟨id, affinity⟩, isAggressive⟩

/-- What a service reads from a cancel request in which it finds a given affinity, or none. -/
def received (order : OutgoingCancel) (affinity? : Option String) :
    Except Http.Status Cancel.Order :=
  match order.read?, affinity? with
  | none, _ => .error .notFound
  | some _, none => .error .badRequest
  | some (id, isAggressive), some affinity => .ok ⟨⟨id, affinity⟩, isAggressive⟩

/-- A cancel request as it arrives is read by its path and its cookie. -/
theorem ofRequest_received {order : OutgoingCancel} {r : Request} (hmethod : r.method = "DELETE")
    (hpath : r.uri = behind none ('/' :: Text.below order.places order.numbered)) :
    Cancel.Order.ofRequest r = received order (r.headers.cookie? Http.sessionCookie) := by
  have hshown : r.uri.path.toList = order.shown := by
    rw [hpath, path_behind_slash, String.toList_ofList]
    rfl
  unfold Cancel.Order.ofRequest received OutgoingCancel.read?
  rw [if_neg (not_not_intro hmethod), hshown]
  cases Cancel.ofPath? order.shown with
  | none => rfl
  | some found =>
      cases r.headers.cookie? Http.sessionCookie with
      | none => rfl
      | some affinity => rfl

/-- A cancel request as it arrives gives the order that its path and its cookie give. -/
theorem ofRequest_arrived {order : OutgoingCancel} {affinity : String} {r : Request}
    (hmethod : r.method = "DELETE")
    (hpath : r.uri = behind none ('/' :: Text.below order.places order.numbered))
    (hcookie : r.headers.cookie? Http.sessionCookie = some affinity) :
    Cancel.Order.ofRequest r = (sought? order affinity).elim (.error .notFound) .ok := by
  rw [ofRequest_received hmethod hpath, hcookie]
  unfold received sought?
  cases order.read? with
  | none => rfl
  | some found => rfl

/-- Whatever a service answers, a client takes it for the outcome that it tells. -/
theorem cancelResult_bare (c : Context) (outcome : Cancel.Outcome) (answersProbes : Bool)
    (r : Request) :
    cancelResult c (.ok (Loopback.announced answersProbes r (.bare outcome.status))) =
      .ok outcome := by
  have hstatus : (Loopback.announced answersProbes r (.bare outcome.status)).status =
      outcome.status := by
    unfold Loopback.announced
    split
    · rw [Response.status_answerProbe]
      rfl
    · rfl
  unfold cancelResult
  dsimp only
  rw [hstatus]
  cases outcome <;> rfl

variable {root : String} {setup : Setup} {log : List Request} {h : Host} {c : Context}

/-- Cancel requests are for those who are mounted for them. -/
theorem select_cancel {uri : Uri} {fields : List (String × String)} {order : OutgoingCancel}
    (hroot : c.root = String.ofList (Loopback.mount root))
    (huri : Uri.parse (c.target (cancelPath order)) = .ok uri) {stripped : Request}
    (hstrip : Loopback.strip root (c.outgoing ⟨"DELETE", uri, Headers.ofList fields, []⟩) =
      .ok stripped) :
    Host.routes.select stripped = .ok (.cancellations,
      { c.outgoing ⟨"DELETE", uri, Headers.ofList fields, []⟩ with
        uri := behind none ('/' :: Text.below order.places order.numbered) }) := by
  have hmount : Router.Mounts [("/ejb/v1/invoke", Part.invocations),
      ("/ejb/v1/cancel", Part.cancellations), ("/txn/v1", Part.transactions)]
      "/ejb/v1/cancel" Part.cancellations := by
    decide
  rw [order.cancelPath_eq] at huri
  have hselect := (Loopback.select_below hmount (by decide) (by decide)
    ⟨'e', _, rfl, by decide⟩ hroot
    (r := c.outgoing ⟨"DELETE", uri, Headers.ofList fields, []⟩) huri hstrip).2
  rwa [String.toList_ofList] at hselect

/-- A cancel request does not get through, or the service carries out what it reads from it. -/
theorem cancel_carried_out (ran : Host.Ran setup log h)
    (hroot : c.root = String.ofList (Loopback.mount root)) {order : OutgoingCancel}
    {affinity : String}
    (hcookie : (Headers.ofList [affinityField order.affinity]).cookie? Http.sessionCookie =
      some affinity) :
    (∃ e, cancel (Host.transport root) order c h = (some (.error e), c, h)) ∨
      ∃ outcome c' h', cancel (Host.transport root) order c h = (some (.ok outcome), c', h') ∧
        Host.Cancelled h (sought? order affinity) outcome h' := by
  cases hr : cancelRequest c order with
  | error e =>
      refine .inl ⟨e, ?_⟩
      simp only [cancel, hr]
  | ok r =>
      cases hstrip : Loopback.strip root (c.outgoing r) with
      | error e =>
          refine .inl ⟨.transport e, ?_⟩
          simp only [cancel, hr, Context.exchange, Host.transport, hstrip, Context.afterExchange,
            Option.map_some, cancelResult]
      | ok stripped =>
          obtain ⟨uri, huri, rfl⟩ := cancelRequest_eq_ok hr
          have hother : Headers.canonical Connection.header ≠ Headers.canonical "cookie" := by
            decide
          have hvalues := c.values_outgoing hother
            ⟨"DELETE", uri, Headers.ofList [affinityField order.affinity], []⟩
          rw [← Headers.cookie?_eq_of_values_eq hvalues] at hcookie
          obtain ⟨outcome, hcancelled, hresponse⟩ := Host.submit_cancel ran
            (select_cancel hroot huri hstrip) (ofRequest_arrived rfl rfl hcookie)
          let response := Loopback.announced (h.submit stripped).2.setup.answersProbes stripped
            (.bare outcome.status)
          have hannounced : (h.submit stripped).2.response? (h.submit stripped).1 stripped =
              some response := by
            rw [Host.response?, hresponse]
            rfl
          refine .inr ⟨outcome, c.afterExchange c.connection.isProbing (.ok response), _, ?_,
            hcancelled⟩
          simp only [cancel, hr, Context.exchange, Host.transport, hstrip, hannounced, response,
            Option.map_some, cancelResult_bare]

/-- Of a call that is registered, a cancel request with its number and its affinity does not get
through, or the service looks for the identifier that the path gives. That is the identifier of the
call exactly when the order is plain, and then the call is found, and it alone is marked. -/
theorem cancel_finds_registered (ran : Host.Ran setup log h)
    (hroot : c.root = String.ofList (Loopback.mount root)) {order : OutgoingCancel}
    (haddress : Address.parse order.address.render = .ok order.address)
    {call : OutgoingCall} (hid : call.requestId = some order.requestId)
    (haffinity : call.affinity = some order.affinity) {c₀ : Context} {r arrived : Request}
    {t : Ticket} {key : InvocationId} (hcall : invokeRequest c₀ call = .ok r)
    (hsent : Loopback.strip root (c₀.outgoing r) = .ok arrived) (hlogged : log[t]? = some arrived)
    (hregistered : h.board.registry.get? key = some t) :
    InvocationId.ofHeaders? arrived.headers = some key ∧
    ((∃ e, cancel (Host.transport root) order c h = (some (.error e), c, h)) ∨
      ∃ outcome c' h', cancel (Host.transport root) order c h = (some (.ok outcome), c', h') ∧
        Host.Cancelled h (sought? order key.affinity) outcome h' ∧
        (sought? order key.affinity = some ⟨key, order.isAggressive⟩ ↔ order.Plain) ∧
        (order.Plain → outcome ≠ .notFound ∧ ∀ u, h'.board.requested u =
          if u = t then (h.board.requested t).max (.ofRequest order.isAggressive)
          else h.board.requested u)) := by
  have hkey := ran.registered hlogged hregistered
  refine ⟨hkey, ?_⟩
  obtain ⟨body, uri, -, -, -, -, rfl⟩ := invokeRequest_eq_ok hcall
  have hheaders : ∀ name, Headers.canonical Connection.header ≠ Headers.canonical name →
      arrived.headers.values name = (Headers.ofList (invokeFields call)).values name := by
    intro name hname
    rw [Loopback.headers_of_strip hsent, Context.values_outgoing hname]
  obtain ⟨hnumber, hcookie⟩ := ofHeaders?_invokeFields hid haffinity hheaders hkey
  have hsought : sought? order key.affinity = some ⟨key, order.isAggressive⟩ ↔ order.Plain := by
    rw [← OutgoingCancel.read?_eq_some_iff (OutgoingCancel.places_no_slash haddress), ← hnumber]
    obtain ⟨number, affinity⟩ := key
    unfold sought?
    cases order.read? with
    | none => simp
    | some found =>
        obtain ⟨id, isAggressive⟩ := found
        simp
  rcases cancel_carried_out ran hroot hcookie with hlost | ⟨outcome, c', h', hcancel, hcancelled⟩
  · exact .inl hlost
  · refine .inr ⟨outcome, c', h', hcancel, hcancelled, hsought, fun hplain => ?_⟩
    rw [hsought.mpr hplain] at hcancelled
    exact hcancelled.of_registered hregistered

/-- A call of a client is nothing to the service, or one more request. -/
theorem invoke_submits (root : String) (call : OutgoingCall) (c : Context) (h : Host) :
    (invoke (Host.transport root) call c h).2.2 = h ∨
      ∃ r arrived, invokeRequest c call = .ok r ∧
        Loopback.strip root (c.outgoing r) = .ok arrived ∧
        (invoke (Host.transport root) call c h).2.2 = (h.submit arrived).2 := by
  rw [invoke_state]
  cases invokeRequest c call with
  | error e => exact .inl rfl
  | ok r =>
      cases hstrip : Loopback.strip root (c.outgoing r) with
      | error e =>
          refine .inl ?_
          simp only [Host.transport, hstrip]
      | ok arrived =>
          refine .inr ⟨r, arrived, rfl, hstrip, ?_⟩
          simp only [Host.transport, hstrip]

/-- A service with a component whose target waits. -/
def waitingSetup : Setup where
  config := .standard
  deployment := ⟨[⟨"Cart", .park false, [], none, none, none⟩], false⟩
  isManaged := true
  answersProbes := true

/-- A call of that component with a number. -/
def waitingCall (id : String) : OutgoingCall where
  address := ⟨⟨"shop", "orders", "", "Cart"⟩, none, "CartHome", ⟨"get", []⟩⟩
  parameters := []
  attachments := .empty
  transaction := none
  requestId := some id
  affinity := some "n1"

/-- The client that makes the call. -/
def caller : Context :=
  .make "http://localhost" .protocolV1 .v2

/-- A service after that call. -/
def afterCall (id : String) (h : Host) : Host :=
  (invoke (Host.transport "http://localhost") (waitingCall id) caller h).2.2

/-- A request to cancel that call, even though it is running. -/
def cancelOf (id : String) : OutgoingCancel :=
  ⟨(waitingCall id).address, id, "n1", true⟩

/-- A call with an ordinary number waits until it is cancelled. -/
theorem cancel_finds_registered_waiting :
    (afterCall "7" (.start waitingSetup)).board.registry.get? ⟨"7", "n1"⟩ = some 0 ∧
    ∃ c' h', cancel (Host.transport "http://localhost") (cancelOf "7") caller
        (afterCall "7" (.start waitingSetup)) = (some (.ok .acknowledged), c', h') ∧
      ∀ u, h'.board.requested u =
        if u = 0 then ((afterCall "7" (.start waitingSetup)).board.requested 0).max
          (.ofRequest true)
        else (afterCall "7" (.start waitingSetup)).board.requested u := by
  have hclosed :
      (afterCall "7" (.start waitingSetup)).board.registry.get? ⟨"7", "n1"⟩ = some 0 ∧
      (cancel (Host.transport "http://localhost") (cancelOf "7") caller
        (afterCall "7" (.start waitingSetup))).1.bind Except.toOption = some .acknowledged := by
    decide +kernel
  obtain ⟨hregistered, hresult⟩ := hclosed
  refine ⟨hregistered, ?_⟩
  have haddress : Address.parse (cancelOf "7").address.render = .ok (cancelOf "7").address := by
    decide
  have hplain : (cancelOf "7").Plain := ⟨by decide, by decide, by decide, by decide⟩
  rcases invoke_submits "http://localhost" (waitingCall "7") caller (.start waitingSetup) with
    hnothing | ⟨r, arrived, hr, hsent, hsubmitted⟩
  · rw [afterCall, hnothing] at hregistered
    cases hregistered
  · rw [← afterCall] at hsubmitted
    have ran : Host.Ran waitingSetup [arrived] (afterCall "7" (.start waitingSetup)) := by
      rw [hsubmitted]
      exact (Host.Ran.start fun _ => 0).submit arrived
    obtain ⟨-, ⟨e, hlost⟩ | ⟨outcome, c', h', hcancel, -, -, hmarks⟩⟩ :=
      cancel_finds_registered ran (c := caller) rfl haddress rfl rfl hr hsent rfl hregistered
    · rw [hlost] at hresult
      cases hresult
    · rw [hcancel] at hresult
      obtain rfl := Option.some.inj hresult
      exact ⟨c', h', hcancel, (hmarks hplain).2⟩

/-- A number with a slash is not found, unless the part of it that is read is the number of another
call, which is cancelled in its place. -/
theorem another_call_cancelled :
    let alone := afterCall "a/b" (.start waitingSetup)
    let both := afterCall "a" alone
    let done := cancel (Host.transport "http://localhost") (cancelOf "a/b") caller both
    Address.parse (cancelOf "a/b").address.render = .ok (cancelOf "a/b").address ∧
    alone.board.registry.get? ⟨"a/b", "n1"⟩ = some 0 ∧
    (cancel (Host.transport "http://localhost") (cancelOf "a/b") caller alone).1.bind
      Except.toOption = some .notFound ∧
    both.board.registry.get? ⟨"a/b", "n1"⟩ = some 0 ∧
    both.board.registry.get? ⟨"a", "n1"⟩ = some 1 ∧
    done.2.2.board.requested 0 = .nothing ∧ done.2.2.board.requested 1 = .polite := by
  decide +kernel

end Client

end RemoteCall
