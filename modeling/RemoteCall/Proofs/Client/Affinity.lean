import RemoteCall.Proofs.Client.Cancelling
import RemoteCall.Proofs.Text.Trimmed

/-!
# Which session affinities arrive as they were sent

A client puts a session affinity into a cookie as it is. A service takes the field apart at its
semicolons, trims the parts and takes the quotes off the value, and a field with other than ASCII
characters it does not read at all. So an affinity arrives as it was sent exactly when nothing of
this changes it. The target of a call, the identifier of the call and a request to cancel it see
the same affinity, be it unchanged, changed or lost.
-/

namespace RemoteCall

open Exchange Http

namespace Http

/-- What a service finds of a value at the end of a cookie field: neither what follows a semicolon,
nor white space at the end, nor the quotes around what is left. -/
def worn (value : List Char) : List Char :=
  Text.strip (· == '"') (Text.dropTrailing Text.isBlank (value.takeWhile (· != ';')))

/-- A value is found as it was written if no character at its ends is taken off and it has no
semicolon. -/
theorem worn_eq_self_iff {value : List Char} :
    worn value = value ↔
      ';' ∉ value ∧ (∀ c ∈ value.getLast?, Text.isBlank c = false) ∧
        value.head? ≠ some '"' ∧ value.getLast? ≠ some '"' := by
  have hquote : ∀ found : Option Char, (∀ c ∈ found, (c == '"') = false) ↔ found ≠ some '"' := by
    intro found
    cases found <;> simp
  have hwhole : value.takeWhile (· != ';') = value ↔ ';' ∉ value := by
    simp only [List.takeWhile_eq_self_iff, bne_iff_ne, ne_eq, List.forall_mem_ne']
  rw [← hwhole, ← Text.dropTrailing_eq_self_iff, ← hquote, ← hquote, ← Text.strip_eq_self_iff]
  let part := value.takeWhile (· != ';')
  let closed := Text.dropTrailing Text.isBlank part
  -- Each step gives a part of what it is given, so none of them took anything if all is left.
  have hpart : part <:+: value := (List.takeWhile_prefix _).isInfix
  have hclosed : closed <:+: part := (Text.isPrefix_dropTrailing _ _).isInfix
  constructor
  · intro h
    have hle : value.length ≤ closed.length := by
      have hstripped := (Text.isInfix_strip (· == '"') closed).length_le
      rwa [show Text.strip (· == '"') closed = value from h] at hstripped
    have hfirst : value.takeWhile (· != ';') = value :=
      hpart.eq_of_length_le (hle.trans hclosed.length_le)
    have hsecond : Text.dropTrailing Text.isBlank (value.takeWhile (· != ';')) = value :=
      (hclosed.trans hpart).eq_of_length_le hle
    have hthird : worn value = value := h
    rw [worn, hsecond] at hthird
    rw [hfirst] at hsecond
    exact ⟨hfirst, hsecond, hthird⟩
  · rintro ⟨hfirst, hsecond, hthird⟩
    rw [worn, hfirst, hsecond, hthird]

/-- Whether a text has no other than ASCII characters. -/
def isAscii (cs : List Char) : Bool :=
  cs.all fun c => c.toNat < 128

theorem isAscii_iff {cs : List Char} : isAscii cs = true ↔ ∀ c ∈ cs, c.toNat < 128 := by
  simp only [isAscii, List.all_eq_true, decide_eq_true_eq]

namespace Headers

/-- Whether a text stays whole as the name of a cookie. -/
def isCookieName (cs : List Char) : Bool :=
  cs.all fun c => c != ';' && c != '=' && !Text.isBlank c

/-- A cookie at the front of a field is found under its name. -/
theorem cookieIn?_front {name : List Char} (h : isCookieName name = true) (value : List Char) :
    cookieIn? name (name ++ '=' :: value) = some (String.ofList (worn value)) := by
  have hname : ∀ c ∈ name, c ≠ ';' ∧ c ≠ '=' ∧ Text.isBlank c = false := by
    simpa only [isCookieName, List.all_eq_true, Bool.and_eq_true, bne_iff_ne, Bool.not_eq_true',
      and_assoc] using h
  have hfirst : (name ++ '=' :: value).takeWhile (· != ';') =
      name ++ '=' :: value.takeWhile (· != ';') := by
    have hpast : ∀ c ∈ name, (c != ';') = true := fun c hc => bne_iff_ne.mpr (hname c hc).1
    rw [List.takeWhile_append_of_pos hpast, List.takeWhile_cons_of_pos (by decide)]
  have htrimmed : ∀ rest, Text.trim (name ++ '=' :: rest) =
      name ++ '=' :: Text.dropTrailing Text.isBlank rest := by
    intro rest
    have hfront : (name ++ '=' :: rest).dropWhile Text.isBlank = name ++ '=' :: rest := by
      refine Text.dropWhile_eq_self_iff.mpr fun c hc => ?_
      cases name with
      | nil => cases hc; decide
      | cons first name => cases hc; exact (hname _ List.mem_cons_self).2.2
    have hkept : ∀ c ∈ (name ++ ['=']).getLast?, Text.isBlank c = false := by
      rw [List.getLast?_concat]
      rintro c ⟨⟩
      decide
    have hback := Text.dropTrailing_append hkept rest
    rw [List.append_assoc, List.append_assoc] at hback
    rw [Text.trim, Text.strip, hfront]
    exact hback
  have hcut : '=' ∉ name := fun h => (hname _ h).2.1 rfl
  obtain ⟨more, hmore⟩ := Text.split_eq_takeWhile_cons ';' (name ++ '=' :: value)
  simp only [cookieIn?, hmore, hfirst, List.findSome?_cons, htrimmed, Text.cut_append hcut, if_pos]
  rfl

/-- A value of a field is readable if it is in ASCII. -/
theorem isReadable_of_isValue {value : String} (h : isValue value = true) :
    isReadable value = isAscii value.toList := by
  refine Bool.eq_iff_iff.mpr (List.all_eq_true.trans ?_)
  refine (forall₂_congr fun c hc => ?_).trans List.all_eq_true.symm
  have hvalue := List.all_eq_true.mp h c hc
  simp only [Bool.or_eq_true, beq_iff_eq, Bool.and_eq_true, decide_eq_true_eq,
    bne_iff_ne] at hvalue ⊢
  have htab : '\t'.toNat = 9 := rfl
  constructor
  · rintro (rfl | h)
    · decide
    · omega
  · exact fun h => hvalue.imp_right fun _ => by omega

end Headers

end Http

/-- The affinity that a service finds in the cookie that a client makes of an affinity. -/
def affinitySeen? (affinity : String) : Option String :=
  if isAscii affinity.toList then some (String.ofList (worn affinity.toList)) else none

/-- Nothing of an affinity changes on its way in a cookie. -/
structure Intact (affinity : String) : Prop where
  ascii : ∀ c ∈ affinity.toList, c.toNat < 128
  whole : ';' ∉ affinity.toList
  closed : ∀ c ∈ affinity.toList.getLast?, Text.isBlank c = false
  unquoted_front : affinity.toList.head? ≠ some '"'
  unquoted_back : affinity.toList.getLast? ≠ some '"'

theorem affinitySeen?_eq_some_self_iff {affinity : String} :
    affinitySeen? affinity = some affinity ↔ Intact affinity := by
  rw [affinitySeen?, Option.ite_none_right_eq_some, Option.some.injEq, ← String.toList_inj,
    String.toList_ofList, worn_eq_self_iff, isAscii_iff]
  exact ⟨fun ⟨ascii, whole, closed, front, back⟩ => ⟨ascii, whole, closed, front, back⟩,
    fun h => ⟨h.ascii, h.whole, h.closed, h.unquoted_front, h.unquoted_back⟩⟩

/-- The identifier that a service finds in a call. -/
def OutgoingCall.identifierSeen? (call : OutgoingCall) : Option InvocationId :=
  (call.requestId.filter fun id => Headers.isReadable id).bind fun id =>
    (call.affinity.bind affinitySeen?).map fun affinity => ⟨id, affinity⟩

namespace Client

/-- A client's cookie tells an affinity as far as a service sees it. -/
theorem cookie?_affinityField {affinity : String} {field : String × String}
    (h : cookieField affinity = .ok field) :
    (Headers.ofList [affinityField affinity]).cookie? Http.sessionCookie =
      affinitySeen? affinity := by
  have hvalue := (cookieField_eq_ok_iff.mp h).1
  have hvalues : (Headers.ofList [affinityField affinity]).values "cookie" =
      [(affinityField affinity).2] := rfl
  have htext : (affinityField affinity).2.toList =
      Http.sessionCookie.toList ++ '=' :: affinity.toList := by
    simp [affinityField]
  have hname : Headers.isCookieName Http.sessionCookie.toList = true := by decide
  have hreadable : Headers.isReadable (affinityField affinity).2 = isAscii affinity.toList := by
    have hfront : isAscii (Http.sessionCookie.toList ++ ['=']) = true := by decide
    rw [Headers.isReadable_of_isValue hvalue, htext, List.append_cons, isAscii, List.all_append]
    exact (congrArg (· && isAscii affinity.toList) hfront).trans (Bool.true_and _)
  unfold Headers.cookie? affinitySeen?
  dsimp only
  rw [hvalues, ← hreadable]
  split
  · next hascii =>
    rw [List.filter_cons_of_pos hascii, List.findSome?_cons, htext, Headers.cookieIn?_front hname]
  · next hother =>
    rw [List.filter_cons_of_neg hother]
    rfl

/-- An affinity keeps a call from being sent only if it makes no cookie. -/
theorem exists_invokeRequest_iff {c : Context} {call : OutgoingCall} {affinity : String}
    (haffinity : call.affinity = some affinity) :
    (∃ r, invokeRequest c call = .ok r) ↔
      (∃ field, cookieField affinity = .ok field) ∧
        ∃ r, invokeRequest c { call with affinity := none } = .ok r := by
  have hfields : invokeFields call =
      invokeFields { call with affinity := none } ++ [affinityField affinity] := by
    rw [invokeFields, invokeFields, haffinity, Option.toList_none, List.map_nil, List.append_nil]
    rfl
  constructor
  · rintro ⟨r, hr⟩
    obtain ⟨body, uri, harity, hbody, huri, hvalues, -⟩ := invokeRequest_eq_ok_iff.mp hr
    rw [hfields, List.forall_mem_append, List.forall_mem_singleton] at hvalues
    exact ⟨⟨_, cookieField_eq_ok_iff.mpr ⟨hvalues.2, rfl⟩⟩, _,
      invokeRequest_eq_ok_iff.mpr ⟨body, uri, harity, hbody, huri, hvalues.1, rfl⟩⟩
  · rintro ⟨⟨field, hfield⟩, r, hr⟩
    obtain ⟨body, uri, harity, hbody, huri, hvalues, -⟩ := invokeRequest_eq_ok_iff.mp hr
    have hcookie := (cookieField_eq_ok_iff.mp hfield).1
    refine ⟨_, invokeRequest_eq_ok_iff.mpr ⟨body, uri, harity, hbody, huri, ?_, rfl⟩⟩
    rw [hfields, List.forall_mem_append, List.forall_mem_singleton]
    exact ⟨hvalues, hcookie⟩

/-- A call that arrives is accepted with the affinity and the identifier that are seen of it. -/
theorem accept_of_sent {c c' : Context} {call : OutgoingCall} {r : Request} {uri : Uri}
    {address : Address} (hr : invokeRequest c call = .ok r)
    (hpath : Address.parse uri.path = .ok address) :
    Dispatch.accept { c'.outgoing r with uri } = .ok ⟨address, c'.connection.current,
      call.identifierSeen?, call.affinity.bind affinitySeen?, r.body⟩ := by
  obtain ⟨body, target, -, -, -, hvalues, rfl⟩ := invokeRequest_eq_ok hr
  have hsent : SentFor call
      (c'.outgoing ⟨"POST", target, Headers.ofList (invokeFields call), body⟩).headers :=
    fun name hname => c'.values_outgoing hname _
  have hcookie : (Headers.ofList (call.affinity.toList.map affinityField)).cookie?
      Http.sessionCookie = call.affinity.bind affinitySeen? := by
    cases haffinity : call.affinity with
    | none => rfl
    | some affinity =>
        refine cookie?_affinityField (cookieField_eq_ok_iff.mpr ⟨hvalues _ ?_, rfl⟩)
        rw [invokeFields, haffinity]
        exact List.mem_append_right _ (List.mem_singleton_self _)
  have hidentifier := ofHeaders?_of_sent hsent
  rw [hcookie] at hidentifier
  refine Dispatch.accept_eq_ok_iff.mpr
    ⟨rfl, expect_invocation call c' target body, address, hpath, ?_⟩
  rw [OutgoingCall.identifierSeen?, ← hidentifier, ← hcookie, ← cookie?_of_sent hsent,
    ← c'.peerVersion_outgoing ⟨"POST", target, Headers.ofList (invokeFields call), body⟩]
  rfl

/-- A cancel request that gets through is read with the affinity that is seen of it. -/
theorem cancel_received {root : String} {c : Context}
    (hroot : c.root = String.ofList (Loopback.mount root)) {order : OutgoingCancel}
    {r stripped : Request} (hr : cancelRequest c order = .ok r)
    (hstrip : Loopback.strip root (c.outgoing r) = .ok stripped) :
    ∃ arrived, Host.routes.select stripped = .ok (.cancellations, arrived) ∧
      Cancel.Order.ofRequest arrived = received order (affinitySeen? order.affinity) := by
  obtain ⟨field, hfield, -⟩ := bind_eq_ok_iff.mp hr
  obtain ⟨uri, huri, rfl⟩ := cancelRequest_eq_ok hr
  refine ⟨_, select_cancel hroot huri hstrip, ?_⟩
  have hother : Headers.canonical Connection.header ≠ Headers.canonical "cookie" := by decide
  have hvalues := c.values_outgoing hother
    ⟨"DELETE", uri, Headers.ofList [affinityField order.affinity], []⟩
  rw [ofRequest_received rfl rfl, ← cookie?_affinityField hfield,
    ← Headers.cookie?_eq_of_values_eq hvalues]

variable {σ : Type} {root : String} {answersProbes : Bool}
  {routes : List (String × Service (σ × List Event))} {config : ServiceConfig} {isManaged : Bool}
  {collaborator : (q : Question) → σ → Answer q.Reply × σ} {c : Context}

/-- An affinity that makes a cookie keeps no call from being sent, and the call arrives with what is
found in that cookie. So its target sees the affinity exactly if that is one that stays intact. In
any case the target, the identifier of the call and a request to cancel it go by the same one. -/
theorem affinity_seen_iff_intact
    (hmount : Router.Mounts routes "/ejb/v1/invoke"
      (Dispatch.service config isManaged (recording collaborator)))
    (hroot : c.root = String.ofList (Loopback.mount root)) (affinity : String) :
    (∀ field, cookieField affinity = .ok field →
      (Headers.ofList [field]).cookie? Http.sessionCookie = affinitySeen? affinity) ∧
    (∀ call : OutgoingCall, call.affinity = some affinity →
      ((∃ r, invokeRequest c call = .ok r) ↔ (∃ field, cookieField affinity = .ok field) ∧
        ∃ r, invokeRequest c { call with affinity := none } = .ok r) ∧
      (∀ r uri address, invokeRequest c call = .ok r → Address.parse uri.path = .ok address →
        Dispatch.accept { c.outgoing r with uri } = .ok ⟨address, c.connection.current,
          call.identifierSeen?, affinitySeen? affinity, r.body⟩) ∧
      ∀ s : σ,
        let events := (invoke (Loopback.routed root answersProbes routes) call c (s, [])).2.2.2
        (∀ target answer, ⟨.invoke target, answer⟩ ∈ events →
          (target.affinity = some affinity ↔ Intact affinity) ∧
          target.affinity = affinitySeen? affinity ∧ target.identifier = call.identifierSeen?) ∧
        ∀ id answer, ⟨.register id, answer⟩ ∈ events → call.identifierSeen? = some id) ∧
    ∀ order : OutgoingCancel, order.affinity = affinity → ∀ r stripped,
      cancelRequest c order = .ok r → Loopback.strip root (c.outgoing r) = .ok stripped →
      ∃ arrived, Host.routes.select stripped = .ok (.cancellations, arrived) ∧
        Cancel.Order.ofRequest arrived = received order (affinitySeen? affinity) := by
  refine ⟨fun field hfield => ?_,
    fun call haffinity => ⟨exists_invokeRequest_iff haffinity, ?_, ?_⟩, ?_⟩
  · rw [(cookieField_eq_ok_iff.mp hfield).2]
    exact cookie?_affinityField hfield
  · intro r uri address hr hpath
    rw [accept_of_sent hr hpath, haffinity]
    rfl
  · intro s events
    rcases invoke_accepted answersProbes hmount hroot call s with
      hnone | ⟨r, uri, a, response, hr, -, ha, hexplains⟩
    · simp only [events, hnone, List.not_mem_nil, false_implies, implies_true, and_self]
    · obtain ⟨-, -, address, hpath, -⟩ := Dispatch.accept_eq_ok_iff.mp ha
      rw [accept_of_sent hr hpath, haffinity] at ha
      obtain rfl := Except.ok.inj ha
      refine ⟨fun target answer hmem => ?_, fun id answer hmem => ?_⟩
      · obtain ⟨request, -, before, -, l, imported, rfl, -⟩ := hexplains.due hmem
        exact ⟨affinitySeen?_eq_some_self_iff, rfl, rfl⟩
      · obtain ⟨request, -, before, -, hid⟩ := hexplains.due hmem
        exact hid
  · rintro order rfl r stripped hr hstrip
    exact cancel_received hroot hr hstrip

/-- The affinities and the identifiers that targets got to see. -/
def shownToTargets (events : List Event) : List (Option String × Option InvocationId) :=
  events.filterMap fun event =>
    match event.question with
    | .invoke target => some (target.affinity, target.identifier)
    | _ => none

/-- Of an affinity with a semicolon, everybody sees what stands before it. -/
theorem affinity_cut_at_semicolon :
    let invocations := Dispatch.service .standard true (recording obliging)
    let c := Context.make "http://localhost:8080" .protocolV1 .v2
    let call := { callOf "clear" with requestId := some "7", affinity := some "n1; Secure" }
    let events := (invoke (Loopback.routed "http://localhost:8080" true
      [("/ejb/v1/invoke", invocations)]) call c ((), [])).2.2.2
    shownToTargets events = [(some "n1", some ⟨"7", "n1"⟩)] ∧
    ∀ target answer, ⟨.invoke target, answer⟩ ∈ events →
      (target.affinity = some "n1; Secure" ↔ Intact "n1; Secure") ∧
      target.affinity = affinitySeen? "n1; Secure" ∧ target.identifier = call.identifierSeen? := by
  intro invocations c call events
  have hmount : Router.Mounts [("/ejb/v1/invoke", invocations)] "/ejb/v1/invoke" invocations :=
    ⟨List.mem_singleton_self _, fun route hroute _ => List.mem_singleton.mp hroute⟩
  refine ⟨by decide +kernel, ?_⟩
  exact (((affinity_seen_iff_intact hmount rfl "n1; Secure").2.1 call rfl).2.2 ()).1

end Client

end RemoteCall
