import Mathlib.Data.List.Induction
import RemoteCall.Client.Branch
import RemoteCall.Client.Invocation

/-!
# What clients send

The requests of a client with all their fields, and what a service finds when it looks the fields
up. A request says the version of its connection in a field of its own, and that changes no other
field.
-/

namespace RemoteCall

open Http

namespace Http.Headers

variable {h : Headers} {name other value : String}

theorem values_add (h : Headers) (name value other : String) :
    (h.add name value).values other =
      h.values other ++ if canonical name = canonical other then [value] else [] := by
  unfold add values
  rw [List.filter_append, List.map_append]
  by_cases hname : canonical name = canonical other
  · simp [hname]
  · simp [hname]

theorem values_set_self (h : Headers) (name value : String) :
    (h.set name value).values name = [value] := by
  unfold set
  rw [values_add, if_pos rfl]
  simp [values, List.filter_filter]

theorem values_set_of_ne (h : Headers) (value : String)
    (hne : canonical name ≠ canonical other) : (h.set name value).values other = h.values other := by
  unfold set
  rw [values_add, if_neg hne, List.append_nil]
  simp only [values, List.filter_filter]
  congr 2
  funext field
  by_cases hfield : field.1 = canonical other
  · simp [hfield, Ne.symm hne]
  · simp [hfield]

/-- The values of a name are those of the fields that were given under it. -/
theorem values_ofList (fields : List (String × String)) (name : String) :
    (ofList fields).values name =
      (fields.filter fun field => canonical field.1 == canonical name).map (·.2) := by
  induction fields using List.reverseRecOn with
  | nil => rfl
  | append_singleton fields field ih =>
      have hadd : ofList (fields ++ [field]) = (ofList fields).add field.1 field.2 := by
        simp [ofList]
      rw [hadd, values_add, ih, List.filter_append, List.map_append]
      by_cases hname : canonical field.1 = canonical name
      · simp [hname]
      · simp [hname]

theorem values_ofList_append (fields others : List (String × String)) (name : String) :
    (ofList (fields ++ others)).values name =
      (ofList fields).values name ++ (ofList others).values name := by
  simp only [values_ofList, List.filter_append, List.map_append]

/-- The values of fields that all have one name. -/
theorem values_ofList_map (key : String) (values : List String) (name : String) :
    (ofList (values.map fun value => (key, value))).values name =
      if canonical key = canonical name then values else [] := by
  rw [values_ofList, List.filter_map, List.map_map]
  by_cases h : canonical key = canonical name
  · rw [if_pos h]
    simp [Function.comp_def, h]
  · rw [if_neg h]
    simp [Function.comp_def, h]

theorem get?_eq_of_values_eq {g h : Headers} (hvalues : g.values name = h.values name) :
    g.get? name = h.get? name := by
  unfold get?
  rw [hvalues]

theorem cookie?_eq_of_values_eq {g h : Headers} (hvalues : g.values "cookie" = h.values "cookie")
    (name : String) : g.cookie? name = h.cookie? name := by
  unfold cookie?
  rw [hvalues]

end Http.Headers

/-! ### Responses that tell a version -/

namespace Http.Response

theorem status_answerProbe (request : Request) (r : Response) :
    (r.answerProbe request).status = r.status := by
  unfold answerProbe
  split
  · rfl
  · rfl

theorem body_answerProbe (request : Request) (r : Response) :
    (r.answerProbe request).body = r.body := by
  unfold answerProbe
  split
  · rfl
  · rfl

theorem get?_answerProbe {name : String}
    (hname : Headers.canonical Connection.header ≠ Headers.canonical name) (request : Request)
    (r : Response) : (r.answerProbe request).headers.get? name = r.headers.get? name := by
  unfold answerProbe
  split
  · exact Headers.get?_eq_of_values_eq (Headers.values_set_of_ne _ _ hname)
  · rfl

theorem hasType_answerProbe (request : Request) (r : Response) (type : MediaType) :
    (r.answerProbe request).hasType type = r.hasType type := by
  unfold hasType
  rw [get?_answerProbe (by decide)]

theorem exception?_answerProbe (request : Request) (r : Response) (d : Dialect) :
    (r.answerProbe request).exception? d = r.exception? d := by
  unfold exception?
  rw [hasType_answerProbe, body_answerProbe]

/-- A client that says its version is told that of the service. -/
theorem get?_answerProbe_outgoing (c : Context) (request : Request) (r : Response) :
    (r.answerProbe (c.outgoing request)).headers.get? Connection.header =
      some ProtocolVersion.latest.text := by
  have hhas : (c.outgoing request).headers.has Connection.header = true := by
    simp [Context.outgoing, Headers.set, Headers.add, Headers.has]
  have hvalues := Headers.values_set_self r.headers Connection.header ProtocolVersion.latest.text
  have hreadable : Headers.isReadable ProtocolVersion.latest.text = true := by decide
  simp only [answerProbe, hhas, if_true, Headers.get?, hvalues, hreadable]

/-- A response with a body is taken for what it says that it is. -/
theorem hasType_withBody (status : Status) (type : MediaType)
    (htype : type ∈ [MediaType.invocationResponse, MediaType.exception]) (b : Bytes) :
    (withBody status type b).hasType type = true := by
  have hclosed : ∀ type ∈ [MediaType.invocationResponse, MediaType.exception],
      (withBody .ok type []).hasType type = true := by
    decide
  exact hclosed type htype

/-- A response that carries an exception is taken for one. -/
theorem exception?_ofException (status : Status) {d d' : Dialect} {e : RemoteException} {b : Bytes}
    (hw : (e.write d).result = .ok b)
    (hread : Reader.outcome (RemoteException.read d') b = .ok e) :
    (ofException status d e).exception? d' = some e := by
  have htype := hasType_withBody status MediaType.exception (by simp) b
  simp only [ofException, hw, exception?, htype, if_true]
  change (Reader.outcome (RemoteException.read d') b).toOption = some e
  rw [hread]
  rfl

end Http.Response

namespace Context

theorem build_eq_ok_iff {method target : String} {fields : List (String × String)} {body : Bytes}
    {r : Request} :
    build method target fields body = .ok r ↔
      (∀ field ∈ fields, Headers.isValue field.2 = true) ∧
      ∃ uri, Uri.parse target = .ok uri ∧ r = ⟨method, uri, Headers.ofList fields, body⟩ := by
  unfold build
  cases Uri.parse target with
  | error e => simp
  | ok uri =>
      simp only [List.all_eq_true, Except.ok.injEq, exists_eq_left']
      split
      · next h => exact ⟨fun heq => ⟨h, (Except.ok.inj heq).symm⟩, fun heq => congrArg _ heq.2.symm⟩
      · next h => exact ⟨(fun heq => nomatch heq), fun heq => absurd heq.1 h⟩

/-- What a client learns from an answer is a version and nothing else. -/
theorem afterExchange_eq (c : Context) (wasProbing : Bool) (delivery : Delivery) :
    ∃ connection, c.afterExchange wasProbing delivery = { c with connection } := by
  unfold afterExchange
  split
  · split
    · exact ⟨_, rfl⟩
    · exact ⟨_, rfl⟩
  · exact ⟨_, rfl⟩

theorem values_outgoing {name : String}
    (hname : Headers.canonical Connection.header ≠ Headers.canonical name) (c : Context)
    (r : Request) : (c.outgoing r).headers.values name = r.headers.values name :=
  Headers.values_set_of_ne _ _ hname

/-- A service sees the version that is in force for its client. -/
theorem peerVersion_outgoing (c : Context) (r : Request) :
    (c.outgoing r).peerVersion = c.connection.current := by
  have hvalues := Headers.values_set_self r.headers Connection.header c.connection.current.text
  have hreadable : ∀ v : ProtocolVersion, Headers.isReadable v.text = true ∧
      ProtocolVersion.ofHeader v.text = v := by
    intro v
    cases v <;> decide
  obtain ⟨hread, hversion⟩ := hreadable c.connection.current
  simp only [Request.peerVersion, outgoing, Headers.get?, hvalues, hread, if_true,
    ProtocolVersion.ofHeader?, hversion]

end Context

namespace Client

theorem mapError_eq_ok_iff {ε δ α : Type} {e : Except ε α} {f : ε → δ} {a : α} :
    e.mapError f = .ok a ↔ e = .ok a := by
  cases e <;> simp [Except.mapError]

theorem bind_eq_ok_iff {ε α β : Type} {e : Except ε α} {next : α → Except ε β} {b : β} :
    (e >>= next) = .ok b ↔ ∃ a, e = .ok a ∧ next a = .ok b := by
  cases e <;> simp [bind, Except.bind]

theorem checkArity_eq_ok_iff {a : Address} {n : Nat} :
    a.checkArity n = .ok () ↔ a.method.parameterTypes.length = n := by
  unfold Address.checkArity
  split
  · next h => simp [h]
  · next h => simp [h]

/-- The field for a session affinity. -/
def affinityField (affinity : String) : String × String :=
  ("cookie", Http.sessionCookie ++ "=" ++ affinity)

/-- The fields of every call. -/
def typeFields : List (String × String) :=
  [("content-type", MediaType.invocation.text),
    ("accept", MediaType.invocationResponse.text ++ "," ++ MediaType.exception.text)]

/-- The fields of a call. -/
def invokeFields (call : OutgoingCall) : List (String × String) :=
  typeFields ++ (call.requestId.toList.map fun id => (Http.invocationIdHeader, id)) ++
    call.affinity.toList.map affinityField

/-- The body of a call, before it is written. -/
def invokeBody (call : OutgoingCall) : Invocation.Request :=
  ⟨call.transaction, call.parameters, call.attachments⟩

theorem cookieField_eq_ok_iff {affinity : String} {field : String × String} :
    cookieField affinity = .ok field ↔
      Headers.isValue (affinityField affinity).2 = true ∧ field = affinityField affinity := by
  unfold cookieField affinityField
  dsimp only
  split
  · next h => simp [h, eq_comm (a := field)]
  · next h => simp [h]

theorem cookieFields_eq_ok_iff {affinity : Option String} {fields : List (String × String)} :
    cookieFields affinity = .ok fields ↔
      (∀ field ∈ affinity.toList.map affinityField, Headers.isValue field.2 = true) ∧
        fields = affinity.toList.map affinityField := by
  cases affinity with
  | none =>
      constructor
      · rintro ⟨⟩
        exact ⟨List.forall_mem_nil _, rfl⟩
      · rintro ⟨-, rfl⟩
        rfl
  | some affinity =>
      simp only [cookieFields, Option.toList_some, List.map_cons, List.map_nil,
        List.forall_mem_singleton]
      constructor
      · intro h
        cases hfield : cookieField affinity with
        | error e =>
            rw [hfield] at h
            cases h
        | ok field =>
            rw [hfield] at h
            cases h
            obtain ⟨hvalue, rfl⟩ := cookieField_eq_ok_iff.mp hfield
            exact ⟨hvalue, rfl⟩
      · rintro ⟨hvalue, rfl⟩
        rw [cookieField_eq_ok_iff.mpr ⟨hvalue, rfl⟩]
        rfl

/-- A call can be sent if it has as many parameters as its method, is written to its end, and has a
path and fields that can stand in a request. It goes to the path of its address. -/
theorem invokeRequest_eq_ok_iff {c : Context} {call : OutgoingCall} {r : Request} :
    invokeRequest c call = .ok r ↔
      ∃ body uri, call.address.method.parameterTypes.length = call.parameters.length ∧
        ((invokeBody call).write c.dialect).result = .ok body ∧
        Uri.parse (c.target ("/ejb/v1/invoke/" ++ call.address.render)) = .ok uri ∧
        (∀ field ∈ invokeFields call, Headers.isValue field.2 = true) ∧
        r = ⟨"POST", uri, Headers.ofList (invokeFields call), body⟩ := by
  constructor
  · intro h
    obtain ⟨_, harity, h⟩ := bind_eq_ok_iff.mp h
    obtain ⟨body, hbody, h⟩ := bind_eq_ok_iff.mp h
    obtain ⟨cookies, hcookies, h⟩ := bind_eq_ok_iff.mp h
    obtain ⟨hvalues, uri, huri, rfl⟩ := Context.build_eq_ok_iff.mp (mapError_eq_ok_iff.mp h)
    obtain ⟨-, rfl⟩ := cookieFields_eq_ok_iff.mp hcookies
    exact ⟨body, uri, checkArity_eq_ok_iff.mp (mapError_eq_ok_iff.mp harity),
      mapError_eq_ok_iff.mp hbody, huri, hvalues, rfl⟩
  · rintro ⟨body, uri, harity, hbody, huri, hvalues, rfl⟩
    have hcookies := cookieFields_eq_ok_iff.mpr
      ⟨fun field hfield => hvalues field (List.mem_append_right _ hfield), rfl⟩
    refine bind_eq_ok_iff.mpr ⟨(), mapError_eq_ok_iff.mpr (checkArity_eq_ok_iff.mpr harity), ?_⟩
    refine bind_eq_ok_iff.mpr ⟨body, mapError_eq_ok_iff.mpr hbody, ?_⟩
    refine bind_eq_ok_iff.mpr ⟨_, hcookies, ?_⟩
    exact mapError_eq_ok_iff.mpr (Context.build_eq_ok_iff.mpr ⟨hvalues, uri, huri, rfl⟩)

/-- A call that is sent has as many parameters as its method, is written to its end, and goes to
the path of its address. -/
theorem invokeRequest_eq_ok {c : Context} {call : OutgoingCall} {r : Request}
    (h : invokeRequest c call = .ok r) :
    ∃ body uri, call.address.method.parameterTypes.length = call.parameters.length ∧
      ((invokeBody call).write c.dialect).result = .ok body ∧
      Uri.parse (c.target ("/ejb/v1/invoke/" ++ call.address.render)) = .ok uri ∧
      (∀ field ∈ invokeFields call, Headers.isValue field.2 = true) ∧
      r = ⟨"POST", uri, Headers.ofList (invokeFields call), body⟩ :=
  invokeRequest_eq_ok_iff.mp h

/-- The fields of a call under a name: those that every call has, its number, and its affinity. -/
theorem values_invokeFields (call : OutgoingCall) (name : String) :
    (Headers.ofList (invokeFields call)).values name =
      (Headers.ofList typeFields).values name ++
      (if Headers.canonical Http.invocationIdHeader = Headers.canonical name then
        call.requestId.toList else []) ++
      if Headers.canonical "cookie" = Headers.canonical name then
        call.affinity.toList.map fun affinity => (affinityField affinity).2 else [] := by
  have haffinity : call.affinity.toList.map affinityField =
      (call.affinity.toList.map fun affinity => (affinityField affinity).2).map
        fun value => ("cookie", value) := by
    rw [List.map_map]
    rfl
  rw [invokeFields, haffinity, Headers.values_ofList_append, Headers.values_ofList_append,
    Headers.values_ofList_map, Headers.values_ofList_map]

theorem values_invokeFields_type (call : OutgoingCall) :
    (Headers.ofList (invokeFields call)).values "content-type" =
      (Headers.ofList typeFields).values "content-type" := by
  have hid : Headers.canonical Http.invocationIdHeader ≠ Headers.canonical "content-type" := by
    decide
  have hcookie : Headers.canonical "cookie" ≠ Headers.canonical "content-type" := by
    decide
  rw [values_invokeFields, if_neg hid, if_neg hcookie, List.append_nil, List.append_nil]

/-- A call says what its body is. -/
theorem expect_invocation (call : OutgoingCall) (c : Context) (uri : Uri) (body : Bytes) :
    MediaType.invocation.expect ((c.outgoing
      ⟨"POST", uri, Headers.ofList (invokeFields call), body⟩).headers.get? "content-type") =
        .ok () := by
  have hvalues : (c.outgoing ⟨"POST", uri, Headers.ofList (invokeFields call), body⟩).headers.values
      "content-type" = (Headers.ofList typeFields).values "content-type" := by
    rw [Context.values_outgoing (by decide), values_invokeFields_type]
  rw [Headers.get?_eq_of_values_eq hvalues]
  decide

theorem values_invokeFields_id (call : OutgoingCall) :
    (Headers.ofList (invokeFields call)).values Http.invocationIdHeader =
      call.requestId.toList := by
  have htype : (Headers.ofList typeFields).values Http.invocationIdHeader = [] := by
    decide
  have hcookie : Headers.canonical "cookie" ≠ Headers.canonical Http.invocationIdHeader := by
    decide
  rw [values_invokeFields, htype, if_pos rfl, if_neg hcookie, List.nil_append, List.append_nil]

theorem values_invokeFields_cookie (call : OutgoingCall) :
    (Headers.ofList (invokeFields call)).values "cookie" =
      (Headers.ofList (call.affinity.toList.map affinityField)).values "cookie" := by
  have htype : (Headers.ofList typeFields).values "cookie" = [] := by
    decide
  have hid : (Headers.ofList (call.requestId.toList.map fun id =>
      (Http.invocationIdHeader, id))).values "cookie" = [] := by
    rw [Headers.values_ofList_map, if_neg (by decide)]
  rw [invokeFields, Headers.values_ofList_append, Headers.values_ofList_append, htype, hid,
    List.nil_append, List.nil_append]

/-- A cancel request that is sent goes to the path that names its call. -/
theorem cancelRequest_eq_ok {c : Context} {order : OutgoingCancel} {r : Request}
    (h : cancelRequest c order = .ok r) :
    ∃ uri, Uri.parse (c.target (cancelPath order)) = .ok uri ∧
      r = ⟨"DELETE", uri, Headers.ofList [affinityField order.affinity], []⟩ := by
  obtain ⟨cookie, hcookie, h⟩ := bind_eq_ok_iff.mp h
  obtain ⟨-, uri, huri, rfl⟩ := Context.build_eq_ok_iff.mp (mapError_eq_ok_iff.mp h)
  rw [(cookieField_eq_ok_iff.mp hcookie).2]
  exact ⟨uri, huri, rfl⟩

end Client

end RemoteCall
