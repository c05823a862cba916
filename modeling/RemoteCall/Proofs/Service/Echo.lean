import RemoteCall.Proofs.Invocation.Attachments
import RemoteCall.Proofs.Service.Dialect
import RemoteCall.Proofs.Service.Questions

/-!
# Attachments that go back with a result

A response carries the attachments of its request. They have been read by the same service for the
same peer, so they can be written, whatever the peer sent: a name that is changed for a legacy peer
gets no longer than the one that came, a key that is repeated only makes the attachments fewer, and
nothing is nested more deeply than it was. So it is up to the result alone whether a call that
succeeded is answered as one.
-/

namespace RemoteCall

open Codec

/-! ### Attachments that have been read -/

namespace Attachments

open Reader

variable {d : Dialect} {a : Attachments} {key : String} {v : Value}

theorem fst_mem_toList_insert {e : String × Value} (h : e ∈ (a.insert key v).2.toList) :
    e.1 = key ∨ ∃ e' ∈ a.toList, e'.1 = e.1 := by
  cases hs : a.slot? key with
  | none =>
      rw [toList_insert_of_no_slot hs, List.mem_append, List.mem_singleton] at h
      rcases h with h | rfl
      · exact .inr ⟨e, h, rfl⟩
      · exact .inl rfl
  | some slot =>
      rw [toList_insert_of_slot hs, List.mem_iff_getElem?] at h
      obtain ⟨i, hi⟩ := h
      rw [List.getElem?_modify] at hi
      obtain ⟨e', he', rfl⟩ := Option.map_eq_some_iff.mp hi
      refine .inr ⟨e', List.mem_of_getElem? he', ?_⟩
      split
      · rfl
      · rfl

theorem size_insert_le : (a.insert key v).2.size ≤ a.size + 1 := by
  cases hs : a.slot? key with
  | none =>
      rw [← length_toList, ← length_toList, toList_insert_of_no_slot hs, List.length_append,
        List.length_singleton]
  | some slot =>
      rw [← length_toList, ← length_toList, toList_insert_of_slot hs, List.length_modify]
      exact Nat.le_succ _

/-- Attachments that can be written: not too many of them, and each with a key and a value that can
be written. -/
structure Writable (d : Dialect) (bound : Nat) (a : Attachments) : Prop where
  size : a.size ≤ bound
  key : ∀ e ∈ a.toList, ∃ w, Codec.write d (.text e.1) = .put w
  value : ∀ e ∈ a.toList, ∃ w, Codec.write d e.2 = .put w

theorem Writable.insert {bound : Nat} (h : a.Writable d bound)
    (hkey : ∃ w, Codec.write d (.text key) = .put w) (hv : ∃ w, Codec.write d v = .put w) :
    (a.insert key v).2.Writable d (bound + 1) where
  size := Nat.le_trans size_insert_le (Nat.succ_le_succ h.size)
  key e he := by
    rcases fst_mem_toList_insert he with rfl | ⟨e', he', hsame⟩
    · exact hkey
    · exact hsame ▸ h.key e' he'
  value e he := by
    rcases mem_toList_insert he with rfl | he
    · exact hv
    · exact h.value e he

theorem Writable.exists_write {bound : Nat} (h : a.Writable d bound) (hbound : bound < 0x100000000) :
    ∃ w, a.write d = .put w := by
  have hvalue {x : Value} (hx : ∃ w, Codec.write d x = .put w) : ∃ w, Wire.value d x = .put w := by
    obtain ⟨w, hw⟩ := hx
    exact ⟨w, Emission.mapError_eq_put_iff.mpr hw⟩
  rw [write, if_pos (Nat.lt_of_le_of_lt h.size hbound)]
  refine exists_append_eq_put ⟨_, rfl⟩ (exists_concat_eq_put fun part hpart => ?_)
  obtain ⟨e, he, rfl⟩ := List.mem_map.mp hpart
  exact exists_append_eq_put (hvalue (h.key e he)) (hvalue (h.value e he))

variable (hr : d.resolver.Answerable) (hk : d.known.Closed)

include hr hk

theorem value_makes_writable : Makes (Parse.value d) fun v => ∃ w, Codec.write d v = .put w :=
  (readValue_makes_writable hr hk maxNesting).ofCodec

theorem readKey_makes_writable :
    Makes (readKey d) fun key => ∃ w, Codec.write d (.text key) = .put w := by
  refine (value_makes_writable hr hk).bind fun v hv => ?_
  split
  · exact .pure hv
  · exact .throw _

theorem readInto_makes_writable (n bound : Nat) (ha : a.Writable d bound) :
    Makes (readInto d n a) fun a' => a'.Writable d (bound + n) := by
  induction n generalizing a bound with
  | zero => exact .pure ha
  | succ n ih =>
      refine (readKey_makes_writable hr hk).bind fun key hkey =>
        (value_makes_writable hr hk).bind fun v hv => ?_
      rw [← Nat.succ_add_eq_add_succ]
      exact ih (bound + 1) (ha.insert hkey hv)

/-- Attachments that have been read can be written. -/
theorem read_makes_writable : Makes (read d) fun a => ∃ w, a.write d = .put w := by
  have hempty : Writable d 0 empty :=
    ⟨Nat.le_refl 0, List.forall_mem_nil _, List.forall_mem_nil _⟩
  refine .after fun n => ?_
  intro c a c' hread
  have ha := readInto_makes_writable hr hk n.toNat 0 hempty c a c' hread
  exact ha.exists_write (by have := n.toNat_lt; omega)

end Attachments

theorem Invocation.Request.read_makes_writable {d : Dialect} (hr : d.resolver.Answerable)
    (hk : d.known.Closed) (n : Nat) :
    Reader.Makes (read d n) fun request => ∃ w, request.attachments.write d = .put w :=
  .after fun _ => .after fun _ => (Attachments.read_makes_writable hr hk).bind fun _ ha =>
    .after fun _ => .pure ha

namespace Dispatch

open Exchange

variable {d : Dialect} {v : Value} {a : Attachments}

theorem success_of_written {b w : Bytes} (hv : (Codec.write d v).result = .ok b)
    (ha : a.write d = .put w) :
    success d v a = .withBody .ok MediaType.invocationResponse (b ++ w) := by
  have hbody : (Invocation.Response.write d ⟨v, a⟩).result = .ok (b ++ w) := by
    rw [Invocation.Response.write, Wire.value, Wire.ofCodec,
      Emission.mapError_eq_put_iff.mpr (Emission.result_eq_ok_iff.mp hv), ha]
    rfl
  rw [success, hbody]

theorem stopped_of_result {ε : Type} {part : Emission ε} {e : ε} (h : part.result = .error e) :
    part.stopped = some e := by
  unfold Emission.result at h
  split at h
  · next hstopped =>
    cases h
    exact hstopped
  · cases h

theorem success_of_unwritten {e : CodecError} (hv : (Codec.write d v).result = .error e) :
    success d v a = failure d (.ofMessage Fault.Class.runtime
      ("cannot marshal result: " ++ (ProtocolError.codec e).message)) := by
  have hbody : (Invocation.Response.write d ⟨v, a⟩).result = .error (.codec e) := by
    have hstopped : (Wire.value d v).stopped = some (.codec e) := by
      rw [Wire.value, Wire.ofCodec, Emission.mapError, stopped_of_result hv]
      rfl
    rw [Invocation.Response.write, Emission.append_of_stopped hstopped, Emission.result, hstopped]
  rw [success, hbody]

/-- The exception that tells why a result is not written can be written. -/
theorem exists_write_unwritten (config : ServiceConfig) (peer : ProtocolVersion) {e : CodecError}
    (he : Unwritable e) (hword : ∀ n, e = .tooLong n → n < 2 ^ 64) :
    ∃ body, ((RemoteException.ofMessage Fault.Class.runtime
      ("cannot marshal result: " ++ (ProtocolError.codec e).message)).write
        (config.dialect peer)).result = .ok body := by
  have hbrief : (ProtocolError.codec e).Brief := by
    cases he with
    | tooLong n => exact hword n rfl
    | tooDeep => trivial
  have hle := hbrief.length_message_le
  have hbefore : "cannot marshal result: ".length = 23 := by decide
  refine config.exists_write_ofMessage peer (by decide) (by decide) (fits_of_length ?_)
  rw [String.length_append]
  omega

/-- The attachments of a request that was read can be written for its sender. So when a call
succeeds and nobody breaks down, the response is that of success, with these attachments behind the
result, exactly if the result alone can be written, and else it tells by an exception why the result
cannot be written. Lengths are taken to be machine words. -/
theorem answered_iff_result_written {config : ServiceConfig} (hknown : config.known = .protocolV1)
    (peer : ProtocolVersion) {σ : Type} (isManaged : Bool)
    (collaborator : (q : Question) → σ → Answer q.Reply × σ) :
    let d := config.dialect peer
    (∀ n body request, Reader.outcome (Invocation.Request.read d n) body = .ok request →
      ∃ w, (request.attachments.write d).result = .ok w) ∧
    ∀ r a s, accept r = .ok a → a.peer = peer →
      ∃ response t events,
        service config isManaged (recording collaborator) r (s, []) = (response, t, events) ∧
        ∀ call v, ⟨.invoke call, .reply (.success v)⟩ ∈ events → (∀ q m, ⟨q, .broke m⟩ ∉ events) →
          (response.status = .ok ∧ response.hasType MediaType.invocationResponse = true ↔
            ∃ b, (Codec.write d v).result = .ok b) ∧
          (∀ b, (Codec.write d v).result = .ok b →
            ∃ w, (call.attachments.write d).result = .ok w ∧
              response = .withBody .ok MediaType.invocationResponse (b ++ w)) ∧
          ∀ e, (Codec.write d v).result = .error e → (∀ n, e = .tooLong n → n < 2 ^ 64) →
            ∃ body, ((RemoteException.ofMessage Fault.Class.runtime
                ("cannot marshal result: " ++ (ProtocolError.codec e).message)).write d).result =
                .ok body ∧
              response = .withBody .internalError MediaType.exception body := by
  intro d
  have hclosed : config.known.Closed := by
    rw [hknown]
    exact KnownValues.protocolV1_closed
  have hread {n : Nat} {body : Bytes} {request : Invocation.Request}
      (h : Reader.outcome (Invocation.Request.read d n) body = .ok request) :
      ∃ w, request.attachments.write d = .put w := by
    obtain ⟨c, hread⟩ := Reader.outcome_eq_ok_iff.mp h
    exact Invocation.Request.read_makes_writable (config.resolver_answerable peer) hclosed n _
      request c hread
  refine ⟨fun n body request h => ?_, ?_⟩
  · obtain ⟨w, hw⟩ := hread h
    exact ⟨w, Emission.result_eq_ok_iff.mpr hw⟩
  · rintro r a s haccept rfl
    obtain ⟨asked, response, t, events, hserve, hexplains⟩ :=
      serve_explains config isManaged collaborator haccept s
    refine ⟨response, t, events, congrArg Prod.snd hserve, fun call v hinvoked hbroke => ?_⟩
    obtain ⟨request, hrequest, before, -, l, imported, rfl, -⟩ := hexplains.due hinvoked
    obtain ⟨w, hw⟩ := hread hrequest
    have hresponse := hexplains.responded hrequest hinvoked hbroke
    change response = success d v request.attachments at hresponse
    cases hv : (Codec.write d v).result with
    | ok b =>
        rw [success_of_written hv hw] at hresponse
        refine ⟨⟨fun _ => ⟨b, rfl⟩, fun _ => hresponse ▸ ⟨rfl, rfl⟩⟩, ?_, fun e he => nomatch he⟩
        rintro _ ⟨⟩
        exact ⟨w, Emission.result_eq_ok_iff.mpr hw, hresponse⟩
    | error e =>
        rw [success_of_unwritten hv] at hresponse
        refine ⟨⟨fun ⟨hstatus, _⟩ => ?_, fun ⟨b, hb⟩ => nomatch hb⟩, ?_, ?_⟩
        · rw [hresponse, failure, Http.Response.ofException_status] at hstatus
          cases hstatus
        · rintro b ⟨⟩
        · rintro _ ⟨⟩ hword
          have hunwritable := writeValue_stops d maxNesting v e (stopped_of_result hv)
          obtain ⟨body, hbody⟩ := exists_write_unwritten config a.peer hunwritable hword
          refine ⟨body, hbody, ?_⟩
          rw [hresponse, failure, Http.Response.ofException, hbody]

/-- A legacy peer sends two attachments under one key, with a class that has moved, and gets them
back behind the result of its call. -/
theorem repeated_legacy_attachments_echoed :
    let config : ServiceConfig := { ServiceConfig.standard with interop := true }
    let typed : Bytes := [48, 0, 0, 0, 11, 106, 97, 118, 97, 120, 46, 101, 106, 98, 46, 65, 0, 0, 0,
      1, 0, 0, 0, 1, 102, 1]
    let key : Bytes := [16, 0, 0, 0, 1, 107]
    let body : Bytes := [0, 2] ++ (key ++ typed) ++ (key ++ [32, 0, 0, 0, 1] ++ typed)
    let r : Http.Request := {
      method := "POST"
      uri := ⟨none, "/shop/orders/-/Cart/-/CartHome/clear", none⟩
      headers := .ofList [("content-type", MediaType.invocation.text)]
      body }
    let collaborator : (q : Question) → Unit → Answer q.Reply × Unit :=
      granting (.reply (.success (.bool true)))
    config.known = .protocolV1 ∧
    (∃ request : Invocation.Request,
      Reader.outcome (Invocation.Request.read (config.dialect .v1) 0) body = .ok request ∧
      ∃ w, (request.attachments.write (config.dialect .v1)).result = .ok w) ∧
    ∃ response t events,
      service config false (recording collaborator) r ((), []) = (response, t, events) ∧
      ∃ call v, ⟨.invoke call, .reply (.success v)⟩ ∈ events ∧
        (Codec.write (config.dialect .v1) v).result = .ok [0x02] ∧
        ∃ w, (call.attachments.write (config.dialect .v1)).result = .ok w ∧
          response = .withBody .ok MediaType.invocationResponse ([0x02] ++ w) := by
  intro config typed key body r collaborator
  obtain ⟨hechoed, hanswered⟩ :=
    @answered_iff_result_written config rfl .v1 Unit false collaborator
  refine ⟨rfl, ?_, ?_⟩
  · have hread :
        (Reader.outcome (Invocation.Request.read (config.dialect .v1) 0) body).isOk = true := by
      decide +kernel
    cases hrequest : Reader.outcome (Invocation.Request.read (config.dialect .v1) 0) body with
    | ok request => exact ⟨request, rfl, hechoed 0 body request hrequest⟩
    | error e =>
        rw [hrequest] at hread
        cases hread
  · have haccepted : accept r = .ok {
        address := {
          component := ⟨"shop", "orders", "", "Cart"⟩
          session := none
          view := "CartHome"
          method := ⟨"clear", []⟩ }
        peer := .v1
        identifier := none
        affinity := none
        body } := by
      decide +kernel
    have hcalled : ((service config false (recording collaborator) r ((), [])).2.2.findSome?
        Event.result?).map (fun v => (Codec.write (config.dialect .v1) v).result) =
          some (.ok [0x02]) := by
      decide +kernel
    have hsucceeds : (service config false (recording collaborator) r ((), [])).2.2.all
        Event.succeeds = true := by
      decide +kernel
    obtain ⟨response, t, events, hservice, hresponse⟩ := hanswered r _ () haccepted rfl
    rw [hservice] at hcalled hsucceeds
    obtain ⟨v, hfound, hv⟩ := Option.map_eq_some_iff.mp hcalled
    obtain ⟨event, hevent, hresult⟩ := List.exists_of_findSome?_eq_some hfound
    obtain ⟨call, rfl⟩ := Event.result?_eq_some_iff.mp hresult
    have hbroke (q : Question) (m : Breakdown) : ⟨q, .broke m⟩ ∉ events := fun hmem =>
      nomatch List.all_eq_true.mp hsucceeds _ hmem
    obtain ⟨-, hwritten, -⟩ := hresponse call v hevent hbroke
    exact ⟨response, t, events, hservice, call, v, hevent, hv, hwritten [0x02] hv⟩

end Dispatch

end RemoteCall
