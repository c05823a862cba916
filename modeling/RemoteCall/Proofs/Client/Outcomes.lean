import RemoteCall.Client.Branch
import RemoteCall.Proofs.RemoteException

/-!
# What a coordinator is told of a primitive

A primitive that is carried out from afar ends in one of three ways. It cannot be asked for, or it
is given up by an interrupt, or something comes back. Of what comes back, a success is told as it
is, and anything else as an error, which has the code and the message that the branch gave if all of
the response can be understood, and the code of a failed resource manager if not.
-/

namespace RemoteCall

open Reader

/-! ### Responses that carry the error of a branch -/

namespace Parse

/-- A value with which the message ends. -/
def lastValue (d : Dialect) : Parse Value := do
  let v ← Parse.value d
  Parse.finish
  pure v

end Parse

namespace RemoteException

variable {d : Dialect} {e : RemoteException} {b : Bytes}

/-- An exception is read of a body exactly if all of it is a value that stands for the exception. -/
theorem outcome_read_iff : Reader.outcome (read d) b = .ok e ↔
    ∃ v, Reader.outcome (Parse.lastValue d) b = .ok v ∧ ofValue v = .ok e := by
  constructor
  · intro h
    obtain ⟨c, hread⟩ := outcome_eq_ok_iff.mp h
    obtain ⟨v, c₁, hv, hread⟩ := bind_eq_ok hread
    obtain ⟨_, c₂, hfinish, hread⟩ := bind_eq_ok hread
    have hlast : Parse.lastValue d (Cursor.start b) = .ok v c₂ :=
      (bind_of_ok hv _).trans (bind_of_ok hfinish _)
    refine ⟨v, outcome_eq_ok_iff.mpr ⟨c₂, hlast⟩, ?_⟩
    cases he : ofValue v with
    | ok e' =>
        rw [he] at hread
        cases hread
        rfl
    | error reason =>
        rw [he] at hread
        cases hread
  · rintro ⟨v, h, he⟩
    obtain ⟨c, hread⟩ := outcome_eq_ok_iff.mp h
    obtain ⟨v', c₁, hv, hread⟩ := bind_eq_ok hread
    obtain ⟨_, c₂, hfinish, hpure⟩ := bind_eq_ok hread
    cases hpure
    refine outcome_eq_ok_iff.mpr ⟨c, (bind_of_ok hv _).trans ((bind_of_ok hfinish _).trans ?_)⟩
    rw [he]
    rfl

end RemoteException

namespace Http.Response

open Fault.Class

/-- The response carries the error of a branch: it has the media type of exceptions, and all of its
body is an object of the class of these errors that stands for an exception and has a code. A
message that is missing or not a text counts as the empty one. -/
def Carries (d : Dialect) (r : Response) (code : Int32) (message : String) : Prop :=
  r.hasType MediaType.exception = true ∧ ∃ fields,
    Reader.outcome (Parse.lastValue d) r.body = .ok (.object transactionError fields) ∧
      (Value.object transactionError fields).IsException ∧
      fields.lookup "errorCode" = some (.int code) ∧
      message = ((fields.lookup "message").bind Value.text?).getD ""

theorem exception?_eq_some_iff {d : Dialect} {r : Response} {e : RemoteException} :
    r.exception? d = some e ↔ r.hasType MediaType.exception = true ∧
      Reader.outcome (RemoteException.read d) r.body = .ok e := by
  unfold exception?
  cases Reader.outcome (RemoteException.read d) r.body with
  | ok e' => simp [Except.toOption]
  | error reason => simp [Except.toOption]

/-- A response carries the error of a branch if an exception can be read of it that carries one. -/
theorem carries_iff {d : Dialect} {r : Response} {code : Int32} {message : String} :
    r.Carries d code message ↔
      ∃ e, r.exception? d = some e ∧ XaError.ofRemote? e = some (.make code message) := by
  constructor
  · rintro ⟨htype, fields, hlast, hexception, hcode, rfl⟩
    obtain ⟨e, he⟩ := RemoteException.exists_ofValue_iff.mpr hexception
    have hread := RemoteException.outcome_read_iff.mpr ⟨_, hlast, he⟩
    refine ⟨e, exception?_eq_some_iff.mpr ⟨htype, hread⟩, ?_⟩
    simp only [XaError.ofRemote?, RemoteException.top_of_ofValue he, if_true, hcode,
      Option.bind_some, Value.int?, Option.map_some]
  · rintro ⟨e, hexception, hxa⟩
    obtain ⟨htype, hread⟩ := exception?_eq_some_iff.mp hexception
    obtain ⟨v, hlast, he⟩ := RemoteException.outcome_read_iff.mp hread
    have hv := RemoteException.exists_ofValue_iff.mp ⟨e, he⟩
    obtain ⟨c, fields, rfl⟩ := hv.exists_object
    unfold XaError.ofRemote? at hxa
    rw [RemoteException.top_of_ofValue he] at hxa
    split at hxa
    · next hclass =>
      obtain ⟨code', hcode, hmake⟩ := Option.map_eq_some_iff.mp hxa
      obtain ⟨n, hlookup, hint⟩ := Option.bind_eq_some_iff.mp hcode
      cases hclass
      cases hmake
      cases n with
      | int n =>
          obtain rfl := Option.some.inj hint
          exact ⟨htype, fields, hlast, hv, hlookup, rfl⟩
      | _ => cases hint
    · cases hxa

end Http.Response

namespace XaError

theorem eq_make_of_ofRemote? {e : RemoteException} {xa : XaError} (h : ofRemote? e = some xa) :
    xa = .make xa.code xa.message := by
  unfold ofRemote? at h
  split at h
  · obtain ⟨code, -, rfl⟩ := Option.map_eq_some_iff.mp h
    rfl
  · cases h

end XaError

namespace BranchClient

variable {c : Context} {r : Http.Response} {code : Int32} {message : String}

theorem failure_of_carries (h : r.Carries c.dialect code message) :
    failure c r = .make code message := by
  obtain ⟨e, hexception, hxa⟩ := Http.Response.carries_iff.mp h
  simp only [failure, hexception, hxa]

theorem failure_of_not_carries (h : ∀ code message, ¬ r.Carries c.dialect code message) :
    (failure c r).code = Outcome.managerError := by
  unfold failure
  cases hexception : r.exception? c.dialect with
  | none => rfl
  | some e =>
      cases hxa : XaError.ofRemote? e with
      | none => simp only [hxa]; rfl
      | some xa =>
          rw [XaError.eq_make_of_ofRemote? hxa] at hxa
          exact absurd (Http.Response.carries_iff.mpr ⟨e, hexception, hxa⟩) (h _ _)

/-- The error that a response tells is no interruption. -/
theorem failure_not_interrupted (c : Context) (r : Http.Response) :
    (failure c r).interrupted = false := by
  unfold failure
  split
  · split
    · next hxa =>
      rw [XaError.eq_make_of_ofRemote? hxa]
      rfl
    · rfl
  · rfl

/-- A response tells that the branch did no work: it has a readable flag that says so. -/
def TellsReadOnly (r : Http.Response) : Prop :=
  ∃ flag, r.headers.get? Http.readOnlyHeader = some flag ∧
    Text.sameFolded (Text.trim flag.toList) "true".toList = true

theorem vote_eq_readOnly_iff : vote r = .readOnly ↔ TellsReadOnly r := by
  unfold vote TellsReadOnly
  cases r.headers.get? Http.readOnlyHeader with
  | none => simp
  | some flag => simp

/-- What a coordinator is told of what came back from a branch. -/
structure Told (d : Dialect) (p : Primitive) (delivery : Delivery) (told : PrimitiveResult) :
    Prop where
  /-- A success is told exactly if a response of success came back. -/
  ok_iff : (∃ vote, told = .ok vote) ↔
    ∃ r, delivery = .ok r ∧ 200 ≤ r.status.code ∧ r.status.code < 300
  /-- There is a vote exactly if the branch was to prepare. -/
  vote_iff : ∀ vote, told = .ok vote → (vote.isSome = true ↔ p = .prepare)
  /-- The vote is read-only exactly if the response has the flag for it. -/
  readOnly_iff : ∀ vote, told = .ok (some vote) →
    (vote = .readOnly ↔ ∃ r, delivery = .ok r ∧ TellsReadOnly r)
  /-- No error is an interruption. -/
  not_interrupted : ∀ e, told = .error e → e.interrupted = false
  /-- An error that a response carries is told with its code and message. -/
  carried : ∀ e, told = .error e → ∀ r code message, delivery = .ok r →
    r.Carries d code message → e.code = code ∧ e.message = message
  /-- Any other error is told as one of the resource manager. -/
  other : ∀ e, told = .error e →
    (∀ r code message, delivery = .ok r → ¬ r.Carries d code message) →
    e.code = Outcome.managerError

theorem isSuccess_iff (status : Http.Status) :
    status.isSuccess = true ↔ 200 ≤ status.code ∧ status.code < 300 := by
  simp [Http.Status.isSuccess]

theorem told_of_success (d : Dialect) (p : Primitive) (h : r.status.isSuccess = true) :
    Told d p (.ok r) (.ok (if p = .prepare then some (vote r) else none)) where
  ok_iff := ⟨fun _ => ⟨r, rfl, (isSuccess_iff _).mp h⟩, fun _ => ⟨_, rfl⟩⟩
  vote_iff := by
    rintro vote ⟨⟩
    split
    · next hp => simp [hp]
    · next hp => simp [hp]
  readOnly_iff := by
    intro told htold
    obtain rfl : vote r = told := by
      split at htold
      · cases htold
        rfl
      · cases htold
    rw [vote_eq_readOnly_iff]
    constructor
    · intro hflag
      exact ⟨r, rfl, hflag⟩
    · rintro ⟨_, ⟨⟩, hflag⟩
      exact hflag
  not_interrupted e h := nomatch h
  carried e h := nomatch h
  other e h := nomatch h

/-- A response of another status is told as the error that it carries, if it carries one. -/
theorem told_of_failure (c : Context) (p : Primitive) (h : r.status.isSuccess = false) :
    Told c.dialect p (.ok r) (.error (failure c r)) where
  ok_iff := by
    constructor
    · rintro ⟨vote, ⟨⟩⟩
    · rintro ⟨_, ⟨⟩, hsuccess⟩
      cases h.symm.trans ((isSuccess_iff _).mpr hsuccess)
  vote_iff vote h := nomatch h
  readOnly_iff vote h := nomatch h
  not_interrupted := by
    rintro e ⟨⟩
    exact failure_not_interrupted c r
  carried := by
    rintro e ⟨⟩ r code message ⟨⟩ hcarries
    rw [failure_of_carries hcarries]
    exact ⟨rfl, rfl⟩
  other := by
    rintro e ⟨⟩ hnone
    exact failure_of_not_carries fun code message => hnone r code message rfl

/-- Where no response came back there is none that could carry an error. -/
theorem told_of_lost (d : Dialect) (p : Primitive) (lost : TransportError) :
    Told d p (.error lost) (.error (.managerFailure lost.message [])) where
  ok_iff := by
    constructor
    · rintro ⟨vote, ⟨⟩⟩
    · rintro ⟨r, ⟨⟩, -⟩
  vote_iff vote h := nomatch h
  readOnly_iff vote h := nomatch h
  not_interrupted := by
    rintro e ⟨⟩
    rfl
  carried := by
    rintro e - r code message ⟨⟩
  other := by
    rintro e ⟨⟩ -
    rfl

/-- What comes back of a primitive is told as it has to be. -/
theorem told_result (c : Context) (p : Primitive) (delivery : Delivery) :
    Told c.dialect p delivery (result c p delivery) := by
  cases delivery with
  | error lost => exact told_of_lost c.dialect p lost
  | ok r =>
      unfold result
      dsimp only
      split
      · next h => exact told_of_success c.dialect p h
      · next h => exact told_of_failure c p (Bool.eq_false_of_not_eq_true h)

end BranchClient

/-- The same transport with a record of what is sent. -/
def Transport.recording {σ : Type} (transport : Transport σ) :
    Transport (σ × List Http.Request) :=
  fun r s =>
    let (delivery, t) := transport r s.1
    (delivery, t, s.2 ++ [r])

namespace Context

variable {σ : Type} {transport : Transport σ} {c : Context} {r : Http.Request} {s t : σ}

theorem exchange_recording_lost (h : transport (c.outgoing r) s = (none, t)) :
    c.exchange (Transport.recording transport) r (s, []) = (none, c, t, [c.outgoing r]) := by
  simp only [exchange, Transport.recording, h, List.nil_append]

theorem exchange_recording_brought {delivery : Delivery}
    (h : transport (c.outgoing r) s = (some delivery, t)) :
    c.exchange (Transport.recording transport) r (s, []) =
      (some delivery, c.afterExchange c.connection.isProbing delivery, t, [c.outgoing r]) := by
  simp only [exchange, Transport.recording, h, List.nil_append]

end Context

namespace BranchClient

/-- A request that cannot be made is an error of the resource manager, and no interruption. -/
theorem code_of_request_error {c : Context} {x : Xid} {p : Primitive} {e : XaError}
    (h : request c x p = .error e) : e.code = Outcome.managerError ∧ e.interrupted = false := by
  unfold request at h
  split at h
  · cases h
    exact ⟨rfl, rfl⟩
  · unfold Except.mapError at h
    split at h
    · cases h
      exact ⟨rfl, rfl⟩
    · cases h

/-- A primitive is asked for once at most. It ends in one of three ways. A request that cannot be
made is not sent, and told as an error of the resource manager. With a raised interrupt nothing is
sent, and where nothing is brought back an interrupt has been raised meanwhile; either is told as an
interrupted error of the resource manager, and the interrupt stays raised. Whatever else is brought
back is told as it has to be by the version that is in force afterwards. -/
theorem drive_told {σ : Type} (transport : Transport σ) (x : Xid) (p : Primitive)
    (interrupt : Interrupt) (c : Context) (s : σ) :
    ∃ told after c' t sent,
      drive (Transport.recording transport) x p interrupt c (s, []) = (told, after, c', t, sent) ∧
      (interrupt.raised = true → sent = [] ∧ after.raised = true) ∧
      ((sent = [] ∧ ∃ e, request c x p = .error e ∧ told = .error e ∧
          e.code = Outcome.managerError ∧ e.interrupted = false) ∨
        ((interrupt.raised = true ∨ ∃ r, sent = [r] ∧ (transport r s).1 = none) ∧
          after.raised = true ∧ ∃ e, told = .error e ∧ e.code = Outcome.managerError ∧
            e.interrupted = true) ∨
        (interrupt.raised = false ∧ ∃ r delivery, sent = [r] ∧
          (transport r s).1 = some delivery ∧
          c' = c.afterExchange c.connection.isProbing delivery ∧
          Told c'.dialect p delivery told)) := by
  unfold drive
  cases hr : request c x p with
  | error e =>
      exact ⟨_, _, _, _, _, rfl, fun hraised => ⟨rfl, hraised⟩,
        .inl ⟨rfl, e, rfl, rfl, code_of_request_error hr⟩⟩
  | ok r =>
      dsimp only
      split
      · next hraised =>
        exact ⟨_, _, _, _, _, rfl, fun _ => ⟨rfl, hraised⟩,
          .inr (.inl ⟨.inl hraised, hraised, _, rfl, rfl, rfl⟩)⟩
      · next hlowered =>
        rcases hbrought : transport (c.outgoing r) s with ⟨_ | delivery, t⟩
        · rw [Context.exchange_recording_lost hbrought]
          exact ⟨_, _, _, _, _, rfl, fun hraised => absurd hraised hlowered,
            .inr (.inl ⟨.inr ⟨_, rfl, by rw [hbrought]⟩, rfl, _, rfl, rfl, rfl⟩)⟩
        · rw [Context.exchange_recording_brought hbrought]
          refine ⟨_, _, _, _, _, rfl, fun hraised => absurd hraised hlowered,
            .inr (.inr ⟨Bool.eq_false_of_not_eq_true hlowered, _, delivery, rfl, ?_, rfl, ?_⟩)⟩
          · rw [hbrought]
          · exact told_result _ p delivery

end BranchClient

end RemoteCall
