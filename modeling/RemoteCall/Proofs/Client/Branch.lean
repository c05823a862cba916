import RemoteCall.Proofs.Branch.Failure
import RemoteCall.Proofs.Branch.Serving
import RemoteCall.Proofs.Client.Arrival
import RemoteCall.Proofs.Client.Requests

/-!
# Driving a branch from afar is driving it

A coordinator that drives branches through a client and a service has them do what it asks, in the
order in which it asks, and is told what they answer. Of an error the code and the message get
through, and what led to it does not.

## Implementation notes

The version of the connection changes with the first answer, so a step starts from any connection.
A client and a service only know each other by the text of a target, so it is required that a
target is shown as it is written.
-/

namespace RemoteCall

open Http

namespace BranchEndpoint

variable {σ : Type}

/-- A branch answers with a vote when it is asked to prepare and with nothing else, and the
messages of its errors can be written. -/
def Terminator.Proper (terminator : Terminator σ) : Prop :=
  ∀ p x s, match (terminator p x s).1 with
    | .ok vote => vote.isSome = (p == .prepare)
    | .error e => (Bytes.ofText e.message).length < 0x100000000

/-- Asks one thing after the other. -/
def performAll (terminator : Terminator σ) :
    List (Primitive × Xid) → σ → List PrimitiveResult × σ
  | [], s => ([], s)
  | (p, x) :: steps, s =>
    let (result, s) := terminator p x s
    let (results, s) := performAll terminator steps s
    (result :: results, s)

end BranchEndpoint

namespace BranchClient

open BranchEndpoint

variable {σ : Type}

/-- Drives branches by one primitive after the other. -/
def driveAll (transport : Transport σ) :
    List (Primitive × Xid) → Interrupt → Context → σ →
      List PrimitiveResult × Interrupt × Context × σ
  | [], interrupt, c, s => ([], interrupt, c, s)
  | (p, x) :: steps, interrupt, c, s =>
    let (result, interrupt, c, s) := drive transport x p interrupt c s
    let (results, interrupt, c, s) := driveAll transport steps interrupt c s
    (result :: results, interrupt, c, s)

/-- What a coordinator is told of the answer of a branch: of an error, its code and its message. -/
def told : PrimitiveResult → PrimitiveResult
  | .ok vote => .ok vote
  | .error e => .error (.make e.code e.message)

/-- A text is a target that is shown as it is written. -/
def Shown (target : String) : Prop :=
  ∃ uri, Uri.parse target = .ok uri ∧ uri.text = target

instance (target : String) : Decidable (Shown target) :=
  match h : Uri.parse target with
  | .ok uri => decidable_of_iff (uri.text = target) (by simp [Shown, h])
  | .error _ => .isFalse (by simp [Shown, h])

/-- The path of a primitive below the place where branches are served. -/
def tail : Primitive → List Char
  | .prepare => "xa/prep".toList
  | .commit false => "xa/commit".toList
  | .commit true => "xa/commit?opc=true".toList
  | .rollback => "xa/rollback".toList
  | .beforeCompletion => "xa/bc".toList
  | .forget => "xa/forget".toList

theorem path_eq (p : Primitive) : path p = String.ofList ("/txn/v1".toList ++ '/' :: tail p) := by
  rcases p with _ | (_ | _) | _ | _ | _ <;> decide

theorem target_path {root : String} {c : Context}
    (hroot : c.root = String.ofList (Loopback.mount root)) (p : Primitive) :
    c.target (path p) = String.ofList (Loopback.mount root ++ ("/txn/v1".toList ++ '/' :: tail p)) := by
  rw [Context.target, hroot, path_eq, ← String.ofList_append]

/-- The path of a primitive says which one it is, and may stand in a target. -/
theorem tail_spec (p : Primitive) :
    primitive? (Uri.behind none ('/' :: tail p)) = some p ∧ '#' ∉ tail p ∧
      Uri.Allowed ("/txn/v1".toList ++ '/' :: tail p) ∧
      (path p).utf8ByteSize ≤ Uri.maxSize := by
  rcases p with _ | (_ | _) | _ | _ | _ <;> decide

/-- The request for a primitive. -/
def sent (uri : Uri) (x : Xid) : Request :=
  ⟨"POST", uri, Headers.ofList [("content-type", MediaType.xid.text),
    ("accept", MediaType.exception.text)], x.encoding⟩

theorem request_eq_ok {c : Context} {x : Xid} {p : Primitive} {uri : Uri}
    (h : Uri.parse (c.target (path p)) = .ok uri) : request c x p = .ok (sent uri x) := by
  have hbuild : Context.build "POST" (c.target (path p)) [("content-type", MediaType.xid.text),
      ("accept", MediaType.exception.text)] x.encoding = .ok (sent uri x) :=
    Context.build_eq_ok_iff.mpr ⟨by decide, uri, h, rfl⟩
  simp only [request, Xid.write_eq_put, Emission.result_put, hbuild, Except.mapError]

/-- A service understands what a client asks of a branch. -/
theorem accept_sent (config : ServiceConfig) {p : Primitive} {x : Xid} (hx : x.WithinLimits)
    (c : Context) (uri : Uri) :
    accept config { c.outgoing (sent uri x) with uri := Uri.behind none ('/' :: tail p) } =
      .ok (p, x) := by
  have hvalues : (c.outgoing (sent uri x)).headers.get? "content-type" =
      (Headers.ofList [("content-type", MediaType.xid.text),
        ("accept", MediaType.exception.text)]).get? "content-type" :=
    Headers.get?_eq_of_values_eq (Context.values_outgoing (by decide) _ _)
  refine accept_of_asks config
    ⟨rfl, primitive?_eq_some_iff.mp (tail_spec p).1, ?_, hx, by rw [Xid.write_eq_put]; rfl⟩
  change MediaType.xid.expect ((c.outgoing (sent uri x)).headers.get? "content-type") = _
  rw [hvalues]
  decide

theorem result_answerProbe (c : Context) (p : Primitive) (r : Request) (response : Response) :
    result c p (.ok (response.answerProbe r)) = result c p (.ok response) := by
  unfold result failure vote
  dsimp only
  rw [Response.status_answerProbe, Response.exception?_answerProbe,
    Response.get?_answerProbe (by decide)]

theorem result_announced (c : Context) (p : Primitive) (answersProbes : Bool) (r : Request)
    (response : Response) :
    result c p (.ok (Loopback.announced answersProbes r response)) = result c p (.ok response) := by
  cases answersProbes with
  | false => rfl
  | true => exact result_answerProbe c p r response

/-- A client reads the response to a primitive as what the branch answered. -/
theorem result_respond {config : ServiceConfig} {peer : ProtocolVersion} {c : Context}
    {p : Primitive} {answer : PrimitiveResult} (hknown : config.known = c.known)
    (hk : c.known.Coherent)
    (hproper : match answer with
      | .ok vote => vote.isSome = (p == .prepare)
      | .error e => (Bytes.ofText e.message).length < 0x100000000) :
    result c p (.ok (respond (config.dialect peer) answer)) = told answer := by
  cases answer with
  | ok vote =>
      cases vote with
      | none =>
          have hp : p ≠ .prepare := by
            rintro rfl
            cases hproper
          exact congrArg Except.ok (if_neg hp)
      | some vote =>
          have hp : p = .prepare := beq_iff_eq.mp hproper.symm
          subst hp
          cases vote with
          | ok => rfl
          | readOnly =>
              refine congrArg (fun v => Except.ok (some v)) ?_
              change vote { Response.bare .ok with
                headers := Headers.empty.add readOnlyHeader "true" } = .readOnly
              decide
  | error e =>
      have hd := XaError.annotate_service config peer
      obtain ⟨b, hw⟩ := XaError.exists_write_toRemote hd hproper
      have hread := XaError.outcome_read_toRemote hk hknown hd hw
      have hexception := Response.exception?_ofException .internalError hw hread
      have hstatus : (Response.ofException .internalError (config.dialect peer)
          e.toRemote).status.isSuccess = false := by
        rw [Response.ofException_status]
        rfl
      simp only [result, respond, hstatus, failure, hexception, XaError.ofRemote?_toRemote, told,
        Bool.false_eq_true, if_false]

/-- What is told of an answer must not depend on what the answer says of the version. -/
theorem drive_of_answer {τ : Type} {transport : Transport τ} {c : Context} {x : Xid}
    {p : Primitive} {r : Request} {response : Response} {s t : τ} {answer : PrimitiveResult}
    (hr : request c x p = .ok r)
    (htransport : transport (c.outgoing r) s = (some (.ok response), t))
    (hresult : ∀ connection, result { c with connection } p (.ok response) = answer) :
    ∃ c' : Context, c'.root = c.root ∧ c'.known = c.known ∧
      drive transport x p .lowered c s = (answer, .lowered, c', t) := by
  obtain ⟨connection, hafter⟩ := c.afterExchange_eq c.connection.isProbing (.ok response)
  refine ⟨{ c with connection }, rfl, rfl, ?_⟩
  simp only [drive, hr, Context.exchange, htransport, hafter, hresult]
  rfl

variable {root : String} {answersProbes : Bool} {config : ServiceConfig}
  {terminator : Terminator σ}
  {routes : List (String × Service (σ × List (Primitive × Xid)))}

/-- A primitive that is driven is performed and told, whatever the version of the connection. -/
theorem drive_eq (answersProbes : Bool)
    (hmount : Router.Mounts routes "/txn/v1" (serve config (recording terminator)))
    (hproper : terminator.Proper) {c : Context}
    (hroot : c.root = String.ofList (Loopback.mount root)) (hknown : config.known = c.known)
    (hk : c.known.Coherent) {p : Primitive} {x : Xid} (hx : x.WithinLimits)
    (hshown : Shown (c.target (path p))) (s : σ) (record : List (Primitive × Xid)) :
    ∃ c' : Context, c'.root = c.root ∧ c'.known = c.known ∧
      drive (Loopback.routed root answersProbes routes) x p .lowered c (s, record) =
        (told (terminator p x s).1, .lowered, c', (terminator p x s).2, record ++ [(p, x)]) := by
  obtain ⟨uri, hparse, htext⟩ := hshown
  have htarget : (c.outgoing (sent uri x)).uri.text.toList =
      Loopback.mount root ++ ("/txn/v1".toList ++ '/' :: tail p) := by
    change uri.text.toList = _
    rw [htext, target_path hroot, String.toList_ofList]
  obtain ⟨-, hmark, hallowed, hsize⟩ := tail_spec p
  rw [path_eq] at hsize
  have harrived := Loopback.routed_of_text answersProbes hmount
    (by decide) (by decide) ⟨_, rfl⟩ htarget hmark hallowed hsize (s, record)
  simp only [serve_recording (accept_sent config hx c uri)] at harrived
  refine drive_of_answer (request_eq_ok hparse) harrived fun connection => ?_
  rw [result_announced]
  exact result_respond hknown hk (hproper p x s)

/-- A primitive whose target is not shown as it is written is not asked of anybody. -/
theorem drive_of_not_shown {root : String} {service : Service σ} {c : Context}
    (hroot : c.root = String.ofList (Loopback.mount root)) {p : Primitive} (x : Xid)
    (h : ¬ Shown (c.target (path p))) (s : σ) :
    ∃ e c', e.code = Outcome.managerError ∧
      drive (Loopback.transport root service) x p .lowered c s = (.error e, .lowered, c', s) := by
  cases hparse : Uri.parse (c.target (path p)) with
  | error reason =>
      have hr : request c x p = .error (.managerFailure reason.message []) := by
        simp only [request, Xid.write_eq_put, Emission.result_put, Context.build, hparse,
          Except.mapError]
      exact ⟨.managerFailure reason.message [], c, rfl, by simp only [drive, hr]⟩
  | ok uri =>
      cases hstrip : Loopback.strip root (c.outgoing (sent uri x)) with
      | error e =>
          refine ⟨.managerFailure e.message [], c, rfl, ?_⟩
          simp only [drive, request_eq_ok hparse, Context.exchange, Loopback.transport, hstrip]
          rfl
      | ok stripped =>
          refine absurd ⟨uri, hparse, ?_⟩ h
          rw [target_path hroot] at hparse ⊢
          have hpath : ∃ more, "/txn/v1".toList ++ '/' :: tail p = '/' :: 't' :: more :=
            ⟨"xn/v1".toList ++ '/' :: tail p, rfl⟩
          have hwhole : Uri.beforeFragment ("/txn/v1".toList ++ '/' :: tail p) =
              "/txn/v1".toList ++ '/' :: tail p := by
            refine Uri.beforeFragment_eq_self fun hmem => ?_
            rcases List.mem_append.mp hmem with hmem | hmem
            · exact absurd hmem (by decide)
            · rcases List.mem_cons.mp hmem with hmark | hmem
              · exact absurd hmark (by decide)
              · exact (tail_spec p).2.1 hmem
          have htext := Loopback.text_of_strip (r := c.outgoing (sent uri x)) hpath (by decide)
            hparse hstrip
          rw [hwhole] at htext
          rw [← String.toList_inj, String.toList_ofList]
          exact htext

/-- Branches that are driven from afar, at targets that are shown as they are written, are asked the
same in the same order, and what is told of their answers is what they would answer to one who is
there. At any other target nobody is asked anything, and the coordinator is told so. -/
theorem driven_as_performed
    (hmount : Router.Mounts routes "/txn/v1" (serve config (recording terminator)))
    (hproper : terminator.Proper) (hknown : config.known = .protocolV1)
    (offered : ProtocolVersion) {steps : List (Primitive × Xid)}
    (hx : ∀ step ∈ steps, step.2.WithinLimits) (s : σ) :
    let transport := Loopback.routed root answersProbes routes
    let c := Context.make root .protocolV1 offered
    let there := performAll terminator steps s
    ((∀ step ∈ steps, Shown (c.target (path step.1))) →
      ∃ c', driveAll transport steps .lowered c (s, []) =
        (there.1.map told, .lowered, c', there.2, steps)) ∧
    ∀ p x, ¬ Shown (c.target (path p)) →
      ∃ e c', e.code = Outcome.managerError ∧
        drive transport x p .lowered c (s, []) = (.error e, .lowered, c', s, []) := by
  refine ⟨fun hshown => ?_, fun p x hshown => drive_of_not_shown rfl x hshown (s, [])⟩
  -- The connection and the record at the start of the rest of a run may be any.
  suffices hrun : ∀ (c : Context) (record : List (Primitive × Xid)),
      c.root = String.ofList (Loopback.mount root) → c.known = .protocolV1 →
      (∀ step ∈ steps, Shown (c.target (path step.1))) →
      ∃ c', driveAll (Loopback.routed root answersProbes routes) steps .lowered c (s, record) =
        ((performAll terminator steps s).1.map told, .lowered, c',
          (performAll terminator steps s).2, record ++ steps) from
    hrun (Context.make root .protocolV1 offered) [] rfl rfl hshown
  clear hshown
  induction steps generalizing s with
  | nil => exact fun c record _ _ _ => ⟨c, by simp [driveAll, performAll]⟩
  | cons step steps ih =>
      obtain ⟨p, x⟩ := step
      intro c record hroot hc hshown
      obtain ⟨hx, hxs⟩ := List.forall_mem_cons.mp hx
      obtain ⟨hshown, hshowns⟩ := List.forall_mem_cons.mp hshown
      obtain ⟨c', hroot', hknown', hdrive⟩ := drive_eq answersProbes hmount
        hproper hroot (hknown.trans hc.symm) (hc ▸ KnownValues.protocolV1_coherent) hx hshown s
        record
      obtain ⟨c'', hrest⟩ := ih hxs (terminator p x s).2 c' (record ++ [(p, x)])
        (hroot'.trans hroot) (hknown'.trans hc) fun step hstep => by
          rw [Context.target, hroot']
          exact hshowns step hstep
      refine ⟨c'', ?_⟩
      simp only [driveAll, hdrive, hrest, performAll, List.map_cons, List.append_assoc,
        List.singleton_append]

/-- A branch that has done no work is prepared and forgotten by a legacy client. -/
theorem driven_as_performed_read_only :
    let terminator : Terminator Nat := fun p _ n =>
      (match p with
        | .prepare => .ok (some .readOnly)
        | _ => .error (.make Outcome.unknownBranch KnownValues.returnedKeys), n + 1)
    let branches := serve .standard (recording terminator)
    let steps : List (Primitive × Xid) := [(.prepare, ⟨1, [1], []⟩), (.commit true, ⟨1, [1], [2]⟩)]
    ∃ c, driveAll (Loopback.routed "http://localhost:8080/s/" true [("/txn/v1", branches)]) steps
        .lowered (Context.make "http://localhost:8080/s/" .protocolV1 .v1) (0, []) =
      ([.ok (some .readOnly), .error (.make Outcome.unknownBranch KnownValues.returnedKeys)],
        .lowered, c, 2, steps) := by
  intro terminator branches steps
  have hmount : Router.Mounts [("/txn/v1", branches)] "/txn/v1" branches :=
    ⟨List.mem_singleton_self _, fun route hroute _ => List.mem_singleton.mp hroute⟩
  have hproper : terminator.Proper := by
    intro p x n
    have hlength : (Bytes.ofText KnownValues.returnedKeys).length < 0x100000000 := by
      decide
    cases p with
    | prepare => rfl
    | _ => exact hlength
  exact (driven_as_performed hmount hproper rfl .v1 (by decide) 0).1 (by decide +kernel)

/-- A target with a fragment is not shown as it is written, and does not reach the service whose
root holds the fragment. -/
theorem not_driven_behind_fragment :
    let terminator : Terminator Unit := fun _ _ s =>
      (.error (.make Outcome.unknownBranch "unknown transaction"), s)
    let branches := serve .standard (recording terminator)
    let c := Context.make "http://localhost:8080/s#f" .protocolV1 .v2
    let steps : List (Primitive × Xid) := [(.forget, ⟨1, [1], [2]⟩)]
    let there := performAll terminator steps ()
    let (results, _, _, _, record) := driveAll
      (Loopback.routed "http://localhost:8080/s#f" true [("/txn/v1", branches)]) steps .lowered c
      ((), [])
    (Uri.parse (c.target (path .forget))).toBool = true ∧ record = [] ∧
      results = [.error (.managerFailure
        "Connection to service lost: no route to http://localhost:8080/s" [])] ∧
      there.1 = [.error (.make Outcome.unknownBranch "unknown transaction")] := by
  decide +kernel

end BranchClient

end RemoteCall
