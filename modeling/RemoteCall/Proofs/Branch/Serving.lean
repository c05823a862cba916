import RemoteCall.Branch.Endpoint
import RemoteCall.Proofs.Branch.Xid
import RemoteCall.Proofs.Service.Dialect
import RemoteCall.Proofs.Text.Trimmed

/-!
# What is asked of branches

A request asks something of a branch when it passes four gates, of which the last is that its body
is what is written for the name of a branch, with nothing missing and nothing left over. The branch
is asked this once, and by no other request at all. Other requests are turned down at the first gate
that they do not pass.
-/

namespace RemoteCall

open Reader

namespace Xid

theorem length_toString_le {i : Int} (h : i.natAbs < 2 ^ 64) : (toString i).length ≤ 21 := by
  cases i with
  | ofNat n =>
      have hle := CodecError.length_toString_le (n := n) h
      exact Nat.le_succ_of_le hle
  | negSucc n =>
      have hle := CodecError.length_toString_le (n := n + 1) h
      have hsign : "-".length = 1 := by decide
      change ("-" ++ toString (n + 1)).length ≤ 21
      rw [String.length_append]
      omega

theorem readPart_fails : FailsFor ProtocolError.Brief readPart := by
  have hend (e : CodecError) (he : e = .unexpectedEnd) : (ProtocolError.codec e).Brief := by
    rw [he]
    trivial
  refine (FailsFor.int.weaken hend).ofCodec.bind fun length => ?_
  split
  · exact ((FailsFor.take _).weaken hend).ofCodec
  · refine .throw ?_
    have hle := length_toString_le (i := length.toInt) (by
      have := length.toInt_lt
      have := length.le_toInt
      omega)
    have hbefore : "block length ".length = 13 := by decide
    change ("block length " ++ toString length.toInt).length ≤ 60
    rw [String.length_append]
    omega

theorem read_fails : FailsFor ProtocolError.Brief read := by
  refine FailsFor.bind ?_ fun format => readPart_fails.bind fun globalId =>
    readPart_fails.bind fun qualifier => .pure _
  refine (FailsFor.int.weaken fun e he => ?_).ofCodec
  rw [he]
  trivial

end Xid

namespace BranchEndpoint

variable {σ : Type}

/-! ### Targets -/

/-- The target names a primitive: its path is the path of the primitive with any number of slashes
behind it, and a commit is in one phase exactly if some part of the query asks for it. -/
def Names (uri : Http.Uri) (p : Primitive) : Prop :=
  (∃ n, uri.path.toList = (pathOf p).toList ++ List.replicate n '/') ∧
    ∀ onePhase, p = .commit onePhase → (onePhase = true ↔ ∃ q ∈ uri.query,
      ∃ part ∈ Text.split '&' q.toList, Text.sameFolded part "opc=true".toList = true)

theorem asksOnePhase_iff {query : Option String} : asksOnePhase query = true ↔
    ∃ q ∈ query, ∃ part ∈ Text.split '&' q.toList,
      Text.sameFolded part "opc=true".toList = true := by
  cases query with
  | none => simp [asksOnePhase]
  | some q => simp [asksOnePhase]

theorem primitive?_eq_some_iff {uri : Http.Uri} {p : Primitive} :
    primitive? uri = some p ↔ Names uri p := by
  constructor
  · intro h
    have hpath := beq_iff_eq.mp (List.find?_some (p := fun p => pathOf p == _) h)
    have hmem := List.mem_of_find?_eq_some h
    obtain ⟨n, hn⟩ := Text.exists_eq_dropTrailing_append '/' uri.path.toList
    refine ⟨⟨n, by rwa [hpath, String.toList_ofList]⟩, ?_⟩
    rintro onePhase rfl
    obtain rfl : onePhase = asksOnePhase uri.query := by simpa using hmem
    exact asksOnePhase_iff
  · rintro ⟨⟨n, hpath⟩, honePhase⟩
    have hslash : (pathOf p).toList.getLast? ≠ some '/' := by
      cases p with
      | commit _ => exact (by decide : "/xa/commit".toList.getLast? ≠ some '/')
      | _ => decide
    unfold primitive?
    rw [hpath, Text.dropTrailing_append_replicate hslash, String.ofList_toList]
    cases p with
    | commit onePhase =>
        have hasks : asksOnePhase uri.query = onePhase := by
          rw [Bool.eq_iff_iff, asksOnePhase_iff, honePhase onePhase rfl]
        rw [hasks]
        rfl
    | _ => rfl

/-! ### Bodies -/

/-- The body is what is written for the name of a branch. -/
theorem outcome_readBody_iff {b : Bytes} {x : Xid} :
    Reader.outcome readBody b = .ok x ↔ x.WithinLimits ∧ x.write.result = .ok b := by
  rw [Xid.write_eq_put, Emission.result_put, Except.ok.injEq]
  constructor
  · intro h
    obtain ⟨c, hread⟩ := outcome_eq_ok_iff.mp h
    obtain ⟨x', c₁, hx, hread⟩ := bind_eq_ok hread
    obtain ⟨_, c₂, hfinish, hpure⟩ := bind_eq_ok hread
    cases hpure
    obtain ⟨_, hb, rfl, hlimits⟩ := Xid.accepts_read _ x c₁ hx
    rw [Parse.unread_of_finish hfinish, List.append_nil] at hb
    exact ⟨hlimits, hb.symm⟩
  · rintro ⟨hlimits, rfl⟩
    exact (framed_of_fills (Parse.fills_last id (Xid.delimits_encoding hlimits))).whole

/-- Why a body is not read can be told in short. -/
theorem brief_of_outcome_readBody {b : Bytes} {e : ProtocolError} (hb : b.length < 2 ^ 64)
    (h : Reader.outcome readBody b = .error e) : e.Brief := by
  obtain ⟨c, hread⟩ := outcome_eq_error_iff.mp h
  unfold readBody at hread
  cases hx : Xid.read (Cursor.start b) with
  | error e' c₁ =>
      rw [bind_of_error hx] at hread
      cases hread
      exact Xid.read_fails _ _ _ hx
  | ok x c₁ =>
      obtain ⟨_, hunread, -⟩ := Xid.accepts_read _ x c₁ hx
      have hlength : c₁.unread.length ≤ b.length := by
        have hsplit := congrArg List.length hunread
        rw [List.length_append] at hsplit
        exact Nat.le.intro ((Nat.add_comm _ _).trans hsplit.symm)
      rw [bind_of_ok hx] at hread
      cases hfinish : Parse.finish c₁ with
      | ok _ c₂ =>
          rw [bind_of_ok hfinish] at hread
          cases hread
      | error e' c₂ =>
          rw [bind_of_error hfinish] at hread
          cases hread
          rw [Parse.cause_of_finish hfinish]
          exact Nat.lt_of_le_of_lt hlength hb

/-! ### Requests -/

/-- The same branches with a record of what they are asked. -/
def recording (terminator : Terminator σ) : Terminator (σ × List (Primitive × Xid)) :=
  fun p x s =>
    let (result, t) := terminator p x s.1
    (result, t, s.2 ++ [(p, x)])

/-- The request asks this of this branch: it is a post to the path of the primitive, its media type
is that of the names of branches, and its body is the name of the branch as it is written. -/
structure Asks (r : Http.Request) (p : Primitive) (x : Xid) : Prop where
  method : r.method = "POST"
  names : Names r.uri p
  type : MediaType.xid.expect r.contentType? = .ok ()
  limits : x.WithinLimits
  body : x.write.result = .ok r.body

/-- How a request is turned down that asks nothing of any branch: by the first gate that it does not
pass, and at the last one with an exception that tells why. This is written, as lengths are machine
words. -/
inductive TurnedDown (d : Dialect) (r : Http.Request) : Http.Response → Prop
  | method (h : r.method ≠ "POST") : TurnedDown d r (.bare .methodNotAllowed)
  | path (hmethod : r.method = "POST") (h : ∀ p, ¬ Names r.uri p) : TurnedDown d r (.bare .notFound)
  | type {p : Primitive} (hmethod : r.method = "POST") (hnames : Names r.uri p)
      (h : MediaType.xid.expect r.contentType? ≠ .ok ()) : TurnedDown d r (.bare .badRequest)
  | body {p : Primitive} {message : String} {response : Http.Response} (hmethod : r.method = "POST")
      (hnames : Names r.uri p) (htype : MediaType.xid.expect r.contentType? = .ok ())
      (h : ∀ x : Xid, x.WithinLimits → x.write.result ≠ .ok r.body)
      (hresponse : (∃ body,
          ((RemoteException.ofMessage Fault.Class.streamCorrupted message).write d).result =
            .ok body ∧
          response = .withBody .badRequest MediaType.exception body) ∨
        2 ^ 64 ≤ r.body.length ∧ response = .bare .badRequest) :
      TurnedDown d r response

theorem accept_of_asks (config : ServiceConfig) {r : Http.Request} {p : Primitive} {x : Xid}
    (h : Asks r p x) : accept config r = .ok (p, x) := by
  unfold accept
  rw [if_neg (not_not_intro h.method), primitive?_eq_some_iff.mpr h.names]
  simp only [h.type, outcome_readBody_iff.mpr ⟨h.limits, h.body⟩]

/-- The gates let a request pass that asks something, and turn down any other. -/
theorem accept_spec (config : ServiceConfig) (r : Http.Request) :
    match accept config r with
    | .ok (p, x) => Asks r p x
    | .error response =>
        (∀ p x, ¬ Asks r p x) ∧ TurnedDown (config.dialect r.peerVersion) r response := by
  by_cases hmethod : r.method = "POST"
  · unfold accept
    rw [if_neg (not_not_intro hmethod)]
    cases hp : primitive? r.uri with
    | none =>
        have hnames (p : Primitive) : ¬ Names r.uri p := fun h =>
          nomatch hp.symm.trans (primitive?_eq_some_iff.mpr h)
        exact ⟨fun p x h => hnames p h.names, .path hmethod hnames⟩
    | some p =>
        have hnames := primitive?_eq_some_iff.mp hp
        cases htype : MediaType.xid.expect r.contentType? with
        | error e =>
            have hexpect : MediaType.xid.expect r.contentType? ≠ .ok () := fun h =>
              nomatch htype.symm.trans h
            exact ⟨fun p x h => hexpect h.type, .type hmethod hnames hexpect⟩
        | ok _ =>
            cases hbody : Reader.outcome readBody r.body with
            | ok x =>
                obtain ⟨hlimits, hwritten⟩ := outcome_readBody_iff.mp hbody
                exact ⟨hmethod, hnames, htype, hlimits, hwritten⟩
            | error e =>
                have hnone (x : Xid) (hlimits : x.WithinLimits) :
                    x.write.result ≠ .ok r.body := fun h =>
                  nomatch hbody.symm.trans (outcome_readBody_iff.mpr ⟨hlimits, h⟩)
                have hcases := config.ofException_cases r.peerVersion .badRequest
                  Fault.Class.streamCorrupted e.message (by decide) (by decide)
                refine ⟨fun p x h => hnone x h.limits h.body,
                  .body hmethod hnames htype hnone (hcases.imp_right fun ⟨hlong, hbare⟩ => ?_)⟩
                refine ⟨Nat.le_of_not_lt fun hlength => hlong (Codec.fits_of_length ?_), hbare⟩
                have hle := (brief_of_outcome_readBody hlength hbody).length_message_le
                omega
  · unfold accept
    rw [if_pos hmethod]
    exact ⟨fun p x h => hmethod h.method, .method hmethod⟩

theorem serve_recording {config : ServiceConfig} {r : Http.Request} {p : Primitive} {x : Xid}
    (h : accept config r = .ok (p, x)) (terminator : Terminator σ) (s : σ)
    (record : List (Primitive × Xid)) :
    serve config (recording terminator) r (s, record) =
      (respond (config.dialect r.peerVersion) (terminator p x s).1, (terminator p x s).2,
        record ++ [(p, x)]) := by
  simp only [serve, h, recording]

/-- A request has a branch asked once at most, and exactly what it asks of this branch. One that
asks nothing leaves all branches as they are, and is turned down at the first gate that it does not
pass. -/
theorem asked_exactly (config : ServiceConfig) (terminator : Terminator σ) (r : Http.Request)
    (s : σ) :
    ∃ response t asked, serve config (recording terminator) r (s, []) = (response, t, asked) ∧
      asked.length ≤ 1 ∧ (∀ p x, (p, x) ∈ asked ↔ Asks r p x) ∧
      (∀ p x, (p, x) ∈ asked → response = respond (config.dialect r.peerVersion)
        (terminator p x s).1 ∧ t = (terminator p x s).2) ∧
      (asked = [] → t = s ∧ TurnedDown (config.dialect r.peerVersion) r response) := by
  have hspec := accept_spec config r
  cases haccept : accept config r with
  | error response =>
      rw [haccept] at hspec
      obtain ⟨hnone, hturned⟩ := hspec
      refine ⟨response, s, [], by simp only [serve, haccept], Nat.zero_le 1, fun p x => ?_, ?_,
        fun _ => ⟨rfl, hturned⟩⟩
      · exact ⟨fun h => (nomatch h), fun h => absurd h (hnone p x)⟩
      · rintro p x ⟨⟩
  | ok step =>
      obtain ⟨p, x⟩ := step
      rw [haccept] at hspec
      refine ⟨_, _, [(p, x)], serve_recording haccept terminator s [], Nat.le_refl 1,
        fun p' x' => ?_, fun p' x' h => ?_, fun h => nomatch h⟩
      · rw [List.mem_singleton]
        constructor
        · rintro ⟨⟩
          exact hspec
        · intro h
          exact Except.ok.inj ((accept_of_asks config h).symm.trans haccept)
      · cases List.mem_singleton.mp h
        exact ⟨rfl, rfl⟩

end BranchEndpoint

end RemoteCall
