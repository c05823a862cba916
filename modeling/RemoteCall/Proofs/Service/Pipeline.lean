import Mathlib.Control.Monad.Basic
import RemoteCall.Proofs.Service.Dialect
import RemoteCall.Service.Dispatch

/-!
# The order in which a service asks its collaborators

A call goes through fixed stages, and the next stage is reached only if the one before succeeded.
Nobody is asked anything before the whole body has been read. However an exchange goes on, and also
when a collaborator breaks down, a place in the register that was taken is given back once, after
everything else.

## Implementation notes

A collaborator may have any state and may answer anything at any time, so what may come of an
exchange is described without it, by `Exchange.Course`. A look-up fails by its reply, but a call
that has ended counts as a stage that succeeded, whatever became of it: it is acknowledged in any
case.
-/

namespace RemoteCall

/-- A question with its answer. -/
structure Event where
  question : Question
  answer : Answer question.Reply

/-- What a question is asked for. -/
inductive Stage where
  | importBranch
  | isHome
  | locate
  | register
  | invoke
  | acknowledge
  | release
  deriving DecidableEq, Repr

/-- The stage that a question belongs to. -/
def Question.stage : Question → Stage
  | importBranch _ _ => .importBranch
  | isHome _ _ => .isHome
  | locate _ _ => .locate
  | register _ => .register
  | invoke _ => .invoke
  | acknowledge _ => .acknowledge
  | release => .release

/-- Whether a reply gives what a question asks for. -/
def Question.isGranted : (q : Question) → q.Reply → Bool
  | importBranch _ _, .error _ => false
  | locate _ _, .error _ => false
  | _, _ => true

namespace Event

/-- Whether a question was answered with what it asks for. -/
def succeeds (e : Event) : Bool :=
  match e.answer with
  | .reply a => e.question.isGranted a
  | .broke _ => false

/-- The stage of a question and whether it succeeded. -/
def step (e : Event) : Stage × Bool :=
  (e.question.stage, e.succeeds)

/-- The result of a call, where the call was asked for and succeeded. -/
def result? (e : Event) : Option Value :=
  match e with
  | ⟨.invoke _, .reply (.success v)⟩ => some v
  | _ => none

theorem result?_eq_some_iff {e : Event} {v : Value} :
    e.result? = some v ↔ ∃ call, e = ⟨.invoke call, .reply (.success v)⟩ := by
  constructor
  · intro h
    unfold result? at h
    split at h
    · next call v' =>
      obtain rfl := Option.some.inj h
      exact ⟨call, rfl⟩
    · cases h
  · rintro ⟨call, rfl⟩
    rfl

end Event

namespace Exchange

variable {σ : Type}

/-- The same collaborator with a record of what it is asked and answers. -/
def recording (collaborator : (q : Question) → σ → Answer q.Reply × σ) (q : Question)
    (s : σ × List Event) : Answer q.Reply × σ × List Event :=
  let (a, t) := collaborator q s.1
  (a, t, s.2 ++ [⟨q, a⟩])

/-- Collaborators that grant whatever they are asked, and of whom every call ends in the same way. -/
def granting (called : Answer CallOutcome) (q : Question) (s : σ) : Answer q.Reply × σ :=
  match q with
  | .importBranch _ _ => (.reply (.ok 0), s)
  | .isHome _ _ => (.reply false, s)
  | .locate _ _ => (.reply (.ok ()), s)
  | .register _ => (.reply (), s)
  | .invoke _ => (called, s)
  | .acknowledge _ => (.reply (), s)
  | .release => (.reply (), s)

/-- What may come of an exchange. -/
inductive Course : Exchange → (held : Bool) → List Event → Ending → Prop
  | respond (r : Http.Response) (held : Bool) : Course (.respond r) held [] (.response r)
  | reply {q : Question} {next : q.Reply → Exchange} {held : Bool} {events : List Event}
      {ending : Ending} (a : q.Reply) (tail : Course (next a) (q.holds held) events ending) :
      Course (.ask q next) held (⟨q, .reply a⟩ :: events) ending
  | broke {q : Question} {next : q.Reply → Exchange} {held : Bool} (m : Breakdown)
      (h : (held && !q.isRelease) = false) :
      Course (.ask q next) held [⟨q, .broke m⟩] (.broke m)
  | brokeHeld {q : Question} {next : q.Reply → Exchange} {held : Bool} (m : Breakdown)
      (h : (held && !q.isRelease) = true) (a : Answer Unit) :
      Course (.ask q next) held [⟨q, .broke m⟩, ⟨.release, a⟩] (.broke m)

/-- Whatever collaborators do, it is a course of the exchange, and a record of it changes
nothing. -/
theorem run_recording (collaborator : (q : Question) → σ → Answer q.Reply × σ) (e : Exchange)
    (held : Bool) (s : σ) (record : List Event) :
    ∃ events, e.run (recording collaborator) held (s, record) =
        ((e.run collaborator held s).1, (e.run collaborator held s).2.1,
          (e.run collaborator held s).2.2, record ++ events) ∧
      (e.run collaborator held s).1 = events.map (·.question) ∧
      Course e held events (e.run collaborator held s).2.1 := by
  induction e generalizing held s record with
  | respond r => exact ⟨[], by simp [run], rfl, .respond r held⟩
  | ask q next ih =>
      rcases h : collaborator q s with ⟨a | m, t⟩
      · obtain ⟨events, hrun, hasked, hcourse⟩ := ih a (q.holds held) t (record ++ [⟨q, .reply a⟩])
        refine ⟨⟨q, .reply a⟩ :: events, ?_, ?_, ?_⟩
        · simp only [run, recording, h, hrun, List.append_assoc, List.singleton_append]
        · simp only [run, h, hasked, List.map_cons]
        · simp only [run, h]
          exact hcourse.reply a
      · by_cases hheld : (held && !q.isRelease) = true
        · refine ⟨[⟨q, .broke m⟩, ⟨.release, (collaborator .release t).1⟩], ?_, ?_, ?_⟩
          · simp [run, recording, h, hheld]
          · simp [run, h, hheld]
          · simp only [run, h, hheld]
            exact .brokeHeld m hheld _
        · refine ⟨[⟨q, .broke m⟩], ?_, ?_, ?_⟩
          · simp [run, recording, h, hheld]
          · simp [run, h, hheld]
          · simp only [run, h, hheld]
            exact .broke m (Bool.eq_false_iff.mpr hheld)

end Exchange

/-- A place in the register that is held is given back once, and nothing else is done. -/
def Closing (held : Bool) (steps : List (Stage × Bool)) : Prop :=
  if held then ∃ succeeded, steps = [(.release, succeeded)] else steps = []

/-- Steps go through a plan up to one that does not succeed, or to its end, and close then. -/
inductive Follows : (plan : List Stage) → (held : Bool) → List (Stage × Bool) → Prop
  | ended {held : Bool} {steps : List (Stage × Bool)} (h : Closing held steps) :
      Follows [] held steps
  | stopped (stage : Stage) (plan : List Stage) {held : Bool} {steps : List (Stage × Bool)}
      (h : Closing held steps) : Follows (stage :: plan) held ((stage, false) :: steps)
  | went {stage : Stage} {plan : List Stage} {held : Bool} {steps : List (Stage × Bool)}
      (h : Follows plan (held || stage == .register) steps) :
      Follows (stage :: plan) held ((stage, true) :: steps)

theorem Follows.stopped_open (stage : Stage) (plan : List Stage) :
    Follows (stage :: plan) false [(stage, false)] :=
  .stopped stage plan rfl

/-- What is done and how it is closed, for an exchange that keeps to a plan. -/
structure KeepsTo (plan : List Stage) (done closing : List (Stage × Bool)) : Prop where
  in_order : done.map Prod.fst <+: plan
  reached : done.Pairwise fun earlier _ => earlier.2 = true
  stops : done.map Prod.fst = plan ∨ ∃ stage, (stage, false) ∈ done
  once : ((done ++ closing).map Prod.fst).Nodup
  closes : Closing (done.contains (.register, true)) closing

theorem Closing.stages {held : Bool} {steps : List (Stage × Bool)} (h : Closing held steps) :
    steps.map Prod.fst = if held then [.release] else [] := by
  cases held with
  | true =>
      obtain ⟨succeeded, rfl⟩ := h
      rfl
  | false => exact congrArg (List.map Prod.fst) h

/-- Steps that follow a plan are what was done of it and the closing. -/
theorem Follows.exists_append {plan : List Stage} {held : Bool} {steps : List (Stage × Bool)}
    (h : Follows plan held steps) :
    ∃ done closing, steps = done ++ closing ∧ done.map Prod.fst <+: plan ∧
      (done.Pairwise fun earlier _ => earlier.2 = true) ∧
      (done.map Prod.fst = plan ∨ ∃ stage, (stage, false) ∈ done) ∧
      Closing (held || done.contains (.register, true)) closing := by
  induction h with
  | @ended held steps h =>
      exact ⟨[], steps, rfl, List.nil_prefix, .nil, .inl rfl, by simpa using h⟩
  | @stopped stage plan held steps h =>
      refine ⟨[(stage, false)], steps, rfl, ?_, List.pairwise_singleton _ _, .inr ⟨stage, ?_⟩, ?_⟩
      · exact List.cons_prefix_cons.mpr ⟨rfl, List.nil_prefix⟩
      · exact List.mem_cons_self
      · simpa using h
  | @went stage plan held steps h ih =>
      obtain ⟨done, closing, rfl, horder, hreached, hstops, hcloses⟩ := ih
      refine ⟨(stage, true) :: done, closing, rfl, ?_, ?_, ?_, ?_⟩
      · exact List.cons_prefix_cons.mpr ⟨rfl, horder⟩
      · exact List.pairwise_cons.mpr ⟨fun _ _ => rfl, hreached⟩
      · rcases hstops with hall | ⟨s, hs⟩
        · exact .inl (congrArg (stage :: ·) hall)
        · exact .inr ⟨s, List.mem_cons_of_mem _ hs⟩
      · have hheld : ((stage, true) :: done).contains (Stage.register, true) =
            ((stage == .register) || done.contains (.register, true)) := by
          cases stage <;> simp
        rwa [hheld, ← Bool.or_assoc]

/-- A plan without repetitions, in which nothing is given back, is kept to. -/
theorem Follows.keepsTo {plan : List Stage} {steps : List (Stage × Bool)}
    (h : Follows plan false steps) (hnodup : (.release :: plan).Nodup) :
    ∃ done closing, steps = done ++ closing ∧ KeepsTo plan done closing := by
  obtain ⟨done, closing, hsteps, horder, hreached, hstops, hcloses⟩ := h.exists_append
  rw [Bool.false_or] at hcloses
  obtain ⟨hrelease, hplan⟩ := List.nodup_cons.mp hnodup
  refine ⟨done, closing, hsteps, horder, hreached, hstops, ?_, hcloses⟩
  rw [List.map_append, hcloses.stages]
  split
  · refine List.nodup_append.mpr ⟨hplan.sublist horder.sublist, List.pairwise_singleton _ _, ?_⟩
    rintro stage hdone last hlast rfl
    rw [List.mem_singleton.mp hlast] at hdone
    exact hrelease (horder.subset hdone)
  · rw [List.append_nil]
    exact hplan.sublist horder.sublist

theorem Question.holds_eq {q : Question} (hq : q.isRelease = false) (held : Bool) :
    q.holds held = (held || q.stage == .register) := by
  cases q <;> simp_all [holds, stage, isRelease]

namespace Exchange

variable {q : Question} {next : q.Reply → Exchange} {held : Bool} {events : List Event}
  {ending : Ending}

/-- A question is the first step of a plan when what follows a reply that grants it follows the
rest of the plan, and what follows another reply is the response. -/
theorem Course.follows_ask {plan : List Stage} (h : Course (.ask q next) held events ending)
    (hq : q.isRelease = false)
    (granted : ∀ a, q.isGranted a = true → ∀ events, Course (next a) (q.holds held) events ending →
      Follows plan (q.holds held) (events.map Event.step))
    (refused : ∀ a, q.isGranted a = false → held = false ∧ ∃ r, next a = .respond r) :
    Follows (q.stage :: plan) held (events.map Event.step) := by
  cases h with
  | reply a tail =>
      cases ha : q.isGranted a with
      | true =>
          have hrest := granted a ha _ tail
          rw [Question.holds_eq hq] at hrest
          simpa [Event.step, Event.succeeds, ha] using Follows.went hrest
      | false =>
          obtain ⟨rfl, r, hnext⟩ := refused a ha
          rw [hnext] at tail
          cases tail
          simpa [Event.step, Event.succeeds, ha] using Follows.stopped_open q.stage plan
  | broke m hheld =>
      have hclosed : held = false := by simpa [hq] using hheld
      subst hclosed
      simpa [Event.step, Event.succeeds] using Follows.stopped_open q.stage plan
  | brokeHeld m hheld a =>
      have hopen : held = true := by simpa [hq] using hheld
      subst hopen
      exact Follows.stopped q.stage plan ⟨_, rfl⟩

/-- After its end an exchange does nothing but give its place back. -/
theorem Course.closing_release {r : Http.Response} (h : Course (.ask .release fun _ => .respond r)
    true events ending) : Closing true (events.map Event.step) := by
  cases h with
  | reply a tail =>
      cases tail
      exact ⟨_, rfl⟩
  | broke m hheld => exact ⟨_, rfl⟩
  | brokeHeld m hheld a => cases hheld

end Exchange

namespace Dispatch

open Exchange

variable {d : Dialect} {events : List Event} {ending : Ending}

/-- The stages of a call whose body has been read: those of importing and of registering it are
left out where there is nothing to import or nothing to register it under. -/
def plan (imports registers : Bool) : List Stage :=
  (if imports then [.importBranch] else []) ++ [.isHome, .locate] ++
    (if registers then [.register] else []) ++ [.invoke, .acknowledge]

theorem conclude_follows {isRegistered : Bool} {attachments : Attachments} {outcome : CallOutcome}
    (h : Course (conclude d isRegistered attachments outcome) isRegistered events ending) :
    Follows [.acknowledge] isRegistered (events.map Event.step) := by
  refine h.follows_ask (q := .acknowledge _) rfl (fun a _ events tail => .ended ?_) ?_
  · cases isRegistered with
    | true => exact tail.closing_release
    | false => cases tail; rfl
  · rintro a ⟨⟩

theorem invoke_follows {isRegistered : Bool} {call : ResolvedCall}
    (h : Course (.ask (.invoke call) (conclude d isRegistered call.attachments)) isRegistered
      events ending) :
    Follows [.invoke, .acknowledge] isRegistered (events.map Event.step) := by
  refine h.follows_ask rfl (fun a _ events tail => conclude_follows tail) ?_
  rintro a ⟨⟩

theorem perform_follows {call : ResolvedCall}
    (h : Course (perform d call) false events ending) :
    Follows ((if call.identifier.isSome then [.register] else []) ++ [.invoke, .acknowledge]) false
      (events.map Event.step) := by
  unfold perform at h
  split at h
  · next id hid =>
    rw [hid]
    refine h.follows_ask rfl (fun a _ events tail => invoke_follows tail) ?_
    rintro a ⟨⟩
  · next hid =>
    rw [hid]
    exact invoke_follows h

theorem reach_follows {a : Accepted} {request : Invocation.Request} {imported : Option BranchRef}
    (h : Course (reach d a request imported) false events ending) :
    Follows (plan false a.identifier.isSome) false (events.map Event.step) := by
  refine h.follows_ask (q := .isHome _ _) rfl (fun isHome _ events tail => ?_) ?_
  · refine tail.follows_ask (q := .locate _ _) rfl (fun found hfound events tail => ?_) ?_
    · cases found with
      | error e => cases hfound
      | ok _ => exact perform_follows tail
    · intro found hfound
      cases found with
      | error e => exact ⟨rfl, _, rfl⟩
      | ok _ => cases hfound
  · rintro a ⟨⟩

theorem converse_follows {isManaged : Bool} {a : Accepted} {request : Invocation.Request}
    (h : Course (converse d isManaged a request) false events ending) :
    Follows (plan (request.transaction.isSome && isManaged) a.identifier.isSome) false
      (events.map Event.step) := by
  unfold converse at h
  cases ht : request.transaction with
  | none =>
      rw [ht] at h
      exact reach_follows h
  | some t =>
      rw [ht] at h
      cases isManaged with
      | false => exact reach_follows h
      | true =>
          refine h.follows_ask (q := .importBranch _ _) rfl ?_ ?_
          · intro imported hsome events tail
            cases imported with
            | error e => cases hsome
            | ok branch => exact reach_follows tail
          · intro imported hnone
            cases imported with
            | error e => exact ⟨rfl, _, rfl⟩
            | ok branch => cases hnone

theorem plan_nodup (imports registers : Bool) : (.release :: plan imports registers).Nodup := by
  revert imports registers
  decide

/-- How a service tells that it cannot read a body: by an exception whose class says whether a type
was refused, unless the text that says why is too long for its length to be written. -/
def Unread (d : Dialect) (e : ProtocolError) (response : Http.Response) : Prop :=
  ∃ className,
    ((∃ name, e = .codec (.refusedName name)) ∧ className = Fault.Class.invalidClass ∨
      (∀ name, e ≠ .codec (.refusedName name)) ∧ className = Fault.Class.streamCorrupted) ∧
    ((∃ body, ((RemoteException.ofMessage className e.message).write d).result = .ok body ∧
        response = .withBody .internalError MediaType.exception body) ∨
      ¬ Codec.Fits e.message ∧ response = .bare .internalError)

/-- A body that is not read is answered by an exception whose class says whether a type was
refused. -/
theorem unreadable_unread (config : ServiceConfig) (peer : ProtocolVersion) (e : ProtocolError) :
    Unread (config.dialect peer) e (unreadable (config.dialect peer) e) := by
  by_cases h : ∃ name, e = .codec (.refusedName name)
  · obtain ⟨name, rfl⟩ := h
    exact ⟨_, .inl ⟨⟨name, rfl⟩, rfl⟩,
      config.ofException_cases peer .internalError _ _ (by decide) (by decide)⟩
  · rw [not_exists] at h
    have hrefusal : ¬ e.isRefusal = true := fun hrefusal => by
      match e, hrefusal with
      | .codec (.refusedName name), _ => exact h name rfl
    refine ⟨_, .inr ⟨h, rfl⟩, ?_⟩
    rw [unreadable, if_neg hrefusal]
    exact config.ofException_cases peer .internalError _ _ (by decide) (by decide)

theorem start_of_read {config : ServiceConfig} {isManaged : Bool} {a : Accepted}
    {request : Invocation.Request}
    (h : Reader.outcome (Invocation.Request.read (config.dialect a.peer)
      a.address.method.parameterTypes.length) a.body = .ok request) :
    (start config isManaged a).2 = converse (config.dialect a.peer) isManaged a request := by
  obtain ⟨c, hread⟩ := Reader.outcome_eq_ok_iff.mp h
  simp only [start, hread]

theorem start_of_unreadable {config : ServiceConfig} {isManaged : Bool} {a : Accepted}
    {e : ProtocolError}
    (h : Reader.outcome (Invocation.Request.read (config.dialect a.peer)
      a.address.method.parameterTypes.length) a.body = .error e) :
    (start config isManaged a).2 = .respond (unreadable (config.dialect a.peer) e) := by
  obtain ⟨c, hread⟩ := Reader.outcome_eq_error_iff.mp h
  simp only [start, hread]

variable {σ : Type}

/-- What is recorded of an accepted request is a course of its exchange. -/
theorem serve_recording (config : ServiceConfig) (isManaged : Bool)
    (collaborator : (q : Question) → σ → Answer q.Reply × σ) {r : Http.Request} {a : Accepted}
    (h : accept r = .ok a) (s : σ) :
    ∃ asked response t events ending,
      serve config isManaged collaborator r s = (asked, response, t) ∧
      serve config isManaged (recording collaborator) r (s, []) = (asked, response, t, events) ∧
      asked = events.map (·.question) ∧ Course (start config isManaged a).2 false events ending ∧
      (∀ r, ending = .response r → response = r) ∧
      ∀ m, ending = .broke m → response = broken (config.dialect a.peer) m := by
  obtain ⟨events, hrun, hasked, hcourse⟩ :=
    run_recording collaborator (start config isManaged a).2 false s []
  rw [List.nil_append] at hrun
  rcases hplain : (start config isManaged a).2.run collaborator false s with ⟨asked, r | m, t⟩
  · rw [hplain] at hrun hasked hcourse
    refine ⟨asked, r, t, events, _, ?_, ?_, hasked, hcourse, ?_, ?_⟩
    · simp only [serve, h, hplain]
    · simp only [serve, h, hrun]
    · rintro _ ⟨⟩
      rfl
    · rintro _ ⟨⟩
  · rw [hplain] at hrun hasked hcourse
    refine ⟨asked, broken (config.dialect a.peer) m, t, events, _, ?_, ?_, hasked, hcourse, ?_, ?_⟩
    · simp only [serve, h, hplain]
    · simp only [serve, h, hrun]
    · rintro _ ⟨⟩
    · rintro _ ⟨⟩
      rfl

/-- Whatever collaborators answer, and whether or not they break down, an accepted request asks
them in the order of its plan, and asks nothing if its body cannot be read, which the response then
tells. A record of what they are asked and answer changes nothing. -/
theorem serve_keeps_to_plan (config : ServiceConfig) (isManaged : Bool)
    (collaborator : (q : Question) → σ → Answer q.Reply × σ) {r : Http.Request} {a : Accepted}
    (h : accept r = .ok a) (s : σ) :
    let d := config.dialect a.peer
    ∃ asked response t events,
      serve config isManaged collaborator r s = (asked, response, t) ∧
      serve config isManaged (recording collaborator) r (s, []) = (asked, response, t, events) ∧
      asked = events.map (·.question) ∧
      match Reader.outcome (Invocation.Request.read d a.address.method.parameterTypes.length)
        a.body with
      | .error e => events = [] ∧ Unread d e response
      | .ok request => ∃ done closing, events.map Event.step = done ++ closing ∧
          KeepsTo (plan (request.transaction.isSome && isManaged) a.identifier.isSome) done
            closing := by
  intro d
  obtain ⟨asked, response, t, events, ending, hplain, hrecord, hasked, hcourse, hending, -⟩ :=
    serve_recording config isManaged collaborator h s
  refine ⟨asked, response, t, events, hplain, hrecord, hasked, ?_⟩
  split
  · next e hread =>
    rw [start_of_unreadable hread] at hcourse
    cases hcourse
    refine ⟨rfl, ?_⟩
    rw [hending _ rfl]
    exact unreadable_unread config a.peer e
  · next request hread =>
    rw [start_of_read hread] at hcourse
    exact (converse_follows hcourse).keepsTo (plan_nodup _ _)

/-- A call that breaks down gives its place in the register back last of all, and a call with a type
that is refused in its body is told so before anybody is asked anything. -/
theorem broken_call_keeps_to_plan :
    let config : ServiceConfig := { ServiceConfig.standard with
      filter := some fun name => name != "a.B" }
    let r : Http.Request := {
      method := "POST"
      uri := ⟨none, "/shop/orders/-/Cart/-/CartHome/clear", none⟩
      headers := .ofList [("content-type", MediaType.invocation.text),
        (Http.invocationIdHeader, "7"), ("cookie", "JSESSIONID=node1")]
      body := [0x00, 0x00] }
    let refused : Bytes := [0x00, 0x01, 0x10, 0, 0, 0, 1, 0x6b, 0x30, 0, 0, 0, 3, 0x61, 0x2e, 0x42]
    let collaborator : (q : Question) → Unit → Answer q.Reply × Unit :=
      granting (.broke ⟨3, "gone"⟩)
    (∃ asked response t events,
      serve config true (recording collaborator) r ((), []) = (asked, response, t, events) ∧
      asked.map Question.stage = [.isHome, .locate, .register, .invoke, .release] ∧
      ∃ done closing, events.map Event.step = done ++ closing ∧
        KeepsTo (plan false true) done closing) ∧
    ∃ response t,
      serve config true (recording collaborator) { r with body := refused } ((), []) =
        ([], response, t, []) ∧
      Unread (config.dialect .v1) (.codec (.refusedName "a.B")) response := by
  intro config r refused collaborator
  let a (body : Bytes) : Accepted := {
    address := {
      component := ⟨"shop", "orders", "", "Cart"⟩
      session := none
      view := "CartHome"
      method := ⟨"clear", []⟩ }
    peer := .v1
    identifier := some ⟨"7", "node1"⟩
    affinity := some "node1"
    body }
  have haccepted : ∀ body ∈ [r.body, refused], accept { r with body } = .ok (a body) := by
    decide +kernel
  have hmethod : accept r = .ok (a r.body) := haccepted r.body List.mem_cons_self
  have hrefused := haccepted refused (List.mem_cons_of_mem r.body List.mem_cons_self)
  refine ⟨?_, ?_⟩
  · obtain ⟨asked, response, t, events, hplain, hrecord, -, hkeeps⟩ :=
      serve_keeps_to_plan config true collaborator hmethod ()
    have hstages : (serve config true collaborator r ()).1.map Question.stage =
        [.isHome, .locate, .register, .invoke, .release] := by
      decide +kernel
    rw [hplain] at hstages
    exact ⟨asked, response, t, events, hrecord, hstages, hkeeps⟩
  · obtain ⟨asked, response, t, events, -, hrecord, rfl, hkeeps⟩ :=
      serve_keeps_to_plan config true collaborator hrefused ()
    have hcause : (Reader.outcome (Invocation.Request.read (config.dialect (a refused).peer)
        (a refused).address.method.parameterTypes.length) (a refused).body).map (fun _ => ()) =
          .error (.codec (.refusedName "a.B")) := by
      decide +kernel
    split at hkeeps
    · next e hread =>
      obtain ⟨rfl, hunread⟩ := hkeeps
      rw [hread] at hcause
      cases hcause
      exact ⟨response, t, hrecord, hunread⟩
    · next request hread =>
      rw [hread] at hcause
      cases hcause

end Dispatch

end RemoteCall
