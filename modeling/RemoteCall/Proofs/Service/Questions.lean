import Mathlib.Data.List.Nodup
import RemoteCall.Http.Service
import RemoteCall.Proofs.Service.Pipeline

/-!
# What a service asks its collaborators, and why it answers as it does

Each question of an invocation is made of what its request says and of what was answered before,
and so is the response. Both are told here for all questions and all responses at once, so that
nobody has to take the exchange apart again.

## Implementation notes

What is due depends on answers that were given earlier, so the laws speak of a question or a
response together with the events before it. Events are recorded by `Exchange.recording`.
-/

namespace RemoteCall

namespace Exchange

variable {law : List Event → Question → Prop} {verdict : List Event → Http.Response → Prop}

/-- From certain events on, an exchange asks only what a law allows, and gives only responses that
stand to reason. -/
inductive Obeys (law : List Event → Question → Prop) (verdict : List Event → Http.Response → Prop) :
    (before : List Event) → Exchange → Prop
  | respond {before : List Event} {r : Http.Response} (h : verdict before r) :
      Obeys law verdict before (.respond r)
  | ask {before : List Event} {q : Question} {next : q.Reply → Exchange} (h : law before q)
      (tail : ∀ a, Obeys law verdict (before ++ [⟨q, .reply a⟩]) (next a)) :
      Obeys law verdict before (.ask q next)

/-- What comes of an exchange obeys what the exchange obeys. Only the release that follows a
break-down is not asked by the exchange itself. -/
theorem Course.obeys {e : Exchange} {held : Bool} {before events : List Event} {ending : Ending}
    (hcourse : Course e held events ending) (h : Obeys law verdict before e)
    (hrelease : ∀ before, law before .release) :
    (∀ front event back, events = front ++ event :: back →
      law (before ++ front) event.question) ∧
    ∀ r, ending = .response r → verdict (before ++ events) r := by
  induction hcourse generalizing before with
  | respond r held =>
      cases h with
      | respond h =>
          refine ⟨fun front event back hsplit => absurd hsplit (by simp), ?_⟩
          rintro _ ⟨⟩
          rwa [List.append_nil]
  | @reply q next held events ending a tail ih =>
      cases h with
      | ask h htail =>
          obtain ⟨hasked, hanswered⟩ := ih (htail a)
          refine ⟨fun front event back hsplit => ?_, fun r hr => ?_⟩
          · cases front with
            | nil =>
                obtain ⟨rfl, -⟩ := List.cons.inj hsplit
                rwa [List.append_nil]
            | cons first front =>
                obtain ⟨rfl, hrest⟩ := List.cons.inj hsplit
                have hlaw := hasked front event back hrest
                rwa [List.append_assoc] at hlaw
          · have hverdict := hanswered r hr
            rwa [List.append_assoc] at hverdict
  | @broke q next held m hheld =>
      cases h with
      | ask h htail =>
          refine ⟨fun front event back hsplit => ?_, fun r hr => nomatch hr⟩
          cases front with
          | nil =>
              obtain ⟨rfl, -⟩ := List.cons.inj hsplit
              rwa [List.append_nil]
          | cons first front => exact absurd (List.cons.inj hsplit).2 (by simp)
  | @brokeHeld q next held m hheld a =>
      cases h with
      | ask h htail =>
          refine ⟨fun front event back hsplit => ?_, fun r hr => nomatch hr⟩
          match front with
          | [] =>
              obtain ⟨rfl, -⟩ := List.cons.inj hsplit
              rwa [List.append_nil]
          | [first] =>
              obtain ⟨-, hrest⟩ := List.cons.inj hsplit
              obtain ⟨rfl, -⟩ := List.cons.inj hrest
              exact hrelease _
          | first :: second :: front =>
              exact absurd (List.cons.inj (List.cons.inj hsplit).2).2 (by simp)

/-- An exchange breaks down only where a collaborator did. -/
theorem Course.exists_broke {e : Exchange} {held : Bool} {events : List Event} {m : Breakdown}
    (h : Course e held events (.broke m)) : ∃ q, ⟨q, .broke m⟩ ∈ events := by
  generalize hending : Ending.broke m = ending at h
  induction h with
  | respond r held => cases hending
  | reply a tail ih =>
      obtain ⟨q, hq⟩ := ih hending
      exact ⟨q, List.mem_cons_of_mem _ hq⟩
  | broke m' hheld =>
      cases hending
      exact ⟨_, List.mem_cons_self⟩
  | brokeHeld m' hheld a =>
      cases hending
      exact ⟨_, List.mem_cons_self⟩

end Exchange

namespace Dispatch

open Exchange

variable {d : Dialect} {isManaged : Bool} {a : Accepted} {request : Invocation.Request}
  {before : List Event}

theorem accept_eq_ok_iff {r : Http.Request} :
    accept r = .ok a ↔
      r.method = "POST" ∧ MediaType.invocation.expect r.contentType? = .ok () ∧
        ∃ address, Address.parse r.uri.path = .ok address ∧
          a = ⟨address, r.peerVersion, InvocationId.ofHeaders? r.headers,
            r.headers.cookie? Http.sessionCookie, r.body⟩ := by
  unfold accept
  by_cases hmethod : r.method = "POST"
  · rw [if_neg (not_not_intro hmethod)]
    cases MediaType.invocation.expect r.contentType? with
    | error e => simp [hmethod]
    | ok _ =>
        cases Address.parse r.uri.path with
        | error e => cases e <;> simp [hmethod]
        | ok address => simp [hmethod, eq_comm (a := a)]
  · rw [if_pos hmethod]
    simp [hmethod]

/-- The target of an accepted request, which is a home or not. -/
def locator (a : Accepted) (isHome : Bool) : Locator :=
  ⟨a.address.component, a.address.view, access isHome a.address.session⟩

/-- What a target gets to see of an accepted request. -/
def resolved (a : Accepted) (request : Invocation.Request) (l : Locator)
    (imported : Option BranchRef) : ResolvedCall where
  locator := l
  method := a.address.method
  parameters := request.parameters
  attachments := request.attachments
  affinity := a.affinity
  transaction := request.transaction
  imported := imported
  identifier := a.identifier

/-- What may be asked for an accepted request after certain events. -/
def Due (isManaged : Bool) (a : Accepted) (request : Invocation.Request) (before : List Event) :
    Question → Prop
  | .importBranch x timeout => isManaged = true ∧ request.transaction = some ⟨x, timeout⟩
  | .isHome component view => component = a.address.component ∧ view = a.address.view
  | .locate l m => m = a.address.method ∧ ∃ isHome, l = locator a isHome ∧
      ⟨.isHome a.address.component a.address.view, .reply isHome⟩ ∈ before
  | .register id => a.identifier = some id
  | .invoke call => ∃ l imported, call = resolved a request l imported ∧
      ⟨.locate l a.address.method, .reply (.ok ())⟩ ∈ before ∧
      ∀ branch ∈ imported, ∃ t, request.transaction = some t ∧
        ⟨.importBranch t.xid t.timeout, .reply (.ok branch)⟩ ∈ before
  | .acknowledge cancelled => ∃ call outcome, ⟨.invoke call, .reply outcome⟩ ∈ before ∧
      cancelled = outcome.isCancelled
  | .release => True

/-- Why an accepted request is answered as it is, after certain events. -/
inductive Answered (d : Dialect) (request : Invocation.Request) (before : List Event) :
    Http.Response → Prop
  | notImported {x : Xid} {timeout : Int32} {e : XaError}
      (h : ⟨.importBranch x timeout, .reply (.error e)⟩ ∈ before)
      (hnone : ∀ event ∈ before, event.question.stage ≠ .invoke) :
      Answered d request before (notImported d e)
  | unreached {l : Locator} {m : MethodId} {e : TargetError}
      (h : ⟨.locate l m, .reply (.error e)⟩ ∈ before)
      (hnone : ∀ event ∈ before, event.question.stage ≠ .invoke) :
      Answered d request before (unreached d e)
  | ended {call : ResolvedCall} {outcome : CallOutcome}
      (h : ⟨.invoke call, .reply outcome⟩ ∈ before) :
      Answered d request before (respond d request.attachments outcome)

theorem conclude_obeys {isRegistered : Bool} {call : ResolvedCall} {outcome : CallOutcome}
    (h : ⟨.invoke call, .reply outcome⟩ ∈ before) :
    Obeys (Due isManaged a request) (Answered d request) before
      (conclude d isRegistered request.attachments outcome) := by
  refine .ask ⟨call, outcome, h, rfl⟩ fun _ => ?_
  cases isRegistered with
  | false => exact .respond (.ended (List.mem_append_left _ h))
  | true =>
      exact .ask trivial fun _ =>
        .respond (.ended (List.mem_append_left _ (List.mem_append_left _ h)))

theorem perform_obeys {l : Locator} {imported : Option BranchRef}
    (hlocated : ⟨.locate l a.address.method, .reply (.ok ())⟩ ∈ before)
    (himported : ∀ branch ∈ imported, ∃ t, request.transaction = some t ∧
      ⟨.importBranch t.xid t.timeout, .reply (.ok branch)⟩ ∈ before) :
    Obeys (Due isManaged a request) (Answered d request) before
      (perform d (resolved a request l imported)) := by
  unfold perform
  split
  · next id hid =>
    refine .ask hid fun _ => .ask ⟨l, imported, rfl, ?_, fun branch hbranch => ?_⟩ fun outcome => ?_
    · exact List.mem_append_left _ hlocated
    · obtain ⟨t, ht, hmem⟩ := himported branch hbranch
      exact ⟨t, ht, List.mem_append_left _ hmem⟩
    · exact conclude_obeys (List.mem_append_right _ (List.mem_singleton_self _))
  · refine .ask ⟨l, imported, rfl, hlocated, himported⟩ fun outcome => ?_
    exact conclude_obeys (List.mem_append_right _ (List.mem_singleton_self _))

theorem reach_obeys {imported : Option BranchRef}
    (hnone : ∀ event ∈ before, event.question.stage ≠ .invoke)
    (himported : ∀ branch ∈ imported, ∃ t, request.transaction = some t ∧
      ⟨.importBranch t.xid t.timeout, .reply (.ok branch)⟩ ∈ before) :
    Obeys (Due isManaged a request) (Answered d request) before (reach d a request imported) := by
  refine .ask ⟨rfl, rfl⟩ fun isHome => ?_
  refine .ask ⟨rfl, isHome, rfl, List.mem_append_right _ (List.mem_singleton_self _)⟩ fun found => ?_
  cases found with
  | error e =>
      refine .respond (.unreached (List.mem_append_right _ (List.mem_singleton_self _)) ?_)
      intro event hevent
      simp only [List.mem_append, List.mem_singleton, or_assoc] at hevent
      rcases hevent with hevent | rfl | rfl
      · exact hnone event hevent
      · exact fun h => nomatch h
      · exact fun h => nomatch h
  | ok _ =>
      refine perform_obeys (List.mem_append_right _ (List.mem_singleton_self _))
        fun branch hbranch => ?_
      obtain ⟨t, ht, hmem⟩ := himported branch hbranch
      exact ⟨t, ht, List.mem_append_left _ (List.mem_append_left _ hmem)⟩

/-- An accepted request whose body has been read leads to what is due, and to the response that
follows from the answers. -/
theorem converse_obeys (d : Dialect) (isManaged : Bool) (a : Accepted)
    (request : Invocation.Request) :
    Obeys (Due isManaged a request) (Answered d request) []
      (converse d isManaged a request) := by
  unfold converse
  split
  · next t ht =>
    refine .ask ⟨rfl, ht⟩ fun imported => ?_
    cases imported with
    | error e =>
        exact .respond (.notImported (List.mem_singleton_self _)
          (List.forall_mem_singleton.mpr fun h => nomatch h))
    | ok branch =>
        refine reach_obeys (List.forall_mem_singleton.mpr fun h => nomatch h)
          fun other hother => ⟨t, ht, ?_⟩
        obtain rfl := Option.some.inj hother
        exact List.mem_singleton_self _
  · exact reach_obeys (List.forall_mem_nil _) fun branch hbranch => nomatch hbranch

/-- What comes of an exchange for an accepted request: nothing is asked if the body cannot be read,
and else only what is due is asked, no more than once each, and the response follows from the
answers, unless a collaborator broke down. -/
def Explains (config : ServiceConfig) (isManaged : Bool) (a : Accepted) (events : List Event)
    (response : Http.Response) : Prop :=
  let d := config.dialect a.peer
  match Reader.outcome (Invocation.Request.read d a.address.method.parameterTypes.length)
    a.body with
  | .error e => events = [] ∧ response = unreadable d e
  | .ok request =>
    (∀ front event back, events = front ++ event :: back →
      Due isManaged a request front event.question) ∧
    (events.map fun event => event.question.stage).Nodup ∧
    (Answered d request events response ∨
      ∃ m, response = broken d m ∧ ∃ q, ⟨q, .broke m⟩ ∈ events)

variable {config : ServiceConfig}

/-- Whatever was asked was due after what had been answered by then. -/
theorem Explains.due {events : List Event} {response : Http.Response} {event : Event}
    (h : Explains config isManaged a events response) (hmem : event ∈ events) :
    ∃ request, Reader.outcome (Invocation.Request.read (config.dialect a.peer)
        a.address.method.parameterTypes.length) a.body = .ok request ∧
      ∃ before ⊆ events, Due isManaged a request before event.question := by
  unfold Explains at h
  dsimp only at h
  split at h
  · obtain ⟨rfl, -⟩ := h
    cases hmem
  · next request hread =>
    obtain ⟨front, back, rfl⟩ := List.append_of_mem hmem
    exact ⟨request, hread, front, List.subset_append_left _ _, h.1 front event back rfl⟩

/-- An exchange whose body has been read asks of each kind once at most, and its response follows
from the answers, unless a collaborator broke down. -/
theorem Explains.answered {events : List Event} {response : Http.Response}
    (h : Explains config isManaged a events response)
    (hread : Reader.outcome (Invocation.Request.read (config.dialect a.peer)
      a.address.method.parameterTypes.length) a.body = .ok request) :
    (events.map fun event => event.question.stage).Nodup ∧
      (Answered (config.dialect a.peer) request events response ∨
        ∃ m, response = broken (config.dialect a.peer) m ∧ ∃ q, ⟨q, .broke m⟩ ∈ events) := by
  unfold Explains at h
  dsimp only at h
  rw [hread] at h
  exact h.2

/-- If everybody grants what they are asked for, the target is reached. -/
theorem Explains.reached {events : List Event} {response : Http.Response}
    (h : Explains config isManaged a events response)
    (hread : Reader.outcome (Invocation.Request.read (config.dialect a.peer)
      a.address.method.parameterTypes.length) a.body = .ok request)
    (hall : ∀ event ∈ events, event.succeeds = true) :
    ∃ call outcome, ⟨.invoke call, .reply outcome⟩ ∈ events := by
  rcases (h.answered hread).2 with hanswered | ⟨m, -, q, hbroke⟩
  · cases hanswered with
    | notImported hmem => exact absurd (hall _ hmem) Bool.false_ne_true
    | unreached hmem => exact absurd (hall _ hmem) Bool.false_ne_true
    | @ended call outcome hmem => exact ⟨call, outcome, hmem⟩
  · exact absurd (hall _ hbroke) Bool.false_ne_true

/-- If nobody breaks down, the outcome of a target that was reached is what is responded. -/
theorem Explains.responded {events : List Event} {response : Http.Response} {call : ResolvedCall}
    {outcome : CallOutcome} (h : Explains config isManaged a events response)
    (hread : Reader.outcome (Invocation.Request.read (config.dialect a.peer)
      a.address.method.parameterTypes.length) a.body = .ok request)
    (hinvoked : ⟨.invoke call, .reply outcome⟩ ∈ events) (hbroke : ∀ q m, ⟨q, .broke m⟩ ∉ events) :
    response = respond (config.dialect a.peer) request.attachments outcome := by
  obtain ⟨hnodup, hanswered | ⟨m, -, q, hq⟩⟩ := h.answered hread
  · cases hanswered with
    | notImported _ hnone => exact absurd rfl (hnone _ hinvoked)
    | unreached _ hnone => exact absurd rfl (hnone _ hinvoked)
    | ended hmem => cases List.inj_on_of_nodup_map hnodup hmem hinvoked rfl; rfl
  · exact absurd hq (hbroke q m)

theorem explains_of_course {events : List Event} {ending : Ending} {response : Http.Response}
    (hcourse : Course (start config isManaged a).2 false events ending)
    (hresponse : ∀ r, ending = .response r → response = r)
    (hbroken : ∀ m, ending = .broke m → response = broken (config.dialect a.peer) m) :
    Explains config isManaged a events response := by
  unfold Explains
  dsimp only
  split
  · next e hread =>
    rw [start_of_unreadable hread] at hcourse
    cases hcourse
    exact ⟨rfl, hresponse _ rfl⟩
  · next request hread =>
    rw [start_of_read hread] at hcourse
    obtain ⟨hdue, hanswered⟩ := hcourse.obeys (converse_obeys _ _ _ _) fun _ => trivial
    obtain ⟨done, closing, hsteps, hkeeps⟩ :=
      (converse_follows hcourse).keepsTo (plan_nodup _ _)
    have hstages : (events.map fun event => event.question.stage) =
        (done ++ closing).map Prod.fst := by
      rw [← hsteps, List.map_map]
      rfl
    refine ⟨hdue, hstages ▸ hkeeps.once, ?_⟩
    cases ending with
    | response r =>
        rw [hresponse r rfl]
        exact .inl (hanswered r rfl)
    | broke m => exact .inr ⟨m, hbroken m rfl, hcourse.exists_broke⟩

variable {σ : Type}

/-- What is recorded of an accepted request explains its response. -/
theorem serve_explains (config : ServiceConfig) (isManaged : Bool)
    (collaborator : (q : Question) → σ → Answer q.Reply × σ) {r : Http.Request} {a : Accepted}
    (h : accept r = .ok a) (s : σ) :
    ∃ asked response t events,
      serve config isManaged (recording collaborator) r (s, []) = (asked, response, t, events) ∧
      Explains config isManaged a events response := by
  obtain ⟨asked, response, t, events, ending, -, hrecord, -, hcourse, hresponse, hbroken⟩ :=
    serve_recording config isManaged collaborator h s
  exact ⟨asked, response, t, events, hrecord, explains_of_course hcourse hresponse hbroken⟩

/-- The service that invocations are sent to. -/
def service (config : ServiceConfig) (isManaged : Bool)
    (collaborator : (q : Question) → σ → Answer q.Reply × σ) : Http.Service σ :=
  fun r s => (serve config isManaged collaborator r s).2

/-- What is recorded of a request is nothing, if it is not accepted, or explains its response. -/
theorem service_explains (config : ServiceConfig) (isManaged : Bool)
    (collaborator : (q : Question) → σ → Answer q.Reply × σ) (r : Http.Request) (s : σ) :
    ∃ response t events,
      service config isManaged (recording collaborator) r (s, []) = (response, t, events) ∧
      ((∃ refusal, accept r = .error refusal ∧ events = [] ∧ response = refusal) ∨
        ∃ a, accept r = .ok a ∧ Explains config isManaged a events response) := by
  cases h : accept r with
  | error refusal =>
      refine ⟨refusal, s, [], ?_, .inl ⟨refusal, rfl, rfl, rfl⟩⟩
      simp only [service, serve, h]
  | ok a =>
      obtain ⟨asked, response, t, events, hserve, hexplains⟩ :=
        serve_explains config isManaged collaborator h s
      exact ⟨response, t, events, congrArg Prod.snd hserve, .inr ⟨a, rfl, hexplains⟩⟩

end Dispatch

end RemoteCall
