import RemoteCall.Invocation.Frame
import RemoteCall.Service.Config
import RemoteCall.Service.Exchange

/-!
# Serving invocations

A request is accepted by its method, media type and path, without a look at its body. Then the
whole body is read, and only if that succeeds are others asked for anything: the transaction is
imported, the target located, the call registered, made, acknowledged and given back, in this
order.
-/

namespace RemoteCall

/-- What is known of a request before its body is read. -/
structure Accepted where
  address : Address
  peer : ProtocolVersion
  identifier : Option InvocationId
  affinity : Option String
  body : Bytes
  deriving DecidableEq, Repr

namespace Dispatch

/-- What a request is about, or the response that turns it down. -/
def accept (r : Http.Request) : Except Http.Response Accepted :=
  if r.method ≠ "POST" then .error (.bare .methodNotAllowed)
  else
    match MediaType.invocation.expect r.contentType? with
    | .error _ => .error (.bare .badRequest)
    | .ok () =>
      match Address.parse r.uri.path with
      | .error (.shortAddress _) => .error (.bare .notFound)
      | .error _ => .error (.bare .badRequest)
      | .ok address =>
        .ok {
          address
          peer := r.peerVersion
          identifier := InvocationId.ofHeaders? r.headers
          affinity := r.headers.cookie? Http.sessionCookie
          body := r.body }

/-- A response that tells a failure by an exception. -/
def failure (d : Dialect) (e : RemoteException) : Http.Response :=
  .ofException .internalError d e

/-- The response to a call whose body cannot be read. -/
def unreadable (d : Dialect) (e : ProtocolError) : Http.Response :=
  failure d <| .ofMessage
    (if e.isRefusal then Fault.Class.invalidClass else Fault.Class.streamCorrupted) e.message

/-- The response to a call whose transaction is not imported. -/
def notImported (d : Dialect) (e : XaError) : Http.Response :=
  failure d ((RemoteException.ofMessage Fault.Class.illegalState e.text).causedBy e.toRemote)

/-- The response to a call whose target is not reached. -/
def unreached (d : Dialect) (e : TargetError) : Http.Response :=
  .ofException e.status d (.ofMessage e.className e.message)

/-- The response to a call that succeeded, with the attachments that came with it. -/
def success (d : Dialect) (result : Value) (attachments : Attachments) : Http.Response :=
  match (Invocation.Response.write d ⟨result, attachments⟩).result with
  | .ok body => .withBody .ok MediaType.invocationResponse body
  | .error e =>
    failure d (.ofMessage Fault.Class.runtime ("cannot marshal result: " ++ e.message))

/-- The response to a call that has ended. -/
def respond (d : Dialect) (attachments : Attachments) : CallOutcome → Http.Response
  | .success result => success d result attachments
  | .exception e => failure d e
  | .target e => unreached d e
  | .cancelled => failure d (.ofMessage Fault.Class.cancellation "invocation cancelled")

/-- The response to a call during which a collaborator broke down. -/
def broken (d : Dialect) (b : Breakdown) : Http.Response :=
  failure d <| .ofMessage Fault.Class.runtime ("invocation failed: " ++ b.text)

/-- The way in which a target is reached. -/
def access (isHome : Bool) (session : Option Bytes) : Access :=
  if isHome then .home
  else
    match session with
    | some id => .stateful id
    | none => .stateless

/-- The call after it has ended: it is acknowledged, and its place in the register given back. -/
def conclude (d : Dialect) (isRegistered : Bool) (attachments : Attachments)
    (outcome : CallOutcome) : Exchange :=
  .ask (.acknowledge outcome.isCancelled) fun _ =>
    if isRegistered then .ask .release fun _ => .respond (respond d attachments outcome)
    else .respond (respond d attachments outcome)

/-- The call from the point at which its target is known. -/
def perform (d : Dialect) (call : ResolvedCall) : Exchange :=
  match call.identifier with
  | some id =>
    .ask (.register id) fun _ => .ask (.invoke call) (conclude d true call.attachments)
  | none => .ask (.invoke call) (conclude d false call.attachments)

/-- The call from the point at which its transaction is known. -/
def reach (d : Dialect) (a : Accepted) (request : Invocation.Request)
    (imported : Option BranchRef) : Exchange :=
  .ask (.isHome a.address.component a.address.view) fun isHome =>
    let locator : Locator :=
      ⟨a.address.component, a.address.view, access isHome a.address.session⟩
    .ask (.locate locator a.address.method) fun
      | .error e => .respond (unreached d e)
      | .ok () =>
        perform d {
          locator
          method := a.address.method
          parameters := request.parameters
          attachments := request.attachments
          affinity := a.affinity
          transaction := request.transaction
          imported
          identifier := a.identifier }

/-- The call from the point at which its body has been read. -/
def converse (d : Dialect) (isManaged : Bool) (a : Accepted) (request : Invocation.Request) :
    Exchange :=
  match request.transaction, isManaged with
  | some t, true =>
    .ask (.importBranch t.xid t.timeout) fun
      | .error e => .respond (notImported d e)
      | .ok branch => reach d a request (some branch)
  | _, _ => reach d a request none

/-- The exchange for an accepted request, and the names that the filter was asked about while its
body was read. -/
def start (config : ServiceConfig) (isManaged : Bool) (a : Accepted) : List String × Exchange :=
  let d := config.dialect a.peer
  let parameterCount := a.address.method.parameterTypes.length
  match Invocation.Request.read d parameterCount (Cursor.start a.body) with
  | .ok request c => (c.asked.toList, converse d isManaged a request)
  | .error e c => (c.asked.toList, .respond (unreadable d e))

/-- Serves a request with the help of collaborators that have a state of their own: what they are
asked, the response, and the state that they leave behind. -/
def serve {σ : Type} (config : ServiceConfig) (isManaged : Bool)
    (collaborator : (q : Question) → σ → Answer q.Reply × σ) (r : Http.Request) (s : σ) :
    List Question × Http.Response × σ :=
  match accept r with
  | .error response => ([], response, s)
  | .ok a =>
    match (start config isManaged a).2.run collaborator false s with
    | (asked, .response response, s) => (asked, response, s)
    | (asked, .broke b, s) => (asked, broken (config.dialect a.peer) b, s)

end Dispatch

end RemoteCall
