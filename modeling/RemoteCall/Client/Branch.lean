import RemoteCall.Branch.Endpoint
import RemoteCall.Client.Context
import RemoteCall.Interrupt

/-!
# Driving a branch from afar

A coordinator drives a branch at another service by one request for each primitive. Whatever goes
wrong becomes an error with an outcome code: the code that the branch gave, or that of a failed
resource manager. The coordinator may raise an interrupt while it waits, and then the outcome stays
unknown.
-/

namespace RemoteCall.BranchClient

/-- The path of a primitive, below the root of the service. -/
def path (p : Primitive) : String :=
  "/txn/v1" ++ BranchEndpoint.pathOf p ++
    match p with
    | .commit true => "?opc=true"
    | _ => ""

/-- The request for a primitive. -/
def request (c : Context) (x : Xid) (p : Primitive) : Except XaError Http.Request :=
  match x.write.result with
  | .error e => .error (.managerFailure e.message (e.trace.drop 1))
  | .ok body =>
    (Context.build "POST" (c.target (path p))
      [("content-type", MediaType.xid.text), ("accept", MediaType.exception.text)] body).mapError
      fun reason => .managerFailure reason []

/-- The error that a response tells. -/
def failure (c : Context) (r : Http.Response) : XaError :=
  match r.exception? c.dialect with
  | some e =>
    match XaError.ofRemote? e with
    | some xa => xa
    | none => .managerFailure e.text (e.trace.drop 1)
  | none => .make Outcome.managerError ("unexpected status " ++ r.status.text)

/-- The vote that a response tells. -/
def vote (r : Http.Response) : Vote :=
  match r.headers.get? Http.readOnlyHeader with
  | some flag =>
    if Text.sameFolded (Text.trim flag.toList) "true".toList then .readOnly else .ok
  | none => .ok

/-- The outcome of a primitive, from the response to it. -/
def result (c : Context) (p : Primitive) : Delivery → PrimitiveResult
  | .error e => .error (.managerFailure e.message [])
  | .ok r =>
    if r.status.isSuccess then .ok (if p = .prepare then some (vote r) else none)
    else .error (failure c r)

/-- Carries out a primitive. With a raised interrupt nothing is sent, and where the transport
brings nothing back an interrupt has been raised meanwhile. -/
def drive {σ : Type} (transport : Transport σ) (x : Xid) (p : Primitive) (interrupt : Interrupt)
    (c : Context) (s : σ) : PrimitiveResult × Interrupt × Context × σ :=
  match request c x p with
  | .error e => (.error e, interrupt, c, s)
  | .ok r =>
    if interrupt.raised then (.error .interruption, interrupt, c, s)
    else
      match c.exchange transport r s with
      | (none, c, s) => (.error .interruption, interrupt.raise, c, s)
      | (some delivery, c, s) => (result c p delivery, interrupt, c, s)

/-- What a coordinator does with a branch: a primitive, or the end of its own work, about which
nothing is sent. -/
inductive Task where
  | primitive (p : Primitive)
  | endWork
  deriving DecidableEq, Repr

/-- Does something with a branch. -/
def perform {σ : Type} (transport : Transport σ) (x : Xid) (task : Task) (interrupt : Interrupt)
    (c : Context) (s : σ) : PrimitiveResult × Interrupt × Context × σ :=
  match task with
  | .primitive p => drive transport x p interrupt c s
  | .endWork => (.ok none, interrupt, c, s)

end RemoteCall.BranchClient
