import RemoteCall.Branch.Outcome
import RemoteCall.Branch.Xid
import RemoteCall.Http.Service
import RemoteCall.Service.Config

/-!
# Serving the coordinator of a transaction

A coordinator asks something of a branch by a request to the path of that primitive, with the name
of the branch as its body. Nothing is done before the whole request has been understood.
-/

namespace RemoteCall.BranchEndpoint

/-- Whoever carries out primitives. -/
abbrev Terminator (σ : Type) := Primitive → Xid → σ → PrimitiveResult × σ

/-- Whether a query asks for a commit in one phase. -/
def asksOnePhase (query : Option String) : Bool :=
  match query with
  | none => false
  | some q => (Text.split '&' q.toList).any (Text.sameFolded · "opc=true".toList)

/-- The path of a primitive. -/
def pathOf : Primitive → String
  | .prepare => "/xa/prep"
  | .commit _ => "/xa/commit"
  | .rollback => "/xa/rollback"
  | .beforeCompletion => "/xa/bc"
  | .forget => "/xa/forget"

/-- The primitive that a target names; slashes at the end of the path say nothing. -/
def primitive? (uri : Http.Uri) : Option Primitive :=
  let path := String.ofList (Text.dropTrailing (· == '/') uri.path.toList)
  [.prepare, .commit (asksOnePhase uri.query), .rollback, .beforeCompletion, .forget].find?
    fun p => pathOf p == path

/-- Reads the name of a branch, with which the body has to end. -/
def readBody : Parse Xid := do
  let x ← Xid.read
  Parse.finish
  pure x

/-- What a request asks of which branch, or the response that turns it down. -/
def accept (config : ServiceConfig) (r : Http.Request) :
    Except Http.Response (Primitive × Xid) :=
  if r.method ≠ "POST" then .error (.bare .methodNotAllowed)
  else
    match primitive? r.uri with
    | none => .error (.bare .notFound)
    | some p =>
      match MediaType.xid.expect r.contentType? with
      | .error _ => .error (.bare .badRequest)
      | .ok () =>
        match Reader.outcome readBody r.body with
        | .ok x => .ok (p, x)
        | .error e =>
          .error (.ofException .badRequest (config.dialect r.peerVersion)
            (.ofMessage Fault.Class.streamCorrupted e.message))

/-- The response that tells what became of a primitive. -/
def respond (d : Dialect) : PrimitiveResult → Http.Response
  | .ok (some .readOnly) =>
    { Http.Response.bare .ok with headers := Http.Headers.empty.add Http.readOnlyHeader "true" }
  | .ok _ => .bare .ok
  | .error e => .ofException .internalError d e.toRemote

/-- Serves a coordinator with the help of whoever carries out primitives. -/
def serve {σ : Type} (config : ServiceConfig) (terminator : Terminator σ) : Http.Service σ :=
  fun r s =>
    match accept config r with
    | .error response => (response, s)
    | .ok (p, x) =>
      let (result, s) := terminator p x s
      (respond (config.dialect r.peerVersion) result, s)

end RemoteCall.BranchEndpoint
