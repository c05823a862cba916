import RemoteCall.Cancel.Registry

/-!
# Serving cancel requests

A request to cancel names the invocation in its path, behind the four names of the component, and
may add that a running invocation is to be stopped as well. The session affinity comes from the
cookie.
-/

namespace RemoteCall.Cancel

/-- What a cancel request comes to. -/
inductive Outcome where
  /-- Nothing runs under the identifier. -/
  | notFound
  /-- The invocation reported in time. -/
  | acknowledged
  /-- The invocation did not report in time. -/
  | unknown
  deriving DecidableEq, Repr

/-- The status that tells an outcome. -/
def Outcome.status : Outcome → Http.Status
  | notFound => .notFound
  | acknowledged => .ok
  | unknown => .accepted

/-- A request to cancel an invocation. -/
structure Order where
  id : InvocationId
  isAggressive : Bool
  deriving DecidableEq, Repr

/-- The request number and the flag in a path. -/
def ofPath? (path : List Char) : Option (String × Bool) :=
  match Text.split '/' (path.dropWhile (· == '/')) with
  | _ :: _ :: _ :: _ :: requestId :: rest =>
    if requestId = [] then none
    else
      let isAggressive := match rest with
        | flag :: _ => Text.sameFolded flag "true".toList
        | [] => false
      some (String.ofList requestId, isAggressive)
  | _ => none

/-- The order that a request gives, or the status with which it is turned down. -/
def Order.ofRequest (r : Http.Request) : Except Http.Status Order :=
  if r.method ≠ "DELETE" then .error .methodNotAllowed
  else
    match ofPath? r.uri.path.toList with
    | none => .error .notFound
    | some (requestId, isAggressive) =>
      match r.headers.cookie? Http.sessionCookie with
      | none => .error .badRequest
      | some affinity => .ok ⟨⟨requestId, affinity⟩, isAggressive⟩

end RemoteCall.Cancel
