import RemoteCall.Http.Message

/-!
# Identifiers of invocations that can be cancelled
-/

namespace RemoteCall

/-- What a later request names an invocation by: the number its client gave it, and the session
affinity of that client. -/
structure InvocationId where
  requestId : String
  affinity : String
  deriving DecidableEq, Repr

namespace InvocationId

/-- The text shown for an identifier. -/
def text (id : InvocationId) : String :=
  id.requestId ++ "@" ++ id.affinity

/-- The identifier in a request, which has to hold both parts. -/
def ofHeaders? (h : Http.Headers) : Option InvocationId := do
  let requestId ← h.get? Http.invocationIdHeader
  let affinity ← h.cookie? Http.sessionCookie
  pure ⟨requestId, affinity⟩

end InvocationId

end RemoteCall
