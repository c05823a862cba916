import RemoteCall.Http.Message

/-!
# Why a call fails on the side of the caller
-/

namespace RemoteCall

/-- Why there is no response at all. -/
inductive TransportError where
  | lost (reason : String)
  | timeout
  | io (reason : String)
  deriving DecidableEq, Repr

/-- The text shown for an error. -/
def TransportError.message : TransportError → String
  | lost reason => "Connection to service lost: " ++ reason
  | timeout => "No response before the transport deadline"
  | io reason => "Transport I/O error: " ++ reason

/-- What a transport brings back. -/
abbrev Delivery := Except TransportError Http.Response

/-- A way to send requests, with a state of its own. It brings nothing back to one who gives up
waiting. -/
abbrev Transport (σ : Type) := Http.Request → σ → Option Delivery × σ

/-- Why a call fails. -/
inductive ClientError where
  /-- There was no response. -/
  | transport (cause : TransportError)
  /-- The call cannot be written, or its result cannot be read. -/
  | protocol (cause : ProtocolError)
  /-- The other side answered with an exception. -/
  | remote (cause : RemoteException)
  /-- The other side answered with a status and nothing else. -/
  | status (code : Http.Status)
  /-- There is no such request. -/
  | request (reason : String)
  deriving DecidableEq, Repr

namespace ClientError

/-- The text shown for an error. -/
def message : ClientError → String
  | transport e => "Transport error: " ++ e.message
  | protocol e => "Protocol error: " ++ e.message
  | remote e => "Remote exception: " ++ e.text
  | status s => "Unexpected status: " ++ s.text
  | request reason => "Invalid request: " ++ reason

/-- The texts of an error and of what led to it. -/
def trace (e : ClientError) : List String :=
  e.message :: match e with
    | transport cause => [cause.message]
    | protocol cause => cause.trace
    | remote cause => cause.trace
    | status _ => []
    | request _ => []

end ClientError

end RemoteCall
