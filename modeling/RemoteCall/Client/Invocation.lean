import RemoteCall.Cancel.Endpoint
import RemoteCall.Client.Context
import RemoteCall.Invocation.Address
import RemoteCall.Invocation.Frame

/-!
# Calling and cancelling

What a client sends to make or to cancel a call, and what it makes of the response.
-/

namespace RemoteCall

/-- A call to be made. -/
structure OutgoingCall where
  address : Address
  parameters : List Value
  attachments : Attachments
  transaction : Option Descriptor
  /-- The number under which the call can be cancelled. -/
  requestId : Option String
  affinity : Option String

/-- A call to be cancelled. -/
structure OutgoingCancel where
  address : Address
  requestId : String
  affinity : String
  /-- Whether the call is to be stopped even if it is running. -/
  isAggressive : Bool

namespace Client

/-- A request number made of sixty-four bits. -/
def requestIdOf (n : UInt64) : String :=
  String.ofList (Text.hex (Bytes.ofNat 8 n.toNat))

/-- The cookie for a session affinity, if it can be one. -/
def cookieField (affinity : String) : Except ClientError (String × String) :=
  let value := Http.sessionCookie ++ "=" ++ affinity
  if Http.Headers.isValue value then .ok ("cookie", value)
  else .error (.request "failed to parse header value")

/-- The cookie for a session affinity, where there is one. -/
def cookieFields : Option String → Except ClientError (List (String × String))
  | none => .ok []
  | some affinity => (cookieField affinity).map fun field => [field]

/-- A request, or why there is no such request. -/
def built (r : Except String Http.Request) : Except ClientError Http.Request :=
  r.mapError .request

/-- The request that makes a call. -/
def invokeRequest (c : Context) (call : OutgoingCall) : Except ClientError Http.Request := do
  (call.address.checkArity call.parameters.length).mapError .protocol
  let body ← ((Invocation.Request.write c.dialect
    ⟨call.transaction, call.parameters, call.attachments⟩).result).mapError .protocol
  let cookies ← cookieFields call.affinity
  built <| Context.build "POST" (c.target ("/ejb/v1/invoke/" ++ call.address.render))
    ([("content-type", MediaType.invocation.text),
      ("accept", MediaType.invocationResponse.text ++ "," ++ MediaType.exception.text)] ++
      (call.requestId.toList.map fun id => (Http.invocationIdHeader, id)) ++ cookies)
    body

/-- The failure that a response tells. -/
def failure (c : Context) (r : Http.Response) : ClientError :=
  match r.exception? c.dialect with
  | some e => .remote e
  | none => .status r.status

/-- The result of a call, from the response to it. -/
def invokeResult (c : Context) : Delivery → Except ClientError Invocation.Response
  | .error e => .error (.transport e)
  | .ok r =>
    if r.status = .ok ∧ r.hasType MediaType.invocationResponse then
      (Reader.outcome (Invocation.Response.read c.dialect) r.body).mapError .protocol
    else .error (failure c r)

/-- The path that names a call to be cancelled. -/
def cancelPath (order : OutgoingCancel) : String :=
  let dashed := fun (s : String) => String.ofList (Address.dash s.toList)
  let id := order.address.component
  "/ejb/v1/cancel/" ++ dashed id.app ++ "/" ++ dashed id.moduleName ++ "/" ++ dashed id.distinct ++
    "/" ++ id.component ++ "/" ++ order.requestId ++ if order.isAggressive then "/true" else ""

/-- The request that cancels a call. -/
def cancelRequest (c : Context) (order : OutgoingCancel) : Except ClientError Http.Request := do
  let cookie ← cookieField order.affinity
  built <| Context.build "DELETE" (c.target (cancelPath order)) [cookie] []

/-- What became of a call that was to be cancelled. -/
def cancelResult (c : Context) : Delivery → Except ClientError Cancel.Outcome
  | .error e => .error (.transport e)
  | .ok r =>
    if r.status = .ok then .ok .acknowledged
    else if r.status = .accepted then .ok .unknown
    else if r.status = .notFound then .ok .notFound
    else .error (failure c r)

/-- Makes a call. -/
def invoke {σ : Type} (transport : Transport σ) (call : OutgoingCall) (c : Context) (s : σ) :
    Option (Except ClientError Invocation.Response) × Context × σ :=
  match invokeRequest c call with
  | .error e => (some (.error e), c, s)
  | .ok r =>
    let (delivery, c, s) := c.exchange transport r s
    (delivery.map (invokeResult c), c, s)

/-- Cancels a call. -/
def cancel {σ : Type} (transport : Transport σ) (order : OutgoingCancel) (c : Context) (s : σ) :
    Option (Except ClientError Cancel.Outcome) × Context × σ :=
  match cancelRequest c order with
  | .error e => (some (.error e), c, s)
  | .ok r =>
    let (delivery, c, s) := c.exchange transport r s
    (delivery.map (cancelResult c), c, s)

end Client

end RemoteCall
