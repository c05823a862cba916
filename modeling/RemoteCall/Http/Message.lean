import RemoteCall.Http.Headers
import RemoteCall.Http.Status
import RemoteCall.Http.Uri
import RemoteCall.MediaType
import RemoteCall.ProtocolVersion
import RemoteCall.RemoteException

/-!
# Requests and responses

Every request gets exactly one response. A failure is a status, with an exception as its body
where one can be written.
-/

namespace RemoteCall.Http

/-- A request. -/
structure Request where
  method : String
  uri : Uri
  headers : Headers
  body : Bytes
  deriving DecidableEq, Repr

/-- A response. -/
structure Response where
  status : Status
  headers : Headers
  body : Bytes
  deriving DecidableEq, Repr

namespace Request

/-- The media type that a request gives its body. -/
def contentType? (r : Request) : Option String :=
  r.headers.get? "content-type"

/-- The version that the sender of a request speaks. -/
def peerVersion (r : Request) : ProtocolVersion :=
  ProtocolVersion.ofHeader? (r.headers.get? Connection.header)

end Request

namespace Response

/-- A response without a body. -/
def bare (status : Status) : Response :=
  ⟨status, Headers.empty, []⟩

/-- A response with a body of a media type, as far as that can stand in a header. -/
def withBody (status : Status) (type : MediaType) (body : Bytes) : Response :=
  let headers :=
    if Headers.isValue type.text then Headers.empty.add "content-type" type.text
    else Headers.empty
  ⟨status, headers, body⟩

/-- A response with an exception as its body, or with no body where the exception cannot be
written. -/
def ofException (status : Status) (d : Dialect) (e : RemoteException) : Response :=
  match (e.write d).result with
  | .ok body => withBody status MediaType.exception body
  | .error _ => bare status

theorem ofException_status (status : Status) (d : Dialect) (e : RemoteException) :
    (ofException status d e).status = status := by
  unfold ofException
  split
  · rfl
  · rfl

/-- Whether a response names a media type. -/
def hasType (r : Response) (type : MediaType) : Bool :=
  match r.headers.get? "content-type" with
  | none => false
  | some header =>
    match MediaType.parse header with
    | .ok named => type.agrees named
    | .error _ => false

/-- The exception that a response carries, if it carries one that can be read to its end. -/
def exception? (r : Response) (d : Dialect) : Option RemoteException :=
  if r.hasType MediaType.exception then
    (Reader.outcome (RemoteException.read d) r.body).toOption
  else none

/-- Tells the version that this end speaks to a peer that asked for it. -/
def answerProbe (request : Request) (r : Response) : Response :=
  if request.headers.has Connection.header then
    { r with headers := r.headers.set Connection.header ProtocolVersion.latest.text }
  else r

end Response

end RemoteCall.Http
