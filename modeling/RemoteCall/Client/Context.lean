import RemoteCall.Client.Failure
import RemoteCall.Namespace

/-!
# What a client knows of a service

Where the service is, which values it knows by number, and the version agreed on with it. All
exchanges of a context share its version: each says what is in force when it starts, and the first
response to one of them settles it.
-/

namespace RemoteCall

/-- A service as a client sees it. -/
structure Context where
  root : String
  known : KnownValues
  connection : Connection

namespace Context

/-- A service at a root, of which nothing else is known; slashes at its end say nothing. -/
def make (root : String) (known : KnownValues) (offered : ProtocolVersion) : Context :=
  ⟨String.ofList (Text.dropTrailing (· == '/') root.toList), known, Connection.start offered⟩

/-- The text of the target at a path of the service. -/
def target (c : Context) (path : String) : String :=
  c.root ++ path

/-- The dialect in which the client writes and reads. -/
def dialect (c : Context) : Dialect :=
  ⟨if c.connection.current.isLegacy then Namespace.translated Resolver.plain else Resolver.plain,
    c.known⟩

/-- A request as it is sent, with the version in force. -/
def outgoing (c : Context) (r : Http.Request) : Http.Request :=
  { r with headers := r.headers.set Connection.header c.connection.current.text }

/-- The context after an exchange that started with or without an agreed version. -/
def afterExchange (c : Context) (wasProbing : Bool) : Delivery → Context
  | .ok r =>
    if wasProbing then
      { c with connection := c.connection.observe (r.headers.get? Connection.header) }
    else c
  | .error _ => c

/-- Sends a request and waits for what the transport brings back. -/
def exchange {σ : Type} (transport : Transport σ) (r : Http.Request) (c : Context) (s : σ) :
    Option Delivery × Context × σ :=
  match transport (c.outgoing r) s with
  | (none, s) => (none, c, s)
  | (some delivery, s) => (some delivery, c.afterExchange c.connection.isProbing delivery, s)

/-- A request whose header fields are checked one after the other, behind its target. The first of
them that cannot be a field is reported. -/
def build (method : String) (target : String) (fields : List (String × String)) (body : Bytes) :
    Except String Http.Request :=
  match Http.Uri.parse target with
  | .error e => .error e.message
  | .ok uri =>
    if fields.all fun (_, value) => Http.Headers.isValue value then
      .ok ⟨method, uri, Http.Headers.ofList fields, body⟩
    else .error "failed to parse header value"

end Context

end RemoteCall
