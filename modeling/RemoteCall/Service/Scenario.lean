import RemoteCall.Client.Loopback
import RemoteCall.Client.Script
import RemoteCall.Service.Host

/-!
# A client and a service together

A client whose requests go straight to a running service. Calls may be started without waiting for
their result, so that several of them are under way.
-/

namespace RemoteCall

/-- The transport to a service that is mounted at a root. -/
def Host.transport (mount : String) : Transport Host := fun r h =>
  match Loopback.strip mount r with
  | .error e => (some (.error e), h)
  | .ok r =>
    let (t, h) := h.submit r
    ((h.response? t r).map .ok, h)

/-- A call that was started. -/
inductive StartedCall where
  | finished (r : Except ClientError Invocation.Response)
  | underWay (ticket : Ticket) (request : Http.Request) (wasProbing : Bool)

/-- A client, a service, and the calls that were started. -/
structure Scenario where
  host : Host
  context : Context
  mount : String
  started : List (String × StartedCall)

namespace Scenario

/-- What may happen. -/
inductive Action where
  /-- A request from elsewhere. -/
  | http (r : Http.Request)
  | client (a : ClientAction)
  | start (name : String) (call : OutgoingCall)
  | openGate (component : String)
  | join (name : String)
  | isRegistered (id : InvocationId)
  | ledger (a : Ledger.Action)

/-- What is seen of it; nothing where there is no response yet. -/
inductive Result where
  | nothing
  | http (r : Option Http.Response)
  | client (r : ClientResult)
  | started (isFinished : Bool)
  | flag (b : Bool)
  | ledger (r : Ledger.Result)

/-- Takes note of the response to a started call, if it is there. -/
def collectOne (h : Host) (c : Context) : StartedCall → StartedCall × Context
  | .finished r => (.finished r, c)
  | .underWay t r wasProbing =>
    match h.response? t r with
    | none => (.underWay t r wasProbing, c)
    | some response =>
      let c := c.afterExchange wasProbing (.ok response)
      (.finished (Client.invokeResult c (.ok response)), c)

/-- Takes note of all responses that are there. -/
def collect (h : Host) : List (String × StartedCall) → Context →
    List (String × StartedCall) × Context
  | [], c => ([], c)
  | (name, call) :: rest, c =>
    let (call, c) := collectOne h c call
    let (rest, c) := collect h rest c
    ((name, call) :: rest, c)

/-- All goes on that can go on. -/
def settle (s : Scenario) : Scenario :=
  let host := s.host.settle
  let (started, context) := collect host s.started s.context
  { s with host, context, started }

/-- Starts a call without waiting for its result. -/
def start (s : Scenario) (call : OutgoingCall) : StartedCall × Scenario :=
  match Client.invokeRequest s.context call with
  | .error e => (.finished (.error e), s)
  | .ok r =>
    match Loopback.strip s.mount (s.context.outgoing r) with
    | .error e => (.finished (.error (.transport e)), s)
    | .ok r =>
      let (t, host) := s.host.submit r
      (.underWay t r s.context.connection.isProbing, { s with host })

/-- The result of a started call, if it has one. -/
def resultOf (s : Scenario) (name : String) : Option (Except ClientError Invocation.Response) :=
  match s.started.lookup name with
  | some (.finished r) => some r
  | _ => none

/-- What happens first, before all else goes on. -/
def act (s : Scenario) : Action → Result × Scenario
  | .http r =>
    let (t, host) := s.host.submit r
    (.http (host.response? t r), { s with host })
  | .client a =>
    let (result, context, host) := a.run (Host.transport s.mount) s.context s.host
    (.client result, { s with host, context })
  | .start name call =>
    let (call, s) := s.start call
    (.nothing, { s with started := (name, call) :: s.started })
  | .openGate component => (.nothing, { s with host := s.host.openGate component })
  | .join name => (.client (.call (s.resultOf name)), s)
  | .isRegistered id => (.flag (s.host.board.registry.has id), s)
  | .ledger a =>
    let (result, ledger) := s.host.ledger.step 0 a
    (.ledger result, { s with host := { s.host with ledger } })

/-- One thing happens, and all goes on that can go on. -/
def step (s : Scenario) (a : Action) : Result × Scenario :=
  let (result, s) := s.act a
  let s := s.settle
  match a with
  | .start name _ => (.started (s.resultOf name).isSome, s)
  | _ => (result, s)

end Scenario

end RemoteCall
