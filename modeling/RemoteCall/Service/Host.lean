import RemoteCall.Branch.Endpoint
import RemoteCall.Cancel.Board
import RemoteCall.Cancel.Endpoint
import RemoteCall.Http.Router
import RemoteCall.Service.Deployment
import RemoteCall.Service.Dispatch
import RemoteCall.WorkerPool

/-!
# A running service

Requests arrive one after the other, but invocations run side by side: each waits for a free
worker, runs, may wait inside its target, and ends with a response. Requests are numbered, and an
invocation goes by the number of its request. After every step all goes on that can go on.
-/

namespace RemoteCall

/-- The number of a request. -/
abbrev Ticket := Nat

/-- The parts of a service that requests are routed to. -/
inductive Part where
  | invocations
  | cancellations
  | transactions
  deriving DecidableEq, Repr

/-- An invocation that has a worker. -/
structure Running where
  ticket : Ticket
  dialect : Dialect
  guard : Guard Ticket

/-- An invocation whose target waits. -/
structure Parked where
  run : Running
  component : String
  isStubborn : Bool
  next : CallOutcome → Exchange

/-- What is fixed about a service. -/
structure Setup where
  config : ServiceConfig
  deployment : Deployment
  /-- Whether invocations take part in the transactions of their callers. -/
  isManaged : Bool
  /-- Whether peers that ask are told the version of the service. -/
  answersProbes : Bool

/-- The state of a service. -/
structure Host where
  setup : Setup
  /-- The number of the task in which an invocation is carried out. -/
  task : Ticket → Nat
  ledger : Ledger
  /-- Where cancel requests find the invocations, which go by their numbers. -/
  board : Cancel.Board Ticket
  pool : WorkerPool Ticket
  /-- Accepted requests that wait for a worker. -/
  queued : List (Ticket × Accepted)
  /-- Waiting targets, longest first. -/
  parked : List Parked
  /-- Components whose gate was opened while nobody waited. -/
  openGates : List String
  responses : List (Ticket × Http.Response)
  /-- The number of the next request. -/
  nextTicket : Ticket
  /-- How many calls have been made. -/
  calls : Nat
  /-- The names that the filter was asked about. -/
  asked : List String

namespace Host

/-- A service on which nothing has happened, with numbers for its tasks. -/
def startWith (setup : Setup) (task : Ticket → Nat) : Host where
  setup := setup
  task := task
  ledger := Ledger.empty
  board := Cancel.Board.empty
  pool := WorkerPool.make setup.config.maxWorkers
  queued := []
  parked := []
  openGates := []
  responses := []
  nextTicket := 0
  calls := 0
  asked := []

/-- A service on which nothing has happened, and whose tasks are not told apart. -/
def start (setup : Setup) : Host :=
  startWith setup fun _ => 0

/-- Where the parts of a service are mounted. -/
def routes : Http.Router Part :=
  .ofList [("/ejb/v1/invoke", .invocations), ("/ejb/v1/cancel", .cancellations),
    ("/txn/v1", .transactions)]

/-- The name of the branch in which a call takes part. -/
def importedName (h : Host) (c : ResolvedCall) : Option String :=
  c.imported.bind fun i => h.ledger.branches[i]?.map (·.xid.text)

/-- What the target of a call does at once. -/
inductive Reaction where
  | outcome (o : CallOutcome)
  | breakDown (message : String)
  | park (component : String) (isStubborn : Bool)

/-- A target that waits gets through: it tells whether it was asked to stop. -/
def passGate (handle : CancelHandle) : CallOutcome :=
  .success (.list [.bool handle.isCancelled, .bool handle.isAggressive])

/-- Makes a call. A gate that is open lets one call through. -/
def react (h : Host) (handle : CancelHandle) (c : ResolvedCall) : Reaction × Host :=
  match h.setup.deployment.find? c.locator.component with
  | none => (.outcome (.target (.noSuchComponent c.locator.component)), h)
  | some component =>
    match component.behaviour with
    | .echo => (.outcome (.success (c.parameters.head?.getD .null)), h)
    | .constant v => (.outcome (.success v), h)
    | .throw e => (.outcome (.exception e), h)
    | .vanish error => (.outcome (.target (error c.locator c.method)), h)
    | .cancelled => (.outcome .cancelled, h)
    | .breakDown m => (.breakDown m, h)
    | .enlist times =>
      match c.imported with
      | none => (.outcome (.success (.bool false)), h)
      | some i =>
        (.outcome (.success (.bool true)), { h with ledger := times.repeat (·.enlist i) h.ledger })
    | .park isStubborn =>
      if h.openGates.contains component.name then
        (.outcome (passGate handle),
          { h with openGates := h.openGates.filter (· != component.name) })
      else (.park component.name isStubborn, h)
    | .describe => (.outcome (.success (c.describe (h.importedName c))), h)

/-- A request has its response, and its worker is free again. -/
def complete (h : Host) (t : Ticket) (r : Http.Response) : Host :=
  { h with pool := h.pool.finish t, responses := h.responses ++ [(t, r)] }

/-- The place of an invocation in the register is given back. -/
def release (h : Host) (run : Running) : Running × Host :=
  let (guard, board) := h.board.release run.guard
  ({ run with guard }, { h with board })

/-- An exchange goes on until it ends or its target waits. Time does not pass meanwhile. -/
def advance : Exchange → Running → Host → Host
  | .respond r, run, h => h.complete run.ticket r
  | .ask (.importBranch x timeout) next, run, h =>
    let (reply, ledger) := h.ledger.findOrImport 0 x timeout
    advance (next reply) run { h with ledger }
  | .ask (.isHome component view) next, run, h =>
    advance (next (h.setup.deployment.isHome component view)) run h
  | .ask (.locate locator method) next, run, h =>
    advance (next ((h.setup.deployment.locate locator method).map fun _ => ())) run h
  | .ask (.register id) next, run, h =>
    let (guard, board) := h.board.hold id run.ticket
    advance (next ()) { run with guard } { h with board }
  | .ask (.invoke call) next, run, h =>
    match { h with calls := h.calls + 1 }.react (h.board.handle run.ticket) call with
    | (.outcome o, h) => advance (next o) run h
    | (.breakDown m, h) =>
      (h.release run).2.complete run.ticket
        (Dispatch.broken run.dialect ⟨h.task run.ticket, m⟩)
    | (.park component isStubborn, h) =>
      { h with parked := h.parked ++ [⟨run, component, isStubborn, next⟩] }
  | .ask (.acknowledge cancelled) next, run, h =>
    advance (next ()) run { h with board := h.board.acknowledge run.ticket cancelled }
  | .ask .release next, run, h =>
    let (run, h) := h.release run
    advance (next ()) run h

/-- Gives a free worker to the request that has waited longest. -/
def startNext? (h : Host) : Option Host :=
  match h.pool.startNext? with
  | none => none
  | some (t, pool) =>
    match h.queued.lookup t with
    | none => some { h with pool := pool.finish t }
    | some a =>
      let (asked, exchange) := Dispatch.start h.setup.config h.setup.isManaged a
      let run : Running := ⟨t, h.setup.config.dialect a.peer, ⟨none⟩⟩
      some <| advance exchange run
        { h with
          pool
          board := h.board.meet t
          queued := h.queued.filter (·.1 != t)
          asked := h.asked ++ asked }

/-- Lets the first waiting target go on that a predicate holds of. -/
def resumeFirst? (h : Host) (p : Parked → Bool) (outcome : Parked → CallOutcome) : Option Host :=
  match h.parked.find? p with
  | none => none
  | some q =>
    some <| advance (q.next (outcome q)) q.run
      { h with parked := h.parked.eraseP p }

/-- The handle of the invocation whose target waits. -/
def handleOf (h : Host) (q : Parked) : CancelHandle :=
  h.board.handle q.run.ticket

/-- Whether a waiting target stops because it was asked to. -/
def stops (h : Host) (q : Parked) : Bool :=
  (h.handleOf q).isCancelled && !q.isStubborn

/-- All goes on that can go on, in at most `fuel` turns. -/
def settleIn : (fuel : Nat) → Host → Host
  | 0, h => h
  | fuel + 1, h =>
    match h.resumeFirst? h.stops fun _ => .cancelled with
    | some h => settleIn fuel h
    | none =>
      match h.startNext? with
      | some h => settleIn fuel h
      | none => h

/-- All goes on that can go on. Every turn starts an invocation that waited for a worker, which may
then wait once more, or ends one. -/
def settle (h : Host) : Host :=
  settleIn (2 * h.pool.waiting.length + h.parked.length) h

/-- Opens the gate of a component once: for the target that has waited longest, or for the next one
to come. -/
def openGate (h : Host) (component : String) : Host :=
  match h.resumeFirst? (·.component == component) fun q => passGate (h.handleOf q) with
  | some h => h
  | none =>
    { h with openGates := component :: h.openGates.filter (· != component) }

/-- Requests that an invocation be cancelled, and waits for its report. -/
def cancel (h : Host) (order : Cancel.Order) : Cancel.Outcome × Host :=
  match h.board.request order.id order.isAggressive with
  | (none, _) => (.notFound, h)
  | (some t, board) =>
    let h := { h with board }
    if h.board.hasReport t then (.acknowledged, h)
    else if h.setup.config.cancelWait = 0 then (.unknown, h)
    else
      let h := h.settle
      (if h.board.hasReport t then .acknowledged else .unknown, h)

/-- A request reaches the part of the service that it is for. -/
def deliver (h : Host) (t : Ticket) (r : Http.Request) : Host :=
  match routes.select r with
  | .error response => { h with responses := h.responses ++ [(t, response)] }
  | .ok (.invocations, r) =>
    match Dispatch.accept r with
    | .error response => { h with responses := h.responses ++ [(t, response)] }
    | .ok a => { h with queued := h.queued ++ [(t, a)], pool := h.pool.enqueue t }
  | .ok (.cancellations, r) =>
    match Cancel.Order.ofRequest r with
    | .error status => { h with responses := h.responses ++ [(t, .bare status)] }
    | .ok order =>
      let (outcome, h) := h.cancel order
      { h with responses := h.responses ++ [(t, .bare outcome.status)] }
  | .ok (.transactions, r) =>
    let (response, ledger) :=
      BranchEndpoint.serve h.setup.config (fun p x l => l.perform 0 p x) r h.ledger
    { h with ledger, responses := h.responses ++ [(t, response)] }

/-- A request arrives, and all goes on that can go on. -/
def submit (h : Host) (r : Http.Request) : Ticket × Host :=
  let t := h.nextTicket
  (t, ({ h with nextTicket := t + 1 }.deliver t r).settle)

/-- The response to a request, if there is one already. -/
def response? (h : Host) (t : Ticket) (r : Http.Request) : Option Http.Response :=
  (h.responses.lookup t).map fun response =>
    if h.setup.answersProbes then response.answerProbe r else response

end Host

end RemoteCall
