import RemoteCall.Client.Branch
import RemoteCall.Client.Invocation

/-!
# A client with prepared replies

Each request of the client gets a reply that was fixed beforehand, after a fixed time or never. All
requests are kept.
-/

namespace RemoteCall

/-- What the client is told in place of an answer of a service. -/
structure PreparedReply where
  /-- Absent if there is never a reply. -/
  delivery : Option Delivery
  /-- The milliseconds until the reply. -/
  after : Nat

/-- Brings a prepared reply back, unless the caller gives up before it is there, and keeps the
request. -/
def PreparedReply.transport (reply : PreparedReply) (patience : Option Nat) :
    Transport (List Http.Request) := fun r sent =>
  let isGivenUp : Bool := match patience with
    | some limit => limit < reply.after
    | none => false
  (if isGivenUp then none else reply.delivery, sent ++ [r])

/-- What is to be done with a branch, and when the coordinator loses patience. -/
structure BranchOrder where
  xid : Xid
  task : BranchClient.Task
  /-- The state of the interrupt before. -/
  interrupt : Interrupt
  /-- The milliseconds after which an interrupt is raised. -/
  patience : Option Nat

/-- What a client does. -/
inductive ClientAction where
  | invoke (call : OutgoingCall)
  | cancel (order : OutgoingCancel)
  | branch (order : BranchOrder)

/-- What a client sees; nothing where it still waits. -/
inductive ClientResult where
  | call (r : Option (Except ClientError Invocation.Response))
  | cancel (r : Option (Except ClientError Cancel.Outcome))
  | branch (xid : Xid) (r : PrimitiveResult) (interrupt : Interrupt)

namespace ClientAction

/-- The milliseconds after which an action is given up. -/
def patience : ClientAction → Option Nat
  | branch order => order.patience
  | _ => none

/-- Carries out an action over a transport. -/
def run {σ : Type} (transport : Transport σ) (c : Context) (s : σ) :
    ClientAction → ClientResult × Context × σ
  | invoke call =>
    let (r, c, s) := Client.invoke transport call c s
    (.call r, c, s)
  | cancel order =>
    let (r, c, s) := Client.cancel transport order c s
    (.cancel r, c, s)
  | branch order =>
    let (r, interrupt, c, s) :=
      BranchClient.perform transport order.xid order.task order.interrupt c s
    (.branch order.xid r interrupt, c, s)

end ClientAction

end RemoteCall
