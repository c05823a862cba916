import RemoteCall.Branch.Outcome
import RemoteCall.Branch.Xid

/-!
# The branches of a service

A service keeps its part of every transaction that it takes part in, from the first call that
brings the transaction until the coordinator ends it, and finds it under a name meanwhile. A call
may hold on to its branch longer than that, so branches that have ended stay on record, without the
name under which they were found.
-/

namespace RemoteCall

/-- How far a branch has come. -/
inductive BranchState where
  | active
  | beforeCompletion
  | prepared
  deriving DecidableEq, Repr

/-- The text shown for a state. -/
def BranchState.text : BranchState → String
  | active => "Active"
  | beforeCompletion => "BeforeCompletion"
  | prepared => "Prepared"

/-- One incarnation of a branch. -/
structure Branch where
  xid : Xid
  /-- From this time on the branch has timed out; times are nanoseconds of some clock. -/
  deadline : Nat
  state : BranchState
  /-- How often work was done under the branch. -/
  work : Nat
  /-- The name under which the branch is found, as long as it has not ended. -/
  key : Option Xid
  deriving DecidableEq, Repr

namespace Branch

/-- Whether a branch has not ended yet. -/
def present (b : Branch) : Bool :=
  b.key.isSome

/-- Whether a branch has timed out. -/
def isExpired (b : Branch) (now : Nat) : Bool :=
  b.deadline ≤ now

end Branch

/-- Which incarnation of a branch is meant, counted from the first on record. -/
abbrev BranchRef := Nat

/-- All branches on record, in the order of their import. -/
structure Ledger where
  branches : List Branch
  deriving DecidableEq, Repr

namespace Ledger

/-- A second, in which timeouts are given. -/
def second : Nat := 1000000000

/-- Nothing on record. -/
def empty : Ledger := ⟨[]⟩

/-- Where the branch that is found under a name is on record. -/
def find? (l : Ledger) (x : Xid) : Option BranchRef :=
  l.branches.findIdx? fun b => b.key == some x

/-- The branch that is found under a name. -/
def get? (l : Ledger) (x : Xid) : Option Branch :=
  l.branches.find? fun b => b.key == some x

/-- The number of branches that are present. -/
def size (l : Ledger) : Nat :=
  (l.branches.filter (·.present)).length

/-- Changes one branch. -/
def update (l : Ledger) (i : BranchRef) (f : Branch → Branch) : Ledger :=
  ⟨l.branches.modify i f⟩

/-- Ends a branch. -/
def retire (l : Ledger) (i : BranchRef) : Ledger :=
  l.update i fun b => { b with key := none }

/-- Records work under a branch, whether it is present or not. -/
def enlist (l : Ledger) (i : BranchRef) : Ledger :=
  l.update i fun b => { b with work := b.work + 1 }

/-- A transaction is not known. -/
def unknown (x : Xid) : XaError :=
  .make Outcome.unknownBranch ("unknown transaction " ++ x.text)

/-- A transaction has timed out. -/
def timedOut (x : Xid) : XaError :=
  .make Outcome.rolledBack ("transaction " ++ x.text ++ " timed out")

/-- A transaction is already prepared. -/
def alreadyPrepared (x : Xid) : XaError :=
  .make Outcome.wrongState ("transaction " ++ x.text ++ " already prepared")

/-- A transaction does not take calls any more. -/
def completing (x : Xid) : XaError :=
  .make Outcome.wrongState ("transaction " ++ x.text ++ " is completing")

/-- A commit does not fit the state of a branch. -/
def badCommit (onePhase : Bool) (s : BranchState) : XaError :=
  .make Outcome.wrongState
    ("commit(one_phase=" ++ (if onePhase then "true" else "false") ++ ") in state " ++ s.text)

/-- The branch for a call, which is put on record if there is none. -/
def findOrImport (now : Nat) (x : Xid) (timeout : Int32) (l : Ledger) :
    Except XaError BranchRef × Ledger :=
  if timeout.toInt < 0 then
    (.error (.make Outcome.invalidArgument ("negative timeout " ++ toString timeout.toInt)), l)
  else
    match l.find? x, l.get? x with
    | some i, some b =>
      if b.state = .active then (.ok i, l) else (.error (completing x), l)
    | _, _ =>
      (.ok l.branches.length,
        ⟨l.branches ++ [⟨x, now + second * timeout.toInt.toNat, .active, 0, some x⟩]⟩)

/-- Asks a branch for its vote. A branch that has timed out is rolled back, and one without work
ends with its vote. -/
def prepare (now : Nat) (x : Xid) (i : BranchRef) (b : Branch) (l : Ledger) :
    PrimitiveResult × Ledger :=
  if b.isExpired now then (.error (timedOut x), l.retire i)
  else if b.state = .prepared then (.error (alreadyPrepared x), l)
  else if b.work = 0 then (.ok (some .readOnly), l.retire i)
  else (.ok (some .ok), l.update i fun b => { b with state := .prepared })

/-- Commits a branch: after its vote, or at once without one. -/
def commit (now : Nat) (x : Xid) (onePhase : Bool) (i : BranchRef) (b : Branch) (l : Ledger) :
    PrimitiveResult × Ledger :=
  if onePhase = decide (b.state = .prepared) then (.error (badCommit onePhase b.state), l)
  else if onePhase && b.isExpired now then (.error (timedOut x), l.retire i)
  else (.ok none, l.retire i)

/-- Announces to a branch that its vote will be asked for. -/
def beforeCompletion (x : Xid) (i : BranchRef) (b : Branch) (l : Ledger) :
    PrimitiveResult × Ledger :=
  if b.state = .prepared then (.error (alreadyPrepared x), l)
  else (.ok none, l.update i fun b => { b with state := .beforeCompletion })

/-- Carries out what a coordinator asks of a branch. -/
def perform (now : Nat) (p : Primitive) (x : Xid) (l : Ledger) : PrimitiveResult × Ledger :=
  match l.find? x, l.get? x with
  | some i, some b =>
    match p with
    | .prepare => prepare now x i b l
    | .commit onePhase => commit now x onePhase i b l
    | .rollback => (.ok none, l.retire i)
    | .beforeCompletion => beforeCompletion x i b l
    | .forget => (.ok none, l.retire i)
  | _, _ => (.error (unknown x), l)

/-- What may be done to a ledger from outside. -/
inductive Action where
  | findOrImport (x : Xid) (timeout : Int32)
  /-- Finds or imports a branch and records work under it. -/
  | work (x : Xid) (timeout : Int32)
  /-- Records work under a branch that is present. -/
  | enlist (x : Xid)
  | perform (p : Primitive) (x : Xid)
  | look (x : Xid)

/-- The branch that an action is about. -/
def Action.xid : Action → Xid
  | findOrImport x _ => x
  | work x _ => x
  | enlist x => x
  | perform _ x => x
  | look x => x

/-- What an action shows. -/
inductive Result where
  | nothing
  | imported (x : Xid)
  | flag (b : Bool)
  | answer (vote : Option Vote)
  | failure (e : XaError)

/-- One action on a ledger, at a time. -/
def step (now : Nat) (l : Ledger) : Action → Result × Ledger
  | .findOrImport x timeout =>
    match l.findOrImport now x timeout with
    | (.ok _, l) => (.imported x, l)
    | (.error e, l) => (.failure e, l)
  | .work x timeout =>
    match l.findOrImport now x timeout with
    | (.ok i, l) => (.nothing, l.enlist i)
    | (.error e, l) => (.failure e, l)
  | .enlist x =>
    match l.find? x with
    | some i => (.flag true, l.enlist i)
    | none => (.flag false, l)
  | .perform p x =>
    match l.perform now p x with
    | (.ok vote, l) => (.answer vote, l)
    | (.error e, l) => (.failure e, l)
  | .look _ => (.nothing, l)

end Ledger

end RemoteCall
