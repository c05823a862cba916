/-!
# A bounded number of workers

At most so many tasks run at once. Those who want to start a task wait in a queue for a free slot,
and the slot of a task becomes free when the task ends, in whatever way.
-/

namespace RemoteCall

/-- Tasks that run and tasks that wait for a slot, in order. -/
structure WorkerPool (τ : Type) where
  slots : Nat
  running : List τ
  waiting : List τ
  deriving Repr

namespace WorkerPool

variable {τ : Type}

/-- A pool without tasks; it has at least one slot. -/
def make (limit : Nat) : WorkerPool τ := ⟨max limit 1, [], []⟩

/-- The number of free slots. -/
def available (p : WorkerPool τ) : Nat :=
  p.slots - p.running.length

/-- Waits for a slot. -/
def enqueue (p : WorkerPool τ) (t : τ) : WorkerPool τ :=
  { p with waiting := p.waiting ++ [t] }

/-- Gives up waiting. -/
def abandon [DecidableEq τ] (p : WorkerPool τ) (t : τ) : WorkerPool τ :=
  { p with waiting := p.waiting.erase t }

/-- Gives a free slot to the task that has waited longest. -/
def startNext? (p : WorkerPool τ) : Option (τ × WorkerPool τ) :=
  match p.waiting with
  | [] => none
  | t :: rest =>
    if p.running.length < p.slots then
      some (t, { p with running := p.running ++ [t], waiting := rest })
    else none

/-- A task ends, and its slot becomes free. -/
def finish [DecidableEq τ] (p : WorkerPool τ) (t : τ) : WorkerPool τ :=
  { p with running := p.running.erase t }

end WorkerPool

/-! ### Tasks that end when they are told to -/

/-- A task; tasks of one name are told apart by their numbers. -/
structure Workshop.Task where
  number : Nat
  name : String
  deriving DecidableEq, Repr

/-- A pool of tasks, each of which runs until its name is told how to end. -/
structure Workshop where
  pool : WorkerPool Workshop.Task
  /-- What names have been told while no task of theirs ran: `true` if the next one is to finish
  and `false` if it is to fail. -/
  endings : List (String × Bool)
  /-- Every task that was given to the pool. -/
  tasks : List Workshop.Task
  events : List String

namespace Workshop

/-- A workshop without tasks. -/
def make (limit : Nat) : Workshop := ⟨WorkerPool.make limit, [], [], []⟩

/-- What may be done in a workshop. -/
inductive Action where
  | spawn (name : String)
  | finish (name : String)
  | fail (name : String)

/-- The names of the tasks, with whether the last task of a name has got a slot. -/
def spawned (w : Workshop) : List (String × Bool) :=
  w.tasks.map fun t => (t.name, t ∉ w.pool.waiting)

/-- Ends a running task. Only a task that finishes leaves a record. -/
def endTask (w : Workshop) (t : Task) (finishes : Bool) : Workshop :=
  { w with
    pool := w.pool.finish t
    events := if finishes then w.events ++ [t.name ++ " done"] else w.events }

/-- Starts tasks as long as there are free slots, at most `fuel` of them. A task whose name has
been told how to end ends at once, and the next one of that name has to be told again. -/
def settle : (fuel : Nat) → Workshop → Workshop
  | 0, w => w
  | fuel + 1, w =>
    match w.pool.startNext? with
    | none => w
    | some (t, pool) =>
      let w : Workshop := { w with pool, events := w.events ++ [t.name ++ " started"] }
      settle fuel
        (match w.endings.lookup t.name with
        | none => w
        | some finishes =>
          { w with endings := w.endings.filter (·.1 != t.name) }.endTask t finishes)

/-- Tells a name how to end: the task of that name that has run longest, or else the next one. -/
def tell (w : Workshop) (name : String) (finishes : Bool) : Workshop :=
  match w.pool.running.find? (·.name == name) with
  | none => { w with endings := (name, finishes) :: w.endings }
  | some t => settle w.pool.waiting.length (w.endTask t finishes)

/-- One action in a workshop, and what follows from it. -/
def step (w : Workshop) : Action → Workshop
  | .spawn name =>
    let t : Task := ⟨w.tasks.length, name⟩
    let w : Workshop := { w with pool := w.pool.enqueue t, tasks := w.tasks ++ [t] }
    settle w.pool.waiting.length w
  | .finish name => w.tell name true
  | .fail name => w.tell name false

end Workshop

end RemoteCall
