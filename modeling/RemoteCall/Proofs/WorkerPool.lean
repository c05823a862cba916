import Mathlib.Data.List.Perm.Basic
import RemoteCall.WorkerPool

/-!
# No slot of a worker pool is lost

The slots of a pool are the permits of a semaphore. A caller that waits owns nothing; the permit
that is taken for it goes to the task that is spawned for it, and is given back when that task ends,
in whatever way, and whether or not its caller is still there. So whatever callers and tasks do, and
in whatever order, the tasks that have been spawned and have not ended make up all slots together
with the permits that are free.

## Implementation notes

Of the semaphore only that is used that it counts its permits. A caller waits for its permit and for
nothing else, so to take the permit and to spawn the task that owns it is one move. Which tasks have
not ended is read off the moves, not off the pool; calls need not be told apart.
-/

namespace RemoteCall

/-- A semaphore, of which permits are taken and to which they are given back. -/
structure Semaphore (S : Type) where
  make : Nat → S
  /-- The number of permits that nobody owns. -/
  free : S → Nat
  take? : S → Option S
  giveBack : S → S

/-- A semaphore counts the permits that nobody owns, and gives one away if there is one. -/
structure Semaphore.Counts {S : Type} (sem : Semaphore S) : Prop where
  make (n : Nat) : sem.free (sem.make n) = n
  take {s s' : S} (h : sem.take? s = some s') : sem.free s = sem.free s' + 1
  gives {s : S} (h : 0 < sem.free s) : ∃ s', sem.take? s = some s'
  giveBack (s : S) : sem.free (sem.giveBack s) = sem.free s + 1

/-- A semaphore that is no more than a number. -/
def Semaphore.counter : Semaphore Nat where
  make n := n
  free n := n
  take? n := if n = 0 then none else some (n - 1)
  giveBack n := n + 1

theorem Semaphore.counter_counts : counter.Counts where
  make n := rfl
  take {n n'} h := by
    obtain ⟨hn, hpred⟩ := Option.ite_none_left_eq_some.mp h
    obtain rfl := Option.some.inj hpred
    exact (Nat.succ_pred hn).symm
  gives {n} h := ⟨n - 1, if_neg (Nat.ne_of_gt h)⟩
  giveBack n := rfl

namespace WorkerPool

variable {τ : Type}

/-- Something that a caller or a task of a pool does. -/
inductive Move (τ : Type) where
  /-- A caller begins to wait for a slot. -/
  | call (t : τ)
  /-- The caller that has waited longest gets a slot, and its task is spawned. -/
  | start (t : τ)
  | complete (t : τ)
  | panic (t : τ)
  /-- A caller goes away while it waits. -/
  | abandon (t : τ)
  /-- A caller goes away while its task runs. -/
  | leave (t : τ)

/-- The books of a pool: who has called, who has gone away while it waited, which tasks have been
spawned, and which of them have ended. -/
structure Books (τ : Type) where
  called : List τ
  abandoned : List τ
  spawned : List τ
  ended : List τ

/-- A move is entered in the books. -/
def Books.enter (b : Books τ) : Move τ → Books τ
  | .call t => { b with called := b.called ++ [t] }
  | .start t => { b with spawned := b.spawned ++ [t] }
  | .complete t => { b with ended := b.ended ++ [t] }
  | .panic t => { b with ended := b.ended ++ [t] }
  | .abandon t => { b with abandoned := b.abandoned ++ [t] }
  | .leave _ => b

/-- The books after some moves. -/
def books (moves : List (Move τ)) : Books τ :=
  moves.foldl Books.enter ⟨[], [], [], []⟩

theorem books_concat (moves : List (Move τ)) (move : Move τ) :
    books (moves ++ [move]) = (books moves).enter move :=
  List.foldl_concat ..

/-- The tasks that have been spawned and have not ended. -/
def Books.unfinished [BEq τ] (b : Books τ) : List τ :=
  b.spawned.diff b.ended

section Runs

variable [DecidableEq τ] {S : Type}

/-- One move, with what becomes of the pool and of the semaphore. It is the semaphore that decides
whether a task is spawned. -/
inductive Step (sem : Semaphore S) : WorkerPool τ → S → Move τ → WorkerPool τ → S → Prop
  | call {p : WorkerPool τ} {s : S} (t : τ) : Step sem p s (.call t) (p.enqueue t) s
  | start {p : WorkerPool τ} {s s' : S} {t : τ} {rest : List τ} (hwaiting : p.waiting = t :: rest)
      (htake : sem.take? s = some s') :
      Step sem p s (.start t) { p with running := p.running ++ [t], waiting := rest } s'
  | complete {p : WorkerPool τ} {s : S} {t : τ} (h : t ∈ p.running) :
      Step sem p s (.complete t) (p.finish t) (sem.giveBack s)
  | panic {p : WorkerPool τ} {s : S} {t : τ} (h : t ∈ p.running) :
      Step sem p s (.panic t) (p.finish t) (sem.giveBack s)
  | abandon {p : WorkerPool τ} {s : S} {t : τ} (h : t ∈ p.waiting) :
      Step sem p s (.abandon t) (p.abandon t) s
  | leave {p : WorkerPool τ} {s : S} {t : τ} (h : t ∈ p.running) : Step sem p s (.leave t) p s

/-- What may have become of a new pool, by the moves that were made. -/
inductive Runs (sem : Semaphore S) (limit : Nat) : List (Move τ) → WorkerPool τ → S → Prop
  | make : Runs sem limit [] (WorkerPool.make limit) (sem.make (max limit 1))
  | step {moves : List (Move τ)} {move : Move τ} {p p' : WorkerPool τ} {s s' : S}
      (run : Runs sem limit moves p s) (h : Step sem p s move p' s') :
      Runs sem limit (moves ++ [move]) p' s'

/-- Some moves lead to a pool. -/
def Attainable (sem : Semaphore S) (limit : Nat) (p : WorkerPool τ) : Prop :=
  ∃ moves s, Runs sem limit moves p s

end Runs

variable {S : Type} {sem : Semaphore S} {limit : Nat} {moves : List (Move τ)} {move : Move τ}
  {b : Books τ} {p p' : WorkerPool τ} {s s' : S} {t : τ}

/-- The books of a pool balance: every permit is free or owned by a task that runs, every task that
was spawned has ended or runs, and every caller has gone away, has its task, or waits. -/
structure Balanced (sem : Semaphore S) (limit : Nat) (b : Books τ) (p : WorkerPool τ) (s : S) :
    Prop where
  slots : p.slots = max limit 1
  permits : p.running.length + sem.free s = max limit 1
  tasks : b.spawned.Perm (b.ended ++ p.running)
  calls : b.called.Perm (b.abandoned ++ (b.spawned ++ p.waiting))

theorem balanced_make (hsem : sem.Counts) :
    Balanced sem limit ⟨[], [], [], []⟩ (WorkerPool.make limit : WorkerPool τ)
      (sem.make (max limit 1)) where
  slots := rfl
  permits := by
    rw [hsem.make]
    exact Nat.zero_add _
  tasks := .refl _
  calls := .refl _

theorem Balanced.available (h : Balanced sem limit b p s) : p.available = sem.free s := by
  rw [WorkerPool.available, h.slots, ← h.permits, Nat.add_sub_cancel_left]

/-- A free slot goes to the caller that has waited longest. -/
theorem startNext?_eq_some_iff :
    p.startNext? = some (t, p') ↔ ∃ rest, p.waiting = t :: rest ∧ p.running.length < p.slots ∧
      p' = { p with running := p.running ++ [t], waiting := rest } := by
  unfold startNext?
  split
  · next hnone =>
    rw [hnone]
    simp
  · next next rest hwaiting =>
    rw [hwaiting]
    constructor
    · intro hstart
      split at hstart
      · next hfree =>
        cases hstart
        exact ⟨rest, rfl, hfree, rfl⟩
      · cases hstart
    · rintro ⟨_, ⟨⟩, hfree, rfl⟩
      exact if_pos hfree

variable [DecidableEq τ]

/-- A task that ends gives back what it owned. -/
theorem Balanced.finish (hsem : sem.Counts) (h : Balanced sem limit b p s) (ht : t ∈ p.running) :
    Balanced sem limit { b with ended := b.ended ++ [t] } (p.finish t) (sem.giveBack s) where
  slots := h.slots
  permits := by
    calc (p.running.erase t).length + sem.free (sem.giveBack s)
        = (p.running.erase t).length + 1 + sem.free s := by rw [hsem.giveBack]; omega
      _ = p.running.length + sem.free s := by rw [List.length_erase_add_one ht]
      _ = max limit 1 := h.permits
  tasks := by
    rw [List.append_assoc]
    exact h.tasks.trans ((List.perm_cons_erase ht).append_left _)
  calls := h.calls

/-- The books still balance after one more move. -/
theorem Balanced.step (hsem : sem.Counts) (h : Balanced sem limit b p s)
    (hstep : Step sem p s move p' s') : Balanced sem limit (b.enter move) p' s' := by
  cases hstep with
  | call t =>
      refine ⟨h.slots, h.permits, h.tasks, ?_⟩
      simpa [enqueue, Books.enter] using h.calls.append_right [t]
  | @start _ t rest hwaiting htake =>
      obtain ⟨hslots, hpermits, htasks, hcalls⟩ := h
      refine ⟨hslots, ?_, ?_, ?_⟩
      · calc (p.running ++ [t]).length + sem.free s'
            = p.running.length + (sem.free s' + 1) := by
              rw [List.length_append, List.length_singleton, Nat.add_right_comm, Nat.add_assoc]
          _ = p.running.length + sem.free s := by rw [hsem.take htake]
          _ = max limit 1 := hpermits
      · simpa [Books.enter] using htasks.append_right [t]
      · simpa [Books.enter, hwaiting] using hcalls
  | complete ht => exact h.finish hsem ht
  | panic ht => exact h.finish hsem ht
  | @abandon t ht =>
      refine ⟨h.slots, h.permits, h.tasks, ?_⟩
      -- The caller is among those who wait, and passes over to those who have gone away.
      have hgone : (b.spawned ++ p.waiting).Perm (t :: (b.spawned ++ p.waiting.erase t)) :=
        ((List.perm_cons_erase ht).append_left _).trans List.perm_middle
      simpa [WorkerPool.abandon, Books.enter] using h.calls.trans (hgone.append_left _)
  | leave ht => exact h

/-- The books of a pool balance whatever has been done. -/
theorem Runs.balanced (hsem : sem.Counts) (run : Runs sem limit moves p s) :
    Balanced sem limit (books moves) p s := by
  induction run with
  | make => exact balanced_make hsem
  | step _ h ih =>
      rw [books_concat]
      exact ih.step hsem h

/-- The tasks that run are those that have been spawned and have not ended. -/
theorem Balanced.unfinished_perm (h : Balanced sem limit b p s) : b.unfinished.Perm p.running := by
  have hrest : ∀ ended : List τ, (ended ++ p.running).diff ended = p.running := by
    intro ended
    induction ended with
    | nil => rfl
    | cons t ended ih => rw [List.cons_append, List.diff_cons, List.erase_cons_head, ih]
  have hdiff := h.tasks.diff_right b.ended
  rwa [hrest] at hdiff

/-- A pool starts a task exactly when its semaphore has a permit for it. -/
theorem Balanced.startNext?_iff (hsem : sem.Counts) (h : Balanced sem limit b p s) :
    p.startNext? = some (t, p') ↔ ∃ s', Step sem p s (.start t) p' s' := by
  obtain ⟨hslots, hpermits, -, -⟩ := h
  rw [startNext?_eq_some_iff]
  constructor
  · rintro ⟨rest, hwaiting, hfree, rfl⟩
    obtain ⟨s', htake⟩ := hsem.gives (s := s) (by omega)
    exact ⟨s', .start hwaiting htake⟩
  · rintro ⟨s', hstep⟩
    cases hstep with
    | start hwaiting htake =>
        have hfree := hsem.take htake
        exact ⟨_, hwaiting, by omega, rfl⟩

/-! ### Pools that are moved by their own operations -/

theorem Attainable.make : Attainable sem limit (WorkerPool.make limit : WorkerPool τ) :=
  ⟨[], _, .make⟩

theorem Attainable.enqueue (h : Attainable sem limit p) (t : τ) :
    Attainable sem limit (p.enqueue t) := by
  obtain ⟨moves, s, run⟩ := h
  exact ⟨_, s, run.step (.call t)⟩

theorem Attainable.start (hsem : sem.Counts) (h : Attainable sem limit p)
    (hstart : p.startNext? = some (t, p')) : Attainable sem limit p' := by
  obtain ⟨moves, s, run⟩ := h
  obtain ⟨s', hstep⟩ := ((run.balanced hsem).startNext?_iff hsem).mp hstart
  exact ⟨_, s', run.step hstep⟩

theorem Attainable.finish (h : Attainable sem limit p) (ht : t ∈ p.running) :
    Attainable sem limit (p.finish t) := by
  obtain ⟨moves, s, run⟩ := h
  exact ⟨_, _, run.step (.complete ht)⟩

end WorkerPool

namespace Workshop

open WorkerPool

variable {S : Type} {sem : Semaphore S} {limit : Nat} {w : Workshop}

theorem settle_attainable (hsem : sem.Counts) (fuel : Nat) (h : Attainable sem limit w.pool) :
    Attainable sem limit (settle fuel w).pool := by
  induction fuel generalizing w with
  | zero => exact h
  | succ fuel ih =>
      unfold settle
      split
      · exact h
      · next t pool hstart =>
        have hpool := h.start hsem hstart
        obtain ⟨rest, -, -, rfl⟩ := startNext?_eq_some_iff.mp hstart
        refine ih ?_
        dsimp only
        split
        · exact hpool
        · exact hpool.finish (List.mem_append_right _ (List.mem_singleton_self t))

theorem tell_attainable (hsem : sem.Counts) (name : String) (finishes : Bool)
    (h : Attainable sem limit w.pool) : Attainable sem limit (w.tell name finishes).pool := by
  unfold tell
  split
  · exact h
  · next t hfind => exact settle_attainable hsem _ (h.finish (List.mem_of_find?_eq_some hfind))

/-- Whatever is done in a workshop, callers and tasks do it to its pool. -/
theorem attainable (hsem : sem.Counts) (limit : Nat) (actions : List Action) :
    Attainable sem limit (actions.foldl step (make limit)).pool := by
  have hsteps : ∀ w : Workshop, Attainable sem limit w.pool →
      Attainable sem limit (actions.foldl step w).pool := by
    induction actions with
    | nil => exact fun w h => h
    | cons action actions ih =>
        refine fun w h => ih _ ?_
        cases action with
        | spawn name => exact settle_attainable hsem _ (h.enqueue _)
        | finish name => exact tell_attainable hsem name true h
        | fail name => exact tell_attainable hsem name false h
  exact hsteps _ .make

end Workshop

end RemoteCall
