import RemoteCall.Proofs.Service.Cancelling
import RemoteCall.Proofs.WorkerPool

/-!
# Which workers of a service are busy

A service does to its workers only what the callers and the tasks of a pool do. Between requests the
busy workers are those whose invocations wait inside their targets: every other invocation has ended
and has given its worker back. So no more targets wait than there are workers, and the other workers
are free.
-/

namespace RemoteCall

open WorkerPool

namespace Host

variable {S : Type} {sem : Semaphore S} {limit : Nat} {attended : List Ticket} {h h' : Host}
  {run : Running} {t : Ticket}

/-- The workers of a service are those of a pool, and the busy ones have the invocations that are
attended to and those whose targets wait. -/
structure Staffed (sem : Semaphore S) (limit : Nat) (attended : List Ticket) (h : Host) : Prop where
  pool : Attainable sem limit h.pool
  running : h.pool.running.Perm (attended ++ h.parked.map (·.run.ticket))

theorem Staffed.alike (hstaffed : Staffed sem limit attended h) (hpool : h'.pool = h.pool)
    (hparked : h'.parked = h.parked) : Staffed sem limit attended h' := by
  obtain ⟨hattained, hrunning⟩ := hstaffed
  rw [← hpool] at hattained hrunning
  rw [← hparked] at hrunning
  exact ⟨hattained, hrunning⟩

/-- An invocation that has ended gives its worker back. -/
theorem Staffed.finish (hstaffed : Staffed sem limit [t] h) :
    Staffed sem limit [] { h with pool := h.pool.finish t } := by
  obtain ⟨hattained, hrunning⟩ := hstaffed
  refine ⟨hattained.finish (hrunning.mem_iff.mpr List.mem_cons_self), ?_⟩
  have hrest := hrunning.erase t
  rwa [List.singleton_append, List.erase_cons_head] at hrest

/-- An invocation is attended to until it ends or its target waits. -/
theorem advance_staffed (e : Exchange) (hstaffed : Staffed sem limit [run.ticket] h) :
    Staffed sem limit [] (advance e run h) := by
  induction e generalizing run h with
  | respond r => exact hstaffed.finish.alike rfl rfl
  | ask q next ih =>
      cases q with
      | importBranch x timeout => exact ih _ (hstaffed.alike rfl rfl)
      | isHome component view => exact ih _ hstaffed
      | locate locator method => exact ih _ hstaffed
      | register id =>
          let holding : Running := { run with guard := (h.board.hold id run.ticket).1 }
          have hheld : Staffed sem limit [holding.ticket]
              { h with board := (h.board.hold id run.ticket).2 } := hstaffed.alike rfl rfl
          exact ih () hheld
      | acknowledge cancelled => exact ih _ (hstaffed.alike rfl rfl)
      | release =>
          have hreleased : Staffed sem limit [(h.release run).1.ticket] (h.release run).2 :=
            hstaffed.alike rfl rfl
          exact ih () hreleased
      | invoke call =>
          obtain ⟨ledger, openGates, heq⟩ :=
            react_eq { h with calls := h.calls + 1 } (h.board.handle run.ticket) call
          have hreacted : Staffed sem limit [run.ticket]
              ({ h with calls := h.calls + 1 }.react (h.board.handle run.ticket) call).2 := by
            rw [heq]
            exact hstaffed.alike rfl rfl
          rw [advance]
          split
          · next o after hreact =>
            rw [hreact] at hreacted
            exact ih _ hreacted
          · next m after hreact =>
            rw [hreact] at hreacted
            have hreleased : Staffed sem limit [run.ticket] (after.release run).2 :=
              hreacted.alike rfl rfl
            exact hreleased.finish.alike rfl rfl
          · next component isStubborn after hreact =>
            rw [hreact] at hreacted
            refine ⟨hreacted.pool, hreacted.running.trans ?_⟩
            rw [List.map_append]
            exact List.perm_append_comm

theorem startNext?_staffed (hsem : sem.Counts) (hstaffed : Staffed sem limit [] h)
    (hstart : h.startNext? = some h') : Staffed sem limit [] h' := by
  unfold startNext? at hstart
  split at hstart
  · cases hstart
  · next t pool hpool =>
    have hattained := hstaffed.pool.start hsem hpool
    obtain ⟨rest, -, -, rfl⟩ := startNext?_eq_some_iff.mp hpool
    have hrunning : (h.pool.running ++ [t]).Perm ([t] ++ h.parked.map (·.run.ticket)) :=
      List.perm_append_comm.trans (hstaffed.running.append_left [t])
    split at hstart
    · cases hstart
      exact Staffed.finish (h := { h with pool := _ }) ⟨hattained, hrunning⟩
    · cases hstart
      exact advance_staffed _ ⟨hattained, hrunning⟩

theorem resumeFirst?_staffed (hstaffed : Staffed sem limit [] h) {p : Parked → Bool}
    {outcome : Parked → CallOutcome} (hresume : h.resumeFirst? p outcome = some h') :
    Staffed sem limit [] h' := by
  unfold resumeFirst? at hresume
  split at hresume
  · cases hresume
  · next q hfind =>
    cases hresume
    obtain ⟨front, back, hsplit, herase⟩ := split_parked hfind
    refine advance_staffed _ ⟨hstaffed.pool, hstaffed.running.trans ?_⟩
    rw [herase, hsplit, List.map_append, List.map_append, List.map_cons]
    exact List.perm_middle

theorem settleIn_staffed (hsem : sem.Counts) (fuel : Nat) (hstaffed : Staffed sem limit [] h) :
    Staffed sem limit [] (settleIn fuel h) := by
  induction fuel generalizing h with
  | zero => exact hstaffed
  | succ fuel ih =>
      unfold settleIn
      split
      · next hresume => exact ih (resumeFirst?_staffed hstaffed hresume)
      · split
        · next hstart => exact ih (startNext?_staffed hsem hstaffed hstart)
        · exact hstaffed

theorem settle_staffed (hsem : sem.Counts) (hstaffed : Staffed sem limit [] h) :
    Staffed sem limit [] h.settle :=
  settleIn_staffed hsem _ hstaffed

theorem openGate_staffed (hstaffed : Staffed sem limit [] h) (component : String) :
    Staffed sem limit [] (h.openGate component) := by
  unfold openGate
  split
  · next hresume => exact resumeFirst?_staffed hstaffed hresume
  · exact hstaffed.alike rfl rfl

theorem cancel_staffed (hsem : sem.Counts) (hstaffed : Staffed sem limit [] h)
    (order : Cancel.Order) : Staffed sem limit [] (h.cancel order).2 := by
  unfold cancel
  split
  · exact hstaffed
  · next t board _ =>
    have hmarked : Staffed sem limit [] { h with board } := hstaffed.alike rfl rfl
    dsimp only
    split
    · exact hmarked
    · split
      · exact hmarked
      · exact settle_staffed hsem hmarked

theorem deliver_staffed (hsem : sem.Counts) (hstaffed : Staffed sem limit [] h) (t : Ticket)
    (r : Http.Request) : Staffed sem limit [] (h.deliver t r) := by
  unfold deliver
  split
  · exact hstaffed.alike rfl rfl
  · split
    · exact hstaffed.alike rfl rfl
    · exact ⟨hstaffed.pool.enqueue t, hstaffed.running⟩
  · split
    · exact hstaffed.alike rfl rfl
    · next order _ => exact (cancel_staffed hsem hstaffed order).alike rfl rfl
  · exact hstaffed.alike rfl rfl

/-- Between requests the busy workers of a service are those whose targets wait. -/
theorem Ran.staffed {setup : Setup} {log : List Http.Request} (hsem : sem.Counts)
    (ran : Ran setup log h) : Staffed sem setup.config.maxWorkers [] h := by
  induction ran with
  | start => exact ⟨.make, .refl _⟩
  | @submit _ h r _ ih =>
      have hnext : Staffed sem setup.config.maxWorkers []
          { h with nextTicket := h.nextTicket + 1 } := ih.alike rfl rfl
      exact settle_staffed hsem (deliver_staffed hsem hnext h.nextTicket r)
  | settle _ ih => exact settle_staffed hsem ih
  | openGate component _ ih => exact openGate_staffed ih component
  | ledger ledger _ ih => exact ih.alike rfl rfl

end Host

namespace WorkerPool

/-- Whatever callers and tasks do to a pool, the tasks that have been spawned and have not ended
make up its slots together with the free ones, which are the free permits of its semaphore. Callers
that wait have no part in it: they do not change what is free, whether they come or go away, and
every other caller has its task. Once all tasks have ended, every slot is free again. A service does
to its workers only such things, and its busy workers are those whose targets wait. -/
theorem slots_conserved {S : Type} {sem : Semaphore S} (hsem : sem.Counts) (limit : Nat) :
    (∀ {τ : Type} [DecidableEq τ] {moves : List (Move τ)} {p : WorkerPool τ} {s : S},
      Runs sem limit moves p s →
      (books moves).unfinished.length + p.available = max limit 1 ∧
      p.available = sem.free s ∧
      (books moves).unfinished.length ≤ max limit 1 ∧
      (books moves).unfinished.Perm p.running ∧
      (books moves).called.Perm
        ((books moves).abandoned ++ ((books moves).spawned ++ p.waiting)) ∧
      (∀ t p' s', Step sem p s (.call t) p' s' ∨ Step sem p s (.abandon t) p' s' →
        p'.available = p.available) ∧
      ((books moves).unfinished = [] → p.available = max limit 1) ∧
      ∀ t p', p.startNext? = some (t, p') ↔ ∃ s', Step sem p s (.start t) p' s') ∧
    ∀ {setup : Setup} {log : List Http.Request} {h : Host}, setup.config.maxWorkers = limit →
      Host.Ran setup log h →
      Attainable sem limit h.pool ∧ h.pool.running.Perm (h.parked.map (·.run.ticket)) ∧
        h.parked.length + h.pool.available = max limit 1 := by
  refine ⟨fun {τ _ moves p s} run => ?_, ?_⟩
  · have hbalanced := run.balanced hsem
    have hunfinished := hbalanced.unfinished_perm
    have hsum : (books moves).unfinished.length + p.available = max limit 1 := by
      rw [hunfinished.length_eq, hbalanced.available, hbalanced.permits]
    refine ⟨hsum, hbalanced.available, Nat.le.intro hsum, hunfinished, hbalanced.calls, ?_, ?_,
      fun t p' => hbalanced.startNext?_iff hsem⟩
    · rintro t p' s' (hcall | habandon)
      · cases hcall
        rfl
      · cases habandon
        rfl
    · intro hended
      rwa [hended, List.length_nil, Nat.zero_add] at hsum
  · rintro setup log h rfl ran
    obtain ⟨⟨moves, s, run⟩, hrunning⟩ := ran.staffed hsem
    have hbalanced := run.balanced hsem
    refine ⟨⟨moves, s, run⟩, hrunning, ?_⟩
    have hlength : h.pool.running.length = h.parked.length := by
      rw [hrunning.length_eq, List.nil_append, List.length_map]
    rw [← hlength, hbalanced.available, hbalanced.permits]

/-- A pool with one slot, whose first task outlives its caller and panics. Of the two callers that
wait the first goes away, so the slot is for the other one. -/
theorem slots_conserved_unwinding :
    let moves : List (Move Nat) := [.call 0, .start 0, .call 1, .call 2, .leave 0, .abandon 1,
      .panic 0, .start 2]
    Runs Semaphore.counter 1 moves ⟨1, [2], []⟩ 0 ∧ (books moves).unfinished = [2] ∧
      (books moves).unfinished.length + (⟨1, [2], []⟩ : WorkerPool Nat).available = max 1 1 := by
  intro moves
  have before : Runs Semaphore.counter 1 _ ⟨1, [0], [1, 2]⟩ 0 :=
    (((Runs.make.step (.call 0)).step (.start rfl rfl)).step (.call 1)).step (.call 2)
  have run : Runs Semaphore.counter 1 moves ⟨1, [2], []⟩ 0 :=
    (((before.step (.leave (t := 0) (by decide))).step (.abandon (t := 1) (by decide))).step
      (.panic (t := 0) (by decide))).step (.start rfl rfl)
  exact ⟨run, by decide, ((slots_conserved Semaphore.counter_counts 1).1 run).1⟩

end WorkerPool

end RemoteCall
