import RemoteCall.Service.Host

/-!
# A running service as its own collaborator

What a running service does for an invocation is what its exchange does with a collaborator that
answers from the state of the service. Where a target waits the service turns to other things; the
exchange goes on later with the outcome and in the state that there are by then, as if the answer
of the collaborator had taken that long.
-/

namespace RemoteCall.Host

/-- The outcome with which a target that waits goes on, and the state of the service by then. -/
abbrev Wait := (run : Running) → (component : String) → (isStubborn : Bool) → Host →
  CallOutcome × Host

/-- The answers of a running service to the questions of one of its invocations. -/
def answer (wait : Wait) (q : Question) (s : Running × Host) : Answer q.Reply × Running × Host :=
  let (run, h) := s
  match q with
  | .importBranch x timeout =>
    let (reply, ledger) := h.ledger.findOrImport 0 x timeout
    (.reply reply, run, { h with ledger })
  | .isHome component view => (.reply (h.setup.deployment.isHome component view), run, h)
  | .locate locator method =>
    (.reply ((h.setup.deployment.locate locator method).map fun _ => ()), run, h)
  | .register id =>
    let (guard, board) := h.board.hold id run.ticket
    (.reply (), { run with guard }, { h with board })
  | .invoke call =>
    match { h with calls := h.calls + 1 }.react (h.board.handle run.ticket) call with
    | (.outcome o, h) => (.reply o, run, h)
    | (.breakDown m, h) => (.broke ⟨h.task run.ticket, m⟩, run, h)
    | (.park component isStubborn, h) =>
      let (o, h) := wait run component isStubborn h
      (.reply o, run, h)
  | .acknowledge cancelled =>
    (.reply (), run, { h with board := h.board.acknowledge run.ticket cancelled })
  | .release =>
    let (run, h) := h.release run
    (.reply (), run, h)

/-- The response with which an exchange of an invocation ends. -/
def response (d : Dialect) : Ending → Http.Response
  | .response r => r
  | .broke b => Dispatch.broken d b

variable {run : Running}

theorem release_of_released (h : Host) (hguard : run.guard.entry = none) :
    h.release run = (run, h) := by
  obtain ⟨ticket, dialect, ⟨entry⟩⟩ := run
  subst hguard
  rfl

theorem release_guard (h : Host) (run : Running) : (h.release run).1.guard.entry = none := by
  obtain ⟨ticket, dialect, ⟨entry⟩⟩ := run
  cases entry with
  | none => rfl
  | some entry => rfl

/-- What an exchange comes to in a running service: how it ends, and the state it leaves behind. -/
def result (wait : Wait) (e : Exchange) (run : Running) (h : Host) : Ending × Running × Host :=
  (e.run (answer wait) run.guard.entry.isSome (run, h)).2

/-- A running service takes an exchange to its end, or to a target that waits, from where what it
comes to is what the rest of it comes to after the wait. -/
theorem advance_cases (wait : Wait) (e : Exchange) (run : Running) (h : Host) :
    advance e run h = (result wait e run h).2.2.complete run.ticket
      (response run.dialect (result wait e run h).1) ∨
    ∃ (q : Parked) (before : Host), q.run.ticket = run.ticket ∧ q.run.dialect = run.dialect ∧
      advance e run h = { before with parked := before.parked ++ [q] } ∧
      result wait e run h =
        result wait (q.next (wait q.run q.component q.isStubborn before).1) q.run
          (wait q.run q.component q.isStubborn before).2 := by
  induction e generalizing run h with
  | respond r => exact .inl rfl
  | ask q next ih =>
      cases q with
      | importBranch x timeout =>
          exact ih (h.ledger.findOrImport 0 x timeout).1 run
            { h with ledger := (h.ledger.findOrImport 0 x timeout).2 }
      | isHome component view => exact ih _ run h
      | locate locator method => exact ih _ run h
      | register id =>
          exact ih () { run with guard := (h.board.hold id run.ticket).1 }
            { h with board := (h.board.hold id run.ticket).2 }
      | invoke call =>
          rcases hreact :
            { h with calls := h.calls + 1 }.react (h.board.handle run.ticket) call with
            ⟨o | m | ⟨component, isStubborn⟩, after⟩
          · simp only [advance, result, Exchange.run, answer, hreact]
            exact ih o run after
          · refine .inl ?_
            simp only [advance, result, Exchange.run, answer, hreact]
            cases hguard : run.guard.entry with
            | none =>
                rw [release_of_released after hguard]
                rfl
            | some entry => rfl
          · refine .inr ⟨⟨run, component, isStubborn, next⟩, after, rfl, rfl, ?_, ?_⟩
            · simp only [advance, hreact]
            · simp only [result, Exchange.run, answer, hreact]
              rfl
      | acknowledge cancelled =>
          exact ih () run { h with board := h.board.acknowledge run.ticket cancelled }
      | release =>
          have hrest := ih () (h.release run).1 (h.release run).2
          simp only [result, release_guard] at hrest
          exact hrest

/-- What an accepted request comes to in a running service is what it comes to where the service is
the collaborator. -/
theorem serve_answer {r : Http.Request} {a : Accepted} (ha : Dispatch.accept r = .ok a)
    (wait : Wait) (h : Host) (t : Ticket) :
    let run : Running := ⟨t, h.setup.config.dialect a.peer, ⟨none⟩⟩
    let whole := result wait (Dispatch.start h.setup.config h.setup.isManaged a).2 run h
    (Dispatch.serve h.setup.config h.setup.isManaged (answer wait) r (run, h)).2 =
      (response run.dialect whole.1, whole.2) := by
  intro run whole
  simp only [Dispatch.serve, ha]
  rcases hrun : (Dispatch.start h.setup.config h.setup.isManaged a).2.run (answer wait) false
    (run, h) with ⟨asked, r | m, s⟩
  · have hwhole : whole = (.response r, s) := congrArg Prod.snd hrun
    rw [hwhole]
    rfl
  · have hwhole : whole = (.broke m, s) := congrArg Prod.snd hrun
    rw [hwhole]
    rfl

end RemoteCall.Host
