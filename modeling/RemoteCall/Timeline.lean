/-!
# Waiting for something to happen

Time passes only while somebody waits, and then jumps to the next time at which something is due.
All that is due at that time happens before the one who waits looks again. A wait ends when its
question has an answer, at once if it has one from the start, or at its deadline; what is due at
the deadline itself comes too late.
-/

namespace RemoteCall

/-- A state, the time, and the events that are due, earliest first. -/
structure Timeline (σ ε : Type) where
  now : Nat
  state : σ
  due : List (Nat × ε)

namespace Timeline

variable {σ ε α : Type}

/-- A state at time zero, with nothing due. -/
def start (s : σ) : Timeline σ ε := ⟨0, s, []⟩

/-- Puts an event behind those that are due no later. -/
def enqueue (event : Nat × ε) : List (Nat × ε) → List (Nat × ε)
  | [] => [event]
  | other :: rest =>
    if event.1 < other.1 then event :: other :: rest else other :: enqueue event rest

/-- Lets an event happen after a while. -/
def schedule (t : Timeline σ ε) (delay : Nat) (event : ε) : Timeline σ ε :=
  { t with due := enqueue (t.now + delay, event) t.due }

/-- Changes the state at once. -/
def modify (f : σ → σ) (t : Timeline σ ε) : Timeline σ ε :=
  { t with state := f t.state }

/-- Lets the events of the list happen up to the deadline, and asks a question about the state
whenever all that is due at one time has happened, until there is an answer. -/
def awaitFrom (happen : ε → σ → σ) (question : σ → Option α) (deadline : Nat) :
    List (Nat × ε) → Nat → σ → Option α × Timeline σ ε
  | [], now, s => (none, ⟨max now deadline, s, []⟩)
  | (time, event) :: rest, now, s =>
    if time < deadline then
      let now := max now time
      let s := happen event s
      match (if rest.all (now < ·.1) then question s else none) with
      | some a => (some a, ⟨now, s, rest⟩)
      | none => awaitFrom happen question deadline rest now s
    else (none, ⟨max now deadline, s, (time, event) :: rest⟩)

/-- Waits no longer than `limit` for an answer. -/
def await (happen : ε → σ → σ) (question : σ → Option α) (limit : Nat) (t : Timeline σ ε) :
    Option α × Timeline σ ε :=
  match question t.state with
  | some a => (some a, t)
  | none => awaitFrom happen question (t.now + limit) t.due t.now t.state

end Timeline

end RemoteCall
