import Mathlib.Logic.Function.Basic
import RemoteCall.Proofs.Cancel.Standing
import RemoteCall.Proofs.Service.Questions
import RemoteCall.Service.Host

/-!
# Invocations and cancel requests side by side

Invocations and those who want to cancel them run at the same time and meet at the board only. Here
they take their steps in any order: an invocation is one question of its exchange further at a time,
its target may report whenever it likes, and a cancel request looks for a handle, marks it, and
waits for a report in separate steps. A log of what was done is kept with the time of each deed.

## Implementation notes

A collaborator may answer anything, so the steps of an invocation are those of its exchange with any
replies. What the service asks of its own parts, of the register and of the handle, does not break
down; whatever else is asked may. Then the guard is dropped before the response is given. A cancel
request goes by a number, as an invocation does.
-/

namespace RemoteCall

/-- Whether a question goes to a part of the service itself. -/
def Question.isOwn : Question → Bool
  | register _ => true
  | acknowledge _ => true
  | release => true
  | _ => false

/-- What an answered question of an invocation does to its guard and to the board. -/
def Cancel.Board.serve {η : Type} [DecidableEq η] (b : Board η) (name : η) (guard : Guard η) :
    Question → Guard η × Board η
  | .register id => b.hold id name
  | .acknowledge cancelled => (guard, b.acknowledge name cancelled)
  | .release => b.release guard
  | _ => (guard, b)

/-- How far an invocation has come. -/
inductive Progress where
  | going (e : Exchange)
  /-- A collaborator broke down, and the guard is not dropped yet. -/
  | unwinding (m : Breakdown)
  | unwound (m : Breakdown)
  | ended (ending : Ending)

/-- An invocation with the guard that it holds. -/
structure Call where
  progress : Progress
  guard : Guard Ticket

/-- How far a cancel request has come. -/
inductive Pursuit where
  /-- It knows the handle of an invocation. -/
  | found (order : Cancel.Order) (t : Ticket)
  | marked (order : Cancel.Order) (t : Ticket)
  | waiting (order : Cancel.Order) (t : Ticket) (deadline : Nat)
  | answered (order : Cancel.Order) (target : Option Ticket) (outcome : Cancel.Outcome)

namespace Pursuit

/-- What a cancel request was for, and the invocation that it found. -/
def sought : Pursuit → Cancel.Order × Option Ticket
  | found order t => (order, some t)
  | marked order t => (order, some t)
  | waiting order t _ => (order, some t)
  | answered order target _ => (order, target)

/-- Whether a cancel request has marked the handle that it found. -/
def hasMarked : Pursuit → Bool
  | found _ _ => false
  | marked _ _ => true
  | waiting _ _ _ => true
  | answered _ target _ => target.isSome

/-- Whether a cancel request has begun to wait for a report. -/
def hasWaited : Pursuit → Bool
  | found _ _ => false
  | marked _ _ => false
  | waiting _ _ _ => true
  | answered _ target _ => target.isSome

/-- A cancel request that has looked for an invocation. -/
def ofLookup (order : Cancel.Order) : Option Ticket → Pursuit
  | none => answered order none .notFound
  | some t => found order t

/-- A cancel request that has waited for a report. -/
def ofReport (order : Cancel.Order) (t : Ticket) (seen : Option Bool) : Pursuit :=
  answered order (some t) (if seen.isSome then .acknowledged else .unknown)

end Pursuit

/-- Something that is done by an invocation, by its target, or by a cancel request. -/
inductive Deed where
  | begin (t : Ticket) (a : Accepted)
  /-- A question of an invocation is answered, or a collaborator breaks down. -/
  | ask (t : Ticket) (event : Event)
  /-- The guard is dropped because a collaborator broke down. -/
  | unwind (t : Ticket)
  | finish (t : Ticket) (ending : Ending)
  /-- Whoever was given the handle of an invocation reports. -/
  | report (t : Ticket) (cancelled : Bool)
  | seek (k : Ticket) (order : Cancel.Order) (found : Option Ticket)
  | mark (k : Ticket)
  | wait (k : Ticket)
  | answer (k : Ticket) (seen : Option Bool)

/-- Deeds with their times. -/
abbrev Log := List (Nat × Deed)

/-- The state that invocations and cancel requests are in, and the board where they meet. -/
structure Interplay where
  now : Nat
  board : Cancel.Board Ticket
  calls : Ticket → Option Call
  pursuits : Ticket → Option Pursuit

namespace Deed

/-- The invocation that does something, or whose target does. -/
def actor? : Deed → Option Ticket
  | begin t _ => some t
  | ask t _ => some t
  | unwind t => some t
  | finish t _ => some t
  | report t _ => some t
  | _ => none

/-- The cancel request that does something. -/
def pursuer? : Deed → Option Ticket
  | seek k _ _ => some k
  | mark k => some k
  | wait k => some k
  | answer k _ => some k
  | _ => none

/-- What an invocation was answered. -/
def event? (t : Ticket) : Deed → Option Event
  | ask u event => if u = t then some event else none
  | _ => none

/-- The entry that a deed makes in the register. -/
def added? : Deed → Option (InvocationId × Ticket)
  | ask t ⟨.register id, _⟩ => some (id, t)
  | _ => none

/-- The invocation whose guard is let go. -/
def released? : Deed → Option Ticket
  | ask t ⟨.release, _⟩ => some t
  | unwind t => some t
  | _ => none

/-- What is reported of an invocation. -/
def report? (t : Ticket) : Deed → Option Bool
  | ask u ⟨.acknowledge cancelled, _⟩ => if u = t then some cancelled else none
  | report u cancelled => if u = t then some cancelled else none
  | _ => none

/-- What the target of an invocation reports by itself. -/
def ownReport? (t : Ticket) : Deed → Option Bool
  | report u cancelled => if u = t then some cancelled else none
  | _ => none

variable {d : Deed} {t : Ticket} {id : InvocationId}

theorem actor?_of_added? (h : d.added? = some (id, t)) : d.actor? = some t := by
  unfold added? at h
  split at h
  · cases h
    rfl
  · cases h

theorem actor?_of_released? (h : d.released? = some t) : d.actor? = some t := by
  unfold released? at h
  split at h
  · cases h
    rfl
  · cases h
    rfl
  · cases h

theorem event?_of_actor?_ne (h : d.actor? ≠ some t) : d.event? t = none := by
  cases d with
  | ask u event => exact if_neg fun hu => h (congrArg some hu)
  | _ => rfl

end Deed

namespace Log

/-- Something was done at some time. -/
def Has (log : Log) (d : Deed) : Prop :=
  ∃ time, (time, d) ∈ log

theorem has_concat {log : Log} {x : Nat × Deed} {d : Deed} :
    Has (log ++ [x]) d ↔ log.Has d ∨ x.2 = d := by
  constructor
  · rintro ⟨time, hmem⟩
    rcases List.mem_append.mp hmem with hmem | hmem
    · exact .inl ⟨time, hmem⟩
    · exact .inr (congrArg Prod.snd (List.mem_singleton.mp hmem)).symm
  · rintro (⟨time, hmem⟩ | rfl)
    · exact ⟨time, List.mem_append_left _ hmem⟩
    · exact ⟨x.1, List.mem_append_right _ (List.mem_singleton_self _)⟩

theorem has_concat_of_ne {log : Log} {time : Nat} {d d' : Deed} (h : d ≠ d') :
    Has (log ++ [(time, d)]) d' ↔ log.Has d' :=
  has_concat.trans (or_iff_left h)

/-- All that an invocation was answered, in order. -/
def events (log : Log) (t : Ticket) : List Event :=
  log.filterMap fun x => x.2.event? t

/-- All that was reported of an invocation, in order. -/
def reports (log : Log) (t : Ticket) : List Bool :=
  log.filterMap fun x => x.2.report? t

/-- All that the target of an invocation reported by itself, in order. -/
def ownReports (log : Log) (t : Ticket) : List Bool :=
  log.filterMap fun x => x.2.ownReport? t

theorem events_concat (log : Log) (x : Nat × Deed) (t : Ticket) :
    events (log ++ [x]) t = log.events t ++ (x.2.event? t).toList := by
  cases h : x.2.event? t <;> simp [events, h]

theorem reports_concat (log : Log) (x : Nat × Deed) (t : Ticket) :
    reports (log ++ [x]) t = log.reports t ++ (x.2.report? t).toList := by
  cases h : x.2.report? t <;> simp [reports, h]

end Log

namespace Interplay

/-- Nothing runs. -/
def start : Interplay := ⟨0, Cancel.Board.empty, fun _ => none, fun _ => none⟩

/-- An invocation comes further. -/
def withCall (s : Interplay) (time : Nat) (t : Ticket) (c : Call) (board : Cancel.Board Ticket) :
    Interplay :=
  { s with now := time, board, calls := Function.update s.calls t (some c) }

/-- A cancel request comes further. -/
def withPursuit (s : Interplay) (time : Nat) (k : Ticket) (p : Pursuit)
    (board : Cancel.Board Ticket) : Interplay :=
  { s with now := time, board, pursuits := Function.update s.pursuits k (some p) }

section Fields

variable (s : Interplay) (time : Nat) (t : Ticket) (c : Call) (k : Ticket) (p : Pursuit)
  (board : Cancel.Board Ticket)

@[simp] theorem withCall_board : (s.withCall time t c board).board = board := rfl

@[simp] theorem withCall_calls :
    (s.withCall time t c board).calls = Function.update s.calls t (some c) := rfl

@[simp] theorem withPursuit_board : (s.withPursuit time k p board).board = board := rfl

@[simp] theorem withPursuit_pursuits :
    (s.withPursuit time k p board).pursuits = Function.update s.pursuits k (some p) := rfl

end Fields

section Steps

variable (config : ServiceConfig) (isManaged : Bool)

/-- What may be done in a state at a time, and the state that it leads to. -/
inductive Step (s : Interplay) (time : Nat) : Deed → Interplay → Prop
  | begin {t : Ticket} (a : Accepted) (h : s.calls t = none) :
      Step s time (.begin t a) (s.withCall time t
        ⟨.going (Dispatch.start config isManaged a).2, ⟨none⟩⟩ (s.board.meet t))
  | reply {t : Ticket} {q : Question} {next : q.Reply → Exchange} {guard : Guard Ticket}
      (a : q.Reply) (h : s.calls t = some ⟨.going (.ask q next), guard⟩) :
      Step s time (.ask t ⟨q, .reply a⟩) (s.withCall time t
        ⟨.going (next a), (s.board.serve t guard q).1⟩ (s.board.serve t guard q).2)
  | broke {t : Ticket} {q : Question} {next : q.Reply → Exchange} {guard : Guard Ticket}
      (m : Breakdown) (h : s.calls t = some ⟨.going (.ask q next), guard⟩) (hq : q.isOwn = false) :
      Step s time (.ask t ⟨q, .broke m⟩) (s.withCall time t ⟨.unwinding m, guard⟩ s.board)
  | unwind {t : Ticket} {m : Breakdown} {guard : Guard Ticket}
      (h : s.calls t = some ⟨.unwinding m, guard⟩) :
      Step s time (.unwind t) (s.withCall time t
        ⟨.unwound m, (s.board.release guard).1⟩ (s.board.release guard).2)
  | respond {t : Ticket} {r : Http.Response} {guard : Guard Ticket}
      (h : s.calls t = some ⟨.going (.respond r), guard⟩) :
      Step s time (.finish t (.response r))
        (s.withCall time t ⟨.ended (.response r), guard⟩ s.board)
  | fail {t : Ticket} {m : Breakdown} {guard : Guard Ticket}
      (h : s.calls t = some ⟨.unwound m, guard⟩) :
      Step s time (.finish t (.broke m)) (s.withCall time t ⟨.ended (.broke m), guard⟩ s.board)
  | report {t : Ticket} {c : Call} (cancelled : Bool) (h : s.calls t = some c) :
      Step s time (.report t cancelled)
        { s with now := time, board := s.board.acknowledge t cancelled }
  | seek {k : Ticket} (order : Cancel.Order) (h : s.pursuits k = none) :
      Step s time (.seek k order (s.board.registry.get? order.id)) (s.withPursuit time k
        (.ofLookup order (s.board.registry.get? order.id)) s.board)
  | mark {k : Ticket} {order : Cancel.Order} {t : Ticket}
      (h : s.pursuits k = some (.found order t)) :
      Step s time (.mark k) (s.withPursuit time k (.marked order t)
        (s.board.update t (·.cancel order.isAggressive)))
  | wait {k : Ticket} {order : Cancel.Order} {t : Ticket}
      (h : s.pursuits k = some (.marked order t)) :
      Step s time (.wait k)
        (s.withPursuit time k (.waiting order t (time + config.cancelWait)) s.board)
  | answer {k : Ticket} {order : Cancel.Order} {t : Ticket} {deadline : Nat}
      (h : s.pursuits k = some (.waiting order t deadline))
      (hlate : (s.board.handle t).acknowledged = none → deadline ≤ time) :
      Step s time (.answer k (s.board.handle t).acknowledged) (s.withPursuit time k
        (.ofReport order t (s.board.handle t).acknowledged) s.board)

/-- What a state may have come to, and the log of what was done. -/
inductive Runs (s₀ : Interplay) : Log → Interplay → Prop
  | refl : Runs s₀ [] s₀
  | step {log : Log} {s s' : Interplay} {time : Nat} {d : Deed} (run : Runs s₀ log s)
      (h : s.now ≤ time) (step : Step config isManaged s time d s') :
      Runs s₀ (log ++ [(time, d)]) s'

end Steps

variable {config : ServiceConfig} {isManaged : Bool} {s₀ s s' s'' : Interplay} {log more : Log}
  {time : Nat} {d : Deed}

theorem Step.now (step : Step config isManaged s time d s') : s'.now = time := by
  cases step <;> rfl

theorem Step.seek_of {k : Ticket} (order : Cancel.Order) {found : Option Ticket}
    (h : s.pursuits k = none) (hfound : s.board.registry.get? order.id = found) :
    Step config isManaged s time (.seek k order found)
      (s.withPursuit time k (.ofLookup order found) s.board) :=
  hfound ▸ .seek order h

/-- Nobody else's invocation comes further. -/
theorem Step.calls_of_ne (step : Step config isManaged s time d s') {t : Ticket}
    (h : d.actor? ≠ some t) : s'.calls t = s.calls t := by
  cases step <;> first
    | rfl
    | exact Function.update_of_ne (fun ht => h (congrArg some ht.symm)) _ _

/-- Nobody else's cancel request comes further. -/
theorem Step.pursuits_of_ne (step : Step config isManaged s time d s') {k : Ticket}
    (h : d.pursuer? ≠ some k) : s'.pursuits k = s.pursuits k := by
  cases step <;> first
    | rfl
    | exact Function.update_of_ne (fun hk => h (congrArg some hk.symm)) _ _

theorem Runs.trans (first : Runs config isManaged s₀ log s)
    (second : Runs config isManaged s more s') : Runs config isManaged s₀ (log ++ more) s' := by
  induction second with
  | refl => rwa [List.append_nil]
  | step run h step ih =>
      rw [← List.append_assoc]
      exact ih.step h step

theorem Runs.single (h : s.now ≤ time) (step : Step config isManaged s time d s') :
    Runs config isManaged s [(time, d)] s' :=
  Runs.refl.step h step

/-- A run may be cut at any deed. -/
theorem Runs.split (run : Runs config isManaged s₀ (log ++ (time, d) :: more) s'') :
    ∃ s s', Runs config isManaged s₀ log s ∧ s.now ≤ time ∧ Step config isManaged s time d s' ∧
      Runs config isManaged s' more s'' := by
  generalize hwhole : log ++ (time, d) :: more = whole at run
  induction run generalizing more with
  | refl => exact absurd hwhole (by simp)
  | @step whole s s' time' d' run h step ih =>
      rcases List.eq_nil_or_concat more with rfl | ⟨more, last, rfl⟩
      · obtain ⟨rfl, hlast⟩ := List.append_inj' hwhole rfl
        cases hlast
        exact ⟨s, s', run, h, step, .refl⟩
      · rw [List.concat_eq_append, ← List.cons_append, ← List.append_assoc] at hwhole
        obtain ⟨hfront, hlast⟩ := List.append_inj' hwhole rfl
        obtain ⟨r, r', hbefore, hr, hstep, hafter⟩ := ih hfront
        cases hlast
        rw [List.concat_eq_append]
        exact ⟨r, r', hbefore, hr, hstep, hafter.step h step⟩

/-- Time does not go back. -/
theorem Runs.now_le (run : Runs config isManaged s₀ log s) : s₀.now ≤ s.now := by
  induction run with
  | refl => exact Nat.le_refl _
  | step run h step ih =>
      rw [step.now]
      exact Nat.le_trans ih h

/-- What is done after a state is done at its time or later. -/
theorem Runs.le_time (run : Runs config isManaged s₀ log s) : ∀ x ∈ log, s₀.now ≤ x.1 := by
  induction run with
  | refl => exact List.forall_mem_nil _
  | step run h step ih =>
      intro x hx
      rcases List.mem_append.mp hx with hx | hx
      · exact ih x hx
      · rw [List.mem_singleton.mp hx]
        exact Nat.le_trans run.now_le h

end Interplay

end RemoteCall
