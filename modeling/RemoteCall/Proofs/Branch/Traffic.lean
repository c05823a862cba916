import RemoteCall.Proofs.Branch.Ledger

/-!
# Calls and coordinators at one ledger

A call that has got hold of a branch may record work under it at any later time, and a coordinator
may ask anything of any name in between. What a move makes of a branch on record depends on that
branch only, and on whether the move goes through a hold on it.
-/

namespace RemoteCall

/-- A ledger, and the branches that calls have got hold of, one hold after the other. -/
structure Traffic where
  ledger : Ledger
  held : List BranchRef
  deriving DecidableEq

namespace Traffic

/-- What may happen at a ledger. -/
inductive Move where
  /-- A call gets hold of the branch of a name, unless it is refused. -/
  | call (x : Xid) (timeout : Int32)
  /-- Work is recorded through a hold. -/
  | enlist (hold : Nat)
  | perform (p : Primitive) (x : Xid)
  deriving DecidableEq

/-- One move at a time. -/
def step (now : Nat) (t : Traffic) : Move → Traffic
  | .call x timeout =>
    match t.ledger.findOrImport now x timeout with
    | (.ok i, l) => ⟨l, t.held ++ [i]⟩
    | (.error _, l) => ⟨l, t.held⟩
  | .enlist hold =>
    match t.held[hold]? with
    | some i => ⟨t.ledger.enlist i, t.held⟩
    | none => t
  | .perform p x => ⟨(t.ledger.perform now p x).2, t.held⟩

/-- Nothing has happened. -/
def start : Traffic := ⟨.empty, []⟩

/-- The traffic after moves, each at its time. -/
def after (t : Traffic) (moves : List (Nat × Move)) : Traffic :=
  moves.foldl (fun t m => t.step m.1 m.2) t

variable {t : Traffic} {i : BranchRef} {b : Branch} {x : Xid}

@[simp] theorem after_nil (t : Traffic) : t.after [] = t := rfl

@[simp] theorem after_cons (t : Traffic) (m : Nat × Move) (moves : List (Nat × Move)) :
    t.after (m :: moves) = (t.step m.1 m.2).after moves := rfl

theorem after_append (t : Traffic) (earlier moves : List (Nat × Move)) :
    t.after (earlier ++ moves) = (t.after earlier).after moves :=
  List.foldl_append

theorem step_distinct (h : t.ledger.Distinct) (now : Nat) (m : Move) :
    (t.step now m).ledger.Distinct := by
  cases m with
  | call x timeout =>
      have hcall := h.findOrImport now x timeout
      simp only [step]
      split
      · next heq => rwa [heq] at hcall
      · next heq => rwa [heq] at hcall
  | enlist hold =>
      simp only [step]
      split
      · exact h.enlist _
      · exact h
  | perform p x => exact h.perform now p x

theorem after_distinct (h : t.ledger.Distinct) (moves : List (Nat × Move)) :
    (t.after moves).ledger.Distinct := by
  induction moves generalizing t with
  | nil => exact h
  | cons m moves ih => exact ih (step_distinct h m.1 m.2)

theorem start_after_distinct (moves : List (Nat × Move)) :
    (start.after moves).ledger.Distinct :=
  after_distinct Ledger.empty_distinct moves

theorem step_named (h : t.ledger.Distinct) (hnamed : t.ledger.Named) (now : Nat) (m : Move) :
    (t.step now m).ledger.Named := by
  cases m with
  | call x timeout =>
      have hcall := hnamed.findOrImport now x timeout
      simp only [step]
      split
      · next heq => rwa [heq] at hcall
      · next heq => rwa [heq] at hcall
  | enlist hold =>
      simp only [step]
      split
      · exact hnamed.enlist _
      · exact hnamed
  | perform p x => exact hnamed.perform h now p x

/-- Whatever has happened, every branch is found under its own name. -/
theorem start_after_named (moves : List (Nat × Move)) : (start.after moves).ledger.Named := by
  suffices hrun : ∀ t : Traffic, t.ledger.Distinct → t.ledger.Named →
      (t.after moves).ledger.Named from hrun start Ledger.empty_distinct Ledger.empty_named
  induction moves with
  | nil => exact fun t _ hnamed => hnamed
  | cons m moves ih =>
      exact fun t h hnamed => ih _ (step_distinct h m.1 m.2) (step_named h hnamed m.1 m.2)

/-- What a move makes of the branch at a place on record. -/
def Move.effect (now : Nat) (held : List BranchRef) (i : BranchRef) (b : Branch) : Move → Branch
  | .call _ _ => b
  | .enlist hold => if held[hold]? = some i then b.enlisted else b
  | .perform p x => if b.goesBy x then b.after now p else b

/-- A branch stays at its place on record, and becomes what the move makes of it. -/
theorem getElem?_step (h : t.ledger.Distinct) (hb : t.ledger.branches[i]? = some b) (now : Nat)
    (m : Move) :
    (t.step now m).ledger.branches[i]? = some (m.effect now t.held i b) := by
  cases m with
  | call x timeout =>
      obtain ⟨e, heq⟩ | ⟨j, c, -, -, -, heq⟩ | ⟨-, heq⟩ :=
        Ledger.findOrImport_cases now x timeout t.ledger
      · simp only [step, heq]
        exact hb
      · simp only [step, heq]
        exact hb
      · simp only [step, heq]
        exact List.getElem?_append_left (List.getElem?_eq_some_iff.mp hb).1 ▸ hb
  | enlist hold =>
      cases hheld : t.held[hold]? with
      | none =>
          simp only [step, Move.effect, hheld]
          exact hb
      | some j =>
          simp only [step, Move.effect, hheld, Ledger.enlist, Ledger.getElem?_update, hb,
            Option.map_some, Option.some.injEq]
          rfl
  | perform p x =>
      simp only [step, Move.effect, h.getElem?_perform, hb, Option.map_some]

/-- A branch that is not found under a name never comes to be found under it. -/
theorem Move.goesBy_of_effect {now : Nat} {held : List BranchRef} {m : Move}
    (h : (m.effect now held i b).goesBy x = true) : b.goesBy x = true := by
  cases m with
  | call y timeout => exact h
  | enlist hold =>
      simp only [effect] at h
      split at h
      · exact h
      · exact h
  | perform p y =>
      simp only [effect] at h
      split at h
      · exact Branch.goesBy_of_after h
      · exact h

/-- A branch that has ended stays ended. -/
theorem goesBy_of_after (h : t.ledger.Distinct) (hb : t.ledger.branches[i]? = some b)
    (moves : List (Nat × Move)) :
    ∃ c, (t.after moves).ledger.branches[i]? = some c ∧
      (c.goesBy x = true → b.goesBy x = true) := by
  induction moves generalizing t b with
  | nil => exact ⟨b, hb, id⟩
  | cons m moves ih =>
      obtain ⟨c, hc, hback⟩ := ih (step_distinct h m.1 m.2) (getElem?_step h hb m.1 m.2)
      exact ⟨c, hc, fun hx => Move.goesBy_of_effect (hback hx)⟩

end Traffic

end RemoteCall
