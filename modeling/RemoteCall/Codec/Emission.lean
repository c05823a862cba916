import RemoteCall.Bytes

/-!
# What a writer puts out

A writer that stops has already put out the bytes before the place where it stopped, so its result
is those bytes together with the cause, if it stopped.
-/

namespace RemoteCall

/-- The bytes that were written, and why writing stopped before its end, if it did. -/
structure Emission (ε : Type) where
  bytes : Bytes
  stopped : Option ε
  deriving Repr

namespace Emission

variable {ε δ : Type}

/-- Bytes, written to the end. -/
def put (b : Bytes) : Emission ε := ⟨b, none⟩

/-- Stops before the next byte. -/
def stop (e : ε) : Emission ε := ⟨[], some e⟩

/-- The second part follows the first, unless the first stopped. -/
def append (a b : Emission ε) : Emission ε :=
  match a.stopped with
  | some _ => a
  | none => ⟨a.bytes ++ b.bytes, b.stopped⟩

instance : Append (Emission ε) := ⟨append⟩

/-- One part after the other. -/
def concat (parts : List (Emission ε)) : Emission ε :=
  parts.foldr (· ++ ·) (put [])

/-- The same bytes, with another wording of the cause. -/
def mapError (f : ε → δ) (a : Emission ε) : Emission δ :=
  ⟨a.bytes, a.stopped.map f⟩

/-- All bytes, or the cause for which there are not more. -/
def result (a : Emission ε) : Except ε Bytes :=
  match a.stopped with
  | some e => .error e
  | none => .ok a.bytes

@[simp] theorem append_of_stopped {a : Emission ε} {e : ε} (h : a.stopped = some e)
    (b : Emission ε) : a ++ b = a := by
  change append a b = a
  simp [append, h]

@[simp] theorem put_append_put (a b : Bytes) : (put a ++ put b : Emission ε) = put (a ++ b) := rfl

@[simp] theorem result_put (b : Bytes) : (put b : Emission ε).result = .ok b := rfl

@[simp] theorem result_stop (e : ε) : (stop e).result = .error e := rfl

@[simp] theorem put_inj {a b : Bytes} : (put a : Emission ε) = put b ↔ a = b := by
  simp [put]

@[simp] theorem stop_ne_put (e : ε) (b : Bytes) : stop e ≠ put b := by
  simp [stop, put]

@[simp] theorem concat_nil : concat ([] : List (Emission ε)) = put [] := rfl

@[simp] theorem concat_cons (a : Emission ε) (parts : List (Emission ε)) :
    concat (a :: parts) = a ++ concat parts := rfl

theorem result_eq_ok_iff {a : Emission ε} {b : Bytes} : a.result = .ok b ↔ a = put b := by
  obtain ⟨bytes, stopped⟩ := a
  cases stopped <;> simp [result, put]

/-- Two parts are written to the end when both of them are. -/
theorem append_eq_put_iff {a b : Emission ε} {w : Bytes} :
    a ++ b = put w ↔ ∃ u v, a = put u ∧ b = put v ∧ w = u ++ v := by
  obtain ⟨u, stopped⟩ := a
  obtain ⟨v, stopped'⟩ := b
  change append _ _ = _ ↔ _
  cases stopped <;> simp [append, put, eq_comm, and_comm, and_left_comm]

theorem mapError_eq_put_iff {f : ε → δ} {a : Emission ε} {b : Bytes} :
    a.mapError f = put b ↔ a = put b := by
  obtain ⟨bytes, stopped⟩ := a
  simp [mapError, put]

theorem append_assoc (a b c : Emission ε) : a ++ b ++ c = a ++ (b ++ c) := by
  change append (append a b) c = append a (append b c)
  cases ha : a.stopped <;> cases hb : b.stopped <;> simp [append, ha, hb]

/-- Parts that are written one after the other can be written in two rows. -/
theorem concat_append (as bs : List (Emission ε)) :
    concat (as ++ bs) = concat as ++ concat bs := by
  induction as with
  | nil => rfl
  | cons a as ih => rw [List.cons_append, concat_cons, concat_cons, ih, append_assoc]

end Emission

end RemoteCall
