import RemoteCall.Bytes
import RemoteCall.Codec.Resolver

/-!
# Reading from a byte string

A reader moves along a byte string and keeps its place when it fails, so the bytes left after a
failure are as well defined as those left after a success. The questions put to the resolver are
kept beside the place.
-/

namespace RemoteCall

/-- A place in the input, and what has been asked on the way there. -/
structure Cursor where
  unread : Bytes
  asked : Array String
  deriving DecidableEq, Repr

/-- The start of an input. -/
def Cursor.start (input : Bytes) : Cursor := ⟨input, #[]⟩

/-- Reads a thing or fails, and moves along the input either way. -/
abbrev Reader (ε α : Type) := EStateM ε Cursor α

namespace Reader

variable {ε δ α β : Type}

/-- The next `n` bytes. Nothing is read if there are fewer. -/
def take (n : Nat) : Reader CodecError Bytes := fun c =>
  if Bytes.hasAtLeast n c.unread then .ok (c.unread.take n) { c with unread := c.unread.drop n }
  else .error .unexpectedEnd c

/-- The next byte. -/
def byte : Reader CodecError UInt8 := fun c =>
  match c.unread with
  | [] => .error .unexpectedEnd c
  | b :: rest => .ok b { c with unread := rest }

/-- The next `width` bytes as a number, most significant first. -/
def word (width : Nat) : Reader CodecError Nat :=
  Bytes.toNat <$> take width

/-- The next four bytes as a signed number. -/
def int : Reader CodecError Int32 :=
  (fun n => (UInt32.ofNat n).toInt32) <$> word 4

/-- A text after its length in bytes. The bytes are read also when they are not a text. -/
def text : Reader CodecError String := do
  let length ← word 4
  let b ← take length
  match Bytes.toText? b with
  | some s => pure s
  | none => throw .notText

/-- A count of items that follow. Every item takes at least one byte, so a larger count than there
are bytes means that the input ends too early. -/
def count : Reader CodecError Nat := do
  let n ← word 4
  let c ← get
  if Bytes.hasAtLeast n c.unread then pure n else throw .unexpectedEnd

/-- As many things as the count says, in order. -/
def times (read : Reader ε α) : Nat → Reader ε (List α)
  | 0 => pure []
  | n + 1 => do
    let a ← read
    let as ← times read n
    pure (a :: as)

/-- Puts a question to the resolver. -/
def consult (answer : Consultation α) : Reader CodecError α := fun c =>
  match answer.answer with
  | .ok a => .ok a { c with asked := c.asked ++ answer.asked }
  | .error e => .error e { c with asked := c.asked ++ answer.asked }

/-- Fails unless the input has been read to its end. -/
def finish : Reader CodecError Unit := fun c =>
  match c.unread with
  | [] => .ok () c
  | rest => .error (.trailing rest.length) c

/-- What a reader makes of a whole input. -/
def outcome (read : Reader ε α) (input : Bytes) : Except ε α :=
  match read (Cursor.start input) with
  | .ok a _ => .ok a
  | .error e _ => .error e

theorem bind_of_ok {read : Reader ε α} {c c' : Cursor} {a : α} (h : read c = .ok a c')
    (next : α → Reader ε β) : (read >>= next) c = next a c' := by
  simp only [bind, EStateM.bind, h]

theorem map_of_ok {read : Reader ε α} {c c' : Cursor} {a : α} (h : read c = .ok a c')
    (f : α → β) : (f <$> read) c = .ok (f a) c' := by
  rw [map_eq_pure_bind, bind_of_ok h]
  rfl

theorem get_bind (next : Cursor → Reader ε β) (c : Cursor) :
    ((get : Reader ε Cursor) >>= next) c = next c c := rfl

theorem bind_of_error {read : Reader ε α} {c c' : Cursor} {e : ε} (h : read c = .error e c')
    (next : α → Reader ε β) : (read >>= next) c = .error e c' := by
  simp only [bind, EStateM.bind, h]

theorem map_of_error {read : Reader ε α} {c c' : Cursor} {e : ε} (h : read c = .error e c')
    (f : α → β) : (f <$> read) c = .error e c' := by
  rw [map_eq_pure_bind, bind_of_error h]

theorem bind_eq_ok {read : Reader ε α} {next : α → Reader ε β} {c c'' : Cursor} {x : β}
    (h : (read >>= next) c = .ok x c'') :
    ∃ a c', read c = .ok a c' ∧ next a c' = .ok x c'' := by
  simp only [bind, EStateM.bind] at h
  cases hread : read c with
  | ok a c' => exact ⟨a, c', rfl, by rwa [hread] at h⟩
  | error e c' =>
      rw [hread] at h
      cases h

theorem length_of_times {read : Reader ε α} {n : Nat} {c c' : Cursor} {as : List α}
    (h : times read n c = .ok as c') : as.length = n := by
  induction n generalizing c as with
  | zero =>
      cases h
      rfl
  | succ n ih =>
      obtain ⟨a, c₁, -, h⟩ := bind_eq_ok h
      obtain ⟨as', c₂, has, hpure⟩ := bind_eq_ok h
      cases hpure
      exact congrArg (· + 1) (ih has)

/-- Reading a number of things is reading some of them and then the others. -/
theorem times_add_eq_ok {read : Reader ε α} {m n : Nat} {c c'' : Cursor} {as : List α}
    (h : times read (m + n) c = .ok as c'') :
    ∃ first c' later, times read m c = .ok first c' ∧ times read n c' = .ok later c'' ∧
      as = first ++ later := by
  induction m generalizing c as with
  | zero => exact ⟨[], c, as, rfl, by rwa [Nat.zero_add] at h, rfl⟩
  | succ m ih =>
      rw [Nat.succ_add] at h
      obtain ⟨a, c₁, ha, h⟩ := bind_eq_ok h
      obtain ⟨as', c₂, has, hpure⟩ := bind_eq_ok h
      cases hpure
      obtain ⟨first, c', later, hfirst, hlater, rfl⟩ := ih has
      refine ⟨a :: first, c', later, ?_, hlater, rfl⟩
      rw [times, bind_of_ok ha, bind_of_ok hfirst]
      rfl

theorem finish_eq_ok_iff {c c' : Cursor} :
    Reader.finish c = .ok () c' ↔ c.unread = [] ∧ c' = c := by
  obtain ⟨unread, asked⟩ := c
  cases unread with
  | nil =>
      refine ⟨fun h => ⟨rfl, ?_⟩, fun h => by rw [h.2]; rfl⟩
      cases h
      rfl
  | cons b rest => exact ⟨fun h => (nomatch h), fun h => (nomatch h.1)⟩

theorem outcome_eq_ok_iff {read : Reader ε α} {input : Bytes} {a : α} :
    Reader.outcome read input = .ok a ↔ ∃ c, read (Cursor.start input) = .ok a c := by
  unfold Reader.outcome
  split
  · next a' c h => simp [h]
  · next e c h => simp [h]

theorem outcome_eq_error_iff {read : Reader ε α} {input : Bytes} {e : ε} :
    Reader.outcome read input = .error e ↔ ∃ c, read (Cursor.start input) = .error e c := by
  unfold Reader.outcome
  split
  · next a c h => simp [h]
  · next e' c h => simp [h]

end Reader

end RemoteCall
