import RemoteCall.Codec.Packed
import RemoteCall.Proofs.Codec.Unread

/-!
# Inputs that are read to their end

What has been asked before does not change what a reader makes of an input, nor where it stops. So
whether an input that consists of several parts is read to its end can be told part by part: a part
that delimits itself may be taken off the front, and it is the rest that decides.
-/

namespace RemoteCall

namespace Reader

variable {ε α β : Type}

/-- What has been asked before changes neither what is read nor where the reader stops. -/
def Forgetful (read : Reader ε α) : Prop :=
  ∀ input asked asked' a c, read ⟨input, asked⟩ = .ok a c →
    ∃ c', read ⟨input, asked'⟩ = .ok a c' ∧ c'.unread = c.unread

theorem Heedless.forgetful {ok : String → Prop} {read : Reader CodecError α}
    (h : Heedless ok read) : Forgetful read := by
  intro input asked asked' a c hread
  obtain ⟨b, rest, found, rfl, -, hsame⟩ := h input
  rw [hsame rest asked rfl, consult_eq_ended] at hread
  obtain ⟨hanswer, rfl⟩ : found.answer = .ok a ∧ (⟨rest, asked ++ found.asked⟩ : Cursor) = c :=
    ended_injective hread
  refine ⟨⟨rest, asked' ++ found.asked⟩, ?_, rfl⟩
  rw [hsame rest asked' rfl, consult_eq_ended, hanswer]
  rfl

namespace Forgetful

theorem pure (a : α) : Forgetful (Pure.pure a : Reader ε α) := by
  intro input asked asked' x c hread
  cases hread
  exact ⟨_, rfl, rfl⟩

theorem throw (e : ε) : Forgetful (MonadExcept.throw e : Reader ε α) := by
  intro input asked asked' x c hread
  cases hread

theorem bind {read : Reader ε α} {next : α → Reader ε β} (first : Forgetful read)
    (second : ∀ a, Forgetful (next a)) : Forgetful (read >>= next) := by
  intro input asked asked' x c hread
  obtain ⟨a, c₁, hfirst, hsecond⟩ := bind_eq_ok hread
  obtain ⟨c₁', hfirst', hsame⟩ := first input asked asked' a c₁ hfirst
  obtain ⟨c', hsecond', hunread⟩ := second a c₁.unread c₁.asked c₁'.asked x c hsecond
  rw [← hsame] at hsecond'
  exact ⟨c', by rw [bind_of_ok hfirst', ← hsecond'], hunread⟩

theorem map {read : Reader ε α} (h : Forgetful read) (f : α → β) : Forgetful (f <$> read) := by
  rw [map_eq_pure_bind]
  exact h.bind fun a => pure (f a)

theorem times {read : Reader ε α} (each : Forgetful read) (n : Nat) :
    Forgetful (Reader.times read n) := by
  induction n with
  | zero => exact pure []
  | succ n ih => exact each.bind fun a => ih.bind fun as => pure (a :: as)

theorem ofCodec {read : Reader CodecError α} (h : Forgetful read) :
    Forgetful (Parse.ofCodec read) := by
  intro input asked asked' a c hread
  unfold Parse.ofCodec at hread
  split at hread
  · next hcodec =>
    cases hread
    obtain ⟨c', hcodec', hunread⟩ := h input asked asked' _ _ hcodec
    exact ⟨c', by simp only [Parse.ofCodec, hcodec'], hunread⟩
  · cases hread

theorem value (d : Dialect) : Forgetful (Parse.value d) :=
  (Codec.readValue_heedless d Codec.maxNesting).forgetful.ofCodec

theorem packed : Forgetful Packed.read := by
  have hgroups (fuel scale sum : Nat) :
      Heedless (fun _ => True) (Packed.readFrom fuel scale sum) := by
    induction fuel generalizing scale sum with
    | zero => exact .throw _
    | succ fuel ih =>
        refine Heedless.byte.bind fun b => ?_
        dsimp only
        split
        · exact .throw _
        · split
          · exact .pure _
          · exact ih _ _
  exact (hgroups 5 1 0).forgetful

end Forgetful

/-- The whole input is read. -/
def Covers (read : Reader ε α) (b : Bytes) : Prop :=
  ∃ a c, read (Cursor.start b) = .ok a c ∧ c.unread = []

variable {read : Reader ε α} {b rest : Bytes}

theorem Forgetful.covers_iff (h : Forgetful read) (asked : Array String) :
    Covers read b ↔ ∃ a c, read ⟨b, asked⟩ = .ok a c ∧ c.unread = [] := by
  constructor
  · rintro ⟨a, c, hread, hend⟩
    obtain ⟨c', hread', hunread⟩ := h b #[] asked a c hread
    exact ⟨a, c', hread', hunread.trans hend⟩
  · rintro ⟨a, c, hread, hend⟩
    obtain ⟨c', hread', hunread⟩ := h b asked #[] a c hread
    exact ⟨a, c', hread', hunread.trans hend⟩

theorem covers_pure_iff (a : α) : Covers (Pure.pure a : Reader ε α) b ↔ b = [] := by
  constructor
  · rintro ⟨_, _, ⟨⟩, hend⟩
    exact hend
  · rintro rfl
    exact ⟨a, _, rfl, rfl⟩

theorem covers_map_iff (f : α → β) : Covers (f <$> read) b ↔ Covers read b := by
  constructor
  · rintro ⟨x, c, hread, hend⟩
    rw [map_eq_pure_bind] at hread
    obtain ⟨a, c', hread, hpure⟩ := bind_eq_ok hread
    cases hpure
    exact ⟨a, c, hread, hend⟩
  · rintro ⟨a, c, hread, hend⟩
    exact ⟨f a, c, map_of_ok hread f, hend⟩

/-- A part that delimits itself is taken off the front. -/
theorem Delimits.covers_bind_iff {short : ε} {a : α} {next : α → Reader ε β}
    (h : Delimits short read b a) (hnext : Forgetful (next a)) :
    Covers (read >>= next) (b ++ rest) ↔ Covers (next a) rest := by
  obtain ⟨asked, hread⟩ := h.whole rest #[]
  rw [hnext.covers_iff asked, Covers, Cursor.start, bind_of_ok hread]

end Reader

end RemoteCall
