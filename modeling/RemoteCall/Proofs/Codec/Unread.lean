import RemoteCall.Proofs.Codec.Consulting

/-!
# Bytes that are not read

A reader looks at the bytes up to the place where it stops, and of those behind this place it can
tell at most how many there are. So where it stops, and what comes of it, is the same for any other
bytes of the same number.
-/

namespace RemoteCall

namespace Reader

variable {α β : Type} {ok : String → Prop}

@[simp] theorem consult_pure (a : α) (c : Cursor) : Reader.consult (.pure a) c = .ok a c := by
  simp [Reader.consult, Consultation.pure]

@[simp] theorem consult_error (e : CodecError) (c : Cursor) :
    Reader.consult (⟨[], .error e⟩ : Consultation α) c = .error e c := by
  simp [Reader.consult]

/-- The end of a reading at a place in the input. -/
def ended {ε : Type} : Except ε α → Cursor → EStateM.Result ε Cursor α
  | .ok a, c => .ok a c
  | .error e, c => .error e c

theorem consult_eq_ended (c : Consultation α) (unread : Bytes) (asked : Array String) :
    Reader.consult c ⟨unread, asked⟩ = ended c.answer ⟨unread, asked ++ c.asked⟩ := by
  obtain ⟨asked, _ | a⟩ := c
  · rfl
  · rfl

theorem ended_injective {ε : Type} {x x' : Except ε α} {c c' : Cursor}
    (h : ended x c = ended x' c') : x = x' ∧ c = c' := by
  cases x with
  | error e =>
      cases x' with
      | error e' =>
          cases h
          exact ⟨rfl, rfl⟩
      | ok a => cases h
  | ok a =>
      cases x' with
      | error e' => cases h
      | ok a' =>
          cases h
          exact ⟨rfl, rfl⟩

/-- Only names of a sort are asked for, and of the bytes that are not read only their number
counts. -/
def Heedless (ok : String → Prop) (read : Reader CodecError α) : Prop :=
  ∀ input, ∃ b rest c, input = b ++ rest ∧ (∀ name ∈ c.asked, ok name) ∧
    ∀ other asked, other.length = rest.length →
      read ⟨b ++ other, asked⟩ = Reader.consult c ⟨other, asked⟩

/-- No name is asked for. -/
abbrev Quiet : Reader CodecError α → Prop :=
  Heedless fun _ => False

namespace Heedless

theorem consult {c : Consultation α} (h : ∀ name ∈ c.asked, ok name) :
    Heedless ok (Reader.consult c) :=
  fun input => ⟨[], input, c, rfl, h, fun _ _ _ => rfl⟩

theorem pure (a : α) : Heedless ok (Pure.pure a) := fun input =>
  ⟨[], input, .pure a, rfl, List.forall_mem_nil _, fun _ _ _ => (consult_pure a _).symm⟩

theorem throw (e : CodecError) : Heedless ok (MonadExcept.throw e : Reader CodecError α) :=
  fun input => ⟨[], input, ⟨[], .error e⟩, rfl, List.forall_mem_nil _,
    fun _ _ _ => (consult_error e _).symm⟩

theorem bind {read : Reader CodecError α} {next : α → Reader CodecError β}
    (first : Heedless ok read) (second : ∀ a, Heedless ok (next a)) :
    Heedless ok (read >>= next) := by
  intro input
  obtain ⟨b, rest, c, rfl, hc, hfirst⟩ := first input
  cases hanswer : c.answer with
  | error e =>
      refine ⟨b, rest, ⟨c.asked, .error e⟩, rfl, hc, fun other asked hlen => ?_⟩
      refine bind_of_error ?_ next
      rw [hfirst other asked hlen, Reader.consult, hanswer]
  | ok a =>
      obtain ⟨b', rest', c', rfl, hc', hsecond⟩ := second a rest
      refine ⟨b ++ b', rest', c.bind fun _ => c', (List.append_assoc ..).symm, ?_,
        fun other asked hlen => ?_⟩
      · rw [Consultation.bind, hanswer]
        exact List.forall_mem_append.mpr ⟨hc, hc'⟩
      · have hread := hfirst (b' ++ other) asked (by simp [hlen])
        rw [Reader.consult, hanswer] at hread
        rw [List.append_assoc, bind_of_ok hread, hsecond other _ hlen, consult_bind_of_ok hanswer]

theorem map {read : Reader CodecError α} (h : Heedless ok read) (f : α → β) :
    Heedless ok (f <$> read) := by
  rw [map_eq_pure_bind]
  exact h.bind fun a => pure (f a)

theorem take (n : Nat) : Heedless ok (Reader.take n) := by
  intro input
  by_cases h : n ≤ input.length
  · refine ⟨input.take n, input.drop n, .pure (input.take n), (List.take_append_drop ..).symm,
      List.forall_mem_nil _, fun other asked _ => ?_⟩
    have henough : Bytes.hasAtLeast n (input.take n ++ other) = true :=
      Bytes.hasAtLeast_iff.mpr (by simp [h])
    have hlen : (input.take n).length = n := List.length_take_of_le h
    simp [Reader.take, henough, hlen]
  · refine ⟨[], input, ⟨[], .error .unexpectedEnd⟩, rfl, List.forall_mem_nil _,
      fun other asked hlen => ?_⟩
    have hfew : ¬ Bytes.hasAtLeast n other = true := by
      rwa [Bytes.hasAtLeast_iff, hlen]
    simp [Reader.take, hfew]

theorem byte : Heedless ok Reader.byte := by
  intro input
  cases input with
  | nil =>
      refine ⟨[], [], ⟨[], .error .unexpectedEnd⟩, rfl, List.forall_mem_nil _,
        fun other asked hlen => ?_⟩
      obtain rfl := List.eq_nil_of_length_eq_zero hlen
      simp [Reader.byte]
  | cons x rest =>
      refine ⟨[x], rest, .pure x, rfl, List.forall_mem_nil _, fun other asked _ => ?_⟩
      simp [Reader.byte]

theorem word (width : Nat) : Heedless ok (Reader.word width) :=
  (take width).map _

theorem int : Heedless ok Reader.int :=
  (word 4).map _

theorem text : Heedless ok Reader.text := by
  refine (word 4).bind fun length => (take length).bind fun b => ?_
  split
  · exact pure _
  · exact throw _

theorem count : Heedless ok Reader.count := by
  refine (word 4).bind fun n input => ?_
  by_cases h : n ≤ input.length
  · refine ⟨[], input, .pure n, rfl, List.forall_mem_nil _, fun other asked hlen => ?_⟩
    have henough : Bytes.hasAtLeast n other = true := Bytes.hasAtLeast_iff.mpr (hlen ▸ h)
    rw [List.nil_append, get_bind, if_pos henough, consult_pure]
    rfl
  · refine ⟨[], input, ⟨[], .error .unexpectedEnd⟩, rfl, List.forall_mem_nil _,
      fun other asked hlen => ?_⟩
    have hfew : ¬ Bytes.hasAtLeast n other = true := by
      rwa [Bytes.hasAtLeast_iff, hlen]
    rw [List.nil_append, get_bind, if_neg hfew, consult_error]
    rfl

theorem tag : Heedless ok Codec.readTag := by
  refine byte.bind fun b => ?_
  split
  · exact pure _
  · exact throw _

theorem times {read : Reader CodecError α} (each : Heedless ok read) (n : Nat) :
    Heedless ok (Reader.times read n) := by
  induction n with
  | zero => exact pure []
  | succ n ih => exact each.bind fun a => ih.bind fun as => pure (a :: as)

end Heedless

/-- Other bytes of the same number behind the place where a reader stops change nothing. -/
theorem Heedless.others {read : Reader CodecError α} (h : Heedless ok read) {input : Bytes}
    {x : Except CodecError α} {c : Cursor} (hread : read (Cursor.start input) = ended x c) :
    ∃ b, input = b ++ c.unread ∧ ∀ others, others.length = c.unread.length →
      read (Cursor.start (b ++ others)) = ended x ⟨others, c.asked⟩ := by
  obtain ⟨b, rest, found, rfl, -, hsame⟩ := h input
  have hhere := hsame rest #[] rfl
  rw [consult_eq_ended] at hhere
  obtain ⟨rfl, rfl⟩ := ended_injective (hread.symm.trans hhere)
  refine ⟨b, rfl, fun others hlen => ?_⟩
  rw [← consult_eq_ended]
  exact hsame others #[] hlen

theorem Heedless.silent {read : Reader CodecError α} (h : Quiet read) : Silent read := by
  rintro ⟨input, asked⟩ a c' hread
  obtain ⟨b, rest, ⟨none, x⟩, rfl, hnone, hsame⟩ := h input
  obtain rfl : none = [] := List.eq_nil_iff_forall_not_mem.mpr hnone
  rw [hsame rest asked rfl, consult_eq_ended] at hread
  obtain ⟨-, rfl⟩ : x = .ok a ∧ (⟨rest, asked ++ ([] : List String)⟩ : Cursor) = c' :=
    ended_injective hread
  simp

end Reader

namespace Codec

open Reader

theorem readValue_heedless (d : Dialect) (levels : Nat) :
    Heedless (fun _ => True) (readValue d levels) := by
  induction levels with
  | zero => exact .throw _
  | succ levels ih =>
      rw [readValue]
      refine Heedless.tag.bind fun t => ?_
      cases t with
      | null => exact .pure _
      | yes => exact .pure _
      | no => exact .pure _
      | int => exact .map .int _
      | long => exact .map (.word 8) _
      | double => exact .map (.word 8) _
      | text => exact .map .text _
      | bytes => exact (Heedless.word 4).bind fun n => .map (.take n) _
      | list => exact Heedless.count.bind fun n => .map (.times ih n) _
      | object =>
          refine Heedless.text.bind fun name => (Heedless.consult fun _ _ => trivial).bind
            fun c => Heedless.count.bind fun n => .map (.times ?_ n) _
          exact Heedless.text.bind fun key => ih.bind fun v => .pure _
      | proxy =>
          refine Heedless.count.bind fun n => (Heedless.text.times n).bind fun names => ?_
          exact (Heedless.consult fun _ _ => trivial).bind fun interfaces => ih.map _
      | reference =>
          refine Heedless.byte.bind fun i => ?_
          split
          · exact .pure _
          · exact .throw _

end Codec

end RemoteCall
