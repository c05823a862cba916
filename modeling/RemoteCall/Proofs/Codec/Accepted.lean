import RemoteCall.Codec.Lift

/-!
# What a reader accepts

Of a reader that succeeds on arbitrary input one can say which bytes it took off the front and what
it made of them. A relation between the two that holds of every success is a postcondition, and
postconditions compose along a sequence of reads: what the first part took is put before what the
second part takes. Where only what is made matters, the bytes are left out; and of a reader that
fails one can say of what sort the cause is.
-/

namespace RemoteCall.Reader

variable {ε α β : Type}

/-- Whatever the reader accepts, the bytes it takes and the thing it makes of them are so related. -/
def Accepts (read : Reader ε α) (post : Bytes → α → Prop) : Prop :=
  ∀ c a c', read c = .ok a c' → ∃ b, c.unread = b ++ c'.unread ∧ post b a

namespace Accepts

variable {P : Bytes → α → Prop} {post : Bytes → β → Prop}

theorem pure {x : β} (h : post [] x) : Accepts (Pure.pure x : Reader ε β) post := by
  intro c a c' hread
  cases hread
  exact ⟨[], rfl, h⟩

theorem throw (e : ε) : Accepts (MonadExcept.throw e : Reader ε β) post := by
  intro c a c' hread
  cases hread

theorem get : Accepts (MonadState.get : Reader ε Cursor) fun b _ => b = [] := by
  intro c a c' hread
  cases hread
  exact ⟨[], rfl, rfl⟩

theorem bind {read : Reader ε α} {next : α → Reader ε β} (first : Accepts read P)
    (second : ∀ b a, P b a → Accepts (next a) fun b' x => post (b ++ b') x) :
    Accepts (read >>= next) post := by
  intro c x c'' hread
  obtain ⟨a, c', hfirst, hsecond⟩ := bind_eq_ok hread
  obtain ⟨b, hb, hP⟩ := first c a c' hfirst
  obtain ⟨b', hb', hpost⟩ := second b a hP c' x c'' hsecond
  exact ⟨b ++ b', by rw [hb, hb', List.append_assoc], hpost⟩

/-- What follows from what holds of every success holds of every success. -/
theorem weaken {read : Reader ε α} {Q : Bytes → α → Prop} (h : Accepts read P)
    (hQ : ∀ b a, P b a → Q b a) : Accepts read Q := by
  intro c a c' hread
  obtain ⟨b, hunread, hP⟩ := h c a c' hread
  exact ⟨b, hunread, hQ b a hP⟩

theorem map {read : Reader ε α} {f : α → β} (h : Accepts read P)
    (hf : ∀ b a, P b a → post b (f a)) : Accepts (f <$> read) post := by
  rw [map_eq_pure_bind]
  refine h.bind fun b a hP => pure ?_
  rw [List.append_nil]
  exact hf b a hP

theorem take (n : Nat) : Accepts (Reader.take n) fun b x => x = b ∧ b.length = n := by
  intro c x c' hread
  unfold Reader.take at hread
  split at hread
  · next hlen =>
    cases hread
    have hle := Bytes.hasAtLeast_iff.mp hlen
    exact ⟨c.unread.take n, (List.take_append_drop n c.unread).symm, rfl,
      List.length_take_of_le hle⟩
  · cases hread

theorem byte : Accepts Reader.byte fun b x => b = [x] := by
  rintro ⟨unread, asked⟩ x c' hread
  cases unread with
  | nil => cases hread
  | cons y rest =>
      cases hread
      exact ⟨[x], rfl, rfl⟩

theorem word (width : Nat) :
    Accepts (Reader.word width) fun b n => n < Nat.pow 256 width ∧ b = Bytes.ofNat width n := by
  apply (take width).map
  rintro _ b ⟨rfl, rfl⟩
  exact ⟨Bytes.toNat_lt b, (Bytes.ofNat_toNat b).symm⟩

theorem int : Accepts Reader.int fun b n => b = Codec.intBytes n := by
  apply (word 4).map
  rintro _ n ⟨hn, rfl⟩
  rw [Codec.intBytes, UInt32.toUInt32_toInt32, UInt32.toNat_ofNat_of_lt' hn]

theorem text : Accepts Reader.text fun b s => Codec.putText s = .put b := by
  apply (word 4).bind
  rintro _ n ⟨hn, rfl⟩
  apply (take n).bind
  rintro _ b ⟨rfl, rfl⟩
  split
  · next s hs =>
    apply pure
    rw [List.append_nil, Codec.putText, Codec.putBlock_eq_put_iff, Bytes.ofText_of_toText? hs]
    exact ⟨hn, rfl⟩
  · exact throw _

theorem count : Accepts Reader.count fun b n => Codec.putLength n = .put b := by
  apply (word 4).bind
  rintro _ n ⟨hn, rfl⟩
  apply get.bind
  rintro _ c rfl
  split
  · apply pure
    exact Codec.putLength_eq_put_iff.mpr ⟨hn, List.append_nil _⟩
  · exact throw _

theorem tag : Accepts Codec.readTag fun b t => b = [t.code] := by
  apply byte.bind
  rintro _ x rfl
  split
  · next t ht =>
    apply pure
    rw [Tag.code_of_ofCode? ht]
    rfl
  · exact throw _

theorem consult (c : Consultation α) :
    Accepts (Reader.consult c) fun b a => b = [] ∧ c.answer = .ok a := by
  intro cursor a c' hread
  unfold Reader.consult at hread
  split at hread
  · next h =>
    cases hread
    exact ⟨[], rfl, rfl, h⟩
  · cases hread

/-- Things read one after the other, when what holds of no things passes on to one more. -/
theorem times {read : Reader ε α} {post : Bytes → List α → Prop} (each : Accepts read P)
    (nil : post [] []) (cons : ∀ b a b' as, P b a → post b' as → post (b ++ b') (a :: as))
    (n : Nat) : Accepts (Reader.times read n) fun b as => as.length = n ∧ post b as := by
  induction n with
  | zero => exact pure ⟨rfl, nil⟩
  | succ n ih =>
      apply each.bind
      intro b a hP
      apply ih.bind
      intro b' as
      rintro ⟨rfl, hpost⟩
      refine pure ⟨rfl, ?_⟩
      rw [List.append_nil]
      exact cons b a b' as hP hpost

/-- Things read one after the other are written one after the other. -/
theorem times_concat {δ : Type} {write : α → Emission δ} {read : Reader ε α}
    (each : Accepts read fun b a => write a = .put b) (n : Nat) :
    Accepts (Reader.times read n) fun b as =>
      as.length = n ∧ Emission.concat (as.map write) = .put b := by
  refine each.times rfl (fun b a b' as hb hb' => ?_) n
  rw [List.map_cons, Emission.concat_cons, hb, hb', Emission.put_append_put]

/-- What is accepted for the codec is accepted inside a message. -/
theorem ofCodec {read : Reader CodecError α} (h : Accepts read P) :
    Accepts (Parse.ofCodec read) P := by
  intro c a c' hread
  unfold Parse.ofCodec at hread
  split at hread
  · next hcodec =>
    cases hread
    exact h c a c' hcodec
  · cases hread

end Accepts

/-- Whatever the reader makes of its input has this property. -/
def Makes (read : Reader ε α) (post : α → Prop) : Prop :=
  ∀ c a c', read c = .ok a c' → post a

namespace Makes

variable {P : α → Prop} {post : β → Prop}

theorem pure {x : β} (h : post x) : Makes (Pure.pure x : Reader ε β) post := by
  intro c a c' hread
  cases hread
  exact h

theorem throw (e : ε) : Makes (MonadExcept.throw e : Reader ε β) post := by
  intro c a c' hread
  cases hread

theorem any (read : Reader ε α) : Makes read fun _ => True := fun _ _ _ _ => trivial

theorem bind {read : Reader ε α} {next : α → Reader ε β} (first : Makes read P)
    (second : ∀ a, P a → Makes (next a) post) : Makes (read >>= next) post := by
  intro c x c'' hread
  obtain ⟨a, c', hfirst, hsecond⟩ := bind_eq_ok hread
  exact second a (first c a c' hfirst) c' x c'' hsecond

/-- Nothing need be known of what is read first when it does not matter for what follows. -/
theorem after {read : Reader ε α} {next : α → Reader ε β} (h : ∀ a, Makes (next a) post) :
    Makes (read >>= next) post := by
  intro c x c'' hread
  obtain ⟨a, c', -, hsecond⟩ := bind_eq_ok hread
  exact h a c' x c'' hsecond

theorem map {read : Reader ε α} {f : α → β} (h : Makes read P) (hf : ∀ a, P a → post (f a)) :
    Makes (f <$> read) post := by
  rw [map_eq_pure_bind]
  exact h.bind fun a ha => pure (hf a ha)

theorem consult (c : Consultation α) : Makes (Reader.consult c) fun a => c.answer = .ok a := by
  intro cursor a c' hread
  obtain ⟨b, -, -, h⟩ := Accepts.consult c cursor a c' hread
  exact h

/-- Of things read one after the other holds what holds of each thing that is read. -/
theorem times {read : Reader ε α} (each : Makes read P) (n : Nat) :
    Makes (Reader.times read n) fun as => ∀ a ∈ as, P a := by
  induction n with
  | zero => exact pure (List.forall_mem_nil P)
  | succ n ih =>
      refine each.bind fun a ha => ih.bind fun as has => ?_
      exact pure (List.forall_mem_cons.mpr ⟨ha, has⟩)

/-- What is made for the codec is made inside a message. -/
theorem ofCodec {read : Reader CodecError α} (h : Makes read P) :
    Makes (Parse.ofCodec read) P := by
  intro c a c' hread
  unfold Parse.ofCodec at hread
  split at hread
  · next hcodec =>
    cases hread
    exact h c a c' hcodec
  · cases hread

end Makes

variable {ok : ε → Prop}

/-- Whenever the reader fails, the cause is of a sort. -/
def FailsFor (ok : ε → Prop) (read : Reader ε α) : Prop :=
  ∀ c e c', read c = .error e c' → ok e

namespace FailsFor

theorem pure (a : α) : FailsFor ok (Pure.pure a : Reader ε α) := by
  intro c e c' hread
  cases hread

theorem throw {e : ε} (h : ok e) : FailsFor ok (MonadExcept.throw e : Reader ε α) := by
  intro c e' c' hread
  cases hread
  exact h

theorem bind {read : Reader ε α} {next : α → Reader ε β} (first : FailsFor ok read)
    (second : ∀ a, FailsFor ok (next a)) : FailsFor ok (read >>= next) := by
  intro c e c' hread
  cases hfirst : read c with
  | ok a c₁ =>
      rw [bind_of_ok hfirst] at hread
      exact second a c₁ e c' hread
  | error e' c₁ =>
      rw [bind_of_error hfirst] at hread
      cases hread
      exact first c _ _ hfirst

theorem weaken {ok' : ε → Prop} {read : Reader ε α} (h : FailsFor ok read)
    (hok : ∀ e, ok e → ok' e) : FailsFor ok' read :=
  fun c e c' hread => hok e (h c e c' hread)

theorem take (n : Nat) : FailsFor (· = .unexpectedEnd) (Reader.take n) := by
  intro c e c' hread
  unfold Reader.take at hread
  split at hread
  · cases hread
  · cases hread
    rfl

theorem int : FailsFor (· = .unexpectedEnd) Reader.int := by
  have hword : FailsFor (· = .unexpectedEnd) (Reader.word 4) := by
    rw [Reader.word, map_eq_pure_bind]
    exact (take 4).bind fun b => pure _
  rw [Reader.int, map_eq_pure_bind]
  exact hword.bind fun n => pure _

theorem ofCodec {ok : ProtocolError → Prop} {read : Reader CodecError α}
    (h : FailsFor (fun e => ok (.codec e)) read) : FailsFor ok (Parse.ofCodec read) := by
  intro c e c' hread
  unfold Parse.ofCodec at hread
  split at hread
  · cases hread
  · next hcodec =>
    cases hread
    exact h c _ c' hcodec

end FailsFor

end RemoteCall.Reader

namespace RemoteCall.Parse

open Reader

/-- The end of a message is the end of the input. -/
theorem unread_of_finish {c c' : Cursor} {u : Unit} (h : Parse.finish c = .ok u c') :
    c.unread = [] := by
  unfold Parse.finish Parse.ofCodec at h
  split at h
  · next hend => exact (finish_eq_ok_iff.mp hend).1
  · cases h

theorem cause_of_finish {c c' : Cursor} {e : ProtocolError} (h : Parse.finish c = .error e c') :
    e = .codec (.trailing c.unread.length) := by
  obtain ⟨unread, asked⟩ := c
  cases unread with
  | nil => cases h
  | cons b rest =>
      cases h
      rfl

end RemoteCall.Parse
