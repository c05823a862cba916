import RemoteCall.Codec.Lift

/-!
# Things that delimit themselves

A written thing delimits itself for a reader when the reader finds it whole whatever follows, and
finds the input too short when the thing is cut anywhere. Both halves are needed at once: a reader
of two things in a row meets the second one as what follows the first, and meets a cut in the
second one after it has found the first one whole. The last thing in an input has nothing after it,
and so fills the input instead.

## Implementation notes

What a reader asks of a resolver is left open on both sides. A count of items is not delimited on
its own, since the reader compares it with the bytes that are left; `Delimits.count` therefore
speaks of a count together with the items.
-/

namespace RemoteCall

namespace Reader

variable {ε α β γ : Type} {short : ε}

/-- Any proper beginning of these bytes is too short. -/
def TooShort (short : ε) (read : Reader ε α) (b : Bytes) : Prop :=
  ∀ front back asked, b = front ++ back → back ≠ [] → ∃ c, read ⟨front, asked⟩ = .error short c

/-- These bytes are read as this thing, and any proper beginning of them is too short. -/
structure Delimits (short : ε) (read : Reader ε α) (b : Bytes) (a : α) : Prop where
  whole : ∀ rest asked, ∃ asked', read ⟨b ++ rest, asked⟩ = .ok a ⟨rest, asked'⟩
  cut : TooShort short read b

/-- The input has to be these bytes and is read as this thing; what comes after them is counted. -/
structure Fills (short : ε) (surplus : Nat → ε) (read : Reader ε α) (b : Bytes) (a : α) : Prop where
  whole : ∀ asked, ∃ asked', read ⟨b, asked⟩ = .ok a ⟨[], asked'⟩
  cut : TooShort short read b
  extended : ∀ extra asked, extra ≠ [] →
    ∃ c, read ⟨b ++ extra, asked⟩ = .error (surplus extra.length) c

theorem TooShort.nil (short : ε) (read : Reader ε α) : TooShort short read [] := by
  intro front back asked h hne
  obtain ⟨-, rfl⟩ := List.nil_eq_append_iff.mp h
  exact absurd rfl hne

namespace Delimits

theorem pure (a : α) : Delimits short (Pure.pure a) [] a where
  whole _ asked := ⟨asked, rfl⟩
  cut := .nil _ _

/-- What is delimited is what is read. -/
theorem eq_of_read {read : Reader ε α} {b rest : Bytes} {a a' : α} {asked : Array String}
    {c : Cursor} (h : Delimits short read b a) (hread : read ⟨b ++ rest, asked⟩ = .ok a' c) :
    a' = a ∧ ∃ asked', c = ⟨rest, asked'⟩ := by
  obtain ⟨asked', hwhole⟩ := h.whole rest asked
  obtain ⟨rfl, rfl⟩ := EStateM.Result.ok.inj (hread.symm.trans hwhole)
  exact ⟨rfl, asked', rfl⟩

/-- A thing and what follows it are too short together when they are cut anywhere. -/
theorem cut_bind {read : Reader ε α} {next : α → Reader ε β} {b b' : Bytes} {a : α}
    (first : Delimits short read b a) (second : TooShort short (next a) b') :
    TooShort short (read >>= next) (b ++ b') := by
  intro front back asked h hne
  rcases List.append_eq_append_iff.mp h with ⟨m, rfl, hm⟩ | ⟨m, hm, rfl⟩
  · -- the cut lies in the second thing
    obtain ⟨asked₁, h₁⟩ := first.whole m asked
    obtain ⟨c, h₂⟩ := second m back asked₁ hm hne
    exact ⟨c, by rw [bind_of_ok h₁, h₂]⟩
  · rcases m with _ | ⟨y, ys⟩
    · -- the cut lies between the two
      obtain ⟨asked₁, h₁⟩ := first.whole [] asked
      obtain ⟨c, h₂⟩ := second [] b' asked₁ rfl hne
      rw [List.append_nil] at h₁ hm
      exact ⟨c, by rw [← hm, bind_of_ok h₁, h₂]⟩
    · obtain ⟨c, h₁⟩ := first.cut front (y :: ys) asked hm (List.cons_ne_nil y ys)
      exact ⟨c, bind_of_error h₁ next⟩

/-- Two things in a row are delimited when each of them is. -/
theorem bind {read : Reader ε α} {next : α → Reader ε β} {b b' : Bytes} {a : α} {x : β}
    (first : Delimits short read b a) (second : Delimits short (next a) b' x) :
    Delimits short (read >>= next) (b ++ b') x where
  whole rest asked := by
    obtain ⟨asked₁, h₁⟩ := first.whole (b' ++ rest) asked
    obtain ⟨asked₂, h₂⟩ := second.whole rest asked₁
    refine ⟨asked₂, ?_⟩
    rw [List.append_assoc, bind_of_ok h₁, h₂]
  cut := first.cut_bind second.cut

/-- A thing fills the input together with what fills the rest of it. -/
theorem bind_fills {surplus : Nat → ε} {read : Reader ε α} {next : α → Reader ε β} {b b' : Bytes}
    {a : α} {x : β} (first : Delimits short read b a)
    (second : Fills short surplus (next a) b' x) :
    Fills short surplus (read >>= next) (b ++ b') x where
  whole asked := by
    obtain ⟨asked₁, h₁⟩ := first.whole b' asked
    obtain ⟨asked₂, h₂⟩ := second.whole asked₁
    exact ⟨asked₂, by rw [bind_of_ok h₁, h₂]⟩
  cut := first.cut_bind second.cut
  extended extra asked hne := by
    obtain ⟨asked₁, h₁⟩ := first.whole (b' ++ extra) asked
    obtain ⟨c, h₂⟩ := second.extended extra asked₁ hne
    exact ⟨c, by rw [List.append_assoc, bind_of_ok h₁, h₂]⟩

/-- What follows a thing without reading further leaves it delimited. -/
theorem bind_nil {read : Reader ε α} {next : α → Reader ε β} {b : Bytes} {a : α} {x : β}
    (first : Delimits short read b a) (second : Delimits short (next a) [] x) :
    Delimits short (read >>= next) b x := by
  simpa only [List.append_nil] using first.bind second

theorem map {read : Reader ε α} {b : Bytes} {a : α} (f : α → β)
    (h : Delimits short read b a) : Delimits short (f <$> read) b (f a) := by
  rw [map_eq_pure_bind]
  exact h.bind_nil (pure (f a))

theorem consult {c : Consultation α} {a : α} (h : c.answer = .ok a) :
    Delimits .unexpectedEnd (Reader.consult c) [] a where
  whole rest asked := ⟨asked ++ c.asked, by simp [Reader.consult, h]⟩
  cut := .nil _ _

theorem take (b : Bytes) : Delimits .unexpectedEnd (Reader.take b.length) b b where
  whole rest asked := by
    have hlen : Bytes.hasAtLeast b.length (b ++ rest) = true :=
      Bytes.hasAtLeast_iff.mpr (by simp)
    exact ⟨asked, by simp [Reader.take, hlen]⟩
  cut front back asked h hne := by
    have hback : 0 < back.length := List.length_pos_iff.mpr hne
    have hlen : ¬ Bytes.hasAtLeast b.length front = true := by
      rw [Bytes.hasAtLeast_iff, h, List.length_append]
      omega
    exact ⟨_, by simp [Reader.take, hlen]; rfl⟩

theorem byte (x : UInt8) : Delimits .unexpectedEnd Reader.byte [x] x where
  whole rest asked := ⟨asked, rfl⟩
  cut front back asked h hne := by
    rcases front with _ | ⟨y, ys⟩
    · exact ⟨_, rfl⟩
    · obtain ⟨-, htail⟩ := List.cons_eq_cons.mp h
      obtain ⟨-, rfl⟩ := List.nil_eq_append_iff.mp htail
      exact absurd rfl hne

theorem word {width n : Nat} (h : n < Nat.pow 256 width) :
    Delimits .unexpectedEnd (Reader.word width) (Bytes.ofNat width n) n := by
  have htake := take (Bytes.ofNat width n)
  rw [Bytes.length_ofNat] at htake
  have hword := htake.map Bytes.toNat
  rwa [Bytes.toNat_ofNat h] at hword

theorem int (n : Int32) : Delimits .unexpectedEnd Reader.int (Codec.intBytes n) n := by
  have hword : Delimits .unexpectedEnd (Reader.word 4) _ n.toUInt32.toNat :=
    word n.toUInt32.toNat_lt
  have hint := hword.map fun k => (UInt32.ofNat k).toInt32
  simp only [UInt32.ofNat_toNat, Int32.toInt32_toUInt32] at hint
  exact hint

theorem long (n : Int64) : Delimits .unexpectedEnd
    ((fun k => Value.long (UInt64.ofNat k).toInt64) <$> Reader.word 8) (Codec.longBytes n)
    (.long n) := by
  have hword : Delimits .unexpectedEnd (Reader.word 8) _ n.toUInt64.toNat :=
    word n.toUInt64.toNat_lt
  have hlong := hword.map fun k => Value.long (UInt64.ofNat k).toInt64
  simp only [UInt64.ofNat_toNat, Int64.toInt64_toUInt64] at hlong
  exact hlong

theorem double (x : Double) : Delimits .unexpectedEnd
    ((fun k => Value.double ⟨UInt64.ofNat k⟩) <$> Reader.word 8) (Bytes.ofNat 8 x.bits.toNat)
    (.double x) := by
  have hword : Delimits .unexpectedEnd (Reader.word 8) _ x.bits.toNat := word x.bits.toNat_lt
  have hdouble := hword.map fun k => Value.double ⟨UInt64.ofNat k⟩
  simp only [UInt64.ofNat_toNat] at hdouble
  exact hdouble

theorem text {s : String} {w : Bytes} (hw : Codec.putText s = .put w) :
    Delimits .unexpectedEnd Reader.text w s := by
  obtain ⟨hlen, rfl⟩ := Codec.putBlock_eq_put_iff.mp hw
  refine (word hlen).bind ((take (Bytes.ofText s)).bind_nil ?_)
  simp only [Bytes.toText?_ofText]
  exact pure s

/-- A count is delimited together with items of which none is empty. -/
theorem count {next : Nat → Reader CodecError β} {n : Nat} {w b : Bytes} {x : β}
    (hw : Codec.putLength n = .put w) (hb : n ≤ b.length)
    (items : Delimits .unexpectedEnd (next n) b x) :
    Delimits .unexpectedEnd (Reader.count >>= next) (w ++ b) x := by
  obtain ⟨hlen, rfl⟩ := Codec.putLength_eq_put_iff.mp hw
  rw [Reader.count, bind_assoc]
  refine (word hlen).bind ⟨fun rest asked => ?_, fun front back asked h hne => ?_⟩
  · have henough : Bytes.hasAtLeast n (b ++ rest) = true :=
      Bytes.hasAtLeast_iff.mpr (by rw [List.length_append]; omega)
    obtain ⟨asked', h'⟩ := items.whole rest asked
    refine ⟨asked', ?_⟩
    rw [← h', bind_assoc, get_bind, if_pos henough, pure_bind]
  · rw [bind_assoc, get_bind]
    by_cases henough : Bytes.hasAtLeast n front = true
    · rw [if_pos henough, pure_bind]
      exact items.cut front back asked h hne
    · rw [if_neg henough]
      exact ⟨_, rfl⟩

/-- Things written one after the other are read one after the other. -/
theorem times {δ : Type} {write : α → Emission δ} {read : Reader ε α} {as : List α} {w : Bytes}
    (each : ∀ a ∈ as, ∀ u, write a = .put u → Delimits short read u a)
    (hw : Emission.concat (as.map write) = .put w) :
    Delimits short (Reader.times read as.length) w as := by
  induction as generalizing w with
  | nil =>
      obtain rfl := Emission.put_inj.mp hw
      exact pure []
  | cons a as ih =>
      obtain ⟨u, v, hu, hv, rfl⟩ := Emission.append_eq_put_iff.mp hw
      apply (each a List.mem_cons_self u hu).bind
      have htail := ih (fun a' ha' => each a' (List.mem_cons_of_mem a ha')) hv
      exact htail.bind_nil (pure (a :: as))

/-- A thing takes at least one byte when the reader finds nothing at the end of the input. -/
theorem length_pos {read : Reader ε α} {b : Bytes} {a : α} (h : Delimits short read b a)
    (nothing : ∀ asked, ∃ e c, read ⟨[], asked⟩ = .error e c) : 0 < b.length := by
  rw [List.length_pos_iff]
  rintro rfl
  obtain ⟨asked', hok⟩ := h.whole [] #[]
  obtain ⟨e, c, herror⟩ := nothing #[]
  cases hok.symm.trans herror

theorem tag (t : Tag) : Delimits .unexpectedEnd Codec.readTag [t.code] t := by
  apply (byte t.code).bind_nil
  simp only [Tag.ofCode?_code]
  exact pure t

/-- What is delimited for the codec is delimited inside a message. -/
theorem ofCodec {read : Reader CodecError α} {b : Bytes} {a : α}
    (h : Delimits .unexpectedEnd read b a) :
    Delimits (.codec .unexpectedEnd) (Parse.ofCodec read) b a where
  whole rest asked := by
    obtain ⟨asked', h'⟩ := h.whole rest asked
    exact ⟨asked', by simp only [Parse.ofCodec, h']⟩
  cut front back asked hb hne := by
    obtain ⟨c, h'⟩ := h.cut front back asked hb hne
    exact ⟨c, by simp only [Parse.ofCodec, h']⟩

end Delimits

/-- Things of which none is empty are at most as many as the bytes they take. -/
theorem length_le_of_concat {δ : Type} {write : α → Emission δ} {as : List α} {w : Bytes}
    (nonempty : ∀ a ∈ as, ∀ u, write a = .put u → 0 < u.length)
    (hw : Emission.concat (as.map write) = .put w) : as.length ≤ w.length := by
  induction as generalizing w with
  | nil => exact Nat.zero_le _
  | cons a as ih =>
      obtain ⟨u, v, hu, hv, rfl⟩ := Emission.append_eq_put_iff.mp hw
      have hhead := nonempty a List.mem_cons_self u hu
      have htail := ih (fun a' ha' => nonempty a' (List.mem_cons_of_mem a ha')) hv
      rw [List.length_append, List.length_cons]
      omega

end Reader

end RemoteCall
