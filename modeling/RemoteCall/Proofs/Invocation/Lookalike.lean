import RemoteCall.Proofs.Codec.Covered
import RemoteCall.Proofs.Codec.Shape
import RemoteCall.Proofs.Invocation.Entries
import RemoteCall.Proofs.Invocation.Frame

/-!
# Values and attachments that look alike

The attachments of a body start with their count and a value starts with its tag, and nothing says
which of the two a byte is. Where the one is read for the other, what stands behind it decides: a
value shows its width there, and attachments show a key, which is a text.
-/

namespace RemoteCall

open Reader Codec

/-- Only small numbers are given to the well-known values, and none of these has a fixed width. -/
theorem KnownValues.valueAt_protocolV1 {i : UInt8} {v : Value}
    (h : protocolV1.valueAt i = some v) : i.toNat < 3 ∧ v.tag.width? = none := by
  simp only [protocolV1, ofEntries, List.lookup_cons, List.lookup_nil] at h
  split at h
  · next hi =>
    obtain rfl := Option.some.inj h
    rw [beq_iff_eq.mp hi]
    exact ⟨by decide, rfl⟩
  · split at h
    · next hi =>
      obtain rfl := Option.some.inj h
      rw [beq_iff_eq.mp hi]
      exact ⟨by decide, rfl⟩
    · split at h
      · next hi =>
        obtain rfl := Option.some.inj h
        rw [beq_iff_eq.mp hi]
        exact ⟨by decide, rfl⟩
      · cases h

/-- The first byte of a length tells how great the length is at least. -/
theorem Bytes.le_of_ofNat_four {n : Nat} (hn : n < 0x100000000) {y : UInt8} {u l : Bytes}
    (h : Bytes.ofNat 4 n ++ u = y :: l) : y.toNat * 0x1000000 ≤ n := by
  obtain ⟨rfl, -⟩ := List.cons.inj h
  simp only [UInt8.toNat_ofNat']
  omega

/-- The first byte of a key: a text starts with its tag or is a well-known one. -/
def StartsKey (x : UInt8) : Prop :=
  x = Tag.text.code ∨ x = Tag.reference.code

instance (x : UInt8) : Decidable (StartsKey x) :=
  inferInstanceAs (Decidable (_ ∨ _))

namespace Codec

variable {v : Value} {w rest l : Bytes} {x y : UInt8}

theorem Shape.startsKey {key : String} {b : Bytes} (h : Shape .standard (.text key) b) :
    ∃ x y u, b = x :: y :: u ∧ StartsKey x := by
  cases h with
  | reference h => exact ⟨_, _, _, rfl, .inr rfl⟩
  | fixed h => cases h
  | counted h hn hu => exact ⟨_, _, _, rfl, .inl rfl⟩

/-- Where what starts a key stands behind the first byte of a value, the value has a fixed width,
unless its length is very great. -/
theorem Shape.fixed_of_startsKey (h : Shape .standard v w) (hw : w ++ rest = x :: y :: l)
    (hy : StartsKey y) (hsmall : (w ++ rest).length < 0x10000000) :
    ∃ u, w = v.tag.code :: u ∧ v.tag.width? = some u.length := by
  have hy16 : 16 ≤ y.toNat := by
    rcases hy with rfl | rfl
    · decide
    · decide
  cases h with
  | reference h =>
      obtain ⟨-, htail⟩ := List.cons.inj hw
      obtain ⟨rfl, -⟩ := List.cons.inj htail
      have hi := (KnownValues.valueAt_protocolV1 h).1
      omega
  | fixed h => exact ⟨_, rfl, h⟩
  | @counted n u h hn hu =>
      obtain ⟨-, htail⟩ := List.cons.inj hw
      have hle := Bytes.le_of_ofNat_four hn ((List.append_assoc _ _ _).symm.trans htail)
      simp only [List.length_append, List.length_cons] at hsmall
      omega

/-- The first byte of a value is the code of a tag. -/
theorem Shape.exists_code (h : Shape .standard v w) : ∃ t u, w = Tag.code t :: u := by
  cases h with
  | reference h => exact ⟨_, _, rfl⟩
  | fixed h => exact ⟨_, _, rfl⟩
  | counted h hn hu => exact ⟨_, _, rfl⟩

end Codec

theorem Tag.code_bounds (t : Tag) : 0 < t.code.toNat ∧ t.code.toNat < 128 := by
  cases t <;> decide

/-- A value of a fixed width has a tag that is below seven, and is shorter than as many entries. -/
theorem Tag.bounds_of_width {t : Tag} {width : Nat} (h : t.width? = some width) :
    t.code.toNat ≤ 6 ∧ width < 3 * t.code.toNat := by
  cases t <;> cases h <;> decide

/-- Of the values of a fixed width those with the three least tags are nothing but their tag. -/
theorem Tag.width_eq_zero_iff {t : Tag} {width : Nat} (h : t.width? = some width) :
    width = 0 ↔ t.code.toNat ≤ 3 := by
  cases t <;> cases h <;> decide

/-- Contents of a fixed width may be any bytes. -/
theorem Tag.exists_delimits {t : Tag} {u : Bytes} (h : t.width? = some u.length) (d : Dialect) :
    ∃ v, Delimits (.codec .unexpectedEnd) (Parse.value d) (t.code :: u) v := by
  have hword {n : Nat} (hn : n = u.length) : Delimits .unexpectedEnd (Reader.word n) u u.toNat := by
    rw [hn]
    exact (Delimits.take u).map Bytes.toNat
  suffices hread : ∃ v, Delimits .unexpectedEnd (readValue d (64 + 1)) (t.code :: u) v from
    hread.imp fun _ h => h.ofCodec
  rw [readValue]
  cases t with
  | null =>
      obtain rfl := List.length_eq_zero_iff.mp (Option.some.inj h).symm
      exact ⟨_, delimits_tagged .null (.pure _)⟩
  | yes =>
      obtain rfl := List.length_eq_zero_iff.mp (Option.some.inj h).symm
      exact ⟨_, delimits_tagged .yes (.pure _)⟩
  | no =>
      obtain rfl := List.length_eq_zero_iff.mp (Option.some.inj h).symm
      exact ⟨_, delimits_tagged .no (.pure _)⟩
  | int => exact ⟨_, delimits_tagged .int (((hword (Option.some.inj h)).map _).map _)⟩
  | long => exact ⟨_, delimits_tagged .long ((hword (Option.some.inj h)).map _)⟩
  | double => exact ⟨_, delimits_tagged .double ((hword (Option.some.inj h)).map _)⟩
  | text => cases h
  | bytes => cases h
  | list => cases h
  | object => cases h
  | proxy => cases h
  | reference => cases h

/-- What is left of some bytes behind a value of a fixed width. -/
def SkipsValue (b rest : Bytes) : Prop :=
  ∃ (t : Tag) (u : Bytes), b = t.code :: (u ++ rest) ∧ t.width? = some u.length

namespace Parse

theorem value_shape (d : Dialect) : Accepts (Parse.value d) fun b v => Shape d v b :=
  (readValue_shape d maxNesting).ofCodec

/-- What is written for a value has its shape. -/
theorem shape_of_put {v : Value} {w : Bytes} (hw : Wire.value .standard v = .put w) :
    Shape .standard v w := by
  obtain ⟨asked, hread⟩ := (delimits_value KnownValues.protocolV1_coherent
    (Resolver.plain_restores v) hw).whole [] #[]
  obtain ⟨b, hb, hshape⟩ := value_shape _ _ _ _ hread
  rw [List.append_nil, List.append_nil] at hb
  obtain rfl : w = b := hb
  exact hshape

variable {β γ : Type} {later : Parse β} {f : Value → β → γ} {b rest : Bytes}

/-- A value that is written is taken off the front. -/
theorem covers_value_iff {v : Value} {w : Bytes} (hw : Wire.value .standard v = .put w)
    (hlater : Forgetful later) :
    Covers (Parse.value .standard >>= fun v => f v <$> later) (w ++ rest) ↔ Covers later rest := by
  have hv := delimits_value KnownValues.protocolV1_coherent (Resolver.plain_restores v) hw
  rw [hv.covers_bind_iff (hlater.map (f v)), covers_map_iff]

/-- Where a value is read, what is behind it is covered. -/
theorem exists_of_covers_value (hlater : Forgetful later)
    (h : Covers (Parse.value .standard >>= fun v => f v <$> later) b) :
    ∃ v w rest, b = w ++ rest ∧ Shape .standard v w ∧ Covers later rest := by
  obtain ⟨a, c, hread, hend⟩ := h
  obtain ⟨v, c', hv, hread⟩ := bind_eq_ok hread
  obtain ⟨w, hb, hshape⟩ := value_shape _ _ _ _ hv
  refine ⟨v, w, c'.unread, hb, hshape, (covers_map_iff (f v)).mp ?_⟩
  exact ((hlater.map (f v)).covers_iff c'.asked).mpr ⟨a, c, hread, hend⟩

theorem covers_of_skipsValue (hlater : Forgetful later) (hskip : SkipsValue b rest)
    (h : Covers later rest) : Covers (Parse.value .standard >>= fun v => f v <$> later) b := by
  obtain ⟨t, u, rfl, hwidth⟩ := hskip
  obtain ⟨v, hv⟩ := Tag.exists_delimits hwidth .standard
  exact (hv.covers_bind_iff (hlater.map (f v))).mpr ((covers_map_iff (f v)).mpr h)

end Parse

namespace Attachments

/-- Writes keys with their values. -/
def writeEntries (d : Dialect) (entries : Entries) : Wire :=
  .concat (entries.map fun e => Wire.value d (.text e.1) ++ Wire.value d e.2)

/-- The bytes are so many keys with their values, and nothing else. -/
def IsEntries (n : Nat) (b : Bytes) : Prop :=
  Covers (Reader.times (Entries.readEntry .standard) n) b

variable {β : Type} {a : Attachments} {entries : Entries} {key : String} {v : Value} {n : Nat}
  {x : UInt8} {b w u z rest : Bytes}

/-! ### Keys with values -/

theorem readKey_forgetful (d : Dialect) : Forgetful (readKey d) := by
  refine (Forgetful.value d).bind fun v => ?_
  split
  · exact .pure _
  · exact .throw _

theorem readEntries_forgetful (d : Dialect) (n : Nat) :
    Forgetful (Reader.times (Entries.readEntry d) n) :=
  ((readKey_forgetful d).bind fun key => (Forgetful.value d).bind fun v => .pure (key, v)).times n

theorem readEntries_succ (d : Dialect) (n : Nat) :
    Reader.times (Entries.readEntry d) (n + 1) = (do
      let key ← readKey d
      let v ← Parse.value d
      (fun entries => (key, v) :: entries) <$> Reader.times (Entries.readEntry d) n) := by
  simp only [Reader.times, Entries.readEntry, map_eq_pure_bind, bind_assoc, pure_bind]

theorem readKey_shape (d : Dialect) :
    Accepts (readKey d) fun b key => Shape d (.text key) b := by
  apply (Parse.value_shape d).bind
  intro b v hv
  split
  · refine Accepts.pure ?_
    rwa [List.append_nil]
  · exact Accepts.throw _

/-- Of the values that are written only a text is taken for a key. -/
theorem covers_key_iff {next : String → Parse β} (hv : Wire.value .standard v = .put w)
    (hnext : ∀ key, Forgetful (next key)) :
    Covers (readKey .standard >>= next) (w ++ rest) ↔
      ∃ key, v = .text key ∧ Covers (next key) rest := by
  have hread := Parse.delimits_value KnownValues.protocolV1_coherent (Resolver.plain_restores v) hv
  rw [readKey, bind_assoc, hread.covers_bind_iff]
  · split
    · next key =>
      rw [pure_bind]
      exact ⟨fun h => ⟨key, rfl, h⟩, fun ⟨_, hkey, h⟩ => Value.text.inj hkey ▸ h⟩
    · next hother =>
      constructor
      · rintro ⟨_, _, hread, -⟩
        cases hread
      · rintro ⟨key, rfl, -⟩
        exact absurd rfl (hother key)
  · split
    · exact (Forgetful.pure _).bind hnext
    · exact (Forgetful.throw _).bind hnext

theorem isEntries_zero_iff : IsEntries 0 b ↔ b = [] :=
  covers_pure_iff []

theorem isEntries_text_iff (hkey : Wire.value .standard (.text key) = .put w) :
    IsEntries (n + 1) (w ++ rest) ↔ Covers (Parse.value .standard >>= fun v =>
      (fun entries => (key, v) :: entries) <$>
        Reader.times (Entries.readEntry .standard) n) rest := by
  rw [IsEntries, readEntries_succ, covers_key_iff hkey fun key =>
    (Forgetful.value _).bind fun v => (readEntries_forgetful _ n).map _]
  exact ⟨fun ⟨_, hsame, h⟩ => Value.text.inj hsame ▸ h, fun h => ⟨key, rfl, h⟩⟩

/-- Bytes that are keys with values start as a key does. -/
theorem IsEntries.startsKey (h : IsEntries n b) (hn : n ≠ 0) : ∃ y l, b = y :: l ∧ StartsKey y := by
  obtain ⟨n, rfl⟩ := Nat.exists_eq_succ_of_ne_zero hn
  rw [IsEntries, readEntries_succ] at h
  obtain ⟨_, _, hread, -⟩ := h
  obtain ⟨key, c, hkey, -⟩ := bind_eq_ok hread
  obtain ⟨u, hu, hshape⟩ := readKey_shape _ _ _ _ hkey
  obtain ⟨x, y, l, rfl, hx⟩ := hshape.startsKey
  exact ⟨x, _, hu, hx⟩

/-- Each key with its value takes three bytes at least. -/
theorem IsEntries.length_le (h : IsEntries n b) : 3 * n ≤ b.length := by
  have hentry : Accepts (Entries.readEntry .standard) fun b _ => 3 ≤ b.length := by
    apply (readKey_shape _).bind
    intro b key hkey
    obtain ⟨x, y, l, rfl, -⟩ := hkey.startsKey
    apply (Parse.value_shape _).bind
    intro b' v hv
    have hpos := hv.length_pos
    refine .pure ?_
    simp only [List.length_append, List.length_cons]
    omega
  have hcons (b : Bytes) (e : String × Value) (b' : Bytes) (entries : List (String × Value))
      (hb : 3 ≤ b.length) (hb' : 3 * entries.length ≤ b'.length) :
      3 * (e :: entries).length ≤ (b ++ b').length := by
    rw [List.length_append, List.length_cons]
    omega
  obtain ⟨entries, c, hread, hend⟩ := h
  obtain ⟨b', hb, rfl, hle⟩ := hentry.times (Nat.le_refl 0) hcons n _ _ _ hread
  rw [hend, List.append_nil] at hb
  obtain rfl : b = b' := hb
  exact hle

/-- Keys with values that are written are as many as they are. -/
theorem isEntries_write_iff (hw : writeEntries .standard entries = .put w) :
    IsEntries n w ↔ n = entries.length := by
  induction entries generalizing n w with
  | nil =>
      obtain rfl := Emission.put_inj.mp hw
      constructor
      · intro h
        by_contra hn
        obtain ⟨y, l, hl, -⟩ := h.startsKey hn
        cases hl
      · rintro rfl
        exact isEntries_zero_iff.mpr rfl
  | cons e entries ih =>
      obtain ⟨_, w', hentry, hrest, rfl⟩ := Emission.append_eq_put_iff.mp hw
      obtain ⟨k, u, hk, hu, rfl⟩ := Emission.append_eq_put_iff.mp hentry
      rw [List.append_assoc]
      cases n with
      | zero =>
          rw [isEntries_zero_iff]
          obtain ⟨x, y, l, rfl, -⟩ := (Parse.shape_of_put hk).startsKey
          exact ⟨fun h => (nomatch h), fun h => (nomatch h)⟩
      | succ n =>
          rw [isEntries_text_iff hk, Parse.covers_value_iff hu (readEntries_forgetful _ n)]
          exact (ih hrest).trans Nat.succ_inj.symm

/-- Of keys with values that are written the last ones are written too. -/
theorem exists_write_of_drop {i : Nat} {e : String × Value} {more : Entries}
    (hw : writeEntries .standard entries = .put w) (h : entries.drop i = e :: more) :
    ∃ tail, writeEntries .standard more = .put tail := by
  rw [writeEntries, ← List.take_append_drop i entries, h, List.map_append,
    Emission.concat_append] at hw
  obtain ⟨_, _, -, hmore, -⟩ := Emission.append_eq_put_iff.mp hw
  obtain ⟨_, tail, -, htail, -⟩ := Emission.append_eq_put_iff.mp hmore
  exact ⟨tail, htail⟩

theorem length_lt_of_drop {i : Nat} {e : String × Value} {more : Entries}
    (h : a.toList.drop i = e :: more) : more.length < a.size := by
  have hlength := congrArg List.length h
  rw [List.length_drop, length_toList, List.length_cons] at hlength
  omega

/-! ### Values in the place of a count -/

/-- A count below 128 is the byte that it is written as. -/
theorem covers_read_iff (hx : x.toNat < 128) :
    Covers (read .standard) (x :: rest) ↔ IsEntries x.toNat rest := by
  have hcount : (UInt32.ofNat x.toNat).toNat = x.toNat :=
    UInt32.toNat_ofNat_of_lt' (Nat.lt_trans hx (by decide))
  have hencode : Packed.encode (UInt32.ofNat x.toNat) = [x] := by
    rw [Packed.encode_of_lt (by rwa [hcount]), hcount, UInt8.ofNat_toNat]
  have hpacked := (Packed.delimits_encode (UInt32.ofNat x.toNat)).ofCodec
  rw [hencode] at hpacked
  rw [read_eq, covers_map_iff, Entries.readAll, ← List.singleton_append,
    hpacked.covers_bind_iff (readEntries_forgetful _ _), hcount]
  rfl

theorem read_forgetful : Forgetful (read .standard) := by
  rw [read_eq]
  exact (Forgetful.packed.ofCodec.bind fun n => readEntries_forgetful _ _).map _

theorem not_covers_read_nil : ¬ Covers (read .standard) [] := by
  rintro ⟨_, _, hread, -⟩
  cases hread

end Attachments

/-- The value is taken for attachments together with what stands behind it: its tag is taken for
their count, and its contents, of a fixed width, for the start of their keys and values. -/
def Value.CountsWith (v : Value) (rest : Bytes) : Prop :=
  ∃ digits, Wire.value .standard v = .put (v.tag.code :: digits) ∧
    v.tag.width? = some digits.length ∧
    Attachments.IsEntries v.tag.code.toNat (digits ++ rest)

namespace Attachments

variable {β γ : Type} {later : Parse β} {f : Value → β → γ} {a : Attachments} {entries : Entries}
  {v : Value} {n : Nat} {t : Tag} {l w z rest : Bytes}

/-- A value that is met where attachments are expected has a fixed width, and as many keys with
values follow as its tag says. -/
theorem covers_read_value_iff (hv : Wire.value .standard v = .put w)
    (hsmall : (w ++ rest).length < 0x10000000) :
    Covers (read .standard) (w ++ rest) ↔ v.CountsWith rest := by
  constructor
  · intro h
    have hshape := Parse.shape_of_put hv
    obtain ⟨t, u, rfl⟩ := hshape.exists_code
    rw [List.cons_append, covers_read_iff t.code_bounds.2] at h
    obtain ⟨y, l, hl, hy⟩ := h.startsKey (Nat.ne_of_gt t.code_bounds.1)
    obtain ⟨digits, hdigits, hwidth⟩ :=
      hshape.fixed_of_startsKey (congrArg (t.code :: ·) hl) hy hsmall
    obtain ⟨hcode, rfl⟩ := List.cons.inj hdigits
    rw [hcode] at hv h
    exact ⟨u, hv, hwidth, h⟩
  · rintro ⟨digits, hdigits, -, h⟩
    obtain rfl := Emission.put_inj.mp (hv.symm.trans hdigits)
    exact (covers_read_iff v.tag.code_bounds.2).mpr h

/-! ### Attachments in the place of a value -/

/-- What is written for attachments is their count and their keys with values. -/
theorem exists_of_write (hw : a.write .standard = .put z) :
    ∃ w, a.size < 0x100000000 ∧ z = Packed.encode (UInt32.ofNat a.size) ++ w ∧
      writeEntries .standard a.toList = .put w := by
  unfold write at hw
  split at hw
  · next hsize =>
    obtain ⟨_, w, hcount, hentries, rfl⟩ := Emission.append_eq_put_iff.mp hw
    obtain rfl := Emission.put_inj.mp hcount
    exact ⟨w, hsize, rfl, hentries⟩
  · exact absurd hw (Emission.stop_ne_put _ _)

/-- The count of fewer than 128 attachments is one byte. -/
theorem exists_of_write_of_lt (hw : a.write .standard = .put z) (hlt : a.size < 128) :
    ∃ w, z = UInt8.ofNat a.size :: w ∧ writeEntries .standard a.toList = .put w := by
  obtain ⟨w, hsize, rfl, hentries⟩ := exists_of_write hw
  have hnat := UInt32.toNat_ofNat_of_lt' hsize
  refine ⟨w, ?_, hentries⟩
  rw [Packed.encode_of_lt (by rwa [hnat]), hnat]
  rfl

/-- How the bytes of attachments begin. -/
theorem write_cases (hw : a.write .standard = .put z) :
    (a.size < 128 ∧ ∃ w, z = UInt8.ofNat a.size :: w ∧
      writeEntries .standard a.toList = .put w) ∨
    ∃ x l, z = x :: l ∧ 128 ≤ x.toNat := by
  by_cases hlt : a.size < 128
  · exact .inl ⟨hlt, exists_of_write_of_lt hw hlt⟩
  · obtain ⟨w, hsize, rfl, -⟩ := exists_of_write hw
    have hle : 128 ≤ (UInt32.ofNat a.size).toNat := by
      rw [UInt32.toNat_ofNat_of_lt' hsize]
      exact Nat.not_lt.mp hlt
    obtain ⟨x, l, hx, hle⟩ := Packed.encode_of_le hle
    exact .inr ⟨x, l ++ w, by rw [hx]; rfl, hle⟩

theorem ne_nil_of_write (hw : a.write .standard = .put z) : z ≠ [] := by
  rintro rfl
  obtain ⟨-, w, h, -⟩ | ⟨x, l, h, -⟩ := write_cases hw
  · cases h
  · cases h

/-- Where the first byte of attachments is a tag, they are as many as its code, and their keys and
values are behind it. -/
theorem entries_of_code (hw : a.write .standard = .put (t.code :: l)) :
    t.code.toNat = a.size ∧ writeEntries .standard a.toList = .put l ∧ IsEntries a.size l := by
  obtain ⟨hlt, w, h, hentries⟩ | ⟨x, l, h, hx⟩ := write_cases hw
  · obtain ⟨hcode, rfl⟩ := List.cons.inj h
    refine ⟨?_, hentries, (isEntries_write_iff hentries).mpr rfl⟩
    rw [hcode, UInt8.toNat_ofNat_of_lt' (Nat.lt_trans hlt (by decide))]
  · obtain ⟨hcode, -⟩ := List.cons.inj h
    have hbound := t.code_bounds.2
    rw [hcode] at hbound
    omega

/-- Attachments that are met where a value is expected are taken for one of a fixed width. -/
theorem fixed_of_shape (hw : a.write .standard = .put z) (hshape : Shape .standard v w)
    (hz : z = w ++ rest) (hsmall : z.length < 0x10000000) :
    ∃ u, w = v.tag.code :: u ∧ v.tag.width? = some u.length := by
  obtain ⟨t, u, rfl⟩ := hshape.exists_code
  subst hz
  obtain ⟨hcode, -, hall⟩ := entries_of_code hw
  obtain ⟨y, l, hl, hy⟩ := hall.startsKey (hcode ▸ Nat.ne_of_gt t.code_bounds.1)
  exact hshape.fixed_of_startsKey (congrArg (t.code :: ·) hl) hy hsmall

/-- Where attachments are taken for a value, what follows is behind a value of a fixed width. -/
theorem covers_value_iff (hw : a.write .standard = .put z) (hsmall : z.length < 0x10000000)
    (hlater : Forgetful later) :
    Covers (Parse.value .standard >>= fun v => f v <$> later) z ↔
      ∃ rest, SkipsValue z rest ∧ Covers later rest := by
  constructor
  · intro h
    obtain ⟨v, w, rest, hz, hshape, hcovers⟩ := Parse.exists_of_covers_value hlater h
    obtain ⟨u, rfl, hwidth⟩ := fixed_of_shape hw hshape hz hsmall
    exact ⟨rest, ⟨v.tag, u, hz, hwidth⟩, hcovers⟩
  · rintro ⟨rest, hskip, hcovers⟩
    exact Parse.covers_of_skipsValue hlater hskip hcovers

/-- Attachments are not taken for a key. -/
theorem not_covers_key (hw : a.write .standard = .put z) (hsmall : z.length < 0x10000000)
    {next : String → Parse β} : ¬ Covers (readKey .standard >>= next) z := by
  rintro ⟨_, _, hread, -⟩
  obtain ⟨key, c, hkey, -⟩ := bind_eq_ok hread
  obtain ⟨w, hz, hshape⟩ := readKey_shape _ _ _ _ hkey
  obtain ⟨u, -, hwidth⟩ := fixed_of_shape hw hshape hz hsmall
  cases hwidth

/-- Attachments are more than the value that they are taken for. -/
theorem ne_nil_of_skipsValue (hw : a.write .standard = .put z) (hskip : SkipsValue z rest) :
    rest ≠ [] := by
  rintro rfl
  obtain ⟨t, u, rfl, hwidth⟩ := hskip
  obtain ⟨hcode, -, hall⟩ := entries_of_code hw
  have hle := hall.length_le
  have hshort := (Tag.bounds_of_width hwidth).2
  rw [List.append_nil] at hle
  omega

/-- Attachments that are taken for a value are one to six. Behind the value are all their keys and
values if they are up to three, since then it is nothing but its tag. -/
theorem size_of_skipsValue (hw : a.write .standard = .put z) (hskip : SkipsValue z rest) :
    (0 < a.size ∧ a.size ≤ 3 ∧ writeEntries .standard a.toList = .put rest) ∨
      (4 ≤ a.size ∧ a.size ≤ 6) := by
  obtain ⟨t, u, rfl, hwidth⟩ := hskip
  obtain ⟨hcode, hentries, -⟩ := entries_of_code hw
  have hle := (Tag.bounds_of_width hwidth).1
  have hpos := t.code_bounds.1
  by_cases hlow : t.code.toNat ≤ 3
  · obtain rfl := List.length_eq_zero_iff.mp ((Tag.width_eq_zero_iff hwidth).mpr hlow)
    exact .inl ⟨by omega, by omega, hentries⟩
  · exact .inr ⟨by omega, by omega⟩

/-- The count of up to three attachments is the tag of a value that is nothing but its tag. -/
theorem skipsValue_of_size_le (hw : a.write .standard = .put z) (hpos : 0 < a.size)
    (hle : a.size ≤ 3) : ∃ rest, SkipsValue z rest ∧ writeEntries .standard a.toList = .put rest := by
  obtain ⟨rest, rfl, hentries⟩ := exists_of_write_of_lt hw (by omega)
  have htag : ∃ t : Tag, t.code = UInt8.ofNat a.size ∧ t.width? = some 0 := by
    obtain h | h | h : a.size = 1 ∨ a.size = 2 ∨ a.size = 3 := by omega
    · exact ⟨.null, by rw [h]; rfl, rfl⟩
    · exact ⟨.yes, by rw [h]; rfl, rfl⟩
    · exact ⟨.no, by rw [h]; rfl, rfl⟩
  obtain ⟨t, hcode, hwidth⟩ := htag
  exact ⟨rest, ⟨t, [], by rw [hcode]; rfl, hwidth⟩, hentries⟩

/-- Keys that occur once are written in order. -/
theorem write_ofList {entries : List (String × Value)} (h : (entries.map Prod.fst).Nodup) :
    (ofList entries).write .standard =
      if entries.length < 0x100000000 then
        Packed.write (UInt32.ofNat entries.length) ++ writeEntries .standard entries
      else .stop (.violation "too many attachments") := by
  have hlist : (ofList entries).toList = entries := (toList_insertAll empty_indexed h).2
  rw [write, ← length_toList, hlist]
  rfl

end Attachments

end RemoteCall
