import RemoteCall.Proofs.Invocation.Lookalike

/-!
# Bodies that are read with a wrong count of parameters

Nothing in the body of a call says where its parameters end, so a reader that is told a wrong count
meets the count of attachments where it looks for a value, or a value where it looks for the count.
What saves it is that the two rarely look alike. Here all ways are told in which they do, and in
each of them the body is read.

## Implementation notes

Where the count of attachments is taken for a number, or a number for this count, the bytes behind
are cut at places at which nothing was written, so that it is said of them only that they are keys
with values, or values and attachments.
-/

namespace RemoteCall

open Reader Codec

namespace Value

/-- A number of 32 or 64 bits or a floating-point number. -/
def IsNumber : Value → Prop
  | int _ => True
  | long _ => True
  | double _ => True
  | _ => False

/-- What is taken for attachments is a number, or a value that is nothing but its tag. -/
theorem CountsWith.isNumber_or {v : Value} {rest : Bytes} (hcounts : v.CountsWith rest) :
    v.IsNumber ∨ v = null ∨ ∃ flag, v = bool flag := by
  obtain ⟨_, -, h, -⟩ := hcounts
  cases v with
  | null => exact .inr (.inl rfl)
  | bool flag => exact .inr (.inr ⟨flag, rfl⟩)
  | int n => exact .inl trivial
  | long n => exact .inl trivial
  | double x => exact .inl trivial
  | text s => cases h
  | bytes b => cases h
  | list items => cases h
  | object name fields => cases h
  | proxy interfaces handler => cases h

/-- A value that is nothing but its tag is taken for the count of the keys with values behind it. -/
theorem countsWith_iff {v : Value} {rest : Bytes}
    (hv : Wire.value .standard v = .put [v.tag.code]) (hwidth : v.tag.width? = some 0) :
    v.CountsWith rest ↔ Attachments.IsEntries v.tag.code.toNat rest := by
  constructor
  · rintro ⟨digits, hdigits, -, h⟩
    obtain ⟨-, rfl⟩ := List.cons.inj (Emission.put_inj.mp (hv.symm.trans hdigits))
    exact h
  · exact fun h => ⟨[], hv, hwidth, h⟩

theorem countsWith_null_iff {rest : Bytes} : null.CountsWith rest ↔ Attachments.IsEntries 1 rest :=
  countsWith_iff rfl rfl

theorem countsWith_bool_iff {flag : Bool} {rest : Bytes} : (bool flag).CountsWith rest ↔
    Attachments.IsEntries (bool flag).tag.code.toNat rest := by
  cases flag with
  | true => exact countsWith_iff rfl rfl
  | false => exact countsWith_iff rfl rfl

/-- The contents of a value that is taken for attachments start as a key does. -/
theorem CountsWith.startsKey {v : Value} {digits rest : Bytes} (hcounts : v.CountsWith rest)
    (hv : Wire.value .standard v = .put (v.tag.code :: digits)) :
    ∃ y l, digits ++ rest = y :: l ∧ StartsKey y := by
  obtain ⟨_, hdigits, -, h⟩ := hcounts
  obtain ⟨-, rfl⟩ := List.cons.inj (Emission.put_inj.mp (hv.symm.trans hdigits))
  exact h.startsKey (Nat.ne_of_gt v.tag.code_bounds.1)

end Value

namespace Invocation.Request

variable {n : Nat} {a : Attachments} {u w z : Bytes}

/-- Writes values one after the other. -/
def writeValues (d : Dialect) (vs : List Value) : Wire :=
  .concat (vs.map (Wire.value d))

/-! ### Values and attachments behind them -/

/-- Reads values and the attachments behind them. -/
def readTail (n : Nat) : Parse (List Value × Attachments) := do
  let parameters ← Reader.times (Parse.value .standard) n
  let attachments ← Attachments.read .standard
  pure (parameters, attachments)

/-- The bytes are so many values with attachments behind them, and nothing else. -/
def IsTail (n : Nat) (b : Bytes) : Prop :=
  Covers (readTail n) b

theorem readTail_forgetful (n : Nat) : Forgetful (readTail n) :=
  ((Forgetful.value _).times n).bind fun _ => Attachments.read_forgetful.bind fun _ => .pure _

theorem readTail_succ (n : Nat) :
    readTail (n + 1) = (do
      let v ← Parse.value .standard
      (fun tail => (v :: tail.1, tail.2)) <$> readTail n) := by
  simp only [readTail, Reader.times, map_eq_pure_bind, bind_assoc, pure_bind]

theorem isTail_zero_iff {b : Bytes} : IsTail 0 b ↔ Covers (Attachments.read .standard) b := by
  have hread : readTail 0 = (fun a => ([], a)) <$> Attachments.read .standard := by
    simp only [readTail, Reader.times, map_eq_pure_bind, pure_bind]
  rw [IsTail, hread, covers_map_iff]

theorem isTail_cons_iff {v : Value} {rest : Bytes} (hv : Wire.value .standard v = .put w) :
    IsTail (n + 1) (w ++ rest) ↔ IsTail n rest := by
  rw [IsTail, readTail_succ]
  exact Parse.covers_value_iff hv (readTail_forgetful n)

/-- Values that are written are taken off the front. -/
theorem isTail_append_iff {vs : List Value} {rest : Bytes}
    (hw : writeValues .standard vs = .put w) : IsTail (vs.length + n) (w ++ rest) ↔ IsTail n rest := by
  induction vs generalizing w with
  | nil =>
      obtain rfl := Emission.put_inj.mp hw
      rw [List.length_nil, Nat.zero_add]
      rfl
  | cons v vs ih =>
      obtain ⟨_, _, hv, hvs, rfl⟩ := Emission.append_eq_put_iff.mp hw
      rw [List.length_cons, Nat.succ_add, List.append_assoc, isTail_cons_iff hv, ih hvs]

theorem not_isTail_nil (n : Nat) : ¬ IsTail n [] := by
  intro h
  cases n with
  | zero => exact Attachments.not_covers_read_nil (isTail_zero_iff.mp h)
  | succ n =>
      rw [IsTail, readTail_succ] at h
      obtain ⟨v, w, rest, hnil, hshape, -⟩ :=
        Parse.exists_of_covers_value (readTail_forgetful n) h
      obtain ⟨rfl, -⟩ := List.nil_eq_append_iff.mp hnil
      cases hshape.length_pos

/-- Keys with values are values with attachments behind them when one of the values is taken for the
count of attachments. -/
theorem isTail_entries_iff {entries : Entries}
    (hw : Attachments.writeEntries .standard entries = .put w) (hsmall : w.length < 0x10000000) :
    IsTail n w ↔ ∃ i key v more tail, n = 2 * i + 1 ∧ entries.drop i = (key, v) :: more ∧
      Attachments.writeEntries .standard more = .put tail ∧ v.CountsWith tail := by
  induction entries generalizing n w with
  | nil =>
      obtain rfl := Emission.put_inj.mp hw
      constructor
      · exact fun h => absurd h (not_isTail_nil n)
      · rintro ⟨i, key, v, more, tail, -, h, -⟩
        rw [List.drop_nil] at h
        cases h
  | cons e entries ih =>
      obtain ⟨_, tail, hentry, hrest, rfl⟩ := Emission.append_eq_put_iff.mp hw
      obtain ⟨b, b', hkey, hv, rfl⟩ := Emission.append_eq_put_iff.mp hentry
      rw [List.append_assoc] at hsmall ⊢
      have hshort : (b' ++ tail).length < 0x10000000 := by
        rw [List.length_append] at hsmall
        omega
      match n with
      | 0 =>
          constructor
          · intro h
            obtain ⟨_, _, hwidth, -⟩ :=
              (Attachments.covers_read_value_iff hkey hsmall).mp (isTail_zero_iff.mp h)
            cases hwidth
          · rintro ⟨i, key, v, more, tail, h, -⟩
            cases h
      | 1 =>
          rw [isTail_cons_iff hkey, isTail_zero_iff,
            Attachments.covers_read_value_iff hv hshort]
          constructor
          · exact fun h => ⟨0, e.1, e.2, entries, tail, rfl, rfl, hrest, h⟩
          · rintro ⟨i, key, v, more, tail', hi, hdrop, htail, h⟩
            obtain rfl : i = 0 := by omega
            cases hdrop
            obtain rfl := Emission.put_inj.mp (hrest.symm.trans htail)
            exact h
      | n + 2 =>
          rw [List.length_append] at hshort
          rw [isTail_cons_iff hkey, isTail_cons_iff hv, ih hrest (by omega)]
          constructor
          · rintro ⟨i, key, v, more, tail', rfl, hdrop, htail, h⟩
            exact ⟨i + 1, key, v, more, tail', rfl, hdrop, htail, h⟩
          · rintro ⟨i, key, v, more, tail', hi, hdrop, htail, h⟩
            obtain ⟨i, rfl⟩ : ∃ j, i = j + 1 := ⟨i - 1, by omega⟩
            exact ⟨i, key, v, more, tail', by omega, hdrop, htail, h⟩

/-! ### Parameters in the place of keys with values -/

/-- Texts stand at every other place, from the first to the last, and are so many. -/
inductive KeysTo : List Value → Nat → Prop
  | last (key : String) : KeysTo [.text key] 1
  | entry (key : String) (v : Value) {vs : List Value} {keys : Nat} (h : KeysTo vs keys) :
      KeysTo (.text key :: v :: vs) (keys + 1)

theorem KeysTo.pos {vs : List Value} {keys : Nat} (h : KeysTo vs keys) : 0 < keys := by
  cases h <;> exact Nat.succ_pos _

/-- Parameters with attachments behind them are keys with values when the last parameter is a key
and the count of the attachments is taken for the tag of its value. -/
theorem isEntries_later_iff {later : List Value} (hlater : writeValues .standard later = .put u)
    (ha : a.write .standard = .put z) (hsmall : z.length < 0x10000000) :
    Attachments.IsEntries n (u ++ z) ↔ ∃ keys missing rest, KeysTo later keys ∧
      n = keys + missing ∧ SkipsValue z rest ∧ Attachments.IsEntries missing rest := by
  induction n generalizing later u with
  | zero =>
      rw [Attachments.isEntries_zero_iff]
      constructor
      · exact fun h => absurd (List.append_eq_nil_iff.mp h).2 (Attachments.ne_nil_of_write ha)
      · rintro ⟨keys, missing, rest, hkeys, hn, -⟩
        have hpos := hkeys.pos
        omega
  | succ n ih =>
      have hforgetful (key : String) := (Forgetful.value .standard).bind fun v =>
        (Attachments.readEntries_forgetful .standard n).map fun entries => (key, v) :: entries
      rw [Attachments.IsEntries, Attachments.readEntries_succ]
      cases later with
      | nil =>
          obtain rfl := Emission.put_inj.mp hlater
          constructor
          · exact fun h => absurd h (Attachments.not_covers_key ha hsmall)
          · rintro ⟨keys, missing, rest, hkeys, -⟩
            cases hkeys
      | cons p later =>
          obtain ⟨b, _, hp, hrest, rfl⟩ := Emission.append_eq_put_iff.mp hlater
          rw [List.append_assoc, Attachments.covers_key_iff hp hforgetful]
          cases later with
          | nil =>
              obtain rfl := Emission.put_inj.mp hrest
              constructor
              · rintro ⟨key, rfl, h⟩
                obtain ⟨rest, hskip, hentries⟩ := (Attachments.covers_value_iff ha hsmall
                  (Attachments.readEntries_forgetful _ n)).mp h
                exact ⟨1, n, rest, .last key, Nat.add_comm n 1, hskip, hentries⟩
              · rintro ⟨_, missing, rest, ⟨key⟩, hn, hskip, hentries⟩
                obtain rfl : n = missing := by omega
                exact ⟨key, rfl, (Attachments.covers_value_iff ha hsmall
                  (Attachments.readEntries_forgetful _ n)).mpr ⟨rest, hskip, hentries⟩⟩
          | cons v later =>
              obtain ⟨b', u, hv, hlater', rfl⟩ := Emission.append_eq_put_iff.mp hrest
              simp only [List.append_assoc,
                Parse.covers_value_iff hv (Attachments.readEntries_forgetful _ n)]
              constructor
              · rintro ⟨key, rfl, h⟩
                obtain ⟨keys, missing, rest, hkeys, rfl, hskip, hentries⟩ := (ih hlater').mp h
                exact ⟨keys + 1, missing, rest, .entry key v hkeys, Nat.add_right_comm .., hskip,
                  hentries⟩
              · rintro ⟨_, missing, rest, hkeys, hn, hskip, hentries⟩
                cases hkeys with
                | @entry key _ _ keys hkeys =>
                  exact ⟨key, rfl, (ih hlater').mpr
                    ⟨keys, missing, rest, hkeys, by omega, hskip, hentries⟩⟩

/-- A single key takes the attachments for its value, and they are more. -/
theorem not_countsWith_null {later : List Value} (hlater : writeValues .standard later = .put u)
    (ha : a.write .standard = .put z) (hsmall : z.length < 0x10000000) :
    ¬ Value.null.CountsWith (u ++ z) := by
  rw [Value.countsWith_null_iff, isEntries_later_iff hlater ha hsmall]
  rintro ⟨keys, missing, rest, hkeys, hcount, hskip, hentries⟩
  have hpos := hkeys.pos
  obtain rfl : missing = 0 := by omega
  exact Attachments.ne_nil_of_skipsValue ha hskip (Attachments.isEntries_zero_iff.mp hentries)

/-! ### Bodies that are taken for others -/

/-- A number of parameters for which the parameters and attachments of a call are taken for
others. -/
inductive Mistakable (r : Request) (n : Nat) : Prop
  /-- A number behind the expected parameters is taken for the count of attachments, and its
  contents and all that is behind it for their keys and values. -/
  | number {v : Value} {later : List Value} {u z : Bytes} (h : r.parameters.drop n = v :: later)
      (hv : v.IsNumber) (hlater : writeValues .standard later = .put u)
      (hz : r.attachments.write .standard = .put z) (hcounts : v.CountsWith (u ++ z))
  /-- A truth value behind the expected parameters is taken for the count of attachments, the
  parameters behind it, up to a text, for keys with values, the count of up to three attachments for
  the last value, and these attachments for the ones that are missing. -/
  | flag {flag : Bool} {later : List Value} {keys : Nat}
      (h : r.parameters.drop n = .bool flag :: later) (hkeys : KeysTo later keys)
      (hcount : (Value.bool flag).tag.code.toNat = keys + r.attachments.size)
      (hpos : 0 < r.attachments.size)
  /-- The same, but the count of four to six attachments is taken for the tag of a number, and what
  is behind this number for the keys and values that are missing. -/
  | flagBeforeNumber {flag : Bool} {later : List Value} {keys missing : Nat} {z rest : Bytes}
      (h : r.parameters.drop n = .bool flag :: later) (hkeys : KeysTo later keys)
      (hcount : (Value.bool flag).tag.code.toNat = keys + missing) (hle : 4 ≤ r.attachments.size)
      (hle' : r.attachments.size ≤ 6) (hz : r.attachments.write .standard = .put z)
      (hskip : SkipsValue z rest) (hentries : Attachments.IsEntries missing rest)
  /-- The count of up to three attachments is taken for a parameter, some of their keys and values
  for the others that are missing, and the next value, which says how many are behind it, for the
  count of attachments. -/
  | count {i : Nat} {key : String} {v : Value} {more : Entries}
      (hn : n = r.parameters.length + 2 * i + 2) (hle : r.attachments.size ≤ 3)
      (h : r.attachments.toList.drop i = (key, v) :: more) (hv : v = .null ∨ v = .bool true)
      (hcount : v.tag.code.toNat = more.length)
  /-- The same, but the next value is a number, and its contents and all that is behind it are taken
  for keys and values. -/
  | countBeforeNumber {i : Nat} {key : String} {v : Value} {more : Entries} {tail : Bytes}
      (hn : n = r.parameters.length + 2 * i + 2) (hle : r.attachments.size ≤ 3)
      (h : r.attachments.toList.drop i = (key, v) :: more) (hv : v.IsNumber)
      (htail : Attachments.writeEntries .standard more = .put tail) (hcounts : v.CountsWith tail)
  /-- The count of four to six attachments is taken for a number, and what is behind this number for
  the other parameters that are missing and for attachments. -/
  | countAsNumber {k : Nat} {z rest : Bytes} (hn : n = r.parameters.length + k + 1)
      (hle : 4 ≤ r.attachments.size) (hle' : r.attachments.size ≤ 6)
      (hz : r.attachments.write .standard = .put z) (hskip : SkipsValue z rest)
      (htail : IsTail k rest)

section Parts

/-! The parameters and attachments of a call, read with a wrong number of parameters. -/

variable {r : Request} (hparameters : writeValues .standard r.parameters = .put w)
  (hz : r.attachments.write .standard = .put z) (hsmall : (w ++ z).length < 0x10000000)

include hparameters hsmall

/-- With too few parameters the next one is taken for the count of attachments. -/
theorem isTail_iff_countsWith (hlt : n < r.parameters.length) :
    ∃ v later u, r.parameters.drop n = v :: later ∧ writeValues .standard later = .put u ∧
      (IsTail n (w ++ z) ↔ v.CountsWith (u ++ z)) := by
  have hlength : (r.parameters.take n).length = n := List.length_take_of_le (Nat.le_of_lt hlt)
  rw [writeValues, ← List.take_append_drop n r.parameters, List.map_append,
    Emission.concat_append] at hparameters
  obtain ⟨first, _, hfirst, hrest, rfl⟩ := Emission.append_eq_put_iff.mp hparameters
  have hdrop := List.drop_eq_getElem_cons hlt
  rw [hdrop] at hrest
  obtain ⟨b, u, hv, hlater, rfl⟩ := Emission.append_eq_put_iff.mp hrest
  refine ⟨r.parameters[n], r.parameters.drop (n + 1), u, hdrop, hlater, ?_⟩
  have hsplit : IsTail _ (first ++ (b ++ (u ++ z))) ↔ IsTail 0 (b ++ (u ++ z)) :=
    isTail_append_iff hfirst
  rw [hlength, Nat.add_zero] at hsplit
  simp only [List.append_assoc, List.length_append] at hsmall ⊢
  rw [hsplit, isTail_zero_iff, Attachments.covers_read_value_iff hv]
  simp only [List.length_append]
  omega

include hz

theorem isTail_iff_of_fewer (hlt : n < r.parameters.length) :
    IsTail n (w ++ z) ↔ r.Mistakable n := by
  obtain ⟨v, later, u, hdrop, hlater, htail⟩ := isTail_iff_countsWith hparameters hsmall hlt
  have hshort : z.length < 0x10000000 := by
    rw [List.length_append] at hsmall
    omega
  rw [htail]
  constructor
  · intro hcounts
    obtain hv | rfl | ⟨flag, rfl⟩ := hcounts.isNumber_or
    · exact .number hdrop hv hlater hz hcounts
    · exact absurd hcounts (not_countsWith_null hlater hz hshort)
    · rw [Value.countsWith_bool_iff, isEntries_later_iff hlater hz hshort] at hcounts
      obtain ⟨keys, missing, rest, hkeys, hcount, hskip, hentries⟩ := hcounts
      obtain ⟨hpos, -, hall⟩ | ⟨hle, hle'⟩ := Attachments.size_of_skipsValue hz hskip
      · obtain rfl := (Attachments.isEntries_write_iff hall).mp hentries
        exact .flag hdrop hkeys hcount hpos
      · exact .flagBeforeNumber hdrop hkeys hcount hle hle' hz hskip hentries
  · intro h
    cases h with
    | number h hv hlater' hz' hcounts =>
        cases hdrop.symm.trans h
        obtain rfl := Emission.put_inj.mp (hlater.symm.trans hlater')
        obtain rfl := Emission.put_inj.mp (hz.symm.trans hz')
        exact hcounts
    | @flag flag _ keys h hkeys hcount hpos =>
        cases hdrop.symm.trans h
        have hle : r.attachments.size ≤ 3 := by
          have hcode : (Value.bool flag).tag.code.toNat ≤ 3 := by cases flag <;> decide
          omega
        obtain ⟨rest, hskip, hall⟩ := Attachments.skipsValue_of_size_le hz hpos hle
        rw [Value.countsWith_bool_iff, isEntries_later_iff hlater hz hshort]
        exact ⟨keys, _, rest, hkeys, hcount, hskip, (Attachments.isEntries_write_iff hall).mpr rfl⟩
    | flagBeforeNumber h hkeys hcount hle hle' hz' hskip hentries =>
        cases hdrop.symm.trans h
        obtain rfl := Emission.put_inj.mp (hz.symm.trans hz')
        rw [Value.countsWith_bool_iff, isEntries_later_iff hlater hz hshort]
        exact ⟨_, _, _, hkeys, hcount, hskip, hentries⟩
    | count hn => omega
    | countBeforeNumber hn => omega
    | countAsNumber hn => omega

/-- With too many parameters the count of the attachments is taken for a parameter. -/
theorem isTail_iff_skipsValue (k : Nat) :
    IsTail (r.parameters.length + k + 1) (w ++ z) ↔ ∃ rest, SkipsValue z rest ∧ IsTail k rest := by
  rw [List.length_append] at hsmall
  rw [Nat.add_assoc, isTail_append_iff hparameters, IsTail, readTail_succ,
    Attachments.covers_value_iff hz (by omega) (readTail_forgetful k)]
  rfl

omit hparameters in
/-- With up to three attachments one of their values is taken for the count of attachments. -/
theorem isTail_iff_of_skipsValue {k : Nat} {rest : Bytes} (hskip : SkipsValue z rest)
    (hall : Attachments.writeEntries .standard r.attachments.toList = .put rest) :
    IsTail k rest ↔ ∃ i key v more tail, k = 2 * i + 1 ∧
      r.attachments.toList.drop i = (key, v) :: more ∧
      Attachments.writeEntries .standard more = .put tail ∧ v.CountsWith tail := by
  have hshort : rest.length < 0x10000000 := by
    obtain ⟨t, u, rfl, -⟩ := hskip
    simp only [List.length_append, List.length_cons] at hsmall
    omega
  exact isTail_entries_iff hall hshort

theorem mistakable_of_isTail (hgt : r.parameters.length < n) (h : IsTail n (w ++ z)) :
    r.Mistakable n := by
  obtain ⟨k, rfl⟩ := Nat.exists_eq_add_of_lt hgt
  obtain ⟨rest, hskip, htail⟩ := (isTail_iff_skipsValue hparameters hz hsmall k).mp h
  obtain ⟨-, hle, hall⟩ | ⟨hle, hle'⟩ := Attachments.size_of_skipsValue hz hskip
  · obtain ⟨i, key, v, more, tail, rfl, hdrop, hmore, hcounts⟩ :=
      (isTail_iff_of_skipsValue hz hsmall hskip hall).mp htail
    have hlt := Attachments.length_lt_of_drop hdrop
    obtain hv | rfl | ⟨flag, rfl⟩ := hcounts.isNumber_or
    · exact .countBeforeNumber rfl hle hdrop hv hmore hcounts
    · rw [Value.countsWith_null_iff, Attachments.isEntries_write_iff hmore] at hcounts
      exact .count rfl hle hdrop (.inl rfl) hcounts
    · rw [Value.countsWith_bool_iff, Attachments.isEntries_write_iff hmore] at hcounts
      cases flag with
      | true => exact .count rfl hle hdrop (.inr rfl) hcounts
      | false =>
          change 3 = more.length at hcounts
          omega
  · exact .countAsNumber rfl hle hle' hz hskip htail

/-- A value of up to three attachments that is taken for the count of those behind it is met after
the values that are missing. -/
theorem isTail_of_countsWith {i : Nat} {key : String} {v : Value} {more : Entries}
    (hn : n = r.parameters.length + 2 * i + 2) (hle : r.attachments.size ≤ 3)
    (hdrop : r.attachments.toList.drop i = (key, v) :: more)
    (hcounts : ∀ tail, Attachments.writeEntries .standard more = .put tail → v.CountsWith tail) :
    IsTail n (w ++ z) := by
  have hlt := Attachments.length_lt_of_drop hdrop
  obtain ⟨rest, hskip, hall⟩ := Attachments.skipsValue_of_size_le hz (by omega) hle
  obtain ⟨tail, htail⟩ := Attachments.exists_write_of_drop hall hdrop
  rw [hn]
  refine (isTail_iff_skipsValue hparameters hz hsmall (2 * i + 1)).mpr ⟨rest, hskip, ?_⟩
  exact (isTail_iff_of_skipsValue hz hsmall hskip hall).mpr
    ⟨i, key, v, more, tail, rfl, hdrop, htail, hcounts tail htail⟩

theorem isTail_of_mistakable (hgt : r.parameters.length < n) (h : r.Mistakable n) :
    IsTail n (w ++ z) := by
  have hnil : r.parameters.drop n = [] := List.drop_eq_nil_of_le (Nat.le_of_lt hgt)
  cases h with
  | number h => cases hnil.symm.trans h
  | flag h => cases hnil.symm.trans h
  | flagBeforeNumber h => cases hnil.symm.trans h
  | count hn hle hdrop hv hcount =>
      refine isTail_of_countsWith hparameters hz hsmall hn hle hdrop fun tail htail => ?_
      have hentries := (Attachments.isEntries_write_iff htail).mpr hcount
      obtain rfl | rfl := hv
      · exact Value.countsWith_null_iff.mpr hentries
      · exact Value.countsWith_bool_iff.mpr hentries
  | countBeforeNumber hn hle hdrop hv hmore hcounts =>
      refine isTail_of_countsWith hparameters hz hsmall hn hle hdrop fun tail htail => ?_
      obtain rfl := Emission.put_inj.mp (hmore.symm.trans htail)
      exact hcounts
  | @countAsNumber k _ rest hn hle hle' hz' hskip htail =>
      obtain rfl := Emission.put_inj.mp (hz.symm.trans hz')
      rw [hn]
      exact (isTail_iff_skipsValue hparameters hz hsmall k).mpr ⟨rest, hskip, htail⟩

end Parts

/-! ### Whole bodies -/

variable {d : Dialect} {c c' : Cursor} {asked : Array String}

theorem read_eq_ok {r : Request} (h : read d n c = .ok r c') :
    ∃ t c₁ vs c₂ a c₃, Descriptor.readOptional c = .ok t c₁ ∧
      Reader.times (Parse.value d) n c₁ = .ok vs c₂ ∧ Attachments.read d c₂ = .ok a c₃ ∧
      c₃.unread = [] ∧ r = ⟨t, vs, a⟩ := by
  obtain ⟨t, c₁, ht, h⟩ := bind_eq_ok h
  obtain ⟨vs, c₂, hvs, h⟩ := bind_eq_ok h
  obtain ⟨a, c₃, ha, h⟩ := bind_eq_ok h
  obtain ⟨_, c₄, hfinish, hpure⟩ := bind_eq_ok h
  cases hpure
  exact ⟨t, c₁, vs, c₂, a, c₃, ht, hvs, ha, Parse.unread_of_finish hfinish, rfl⟩

/-- Behind the transaction of a body it is the rest that decides whether it is read. -/
theorem exists_outcome_iff {t : Option Descriptor} {x y : Bytes}
    (ht : ∀ descriptor ∈ t, descriptor.xid.WithinLimits)
    (hx : Descriptor.writeOptional t = .put x) :
    (∃ r, Reader.outcome (read .standard n) (x ++ y) = .ok r) ↔ IsTail n y := by
  have hdelimits := Descriptor.delimits_writeOptional ht hx
  constructor
  · rintro ⟨r, h⟩
    obtain ⟨_, h⟩ := outcome_eq_ok_iff.mp h
    obtain ⟨_, c₁, vs, c₂, a, c₃, ht', hvs, ha, hend, -⟩ := read_eq_ok h
    obtain ⟨-, asked, rfl⟩ := hdelimits.eq_of_read ht'
    refine ((readTail_forgetful n).covers_iff asked).mpr ⟨(vs, a), c₃, ?_, hend⟩
    rw [readTail, bind_of_ok hvs, bind_of_ok ha]
    rfl
  · intro h
    obtain ⟨asked, ht'⟩ := hdelimits.whole y #[]
    obtain ⟨_, c, hread, hend⟩ := ((readTail_forgetful n).covers_iff asked).mp h
    obtain ⟨vs, c₂, hvs, hread⟩ := bind_eq_ok hread
    obtain ⟨a, c₃, ha, hpure⟩ := bind_eq_ok hread
    cases hpure
    have hfinish : Parse.finish c = .ok () c := by
      simp only [Parse.finish, Parse.ofCodec, finish_eq_ok_iff.mpr ⟨hend, rfl⟩]
    refine ⟨⟨t, vs, a⟩, outcome_eq_ok_iff.mpr ⟨c, ?_⟩⟩
    rw [read, Cursor.start, bind_of_ok ht', bind_of_ok hvs, bind_of_ok ha, bind_of_ok hfinish]
    rfl

/-- Values are read one after the other up to what follows them. -/
theorem eq_of_read_values {vs vs' : List Value} {rest : Bytes}
    (hw : writeValues .standard vs = .put w)
    (h : Reader.times (Parse.value .standard) vs.length ⟨w ++ rest, asked⟩ = .ok vs' c) :
    vs' = vs ∧ ∃ asked', c = ⟨rest, asked'⟩ := by
  have hdelimits := Delimits.times (fun v _ _ hu => Parse.delimits_value
    KnownValues.protocolV1_coherent (Resolver.plain_restores v) hu) hw
  exact hdelimits.eq_of_read h

/-- As far as there are parameters, they are the ones that are read. -/
theorem take_of_read {parameters vs : List Value}
    (hparameters : writeValues .standard parameters = .put w)
    (hvs : Reader.times (Parse.value .standard) n ⟨w ++ z, asked⟩ = .ok vs c) :
    vs.take parameters.length = parameters.take n := by
  rcases Nat.le_total n parameters.length with hle | hle
  · have hlength : (parameters.take n).length = n := List.length_take_of_le hle
    rw [writeValues, ← List.take_append_drop n parameters, List.map_append,
      Emission.concat_append] at hparameters
    obtain ⟨first, rest, hfirst, -, rfl⟩ := Emission.append_eq_put_iff.mp hparameters
    rw [← hlength, List.append_assoc] at hvs
    obtain ⟨rfl, -⟩ := eq_of_read_values hfirst hvs
    exact List.take_of_length_le (List.length_take_le' _ _)
  · obtain ⟨k, rfl⟩ := Nat.exists_eq_add_of_le hle
    obtain ⟨first, c₁, more, hfirst, -, rfl⟩ := times_add_eq_ok hvs
    obtain ⟨rfl, -⟩ := eq_of_read_values hparameters hfirst
    rw [List.take_left, List.take_of_length_le hle]

/-- A body of less than 2^28 bytes that is read with a wrong number of parameters is refused exactly
if the parameters and attachments are not taken for others. Whatever is read for a body has the same
transaction, the expected number of parameters, and the same parameters as far as there are any. -/
theorem refused_unless_mistakable {r : Request} {b : Bytes} {n : Nat}
    (ht : ∀ t ∈ r.transaction, t.xid.WithinLimits) (hw : (r.write .standard).result = .ok b)
    (hn : n ≠ r.parameters.length) :
    (b.length < 0x10000000 →
      ((∃ e, Reader.outcome (read .standard n) b = .error e) ↔ ¬ r.Mistakable n)) ∧
    ∀ r', Reader.outcome (read .standard n) b = .ok r' →
      r'.transaction = r.transaction ∧ r'.parameters.length = n ∧
        r'.parameters.take r.parameters.length = r.parameters.take n := by
  obtain ⟨_, z, hbody, hz, rfl⟩ :=
    Emission.append_eq_put_iff.mp (Emission.result_eq_ok_iff.mp hw)
  obtain ⟨x, w, hx, hparameters, rfl⟩ := Emission.append_eq_put_iff.mp hbody
  rw [List.append_assoc]
  constructor
  · intro hsmall
    rw [List.length_append] at hsmall
    have hrest := Nat.lt_of_le_of_lt (Nat.le_add_left _ _) hsmall
    have hmistaken : IsTail n (w ++ z) ↔ r.Mistakable n := by
      rcases Nat.lt_or_gt_of_ne hn with hlt | hgt
      · exact isTail_iff_of_fewer hparameters hz hrest hlt
      · exact ⟨mistakable_of_isTail hparameters hz hrest hgt,
          isTail_of_mistakable hparameters hz hrest hgt⟩
    rw [← hmistaken, ← exists_outcome_iff ht hx]
    cases Reader.outcome (read .standard n) (x ++ (w ++ z)) with
    | ok r' => simp
    | error e => simp
  · intro r' h
    obtain ⟨_, h⟩ := outcome_eq_ok_iff.mp h
    obtain ⟨t, c₁, vs, c₂, a, c₃, ht', hvs, -, -, rfl⟩ := read_eq_ok h
    obtain ⟨rfl, asked, rfl⟩ := (Descriptor.delimits_writeOptional ht hx).eq_of_read ht'
    exact ⟨rfl, length_of_times hvs, take_of_read hparameters hvs⟩

/-- A call outside a transaction has no identifier that could be out of bounds. -/
theorem withinLimits_of_local {r : Request} (h : r.transaction = none) :
    ∀ t ∈ r.transaction, t.xid.WithinLimits :=
  fun t ht => (Option.not_mem_none t (h ▸ ht)).elim

/-- What is written for a call is read with the number of its parameters. -/
theorem outcome_of_write {r : Request} {b : Bytes}
    (ht : ∀ t ∈ r.transaction, t.xid.WithinLimits) (ha : r.attachments.Built)
    (hw : (r.write .standard).result = .ok b) :
    Reader.outcome (read .standard r.parameters.length) b = .ok r :=
  (framed_write KnownValues.protocolV1_coherent ht ha.indexed
    (fun v _ => Resolver.plain_restores v) (fun e _ => Resolver.plain_restores e.2)
    (Emission.result_eq_ok_iff.mp hw)).whole

/-- A greeting with a number, in a transaction and with two attachments, is refused with any other
number of parameters up to three. -/
theorem miscounted_greeting_refused :
    let r : Request := ⟨some ⟨⟨0x4a42, [1, 2], [3]⟩, 60⟩, [.text "Hello", .int 3],
      .ofList [("tenant", .text "acme"), (KnownValues.returnedKeys, .list [.text "tenant"])]⟩
    let b : Bytes := [1, 0, 0, 74, 66, 0, 0, 0, 2, 1, 2, 0, 0, 0, 1, 3, 0, 0, 0, 60] ++
      [16, 0, 0, 0, 5, 72, 101, 108, 108, 111, 4, 0, 0, 0, 3] ++
      [2, 16, 0, 0, 0, 6, 116, 101, 110, 97, 110, 116, 16, 0, 0, 0, 4, 97, 99, 109, 101] ++
      [64, 2, 32, 0, 0, 0, 1, 16, 0, 0, 0, 6, 116, 101, 110, 97, 110, 116]
    (r.write .standard).result = .ok b ∧
      ∀ n ∈ [0, 1, 3], ∃ e, Reader.outcome (read .standard n) b = .error e := by
  intro r b
  have hw : (r.write .standard).result = .ok b := by
    rw [write, Attachments.write_ofList (by decide)]
    rfl
  have hsize : r.attachments.size = 2 :=
    congrArg List.length (Attachments.toList_insertAll Attachments.empty_indexed (by decide)).2
  have hlimits : ∀ t ∈ r.transaction, t.xid.WithinLimits := by
    rintro t ht
    obtain rfl := Option.some.inj ht
    exact ⟨by decide, by decide⟩
  refine ⟨hw, fun n hn => ?_⟩
  have hwrong : n ≠ r.parameters.length ∧ n ≤ 3 := by
    revert n
    decide
  refine ((refused_unless_mistakable hlimits hw hwrong.1).1 (by decide)).mpr fun h => ?_
  have hmem {v : Value} {later : List Value} (h : r.parameters.drop n = v :: later) :
      v = .text "Hello" ∨ v = .int 3 := by
    have hv : v ∈ r.parameters := List.mem_of_mem_drop (h ▸ List.mem_cons_self)
    simpa [r] using hv
  have hflag (flag : Bool) : ¬ (Value.bool flag = .text "Hello" ∨ Value.bool flag = .int 3) := by
    rintro (h | h) <;> cases h
  have hlength : r.parameters.length = 2 := rfl
  cases h with
  | number h hv _ _ hcounts =>
      obtain rfl | rfl := hmem h
      · exact hv
      · have hw : Wire.value .standard (.int 3) = .put (Tag.int.code :: [0, 0, 0, 3]) := rfl
        obtain ⟨y, l, hy, hkey⟩ := hcounts.startsKey hw
        cases hy
        exact absurd hkey (by decide)
  | flag h => exact hflag _ (hmem h)
  | flagBeforeNumber h => exact hflag _ (hmem h)
  | count hn => omega
  | countBeforeNumber hn => omega
  | countAsNumber _ hle => omega

/-- Two calls of which one has two parameters and the other none are written as the same bytes, so
that each is read for the other with the other number of parameters; so are two calls of which one
has a number as its first parameter. -/
theorem miscounted_taken_for_other_call :
    let flag : Request := ⟨none, [.bool true, .text "k"], .ofList [("a", .null)]⟩
    let count : Request := ⟨none, [], .ofList [("k", .null), ("a", .null)]⟩
    let b : Bytes := [0, 2, 16, 0, 0, 0, 1, 107, 1, 16, 0, 0, 0, 1, 97, 1]
    let number : Request := ⟨none, [.int 0x10000000, .null, .null],
      .ofList [("a", .null), ("b", .null), ("c", .null)]⟩
    let other : Request := ⟨none, [],
      .ofList [("\x01", .bool false), ("a", .null), ("b", .null), ("c", .null)]⟩
    let b' : Bytes := [0, 4, 16, 0, 0, 0, 1, 1, 3, 16, 0, 0, 0, 1, 97, 1, 16, 0, 0, 0, 1, 98, 1, 16,
      0, 0, 0, 1, 99, 1]
    ((flag.write .standard).result = .ok b ∧ Reader.outcome (read .standard 0) b = .ok count) ∧
      ((count.write .standard).result = .ok b ∧ Reader.outcome (read .standard 2) b = .ok flag) ∧
      (number.write .standard).result = .ok b' ∧
      Reader.outcome (read .standard 0) b' = .ok other := by
  intro flag count b number other b'
  have hflag : (flag.write .standard).result = .ok b := by
    rw [write, Attachments.write_ofList (by decide)]
    rfl
  have hcount : (count.write .standard).result = .ok b := by
    rw [write, Attachments.write_ofList (by decide)]
    rfl
  have hnumber : (number.write .standard).result = .ok b' := by
    rw [write, Attachments.write_ofList (by decide)]
    rfl
  have hother : (other.write .standard).result = .ok b' := by
    rw [write, Attachments.write_ofList (by decide)]
    rfl
  refine ⟨⟨hflag, ?_⟩, ⟨hcount, ?_⟩, hnumber, ?_⟩
  · exact outcome_of_write (r := count) (withinLimits_of_local rfl) (.ofList _) hcount
  · exact outcome_of_write (r := flag) (withinLimits_of_local rfl) (.ofList _) hflag
  · exact outcome_of_write (r := other) (withinLimits_of_local rfl) (.ofList _) hother

/-- A block of bytes is taken for attachments when its length starts as a key does. -/
theorem great_block_taken_for_attachments :
    ∃ (r other : Request) (b : Bytes), (r.write .standard).result = .ok b ∧
      r.parameters.length = 1 ∧ ¬ r.Mistakable 0 ∧
      Reader.outcome (read .standard 0) b = .ok other := by
  obtain ⟨filler, hfiller⟩ : ∃ filler : Bytes, filler.length = 0x0fffff89 :=
    ⟨List.replicate 0x0fffff89 0, List.length_replicate⟩
  let names : List String :=
    ["a", "b", "c", "d", "e", "f", "g", "h", "i", "j", "k", "l", "m", "n", "o", "p"]
  let entries : List (String × Value) := names.map fun key => (key, .null)
  let last : String × Value := ("q", .bytes (filler ++ [0]))
  let put (e : String × Value) : Wire :=
    Wire.value .standard (.text e.1) ++ Wire.value .standard e.2
  let nulls : Bytes := (List.range 15).flatMap fun i => [16, 0, 0, 0, 1, UInt8.ofNat (98 + i), 1]
  let front : Bytes := [1, 97, 1] ++ (nulls ++ [16, 0, 0, 0, 1, 113, 17, 15, 255, 255, 138])
  have hblock {c : Bytes} (hc : c.length < 0x100000000) :
      Wire.value .standard (.bytes c) = .put (17 :: (Bytes.ofNat 4 c.length ++ c)) := by
    change Emission.mapError _ (putTag .bytes ++ putBlock c) = _
    rw [putBlock_eq_put_iff.mpr ⟨hc, rfl⟩]
    rfl
  have hfront : front.length = 119 := by decide
  have hlength : (front ++ filler).length = 0x10000000 := by
    rw [List.length_append, hfront, hfiller]
  have hlength' : (filler ++ [0]).length = 0x0fffff8a := by
    rw [List.length_append, hfiller, List.length_singleton]
  have hvalue : Wire.value .standard (.bytes (front ++ filler)) =
      .put ([17, 16, 0, 0, 0] ++ (front ++ filler)) := by
    rw [hblock (by rw [hlength]; decide), hlength]
    rfl
  have hlast : put last = .put ([16, 0, 0, 0, 1, 113, 17, 15, 255, 255, 138] ++ (filler ++ [0])) := by
    have hkey : Wire.value .standard (.text "q") = .put [16, 0, 0, 0, 1, 113] := rfl
    have hcount : Bytes.ofNat 4 0x0fffff8a = [15, 255, 255, 138] := by decide
    change Wire.value .standard (.text "q") ++ Wire.value .standard (.bytes (filler ++ [0])) = _
    rw [hblock (by rw [hlength']; decide), hlength', hkey, hcount]
    rfl
  have hentries : Emission.concat (entries.map put) =
      .put ([16, 0, 0, 0, 1, 97, 1] ++ nulls) := by
    rfl
  have hnodup : ((entries ++ [last]).map Prod.fst).Nodup := by
    rw [List.map_append]
    change (names ++ ["q"]).Nodup
    decide
  have hattachments : (Attachments.ofList (entries ++ [last])).write .standard =
      .put ([17, 16, 0, 0, 0] ++ (front ++ filler ++ [0])) := by
    rw [Attachments.write_ofList hnodup]
    change Emission.put [17] ++ Emission.concat ((entries ++ [last]).map put) = _
    rw [List.map_append, Emission.concat_append, hentries, List.map_singleton,
      Emission.concat_cons, hlast]
    simp [front]
  let r : Request := ⟨none, [.bytes (front ++ filler)], ∅⟩
  let other : Request := ⟨none, [], .ofList (entries ++ [last])⟩
  have hr : (r.write .standard).result =
      .ok ([0] ++ [17, 16, 0, 0, 0] ++ (front ++ filler ++ [0])) := by
    have hempty : (∅ : Attachments).write .standard = .put [0] := rfl
    rw [write, List.map_singleton, Emission.concat_cons, hvalue, hempty]
    change Except.ok ([0] ++ ([17, 16, 0, 0, 0] ++ (front ++ filler) ++ []) ++ [0]) = _
    simp only [List.append_assoc, List.append_nil]
  have hother : (other.write .standard).result =
      .ok ([0] ++ [17, 16, 0, 0, 0] ++ (front ++ filler ++ [0])) := by
    rw [write, hattachments]
    rfl
  refine ⟨r, other, _, hr, rfl, fun h => ?_, ?_⟩
  · cases h with
    | number h hv =>
        cases h
        exact hv.elim
    | flag h => cases h
    | flagBeforeNumber h => cases h
    | count hn => cases hn
    | countBeforeNumber hn => cases hn
    | countAsNumber hn => cases hn
  · exact outcome_of_write (r := other) (withinLimits_of_local rfl) (.ofList _) hother

end Invocation.Request

end RemoteCall
