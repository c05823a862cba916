import RemoteCall.MediaType
import RemoteCall.Proofs.Text.Trimmed

/-!
# Media types settle when they are read

What is read from a header is in a normal form: a type in small letters, without white space around
it and without a semicolon, and the last version that the header gives. Such a media type is read
back from its own text. So every header may be replaced by the text of what it names, and exactly
those types survive their text that need no more than the folding of letters.
-/

namespace RemoteCall

namespace Text

/-- A run of digits below the limit is read as the number that it stands for. -/
theorem foldlM_addDigit? {limit : Nat} {cs : List Char} (hdigits : ∀ c ∈ cs, c.isDigit = true)
    (n : Nat) (hlimit : Nat.ofDigitChars 10 cs n < limit) :
    cs.foldlM (addDigit? limit) n = some (Nat.ofDigitChars 10 cs n) := by
  induction cs generalizing n with
  | nil => rfl
  | cons c cs ih =>
      obtain ⟨hc, hcs⟩ := List.forall_mem_cons.mp hdigits
      rw [Nat.ofDigitChars_cons] at hlimit ⊢
      -- digits that follow only make a number larger
      have hgrows : 10 * n + (c.toNat - '0'.toNat) ≤
          Nat.ofDigitChars 10 cs (10 * n + (c.toNat - '0'.toNat)) := by
        rw [Nat.ofDigitChars_eq_ofDigitChars_zero]
        exact Nat.le_add_right_of_le (Nat.le_mul_of_pos_left _ (Nat.pow_pos (by decide)))
      have hnext : addDigit? limit n c = some (10 * n + (c.toNat - '0'.toNat)) := by
        simp only [addDigit?, hc, Bool.true_and, decide_eq_true_eq]
        rw [if_pos (Nat.lt_of_le_of_lt hgrows hlimit)]
      rw [List.foldlM_cons, hnext]
      exact ih hcs _ hlimit

theorem isDigit_of_mem_toString {n : Nat} {c : Char} (h : c ∈ (toString n).toList) :
    c.isDigit = true := by
  rw [Nat.toString_eq_ofList_toDigits, String.toList_ofList] at h
  exact Nat.isDigit_of_mem_toDigits (by decide) (by decide) h

/-- A digit is taken neither for white space nor for a quote. -/
theorem plain_of_isDigit {c : Char} (h : c.isDigit = true) :
    isBlank c = false ∧ (c == '"') = false := by
  simp only [Char.isDigit, Bool.and_eq_true, decide_eq_true_eq] at h
  have hlow : 48 ≤ c.toNat := UInt32.le_iff_toNat_le.mp h.1
  have hhigh : c.toNat ≤ 57 := UInt32.le_iff_toNat_le.mp h.2
  constructor
  · simp only [isBlank, Bool.or_eq_false_iff, Bool.and_eq_false_iff, decide_eq_false_iff_not,
      beq_eq_false_iff_ne]
    omega
  · rw [beq_eq_false_iff_ne]
    rintro rfl
    exact absurd hlow (by decide)

/-- The numeral of a word is read as that word. -/
theorem word?_toString (n : UInt32) : word? (toString n.toNat).toList = some n := by
  have hdigits : ∀ c ∈ (toString n.toNat).toList, c.isDigit = true := fun c =>
    isDigit_of_mem_toString
  have hvalue : Nat.ofDigitChars 10 (toString n.toNat).toList 0 = n.toNat := by
    rw [Nat.toString_eq_ofList_toDigits, String.toList_ofList, Nat.ofDigitChars_ten_toDigits]
  have hne : (toString n.toNat).toList ≠ [] := by
    rw [Nat.toString_eq_ofList_toDigits, String.toList_ofList]
    exact Nat.toDigits_ne_nil
  have hbound : Nat.ofDigitChars 10 (toString n.toNat).toList 0 < 0x100000000 := by
    rw [hvalue]
    exact n.toNat_lt
  have hfold := foldlM_addDigit? hdigits 0 hbound
  rw [hvalue] at hfold
  obtain ⟨c, cs, hcs⟩ := List.exists_cons_of_ne_nil hne
  rw [hcs] at hdigits hfold ⊢
  have hsign : c ≠ '+' := by
    rintro rfl
    exact absurd (hdigits _ List.mem_cons_self) (by decide)
  have hunsigned : word? (c :: cs) = (digits? 0x100000000 (c :: cs)).map UInt32.ofNat := by
    unfold word?
    split
    · next rest h => exact absurd (List.cons.inj h).1 hsign
    · rfl
  rw [hunsigned, digits?, hfold]
  · exact congrArg some (UInt32.ofNat_toNat)
  · exact (List.cons_ne_nil _ _)

end Text

namespace MediaType

/-- A media type as headers name it. -/
structure Normal (m : MediaType) : Prop where
  slash : '/' ∈ m.name.toList
  single : ';' ∉ m.name.toList
  trimmed : Text.trim m.name.toList = m.name.toList
  folded : Text.fold m.name.toList = m.name.toList

variable {m : MediaType} {header name : String} {version : UInt32}

theorem parse_eq_ok_iff : parse header = .ok m ↔ parse? header.toList = some m := by
  unfold parse
  split
  · next m' h => rw [h, Except.ok.injEq, Option.some.injEq]
  · next h => simp [h]

/-- The name in a header is what stands before its first semicolon. -/
theorem parse?_eq_some (h : parse? header.toList = some m) :
    ∃ part ∈ Text.split ';' header.toList, '/' ∈ Text.trim part ∧
      m.name = String.ofList (Text.fold (Text.trim part)) := by
  unfold parse? at h
  split at h
  · cases h
  · next part parameters hsplit =>
    dsimp only at h
    split at h
    · next hslash =>
      obtain ⟨version, -, rfl⟩ := Option.map_eq_some_iff.mp h
      exact ⟨part, hsplit ▸ List.mem_cons_self, hslash, rfl⟩
    · cases h

theorem normal_of_parse (h : parse header = .ok m) : m.Normal := by
  obtain ⟨part, hpart, hslash, hname⟩ := parse?_eq_some (parse_eq_ok_iff.mp h)
  have hsingle : ';' ∉ Text.trim part := fun hmem =>
    (Text.mem_of_mem_split hpart ((Text.isInfix_strip _ part).subset hmem)).2 rfl
  constructor
  · rwa [hname, String.toList_ofList, Text.mem_fold_iff (by decide) (by decide)]
  · rwa [hname, String.toList_ofList, Text.mem_fold_iff (by decide) (by decide)]
  · rw [hname, String.toList_ofList, Text.trim_fold]
    exact congrArg Text.fold (Text.strip_strip _ part)
  · rw [hname, String.toList_ofList, Text.fold_fold]

/-- The version that is written behind a type is the one that is read. -/
theorem versionOf?_written (version : UInt32) :
    versionOf? ("version=".toList ++ (toString version.toNat).toList) = some (some version) := by
  have hkeyed : '=' ∉ "version".toList := by decide
  have hcut : Text.cut '=' ("version=".toList ++ (toString version.toNat).toList) =
      some ("version".toList, (toString version.toNat).toList) :=
    Text.cut_append hkeyed _
  have hdigits : ∀ c ∈ (toString version.toNat).toList,
      Text.isBlank c = false ∧ (c == '"') = false := fun c hc =>
    Text.plain_of_isDigit (Text.isDigit_of_mem_toString hc)
  have htrim : Text.trim (toString version.toNat).toList = (toString version.toNat).toList :=
    Text.strip_eq_self_iff.mpr ⟨fun c hc => (hdigits c (List.mem_of_mem_head? hc)).1,
      fun c hc => (hdigits c (List.mem_of_mem_getLast? hc)).1⟩
  have hstrip : Text.strip (· == '"') (toString version.toNat).toList =
      (toString version.toNat).toList :=
    Text.strip_eq_self_iff.mpr ⟨fun c hc => (hdigits c (List.mem_of_mem_head? hc)).2,
      fun c hc => (hdigits c (List.mem_of_mem_getLast? hc)).2⟩
  have hkey : Text.sameFolded (Text.trim "version".toList) "version".toList = true := by decide
  simp only [versionOf?, hcut, hkey, if_true, htrim, hstrip, Text.word?_toString]

/-- A type that loses nothing when it is read comes back from its text with small letters. -/
theorem parse_text (hslash : '/' ∈ name.toList) (hsingle : ';' ∉ name.toList)
    (htrimmed : Text.trim name.toList = name.toList) :
    parse (MediaType.text ⟨name, version⟩) =
      .ok ⟨String.ofList (Text.fold name.toList), version⟩ := by
  have htext : (MediaType.text ⟨name, version⟩).toList =
      name.toList ++ ';' :: ("version=".toList ++ (toString version.toNat).toList) := by
    have hfront : ";version=".toList = ';' :: "version=".toList := by decide
    rw [MediaType.text, String.toList_append, String.toList_append, hfront, List.append_assoc,
      List.cons_append]
  have hlast : ';' ∉ "version=".toList ++ (toString version.toNat).toList := by
    rw [List.mem_append, not_or]
    exact ⟨by decide, fun h => absurd (Text.isDigit_of_mem_toString h) (by decide)⟩
  rw [parse_eq_ok_iff, htext, parse?, Text.split_append hsingle, Text.split_of_not_mem hlast]
  dsimp only
  rw [htrimmed, if_pos hslash, lastVersion, versionOf?_written]
  rfl

/-- A media type in normal form is read back from its text. -/
theorem Normal.parse_text (h : m.Normal) : parse m.text = .ok m := by
  obtain ⟨name, version⟩ := m
  have hparse : parse (MediaType.text ⟨name, version⟩) =
      .ok ⟨String.ofList (Text.fold name.toList), version⟩ :=
    MediaType.parse_text h.slash h.single h.trimmed
  rwa [h.folded, String.ofList_toList] at hparse

/-- A header is expected exactly when what it names agrees. -/
theorem expect_eq_ok_iff {e : MediaType} (h : parse header = .ok m) :
    e.expect (some header) = .ok () ↔ e.agrees m = true := by
  simp only [expect, h]
  change (if e.agrees m = true then Except.ok () else _) = _ ↔ _
  split
  · next hagrees => simp [hagrees]
  · next hagrees => simp [hagrees]

theorem agrees_iff {a b : MediaType} :
    a.agrees b = true ↔ Text.fold a.name.toList = Text.fold b.name.toList ∧
      a.version = b.version := by
  simp only [agrees, Bool.and_eq_true, Text.sameFolded_iff, beq_iff_eq]

/-- What a header names is read back from its text, and whatever expects the one expects the other.
A type with a version is read back from its text, up to the case of letters, exactly when it has a
slash, no semicolon, and no white space around it. -/
theorem parse_settles :
    (∀ header m, parse header = .ok m → parse m.text = .ok m ∧
      ∀ e : MediaType, e.expect (some header) = .ok () ↔ e.expect (some m.text) = .ok ()) ∧
    ∀ name version,
      (∃ m, parse (MediaType.text ⟨name, version⟩) = .ok m ∧ m.agrees ⟨name, version⟩ = true) ↔
        '/' ∈ name.toList ∧ ';' ∉ name.toList ∧
          (∀ c ∈ name.toList.head?, Text.isBlank c = false) ∧
          ∀ c ∈ name.toList.getLast?, Text.isBlank c = false := by
  refine ⟨fun header m h => ?_, fun name version => ⟨?_, ?_⟩⟩
  · have hagain := (normal_of_parse h).parse_text
    exact ⟨hagain, fun e => by rw [expect_eq_ok_iff h, expect_eq_ok_iff hagain]⟩
  · rintro ⟨m, hparse, hagrees⟩
    have hnormal := normal_of_parse hparse
    have hfold : Text.fold name.toList = m.name.toList := by
      rw [← (agrees_iff.mp hagrees).1, hnormal.folded]
    have hslash := hnormal.slash
    have hsingle := hnormal.single
    rw [← hfold, Text.mem_fold_iff (by decide) (by decide)] at hslash hsingle
    refine ⟨hslash, hsingle, Text.strip_eq_self_iff.mp ?_⟩
    -- folding keeps the number of characters, so nothing was taken off the type either
    have hlength : (Text.trim name.toList).length = name.toList.length := by
      have htrimmed := hnormal.trimmed
      rw [← hfold, Text.trim_fold] at htrimmed
      simpa [Text.fold] using congrArg List.length htrimmed
    exact (Text.isInfix_strip _ _).eq_of_length hlength
  · rintro ⟨hslash, hsingle, htrimmed⟩
    refine ⟨_, parse_text hslash hsingle (Text.strip_eq_self_iff.mpr htrimmed), ?_⟩
    rw [agrees_iff, String.toList_ofList, Text.fold_fold]
    exact ⟨rfl, rfl⟩

/-- The last version counts, and quotes, spaces and other parameters do not. What is left of them is
read back as it is. -/
theorem parse_settles_loose_header :
    let header := " Text/Plain ; version=3; q=1 ;VERSION = \"+7\" "
    parse header = .ok ⟨"text/plain", 7⟩ ∧
      parse (MediaType.text ⟨"text/plain", 7⟩) = .ok ⟨"text/plain", 7⟩ ∧
      ∀ e : MediaType, e.expect (some header) = .ok () ↔
        e.expect (some (MediaType.text ⟨"text/plain", 7⟩)) = .ok () := by
  intro header
  have hparse : parse header = .ok ⟨"text/plain", 7⟩ := by decide
  exact ⟨hparse, parse_settles.1 header _ hparse⟩

end MediaType

end RemoteCall
