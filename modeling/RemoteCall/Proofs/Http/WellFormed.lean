import RemoteCall.Proofs.Http.Target

/-!
# Targets that their texts tell

The path and the query of a target that was read consist of characters that may stand there, and
together they are no longer than a target may be, also with a slash in place of no path. A target of
this form that begins with a slash is read back of its own text; and what is left of the path behind
a prefix gives a target of this form again, with a slash if nothing is left.
-/

namespace RemoteCall.Http.Uri

variable {u : Uri} {cs : List Char}

/-- A target that can be told from the text of its path and its query. -/
structure WellFormed (u : Uri) : Prop where
  path_chars : ∀ c ∈ u.path.toList, isPathChar c = true
  query_chars : ∀ q ∈ u.query, ∀ c ∈ q.toList, isQueryChar c = true
  size_le : (text ⟨none, if u.path = "" then "/" else u.path, u.query⟩).utf8ByteSize ≤ maxSize

theorem uncut_of_isPathChar (h : ∀ c ∈ cs, isPathChar c = true) : Uncut cs := by
  intro c hc
  cases hend : endsPath c with
  | false => rfl
  | true =>
      have hmark : c = '?' ∨ c = '#' := by simpa [endsPath] using hend
      have hchar := h c hc
      rcases hmark with rfl | rfl
      · exact absurd hchar (by decide)
      · exact absurd hchar (by decide)

/-- A path and a query that are put together are taken apart again. -/
theorem beforeQuery_append_query (h : Uncut cs) (q : Option (List Char)) :
    beforeQuery (cs ++ marked q) = cs := by
  have hmarked : beforeQuery (marked q) = [] := by
    cases q <;> rfl
  rw [beforeQuery_append h, hmarked, List.append_nil]

theorem queryOf_append_query (h : Uncut cs) {q : Option (List Char)} (hq : ∀ cs ∈ q, '#' ∉ cs) :
    queryOf (cs ++ marked q) = q := by
  rw [queryOf_append h]
  cases q with
  | none => rfl
  | some cs => exact congrArg some (beforeFragment_eq_self (hq cs rfl))

/-- A text has as many bytes as the two parts into which it is cut. -/
theorem size_cut (p : Char → Bool) (cs : List Char) :
    (String.ofList cs).utf8ByteSize =
      (String.ofList (cs.takeWhile p)).utf8ByteSize +
        (String.ofList (cs.dropWhile p)).utf8ByteSize := by
  rw [← String.utf8ByteSize_append, ← String.ofList_append, List.takeWhile_append_dropWhile]

/-- What is shown of a target is no longer than its text, but for a slash for an empty path. -/
theorem size_text_behind_le (cs : List Char) :
    (text (behind none cs)).utf8ByteSize ≤
      (if beforeQuery cs = [] then 1 else 0) + (String.ofList cs).utf8ByteSize := by
  have htext : text (behind none cs) =
      String.ofList (if beforeQuery cs = [] then ['/'] else []) ++
        String.ofList (beforeFragment cs) := by
    rw [← String.toList_inj, text_behind, ← String.ofList_append, String.toList_ofList]
    rfl
  have hslash : (String.ofList (if beforeQuery cs = [] then ['/'] else [])).utf8ByteSize =
      if beforeQuery cs = [] then 1 else 0 := by
    split <;> decide
  have hcut := size_cut (· != '#') cs
  rw [htext, String.utf8ByteSize_append, hslash, beforeFragment]
  omega

theorem path_behind_ne_empty (authority : Option String) (cs : List Char) :
    (behind authority cs).path ≠ "" := by
  unfold behind
  dsimp only
  split
  · decide
  · next hpath => rwa [ne_eq, String.ofList_eq_empty_iff]

theorem wellFormed_behind {authority : Option String} (h : Allowed cs)
    (hsize : (text (behind none cs)).utf8ByteSize ≤ maxSize) :
    (behind authority cs).WellFormed where
  path_chars := by
    intro c hc
    unfold behind at hc
    dsimp only at hc
    split at hc
    · obtain rfl := List.mem_singleton.mp hc
      decide
    · rw [String.toList_ofList] at hc
      exact h.1 c hc
  query_chars := by
    intro q hq c hc
    obtain ⟨cs', hcs', rfl⟩ := Option.map_eq_some_iff.mp hq
    rw [String.toList_ofList] at hc
    exact h.2 cs' hcs' c hc
  size_le := by
    rw [if_neg (path_behind_ne_empty authority cs)]
    exact hsize

/-- What is read behind a scheme leaves room for the slash of an empty path. -/
theorem wellFormed_of_parseAuthority {scheme : String} {written rest : List Char}
    (hwritten : written ≠ []) (hsize : (String.ofList (written ++ rest)).utf8ByteSize ≤ maxSize)
    (h : parseAuthority scheme rest = .ok u) : u.WellFormed := by
  have hpos : 0 < (String.ofList written).utf8ByteSize := by
    rw [Nat.pos_iff_ne_zero, ne_eq, String.utf8ByteSize_eq_zero_iff, String.ofList_eq_empty_iff]
    exact hwritten
  obtain ⟨-, -, hpath⟩ := parseAuthority_eq_ok_iff.mp h
  obtain ⟨hallowed, rfl⟩ := parsePath_eq_ok_iff.mp hpath
  have hcut := size_cut (fun c => !endsAuthority c) rest
  have hle := size_text_behind_le (rest.dropWhile fun c => !endsAuthority c)
  rw [String.ofList_append, String.utf8ByteSize_append] at hsize
  apply wellFormed_behind hallowed
  split at hle <;> omega

theorem ne_nil_of_fold_eq {written scheme : List Char} (hscheme : scheme ≠ [])
    (h : Text.fold written = Text.fold scheme) : written ≠ [] := by
  rintro rfl
  exact hscheme (List.map_eq_nil_iff.mp h.symm)

/-- Every target that was read of a text is well formed. -/
theorem wellFormed_of_parse {s : String} (h : parse s = .ok u) : u.WellFormed := by
  unfold parse at h
  split at h
  · cases h
  · next hsize =>
    have hlist : (String.ofList s.toList).utf8ByteSize ≤ maxSize := by
      rw [String.ofList_toList]
      omega
    split at h
    · cases h
    · cases h
      refine ⟨fun c hc => ?_, fun q hq => (nomatch hq), by decide⟩
      obtain rfl := List.mem_singleton.mp hc
      decide
    · next rest hs =>
      obtain ⟨hallowed, rfl⟩ := parsePath_eq_ok_iff.mp h
      have hle := size_text_behind_le ('/' :: rest)
      rw [beforeQuery_slash, if_neg (List.cons_ne_nil _ _), ← hs] at hle
      rw [← hs] at hallowed ⊢
      exact wellFormed_behind hallowed (by omega)
    · split at h
      · next hafter =>
        obtain ⟨written, hs, hfold⟩ := eq_of_afterScheme? hafter
        rw [hs] at hlist
        exact wellFormed_of_parseAuthority (ne_nil_of_fold_eq (by decide) hfold) hlist h
      · next hafter =>
        obtain ⟨written, hs, hfold⟩ := eq_of_afterScheme? hafter
        rw [hs] at hlist
        exact wellFormed_of_parseAuthority (ne_nil_of_fold_eq (by decide) hfold) hlist h
      · next scheme rest _ _ hscheme =>
        split at h
        · cases h
        · rw [(eq_of_splitScheme? hscheme).1] at hlist
          exact wellFormed_of_parseAuthority (by simp) hlist h
      · obtain ⟨-, -, rfl⟩ := parseBare_eq_ok_iff.mp h
        have hslash : (text ⟨none, "/", none⟩).utf8ByteSize ≤ maxSize := by decide
        exact ⟨List.forall_mem_nil _, fun q hq => (nomatch hq), hslash⟩

/-- A well-formed target without an authority is read of its text, if its path begins with a
slash. -/
theorem parse_text (h : u.WellFormed) (hnone : u.authority = none) {more : List Char}
    (hslash : u.path.toList = '/' :: more) : parse u.text = .ok u := by
  obtain ⟨authority, path, query⟩ := u
  obtain rfl : authority = none := hnone
  obtain ⟨hpath, hquery, hsize⟩ := h
  dsimp only at hslash hpath hquery hsize
  have hne : path ≠ "" := by
    rintro rfl
    cases hslash
  rw [if_neg hne] at hsize
  have huncut : Uncut ('/' :: more) := hslash ▸ uncut_of_isPathChar hpath
  have hmark : ∀ cs ∈ query.map String.toList, '#' ∉ cs := by
    intro cs hcs hmem
    obtain ⟨q, hq, rfl⟩ := Option.map_eq_some_iff.mp hcs
    exact absurd (hquery q hq _ hmem) (by decide)
  have hlist : text ⟨none, path, query⟩ =
      String.ofList ('/' :: (more ++ marked (query.map String.toList))) := by
    rw [← String.toList_inj, toList_text, String.toList_ofList, ← List.cons_append, ← hslash]
    rfl
  have hbefore : beforeQuery ('/' :: (more ++ marked (query.map String.toList))) = '/' :: more :=
    beforeQuery_append_query huncut _
  have hbehind : queryOf ('/' :: (more ++ marked (query.map String.toList))) =
      query.map String.toList :=
    queryOf_append_query huncut hmark
  rw [hlist] at hsize ⊢
  refine parse_slash_eq_ok_iff.mpr ⟨hsize, ⟨?_, ?_⟩, ?_⟩
  · rw [hbefore, ← hslash]
    exact hpath
  · rw [hbehind]
    intro cs hcs
    obtain ⟨q, hq, rfl⟩ := Option.map_eq_some_iff.mp hcs
    exact hquery q hq
  · have hquery : (query.map String.toList).map String.ofList = query := by
      cases query <;> simp
    rw [behind, hbefore, hbehind, hquery, if_neg (List.cons_ne_nil _ _), ← hslash,
      String.ofList_toList]

/-- What is left of a path behind a prefix is the path of a well-formed target, with a slash if
nothing is left. -/
theorem WellFormed.rest (h : u.WellFormed) {pre rest : String} (hpath : u.path = pre ++ rest) :
    (⟨none, if rest = "" then "/" else rest, u.query⟩ : Uri).WellFormed where
  path_chars := by
    intro c hc
    dsimp only at hc
    split at hc
    · obtain rfl := List.mem_singleton.mp hc
      decide
    · apply h.path_chars
      rw [hpath, String.toList_append]
      exact List.mem_append_right _ hc
  query_chars := h.query_chars
  size_le := by
    have hsize := h.size_le
    have hpos : 0 < (if u.path = "" then "/" else u.path).utf8ByteSize := by
      split
      · decide
      · next hne => exact Nat.pos_of_ne_zero fun hzero => hne (String.utf8ByteSize_eq_zero_iff.mp hzero)
    have hle : rest.utf8ByteSize ≤ (if u.path = "" then "/" else u.path).utf8ByteSize := by
      rw [hpath]
      split
      · next hempty =>
        rw [(String.append_eq_empty_iff.mp hempty).2]
        exact Nat.zero_le _
      · rw [String.utf8ByteSize_append]
        exact Nat.le_add_left _ _
    have hrest : (if rest = "" then "/" else rest) ≠ "" := by
      split
      · decide
      · assumption
    dsimp only
    rw [if_neg hrest]
    simp only [text, Option.getD_none, String.utf8ByteSize_append] at hsize ⊢
    have hslash : "/".utf8ByteSize = 1 := by decide
    split
    · omega
    · omega

end RemoteCall.Http.Uri
