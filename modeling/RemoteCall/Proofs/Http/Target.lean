import RemoteCall.Http.Uri
import RemoteCall.Proofs.Text.Trimmed

/-!
# What is left of the text of a target

A text is cut at its fragment, and at its query where only its path counts. A text that begins with
a slash is a target exactly when its characters are allowed, and that target is read off the two
cuts. A text behind a root is shown as it was written, up to its fragment, whenever the root is
still in front of what is shown.
-/

namespace RemoteCall.Http.Uri

variable {cs : List Char} {u : Uri}

/-- What stands before the fragment of a text. -/
def beforeFragment (cs : List Char) : List Char :=
  cs.takeWhile (· != '#')

/-- Whether a character ends a path. -/
def endsPath (c : Char) : Bool :=
  c == '?' || c == '#'

/-- No character of a text ends a path. -/
def Uncut (cs : List Char) : Prop :=
  ∀ c ∈ cs, endsPath c = false

instance (cs : List Char) : Decidable (Uncut cs) :=
  decidable_of_iff (cs.all fun c => !endsPath c) (by simp [Uncut])

/-- What stands before the query and the fragment of a text. -/
def beforeQuery (cs : List Char) : List Char :=
  cs.takeWhile fun c => !endsPath c

/-- The query and the fragment of a text. -/
def fromQuery (cs : List Char) : List Char :=
  cs.dropWhile fun c => !endsPath c

/-- The query of a text, if it has one. -/
def queryOf (cs : List Char) : Option (List Char) :=
  match fromQuery cs with
  | '?' :: rest => some (beforeFragment rest)
  | _ => none

/-- Every character of a text may stand where it stands. -/
def Allowed (cs : List Char) : Prop :=
  (∀ c ∈ beforeQuery cs, isPathChar c = true) ∧
    ∀ q ∈ queryOf cs, ∀ c ∈ q, isQueryChar c = true

instance (cs : List Char) : Decidable (Allowed cs) :=
  decidable_of_iff ((beforeQuery cs).all isPathChar ∧ (queryOf cs).all (·.all isQueryChar))
    (by simp [Allowed, Option.all_eq_true])

/-- The target for a text, which may stand behind an authority. An empty path is the root. -/
def behind (authority : Option String) (cs : List Char) : Uri :=
  ⟨authority, if beforeQuery cs = [] then "/" else String.ofList (beforeQuery cs),
    (queryOf cs).map String.ofList⟩

theorem parseQuery_eq (cs : List Char) :
    parseQuery cs =
      if (beforeFragment cs).all isQueryChar then .ok (String.ofList (beforeFragment cs))
      else .error .badCharacter :=
  rfl

theorem parsePath_eq_ok_iff {authority : Option String} :
    parsePath authority cs = .ok u ↔ Allowed cs ∧ u = behind authority cs := by
  have hparse : parsePath authority cs =
      if (beforeQuery cs).all isPathChar then
        match fromQuery cs with
        | '?' :: rest => (parseQuery rest).bind fun q =>
            .ok ⟨authority, if beforeQuery cs = [] then "/" else String.ofList (beforeQuery cs),
              some q⟩
        | _ => .ok ⟨authority,
            if beforeQuery cs = [] then "/" else String.ofList (beforeQuery cs), none⟩
      else .error .badCharacter := rfl
  rw [hparse]
  simp only [List.all_eq_true]
  unfold Allowed behind queryOf
  by_cases hpath : ∀ c ∈ beforeQuery cs, isPathChar c = true
  · rw [if_pos hpath]
    split
    · next rest _ =>
      simp only [Option.mem_some_iff, forall_eq', Option.map_some]
      rw [parseQuery_eq]
      simp only [List.all_eq_true]
      by_cases hquery : ∀ c ∈ beforeFragment rest, isQueryChar c = true
      · rw [if_pos hquery]
        exact ⟨fun h => ⟨⟨hpath, hquery⟩, (Except.ok.inj h).symm⟩, fun h => congrArg _ h.2.symm⟩
      · rw [if_neg hquery]
        exact ⟨(fun h => nomatch h), fun h => absurd h.1.2 hquery⟩
    · exact ⟨fun h => ⟨⟨hpath, (fun _ hq => nomatch hq)⟩, (Except.ok.inj h).symm⟩,
        fun h => congrArg _ h.2.symm⟩
  · rw [if_neg hpath]
    exact ⟨(fun h => nomatch h), fun h => absurd h.1.1 hpath⟩

/-- A text that begins with a slash is a target by itself, if it is one at all. -/
theorem parse_slash_eq_ok_iff :
    parse (String.ofList ('/' :: cs)) = .ok u ↔
      (String.ofList ('/' :: cs)).utf8ByteSize ≤ maxSize ∧ Allowed ('/' :: cs) ∧
        u = behind none ('/' :: cs) := by
  unfold parse
  by_cases hsize : maxSize < (String.ofList ('/' :: cs)).utf8ByteSize
  · rw [if_pos hsize]
    simp only [reduceCtorEq, false_iff, not_and]
    omega
  · rw [if_neg hsize, String.toList_ofList]
    simp only [parsePath_eq_ok_iff, iff_and_self]
    omega

theorem not_mem_beforeFragment (cs : List Char) : '#' ∉ beforeFragment cs := by
  intro h
  have hall := List.all_eq_true.mp List.all_takeWhile _ h
  exact absurd hall (by decide)

theorem beforeFragment_append {before : List Char} (h : '#' ∉ before) (cs : List Char) :
    beforeFragment (before ++ cs) = before ++ beforeFragment cs :=
  List.takeWhile_append_of_pos fun c hc => by
    rw [bne_iff_ne]
    rintro rfl
    exact h hc

theorem uncut_beforeQuery (cs : List Char) : Uncut (beforeQuery cs) := by
  intro c h
  simpa using List.all_eq_true.mp List.all_takeWhile _ h

theorem beforeQuery_append {before : List Char} (h : Uncut before)
    (cs : List Char) : beforeQuery (before ++ cs) = before ++ beforeQuery cs :=
  List.takeWhile_append_of_pos fun c hc => by rw [h c hc, Bool.not_false]

theorem beforeQuery_eq_self_iff : beforeQuery cs = cs ↔ Uncut cs := by
  refine ⟨fun h => h ▸ uncut_beforeQuery cs, fun h => ?_⟩
  have happend := beforeQuery_append h []
  simpa [beforeQuery] using happend

theorem fromQuery_append {before : List Char} (h : Uncut before)
    (cs : List Char) : fromQuery (before ++ cs) = fromQuery cs :=
  List.dropWhile_append_of_pos fun c hc => by rw [h c hc, Bool.not_false]

theorem queryOf_append {before : List Char} (h : Uncut before)
    (cs : List Char) : queryOf (before ++ cs) = queryOf cs := by
  unfold queryOf
  rw [fromQuery_append h]

/-- A query with the mark in front of it. -/
def marked : Option (List Char) → List Char
  | some q => '?' :: q
  | none => []

/-- A path and its query are all that stands before the fragment. -/
theorem beforeQuery_append_marked (cs : List Char) :
    beforeQuery cs ++ marked (queryOf cs) = beforeFragment cs := by
  induction cs with
  | nil => rfl
  | cons c cs ih =>
      by_cases hquery : c = '?'
      · subst hquery
        rfl
      · by_cases hfragment : c = '#'
        · subst hfragment
          rfl
        · have hc : Uncut [c] := by
            simp [Uncut, endsPath, hquery, hfragment]
          have hmem : '#' ∉ [c] := by
            simp [eq_comm, hfragment]
          have hcs : c :: cs = [c] ++ cs := rfl
          rw [hcs, beforeQuery_append hc, queryOf_append hc, beforeFragment_append hmem,
            List.append_assoc, ih]

theorem beforeFragment_eq_self (h : '#' ∉ cs) : beforeFragment cs = cs := by
  have happend := beforeFragment_append h []
  simpa [beforeFragment] using happend

theorem not_mem_queryOf {q : List Char} (h : q ∈ queryOf cs) : '#' ∉ q := by
  intro hmem
  have hmarked : '#' ∈ marked (queryOf cs) := by
    rw [h]
    exact List.mem_cons_of_mem _ hmem
  have hall := List.mem_append_right (beforeQuery cs) hmarked
  rw [beforeQuery_append_marked] at hall
  exact not_mem_beforeFragment cs hall

@[simp] theorem beforeQuery_beforeFragment (cs : List Char) :
    beforeQuery (beforeFragment cs) = beforeQuery cs := by
  rw [← beforeQuery_append_marked cs, beforeQuery_append (uncut_beforeQuery cs)]
  cases queryOf cs with
  | none => exact List.append_nil _
  | some q => exact List.append_nil _

@[simp] theorem queryOf_beforeFragment (cs : List Char) :
    queryOf (beforeFragment cs) = queryOf cs := by
  rw [← beforeQuery_append_marked cs, queryOf_append (uncut_beforeQuery cs)]
  cases h : queryOf cs with
  | none => rfl
  | some q => exact congrArg some (beforeFragment_eq_self (not_mem_queryOf h))

@[simp] theorem allowed_beforeFragment (cs : List Char) :
    Allowed (beforeFragment cs) ↔ Allowed cs := by
  simp only [Allowed, beforeQuery_beforeFragment, queryOf_beforeFragment]

@[simp] theorem behind_beforeFragment (authority : Option String) (cs : List Char) :
    behind authority (beforeFragment cs) = behind authority cs := by
  simp only [behind, beforeQuery_beforeFragment, queryOf_beforeFragment]

theorem Allowed.of_append {before : List Char} (hbefore : Uncut before)
    (h : Allowed (before ++ cs)) : Allowed cs := by
  obtain ⟨hpath, hquery⟩ := h
  rw [beforeQuery_append hbefore] at hpath
  rw [queryOf_append hbefore] at hquery
  exact ⟨fun c hc => hpath c (List.mem_append_right _ hc), hquery⟩

theorem beforeQuery_slash (cs : List Char) : beforeQuery ('/' :: cs) = '/' :: beforeQuery cs :=
  rfl

theorem path_behind_slash (authority : Option String) (cs : List Char) :
    (behind authority ('/' :: cs)).path = String.ofList ('/' :: beforeQuery cs) := by
  simp only [behind, beforeQuery_slash, reduceCtorEq, if_false]

theorem toList_path_behind (authority : Option String) (h : beforeQuery cs ≠ []) :
    (behind authority cs).path.toList = beforeQuery cs := by
  simp only [behind, if_neg h, String.toList_ofList]

theorem toList_text (u : Uri) :
    u.text.toList =
      (u.authority.getD "").toList ++ (u.path.toList ++ marked (u.query.map String.toList)) := by
  obtain ⟨authority, path, query⟩ := u
  cases query with
  | none => simp [text, marked]
  | some q => simp [text, marked]

/-- What is shown of a target is what stands before the fragment, with a slash for an empty
path. -/
theorem text_behind (authority : Option String) (cs : List Char) :
    (behind authority cs).text.toList =
      (authority.getD "").toList ++
        ((if beforeQuery cs = [] then ['/'] else []) ++ beforeFragment cs) := by
  have hquery : ((queryOf cs).map String.ofList).map String.toList = queryOf cs := by
    cases queryOf cs <;> simp
  rw [toList_text, ← beforeQuery_append_marked]
  simp only [behind, hquery]
  split
  · next h => simp [h]
  · next h => simp

/-! ### Schemes and authorities -/

/-- What stands before the first character that ends an authority. -/
def authorityOf (cs : List Char) : List Char :=
  cs.takeWhile fun c => !endsAuthority c

theorem not_mem_authorityOf {c : Char} (h : endsAuthority c = true) (cs : List Char) :
    c ∉ authorityOf cs := by
  intro hmem
  have hall := List.all_eq_true.mp List.all_takeWhile _ hmem
  rw [h] at hall
  cases hall

theorem parseAuthority_eq_ok_iff {scheme : String} :
    parseAuthority scheme cs = .ok u ↔
      checkAuthority (authorityOf cs) = .ok () ∧ authorityOf cs ≠ [] ∧
        parsePath (some (scheme ++ String.ofList (authorityOf cs)))
          (cs.dropWhile fun c => !endsAuthority c) = .ok u := by
  change (checkAuthority (authorityOf cs)).bind (fun _ => _) = _ ↔ _
  cases checkAuthority (authorityOf cs) with
  | error e => exact iff_of_false nofun fun h => nomatch h.1
  | ok _ =>
      by_cases hempty : authorityOf cs = []
      · rw [authorityOf] at hempty
        simp [Except.bind, authorityOf, hempty, throw, throwThe, MonadExceptOf.throw, bind]
      · rw [authorityOf] at hempty
        simp [Except.bind, authorityOf, hempty]

theorem parseBare_eq_ok_iff :
    parseBare cs = .ok u ↔
      checkAuthority (authorityOf cs) = .ok () ∧ authorityOf cs = cs ∧
        u = ⟨some (String.ofList cs), "", none⟩ := by
  change (checkAuthority (authorityOf cs)).bind (fun _ => _) = _ ↔ _
  cases checkAuthority (authorityOf cs) with
  | error e => exact iff_of_false nofun fun h => nomatch h.1
  | ok _ =>
      by_cases hall : authorityOf cs = cs
      · rw [authorityOf] at hall
        simp [Except.bind, authorityOf, hall, pure, Except.pure, eq_comm]
      · rw [authorityOf] at hall
        simp [Except.bind, authorityOf, hall, throw, throwThe, MonadExceptOf.throw]

/-- What is shown of a target behind a scheme. -/
theorem text_of_parseAuthority {scheme : String} (h : parseAuthority scheme cs = .ok u) :
    ∃ host rest, cs = host ++ rest ∧ '/' ∉ host ∧ '#' ∉ host ∧
      u.text.toList = scheme.toList ++
        (host ++ ((if beforeQuery rest = [] then ['/'] else []) ++ beforeFragment rest)) := by
  obtain ⟨-, -, hpath⟩ := parseAuthority_eq_ok_iff.mp h
  obtain ⟨-, rfl⟩ := parsePath_eq_ok_iff.mp hpath
  refine ⟨authorityOf cs, _, List.takeWhile_append_dropWhile.symm, not_mem_authorityOf (by decide) cs,
    not_mem_authorityOf (by decide) cs, ?_⟩
  rw [text_behind, Option.getD_some, String.toList_append, String.toList_ofList,
    List.append_assoc]

theorem eq_of_afterScheme? {scheme : String} {rest : List Char}
    (h : afterScheme? scheme cs = some rest) :
    ∃ written, cs = written ++ rest ∧ Text.fold written = Text.fold scheme.toList := by
  simp only [afterScheme?, Option.ite_none_right_eq_some, Option.some.injEq] at h
  obtain ⟨hfold, rfl⟩ := h
  exact ⟨_, (List.take_append_drop _ cs).symm, Text.sameFolded_iff.mp hfold⟩

/-- A scheme stands before a colon and two slashes, and has no slash itself. -/
theorem eq_of_splitScheme? {scheme rest : List Char} (h : splitScheme? cs = some (scheme, rest)) :
    cs = (scheme ++ "://".toList) ++ rest ∧ '/' ∉ scheme := by
  unfold splitScheme? at h
  split at h
  · next rest' hrest =>
    cases h
    constructor
    · have hsplit := List.takeWhile_append_dropWhile (p := isSchemeChar) (l := cs)
      rw [hrest] at hsplit
      rw [List.append_assoc]
      exact hsplit.symm
    · intro hmem
      exact absurd (List.all_eq_true.mp List.all_takeWhile _ hmem) (by decide)
  · cases h

/-- A text with a scheme and a host, and what is shown of it: its scheme in some case of letters,
and a slash for an empty path. -/
def ShownBehindScheme (s shown : List Char) : Prop :=
  ∃ scheme written host rest, '/' ∉ scheme ∧ s = written ++ (host ++ rest) ∧
    Text.fold written = Text.fold (scheme ++ ['/', '/']) ∧ '/' ∉ host ∧ '#' ∉ host ∧
    shown = (scheme ++ ['/', '/']) ++
      (host ++ ((if beforeQuery rest = [] then ['/'] else []) ++ beforeFragment rest))

theorem shownBehindScheme_of_parseAuthority (scheme : List Char) {written rest : List Char}
    (hscheme : '/' ∉ scheme) (hcs : cs = written ++ rest)
    (hfold : Text.fold written = Text.fold (scheme ++ ['/', '/']))
    (h : parseAuthority (String.ofList (scheme ++ ['/', '/'])) rest = .ok u) :
    ShownBehindScheme cs u.text.toList := by
  obtain ⟨host, rest, rfl, hslash, hmark, htext⟩ := text_of_parseAuthority h
  rw [String.toList_ofList] at htext
  exact ⟨scheme, written, host, rest, hscheme, hcs, hfold, hslash, hmark, htext⟩

/-- What is shown of a target was written before the fragment of its text, but for the case of the
scheme and for an empty path. -/
theorem text_of_parse {s : String} (h : parse s = .ok u) :
    u.text.toList = beforeFragment s.toList ∨ ShownBehindScheme s.toList u.text.toList := by
  unfold parse at h
  split at h
  · cases h
  · split at h
    · cases h
    · next hs =>
      cases h
      rw [hs]
      exact .inl rfl
    · next rest hs =>
      obtain ⟨-, rfl⟩ := parsePath_eq_ok_iff.mp h
      rw [hs, text_behind]
      exact .inl rfl
    · split at h
      · next hafter =>
        obtain ⟨written, hs, hfold⟩ := eq_of_afterScheme? hafter
        exact .inr (shownBehindScheme_of_parseAuthority "http:".toList (by decide) hs
          hfold h)
      · next hafter =>
        obtain ⟨written, hs, hfold⟩ := eq_of_afterScheme? hafter
        exact .inr (shownBehindScheme_of_parseAuthority "https:".toList (by decide) hs
          hfold h)
      · next scheme rest _ _ hscheme =>
        split at h
        · cases h
        · obtain ⟨hs, hslash⟩ := eq_of_splitScheme? hscheme
          have hcolon : scheme ++ "://".toList = (scheme ++ [':']) ++ ['/', '/'] := by simp
          rw [hcolon] at hs h
          refine .inr (shownBehindScheme_of_parseAuthority _ ?_ hs rfl h)
          simp [hslash]
      · obtain ⟨-, hall, rfl⟩ := parseBare_eq_ok_iff.mp h
        have hmark : '#' ∉ s.toList := hall ▸ not_mem_authorityOf (by decide) s.toList
        rw [beforeFragment_eq_self hmark]
        exact .inl (by simp [text])

theorem toLower_eq_slash {c : Char} (h : c.toLower = '/') : c = '/' := by
  rcases Text.toLower_cases c with hsame | ⟨hlow, -, hshift⟩
  · exact hsame.symm.trans h
  · have hslash : '/'.toNat = 47 := rfl
    rw [h] at hshift
    omega

/-- The slashes behind a scheme were written as slashes, and nothing before them is one. -/
theorem eq_of_fold_eq_scheme {scheme written : List Char} (hslash : '/' ∉ scheme)
    (h : Text.fold written = Text.fold (scheme ++ ['/', '/'])) :
    ∃ before, written = before ++ ['/', '/'] ∧ '/' ∉ before := by
  rw [Text.fold_append] at h
  obtain ⟨before, slashes, rfl, hbefore, hslashes⟩ := List.map_eq_append_iff.mp h
  obtain ⟨a, rest, rfl, ha, hrest⟩ := List.map_eq_cons_iff.mp hslashes
  obtain ⟨b, rest, rfl, hb, hrest⟩ := List.map_eq_cons_iff.mp hrest
  obtain rfl := List.map_eq_nil_iff.mp hrest
  refine ⟨before, by rw [toLower_eq_slash ha, toLower_eq_slash hb], fun hmem => hslash ?_⟩
  have hfolded : '/' ∈ Text.fold before := (Text.mem_fold_iff (by decide) rfl).mpr hmem
  rw [Text.fold, hbefore] at hfolded
  exact (Text.mem_fold_iff (by decide) rfl).mp hfolded

/-- A path below a root that does not end in a slash starts behind the slashes of the scheme. -/
theorem scheme_prefix_root {root path before after : List Char} {c : Char}
    (htrim : root.getLast? ≠ some '/') (hpath : ∃ more, path = '/' :: c :: more) (hc : c ≠ '/')
    (hbefore : '/' ∉ before) (h : root ++ path = (before ++ ['/', '/']) ++ after) :
    (before ++ ['/', '/']) <+: root := by
  obtain ⟨more, rfl⟩ := hpath
  rcases List.append_eq_append_iff.mp h with ⟨front, hwritten, hfront⟩ | ⟨behind, hroot, -⟩
  · -- The root would end inside the scheme, and the path start with both slashes of it or with one.
    exfalso
    match front with
    | [] =>
        rw [List.append_nil] at hwritten
        exact htrim (by rw [← hwritten]; simp)
    | [d] =>
        obtain ⟨rfl, -⟩ := List.cons.inj hfront
        have hroot : root = before ++ ['/'] := by
          have happend : before ++ ['/', '/'] = before ++ ['/'] ++ ['/'] := by simp
          exact (List.append_inj_left' (happend.symm.trans hwritten) rfl).symm
        exact htrim (by rw [hroot]; simp)
    | d :: e :: front =>
        simp only [List.cons_append, List.cons.injEq] at hfront
        obtain ⟨rfl, rfl, -⟩ := hfront
        rcases List.append_eq_append_iff.mp hwritten with ⟨a, -, ha⟩ | ⟨a, rfl, ha⟩
        · cases a with
          | nil => exact hc (List.cons.inj (List.cons.inj ha).2).1.symm
          | cons x a =>
              have hlength := congrArg List.length ha
              simp only [List.length_cons, List.length_append, List.length_nil] at hlength
              omega
        · cases a with
          | nil => exact hc (List.cons.inj (List.cons.inj ha).2).1
          | cons x a =>
              obtain ⟨rfl, -⟩ := List.cons.inj ha
              exact hbefore (by simp)
  · exact ⟨behind, hroot.symm⟩

/-- A path that starts with a slash starts behind the host. -/
theorem host_prefix {inner path host rest : List Char} (hpath : ∃ more, path = '/' :: more)
    (hhost : '/' ∉ host) (h : inner ++ path = host ++ rest) :
    ∃ behind, inner = host ++ behind ∧ rest = behind ++ path := by
  obtain ⟨more, rfl⟩ := hpath
  rcases List.append_eq_append_iff.mp h with ⟨front, rfl, hfront⟩ | ⟨behind, hinner, hrest⟩
  · cases front with
    | nil => exact ⟨[], by simp, by simpa using hfront.symm⟩
    | cons d front =>
        obtain ⟨rfl, -⟩ := List.cons.inj hfront
        exact absurd (by simp) hhost
  · exact ⟨behind, hinner, hrest⟩

/-- Below a root with a scheme that is still in front of what is shown, all is shown as it was
written, up to the fragment. -/
theorem ShownBehindScheme.eq_below {root path shown : List Char} {c : Char}
    (h : ShownBehindScheme (root ++ path) shown) (htrim : root.getLast? ≠ some '/')
    (hpath : ∃ more, path = '/' :: c :: more) (hc : c ≠ '/') (hroot : root <+: shown) :
    shown = root ++ beforeFragment path := by
  obtain ⟨scheme, written, host, rest, hscheme, hwritten, hfold, hslash, -, htext⟩ := h
  obtain ⟨before, rfl, hbefore⟩ := eq_of_fold_eq_scheme hscheme hfold
  obtain ⟨inner, rfl⟩ := scheme_prefix_root htrim hpath hc hbefore hwritten
  obtain ⟨tail, hshown⟩ := hroot
  rw [htext, List.append_assoc] at hshown
  have hlength : (before ++ ['/', '/']).length = (scheme ++ ['/', '/']).length := by
    simpa only [Text.fold, List.length_map] using congrArg List.length hfold
  obtain ⟨hfront, hshown⟩ := List.append_inj hshown hlength
  rw [List.append_assoc, List.append_cancel_left_eq] at hwritten
  obtain ⟨more, hmore⟩ := hpath
  obtain ⟨behind, rfl, rfl⟩ := host_prefix ⟨_, hmore⟩ hslash hwritten
  rw [List.append_assoc, List.append_cancel_left_eq] at hshown
  -- Where a slash was put in, the root would go on with a query or a fragment instead.
  have hpresent : beforeQuery (behind ++ path) ≠ [] := by
    intro hempty
    rw [if_pos hempty] at hshown
    cases behind with
    | nil => simp [hmore, beforeQuery, endsPath] at hempty
    | cons d behind =>
        obtain ⟨rfl, -⟩ := List.cons.inj hshown
        simp [beforeQuery, endsPath] at hempty
  rw [if_neg hpresent, List.nil_append] at hshown htext
  have hbehind : '#' ∉ behind := fun hmem =>
    not_mem_beforeFragment (behind ++ path) (hshown ▸ List.mem_append_left _ hmem)
  rw [htext, beforeFragment_append hbehind, hfront]
  simp only [List.append_assoc]

/-- Below a root that is still in front of what is shown, all is shown as it was written, up to the
fragment. -/
theorem text_of_parse_below {root path : List Char} {c : Char} {s : String}
    (htrim : root.getLast? ≠ some '/') (hpath : ∃ more, path = '/' :: c :: more) (hc : c ≠ '/')
    (hs : s.toList = root ++ path) (h : parse s = .ok u) (hroot : root <+: u.text.toList) :
    u.text.toList = root ++ beforeFragment path := by
  have htext := text_of_parse h
  rw [hs] at htext
  rcases htext with htext | hbehind
  · have hmark : '#' ∉ root := by
      intro hmem
      have hshown := hroot.subset hmem
      rw [htext] at hshown
      exact not_mem_beforeFragment _ hshown
    rw [htext, beforeFragment_append hmark]
  · exact hbehind.eq_below htrim hpath hc hroot

end RemoteCall.Http.Uri
