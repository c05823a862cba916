import Mathlib.Data.List.Basic
import RemoteCall.Proofs.Invocation.Address

/-!
# Which addresses are read back from their paths

A path says nothing by the slash before it, by empty segments at its end, and by a dash where
something may be empty. An address is read back from its own path exactly when it needs none of
these, and whatever is read from a path does not need them. So reading a path and writing the
address again is done once and for all.
-/

namespace RemoteCall.Address

variable {a : Address}

theorem undash_dash {name : List Char} (h : name ≠ ['-']) : undash (dash name) = name := by
  by_cases hname : name = []
  · rw [dash, if_pos hname, undash, if_pos rfl, hname]
  · rw [dash, if_neg hname, undash, if_neg h]

theorem undash_ne_dash (segment : List Char) : undash segment ≠ ['-'] := by
  unfold undash
  split
  · exact nofun
  · assumption

theorem not_mem_dash {name : List Char} (h : '/' ∉ name) : '/' ∉ dash name := by
  unfold dash
  split
  · decide
  · exact h

section Session

/-- A segment that is neither empty nor a dash is read as a token. -/
theorem session?_token {segment : List Char} (hne : segment ≠ []) (hdash : segment ≠ ['-']) :
    session? segment = match SessionToken.decode (Bytes.ofText (String.ofList segment)) with
      | .ok id => .ok (some id)
      | .error e => .error (.malformedAddress ("session id: " ++ e.message)) := by
  rw [session?, undash, if_neg hdash]
  split
  · exact absurd rfl hne
  · rfl

theorem not_mem_sessionSegment (session : Option Bytes) : '/' ∉ sessionSegment session := by
  have hsigns : '/' ∉ SessionToken.alphabet.map fun b => Char.ofNat b.toNat := by decide
  unfold sessionSegment
  split
  · decide
  · decide
  · next id _ => exact fun h => hsigns (List.map_subset _ (SessionToken.encode_subset id) h)

/-- A session that is not empty comes back from its segment. -/
theorem session?_sessionSegment {session : Option Bytes} (h : session ≠ some []) :
    session? (sessionSegment session) = .ok session := by
  unfold sessionSegment
  split
  · rfl
  · exact absurd rfl h
  · next id hid =>
    have hne := SessionToken.encode_ne_nil fun hnil => hid (hnil ▸ rfl)
    have hlength := SessionToken.length_encode_mod id
    have hascii : ∀ b ∈ SessionToken.alphabet, b.toNat < 128 := by decide +kernel
    have htext := Bytes.ofText_ascii fun b hb => hascii b (SessionToken.encode_subset id hb)
    rw [session?_token (fun hnil => hne (List.map_eq_nil_iff.mp hnil)), htext,
      SessionToken.decode_encode]
    intro hdash
    have hone := congrArg List.length hdash
    rw [List.length_map, List.length_singleton] at hone
    omega

/-- No segment stands for an empty session. -/
theorem session?_ne_ok_some_nil (segment : List Char) : session? segment ≠ .ok (some []) := by
  by_cases hempty : undash segment = []
  · rw [session?, hempty]
    exact nofun
  · have hself : undash segment = segment := by
      unfold undash at hempty ⊢
      split
      · next hdash => exact absurd (if_pos hdash) hempty
      · rfl
    rw [hself] at hempty
    rw [session?_token hempty (hself ▸ undash_ne_dash segment)]
    split
    · next id hid =>
      rintro ⟨⟩
      refine SessionToken.decode_ne_ok_nil (Bytes.ofText_ne_nil fun htext => hempty ?_) hid
      rw [← String.toList_ofList (l := segment), htext]
      rfl
    · exact nofun

end Session

section Segments

theorem getLast?_segments (a : Address) :
    a.segments.getLast? =
      ((a.method.name :: a.method.parameterTypes).map String.toList).getLast? := by
  simp only [segments, List.map_cons, List.getLast?_cons_cons]

theorem dropWhile_reverse {segments : List (List Char)} (h : segments.getLast? ≠ some []) :
    segments.reverse.dropWhile List.isEmpty = segments.reverse := by
  rw [← List.head?_reverse] at h
  cases hreverse : segments.reverse with
  | nil => rfl
  | cons last front =>
      rw [hreverse] at h
      have hlast : last ≠ [] := fun hnil => h (congrArg some hnil)
      rw [List.dropWhile_cons, if_neg (by simpa using hlast)]

/-- Segments without slashes come back from a path that does not end in an empty one. -/
theorem pathSegments_render (h : a.Carriable) : pathSegments a.render.toList = a.segments := by
  have hne : a.segments ≠ [] := List.cons_ne_nil _ _
  have hslash : ∀ segment ∈ a.segments, '/' ∉ segment := by
    have hnames := h.no_slash
    simp only [List.forall_mem_cons] at hnames
    obtain ⟨happ, hmodule, hdistinct, hcomponent, hview, hmethod, htypes⟩ := hnames
    simp only [segments, List.forall_mem_cons, List.forall_mem_map]
    exact ⟨not_mem_dash happ, not_mem_dash hmodule, not_mem_dash hdistinct, hcomponent,
      not_mem_sessionSegment _, hview, hmethod, htypes⟩
  have hlast : a.segments.getLast? ≠ some [] := by
    rw [getLast?_segments, List.getLast?_map]
    intro hnil
    obtain ⟨name, hname, hempty⟩ := Option.map_eq_some_iff.mp hnil
    exact h.last_ne_empty (hname.trans (congrArg some (String.toList_eq_nil_iff.mp hempty)))
  rw [pathSegments_relative (render_not_absolute (h.no_slash _ List.mem_cons_self)), render,
    String.toList_ofList, Text.split_join hne hslash, dropWhile_reverse hlast, List.reverse_reverse]

theorem ofSegments_segments (h : a.Carriable) : ofSegments a.segments = .ok a := by
  have hdash (name : String) (hmem : name ∈ [a.component.app, a.component.moduleName,
      a.component.distinct]) : String.ofList (undash (dash name.toList)) = name := by
    rw [undash_dash fun hname => h.no_dash name hmem (String.toList_injective hname),
      String.ofList_toList]
  have htypes : (a.method.parameterTypes.map String.toList).map String.ofList =
      a.method.parameterTypes := by
    rw [List.map_map]
    exact (List.map_congr_left fun name _ => String.ofList_toList).trans (List.map_id _)
  simp only [segments, ofSegments, session?_sessionSegment h.session_ne_empty, htypes,
    String.ofList_toList]
  rw [hdash _ (by simp), hdash _ (by simp), hdash _ (by simp)]
  rfl

/-- What is read from segments. -/
theorem ofSegments_eq_ok {segments : List (List Char)} (h : ofSegments segments = .ok a) :
    ∃ app moduleName distinct component token view method types session,
      segments = app :: moduleName :: distinct :: component :: token :: view :: method :: types ∧
      session? token = .ok session ∧ a = {
        component := ⟨String.ofList (undash app), String.ofList (undash moduleName),
          String.ofList (undash distinct), String.ofList component⟩
        session
        view := String.ofList view
        method := ⟨String.ofList method, types.map String.ofList⟩ } := by
  unfold ofSegments at h
  split at h
  · next app moduleName distinct component token view method types =>
    cases hsession : session? token with
    | error e =>
        rw [hsession] at h
        cases h
    | ok session =>
        rw [hsession] at h
        cases h
        exact ⟨_, _, _, _, _, _, _, _, _, rfl, hsession, rfl⟩
  · cases h

end Segments

theorem Carriable.parse_render (h : a.Carriable) : parse a.render = .ok a := by
  rw [parse, pathSegments_render h, ofSegments_segments h]

/-- The last of the segments of a path is not empty. -/
theorem getLast?_pathSegments (path : List Char) : (pathSegments path).getLast? ≠ some [] := by
  have hhead (parts : List (List Char)) : (parts.dropWhile List.isEmpty).head? ≠ some [] := by
    intro hnil
    have hnot := List.head?_dropWhile_not List.isEmpty parts
    rw [hnil] at hnot
    cases hnot
  unfold pathSegments
  rw [List.getLast?_reverse]
  exact hhead _

/-- Whatever is read from a path can be carried. -/
theorem carriable_of_parse {path : String} (h : parse path = .ok a) : a.Carriable where
  no_slash name hname hslash := (mem_of_parse h name hname '/' hslash).2 rfl
  no_dash name hname := by
    obtain ⟨app, moduleName, distinct, component, token, view, method, types, session, -, -, rfl⟩ :=
      ofSegments_eq_ok h
    simp only [List.mem_cons, List.not_mem_nil, or_false] at hname
    rintro rfl
    obtain hname | hname | hname := hname <;>
      exact undash_ne_dash _ (String.ofList_injective hname.symm)
  session_ne_empty := by
    obtain ⟨app, moduleName, distinct, component, token, view, method, types, session, -, hsession,
      rfl⟩ := ofSegments_eq_ok h
    rintro rfl
    exact session?_ne_ok_some_nil token hsession
  last_ne_empty := by
    obtain ⟨app, moduleName, distinct, component, token, view, method, types, session, hsegments, -,
      rfl⟩ := ofSegments_eq_ok h
    have hlast := getLast?_pathSegments path.toList
    simp only [hsegments, List.getLast?_cons_cons] at hlast
    rw [← List.map_cons (f := String.ofList), List.getLast?_map]
    intro hempty
    obtain ⟨segment, hsegment, hnil⟩ := Option.map_eq_some_iff.mp hempty
    obtain rfl := String.ofList_injective (hnil.trans String.ofList_nil.symm)
    exact hlast hsegment

/-- An address is read back from its own path exactly when it can be carried, and only addresses
that can be carried are read from any path, so that one rendering settles every path. -/
theorem read_back_iff_carriable :
    (∀ a : Address, parse a.render = .ok a ↔ a.Carriable) ∧
      ∀ (path : String) (a : Address), parse path = .ok a →
        a.Carriable ∧ parse a.render = .ok a :=
  ⟨fun _ => ⟨carriable_of_parse, Carriable.parse_render⟩, fun _ _ h =>
    ⟨carriable_of_parse h, (carriable_of_parse h).parse_render⟩⟩

/-- A path with a slash too many at both ends, an empty name and a token without padding. -/
theorem read_back_iff_carriable_of_loose_path :
    let a : Address :=
      ⟨⟨"shop", "", "", "Cart"⟩, some [1, 2], "CartHome", ⟨"", ["java.lang.String"]⟩⟩
    parse "/shop//-/Cart/AQI/CartHome//java.lang.String//" = .ok a ∧
      a.render = "shop/-/-/Cart/AQI=/CartHome//java.lang.String" ∧
      a.Carriable ∧ parse a.render = .ok a := by
  intro a
  have hparse : parse "/shop//-/Cart/AQI/CartHome//java.lang.String//" = .ok a := by decide +kernel
  have hrender : a.render = "shop/-/-/Cart/AQI=/CartHome//java.lang.String" := by decide +kernel
  exact ⟨hparse, hrender, read_back_iff_carriable.2 _ a hparse⟩

end RemoteCall.Address
