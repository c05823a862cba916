import RemoteCall.Invocation.Address
import RemoteCall.Proofs.Http.Target
import RemoteCall.Proofs.Invocation.SessionToken

/-!
# What of an address is read back from a target

The names of an address are written into a path as they are. A target is cut at its query and its
fragment, so an address that is read back from the path of a target is the one that was written
exactly when none of its names has a character that ends a path.
-/

namespace RemoteCall

open Http.Uri

namespace Address

/-- The names that an address is made of. -/
def names (a : Address) : List String :=
  a.component.app :: a.component.moduleName :: a.component.distinct :: a.component.component ::
    a.view :: a.method.name :: a.method.parameterTypes

/-- No name has a character that ends a path. -/
def Unmarked (a : Address) : Prop :=
  ∀ name ∈ a.names, Uncut name.toList

variable {a p : Address}

theorem uncut_dash {name : List Char} (h : Uncut name) : Uncut (dash name) := by
  unfold dash
  split
  · decide
  · exact h

theorem uncut_sessionSegment (session : Option Bytes) : Uncut (sessionSegment session) := by
  have hsigns : Uncut (SessionToken.alphabet.map fun b => Char.ofNat b.toNat) := by decide
  unfold sessionSegment
  split
  · decide
  · decide
  · next id _ =>
    intro c hc
    obtain ⟨b, hb, rfl⟩ := List.mem_map.mp hc
    exact hsigns _ (List.mem_map.mpr ⟨b, SessionToken.encode_subset id hb, rfl⟩)

/-- What is written for an address goes as far as its names do. -/
theorem Unmarked.render (h : a.Unmarked) : Uncut a.render.toList := by
  intro c hc
  rw [Address.render, String.toList_ofList] at hc
  rcases Text.mem_join hc with rfl | ⟨segment, hsegment, hc⟩
  · rfl
  · simp only [Unmarked, names, List.forall_mem_cons] at h
    obtain ⟨happ, hmodule, hdistinct, hcomponent, hview, hmethod, htypes⟩ := h
    simp only [segments, List.mem_cons, List.mem_map] at hsegment
    rcases hsegment with rfl | rfl | rfl | rfl | rfl | rfl | rfl | ⟨name, hname, rfl⟩
    · exact uncut_dash happ c hc
    · exact uncut_dash hmodule c hc
    · exact uncut_dash hdistinct c hc
    · exact hcomponent c hc
    · exact uncut_sessionSegment _ c hc
    · exact hview c hc
    · exact hmethod c hc
    · exact htypes name hname c hc

theorem mem_of_mem_pathSegments {path segment : List Char} {c : Char}
    (hsegment : segment ∈ pathSegments path) (hc : c ∈ segment) : c ∈ path ∧ c ≠ '/' := by
  have hsplit : ∀ inner, segment ∈ ((Text.split '/' inner).reverse.dropWhile List.isEmpty).reverse →
      c ∈ inner ∧ c ≠ '/' := fun inner hmem =>
    Text.mem_of_mem_split
      (List.mem_reverse.mp ((List.dropWhile_subset _) (List.mem_reverse.mp hmem))) hc
  unfold pathSegments at hsegment
  split at hsegment
  · obtain ⟨hmem, hne⟩ := hsplit _ hsegment
    exact ⟨List.mem_cons_of_mem _ hmem, hne⟩
  · exact hsplit _ hsegment

theorem mem_of_mem_undash {segment : List Char} {c : Char} (h : c ∈ undash segment) :
    c ∈ segment := by
  unfold undash at h
  split at h
  · cases h
  · exact h

/-- The names that are read from a path are parts of it, between slashes. -/
theorem mem_of_parse {path : String} (h : parse path = .ok a) :
    ∀ name ∈ a.names, ∀ c ∈ name.toList, c ∈ path.toList ∧ c ≠ '/' := by
  have hmem := fun segment => @mem_of_mem_pathSegments path.toList segment
  unfold parse at h
  generalize pathSegments path.toList = segments at h hmem
  unfold ofSegments at h
  split at h
  · next app moduleName distinct component session view method types =>
    simp only [bind, Except.bind, pure, Except.pure] at h
    split at h
    · cases h
    · cases h
      intro name hname c hc
      simp only [names, List.mem_cons, List.mem_map] at hname
      rcases hname with rfl | rfl | rfl | rfl | rfl | rfl | ⟨name, hname, rfl⟩ <;>
        rw [String.toList_ofList] at hc
      · exact hmem _ (by simp) (mem_of_mem_undash hc)
      · exact hmem _ (by simp) (mem_of_mem_undash hc)
      · exact hmem _ (by simp) (mem_of_mem_undash hc)
      · exact hmem _ (by simp) hc
      · exact hmem _ (by simp) hc
      · exact hmem _ (by simp) hc
      · exact hmem _ (by simp [hname]) hc
  · cases h

/-- What of a rendered address becomes the path of a target. -/
def shown (a : Address) : String :=
  String.ofList ('/' :: beforeQuery a.render.toList)

theorem render_not_absolute (h : '/' ∉ a.component.app.toList) (rest : List Char) :
    a.render.toList ≠ '/' :: rest := by
  rw [render, String.toList_ofList]
  unfold segments dash
  split
  · exact fun hrender => absurd (List.cons.inj hrender).1 (by decide)
  · next hne =>
    intro hrender
    obtain ⟨c, cs, hcs⟩ := List.exists_cons_of_ne_nil hne
    rw [hcs] at h hrender
    exact h ((List.cons.inj hrender).1 ▸ List.mem_cons_self)

theorem pathSegments_relative {path : List Char} (h : ∀ rest, path ≠ '/' :: rest) :
    pathSegments path = ((Text.split '/' path).reverse.dropWhile List.isEmpty).reverse := by
  rw [pathSegments]
  exact h

theorem parse_absolute {path : List Char} (h : ∀ rest, path ≠ '/' :: rest) :
    parse (String.ofList ('/' :: path)) = parse (String.ofList path) := by
  have hsegments : pathSegments ('/' :: path) = pathSegments path := by
    rw [pathSegments_relative h, pathSegments]
  rw [parse, parse, String.toList_ofList, String.toList_ofList, hsegments]

/-- An address comes back from the path of a target exactly when none of its names is cut. -/
theorem parse_shown_eq_ok_self_iff (h : parse a.render = .ok a) :
    parse a.shown = .ok a ↔ a.Unmarked := by
  constructor
  · intro hshown name hname c hc
    obtain ⟨hmem, hslash⟩ := mem_of_parse hshown name hname c hc
    rw [shown, String.toList_ofList] at hmem
    rcases List.mem_cons.mp hmem with rfl | hmem
    · exact absurd rfl hslash
    · exact uncut_beforeQuery _ c hmem
  · intro hunmarked
    have happ : '/' ∉ a.component.app.toList := fun hslash =>
      (mem_of_parse h a.component.app List.mem_cons_self '/' hslash).2 rfl
    rw [shown, beforeQuery_eq_self_iff.mpr hunmarked.render,
      parse_absolute (render_not_absolute happ), String.ofList_toList]
    exact h

end Address

end RemoteCall
