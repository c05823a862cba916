import Mathlib.Data.List.Induction
import RemoteCall.Http.Service
import RemoteCall.Proofs.Http.Target

/-!
# Who serves the targets below a prefix

Of all routes whose prefix matches a path, the one with the longest prefix is chosen. So whoever is
mounted at a prefix, with nobody else at or below it, serves all targets below it, whoever else is
mounted, and sees what stands behind the prefix.
-/

namespace RemoteCall.Http.Router

variable {α : Type}

/-- Prefixes do not get longer. -/
def Descending (routes : List (String × α)) : Prop :=
  routes.Pairwise fun a b => b.1.utf8ByteSize ≤ a.1.utf8ByteSize

theorem mem_place {route other : String × α} {routes : List (String × α)} :
    other ∈ place route routes ↔ other = route ∨ other ∈ routes := by
  induction routes with
  | nil => simp [place]
  | cons first rest ih =>
      unfold place
      split
      · simp
      · simp only [List.mem_cons, ih, or_left_comm]

theorem place_descending {route : String × α} {routes : List (String × α)}
    (h : Descending routes) : Descending (place route routes) := by
  induction routes with
  | nil => exact List.pairwise_singleton ..
  | cons first rest ih =>
      obtain ⟨hfirst, hrest⟩ := List.pairwise_cons.mp h
      unfold place
      split
      · next hlt =>
        refine List.pairwise_cons.mpr ⟨fun other hother => ?_, h⟩
        rcases List.mem_cons.mp hother with rfl | hother
        · exact Nat.le_of_lt hlt
        · exact Nat.le_trans (hfirst _ hother) (Nat.le_of_lt hlt)
      · next hge =>
        refine List.pairwise_cons.mpr ⟨fun other hother => ?_, ih hrest⟩
        rcases mem_place.mp hother with rfl | hother
        · exact Nat.le_of_not_lt hge
        · exact hfirst _ hother

theorem ofList_concat (routes : List (String × α)) (route : String × α) :
    (ofList (routes ++ [route])).routes =
      place (normalize route.1, route.2) (ofList routes).routes := by
  simp [ofList, add]

theorem ofList_descending (routes : List (String × α)) :
    Descending (ofList routes).routes := by
  induction routes using List.reverseRecOn with
  | nil => exact List.Pairwise.nil
  | append_singleton routes route ih =>
      rw [ofList_concat]
      exact place_descending ih

theorem mem_ofList {routes : List (String × α)} {pre : String} {handler : α} :
    (pre, handler) ∈ (ofList routes).routes ↔
      ∃ route ∈ routes, pre = normalize route.1 ∧ handler = route.2 := by
  induction routes using List.reverseRecOn with
  | nil => simp [ofList, empty]
  | append_singleton routes route ih =>
      rw [ofList_concat, mem_place, ih]
      constructor
      · rintro (h | ⟨other, hmem, h⟩)
        · obtain ⟨rfl, rfl⟩ := Prod.mk.inj h
          exact ⟨route, by simp, rfl, rfl⟩
        · exact ⟨other, List.mem_append_left _ hmem, h⟩
      · rintro ⟨other, hmem, rfl, rfl⟩
        rcases List.mem_append.mp hmem with hmem | hmem
        · exact .inr ⟨other, hmem, rfl, rfl⟩
        · obtain rfl := List.mem_singleton.mp hmem
          exact .inl rfl

theorem rest?_eq_some_iff {pre path rest : List Char} :
    rest? pre path = some rest ↔ path = pre ++ rest ∧ ∀ c ∈ rest.head?, c = '/' := by
  unfold rest?
  by_cases h : pre <+: path
  · obtain ⟨t, rfl⟩ := h
    rw [if_pos (List.isPrefixOf_iff_prefix.mpr (List.prefix_append ..)), List.drop_left,
      List.append_cancel_left_eq]
    constructor
    · intro h
      split at h
      · cases h
        exact ⟨rfl, fun c hc => nomatch hc⟩
      · cases h
        exact ⟨rfl, fun c hc => (Option.some.inj hc).symm⟩
      · cases h
    · rintro ⟨rfl, hslash⟩
      cases t with
      | nil => rfl
      | cons c t =>
          obtain rfl := hslash c rfl
          rfl
  · rw [if_neg fun h' => h (List.isPrefixOf_iff_prefix.mp h')]
    simp only [reduceCtorEq, false_iff, not_and]
    rintro rfl
    exact absurd (List.prefix_append ..) h

/-- A prefix stands at another one or below it. -/
def IsBelow (top pre : String) : Prop :=
  ∃ rest, rest? top.toList pre.toList = some rest

instance (top pre : String) : Decidable (IsBelow top pre) :=
  decidable_of_iff _ Option.isSome_iff_exists

/-- Who is mounted at a prefix, with nobody else there or below it. -/
def Mounts (routes : List (String × α)) (pre : String) (handler : α) : Prop :=
  (pre, handler) ∈ routes ∧
    ∀ route ∈ routes, IsBelow pre (normalize route.1) → route = (pre, handler)

instance [DecidableEq α] (routes : List (String × α)) (pre : String) (handler : α) :
    Decidable (Mounts routes pre handler) :=
  inferInstanceAs (Decidable (_ ∧ _))

/-- Among prefixes in order, the first that matches decides, so the longest does. -/
theorem findSome?_of_longest {routes : List (String × α)} {pre : String} {handler : α}
    {path rest : List Char} (hsorted : Descending routes) (hmem : (pre, handler) ∈ routes)
    (hrest : rest? pre.toList path = some rest)
    (hlongest : ∀ route ∈ routes, (rest? route.1.toList path).isSome →
      route = (pre, handler) ∨ route.1.utf8ByteSize < pre.utf8ByteSize) :
    (routes.findSome? fun (pre, handler) =>
      (rest? pre.toList path).map fun rest => (handler, rest)) = some (handler, rest) := by
  induction routes with
  | nil => cases hmem
  | cons first routes ih =>
      obtain ⟨hfirst, hsorted⟩ := List.pairwise_cons.mp hsorted
      cases h : rest? first.1.toList path with
      | none =>
          rcases List.mem_cons.mp hmem with rfl | hmem
          · rw [hrest] at h
            cases h
          · simp only [List.findSome?_cons, h, Option.map_none]
            exact ih hsorted hmem fun route hroute => hlongest route (List.mem_cons_of_mem _ hroute)
      | some other =>
          rcases hlongest first List.mem_cons_self (by rw [h]; rfl) with rfl | hshorter
          · simp only [List.findSome?_cons, hrest, Option.map_some]
          · rcases List.mem_cons.mp hmem with rfl | hmem
            · exact absurd hshorter (Nat.lt_irrefl _)
            · exact absurd (hfirst _ hmem) (Nat.not_le_of_lt hshorter)

/-- Of two prefixes of a path the one with at least as many bytes stands at or below the other. -/
theorem isBelow_of_size_le {pre other : String} {path rest rest' : List Char}
    (hpre : rest? pre.toList path = some rest) (hother : rest? other.toList path = some rest')
    (hsize : pre.utf8ByteSize ≤ other.utf8ByteSize) : IsBelow pre other := by
  obtain ⟨rfl, hslash⟩ := rest?_eq_some_iff.mp hpre
  obtain ⟨hpath, -⟩ := rest?_eq_some_iff.mp hother
  rcases List.append_eq_append_iff.mp hpath with ⟨behind, h, rfl⟩ | ⟨behind, h, -⟩
  · refine ⟨behind, rest?_eq_some_iff.mpr ⟨h, fun c hc => hslash c ?_⟩⟩
    cases behind with
    | nil => cases hc
    | cons d behind => exact hc
  · have hpre : pre = other ++ String.ofList behind := by
      rw [← String.toList_inj, h, String.toList_append, String.toList_ofList]
    have hbehind : String.ofList behind = "" := by
      rw [hpre, String.utf8ByteSize_append] at hsize
      exact String.utf8ByteSize_eq_zero_iff.mp (by omega)
    rw [hbehind, String.append_empty] at hpre
    exact ⟨[], rest?_eq_some_iff.mpr ⟨by rw [hpre, List.append_nil], fun c hc => nomatch hc⟩⟩

/-- A route that matches is found if all others that do have shorter prefixes. -/
theorem find?_ofList_of_longest {routes : List (String × α)} {pre : String} {handler : α}
    {path rest : List Char} (hmem : (pre, handler) ∈ routes)
    (hrest : rest? (normalize pre).toList path = some rest)
    (hlongest : ∀ route ∈ routes, ∀ other, rest? (normalize route.1).toList path = some other →
      route = (pre, handler) ∨
        (normalize route.1).utf8ByteSize < (normalize pre).utf8ByteSize) :
    (ofList routes).find? path = some (handler, rest) := by
  refine findSome?_of_longest (ofList_descending routes)
    (mem_ofList.mpr ⟨_, hmem, rfl, rfl⟩) hrest ?_
  rintro ⟨other, handler'⟩ hmem' hsome
  obtain ⟨route, hroute, rfl, rfl⟩ := mem_ofList.mp hmem'
  obtain ⟨rest', hrest'⟩ := Option.isSome_iff_exists.mp hsome
  rcases hlongest route hroute rest' hrest' with rfl | hshorter
  · exact .inl rfl
  · exact .inr hshorter

/-- Who is mounted at a prefix is chosen for every path at or below it. -/
theorem find?_ofList {routes : List (String × α)} {pre : String} {handler : α}
    (hmount : Mounts routes pre handler) (hpre : normalize pre = pre) {path rest : List Char}
    (hrest : rest? pre.toList path = some rest) :
    (ofList routes).find? path = some (handler, rest) := by
  refine find?_ofList_of_longest hmount.1 (hpre.symm ▸ hrest) fun route hroute rest' hrest' => ?_
  rw [hpre]
  rcases Nat.lt_or_ge (normalize route.1).utf8ByteSize pre.utf8ByteSize with hlt | hge
  · exact .inr hlt
  · exact .inl (hmount.2 route hroute (isBelow_of_size_le hrest hrest' hge))

open Uri

theorem relative_queryOf (path cs : List Char) :
    relative ('/' :: path) ((queryOf cs).map String.ofList) =
      String.ofList ('/' :: (path ++ marked (queryOf cs))) := by
  cases h : queryOf cs with
  | none => rfl
  | some q => simp [relative, marked]

/-- Who is mounted at a prefix sees of a target below it what stands behind the prefix. -/
theorem select_ofList {routes : List (String × α)} {pre : String} {handler : α}
    (hmount : Mounts routes pre handler) (hpre : normalize pre = pre)
    (hplain : Uncut pre.toList) {request : Request} {tail : List Char}
    (huri : request.uri = behind none (pre.toList ++ '/' :: tail))
    (hallowed : Allowed (pre.toList ++ '/' :: tail))
    (hsize : (String.ofList (pre.toList ++ '/' :: beforeFragment tail)).utf8ByteSize ≤ maxSize) :
    (ofList routes).select request =
      .ok (handler, { request with uri := behind none ('/' :: tail) }) := by
  have hslash : Uncut ['/'] := by decide
  have hpath : request.uri.path.toList = pre.toList ++ '/' :: beforeQuery tail := by
    have hquery := beforeQuery_append hplain ('/' :: tail)
    rw [huri, toList_path_behind, hquery]
    · rfl
    · rw [hquery]
      simp [beforeQuery, endsPath]
  have hfind : (ofList routes).find? request.uri.path.toList =
      some (handler, '/' :: beforeQuery tail) := by
    refine find?_ofList hmount hpre (rest?_eq_some_iff.mpr ⟨hpath, ?_⟩)
    exact fun c hc => (Option.some.inj hc).symm
  have hquery : request.uri.query = (queryOf tail).map String.ofList := by
    rw [huri]
    exact congrArg (Option.map String.ofList)
      ((queryOf_append hplain _).trans (queryOf_append hslash tail))
  have hparse : Uri.parse (String.ofList ('/' :: beforeFragment tail)) =
      .ok (behind none ('/' :: tail)) := by
    have hfragment : '/' :: beforeFragment tail = beforeFragment ('/' :: tail) := rfl
    refine parse_slash_eq_ok_iff.mpr ⟨?_, ?_, ?_⟩
    · rw [String.ofList_append, String.utf8ByteSize_append] at hsize
      omega
    · rw [hfragment, allowed_beforeFragment]
      exact hallowed.of_append hplain
    · rw [hfragment, behind_beforeFragment]
  simp only [select, hfind, hquery, relative_queryOf, beforeQuery_append_marked, hparse]

end RemoteCall.Http.Router
