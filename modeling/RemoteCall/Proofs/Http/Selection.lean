import Mathlib.Data.List.Nodup
import RemoteCall.Proofs.Http.Routes
import RemoteCall.Proofs.Http.WellFormed

/-!
# The longest prefix is chosen

Routes are put in order as they are registered, and the first that matches a path is chosen. When
no two prefixes are the same but for slashes at their end, this is the one route with the longest
prefix among all that match, in whatever order they were registered. What stands behind the prefix,
with the query, is always a target again, so a request is turned down only when no prefix matches.
-/

namespace RemoteCall.Http

namespace Router

open Uri

variable {α σ : Type} {routes : List (String × α)} {pre path rest : String} {handler : α}

/-- What a path leaves behind a prefix, if it is the prefix or goes on behind it with a slash. -/
def IsRest (pre path rest : String) : Prop :=
  path = pre ++ rest ∧ (rest = "" ∨ ∃ more, rest = "/" ++ more)

theorem isRest_iff : IsRest pre path rest ↔ rest? pre.toList path.toList = some rest.toList := by
  rw [rest?_eq_some_iff, IsRest, ← String.toList_inj, String.toList_append]
  apply and_congr_right
  rintro -
  constructor
  · rintro (rfl | ⟨more, rfl⟩)
    · exact fun c hc => nomatch hc
    · intro c hc
      rw [String.toList_append] at hc
      exact (Option.some.inj hc).symm
  · intro hslash
    cases hrest : rest.toList with
    | nil => exact .inl (String.toList_eq_nil_iff.mp hrest)
    | cons c more =>
        obtain rfl := hslash c (by rw [hrest]; rfl)
        refine .inr ⟨String.ofList more, ?_⟩
        rw [← String.toList_inj, hrest]
        simp

/-- The route with the longest prefix of those that match a path, its prefix as it was registered,
and what the path leaves behind it. -/
structure Chosen (routes : List (String × α)) (path pre : String) (handler : α) (rest : String) :
    Prop where
  registered : (pre, handler) ∈ routes
  isRest : IsRest (normalize pre) path rest
  longest : ∀ route ∈ routes, ∀ other, IsRest (normalize route.1) path other →
    (normalize route.1).utf8ByteSize ≤ (normalize pre).utf8ByteSize

/-- No prefix matches a path. -/
def Unmatched (routes : List (String × α)) (path : String) : Prop :=
  ∀ route ∈ routes, ∀ rest, ¬ IsRest (normalize route.1) path rest

/-- Two prefixes of a path are the same if they have as many bytes. -/
theorem eq_of_size_eq {other rest' : String} (hpre : IsRest pre path rest)
    (hother : IsRest other path rest') (hsize : pre.utf8ByteSize = other.utf8ByteSize) :
    pre = other := by
  obtain ⟨tail, htail⟩ := isBelow_of_size_le (isRest_iff.mp hpre) (isRest_iff.mp hother)
    (Nat.le_of_eq hsize)
  have hother : other = pre ++ String.ofList tail := by
    rw [← String.toList_inj, String.toList_append, String.toList_ofList]
    exact (rest?_eq_some_iff.mp htail).1
  rw [hother, String.utf8ByteSize_append] at hsize
  have hzero : (String.ofList tail).utf8ByteSize = 0 := by omega
  have hempty := String.utf8ByteSize_eq_zero_iff.mp hzero
  rw [hother, hempty, String.append_empty]

/-- The search stops at the chosen route. -/
theorem Chosen.find?_eq_some (hdistinct : (routes.map fun route => normalize route.1).Nodup)
    (h : Chosen routes path pre handler rest) :
    (ofList routes).find? path.toList = some (handler, rest.toList) := by
  refine find?_ofList_of_longest h.registered (isRest_iff.mp h.isRest)
    fun route hroute cs hcs => ?_
  have hmatch : IsRest (normalize route.1) path (String.ofList cs) := by
    rw [isRest_iff, String.toList_ofList]
    exact hcs
  rcases Nat.lt_or_eq_of_le (h.longest route hroute _ hmatch) with hlt | heq
  · exact .inr hlt
  · have hpre := eq_of_size_eq hmatch h.isRest heq
    exact .inl (List.inj_on_of_nodup_map hdistinct hroute h.registered hpre)

/-- The search stops nowhere else: what stands before the place where it stops does not match, and
what stands behind it is not longer. -/
theorem exists_chosen_of_find?_eq_some
    (h : (ofList routes).find? path.toList = some (handler, rest.toList)) :
    ∃ pre, Chosen routes path pre handler rest := by
  obtain ⟨front, found, back, hsplit, hfound, hfront⟩ := List.findSome?_eq_some_iff.mp h
  obtain ⟨cs, hcs, heq⟩ := Option.map_eq_some_iff.mp hfound
  obtain ⟨rfl, rfl⟩ := Prod.mk.inj heq
  have hmem : (found.1, found.2) ∈ (ofList routes).routes := by
    rw [hsplit]
    exact List.mem_append_right _ List.mem_cons_self
  obtain ⟨route, hroute, hpre, hhandler⟩ := mem_ofList.mp hmem
  refine ⟨route.1, ⟨hhandler ▸ hroute, isRest_iff.mpr (hpre ▸ hcs), ?_⟩⟩
  intro other hother rest' hrest'
  have hin : (normalize other.1, other.2) ∈ (ofList routes).routes :=
    mem_ofList.mpr ⟨other, hother, rfl, rfl⟩
  rw [hsplit, List.mem_append, List.mem_cons] at hin
  rw [← hpre]
  rcases hin with hin | hin | hin
  · have hnone := hfront _ hin
    dsimp only at hnone
    rw [isRest_iff.mp hrest'] at hnone
    cases hnone
  · have hsame : found.1 = normalize other.1 := congrArg Prod.fst hin.symm
    exact Nat.le_of_eq (congrArg String.utf8ByteSize hsame.symm)
  · have hsorted := ofList_descending routes
    rw [hsplit] at hsorted
    obtain ⟨-, hback, -⟩ := List.pairwise_append.mp hsorted
    have hle := (List.pairwise_cons.mp hback).1 (normalize other.1, other.2) hin
    exact hle

theorem find?_eq_none_iff :
    (ofList routes).find? path.toList = none ↔ Unmatched routes path := by
  have hnone : (ofList routes).find? path.toList = none ↔
      ∀ entry ∈ (ofList routes).routes, rest? entry.1.toList path.toList = none := by
    simp [find?, List.findSome?_eq_none_iff]
  rw [hnone]
  constructor
  · intro h route hroute rest hrest
    have hrest? := h (normalize route.1, route.2) (mem_ofList.mpr ⟨route, hroute, rfl, rfl⟩)
    rw [isRest_iff.mp hrest] at hrest?
    cases hrest?
  · rintro h ⟨pre, handler⟩ hmem
    obtain ⟨route, hroute, rfl, rfl⟩ := mem_ofList.mp hmem
    rw [Option.eq_none_iff_forall_ne_some]
    intro cs hcs
    apply h route hroute (String.ofList cs)
    rw [isRest_iff, String.toList_ofList]
    exact hcs

/-- The request as it is handed over when this is left of its path. -/
def handed (request : Request) (rest : String) : Request :=
  { request with uri := ⟨none, if rest = "" then "/" else rest, request.uri.query⟩ }

/-- What is put together for the chosen one is the text of the target that it sees. -/
theorem relative_eq_text (h : IsRest pre path rest) (query : Option String) :
    relative rest.toList query = Uri.text ⟨none, if rest = "" then "/" else rest, query⟩ := by
  rw [← String.toList_inj, toList_text]
  rcases h.2 with rfl | ⟨more, rfl⟩
  · cases query <;> simp [relative, marked]
  · have hne : "/" ++ more ≠ "" := by simp
    rw [if_neg hne]
    cases query <;> simp [relative, marked]

/-- The chosen one gets the request with what is left of its path. -/
theorem select_of_find? {request : Request} (huri : request.uri.WellFormed)
    (hrest : IsRest pre request.uri.path rest)
    (hfind : (ofList routes).find? request.uri.path.toList = some (handler, rest.toList)) :
    (ofList routes).select request = .ok (handler, handed request rest) := by
  have hslash : ∃ more, (if rest = "" then "/" else rest).toList = '/' :: more := by
    rcases hrest.2 with rfl | ⟨more, rfl⟩
    · exact ⟨[], rfl⟩
    · exact ⟨more.toList, by simp⟩
  obtain ⟨more, hmore⟩ := hslash
  have hparse := parse_text (huri.rest hrest.1) rfl hmore
  simp only [select, hfind, relative_eq_text hrest, hparse]
  rfl

/-- Which request is handed to whom depends on the chosen route alone. -/
theorem select_eq_ok_iff (hdistinct : (routes.map fun route => normalize route.1).Nodup)
    {request handedOver : Request} (huri : request.uri.WellFormed) :
    (ofList routes).select request = .ok (handler, handedOver) ↔
      ∃ pre rest, Chosen routes request.uri.path pre handler rest ∧
        handedOver = handed request rest := by
  constructor
  · intro hselect
    cases hfind : (ofList routes).find? request.uri.path.toList with
    | none =>
        simp only [select, hfind] at hselect
        cases hselect
    | some found =>
        obtain ⟨handler', cs⟩ := found
        rw [← String.toList_ofList (l := cs)] at hfind
        obtain ⟨pre, hchosen⟩ := exists_chosen_of_find?_eq_some hfind
        rw [select_of_find? huri hchosen.isRest hfind] at hselect
        cases hselect
        exact ⟨pre, _, hchosen, rfl⟩
  · rintro ⟨pre, rest, hchosen, rfl⟩
    exact select_of_find? huri hchosen.isRest (hchosen.find?_eq_some hdistinct)

/-- A request is turned down only because no prefix matches. -/
theorem select_eq_error_iff {request : Request} {response : Response}
    (huri : request.uri.WellFormed) :
    (ofList routes).select request = .error response ↔
      response = .bare .notFound ∧ Unmatched routes request.uri.path := by
  cases hfind : (ofList routes).find? request.uri.path.toList with
  | none =>
      have hunmatched := find?_eq_none_iff.mp hfind
      simp only [select, hfind, Except.error.injEq, hunmatched, and_true, eq_comm]
  | some found =>
      obtain ⟨handler, cs⟩ := found
      rw [← String.toList_ofList (l := cs)] at hfind
      obtain ⟨pre, hchosen⟩ := exists_chosen_of_find?_eq_some hfind
      rw [select_of_find? huri hchosen.isRest hfind]
      constructor
      · intro h
        cases h
      · rintro ⟨-, hunmatched⟩
        exact absurd hchosen.isRest (hunmatched _ hchosen.registered _)

theorem Chosen.of_perm {others : List (String × α)} (h : Chosen routes path pre handler rest)
    (hperm : others.Perm routes) : Chosen others path pre handler rest where
  registered := hperm.mem_iff.mpr h.registered
  isRest := h.isRest
  longest route hroute := h.longest route (hperm.mem_iff.mp hroute)

/-- The order in which routes were registered does not matter. -/
theorem select_of_perm (hdistinct : (routes.map fun route => normalize route.1).Nodup)
    {request : Request} (huri : request.uri.WellFormed) {others : List (String × α)}
    (hperm : others.Perm routes) :
    (ofList others).select request = (ofList routes).select request := by
  have hothers : (others.map fun route => normalize route.1).Nodup :=
    (hperm.map _).nodup_iff.mpr hdistinct
  cases hselect : (ofList routes).select request with
  | error response =>
      obtain ⟨rfl, hunmatched⟩ := (select_eq_error_iff huri).mp hselect
      apply (select_eq_error_iff huri).mpr
      exact ⟨rfl, fun route hroute => hunmatched route (hperm.mem_iff.mp hroute)⟩
  | ok selected =>
      obtain ⟨pre, rest, hchosen, hhanded⟩ := (select_eq_ok_iff hdistinct huri).mp hselect
      exact (select_eq_ok_iff hothers huri).mpr ⟨pre, rest, hchosen.of_perm hperm, hhanded⟩

/-- Routes whose prefixes differ in more than slashes at their end, and a request for any target.
The request is handed to the service whose prefix is the longest that matches the path, and this
service sees what is left of the path, or a slash if nothing is, with the query, the method, the
headers and the body as they were. The request is turned down exactly if no prefix matches, and then
as not found. The order in which the routes were registered does not matter. -/
theorem selects_longest {routes : List (String × Service σ)} {request : Request} {s : String}
    (hdistinct : (routes.map fun route => normalize route.1).Nodup)
    (huri : Uri.parse s = .ok request.uri) :
    (∀ service handedOver, (ofList routes).select request = .ok (service, handedOver) ↔
      ∃ pre rest, Chosen routes request.uri.path pre service rest ∧
        handedOver = handed request rest) ∧
    (∀ response, (ofList routes).select request = .error response ↔
      response = .bare .notFound ∧ Unmatched routes request.uri.path) ∧
    (∀ t, (∃ pre service rest, Chosen routes request.uri.path pre service rest ∧
        (ofList routes).serve request t = service (handed request rest) t) ∨
      (Unmatched routes request.uri.path ∧
        (ofList routes).serve request t = (.bare .notFound, t))) ∧
    ∀ others, others.Perm routes →
      (ofList others).select request = (ofList routes).select request ∧
      ∀ t, (ofList others).serve request t = (ofList routes).serve request t := by
  have hwell := wellFormed_of_parse huri
  refine ⟨fun service handedOver => select_eq_ok_iff hdistinct hwell,
    fun response => select_eq_error_iff hwell, fun t => ?_, fun others hperm => ?_⟩
  · cases hselect : (ofList routes).select request with
    | error response =>
        obtain ⟨rfl, hunmatched⟩ := (select_eq_error_iff hwell).mp hselect
        exact .inr ⟨hunmatched, by simp only [serve, hselect]⟩
    | ok selected =>
        obtain ⟨service, handedOver⟩ := selected
        obtain ⟨pre, rest, hchosen, rfl⟩ := (select_eq_ok_iff hdistinct hwell).mp hselect
        exact .inl ⟨pre, service, rest, hchosen, by simp only [serve, hselect]⟩
  · have hsame := select_of_perm hdistinct hwell hperm
    exact ⟨hsame, fun t => by simp only [serve, hsame]⟩

/-- Two prefixes and the empty one match a path with two slashes in a row behind the longest, which
was registered last, or first. -/
theorem selects_longest_of_nested :
    let tell : String → Service (List (String × Request)) := fun name request told =>
      (.bare .ok, told ++ [(name, request)])
    let routes := [("/ejb", tell "ejb"), ("", tell "root"), ("/ejb/v1/invoke/", tell "invoke")]
    let request : Request :=
      ⟨"POST", ⟨none, "/ejb/v1/invoke//a", some "x=1"⟩, Headers.empty, [7]⟩
    let seen : Request := ⟨"POST", ⟨none, "//a", some "x=1"⟩, Headers.empty, [7]⟩
    (ofList routes).select request = .ok (tell "invoke", seen) ∧
      (ofList routes.reverse).serve request [] = (.bare .ok, [("invoke", seen)]) := by
  intro tell routes request seen
  have hdistinct : (routes.map fun route => normalize route.1).Nodup := by decide +kernel
  have huri : Uri.parse "/ejb/v1/invoke//a?x=1" = .ok request.uri := by rfl
  obtain ⟨hselect, -, -, horder⟩ := selects_longest hdistinct huri
  have hsize : ∀ route ∈ routes,
      (normalize route.1).utf8ByteSize ≤ (normalize "/ejb/v1/invoke/").utf8ByteSize := by
    simp only [routes, List.forall_mem_cons]
    decide +kernel
  have hchosen : Chosen routes request.uri.path "/ejb/v1/invoke/" (tell "invoke") "//a" :=
    ⟨by simp [routes], ⟨by decide +kernel, .inr ⟨"/a", by decide⟩⟩,
      fun route hroute _ _ => hsize route hroute⟩
  have hinvoke : (ofList routes).select request = .ok (tell "invoke", seen) :=
    (hselect _ _).mpr ⟨_, _, hchosen, by decide⟩
  refine ⟨hinvoke, ?_⟩
  rw [(horder routes.reverse routes.reverse_perm).2, serve, hinvoke]
  rfl

end Router

end RemoteCall.Http
