import RemoteCall.Client.Context
import RemoteCall.Client.Loopback
import RemoteCall.Proofs.Http.Routes
import RemoteCall.Proofs.Text.Trimmed

/-!
# What of a request arrives

A client puts a path behind the root of a service, and the service is mounted at that root. Each
part between them reads the target anew, and none of them decodes anything. So a request is turned
down on its way, or it arrives with all that stands before the query and the fragment of its path,
and with nothing else changed.
-/

namespace RemoteCall

open Http Http.Uri

namespace Loopback

/-- The root at which a service is mounted. -/
def mount (root : String) : List Char :=
  Text.dropTrailing (· == '/') root.toList

theorem prefix_of_strip {root : String} {r r' : Request} (h : strip root r = .ok r') :
    mount root <+: r.uri.text.toList := by
  unfold strip at h
  dsimp only at h
  split at h
  · next hfront => exact List.isPrefixOf_iff_prefix.mp hfront
  · cases h

theorem headers_of_strip {root : String} {r r' : Request} (h : strip root r = .ok r') :
    r'.headers = r.headers := by
  unfold strip at h
  dsimp only at h
  split at h
  · split at h
    · cases h
      rfl
    · cases h
  · cases h

/-- A target that loses its root is shown behind the root as far as it has no fragment. -/
theorem text_of_strip {root : String} {path : List Char} {c : Char} {r r' : Request}
    (hpath : ∃ more, path = '/' :: c :: more) (hc : c ≠ '/')
    (huri : Uri.parse (String.ofList (mount root ++ path)) = .ok r.uri)
    (h : strip root r = .ok r') : r.uri.text.toList = mount root ++ beforeFragment path := by
  have hslash : (mount root).getLast? ≠ some '/' := fun hlast =>
    absurd (Text.getLast?_dropTrailing hlast) (by decide)
  exact text_of_parse_below hslash hpath hc String.toList_ofList huri (prefix_of_strip h)

/-- Behind its root a target is read anew. -/
theorem strip_of_text {root : String} {rest : List Char} {r : Request}
    (htext : r.uri.text.toList = mount root ++ '/' :: rest) :
    strip root r =
      match Uri.parse (String.ofList ('/' :: rest)) with
      | .ok uri => .ok { r with uri }
      | .error e => .error (.io ("bad uri " ++ String.ofList ('/' :: rest) ++ ": " ++ e.message)) := by
  have hmount : Text.dropTrailing (· == '/') root.toList = mount root := rfl
  unfold strip
  dsimp only
  rw [hmount, htext, if_pos (List.isPrefixOf_iff_prefix.mpr (List.prefix_append ..)),
    List.drop_left]
  rfl

theorem strip_eq_ok {root : String} {path : List Char} {c : Char} {r r' : Request}
    (hpath : ∃ more, path = '/' :: c :: more) (hc : c ≠ '/')
    (huri : Uri.parse (String.ofList (mount root ++ path)) = .ok r.uri)
    (h : strip root r = .ok r') :
    Allowed path ∧ (String.ofList (beforeFragment path)).utf8ByteSize ≤ maxSize ∧
      r' = { r with uri := behind none path } := by
  have htext := text_of_strip hpath hc huri h
  obtain ⟨more, rfl⟩ := hpath
  have hfragment : beforeFragment ('/' :: c :: more) = '/' :: beforeFragment (c :: more) := rfl
  rw [hfragment] at htext
  rw [strip_of_text htext] at h
  split at h
  · next uri hparse =>
    cases h
    obtain ⟨hsize, hallowed, rfl⟩ := parse_slash_eq_ok_iff.mp hparse
    rw [← hfragment] at hsize hallowed ⊢
    rw [behind_beforeFragment]
    exact ⟨(allowed_beforeFragment _).mp hallowed, hsize, rfl⟩
  · cases h

variable {σ : Type}

/-- A service with routes that is mounted at a root, and may tell its version to those who ask. -/
def routed (root : String) (answersProbes : Bool) (routes : List (String × Service σ)) :
    Transport σ :=
  transport root <|
    if answersProbes then (Router.ofList routes).serve.answeringProbes
    else (Router.ofList routes).serve

/-- A response that may tell the version of the service to those who ask. -/
def announced (answersProbes : Bool) (r : Request) (response : Response) : Response :=
  if answersProbes then response.answerProbe r else response

theorem routed_eq_of_select {root : String} {answersProbes : Bool}
    {routes : List (String × Service σ)} {service : Service σ} {r stripped arrived : Request}
    (hstrip : strip root r = .ok stripped) (hheaders : stripped.headers = r.headers)
    (hselect : (Router.ofList routes).select stripped = .ok (service, arrived)) (s : σ) :
    routed root answersProbes routes r s =
      (some (.ok (announced answersProbes r (service arrived s).1)), (service arrived s).2) := by
  have hserve : (Router.ofList routes).serve stripped s = service arrived s := by
    simp only [Router.serve, hselect]
  cases answersProbes with
  | false => simp only [routed, transport, hstrip, hserve, announced, Bool.false_eq_true, if_false]
  | true =>
      simp only [routed, transport, hstrip, Service.answeringProbes, hserve, announced, if_true,
        Response.answerProbe, hheaders]

/-- Whoever is mounted at a prefix serves a request to a target below it that is shown as it is
written. -/
theorem routed_of_text {root : String} (answersProbes : Bool) {routes : List (String × Service σ)}
    {pre : String} {service : Service σ} (hmount : Router.Mounts routes pre service)
    (hpre : Router.normalize pre = pre) (hplain : Uncut pre.toList)
    (hslash : ∃ more, pre.toList = '/' :: more) {tail : List Char} {r : Request}
    (htext : r.uri.text.toList = mount root ++ (pre.toList ++ '/' :: tail))
    (hmark : '#' ∉ tail) (hallowed : Allowed (pre.toList ++ '/' :: tail))
    (hsize : (String.ofList (pre.toList ++ '/' :: tail)).utf8ByteSize ≤ maxSize) (s : σ) :
    let arrived := { r with uri := behind none ('/' :: tail) }
    routed root answersProbes routes r s =
      (some (.ok (announced answersProbes r (service arrived s).1)), (service arrived s).2) := by
  obtain ⟨more, hpre'⟩ := hslash
  have hwhole : pre.toList ++ '/' :: tail = '/' :: (more ++ '/' :: tail) := by
    rw [hpre', List.cons_append]
  have hparse : Uri.parse (String.ofList ('/' :: (more ++ '/' :: tail))) =
      .ok (behind none (pre.toList ++ '/' :: tail)) := by
    rw [hwhole] at hallowed hsize ⊢
    exact parse_slash_eq_ok_iff.mpr ⟨hsize, hallowed, rfl⟩
  have hstrip := strip_of_text (htext.trans (congrArg _ hwhole))
  rw [hparse] at hstrip
  refine routed_eq_of_select hstrip rfl
    (Router.select_ofList hmount hpre hplain rfl hallowed ?_) s
  rwa [beforeFragment_eq_self hmark]

/-- A request to a path below a prefix, where it arrives, is for whoever is mounted there, who sees
all that stands before the query and the fragment of the path. -/
theorem select_below {α : Type} {root : String} {routes : List (String × α)} {pre : String}
    {handler : α} (hmount : Router.Mounts routes pre handler) (hpre : Router.normalize pre = pre)
    (hplain : Uncut pre.toList)
    (hfirst : ∃ first more, pre.toList = '/' :: first :: more ∧ first ≠ '/') {c : Context}
    (hroot : c.root = String.ofList (mount root)) {tail : String} {r stripped : Request}
    (huri : Uri.parse (c.target (pre ++ "/" ++ tail)) = .ok r.uri)
    (hstrip : strip root r = .ok stripped) :
    stripped.headers = r.headers ∧ (Router.ofList routes).select stripped =
      .ok (handler, { r with uri := behind none ('/' :: tail.toList) }) := by
  obtain ⟨first, more, hpre', hne⟩ := hfirst
  have hpath : ∃ rest, pre.toList ++ '/' :: tail.toList = '/' :: first :: rest :=
    ⟨more ++ '/' :: tail.toList, by rw [hpre']; rfl⟩
  have htarget : c.target (pre ++ "/" ++ tail) =
      String.ofList (mount root ++ (pre.toList ++ '/' :: tail.toList)) := by
    rw [← String.toList_inj]
    simp [Context.target, hroot]
  rw [htarget] at huri
  obtain ⟨hallowed, hsize, rfl⟩ := strip_eq_ok hpath hne huri hstrip
  have hmark : '#' ∉ pre.toList := fun hmem => absurd (hplain _ hmem) (by decide)
  rw [beforeFragment_append hmark] at hsize
  exact ⟨rfl, Router.select_ofList hmount hpre hplain rfl hallowed hsize⟩

/-- A request to a path below a prefix does not reach the service, or is served by whoever is
mounted there. -/
theorem routed_below {root : String} {answersProbes : Bool} {routes : List (String × Service σ)}
    {pre : String} {service : Service σ} (hmount : Router.Mounts routes pre service)
    (hpre : Router.normalize pre = pre) (hplain : Uncut pre.toList)
    (hfirst : ∃ first more, pre.toList = '/' :: first :: more ∧ first ≠ '/') {c : Context}
    (hroot : c.root = String.ofList (mount root)) {tail : String} {r : Request}
    (huri : Uri.parse (c.target (pre ++ "/" ++ tail)) = .ok r.uri) (s : σ) :
    (∃ e, routed root answersProbes routes r s = (some (.error e), s)) ∨
      let arrived := { r with uri := behind none ('/' :: tail.toList) }
      routed root answersProbes routes r s =
        (some (.ok (announced answersProbes r (service arrived s).1)), (service arrived s).2) := by
  cases hstrip : strip root r with
  | error e =>
      refine .inl ⟨e, ?_⟩
      simp only [routed, transport, hstrip]
  | ok stripped =>
      obtain ⟨hheaders, hselect⟩ := select_below hmount hpre hplain hfirst hroot huri hstrip
      exact .inr (routed_eq_of_select hstrip hheaders hselect s)

end Loopback

end RemoteCall
