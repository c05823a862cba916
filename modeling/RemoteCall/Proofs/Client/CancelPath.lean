import RemoteCall.Client.Invocation
import RemoteCall.Proofs.Invocation.Address

/-!
# Which call a cancel request names

A client writes the names of a component and the number of a call into the path of a cancel
request as they are, and the service reads the number from the fifth place. A path is cut at its
query and its fragment, and a number with a slash takes more than one place. So the service reads
the number that the client wrote exactly when nothing of it is cut off and it takes one place.
-/

namespace RemoteCall

open Http.Uri

namespace Text

/-- Names with a slash behind each of them, and what follows. -/
def below (names : List (List Char)) (rest : List Char) : List Char :=
  names.foldr (fun name rest => name ++ '/' :: rest) rest

@[simp] theorem below_cons (name : List Char) (names : List (List Char)) (rest : List Char) :
    below (name :: names) rest = name ++ '/' :: below names rest :=
  rfl

end Text

open Text

namespace Http.Uri

/-- Names of which nothing is cut off are parts of their own. -/
theorem split_beforeQuery_below {names : List (List Char)} (hslash : ∀ name ∈ names, '/' ∉ name)
    (hplain : ∀ name ∈ names, Uncut name) (rest : List Char) :
    split '/' (beforeQuery (below names rest)) = names ++ split '/' (beforeQuery rest) := by
  induction names with
  | nil => rfl
  | cons name names ih =>
      obtain ⟨hname, hnames⟩ := List.forall_mem_cons.mp hplain
      obtain ⟨hno, hslash⟩ := List.forall_mem_cons.mp hslash
      rw [below_cons, beforeQuery_append hname, beforeQuery_slash, split_append hno, ih hslash hnames,
        List.cons_append]

/-- Where something is cut off from one of the names, nothing is left behind them. -/
theorem length_split_beforeQuery_below {names : List (List Char)}
    (hslash : ∀ name ∈ names, '/' ∉ name)
    (hcut : ¬ ∀ name ∈ names, Uncut name) (rest : List Char) :
    (split '/' (beforeQuery (below names rest))).length ≤ names.length := by
  induction names with
  | nil => exact absurd (List.forall_mem_nil _) hcut
  | cons name names ih =>
      obtain ⟨hno, hslash⟩ := List.forall_mem_cons.mp hslash
      rw [below_cons]
      by_cases hname : Uncut name
      · have hnames := fun h => hcut (List.forall_mem_cons.mpr ⟨hname, h⟩)
        rw [beforeQuery_append hname, beforeQuery_slash, split_append hno]
        exact Nat.succ_le_succ (ih hslash hnames)
      · have hshort : beforeQuery (name ++ '/' :: below names rest) = beforeQuery name := by
          have hlength : (name.takeWhile fun c => !endsPath c).length ≠ name.length := fun h =>
            hname (beforeQuery_eq_self_iff.mp ((List.takeWhile_prefix _).eq_of_length h))
          rw [beforeQuery, List.takeWhile_append, if_neg hlength, beforeQuery]
        have hnone : '/' ∉ beforeQuery name := fun h => hno ((List.takeWhile_subset _) h)
        rw [hshort, split_of_not_mem hnone]
        exact Nat.le_add_left 1 _

end Http.Uri

namespace OutgoingCancel

variable {order : OutgoingCancel}

/-- The parts of a cancel path before the number of the call. -/
def places (order : OutgoingCancel) : List (List Char) :=
  [Address.dash order.address.component.app.toList,
    Address.dash order.address.component.moduleName.toList,
    Address.dash order.address.component.distinct.toList,
    order.address.component.component.toList]

/-- What stands in a cancel path behind those parts. -/
def numbered (order : OutgoingCancel) : List Char :=
  order.requestId.toList ++ if order.isAggressive then "/true".toList else []

/-- A cancel path as a service sees it. -/
def shown (order : OutgoingCancel) : List Char :=
  '/' :: beforeQuery (below order.places order.numbered)

/-- The number that a service reads from a cancel path, with what it takes for the flag. -/
def read? (order : OutgoingCancel) : Option (String × Bool) :=
  Cancel.ofPath? order.shown

theorem cancelPath_eq (order : OutgoingCancel) :
    Client.cancelPath order =
      "/ejb/v1/cancel" ++ "/" ++ String.ofList (below order.places order.numbered) := by
  have hfront : "/ejb/v1/cancel/" = "/ejb/v1/cancel" ++ "/" := by decide
  unfold Client.cancelPath
  rw [hfront]
  generalize "/ejb/v1/cancel" ++ "/" = pre
  have hslash : "/".toList = ['/'] := rfl
  apply String.toList_injective
  simp only [places, below, numbered, List.foldr_cons, List.foldr_nil, String.toList_append, hslash,
    String.toList_ofList, List.append_assoc, List.cons_append, List.nil_append]
  split
  · rfl
  · rfl

/-- Nothing of the names and the number is cut off, and the number takes one place. -/
structure Plain (order : OutgoingCancel) : Prop where
  places : ∀ place ∈ order.places, Uncut place
  number : Uncut order.requestId.toList
  one_place : '/' ∉ order.requestId.toList
  present : order.requestId ≠ ""

theorem places_no_slash (h : Address.parse order.address.render = .ok order.address) :
    ∀ place ∈ order.places, '/' ∉ place := by
  have hname : ∀ name ∈ order.address.names, '/' ∉ name.toList := fun name hmem hslash =>
    (Address.mem_of_parse h name hmem '/' hslash).2 rfl
  have hdash : ∀ name ∈ order.address.names, '/' ∉ Address.dash name.toList := by
    intro name hmem
    unfold Address.dash
    split
    · decide
    · exact hname name hmem
  simp only [Address.names, List.forall_mem_cons] at hname hdash
  simp only [places, List.forall_mem_cons]
  exact ⟨hdash.1, hdash.2.1, hdash.2.2.1, hname.2.2.2.1, List.forall_mem_nil _⟩

/-- Slashes at the front say nothing, and there is but the one that every path has. -/
theorem dropWhile_shown (h : ∀ place ∈ order.places, '/' ∉ place) :
    order.shown.dropWhile (· == '/') = beforeQuery (below order.places order.numbered) := by
  have happ := h _ List.mem_cons_self
  have hne : Address.dash order.address.component.app.toList ≠ [] := by
    unfold Address.dash
    split
    · exact List.cons_ne_nil _ _
    · next hne => exact hne
  obtain ⟨c, cs, hcs⟩ := List.exists_cons_of_ne_nil hne
  rw [hcs] at happ
  have hc : c ≠ '/' := fun h => happ (h ▸ List.mem_cons_self)
  rw [shown, places, hcs, below_cons, List.cons_append, beforeQuery, List.takeWhile_cons,
    List.dropWhile_cons, if_pos (by decide)]
  split
  · rw [List.dropWhile_cons, if_neg (by simpa using hc)]
  · rfl

/-- What a service reads from a path stands in the fifth of its parts. -/
theorem of_ofPath?_eq_some {path : List Char} {id : String} {isAggressive : Bool}
    (h : Cancel.ofPath? path = some (id, isAggressive)) :
    4 < (split '/' (path.dropWhile (· == '/'))).length ∧ id ≠ "" ∧
      ∀ c ∈ id.toList, c ∈ path.dropWhile (· == '/') ∧ c ≠ '/' := by
  unfold Cancel.ofPath? at h
  split at h
  · next part _ hsplit =>
    split at h
    · cases h
    · next hne =>
      obtain ⟨rfl, -⟩ := Prod.mk.inj (Option.some.inj h)
      have hpart : part ∈ split '/' (path.dropWhile (· == '/')) := by
        rw [hsplit]
        simp
      refine ⟨?_, ?_, fun c hc => ?_⟩
      · rw [hsplit]
        simp only [List.length_cons]
        omega
      · rw [Ne, ← String.toList_eq_nil_iff, String.toList_ofList]
        exact hne
      · rw [String.toList_ofList] at hc
        exact mem_of_mem_split hpart hc
  · cases h

/-- An order of which a service reads the number that was written is plain. -/
theorem plain_of_read? (h : ∀ place ∈ order.places, '/' ∉ place) {isAggressive : Bool}
    (hread : order.read? = some (order.requestId, isAggressive)) : order.Plain := by
  obtain ⟨hlength, hne, hparts⟩ := of_ofPath?_eq_some hread
  rw [dropWhile_shown h] at hlength hparts
  refine ⟨Classical.byContradiction fun hcut => ?_,
    fun c hc => uncut_beforeQuery _ c (hparts c hc).1, fun hslash => (hparts '/' hslash).2 rfl, hne⟩
  have hshort := length_split_beforeQuery_below h hcut order.numbered
  have hfour : order.places.length = 4 := rfl
  omega

/-- Nothing of the number of a plain order and of its flag is cut off. -/
theorem Plain.beforeQuery_numbered (hplain : order.Plain) :
    beforeQuery order.numbered = order.numbered := by
  have hflag : Uncut "/true".toList := by decide
  refine beforeQuery_eq_self_iff.mpr fun c hc => ?_
  rcases List.mem_append.mp hc with hc | hc
  · exact hplain.number c hc
  · split at hc
    · exact hflag c hc
    · cases hc

/-- The number of a plain order is one part, and its flag another. -/
theorem Plain.split_numbered (hplain : order.Plain) :
    split '/' order.numbered =
      order.requestId.toList :: if order.isAggressive then ["true".toList] else [] := by
  have hslash := hplain.one_place
  unfold numbered
  split
  · have htrue : "/true".toList = '/' :: "true".toList := by decide
    have hsplit : split '/' "true".toList = ["true".toList] := by decide
    rw [htrue, split_append hslash, hsplit]
  · rw [List.append_nil, split_of_not_mem hslash]

/-- Of a plain order a service reads the number and the flag that the client meant. -/
theorem read?_of_plain (h : ∀ place ∈ order.places, '/' ∉ place) (hplain : order.Plain) :
    order.read? = some (order.requestId, order.isAggressive) := by
  have hne : order.requestId.toList ≠ [] := by
    rw [Ne, String.toList_eq_nil_iff]
    exact hplain.present
  have hsame : Text.sameFolded "true".toList "true".toList = true := by decide
  unfold read? Cancel.ofPath?
  rw [dropWhile_shown h, split_beforeQuery_below h hplain.places, hplain.beforeQuery_numbered,
    hplain.split_numbered]
  simp only [places, List.cons_append, List.nil_append, if_neg hne, String.ofList_toList]
  cases order.isAggressive with
  | false => rfl
  | true => simp only [if_true, hsame]

/-- A service reads the number and the flag that the client meant exactly when the order is
plain. -/
theorem read?_eq_some_iff (h : ∀ place ∈ order.places, '/' ∉ place) :
    order.read? = some (order.requestId, order.isAggressive) ↔ order.Plain :=
  ⟨plain_of_read? h, read?_of_plain h⟩

end OutgoingCancel

end RemoteCall
