import RemoteCall.Codec.Error

/-!
# Resolving the names of types

Every class or interface name that is read passes a resolver, which gives the local name or
refuses. What the resolver's owner was asked along the way is part of the answer: a filter that
is consulted too late, twice, or not at all gives a different record.
-/

namespace RemoteCall

/-- An answer, and the questions put to the owner of the resolver before it was given. -/
structure Consultation (α : Type) where
  asked : List String
  answer : Except CodecError α

namespace Consultation

/-- An answer that needed no question. -/
def pure {α : Type} (a : α) : Consultation α := ⟨[], .ok a⟩

/-- Goes on with the answer, unless there is none. -/
def bind {α β : Type} (c : Consultation α) (next : α → Consultation β) : Consultation β :=
  match c.answer with
  | .ok a =>
    let following := next a
    ⟨c.asked ++ following.asked, following.answer⟩
  | .error e => ⟨c.asked, .error e⟩

/-- The answer in another form. -/
def map {α β : Type} (f : α → β) (c : Consultation α) : Consultation β :=
  ⟨c.asked, c.answer.map f⟩

/-- One answer for each name in turn, up to the first failure. -/
def each {α : Type} (ask : String → Consultation α) : List String → Consultation (List α)
  | [] => pure []
  | name :: names => (ask name).bind fun a => (each ask names).map (a :: ·)

theorem bind_answer_eq_ok {α β : Type} {c : Consultation α} {next : α → Consultation β} {b : β}
    (h : (c.bind next).answer = .ok b) :
    ∃ a, c.answer = .ok a ∧ (next a).answer = .ok b := by
  unfold bind at h
  split at h
  · next a ha => exact ⟨a, ha, h⟩
  · cases h

theorem map_answer_eq_ok {α β : Type} {c : Consultation α} {f : α → β} {b : β}
    (h : (c.map f).answer = .ok b) : ∃ a, c.answer = .ok a ∧ f a = b := by
  unfold map at h
  cases hc : c.answer with
  | ok a =>
      simp only [hc] at h
      exact ⟨a, rfl, Except.ok.inj h⟩
  | error e =>
      simp only [hc] at h
      cases h

/-- When each of several questions has an answer, so has any of them. -/
theorem each_answer_eq_ok {α : Type} {ask : String → Consultation α} {names : List String}
    {as : List α} (h : (each ask names).answer = .ok as) :
    ∀ name ∈ names, ∃ a, (ask name).answer = .ok a := by
  induction names generalizing as with
  | nil => exact List.forall_mem_nil _
  | cons name names ih =>
      obtain ⟨a, ha, hrest⟩ := bind_answer_eq_ok h
      obtain ⟨as', has, -⟩ := map_answer_eq_ok hrest
      exact List.forall_mem_cons.mpr ⟨⟨a, ha⟩, ih has⟩

end Consultation

/-- The names of types on the wire and their local counterparts. -/
structure Resolver where
  /-- The local name of a class that was read. -/
  resolveClass : String → Consultation String
  /-- The local names of the interfaces of a proxy, all of them together. -/
  resolveProxy : List String → Consultation (List String)
  /-- The name to write for a local name. -/
  annotate : String → String

/-- A rule that admits the name of a type by how it begins. -/
structure NameRule where
  /-- Beginnings that are refused. -/
  deny : List String
  /-- Beginnings of which one is required, where given. -/
  allow : Option (List String)
  deriving DecidableEq, Repr

/-- Whether a rule admits a name. -/
def NameRule.admits (rule : NameRule) (name : String) : Bool :=
  !rule.deny.any (name.startsWith ·) &&
    match rule.allow with
    | none => true
    | some allowed => allowed.any (name.startsWith ·)

namespace Resolver

/-- A resolver for single names, which resolves the interfaces of a proxy one by one. -/
def ofClasses (resolve : String → Consultation String) (annotate : String → String) : Resolver where
  resolveClass := resolve
  resolveProxy := Consultation.each resolve
  annotate := annotate

/-- Takes every name as it is. -/
def plain : Resolver :=
  ofClasses Consultation.pure id

theorem plain_resolveProxy (names : List String) :
    plain.resolveProxy names = Consultation.pure names := by
  induction names with
  | nil => rfl
  | cons name names ih =>
      change (Consultation.pure name).bind
        (fun a => (plain.resolveProxy names).map (a :: ·)) = _
      rw [ih]
      rfl

/-- Knows the listed names only, as pairs of a wire name and a local name. -/
def listed (names : List (String × String)) : Resolver :=
  ofClasses
    (fun name =>
      ⟨["known:" ++ name],
        match names.lookup name with
        | some here => .ok here
        | none => .error (.unknownName name)⟩)
    (fun name =>
      match names.find? (·.2 == name) with
      | some (wire, _) => wire
      | none => name)

/-- Asks a filter about a name. -/
def check (admits : String → Bool) (name : String) : Consultation Unit :=
  ⟨[name], if admits name then .ok () else .error (.refusedName name)⟩

theorem admits_of_check {admits : String → Bool} {name : String} {u : Unit}
    (h : (check admits name).answer = .ok u) : admits name = true := by
  unfold check at h
  split at h
  · assumption
  · cases h

/-- Lets a name pass to the inner resolver only when a filter admits it. All interfaces of a proxy
pass the filter before the inner resolver sees the first of them. -/
def filtered (admits : Option (String → Bool)) (inner : Resolver) : Resolver :=
  match admits with
  | none => inner
  | some admits =>
    { resolveClass := fun name => (check admits name).bind fun _ => inner.resolveClass name
      resolveProxy := fun names =>
        (Consultation.each (check admits) names).bind fun _ => inner.resolveProxy names
      annotate := inner.annotate }

/-- Renames what is read before the inner resolver sees it, and what is written after it. -/
def renamed (fromWire toWire : String → String) (inner : Resolver) : Resolver where
  resolveClass name := inner.resolveClass (fromWire name)
  resolveProxy names := inner.resolveProxy (names.map fromWire)
  annotate name := toWire (inner.annotate name)

end Resolver

end RemoteCall
