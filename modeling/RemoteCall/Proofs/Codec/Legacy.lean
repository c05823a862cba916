import RemoteCall.Proofs.Codec.Consulting
import RemoteCall.Proofs.Codec.Renaming

/-!
# Legacy peers and current peers

What a legacy peer is sent is what a current peer is sent for the same value under legacy names,
and what is read from a legacy peer is what is read from a current peer under current names: the
same value comes of it, and the filter is asked for the same names in the same order. Only values
that have legacy names themselves are not given back by a legacy peer.
-/

namespace RemoteCall

/-! ### Well-known values and names -/

namespace KnownValues

/-- The numbers of values do not depend on names that are changed in this way. -/
def Ignores (k : KnownValues) (f : String → String) : Prop :=
  ∀ v : Value, k.indexOf (v.rename f) = k.indexOf v

/-- A well-known value has no name that is changed. -/
theorem Ignores.rename_eq_self {k : KnownValues} {f : String → String} (h : k.Ignores f)
    (hk : k.Coherent) {v : Value} {i : UInt8} (hi : k.indexOf v = some i) : v.rename f = v :=
  Option.some.inj ((hk _ i ((h v).trans hi)).symm.trans (hk v i hi))

theorem same_object_nil_rename {f : String → String} {c : String}
    (h : ∀ name, f name = c ↔ name = c) (v : Value) :
    Value.same (.object c []) (v.rename f) = Value.same (.object c []) v := by
  cases v with
  | object c' fields =>
      have hname : (c == f c') = (c == c') := by
        rw [Bool.eq_iff_iff, beq_iff_eq, beq_iff_eq, eq_comm, h, eq_comm]
      cases fields with
      | nil => simp [Value.rename, Value.renameFields, Value.same, hname]
      | cons e fields => simp [Value.rename, Value.renameFields, Value.same, Value.sameFields]
  | _ => simp [Value.rename, Value.same]

theorem same_text_rename (f : String → String) (s : String) (v : Value) :
    Value.same (.text s) (v.rename f) = Value.same (.text s) v := by
  cases v <;> simp [Value.rename, Value.same]

/-- The well-known values of protocol version 1 are told by two names, which are to be the new names
of themselves only. -/
theorem protocolV1_ignores {f : String → String}
    (hno : ∀ name, f name = "org.jboss.ejb.client.Affinity$NoAffinity" ↔
      name = "org.jboss.ejb.client.Affinity$NoAffinity")
    (hlocal : ∀ name, f name = "org.jboss.ejb.client.Affinity$LocalAffinity" ↔
      name = "org.jboss.ejb.client.Affinity$LocalAffinity") : protocolV1.Ignores f := by
  intro v
  simp only [protocolV1, ofEntries, List.find?_cons, List.find?_nil,
    same_object_nil_rename hno, same_object_nil_rename hlocal, same_text_rename]

theorem protocolV1_ignores_toCurrent : protocolV1.Ignores Namespace.toCurrent := by
  refine protocolV1_ignores (fun name => ?_) (fun name => ?_)
  · exact Namespace.toCurrent_eq_iff (by decide) (by decide)
  · exact Namespace.toCurrent_eq_iff (by decide) (by decide)

theorem protocolV1_ignores_toLegacy : protocolV1.Ignores Namespace.toLegacy := by
  refine protocolV1_ignores (fun name => ?_) (fun name => ?_)
  · exact Namespace.toLegacy_eq_iff (by decide) (by decide)
  · exact Namespace.toLegacy_eq_iff (by decide) (by decide)

end KnownValues

/-! ### Writing and reading under other names -/

namespace Codec

variable {known : KnownValues} {f g : String → String}

/-- Writing under other names is writing the value that has these names. -/
theorem writeValue_renamed (hknown : known.Ignores g) (levels : Nat) (v : Value) :
    writeValue ⟨Resolver.plain.renamed f g, known⟩ levels v =
      writeValue ⟨Resolver.plain, known⟩ levels (v.rename g) := by
  induction levels generalizing v with
  | zero => rfl
  | succ levels ih =>
      cases hi : known.indexOf v with
      | some i => simp only [writeValue, hknown v, hi]
      | none =>
          have hi' : known.indexOf (v.rename g) = none := (hknown v).trans hi
          cases v with
          | list items =>
              have hitems : items.map (writeValue ⟨Resolver.plain.renamed f g, known⟩ levels) =
                  (items.map (Value.rename g)).map (writeValue ⟨Resolver.plain, known⟩ levels) := by
                rw [List.map_map]
                exact List.map_congr_left fun v _ => ih v
              rw [Value.rename, Value.renameItems_eq_map] at hi' ⊢
              simp only [writeValue, hi, hi', hitems, List.length_map]
          | object c fields =>
              rw [Value.rename, Value.renameFields_eq_map] at hi' ⊢
              simp only [writeValue, hi, hi', List.length_map, List.map_map]
              congr 2
              exact List.map_congr_left fun e _ => congrArg (putText e.1 ++ ·) (ih e.2)
          | proxy interfaces handler =>
              rw [Value.rename] at hi' ⊢
              simp only [writeValue, hi, hi', List.length_map, List.map_map, ih]
              rfl
          | bool b => cases b <;> simp only [Value.rename, writeValue, hi]
          | _ => simp only [Value.rename, writeValue, hi]

end Codec

namespace Value

variable {known : KnownValues} {f : String → String}

mutual

/-- What comes of a value under other names is what comes of the value that has these names. -/
theorem resolved_renamed (hk : known.Coherent) (h : known.Ignores f) (g : String → String)
    (r : Resolver) (v : Value) :
    v.resolved ⟨r.renamed f g, known⟩ = (v.rename f).resolved ⟨r, known⟩ := by
  cases hi : known.indexOf v with
  | some i =>
      rw [h.rename_eq_self hk hi, resolved.eq_def, resolved.eq_def]
      simp only [hi]
  | none =>
      have hi' : known.indexOf (v.rename f) = none := (h v).trans hi
      match v with
      | .list items =>
          simp only [rename] at hi' ⊢
          simp only [resolved, hi, hi', resolvedItems_renamed hk h g r items]
      | .object c fields =>
          simp only [rename] at hi' ⊢
          simp only [resolved, hi, hi', resolvedFields_renamed hk h g r fields]
          rfl
      | .proxy interfaces handler =>
          simp only [rename] at hi' ⊢
          simp only [resolved, hi, hi', resolved_renamed hk h g r handler]
          rfl
      | .null | .bool _ | .int _ | .long _ | .double _ | .text _ | .bytes _ =>
          simp only [rename, resolved, hi]

theorem resolvedItems_renamed (hk : known.Coherent) (h : known.Ignores f) (g : String → String)
    (r : Resolver) (items : List Value) :
    resolvedItems ⟨r.renamed f g, known⟩ items = resolvedItems ⟨r, known⟩ (renameItems f items) := by
  match items with
  | [] => rfl
  | v :: vs =>
      simp only [resolvedItems, renameItems, resolved_renamed hk h g r v,
        resolvedItems_renamed hk h g r vs]

theorem resolvedFields_renamed (hk : known.Coherent) (h : known.Ignores f) (g : String → String)
    (r : Resolver) (fields : List (String × Value)) :
    resolvedFields ⟨r.renamed f g, known⟩ fields =
      resolvedFields ⟨r, known⟩ (renameFields f fields) := by
  match fields with
  | [] => rfl
  | (k, v) :: fields =>
      simp only [resolvedFields, renameFields, resolved_renamed hk h g r v,
        resolvedFields_renamed hk h g r fields]

end

end Value

/-! ### What a filter lets through -/

/-- A filter does not admit the name. -/
def Refuses (admits : Option (String → Bool)) (name : String) : Prop :=
  ∃ f, admits = some f ∧ f name = false

namespace Consultation

variable {α β : Type} {admits : Option (String → Bool)}

/-- The answer is this one, unless the filter does not admit the name of a type. -/
def Passes (admits : Option (String → Bool)) (c : Consultation α) (a : α) : Prop :=
  c.answer = .ok a ∨ ∃ name, Refuses admits name ∧ c.answer = .error (.refusedName name)

theorem Passes.pure (a : α) : (Consultation.pure a).Passes admits a := .inl rfl

theorem Passes.bind {c : Consultation α} {a : α} {next : α → Consultation β} {b : β}
    (h : c.Passes admits a) (hnext : (next a).Passes admits b) : (c.bind next).Passes admits b := by
  unfold Consultation.bind
  rcases h with h | ⟨name, hname, h⟩
  · rw [h]
    exact hnext
  · rw [h]
    exact .inr ⟨name, hname, rfl⟩

theorem Passes.map {c : Consultation α} {a : α} (h : c.Passes admits a) (f : α → β) :
    (c.map f).Passes admits (f a) := by
  rcases h with h | ⟨name, hname, h⟩
  · exact .inl (congrArg (Except.map f) h)
  · exact .inr ⟨name, hname, congrArg (Except.map f) h⟩

theorem Passes.each {ask : String → Consultation α} {answer : String → α}
    (h : ∀ name, (ask name).Passes admits (answer name)) (names : List String) :
    (Consultation.each ask names).Passes admits (names.map answer) := by
  induction names with
  | nil => exact .pure []
  | cons name names ih => exact (h name).bind (ih.map _)

end Consultation

namespace Resolver

theorem check_passes (f : String → Bool) (name : String) :
    (check f name).Passes (some f) () := by
  cases hf : f name with
  | true => exact .inl (by rw [check, hf]; rfl)
  | false => exact .inr ⟨name, ⟨f, rfl, hf⟩, by rw [check, hf]; rfl⟩

theorem filtered_resolveClass_passes (admits : Option (String → Bool)) (name : String) :
    ((filtered admits plain).resolveClass name).Passes admits name := by
  cases admits with
  | none => exact .pure name
  | some f => exact (check_passes f name).bind (.pure name)

theorem filtered_resolveProxy_passes (admits : Option (String → Bool)) (names : List String) :
    ((filtered admits plain).resolveProxy names).Passes admits names := by
  have hplain : (plain.resolveProxy names).Passes admits names := by
    rw [plain_resolveProxy]
    exact .pure names
  cases admits with
  | none => exact hplain
  | some f => exact (Consultation.Passes.each (check_passes f) names).bind hplain

end Resolver

namespace Value

mutual

/-- A value comes through a filter as it is or not at all. -/
theorem resolved_passes (known : KnownValues) (admits : Option (String → Bool)) (v : Value) :
    (v.resolved ⟨Resolver.filtered admits .plain, known⟩).Passes admits v := by
  cases hi : known.indexOf v with
  | some i =>
      rw [resolved.eq_def]
      simp only [hi]
      exact .pure v
  | none =>
      match v with
      | .list items =>
          simp only [resolved, hi]
          exact (resolvedItems_passes known admits items).map _
      | .object c fields =>
          simp only [resolved, hi]
          exact (Resolver.filtered_resolveClass_passes admits c).bind
            ((resolvedFields_passes known admits fields).map _)
      | .proxy interfaces handler =>
          simp only [resolved, hi]
          exact (Resolver.filtered_resolveProxy_passes admits interfaces).bind
            ((resolved_passes known admits handler).map _)
      | .null | .bool _ | .int _ | .long _ | .double _ | .text _ | .bytes _ =>
          simp only [resolved, hi]
          exact .pure _

theorem resolvedItems_passes (known : KnownValues) (admits : Option (String → Bool))
    (items : List Value) :
    (resolvedItems ⟨Resolver.filtered admits .plain, known⟩ items).Passes admits items := by
  match items with
  | [] => exact .pure []
  | v :: vs =>
      exact (resolved_passes known admits v).bind ((resolvedItems_passes known admits vs).map _)

theorem resolvedFields_passes (known : KnownValues) (admits : Option (String → Bool))
    (fields : List (String × Value)) :
    (resolvedFields ⟨Resolver.filtered admits .plain, known⟩ fields).Passes admits fields := by
  match fields with
  | [] => exact .pure []
  | (k, v) :: fields =>
      exact ((resolved_passes known admits v).map _).bind
        ((resolvedFields_passes known admits fields).map _)

end

end Value

namespace Codec

open Reader Namespace

/-- The dialect of a peer with current names. -/
def currentDialect (r : Resolver) : Dialect := ⟨r, .protocolV1⟩

/-- The dialect of a peer with legacy names. -/
def legacyDialect (r : Resolver) : Dialect := ⟨translated r, .protocolV1⟩

/-- A legacy peer is sent what a current peer is sent for the value under legacy names. -/
theorem write_legacy (v : Value) :
    write (legacyDialect .plain) v = write (currentDialect .plain) (v.rename toLegacy) :=
  writeValue_renamed KnownValues.protocolV1_ignores_toLegacy maxNesting v

theorem consulted_current (r : Resolver) {v : Value} {b : Bytes}
    (hb : write (currentDialect .plain) v = .put b) :
    consulted (read (currentDialect r)) b = v.resolved (currentDialect r) :=
  (finds_writeValue KnownValues.protocolV1_coherent hb).consulted_eq

/-- What is read from a legacy peer is what would be read of the value under current names. -/
theorem consulted_legacy (r : Resolver) {v : Value} {b : Bytes}
    (hb : write (legacyDialect .plain) v = .put b) :
    consulted (read (legacyDialect r)) b =
      (v.rename toCurrent).resolved (currentDialect r) := by
  rw [write_legacy] at hb
  have hfinds : Finds (read (legacyDialect r)) b
      ((v.rename toLegacy).resolved (legacyDialect r)) :=
    finds_writeValue KnownValues.protocolV1_coherent hb
  have hrenamed : (v.rename toLegacy).resolved (legacyDialect r) =
      ((v.rename toLegacy).rename toCurrent).resolved (currentDialect r) :=
    Value.resolved_renamed KnownValues.protocolV1_coherent KnownValues.protocolV1_ignores_toCurrent
      toLegacy r _
  have hnames : (fun name => toCurrent (toLegacy name)) = toCurrent := funext toCurrent_toLegacy_eq
  rw [hfinds.consulted_eq, hrenamed, Value.rename_rename, hnames]

/-- Reading what a legacy peer is sent comes to the same as reading what a current peer is sent for
the value under current names: the filter is asked for the same names, and the value under current
names is given back or the same name is refused. What a legacy peer is sent has only names that it
knows, and without a filter a value is given back exactly when it has no legacy names itself. -/
theorem legacy_path_refines_current (v : Value) (b : Bytes)
    (hb : write (legacyDialect .plain) v = .put b) :
    (∀ b', write (currentDialect .plain) (v.rename toCurrent) = .put b' →
      ∀ admits : Option (String → Bool),
        consulted (read (legacyDialect (.filtered admits .plain))) b =
          consulted (read (currentDialect (.filtered admits .plain))) b' ∧
        (outcome (read (currentDialect (.filtered admits .plain))) b' = .ok (v.rename toCurrent) ∨
          ∃ name, Refuses admits name ∧
            outcome (read (currentDialect (.filtered admits .plain))) b' =
              .error (.refusedName name))) ∧
    (outcome (read (currentDialect .plain)) b = .ok (v.rename toLegacy) ∧
      ∀ name ∈ (v.rename toLegacy).typeNames, ¬ IsCurrent name) ∧
    (outcome (read (legacyDialect .plain)) b = .ok v ↔ ∀ name ∈ v.typeNames, ¬ IsLegacy name) := by
  have hunfiltered : ∀ w : Value, (w.resolved (currentDialect .plain)).answer = .ok w := fun w =>
    (Value.resolved_passes .protocolV1 none w).resolve_right fun ⟨_, ⟨_, hf, _⟩, _⟩ => nomatch hf
  refine ⟨fun b' hb' admits => ?_, ⟨?_, fun name hname => ?_⟩, ?_⟩
  · rw [← answer_consulted, consulted_legacy _ hb, consulted_current _ hb']
    exact ⟨rfl, Value.resolved_passes .protocolV1 admits _⟩
  · rw [← answer_consulted, consulted_current _ (write_legacy v ▸ hb)]
    exact hunfiltered _
  · rw [Value.typeNames_rename] at hname
    obtain ⟨own, -, rfl⟩ := List.mem_map.mp hname
    exact not_isCurrent_toLegacy own
  · rw [← answer_consulted, consulted_legacy _ hb, hunfiltered, Except.ok.injEq,
      Value.rename_eq_self_iff]
    simp only [toCurrent_eq_self_iff]

/-- A value with a class that has moved, with an interface under its legacy name, and with one of the
platform, before a filter that refuses the interface under its current name. -/
theorem legacy_path_refines_current_of_moved :
    let v : Value := .list [
      .object "jakarta.ejb.Handle" [("a", .text "jboss.returned.keys")],
      .proxy ["javax.transaction.xa.XAResource", "javax.jms.Queue"] .null]
    let admits := NameRule.admits ⟨["jakarta.jms."], none⟩
    ∃ b b', write (legacyDialect .plain) v = .put b ∧
      write (currentDialect .plain) (v.rename toCurrent) = .put b' ∧
      consulted (read (legacyDialect (.filtered (some admits) .plain))) b =
        consulted (read (currentDialect (.filtered (some admits) .plain))) b' ∧
      outcome (read (legacyDialect .plain)) b ≠ .ok v := by
  intro v admits
  have hput : ∀ a : Emission CodecError, a.stopped.isNone = true → a = .put a.bytes := by
    rintro ⟨bytes, stopped⟩ h
    obtain rfl : stopped = none := Option.isNone_iff_eq_none.mp h
    rfl
  have hb := hput (write (legacyDialect .plain) v) (by decide +kernel)
  have hb' := hput (write (currentDialect .plain) (v.rename toCurrent)) (by decide +kernel)
  have hlegacy : IsLegacy "javax.jms.Queue" := by decide
  obtain ⟨hsame, -, hback⟩ := legacy_path_refines_current v _ hb
  refine ⟨_, _, hb, hb', (hsame _ hb' (some admits)).1, fun h => ?_⟩
  refine hback.mp h "javax.jms.Queue" ?_ hlegacy
  decide

end Codec

end RemoteCall
