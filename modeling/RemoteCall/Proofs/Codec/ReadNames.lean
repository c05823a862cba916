import RemoteCall.Proofs.Codec.Accepted
import RemoteCall.Value.Names

/-!
# The names in values that are read

The name of a type comes into a value from the resolver, or with a well-known value, which is
taken whole and never shown to the resolver. When both give only names of some sort, then the names
in a value that is read are of this sort at any depth.
-/

namespace RemoteCall

variable {ok : String → Prop}

/-- The resolver gives only names of a sort. -/
structure Resolver.Gives (r : Resolver) (ok : String → Prop) : Prop where
  ofClass : ∀ name c, (r.resolveClass name).answer = .ok c → ok c
  ofProxy : ∀ names interfaces, (r.resolveProxy names).answer = .ok interfaces →
    ∀ i ∈ interfaces, ok i

/-- All names in the well-known values are of a sort. -/
def KnownValues.Gives (k : KnownValues) (ok : String → Prop) : Prop :=
  ∀ i v, k.valueAt i = some v → ∀ name ∈ v.typeNames, ok name

namespace Resolver

theorem Gives.weaken {r : Resolver} {ok' : String → Prop} (h : r.Gives ok)
    (hok : ∀ name, ok name → ok' name) : r.Gives ok' where
  ofClass name c hc := hok c (h.ofClass name c hc)
  ofProxy names interfaces hi i hmem := hok i (h.ofProxy names interfaces hi i hmem)

/-- A filter before names that are taken as they are gives only names that it admits. -/
theorem filtered_plain_gives (admits : String → Bool) :
    (filtered (some admits) plain).Gives fun name => admits name = true where
  ofClass name c h := by
    obtain ⟨_, hcheck, hplain⟩ := Consultation.bind_answer_eq_ok h
    obtain rfl : name = c := Except.ok.inj hplain
    exact admits_of_check hcheck
  ofProxy names interfaces h := by
    obtain ⟨_, hcheck, hplain⟩ := Consultation.bind_answer_eq_ok h
    rw [plain_resolveProxy] at hplain
    obtain rfl : names = interfaces := Except.ok.inj hplain
    intro i hi
    obtain ⟨_, hi⟩ := Consultation.each_answer_eq_ok hcheck i hi
    exact admits_of_check hi

/-- Renaming before a resolver is asked does not change what names it gives. -/
theorem Gives.renamed {r : Resolver} (h : r.Gives ok) (fromWire toWire : String → String) :
    (r.renamed fromWire toWire).Gives ok where
  ofClass name := h.ofClass (fromWire name)
  ofProxy names := h.ofProxy (names.map fromWire)

end Resolver

/-- The well-known values of protocol version 1 name two types. -/
theorem KnownValues.protocolV1_gives_iff :
    protocolV1.Gives ok ↔ ok "org.jboss.ejb.client.Affinity$NoAffinity" ∧
      ok "org.jboss.ejb.client.Affinity$LocalAffinity" := by
  constructor
  · intro h
    exact ⟨h 0 _ rfl _ List.mem_cons_self, h 1 _ rfl _ List.mem_cons_self⟩
  · rintro ⟨hno, hlocal⟩ i v hv name hname
    obtain ⟨front, back, hentries, -⟩ := List.lookup_eq_some_iff.mp hv
    have hmem : (i, v) ∈ front ++ (i, v) :: back := List.mem_append_right _ List.mem_cons_self
    rw [← hentries] at hmem
    simp only [List.mem_cons, Prod.mk.injEq, List.not_mem_nil, or_false] at hmem
    rcases hmem with ⟨-, rfl⟩ | ⟨-, rfl⟩ | ⟨-, rfl⟩
    · exact List.mem_singleton.mp hname ▸ hno
    · exact List.mem_singleton.mp hname ▸ hlocal
    · cases hname

namespace Codec

open Reader

variable {d : Dialect}

theorem typeNames_ok_of_nil {v : Value} (h : v.typeNames = []) : ∀ name ∈ v.typeNames, ok name := by
  intro name hname
  rw [h] at hname
  cases hname

section Contents

/-! What is read after the tag of a value that holds others. -/

variable {levels : Nat}

theorem list_makes_typeNames
    (each : Makes (readValue d levels) fun v => ∀ name ∈ v.typeNames, ok name) :
    Makes
      (do
        let n ← Reader.count
        Value.list <$> Reader.times (readValue d levels) n)
      fun v => ∀ name ∈ v.typeNames, ok name := by
  refine .after fun n => (each.times n).map fun items hitems name hname => ?_
  obtain ⟨v, hv, hmem⟩ := Value.mem_itemNames_iff.mp hname
  exact hitems v hv name hmem

theorem object_makes_typeNames (hr : d.resolver.Gives ok)
    (each : Makes (readValue d levels) fun v => ∀ name ∈ v.typeNames, ok name) :
    Makes
      (do
        let name ← Reader.text
        let className ← Reader.consult (d.resolver.resolveClass name)
        let n ← Reader.count
        Value.object className <$> Reader.times (readField d levels) n)
      fun v => ∀ name ∈ v.typeNames, ok name := by
  have hfield : Makes (readField d levels) fun e => ∀ name ∈ e.2.typeNames, ok name :=
    .after fun key => each.bind fun v hv => .pure hv
  refine .after fun wireName => (Makes.consult _).bind fun c hc => .after fun n => ?_
  refine (hfield.times n).map fun fields hfields name hname => ?_
  rcases List.mem_cons.mp hname with rfl | hname
  · exact hr.ofClass _ _ hc
  · obtain ⟨e, he, hmem⟩ := Value.mem_fieldNames_iff.mp hname
    exact hfields e he name hmem

theorem proxy_makes_typeNames (hr : d.resolver.Gives ok)
    (below : Makes (readValue d levels) fun v => ∀ name ∈ v.typeNames, ok name) :
    Makes
      (do
        let n ← Reader.count
        let names ← Reader.times Reader.text n
        let interfaces ← Reader.consult (d.resolver.resolveProxy names)
        Value.proxy interfaces <$> readValue d levels)
      fun v => ∀ name ∈ v.typeNames, ok name := by
  refine .after fun n => .after fun names => (Makes.consult _).bind fun interfaces hi => ?_
  refine below.map fun handler hhandler name hname => ?_
  rcases List.mem_append.mp hname with hname | hname
  · exact hr.ofProxy _ _ hi name hname
  · exact hhandler name hname

end Contents

/-- Whatever is read as a value has only names that the resolver or the table gives. -/
theorem readValue_makes_typeNames (hr : d.resolver.Gives ok) (hk : d.known.Gives ok)
    (levels : Nat) : Makes (readValue d levels) fun v => ∀ name ∈ v.typeNames, ok name := by
  induction levels with
  | zero => exact .throw _
  | succ levels ih =>
      rw [readValue]
      refine .after fun t => ?_
      cases t with
      | null => exact .pure (typeNames_ok_of_nil rfl)
      | yes => exact .pure (typeNames_ok_of_nil rfl)
      | no => exact .pure (typeNames_ok_of_nil rfl)
      | int => exact .map (.any _) fun _ _ => typeNames_ok_of_nil rfl
      | long => exact .map (.any _) fun _ _ => typeNames_ok_of_nil rfl
      | double => exact .map (.any _) fun _ _ => typeNames_ok_of_nil rfl
      | text => exact .map (.any _) fun _ _ => typeNames_ok_of_nil rfl
      | bytes => exact .after fun n => .map (.any _) fun _ _ => typeNames_ok_of_nil rfl
      | list => exact list_makes_typeNames ih
      | object => exact object_makes_typeNames hr ih
      | proxy => exact proxy_makes_typeNames hr ih
      | reference =>
          refine .after fun i => ?_
          split
          · next v hv => exact .pure (hk i v hv)
          · exact .throw _

end Codec

end RemoteCall
