import RemoteCall.Proofs.Codec.ReadNames
import RemoteCall.Proofs.Invocation.Values
import RemoteCall.Service.Config

/-!
# What the class filter of a service keeps out

The resolver of a service gives only names that its filter admits, whatever is renamed before the
filter is asked. A well-known value that is read as a reference never meets the resolver, so that
the names in these values get in whether or not the filter admits them.
-/

namespace RemoteCall

open Reader

variable {ok : String → Prop}

theorem ServiceConfig.resolver_gives {c : ServiceConfig} {admits : String → Bool}
    (hc : c.filter = some admits) (peer : ProtocolVersion) :
    (c.resolver peer).Gives fun name => admits name = true := by
  unfold resolver
  rw [hc]
  split
  · exact (Resolver.filtered_plain_gives admits).renamed _ _
  · exact Resolver.filtered_plain_gives admits

namespace ServiceConfig

open Invocation

/-- Every call that a service decodes has only names that are admitted. -/
def Gates (c : ServiceConfig) (peer : ProtocolVersion) (admits : String → Bool) : Prop :=
  ∀ n body r, Reader.outcome (Request.read (c.dialect peer) n) body = .ok r →
    ∀ v ∈ r.values, ∀ name ∈ v.typeNames, admits name = true

/-- In a call that a service decodes, names are of a sort when the filter admits only names of this
sort and the table has no others. -/
theorem typeNames_of_decoded {c : ServiceConfig} {admits : String → Bool} {peer : ProtocolVersion}
    {n : Nat} {body : Bytes} {r : Request} (hc : c.filter = some admits)
    (hok : ∀ name, admits name = true → ok name) (hk : c.known.Gives ok)
    (hread : Reader.outcome (Request.read (c.dialect peer) n) body = .ok r) :
    ∀ v ∈ r.values, ∀ name ∈ v.typeNames, ok name := by
  obtain ⟨c', hread⟩ := Reader.outcome_eq_ok_iff.mp hread
  have hr : (c.resolver peer).Gives ok := (c.resolver_gives hc peer).weaken hok
  have hvalue : Makes (Parse.value (c.dialect peer)) fun v => ∀ name ∈ v.typeNames, ok name :=
    (Codec.readValue_makes_typeNames hr hk _).ofCodec
  exact Request.read_makes hvalue n _ _ _ hread

/-- A name in a decoded call is admitted by the filter or comes with a well-known value, so that
the filter gates all names exactly when it admits those in the table. -/
theorem filter_gates_iff {c : ServiceConfig} {admits : String → Bool}
    (hc : c.filter = some admits) (peer : ProtocolVersion) :
    (∀ n body r, Reader.outcome (Request.read (c.dialect peer) n) body = .ok r →
      ∀ v ∈ r.values, ∀ name ∈ v.typeNames,
        admits name = true ∨ ∃ i u, c.known.valueAt i = some u ∧ name ∈ u.typeNames) ∧
    (c.Gates peer admits ↔ c.known.Gives fun name => admits name = true) ∧
    (c.known = .protocolV1 →
      (c.Gates peer admits ↔ admits "org.jboss.ejb.client.Affinity$NoAffinity" = true ∧
        admits "org.jboss.ejb.client.Affinity$LocalAffinity" = true)) := by
  have hiff : c.Gates peer admits ↔ c.known.Gives fun name => admits name = true := by
    constructor
    · intro h i v hv
      exact h 1 _ _ (Request.outcome_read_reference hv) v List.mem_cons_self
    · intro hk n body r hread
      exact typeNames_of_decoded hc (fun _ h => h) hk hread
  refine ⟨fun n body r hread => ?_, hiff, fun hk => ?_⟩
  · have hk : c.known.Gives fun name =>
        admits name = true ∨ ∃ i u, c.known.valueAt i = some u ∧ name ∈ u.typeNames :=
      fun i u hu name hname => .inr ⟨i, u, hu, hname⟩
    exact typeNames_of_decoded hc (fun _ h => .inl h) hk hread
  · rw [hiff, hk, KnownValues.protocolV1_gives_iff]

/-- Where the names of the table are admitted nothing else gets past the filter. -/
theorem filter_gates_iff_legacy :
    let admits := NameRule.admits ⟨["evil."], none⟩
    let c := { standard with filter := some admits, interop := true }
    c.Gates .v1 admits := by
  intro admits c
  refine ((filter_gates_iff (c := c) rfl .v1).2.2 rfl).mpr ⟨?_, ?_⟩
  · decide +kernel
  · decide +kernel

/-- A type that the filter refuses is decoded all the same when it is the first of the table. -/
theorem refused_name_in_reference :
    let admits := NameRule.admits ⟨["org.jboss."], none⟩
    let c := { standard with filter := some admits }
    Reader.outcome (Request.read (c.dialect .v2) 1) [0x00, 0x40, 0x00, 0x00] =
        .ok ⟨none, [.object "org.jboss.ejb.client.Affinity$NoAffinity" []], ∅⟩ ∧
      admits "org.jboss.ejb.client.Affinity$NoAffinity" = false ∧ ¬ c.Gates .v2 admits := by
  intro admits c
  have hread := Request.outcome_read_reference (d := c.dialect .v2) (i := 0) rfl
  have hrefused : admits "org.jboss.ejb.client.Affinity$NoAffinity" = false := by decide +kernel
  refine ⟨hread, hrefused, fun h => ?_⟩
  have hadmitted := h 1 _ _ hread _ List.mem_cons_self _ List.mem_cons_self
  rw [hrefused] at hadmitted
  cases hadmitted

end ServiceConfig

end RemoteCall
