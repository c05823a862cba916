import RemoteCall.Http.Message
import RemoteCall.Proofs.RemoteException

/-!
# Chains of faults up to the nesting limit

An exception nests as deep as its chain is long, and its last message stands one level below the
last fault. So a chain of texts that are short enough is written exactly if it has at most 64
faults, and then it is read back as it was. A longer one cannot be the body of a response, which
then is a status and nothing else.
-/

namespace RemoteCall

namespace Fault

open Codec

variable {f : Fault} {causes : List Fault} {levels : Nat}

/-- The texts of a fault are short enough for their lengths. -/
def Fits (f : Fault) : Prop :=
  Codec.Fits f.className ∧ ∀ m ∈ f.message, Codec.Fits m

/-- No fault is well known, as it has a field. -/
theorem indexOf_toValue (f : Fault) (cause : Option Value) :
    Dialect.standard.known.indexOf (f.toValue cause) = none := by
  have hentries : ∀ e ∈ [
      ((0 : UInt8), Value.object "org.jboss.ejb.client.Affinity$NoAffinity" []),
      (1, .object "org.jboss.ejb.client.Affinity$LocalAffinity" []),
      (2, .text KnownValues.returnedKeys)], e.2.same (f.toValue cause) = false := by
    simp [toValue, Value.same, Value.sameFields]
  change (List.find? _ _).map _ = none
  rw [Option.map_eq_none_iff, List.find?_eq_none]
  intro e he
  rw [hentries e he]
  decide

/-- A fault that is written to its end has a level below it, where its cause is written. -/
theorem of_exists_write_toValue {cause : Option Value}
    (h : ∃ w, writeValue .standard levels (f.toValue cause) = .put w) :
    ∃ below, levels = below + 2 ∧
      ∀ v ∈ cause, ∃ w, writeValue .standard (below + 1) v = .put w := by
  match levels with
  | 0 => exact absurd h (not_exists_writeValue_zero _)
  | 1 =>
      have hmessage := exists_writeValue_field (indexOf_toValue f cause) h _ List.mem_cons_self
      exact absurd hmessage (not_exists_writeValue_zero _)
  | below + 2 =>
      refine ⟨below, rfl, ?_⟩
      intro v hv
      have hmem : ("cause", v) ∈ cause.toList.map fun c => ("cause", c) :=
        List.mem_map_of_mem (Option.mem_toList.mpr hv)
      exact exists_writeValue_field (indexOf_toValue f cause) h _
        (List.mem_cons_of_mem _ (List.mem_append_right _ hmem))

/-- A chain takes a level for each of its faults, and one for the last message. -/
theorem exists_write_chain_iff (h : ∀ g ∈ f :: causes, g.Fits) :
    (∃ w, writeValue .standard levels (f.toValue (chainValue causes)) = .put w) ↔
      causes.length + 2 ≤ levels := by
  induction causes generalizing f levels with
  | nil =>
      constructor
      · intro hw
        obtain ⟨below, rfl, -⟩ := of_exists_write_toValue hw
        exact Nat.le_add_left 2 below
      · intro hle
        obtain ⟨below, rfl⟩ := Nat.exists_eq_add_of_le' hle
        obtain ⟨hclass, hmessage⟩ := h f List.mem_cons_self
        exact exists_write_toValue hclass hmessage fun v hv => nomatch hv
  | cons g causes ih =>
      obtain ⟨hf, hcauses⟩ := List.forall_mem_cons.mp h
      constructor
      · intro hw
        obtain ⟨below, rfl, hcause⟩ := of_exists_write_toValue hw
        have hle := (ih hcauses).mp (hcause _ rfl)
        rw [List.length_cons]
        omega
      · intro hle
        rw [List.length_cons] at hle
        obtain ⟨below, rfl⟩ := Nat.exists_eq_add_of_le' (Nat.le_of_add_left_le hle)
        apply exists_write_toValue hf.1 hf.2
        intro v hv
        obtain rfl := Option.some.inj hv
        apply (ih hcauses).mpr
        omega

end Fault

namespace RemoteException

variable {e : RemoteException}

/-- Every exception of at most 64 faults is written, and no longer one. -/
theorem exists_write_iff (h : ∀ f ∈ e.chain, f.Fits) :
    (∃ b, (e.write .standard).result = .ok b) ↔ e.chain.length ≤ 64 := by
  have hlevels : Codec.maxNesting = 65 := rfl
  calc
    (∃ b, (e.write .standard).result = .ok b) ↔
        ∃ w, Codec.writeValue .standard Codec.maxNesting
          (e.top.toValue (Fault.chainValue e.causes)) = .put w := by
      simp only [Emission.result_eq_ok_iff]
      exact exists_congr fun b => Emission.mapError_eq_put_iff
    _ ↔ e.causes.length + 2 ≤ Codec.maxNesting := Fault.exists_write_chain_iff h
    _ ↔ e.chain.length ≤ 64 := by
      rw [chain, List.length_cons, hlevels]
      omega

/-- An exception whose texts are short enough is written exactly if its chain has at most 64 faults.
Then it is read back as it was, its whole chain included. If the chain is longer, a response with
it has the status alone, neither a body nor a header. -/
theorem survives_up_to_limit (h : ∀ f ∈ e.chain, f.Fits) :
    ((∃ b, (e.write .standard).result = .ok b) ↔ e.chain.length ≤ 64) ∧
      (∀ b, (e.write .standard).result = .ok b →
        Reader.outcome (read .standard) b = .ok e) ∧
      (64 < e.chain.length → ∀ status,
        Http.Response.ofException status .standard e = ⟨status, Http.Headers.empty, []⟩) := by
  refine ⟨exists_write_iff h, ?_, ?_⟩
  · intro b hw
    exact outcome_read KnownValues.protocolV1_coherent (Resolver.plain_restores _) hw
  · intro hlong status
    have hunwritten : ∀ b, (e.write .standard).result ≠ .ok b := by
      intro b hw
      have hle := (exists_write_iff h).mp ⟨b, hw⟩
      omega
    unfold Http.Response.ofException
    split
    · next b hw => exact absurd hw (hunwritten b)
    · rfl

/-- A chain of 64 faults with a well-known text as their message, and the same chain with one more
cause. -/
theorem survives_up_to_limit_well_known :
    let f : Fault := ⟨"java.lang.Exception", some KnownValues.returnedKeys, some (-7)⟩
    let e : RemoteException := ⟨f, List.replicate 63 f⟩
    (∃ b, (e.write .standard).result = .ok b ∧ Reader.outcome (read .standard) b = .ok e) ∧
      Http.Response.ofException .badRequest .standard ⟨f, List.replicate 64 f⟩ =
        ⟨.badRequest, Http.Headers.empty, []⟩ := by
  intro f e
  have hf : f.Fits := ⟨by decide, by decide⟩
  have hchain : ∀ n, ∀ g ∈ chain ⟨f, List.replicate n f⟩, g.Fits := by
    intro n g hg
    have hsame : g = f := List.eq_of_mem_replicate (n := n + 1) hg
    rw [hsame]
    exact hf
  obtain ⟨hwritten, hread, -⟩ := survives_up_to_limit (hchain 63)
  obtain ⟨b, hb⟩ := hwritten.mpr (by decide)
  obtain ⟨-, -, hbare⟩ := survives_up_to_limit (hchain 64)
  exact ⟨⟨b, hb, hread b hb⟩, hbare (by decide) .badRequest⟩

end RemoteException

end RemoteCall
