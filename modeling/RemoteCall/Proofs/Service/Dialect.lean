import RemoteCall.Http.Message
import RemoteCall.Proofs.Codec.Legacy
import RemoteCall.Proofs.RemoteException
import RemoteCall.Service.Config

/-!
# What a service writes for names

A service takes names as they are, except that a legacy peer is shown legacy names. These are never
longer than the current ones, and going back and forth ends at the legacy name that was read. So a
name that was read from a peer can be written for the same peer. The classes of most exceptions have
never moved, and are written as they are for every peer, so that only a message that is too long
keeps an exception out of a response.
-/

namespace RemoteCall

open Codec

namespace Namespace

/-- No name is longer for a legacy peer. -/
theorem length_toLegacy_le (name : String) :
    (Bytes.ofText (toLegacy name)).length ≤ (Bytes.ofText name).length := by
  by_cases h : IsUnder currentRoot name.toList
  · obtain ⟨rest, hname, hmoved⟩ := isUnder_iff.mp h
    have hroots : (Bytes.ofText (String.ofList legacyRoot)).length ≤
        (Bytes.ofText (String.ofList currentRoot)).length := by decide
    rw [toLegacy, hname, changeRoot_append hmoved, ← String.ofList_toList (s := name), hname,
      Bytes.ofText_ofList_append, Bytes.ofText_ofList_append, List.length_append,
      List.length_append]
    exact Nat.add_le_add_right hroots _
  · rw [toLegacy, changeRoot_eq_self h, String.ofList_toList]

end Namespace

theorem Consultation.Passes.eq_of_ok {α : Type} {admits : Option (String → Bool)}
    {c : Consultation α} {a x : α} (h : c.Passes admits a) (hx : c.answer = .ok x) : x = a := by
  rcases h with h | ⟨name, -, h⟩
  · exact Except.ok.inj (hx.symm.trans h)
  · cases hx.symm.trans h

namespace Resolver

variable (admits : Option (String → Bool))

@[simp] theorem filtered_annotate (name : String) :
    (filtered admits plain).annotate name = name := by
  cases admits with
  | none => rfl
  | some f => rfl

theorem filtered_answerable : (filtered admits plain).Answerable where
  ofClass name c hname h := by
    obtain rfl := (filtered_resolveClass_passes admits name).eq_of_ok h
    rwa [filtered_annotate]
  ofProxy names interfaces hnames h := by
    obtain rfl := (filtered_resolveProxy_passes admits names).eq_of_ok h
    exact ⟨Nat.le_refl _, fun i hi => by rw [filtered_annotate]; exact hnames i hi⟩

theorem translated_answerable : (Namespace.translated (filtered admits plain)).Answerable := by
  -- the current name of what was read has the same legacy name as this
  have hback {name : String} (hname : Fits name) : Fits ((Namespace.translated
      (filtered admits plain)).annotate (Namespace.toCurrent name)) := by
    change Fits (Namespace.toLegacy ((filtered admits plain).annotate _))
    rw [filtered_annotate, Namespace.toLegacy_toCurrent_eq]
    exact Nat.lt_of_le_of_lt (Namespace.length_toLegacy_le name) hname
  constructor
  · intro name c hname h
    obtain rfl := (filtered_resolveClass_passes admits (Namespace.toCurrent name)).eq_of_ok h
    exact hback hname
  · intro names interfaces hnames h
    obtain rfl :=
      (filtered_resolveProxy_passes admits (names.map Namespace.toCurrent)).eq_of_ok h
    refine ⟨Nat.le_of_eq (List.length_map _), List.forall_mem_map.mpr fun name hname => ?_⟩
    exact hback (hnames name hname)

end Resolver

theorem ServiceConfig.resolver_answerable (config : ServiceConfig) (peer : ProtocolVersion) :
    (config.resolver peer).Answerable := by
  unfold ServiceConfig.resolver
  dsimp only
  split
  · exact Resolver.translated_answerable config.filter
  · exact Resolver.filtered_answerable config.filter

namespace ServiceConfig

/-- A name that has not moved is written as it is. -/
theorem annotate_eq_self (config : ServiceConfig) (peer : ProtocolVersion) {name : String}
    (h : ¬ Namespace.IsCurrent name) : (config.dialect peer).resolver.annotate name = name := by
  unfold dialect resolver
  dsimp only
  split
  · change Namespace.toLegacy ((Resolver.filtered config.filter Resolver.plain).annotate name) = _
    rw [Resolver.filtered_annotate, Namespace.toLegacy, Namespace.changeRoot_eq_self h,
      String.ofList_toList]
  · exact Resolver.filtered_annotate config.filter name

/-- An exception of a class that has not moved is written for every peer, if its message is short
enough. -/
theorem exists_write_ofMessage (config : ServiceConfig) (peer : ProtocolVersion)
    {className message : String} (hclass : ¬ Namespace.IsCurrent className)
    (hfits : Fits className) (hmessage : Fits message) :
    ∃ body, ((RemoteException.ofMessage className message).write
      (config.dialect peer)).result = .ok body := by
  refine RemoteException.exists_write_of_fits ?_ fun m hm => ?_
  · change Fits ((config.dialect peer).resolver.annotate className)
    rwa [annotate_eq_self config peer hclass]
  · obtain rfl := Option.some.inj hm
    exact hmessage

/-- A failure whose class has not moved is told by an exception, unless its message is too long to
be written; then nothing but its status is told. -/
theorem ofException_cases (config : ServiceConfig) (peer : ProtocolVersion) (status : Http.Status)
    (className message : String) (hclass : ¬ Namespace.IsCurrent className)
    (hfits : Fits className) :
    (∃ body, ((RemoteException.ofMessage className message).write
        (config.dialect peer)).result = .ok body ∧
      Http.Response.ofException status (config.dialect peer) (.ofMessage className message) =
        .withBody status MediaType.exception body) ∨
    (¬ Fits message ∧
      Http.Response.ofException status (config.dialect peer) (.ofMessage className message) =
        .bare status) := by
  unfold Http.Response.ofException
  split
  · next body hbody => exact .inl ⟨body, hbody, rfl⟩
  · next e herror =>
    refine .inr ⟨fun hmessage => ?_, rfl⟩
    obtain ⟨body, hbody⟩ := config.exists_write_ofMessage peer hclass hfits hmessage
    rw [hbody] at herror
    cases herror

end ServiceConfig

end RemoteCall
