import RemoteCall.Proofs.Branch.Xid

/-!
# Descriptors are read where they are written

The reader puts the name of a branch together without asking whether it may be made. It may all the
same, because the reader bounds each part by its length: what is read as a descriptor is what is
written for one whose name could be made, and nothing else is.
-/

namespace RemoteCall.Descriptor

open Reader

/-- The bytes of a descriptor, or of the mark that there is none. -/
def encoding : Option Descriptor → Bytes
  | none => [0]
  | some d => 1 :: (d.xid.encoding ++ Codec.intBytes d.timeout)

theorem writeOptional_eq_put (t : Option Descriptor) : writeOptional t = .put (encoding t) := by
  cases t with
  | none => rfl
  | some d =>
      simp only [writeOptional, Wire.byte, Wire.int, Xid.write_eq_put, Emission.put_append_put]
      rfl

/-- What is read as a descriptor is what is written for it, and its name is within its limits. -/
theorem accepts_readOptional : Accepts readOptional fun b t =>
    b = encoding t ∧ ∀ d ∈ t, d.xid.WithinLimits := by
  apply Accepts.byte.ofCodec.bind
  rintro _ marker rfl
  split
  · next hnone =>
    subst hnone
    apply Accepts.pure
    exact ⟨rfl, fun d hd => nomatch hd⟩
  · split
    · next hsome =>
      subst hsome
      apply Xid.accepts_read.bind
      rintro _ xid ⟨rfl, hlimits⟩
      apply Accepts.int.ofCodec.bind
      rintro _ timeout rfl
      apply Accepts.pure
      constructor
      · rw [List.append_nil]
        rfl
      · intro d hd
        obtain rfl := Option.some.inj hd
        exact hlimits
    · exact .throw _

/-- What is taken off an input for a descriptor is what is written for it, and the name in it is one
that can be made, with at most 64 bytes in each part. The other way round, a descriptor with a name
that was made is always written, and is read back in front of whatever follows. -/
theorem optional_codec_bijective :
    (∀ c t c', readOptional c = .ok t c' →
      ∃ b, c.unread = b ++ c'.unread ∧ (writeOptional t).result = .ok b ∧
        ∀ d ∈ t, d.xid.globalId.length ≤ 64 ∧ d.xid.qualifier.length ≤ 64 ∧
          Xid.make d.xid.format d.xid.globalId d.xid.qualifier = .ok d.xid) ∧
    (∀ t : Option Descriptor,
      (∀ d ∈ t, ∃ format globalId qualifier, Xid.make format globalId qualifier = .ok d.xid) →
        ∃ b, (writeOptional t).result = .ok b ∧
          ∀ rest asked, ∃ asked', readOptional ⟨b ++ rest, asked⟩ = .ok t ⟨rest, asked'⟩) := by
  constructor
  · intro c t c' hread
    obtain ⟨b, hunread, rfl, hlimits⟩ := accepts_readOptional c t c' hread
    refine ⟨encoding t, hunread, ?_, ?_⟩
    · rw [writeOptional_eq_put, Emission.result_put]
    · intro d hd
      have hd := hlimits d hd
      exact ⟨hd.1, hd.2, Xid.make_eq_ok_iff.mpr ⟨rfl, hd⟩⟩
  · intro t hmade
    have hlimits : ∀ d ∈ t, d.xid.WithinLimits := by
      intro d hd
      obtain ⟨format, globalId, qualifier, hmake⟩ := hmade d hd
      exact (Xid.make_eq_ok_iff.mp hmake).2
    refine ⟨encoding t, ?_, ?_⟩
    · rw [writeOptional_eq_put, Emission.result_put]
    · exact (delimits_writeOptional hlimits (writeOptional_eq_put t)).whole

/-- A branch with a negative format and no qualifier, and with less than no time left; one more byte
follows. -/
theorem optional_codec_bijective_negative :
    let t : Option Descriptor := some ⟨⟨-2, [7, 8], []⟩, -5⟩
    let b : Bytes := [1, 255, 255, 255, 254, 0, 0, 0, 2, 7, 8, 0, 0, 0, 0, 255, 255, 255, 251]
    (∃ u, b ++ [9] = u ++ [9] ∧ (writeOptional t).result = .ok u ∧
      ∀ d ∈ t, d.xid.globalId.length ≤ 64 ∧ d.xid.qualifier.length ≤ 64 ∧
        Xid.make d.xid.format d.xid.globalId d.xid.qualifier = .ok d.xid) ∧
    ∃ u, (writeOptional t).result = .ok u ∧
      ∀ rest asked, ∃ asked', readOptional ⟨u ++ rest, asked⟩ = .ok t ⟨rest, asked'⟩ := by
  intro t b
  have hread : readOptional ⟨b ++ [9], #[]⟩ = .ok t ⟨[9], #[]⟩ := by rfl
  have hmade : ∀ d ∈ t, ∃ format globalId qualifier,
      Xid.make format globalId qualifier = .ok d.xid := by
    intro d hd
    obtain rfl := Option.some.inj hd
    exact ⟨-2, [7, 8], [], rfl⟩
  exact ⟨optional_codec_bijective.1 _ _ _ hread, optional_codec_bijective.2 t hmade⟩

end RemoteCall.Descriptor
