import RemoteCall.Proofs.Codec.Accepted
import RemoteCall.Proofs.Codec.RoundTrip

/-!
# One form for each value

Where names are taken as they are and no value is known by number, the reader accepts nothing that
the writer does not put out. The postcondition of the reader is that the writer, at the same nesting
level, puts out exactly the bytes that were taken; it is carried through the levels by induction.
-/

namespace RemoteCall.Codec

open Reader

variable {levels : Nat}

section Contents

/-! What is taken after the tag of a value that holds others. -/

theorem accepts_list
    (each : Accepts (readValue .plain levels) fun b v => writeValue .plain levels v = .put b) :
    Accepts
      (do
        let n ← Reader.count
        Value.list <$> Reader.times (readValue .plain levels) n)
      fun b v => writeValue .plain (levels + 1) v = .put (Tag.list.code :: b) := by
  apply Accepts.count.bind
  intro b n hn
  apply (each.times_concat n).map
  rintro b' items ⟨rfl, hitems⟩
  change putTag .list ++ putLength items.length ++
    Emission.concat (items.map (writeValue .plain levels)) = _
  rw [hn, hitems]
  rfl

theorem accepts_object
    (each : Accepts (readValue .plain levels) fun b v => writeValue .plain levels v = .put b) :
    Accepts
      (do
        let name ← Reader.text
        let className ← Reader.consult (Resolver.plain.resolveClass name)
        let n ← Reader.count
        Value.object className <$> Reader.times (readField .plain levels) n)
      fun b v => writeValue .plain (levels + 1) v = .put (Tag.object.code :: b) := by
  have hfield : Accepts (readField .plain levels) fun b e =>
      putText e.1 ++ writeValue .plain levels e.2 = .put b := by
    apply Accepts.text.bind
    intro b key hkey
    apply each.bind
    intro b' v hv
    apply Accepts.pure
    change putText key ++ writeValue .plain levels v = _
    rw [hkey, hv, List.append_nil]
    rfl
  apply Accepts.text.bind
  intro b name hname
  apply (Accepts.consult _).bind
  rintro _ className ⟨rfl, hclass⟩
  obtain rfl := Except.ok.inj hclass
  apply Accepts.count.bind
  intro b' n hn
  apply (hfield.times_concat n).map
  rintro b'' fields ⟨rfl, hfields⟩
  change putTag .object ++ putText name ++ putLength fields.length ++
    Emission.concat (fields.map fun e => putText e.1 ++ writeValue .plain levels e.2) = _
  rw [hname, hn, hfields]
  simp only [putTag, Emission.put_append_put, List.append_assoc, List.cons_append, List.nil_append]

theorem accepts_proxy
    (below : Accepts (readValue .plain levels) fun b v => writeValue .plain levels v = .put b) :
    Accepts
      (do
        let n ← Reader.count
        let names ← Reader.times Reader.text n
        let interfaces ← Reader.consult (Resolver.plain.resolveProxy names)
        Value.proxy interfaces <$> readValue .plain levels)
      fun b v => writeValue .plain (levels + 1) v = .put (Tag.proxy.code :: b) := by
  apply Accepts.count.bind
  intro b n hn
  apply (Accepts.text.times_concat n).bind
  rintro b' names ⟨rfl, hnames⟩
  apply (Accepts.consult _).bind
  rintro _ interfaces ⟨rfl, hproxy⟩
  rw [Resolver.plain_resolveProxy] at hproxy
  obtain rfl := Except.ok.inj hproxy
  apply below.map
  intro b'' handler hhandler
  change putTag .proxy ++ putLength names.length ++
    Emission.concat (names.map putText) ++ writeValue .plain levels handler = _
  rw [hn, hnames, hhandler]
  simp only [putTag, Emission.put_append_put, List.append_assoc, List.cons_append, List.nil_append]

end Contents

/-- Whatever is read as a value is what the writer puts out for it. -/
theorem accepts_readValue (levels : Nat) :
    Accepts (readValue .plain levels) fun b v => writeValue .plain levels v = .put b := by
  induction levels with
  | zero => exact Accepts.throw _
  | succ levels ih =>
      rw [readValue]
      apply Accepts.tag.bind
      rintro _ t rfl
      cases t with
      | null => exact Accepts.pure rfl
      | yes => exact Accepts.pure rfl
      | no => exact Accepts.pure rfl
      | int =>
          apply Accepts.int.map
          rintro _ n rfl
          rfl
      | long =>
          apply (Accepts.word 8).map
          rintro _ n ⟨hn, rfl⟩
          change putTag .long ++ Emission.put (longBytes (UInt64.ofNat n).toInt64) = _
          rw [longBytes, UInt64.toUInt64_toInt64, UInt64.toNat_ofNat_of_lt' hn]
          rfl
      | double =>
          apply (Accepts.word 8).map
          rintro _ n ⟨hn, rfl⟩
          change putTag .double ++ Emission.put (Bytes.ofNat 8 (UInt64.ofNat n).toNat) = _
          rw [UInt64.toNat_ofNat_of_lt' hn]
          rfl
      | text =>
          apply Accepts.text.map
          intro b s hs
          change putTag .text ++ putText s = _
          rw [hs]
          rfl
      | bytes =>
          apply (Accepts.word 4).bind
          rintro _ n ⟨hn, rfl⟩
          apply (Accepts.take n).map
          rintro _ b ⟨rfl, rfl⟩
          change putTag .bytes ++ putBlock b = _
          rw [putBlock_eq_put_iff.mpr ⟨hn, rfl⟩]
          rfl
      | list => exact accepts_list ih
      | object => exact accepts_object ih
      | proxy => exact accepts_proxy ih
      | reference => exact Accepts.byte.bind fun _ _ _ => Accepts.throw _

/-- Reads a value to the end of the input. -/
def readWhole (d : Dialect) : Reader CodecError Value := do
  let v ← read d
  Reader.finish
  pure v

theorem outcome_readWhole_eq_ok_iff {d : Dialect} {b : Bytes} {v : Value} :
    Reader.outcome (readWhole d) b = .ok v ↔
      ∃ asked, read d (Cursor.start b) = .ok v ⟨[], asked⟩ := by
  rw [Reader.outcome_eq_ok_iff]
  constructor
  · rintro ⟨c, hwhole⟩
    obtain ⟨u, c', hread, hend⟩ := bind_eq_ok hwhole
    obtain ⟨_, c'', hfinish, hpure⟩ := bind_eq_ok hend
    obtain ⟨hunread, -⟩ := finish_eq_ok_iff.mp hfinish
    cases hpure
    exact ⟨c'.asked, by rw [hread, ← hunread]⟩
  · rintro ⟨asked, hread⟩
    exact ⟨⟨[], asked⟩, bind_of_ok hread _⟩

/-- At every nesting level the reader takes exactly what the writer puts out at that level. -/
theorem writeValue_eq_put_iff {b : Bytes} {v : Value} :
    writeValue .plain levels v = .put b ↔
      ∀ rest asked, ∃ asked',
        readValue .plain levels ⟨b ++ rest, asked⟩ = .ok v ⟨rest, asked'⟩ := by
  constructor
  · intro hw
    exact (delimits_writeValue KnownValues.empty_coherent (Resolver.plain_restores v) hw).whole
  · intro h
    obtain ⟨asked, hread⟩ := h [] #[]
    obtain ⟨b', hb, hw⟩ := accepts_readValue levels _ _ _ hread
    rw [List.append_nil, List.append_nil] at hb
    obtain rfl : b = b' := hb
    exact hw

/-- A whole input is read as a value when it is what the writer puts out for the value. -/
theorem outcome_readWhole_plain_eq_ok_iff {b : Bytes} {v : Value} :
    Reader.outcome (readWhole .plain) b = .ok v ↔ (write .plain v).result = .ok b := by
  rw [outcome_readWhole_eq_ok_iff, Emission.result_eq_ok_iff]
  constructor
  · rintro ⟨asked, hread⟩
    obtain ⟨b', hb, hw⟩ := accepts_readValue maxNesting _ _ _ hread
    rw [List.append_nil] at hb
    obtain rfl : b = b' := hb
    exact hw
  · intro hw
    obtain ⟨asked, hread⟩ := writeValue_eq_put_iff.mp hw [] #[]
    rw [List.append_nil] at hread
    exact ⟨asked, hread⟩

/-- The bytes that are taken for a value are the ones that are written for it, and no others; this
holds of the inputs that are values as a whole, so that no two of them are the same value, and it
holds at every nesting level. -/
theorem plain_canonical :
    (∀ c v c', read .plain c = .ok v c' →
      ∃ b, c.unread = b ++ c'.unread ∧ (write .plain v).result = .ok b) ∧
    (∀ b v, Reader.outcome (readWhole .plain) b = .ok v ↔ (write .plain v).result = .ok b) ∧
    (∀ b b' v, Reader.outcome (readWhole .plain) b = .ok v →
      Reader.outcome (readWhole .plain) b' = .ok v → b = b') ∧
    (∀ levels b v, writeValue .plain levels v = .put b ↔
      ∀ rest asked, ∃ asked',
        readValue .plain levels ⟨b ++ rest, asked⟩ = .ok v ⟨rest, asked'⟩) := by
  refine ⟨fun c v c' hread => ?_, fun b v => outcome_readWhole_plain_eq_ok_iff,
    fun b b' v hb hb' => ?_, fun levels b v => writeValue_eq_put_iff⟩
  · obtain ⟨b, hb, hw⟩ := accepts_readValue maxNesting c v c' hread
    exact ⟨b, hb, Emission.result_eq_ok_iff.mpr hw⟩
  · have hw := outcome_readWhole_plain_eq_ok_iff.mp hb
    have hw' := outcome_readWhole_plain_eq_ok_iff.mp hb'
    exact Except.ok.inj (hw.symm.trans hw')

end RemoteCall.Codec
