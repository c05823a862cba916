import RemoteCall.Invocation.Frame
import RemoteCall.Proofs.Branch.Xid
import RemoteCall.Proofs.Codec.Packed
import RemoteCall.Proofs.Codec.RoundTrip
import RemoteCall.Proofs.Invocation.Attachments

/-!
# Whole bodies

Nothing in a body says how long it is, so its parts have to delimit themselves. A body whose parts
do is found again when it is the whole input, is too short when it is cut anywhere, and whatever
comes after it is counted as left over.
-/

namespace RemoteCall

open Reader

/-- Names as they are, and the well-known values of protocol version 1. -/
def Dialect.standard : Dialect := ⟨Resolver.plain, KnownValues.protocolV1⟩

variable {d : Dialect}

namespace Parse

theorem delimits_value {v : Value} {w : Bytes} (hk : d.known.Coherent)
    (hr : d.resolver.Restores v) (hw : Wire.value d v = .put w) :
    Delimits (.codec .unexpectedEnd) (Parse.value d) w v :=
  (Codec.delimits_writeValue hk hr (Emission.mapError_eq_put_iff.mp hw)).ofCodec

/-- After the last part of a body nothing may be left. -/
theorem fills_last {α β : Type} {read : Parse α} {b : Bytes} {a : α} (f : α → β)
    (h : Delimits (.codec .unexpectedEnd) read b a) :
    Fills (.codec .unexpectedEnd) (fun n => .codec (.trailing n))
      (do
        let a ← read
        Parse.finish
        pure (f a)) b (f a) := by
  rw [← List.append_nil b]
  refine h.bind_fills ⟨fun asked => ⟨asked, rfl⟩, .nil _ _, fun extra asked hne => ?_⟩
  obtain ⟨x, rest, rfl⟩ := List.exists_cons_of_ne_nil hne
  exact ⟨_, rfl⟩

end Parse

namespace Attachments

theorem delimits_readKey {key : String} {w : Bytes} (hk : d.known.Coherent)
    (hw : Wire.value d (.text key) = .put w) :
    Delimits (.codec .unexpectedEnd) (readKey d) w key := by
  have hr : d.resolver.Restores (.text key) := .of_parts_eq_nil rfl trivial
  exact (Parse.delimits_value hk hr hw).bind_nil (Delimits.pure key)

/-- Entries are set one after the other as they are found. -/
theorem delimits_readInto {entries : List (String × Value)} {w : Bytes} (hk : d.known.Coherent)
    (hr : ∀ e ∈ entries, d.resolver.Restores e.2)
    (hw : Emission.concat (entries.map fun e => Wire.value d (.text e.1) ++ Wire.value d e.2) =
      .put w) (a : Attachments) :
    Delimits (.codec .unexpectedEnd) (readInto d entries.length a) w (a.insertAll entries) := by
  induction entries generalizing a w with
  | nil =>
      obtain rfl := Emission.put_inj.mp hw
      exact Delimits.pure a
  | cons e entries ih =>
      obtain ⟨_, _, hentry, htail, rfl⟩ := Emission.append_eq_put_iff.mp hw
      obtain ⟨_, _, hkey, hv, rfl⟩ := Emission.append_eq_put_iff.mp hentry
      rw [List.append_assoc]
      apply (delimits_readKey hk hkey).bind
      apply (Parse.delimits_value hk (hr e List.mem_cons_self) hv).bind
      exact ih (fun e' he' => hr e' (List.mem_cons_of_mem e he')) htail _

/-- Attachments with their table in step delimit themselves. -/
theorem delimits_write {a : Attachments} {w : Bytes} (hk : d.known.Coherent) (ha : a.Indexed)
    (hr : ∀ e ∈ a.toList, d.resolver.Restores e.2) (hw : a.write d = .put w) :
    Delimits (.codec .unexpectedEnd) (read d) w a := by
  unfold write at hw
  split at hw
  · next hsize =>
    obtain ⟨_, _, hcount, hentries, rfl⟩ := Emission.append_eq_put_iff.mp hw
    obtain rfl := Emission.put_inj.mp hcount
    apply (Packed.delimits_encode _).ofCodec.bind
    rw [UInt32.toNat_ofNat_of_lt' hsize, ← length_toList]
    have hinto := delimits_readInto hk hr hentries empty
    rwa [insertAll_toList ha] at hinto
  · exact absurd hw (Emission.stop_ne_put _ _)

end Attachments

/-- Decoding these bytes gives this thing; bytes that are missing at the end are missed, and bytes
that are too many are counted. -/
structure Framed {α : Type} (decode : Bytes → Except ProtocolError α) (b : Bytes) (a : α) :
    Prop where
  whole : decode b = .ok a
  cut : ∀ front back, b = front ++ back → back ≠ [] → decode front = .error (.codec .unexpectedEnd)
  extended : ∀ extra, extra ≠ [] → decode (b ++ extra) = .error (.codec (.trailing extra.length))

theorem framed_of_fills {α : Type} {read : Parse α} {b : Bytes} {a : α}
    (h : Fills (.codec .unexpectedEnd) (fun n => .codec (.trailing n)) read b a) :
    Framed (Reader.outcome read) b a where
  whole := by
    obtain ⟨asked, hread⟩ := h.whole #[]
    simp only [Reader.outcome, Cursor.start, hread]
  cut front back hb hne := by
    obtain ⟨c, hread⟩ := h.cut front back #[] hb hne
    simp only [Reader.outcome, Cursor.start, hread]
  extended extra hne := by
    obtain ⟨c, hread⟩ := h.extended extra #[] hne
    simp only [Reader.outcome, Cursor.start, hread]

namespace Invocation

/-- The body of a call is framed where the names in its values are given back. -/
theorem Request.framed_write {r : Request} {b : Bytes} (hk : d.known.Coherent)
    (ht : ∀ t ∈ r.transaction, t.xid.WithinLimits) (ha : r.attachments.Indexed)
    (hp : ∀ v ∈ r.parameters, d.resolver.Restores v)
    (hv : ∀ e ∈ r.attachments.toList, d.resolver.Restores e.2) (hw : r.write d = .put b) :
    Framed (Reader.outcome (Request.read d r.parameters.length)) b r := by
  obtain ⟨_, _, hbody, hattachments, rfl⟩ := Emission.append_eq_put_iff.mp hw
  obtain ⟨_, _, htransaction, hparameters, rfl⟩ := Emission.append_eq_put_iff.mp hbody
  rw [List.append_assoc]
  apply framed_of_fills
  apply (Descriptor.delimits_writeOptional ht htransaction).bind_fills
  refine (Delimits.times (fun v hmem _ hu => ?_) hparameters).bind_fills ?_
  · exact Parse.delimits_value hk (hp v hmem) hu
  · exact Parse.fills_last (Request.mk r.transaction r.parameters)
      (Attachments.delimits_write hk ha hv hattachments)

/-- The body of an answer is framed where the names in its values are given back. -/
theorem Response.framed_write {r : Response} {b : Bytes} (hk : d.known.Coherent)
    (ha : r.attachments.Indexed) (hp : d.resolver.Restores r.result)
    (hv : ∀ e ∈ r.attachments.toList, d.resolver.Restores e.2) (hw : r.write d = .put b) :
    Framed (Reader.outcome (Response.read d)) b r := by
  obtain ⟨_, _, hresult, hattachments, rfl⟩ := Emission.append_eq_put_iff.mp hw
  refine framed_of_fills ((Parse.delimits_value hk hp hresult).bind_fills ?_)
  exact Parse.fills_last (Response.mk r.result)
    (Attachments.delimits_write hk ha hv hattachments)

/-- In the standard dialect the bodies of all calls and of all answers are framed. -/
theorem standard_bodies_framed :
    (∀ (r : Request) (b : Bytes), (∀ t ∈ r.transaction, t.xid.WithinLimits) →
      r.attachments.Built → (r.write .standard).result = .ok b →
      Framed (Reader.outcome (Request.read .standard r.parameters.length)) b r) ∧
    (∀ (r : Response) (b : Bytes), r.attachments.Built → (r.write .standard).result = .ok b →
      Framed (Reader.outcome (Response.read .standard)) b r) := by
  have hk : Dialect.standard.known.Coherent := KnownValues.protocolV1_coherent
  have hr : ∀ v, Dialect.standard.resolver.Restores v := Resolver.plain_restores
  constructor
  · intro r b ht ha hw
    exact Request.framed_write hk ht ha.indexed (fun v _ => hr v) (fun e _ => hr e.2)
      (Emission.result_eq_ok_iff.mp hw)
  · intro r b ha hw
    exact Response.framed_write hk ha.indexed (hr r.result) (fun e _ => hr e.2)
      (Emission.result_eq_ok_iff.mp hw)

/-- A call in a transaction, with a number that is none, and an answer; a well-known text is the
key of their attachment. -/
theorem standard_bodies_framed_with_key :
    let a := (Attachments.empty.insert KnownValues.returnedKeys .null).2
    let r : Request := ⟨some ⟨⟨1, [7, 8], []⟩, 30⟩, [.double ⟨0x7ff8000000000001⟩], a⟩
    Framed (Reader.outcome (Request.read .standard 1))
      [1, 0, 0, 0, 1, 0, 0, 0, 2, 7, 8, 0, 0, 0, 0, 0, 0, 0, 30,
        6, 127, 248, 0, 0, 0, 0, 0, 1, 1, 64, 2, 1] r ∧
    Framed (Reader.outcome (Response.read .standard)) [2, 1, 64, 2, 1] ⟨.bool true, a⟩ := by
  intro a r
  have ht : ∀ t ∈ r.transaction, t.xid.WithinLimits := by
    rintro t ht
    obtain rfl := Option.some.inj ht
    exact ⟨by decide, by decide⟩
  have ha : a.Built := .insert .empty _ _
  have hslot : Attachments.empty.slot? KnownValues.returnedKeys = none := by
    simp [Attachments.slot?, Attachments.empty]
  have hlist := Attachments.toList_insert_of_no_slot hslot .null
  have hw : a.write .standard = .put [1, 64, 2, 1] := by
    rw [Attachments.write, ← Attachments.length_toList, hlist]
    rfl
  constructor
  · apply standard_bodies_framed.1 r _ ht ha
    rw [Request.write, hw]
    rfl
  · refine standard_bodies_framed.2 ⟨.bool true, a⟩ _ ha ?_
    rw [Response.write, hw]
    rfl

end Invocation

end RemoteCall
