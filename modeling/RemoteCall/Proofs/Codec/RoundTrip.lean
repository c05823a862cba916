import RemoteCall.Namespace
import RemoteCall.Proofs.Codec.Delimited
import RemoteCall.Proofs.Value.Within

/-!
# Values are read back as they were written

Everything that the writer puts out for a value delimits itself for the reader at the same nesting
level. The value may be written as a reference at any depth, so the table has to give back the very
value that it numbers; and the resolver has to undo its own annotation of the names that occur.
-/

namespace RemoteCall

/-- The resolver gives back the names that a value has in itself. -/
def Resolver.RestoresNames (r : Resolver) : Value → Prop
  | .object c _ => (r.resolveClass (r.annotate c)).answer = .ok c
  | .proxy interfaces _ => (r.resolveProxy (interfaces.map r.annotate)).answer = .ok interfaces
  | _ => True

/-- Every name in a value is given back. -/
def Resolver.Restores (r : Resolver) (v : Value) : Prop :=
  v.Everywhere r.RestoresNames

/-- Names that are taken as they are are given back. -/
theorem Resolver.plain_restores (v : Value) : plain.Restores v := by
  intro x _
  cases x with
  | object c fields => rfl
  | proxy interfaces handler =>
      change (plain.resolveProxy (interfaces.map id)).answer = .ok interfaces
      rw [plain_resolveProxy, List.map_id]
      rfl
  | _ => trivial

namespace Codec

open Reader

variable {d : Dialect} {levels : Nat}

theorem putTag_append_eq_put_iff {t : Tag} {a : Emission CodecError} {w : Bytes} :
    putTag t ++ a = .put w ↔ ∃ u, a = .put u ∧ w = t.code :: u := by
  simp [putTag, Emission.append_eq_put_iff]

/-- A value delimits itself when its contents do after its tag. -/
theorem delimits_tagged {α : Type} (t : Tag) {next : Tag → Reader CodecError α} {b : Bytes} {a : α}
    (contents : Delimits .unexpectedEnd (next t) b a) :
    Delimits .unexpectedEnd (readTag >>= next) (t.code :: b) a :=
  (Delimits.tag t).bind contents

/-- A reference is read as the well-known value with its number. -/
theorem delimits_reference {i : UInt8} {v : Value} (hv : d.known.valueAt i = some v) :
    Delimits .unexpectedEnd (readValue d (levels + 1)) [Tag.reference.code, i] v := by
  rw [readValue]
  refine delimits_tagged .reference ((Delimits.byte i).bind_nil ?_)
  simp only [hv]
  exact Delimits.pure v

theorem readTag_nil (asked : Array String) :
    readTag ⟨[], asked⟩ = .error .unexpectedEnd ⟨[], asked⟩ := rfl

theorem readValue_nil (d : Dialect) (levels : Nat) (asked : Array String) :
    ∃ e c, readValue d levels ⟨[], asked⟩ = .error e c := by
  cases levels with
  | zero => exact ⟨_, _, rfl⟩
  | succ levels =>
      rw [readValue]
      exact ⟨_, _, bind_of_error (readTag_nil asked) _⟩

theorem text_nil (asked : Array String) :
    ∃ e c, Reader.text ⟨[], asked⟩ = .error e c :=
  ⟨_, _, rfl⟩

theorem readField_nil (d : Dialect) (levels : Nat) (asked : Array String) :
    ∃ e c, readField d levels ⟨[], asked⟩ = .error e c := by
  obtain ⟨e, c, h⟩ := text_nil asked
  exact ⟨e, c, bind_of_error h _⟩

section Contents

/-! What follows the tag of a value that holds others, when these are delimited one level down. -/

theorem delimits_list {items : List Value} {w : Bytes}
    (each : ∀ v ∈ items, ∀ u, writeValue d levels v = .put u →
      Delimits .unexpectedEnd (readValue d levels) u v)
    (hw : putLength items.length ++ .concat (items.map (writeValue d levels)) = .put w) :
    Delimits .unexpectedEnd
      (do
        let n ← Reader.count
        Value.list <$> Reader.times (readValue d levels) n) w (.list items) := by
  obtain ⟨_, u, hn, hu, rfl⟩ := Emission.append_eq_put_iff.mp hw
  have hlen : items.length ≤ u.length := length_le_of_concat
    (fun v hv u hu => (each v hv u hu).length_pos (readValue_nil d levels)) hu
  exact Delimits.count hn hlen ((Delimits.times each hu).map Value.list)

theorem delimits_object {c : String} {fields : List (String × Value)} {w : Bytes}
    (hc : (d.resolver.resolveClass (d.resolver.annotate c)).answer = .ok c)
    (each : ∀ e ∈ fields, ∀ u, writeValue d levels e.2 = .put u →
      Delimits .unexpectedEnd (readValue d levels) u e.2)
    (hw : putText (d.resolver.annotate c) ++ (putLength fields.length ++
      .concat (fields.map fun (k, field) => putText k ++ writeValue d levels field)) = .put w) :
    Delimits .unexpectedEnd
      (do
        let name ← Reader.text
        let className ← Reader.consult (d.resolver.resolveClass name)
        let n ← Reader.count
        Value.object className <$> Reader.times (readField d levels) n) w (.object c fields) := by
  obtain ⟨_, _, hname, hbody, rfl⟩ := Emission.append_eq_put_iff.mp hw
  obtain ⟨_, u, hn, hu, rfl⟩ := Emission.append_eq_put_iff.mp hbody
  have hfield : ∀ e ∈ fields, ∀ u, putText e.1 ++ writeValue d levels e.2 = .put u →
      Delimits .unexpectedEnd (readField d levels) u e := by
    intro e he u hu
    obtain ⟨_, _, hkey, hv, rfl⟩ := Emission.append_eq_put_iff.mp hu
    exact (Delimits.text hkey).bind ((each e he _ hv).bind_nil (Delimits.pure e))
  have hlen : fields.length ≤ u.length := length_le_of_concat
    (fun e he u hu => (hfield e he u hu).length_pos (readField_nil d levels)) hu
  refine (Delimits.text hname).bind ((Delimits.consult hc).bind (b := []) ?_)
  exact Delimits.count hn hlen ((Delimits.times hfield hu).map (Value.object c))

theorem delimits_proxy {interfaces : List String} {handler : Value} {w : Bytes}
    (hi : (d.resolver.resolveProxy (interfaces.map d.resolver.annotate)).answer = .ok interfaces)
    (below : ∀ u, writeValue d levels handler = .put u →
      Delimits .unexpectedEnd (readValue d levels) u handler)
    (hw : putLength interfaces.length ++
      (.concat (interfaces.map fun i => putText (d.resolver.annotate i)) ++
        writeValue d levels handler) = .put w) :
    Delimits .unexpectedEnd
      (do
        let n ← Reader.count
        let names ← Reader.times Reader.text n
        let interfaces ← Reader.consult (d.resolver.resolveProxy names)
        Value.proxy interfaces <$> readValue d levels) w (.proxy interfaces handler) := by
  obtain ⟨_, _, hn, hbody, rfl⟩ := Emission.append_eq_put_iff.mp hw
  obtain ⟨u, _, hu, hhandler, rfl⟩ := Emission.append_eq_put_iff.mp hbody
  have hnames : Emission.concat ((interfaces.map d.resolver.annotate).map putText) = .put u := by
    rw [List.map_map]
    exact hu
  have hname : ∀ name ∈ interfaces.map d.resolver.annotate, ∀ u, putText name = .put u →
      Delimits .unexpectedEnd Reader.text u name := fun _ _ _ hu => Delimits.text hu
  have htimes := Delimits.times hname hnames
  have hlen := length_le_of_concat (fun s hs u hu => (hname s hs u hu).length_pos text_nil) hnames
  rw [List.length_map] at htimes hlen
  refine Delimits.count hn (by rw [List.length_append]; omega) (htimes.bind ?_)
  exact (Delimits.consult hi).bind (b := []) ((below _ hhandler).map (Value.proxy interfaces))

end Contents

/-- What the writer puts out for a value delimits itself at the same level. -/
theorem delimits_writeValue (hk : d.known.Coherent) {v : Value} {w : Bytes}
    (hr : d.resolver.Restores v) (hw : writeValue d levels v = .put w) :
    Delimits .unexpectedEnd (readValue d levels) w v := by
  induction levels generalizing v w with
  | zero => exact absurd hw (Emission.stop_ne_put _ _)
  | succ levels ih =>
      cases hi : d.known.indexOf v with
      | some i =>
          rw [writeValue_of_known hi, putTag_append_eq_put_iff] at hw
          obtain ⟨_, hw, rfl⟩ := hw
          obtain rfl := Emission.put_inj.mp hw
          exact delimits_reference (hk v i hi)
      | none =>
          rw [readValue]
          cases v with
          | null =>
              simp only [writeValue, hi, putTag, Emission.put_inj] at hw
              subst hw
              exact delimits_tagged .null (Delimits.pure _)
          | bool b =>
              cases b <;> simp only [writeValue, hi, putTag, Emission.put_inj] at hw <;> subst hw
              · exact delimits_tagged .no (Delimits.pure _)
              · exact delimits_tagged .yes (Delimits.pure _)
          | int n =>
              simp only [writeValue, hi, putTag_append_eq_put_iff, Emission.put_inj] at hw
              obtain ⟨_, rfl, rfl⟩ := hw
              exact delimits_tagged .int ((Delimits.int n).map Value.int)
          | long n =>
              simp only [writeValue, hi, putTag_append_eq_put_iff, Emission.put_inj] at hw
              obtain ⟨_, rfl, rfl⟩ := hw
              exact delimits_tagged .long (Delimits.long n)
          | double x =>
              simp only [writeValue, hi, putTag_append_eq_put_iff, Emission.put_inj] at hw
              obtain ⟨_, rfl, rfl⟩ := hw
              exact delimits_tagged .double (Delimits.double x)
          | text s =>
              simp only [writeValue, hi, putTag_append_eq_put_iff] at hw
              obtain ⟨_, hs, rfl⟩ := hw
              exact delimits_tagged .text ((Delimits.text hs).map Value.text)
          | bytes b =>
              simp only [writeValue, hi, putTag_append_eq_put_iff, putBlock_eq_put_iff] at hw
              obtain ⟨_, ⟨hlen, rfl⟩, rfl⟩ := hw
              exact delimits_tagged .bytes ((Delimits.word hlen).bind ((Delimits.take b).map _))
          | list items =>
              simp only [writeValue, hi, Emission.append_assoc, putTag_append_eq_put_iff] at hw
              obtain ⟨_, hbody, rfl⟩ := hw
              exact delimits_tagged .list
                (delimits_list (fun v hv u hu => ih (hr.item hv) hu) hbody)
          | object c fields =>
              simp only [writeValue, hi, Emission.append_assoc, putTag_append_eq_put_iff] at hw
              obtain ⟨_, hbody, rfl⟩ := hw
              exact delimits_tagged .object
                (delimits_object hr.self (fun e he u hu => ih (hr.field he) hu) hbody)
          | proxy interfaces handler =>
              simp only [writeValue, hi, Emission.append_assoc, putTag_append_eq_put_iff] at hw
              obtain ⟨_, hbody, rfl⟩ := hw
              exact delimits_tagged .proxy
                (delimits_proxy hr.self (fun u hu => ih hr.handler hu) hbody)

/-- Whatever was written before a value and whatever follows it, the value is read back as it was,
and nothing of what follows is read. -/
theorem read_of_write {v : Value} {before out : Bytes} (hk : d.known.Coherent)
    (hr : d.resolver.Restores v) (hw : (Emission.put before ++ write d v).result = .ok out) :
    ∃ b, write d v = .put b ∧ out = before ++ b ∧
      ∀ rest asked, ∃ asked', read d ⟨b ++ rest, asked⟩ = .ok v ⟨rest, asked'⟩ := by
  obtain ⟨u, b, hu, hb, rfl⟩ := Emission.append_eq_put_iff.mp (Emission.result_eq_ok_iff.mp hw)
  obtain rfl := Emission.put_inj.mp hu
  exact ⟨b, hb, rfl, (delimits_writeValue hk hr hb).whole⟩

/-- An object of a renamed class, whose fields hold a number that is none and a well-known text,
in a list with a proxy of a renamed interface. -/
theorem read_of_write_renamed :
    let d : Dialect := ⟨Namespace.translated .plain, .protocolV1⟩
    let v : Value := .list [
      .object "jakarta.ejb.Handle"
        [("a", .double ⟨0x7ff8000000000001⟩), ("b", .text "jboss.returned.keys")],
      .proxy ["jakarta.jms.Queue"] .null]
    ∃ out b, (Emission.put [7] ++ write d v).result = .ok out ∧ out = 7 :: b ∧
      ∃ asked, read d ⟨b ++ [9], #[]⟩ = .ok v ⟨[9], asked⟩ := by
  intro d v
  have hclass : (d.resolver.resolveClass (d.resolver.annotate "jakarta.ejb.Handle")).answer =
      .ok "jakarta.ejb.Handle" := congrArg Except.ok (by decide +kernel)
  have hproxy : (d.resolver.resolveProxy (["jakarta.jms.Queue"].map d.resolver.annotate)).answer =
      .ok ["jakarta.jms.Queue"] := congrArg Except.ok (by decide +kernel)
  have hr : d.resolver.Restores v := by
    refine .list trivial (List.forall_mem_cons.mpr ⟨?_, List.forall_mem_singleton.mpr ?_⟩)
    · refine .object hclass (List.forall_mem_cons.mpr ⟨?_, List.forall_mem_singleton.mpr ?_⟩)
      · exact .of_parts_eq_nil rfl trivial
      · exact .of_parts_eq_nil rfl trivial
    · exact .proxy hproxy (.of_parts_eq_nil rfl trivial)
  have hstopped : (Emission.put [7] ++ write d v).stopped.isNone = true := by decide +kernel
  have hw : (Emission.put [7] ++ write d v).result = .ok (Emission.put [7] ++ write d v).bytes := by
    rw [Emission.result, Option.isNone_iff_eq_none.mp hstopped]
  obtain ⟨b, -, hout, hread⟩ := read_of_write KnownValues.protocolV1_coherent hr hw
  exact ⟨_, b, hw, hout, hread [9] #[]⟩

end Codec

end RemoteCall
