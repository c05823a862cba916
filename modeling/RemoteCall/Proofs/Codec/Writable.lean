import RemoteCall.Proofs.Codec.Shape

/-!
# Values that can be written

Writing fails where something is too long for its length to fit in 32 bits, or where values are
nested too deeply. The reader accepts neither, and a well-known value is written as a reference. So
whatever is read can be written again by whoever read it, as long as the names that it is written
with are not longer than those that were read.
-/

namespace RemoteCall

namespace Bytes

theorem ofText_ofList_append (cs cs' : List Char) :
    ofText (String.ofList (cs ++ cs')) = ofText (String.ofList cs) ++ ofText (String.ofList cs') := by
  simp [ofText, String.toUTF8_eq_toByteArray]

theorem length_ofText_ofList_le (cs : List Char) :
    (ofText (String.ofList cs)).length ≤ 4 * cs.length := by
  induction cs with
  | nil => decide
  | cons c cs ih =>
      have hchar : (ofText (String.ofList [c])).length = c.utf8Size := by
        simp [ofText, String.toUTF8_eq_toByteArray, List.utf8Encode_singleton]
      have hfour := c.utf8Size_le_four
      rw [← List.singleton_append, ofText_ofList_append, List.length_append, hchar,
        List.length_append, List.length_singleton]
      omega

/-- No character takes more than four bytes. -/
theorem length_ofText_le (s : String) : (ofText s).length ≤ 4 * s.length := by
  rw [← String.ofList_toList (s := s), String.length_ofList]
  exact length_ofText_ofList_le s.toList

end Bytes

namespace Codec

variable {d : Dialect} {levels : Nat}

/-! ### Parts that are written to the end -/

/-- The length of a text fits in 32 bits. -/
def Fits (s : String) : Prop :=
  (Bytes.ofText s).length < 0x100000000

instance (s : String) : Decidable (Fits s) := inferInstanceAs (Decidable (_ < _))

theorem fits_of_length {s : String} (h : s.length < 0x40000000) : Fits s := by
  have hle := Bytes.length_ofText_le s
  unfold Fits
  omega

theorem exists_append_eq_put {ε : Type} {a b : Emission ε} (ha : ∃ w, a = .put w)
    (hb : ∃ w, b = .put w) : ∃ w, a ++ b = .put w := by
  obtain ⟨u, rfl⟩ := ha
  obtain ⟨v, rfl⟩ := hb
  exact ⟨u ++ v, rfl⟩

theorem exists_append_eq_put_iff {ε : Type} {a b : Emission ε} :
    (∃ w, a ++ b = .put w) ↔ (∃ w, a = .put w) ∧ ∃ w, b = .put w := by
  constructor
  · rintro ⟨w, hw⟩
    obtain ⟨u, v, hu, hv, -⟩ := Emission.append_eq_put_iff.mp hw
    exact ⟨⟨u, hu⟩, ⟨v, hv⟩⟩
  · rintro ⟨ha, hb⟩
    exact exists_append_eq_put ha hb

theorem exists_concat_eq_put {ε : Type} {parts : List (Emission ε)}
    (h : ∀ a ∈ parts, ∃ w, a = .put w) : ∃ w, Emission.concat parts = .put w := by
  induction parts with
  | nil => exact ⟨[], rfl⟩
  | cons a parts ih =>
      rw [Emission.concat_cons]
      exact exists_append_eq_put (h a List.mem_cons_self)
        (ih fun b hb => h b (List.mem_cons_of_mem _ hb))

theorem exists_of_concat_eq_put {ε : Type} {parts : List (Emission ε)}
    (h : ∃ w, Emission.concat parts = .put w) : ∀ a ∈ parts, ∃ w, a = .put w := by
  induction parts with
  | nil => exact List.forall_mem_nil _
  | cons a parts ih =>
      obtain ⟨ha, hparts⟩ := exists_append_eq_put_iff.mp h
      exact List.forall_mem_cons.mpr ⟨ha, ih hparts⟩

theorem exists_putLength_eq_put {n : Nat} (h : n < 0x100000000) : ∃ w, putLength n = .put w :=
  ⟨_, putLength_eq_put_iff.mpr ⟨h, rfl⟩⟩

theorem exists_putText_eq_put {s : String} (h : Fits s) : ∃ w, putText s = .put w :=
  ⟨_, putBlock_eq_put_iff.mpr ⟨h, rfl⟩⟩

theorem not_exists_writeValue_zero (v : Value) : ¬ ∃ w, writeValue d 0 v = .put w := by
  rintro ⟨w, hw⟩
  exact Emission.stop_ne_put _ _ hw

/-- A well-known value is always written, so only others need to be looked at. -/
theorem exists_writeValue_of_none {v : Value}
    (h : d.known.indexOf v = none → ∃ w, writeValue d (levels + 1) v = .put w) :
    ∃ w, writeValue d (levels + 1) v = .put w := by
  cases hi : d.known.indexOf v with
  | some i =>
      rw [writeValue_of_known hi]
      exact ⟨_, rfl⟩
  | none => exact h hi

/-- Values without a length in them are always written. -/
theorem exists_writeValue_fixed {v : Value} {n : Nat} (h : v.tag.width? = some n) :
    ∃ w, writeValue d (levels + 1) v = .put w := by
  refine exists_writeValue_of_none fun hi => ?_
  cases v with
  | null => exact ⟨_, by simp only [writeValue, hi]; rfl⟩
  | bool b => cases b <;> exact ⟨_, by simp only [writeValue, hi]; rfl⟩
  | int n => exact ⟨_, by simp only [writeValue, hi]; rfl⟩
  | long n => exact ⟨_, by simp only [writeValue, hi]; rfl⟩
  | double x => exact ⟨_, by simp only [writeValue, hi]; rfl⟩
  | text s => cases h
  | bytes b => cases h
  | list items => cases h
  | object c fields => cases h
  | proxy interfaces handler => cases h

theorem exists_writeValue_text {s : String} (h : Fits s) :
    ∃ w, writeValue d (levels + 1) (.text s) = .put w := by
  refine exists_writeValue_of_none fun hi => ?_
  simp only [writeValue, hi]
  exact exists_append_eq_put ⟨_, rfl⟩ (exists_putText_eq_put h)

theorem exists_writeValue_bytes {b : Bytes} (h : b.length < 0x100000000) :
    ∃ w, writeValue d (levels + 1) (.bytes b) = .put w := by
  refine exists_writeValue_of_none fun hi => ?_
  simp only [writeValue, hi]
  exact exists_append_eq_put ⟨_, rfl⟩ ⟨_, putBlock_eq_put_iff.mpr ⟨h, rfl⟩⟩

theorem exists_writeValue_list {items : List Value} (hlength : items.length < 0x100000000)
    (hitems : ∀ v ∈ items, ∃ w, writeValue d levels v = .put w) :
    ∃ w, writeValue d (levels + 1) (.list items) = .put w := by
  refine exists_writeValue_of_none fun hi => ?_
  simp only [writeValue, hi]
  refine exists_append_eq_put (exists_append_eq_put ⟨_, rfl⟩ (exists_putLength_eq_put hlength))
    (exists_concat_eq_put fun a ha => ?_)
  obtain ⟨v, hv, rfl⟩ := List.mem_map.mp ha
  exact hitems v hv

theorem exists_writeValue_object {c : String} {fields : List (String × Value)}
    (hc : Fits (d.resolver.annotate c)) (hlength : fields.length < 0x100000000)
    (hfields : ∀ e ∈ fields, Fits e.1 ∧ ∃ w, writeValue d levels e.2 = .put w) :
    ∃ w, writeValue d (levels + 1) (.object c fields) = .put w := by
  refine exists_writeValue_of_none fun hi => ?_
  simp only [writeValue, hi]
  refine exists_append_eq_put (exists_append_eq_put (exists_append_eq_put ⟨_, rfl⟩
    (exists_putText_eq_put hc)) (exists_putLength_eq_put hlength))
    (exists_concat_eq_put fun a ha => ?_)
  obtain ⟨e, he, rfl⟩ := List.mem_map.mp ha
  obtain ⟨hkey, hvalue⟩ := hfields e he
  exact exists_append_eq_put (exists_putText_eq_put hkey) hvalue

/-- An object that is not well known is written to its end only if its fields are, one level
down. -/
theorem exists_writeValue_field {c : String} {fields : List (String × Value)}
    (hunknown : d.known.indexOf (.object c fields) = none)
    (h : ∃ w, writeValue d (levels + 1) (.object c fields) = .put w) :
    ∀ e ∈ fields, ∃ w, writeValue d levels e.2 = .put w := by
  simp only [writeValue, hunknown] at h
  have hfields := (exists_append_eq_put_iff.mp h).2
  intro e he
  have hfield := exists_of_concat_eq_put hfields _ (List.mem_map_of_mem he)
  exact (exists_append_eq_put_iff.mp hfield).2

theorem exists_writeValue_proxy {interfaces : List String} {handler : Value}
    (hlength : interfaces.length < 0x100000000)
    (hinterfaces : ∀ i ∈ interfaces, Fits (d.resolver.annotate i))
    (hhandler : ∃ w, writeValue d levels handler = .put w) :
    ∃ w, writeValue d (levels + 1) (.proxy interfaces handler) = .put w := by
  refine exists_writeValue_of_none fun hi => ?_
  simp only [writeValue, hi]
  refine exists_append_eq_put (exists_append_eq_put (exists_append_eq_put ⟨_, rfl⟩
    (exists_putLength_eq_put hlength)) (exists_concat_eq_put fun a ha => ?_)) hhandler
  obtain ⟨i, hmem, rfl⟩ := List.mem_map.mp ha
  exact exists_putText_eq_put (hinterfaces i hmem)

end Codec

/-! ### Why writing stops -/

namespace Emission

variable {ε : Type} {ok : ε → Prop} {a b : Emission ε}

/-- If writing stops, the cause is of a sort. -/
def StopsFor (ok : ε → Prop) (a : Emission ε) : Prop :=
  ∀ e, a.stopped = some e → ok e

theorem StopsFor.put (b : Bytes) : StopsFor ok (put b) := by
  intro e he
  cases he

theorem StopsFor.stop {e : ε} (h : ok e) : StopsFor ok (stop e) := by
  intro e he
  cases he
  exact h

theorem StopsFor.append (ha : a.StopsFor ok) (hb : b.StopsFor ok) : (a ++ b).StopsFor ok := by
  intro e he
  cases hstopped : a.stopped with
  | some e' =>
      rw [append_of_stopped hstopped] at he
      exact ha e he
  | none =>
      refine hb e ?_
      change (Emission.append a b).stopped = some e at he
      rwa [Emission.append, hstopped] at he

theorem StopsFor.concat {parts : List (Emission ε)} (h : ∀ a ∈ parts, a.StopsFor ok) :
    (concat parts).StopsFor ok := by
  induction parts with
  | nil => exact .put []
  | cons a parts ih =>
      obtain ⟨ha, hparts⟩ := List.forall_mem_cons.mp h
      exact ha.append (ih hparts)

end Emission

namespace Codec

/-- The two causes for which a value cannot be written. -/
inductive Unwritable : CodecError → Prop
  | tooLong (n : Nat) : Unwritable (.tooLong n)
  | tooDeep : Unwritable .tooDeep

theorem putLength_stops (n : Nat) : (putLength n).StopsFor Unwritable := by
  unfold putLength
  split
  · exact .put _
  · exact .stop (.tooLong n)

theorem putBlock_stops (b : Bytes) : (putBlock b).StopsFor Unwritable :=
  (putLength_stops b.length).append (.put b)

theorem putTag_stops (t : Tag) : (putTag t).StopsFor Unwritable :=
  .put _

/-- A value that is not written is nested too deeply, or something in it is too long. -/
theorem writeValue_stops (d : Dialect) (levels : Nat) (v : Value) :
    (writeValue d levels v).StopsFor Unwritable := by
  induction levels generalizing v with
  | zero => exact .stop .tooDeep
  | succ levels ih =>
      unfold writeValue
      split
      · exact (putTag_stops _).append (.put _)
      · cases v with
        | null => exact putTag_stops _
        | bool b => cases b <;> exact putTag_stops _
        | int n => exact (putTag_stops _).append (.put _)
        | long n => exact (putTag_stops _).append (.put _)
        | double x => exact (putTag_stops _).append (.put _)
        | text s => exact (putTag_stops _).append (putBlock_stops _)
        | bytes b => exact (putTag_stops _).append (putBlock_stops _)
        | list items =>
            exact ((putTag_stops _).append (putLength_stops _)).append
              (.concat (List.forall_mem_map.mpr fun v _ => ih v))
        | object c fields =>
            exact (((putTag_stops _).append (putBlock_stops _)).append (putLength_stops _)).append
              (.concat (List.forall_mem_map.mpr fun e _ => (putBlock_stops _).append (ih e.2)))
        | proxy interfaces handler =>
            exact (((putTag_stops _).append (putLength_stops _)).append
              (.concat (List.forall_mem_map.mpr fun i _ => putBlock_stops _))).append (ih handler)

end Codec

/-! ### What is read can be written -/

open Codec

/-- The names that are written for what was read fit where the names that were read did. -/
structure Resolver.Answerable (r : Resolver) : Prop where
  ofClass : ∀ name c, Fits name → (r.resolveClass name).answer = .ok c → Fits (r.annotate c)
  ofProxy : ∀ names interfaces, (∀ name ∈ names, Fits name) →
    (r.resolveProxy names).answer = .ok interfaces →
    interfaces.length ≤ names.length ∧ ∀ i ∈ interfaces, Fits (r.annotate i)

/-- Every value that has a number is written as a reference. -/
def KnownValues.Closed (k : KnownValues) : Prop :=
  ∀ i v, k.valueAt i = some v → ∃ j, k.indexOf v = some j

theorem KnownValues.protocolV1_closed : protocolV1.Closed := by
  intro i v hv
  obtain ⟨front, back, hentries, -⟩ := List.lookup_eq_some_iff.mp hv
  have hmem : (i, v) ∈ front ++ (i, v) :: back := List.mem_append_right _ List.mem_cons_self
  rw [← hentries] at hmem
  simp only [List.mem_cons, Prod.mk.injEq, List.not_mem_nil, or_false] at hmem
  rcases hmem with ⟨-, rfl⟩ | ⟨-, rfl⟩ | ⟨-, rfl⟩
  · exact ⟨0, rfl⟩
  · exact ⟨1, rfl⟩
  · exact ⟨2, rfl⟩

namespace Codec

open Reader

variable {d : Dialect} {levels : Nat}

theorem word_makes : Makes (Reader.word 4) (· < 0x100000000) := by
  intro c n c' hread
  obtain ⟨b, -, hn, -⟩ := Accepts.word 4 c n c' hread
  exact hn

theorem take_makes (n : Nat) : Makes (Reader.take n) (List.length · = n) := by
  intro c b c' hread
  obtain ⟨_, -, rfl, hlength⟩ := Accepts.take n c b c' hread
  exact hlength

theorem text_makes_fits : Makes Reader.text Fits := by
  intro c s c' hread
  obtain ⟨b, -, hput⟩ := Accepts.text c s c' hread
  exact (putBlock_eq_put_iff.mp hput).1

theorem count_makes : Makes Reader.count (· < 0x100000000) := by
  intro c n c' hread
  obtain ⟨b, -, hput⟩ := Accepts.count c n c' hread
  exact (putLength_eq_put_iff.mp hput).1

/-- There are as many things in a row as were to be read. -/
theorem times_makes {α : Type} {read : Reader CodecError α} {P : α → Prop} (each : Makes read P)
    (n : Nat) : Makes (Reader.times read n) fun as => as.length = n ∧ ∀ a ∈ as, P a :=
  fun c as c' hread => ⟨length_of_times hread, each.times n c as c' hread⟩

section Contents

/-! What is read after the tag of a value that holds others. -/

variable (each : Makes (readValue d levels) fun v => ∃ w, writeValue d levels v = .put w)

include each

theorem list_makes_writable :
    Makes
      (do
        let n ← Reader.count
        Value.list <$> Reader.times (readValue d levels) n)
      fun v => ∃ w, writeValue d (levels + 1) v = .put w := by
  refine count_makes.bind fun n hn => (times_makes each n).map ?_
  rintro items ⟨rfl, hitems⟩
  exact exists_writeValue_list hn hitems

theorem object_makes_writable (hr : d.resolver.Answerable) :
    Makes
      (do
        let name ← Reader.text
        let className ← Reader.consult (d.resolver.resolveClass name)
        let n ← Reader.count
        Value.object className <$> Reader.times (readField d levels) n)
      fun v => ∃ w, writeValue d (levels + 1) v = .put w := by
  have hfield : Makes (readField d levels) fun e =>
      Fits e.1 ∧ ∃ w, writeValue d levels e.2 = .put w :=
    text_makes_fits.bind fun key hkey => each.bind fun v hv => .pure ⟨hkey, hv⟩
  refine text_makes_fits.bind fun name hname => (Makes.consult _).bind fun c hc => ?_
  refine count_makes.bind fun n hn => (times_makes hfield n).map ?_
  rintro fields ⟨rfl, hfields⟩
  exact exists_writeValue_object (hr.ofClass name c hname hc) hn hfields

theorem proxy_makes_writable (hr : d.resolver.Answerable) :
    Makes
      (do
        let n ← Reader.count
        let names ← Reader.times Reader.text n
        let interfaces ← Reader.consult (d.resolver.resolveProxy names)
        Value.proxy interfaces <$> readValue d levels)
      fun v => ∃ w, writeValue d (levels + 1) v = .put w := by
  refine count_makes.bind fun n hn => (times_makes text_makes_fits n).bind ?_
  rintro names ⟨rfl, hnames⟩
  refine (Makes.consult _).bind fun interfaces hi => each.map fun handler hhandler => ?_
  obtain ⟨hlength, hinterfaces⟩ := hr.ofProxy names interfaces hnames hi
  exact exists_writeValue_proxy (Nat.lt_of_le_of_lt hlength hn) hinterfaces hhandler

end Contents

/-- Whatever is read as a value can be written as a value at the same depth. -/
theorem readValue_makes_writable (hr : d.resolver.Answerable) (hk : d.known.Closed) (levels : Nat) :
    Makes (readValue d levels) fun v => ∃ w, writeValue d levels v = .put w := by
  induction levels with
  | zero => exact .throw _
  | succ levels ih =>
      rw [readValue]
      refine .after fun t => ?_
      cases t with
      | null => exact .pure (exists_writeValue_fixed rfl)
      | yes => exact .pure (exists_writeValue_fixed rfl)
      | no => exact .pure (exists_writeValue_fixed rfl)
      | int => exact .map (.any _) fun _ _ => exists_writeValue_fixed rfl
      | long => exact .map (.any _) fun _ _ => exists_writeValue_fixed rfl
      | double => exact .map (.any _) fun _ _ => exists_writeValue_fixed rfl
      | text => exact text_makes_fits.map fun s hs => exists_writeValue_text hs
      | bytes =>
          refine word_makes.bind fun n hn => (take_makes n).map fun b hb => ?_
          exact exists_writeValue_bytes (hb ▸ hn)
      | list => exact list_makes_writable ih
      | object => exact object_makes_writable ih hr
      | proxy => exact proxy_makes_writable ih hr
      | reference =>
          refine .after fun i => ?_
          split
          · next v hv =>
            obtain ⟨j, hj⟩ := hk i v hv
            refine .pure (exists_writeValue_of_none fun hnone => ?_)
            cases hnone.symm.trans hj
          · exact .throw _

end Codec

end RemoteCall
