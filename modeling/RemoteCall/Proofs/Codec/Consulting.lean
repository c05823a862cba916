import RemoteCall.Proofs.Codec.RoundTrip

/-!
# What is asked while a value is read

Reading a value puts the names in it to the resolver, and the resolver may refuse any of them. What
is asked and what comes of it is decided by the value that was written and by the dialect of the
reader, however the names are spread over the bytes: the names are asked for outermost first and in
order, up to the first that is refused, and a well-known value is taken whole.
-/

namespace RemoteCall

namespace Reader

variable {ε α β : Type}

/-- The reader puts no question to the resolver. -/
def Silent (read : Reader ε α) : Prop :=
  ∀ c a c', read c = .ok a c' → c'.asked = c.asked

namespace Silent

theorem pure (a : α) : Silent (Pure.pure a : Reader ε α) := by
  intro c x c' hread
  cases hread
  rfl

theorem throw (e : ε) : Silent (MonadExcept.throw e : Reader ε α) := by
  intro c x c' hread
  cases hread

theorem bind {read : Reader ε α} {next : α → Reader ε β} (first : Silent read)
    (second : ∀ a, Silent (next a)) : Silent (read >>= next) := by
  intro c x c'' hread
  obtain ⟨a, c', hfirst, hsecond⟩ := bind_eq_ok hread
  rw [second a c' x c'' hsecond, first c a c' hfirst]

theorem map {read : Reader ε α} (h : Silent read) (f : α → β) : Silent (f <$> read) := by
  rw [map_eq_pure_bind]
  exact h.bind fun a => pure (f a)

theorem take (n : Nat) : Silent (Reader.take n) := by
  intro c x c' hread
  unfold Reader.take at hread
  split at hread
  · cases hread
    rfl
  · cases hread

theorem byte : Silent Reader.byte := by
  rintro ⟨unread, asked⟩ x c' hread
  cases unread with
  | nil => cases hread
  | cons y rest =>
      cases hread
      rfl

theorem word (width : Nat) : Silent (Reader.word width) :=
  (take width).map _

theorem text : Silent Reader.text := by
  refine (word 4).bind fun length => (take length).bind fun b => ?_
  split
  · exact pure _
  · exact throw _

theorem tag : Silent Codec.readTag := by
  refine byte.bind fun b => ?_
  split
  · exact pure _
  · exact throw _

theorem times {read : Reader ε α} (each : Silent read) (n : Nat) :
    Silent (Reader.times read n) := by
  induction n with
  | zero => exact pure []
  | succ n ih => exact each.bind fun a => ih.bind fun as => pure (a :: as)

end Silent

theorem consult_bind_of_ok {c : Consultation α} {a : α} (h : c.answer = .ok a)
    (next : α → Consultation β) (unread : Bytes) (asked : Array String) :
    Reader.consult (c.bind next) ⟨unread, asked⟩ =
      Reader.consult (next a) ⟨unread, asked ++ c.asked⟩ := by
  have hassoc : ∀ later : List String, asked ++ (c.asked ++ later) = asked ++ c.asked ++ later :=
    fun later => Array.ext' (by simp)
  simp only [Reader.consult, Consultation.bind, h, hassoc]

theorem consult_bind_of_error {c : Consultation α} {e : CodecError} (h : c.answer = .error e)
    (next : α → Consultation β) (cursor : Cursor) :
    Reader.consult (c.bind next) cursor =
      .error e { cursor with asked := cursor.asked ++ c.asked } := by
  simp only [Reader.consult, Consultation.bind, h]

/-- What a reader makes of a whole input, and what it asks on the way. -/
def consulted (read : Reader CodecError α) (input : Bytes) : Consultation α :=
  match read (Cursor.start input) with
  | .ok a c => ⟨c.asked.toList, .ok a⟩
  | .error e c => ⟨c.asked.toList, .error e⟩

theorem answer_consulted (read : Reader CodecError α) (input : Bytes) :
    (consulted read input).answer = outcome read input := by
  unfold consulted outcome
  split
  · next h => rw [h]
  · next h => rw [h]

/-- Whatever follows these bytes, what they are read as is what comes of a consultation. They are
read to their end if it gives an answer. -/
def Finds (read : Reader CodecError α) (b : Bytes) (c : Consultation α) : Prop :=
  ∀ rest asked, ∃ left, read ⟨b ++ rest, asked⟩ = Reader.consult c ⟨left, asked⟩ ∧
    ∀ a, c.answer = .ok a → left = rest

namespace Finds

theorem pure (a : α) : Finds (Pure.pure a) [] (.pure a) := fun rest asked =>
  ⟨rest, by simp [Reader.consult, Consultation.pure, Pure.pure, EStateM.pure], fun _ _ => rfl⟩

theorem consult (c : Consultation α) : Finds (Reader.consult c) [] c := fun rest _ =>
  ⟨rest, rfl, fun _ _ => rfl⟩

/-- What is delimited without a question is found as it is. -/
theorem of_delimits {short : CodecError} {read : Reader CodecError α} {b : Bytes} {a : α}
    (h : Delimits short read b a) (silent : Silent read) : Finds read b (.pure a) := by
  intro rest asked
  obtain ⟨asked', hread⟩ := h.whole rest asked
  obtain rfl : asked' = asked := silent _ _ _ hread
  exact ⟨rest, by rw [hread]; simp [Reader.consult, Consultation.pure], fun _ _ => rfl⟩

/-- What comes of two things in a row comes of the first and then of the second. -/
theorem bind {read : Reader CodecError α} {next : α → Reader CodecError β} {b b' : Bytes}
    {c : Consultation α} {following : α → Consultation β} (first : Finds read b c)
    (second : ∀ a, c.answer = .ok a → Finds (next a) b' (following a)) :
    Finds (read >>= next) (b ++ b') (c.bind following) := by
  intro rest asked
  obtain ⟨left, hread, hleft⟩ := first (b' ++ rest) asked
  rw [List.append_assoc]
  cases hc : c.answer with
  | ok a =>
      obtain rfl := hleft a hc
      obtain ⟨left', hnext, hleft'⟩ := second a hc rest (asked ++ c.asked)
      refine ⟨left', ?_, fun x hx => hleft' x ?_⟩
      · rw [consult_bind_of_ok hc, ← hnext]
        exact bind_of_ok (by rw [hread, Reader.consult, hc]) next
      · rwa [Consultation.bind, hc] at hx
  | error e =>
      refine ⟨left, ?_, fun x hx => ?_⟩
      · rw [consult_bind_of_error hc]
        exact bind_of_error (by rw [hread, Reader.consult, hc]) next
      · rw [Consultation.bind, hc] at hx
        cases hx

/-- What is found without a question is followed by what comes of the rest. -/
theorem bind_pure {read : Reader CodecError α} {next : α → Reader CodecError β} {b u : Bytes}
    {a : α} {c : Consultation β} (first : Finds read b (.pure a)) (second : Finds (next a) u c) :
    Finds (read >>= next) (b ++ u) c := by
  change Finds (read >>= next) (b ++ u) ((Consultation.pure a).bind fun _ => c)
  refine first.bind fun x hx => ?_
  obtain rfl : a = x := Except.ok.inj hx
  exact second

theorem map {read : Reader CodecError α} {b : Bytes} {c : Consultation α} (h : Finds read b c)
    (f : α → β) : Finds (f <$> read) b (c.map f) := by
  have hmap : c.map f = c.bind fun a => .pure (f a) := by
    cases hc : c.answer <;> simp [Consultation.map, Consultation.bind, Consultation.pure, hc,
      Except.map]
  rw [map_eq_pure_bind, hmap, ← List.append_nil b]
  exact h.bind fun a _ => pure (f a)

/-- A count and what comes of the items that follow it, none of which is empty. -/
theorem count {next : Nat → Reader CodecError β} {n : Nat} {w b : Bytes} {c : Consultation β}
    (hw : Codec.putLength n = .put w) (hb : n ≤ b.length) (items : Finds (next n) b c) :
    Finds (Reader.count >>= next) (w ++ b) c := by
  obtain ⟨hlen, rfl⟩ := Codec.putLength_eq_put_iff.mp hw
  rw [Reader.count, bind_assoc]
  refine (of_delimits (.word hlen) (.word 4)).bind_pure fun rest asked => ?_
  have henough : Bytes.hasAtLeast n (b ++ rest) = true :=
    Bytes.hasAtLeast_iff.mpr (by rw [List.length_append]; omega)
  rw [bind_assoc, get_bind, if_pos henough, pure_bind]
  exact items rest asked

/-- Things written one after the other, with what comes of them one after the other. -/
theorem times {γ δ : Type} {write : γ → Emission δ} {read : Reader CodecError α}
    {one : γ → Consultation α} {all : List γ → Consultation (List α)} (nil : all [] = .pure [])
    (cons : ∀ x xs, all (x :: xs) = (one x).bind fun a => (all xs).map (a :: ·))
    {xs : List γ} {w : Bytes}
    (each : ∀ x ∈ xs, ∀ u, write x = .put u → Finds read u (one x))
    (hw : Emission.concat (xs.map write) = .put w) :
    Finds (Reader.times read xs.length) w (all xs) := by
  induction xs generalizing w with
  | nil =>
      obtain rfl := Emission.put_inj.mp hw
      rw [nil]
      exact pure []
  | cons x xs ih =>
      obtain ⟨u, v, hu, hv, rfl⟩ := Emission.append_eq_put_iff.mp hw
      rw [cons]
      refine (each x List.mem_cons_self u hu).bind fun a _ => ?_
      have htail := ih (fun y hy => each y (List.mem_cons_of_mem x hy)) hv
      have hmap := htail.map (a :: ·)
      rwa [map_eq_pure_bind] at hmap

theorem consulted_eq {read : Reader CodecError α} {b : Bytes} {c : Consultation α}
    (h : Finds read b c) : consulted read b = c := by
  obtain ⟨left, hread, -⟩ := h [] #[]
  rw [List.append_nil] at hread
  unfold consulted Cursor.start
  rw [hread]
  obtain ⟨asked, answer⟩ := c
  cases answer with
  | ok a => simp [Reader.consult]
  | error e => simp [Reader.consult]

end Finds

end Reader

/-! ### What comes of a value -/

namespace Value

mutual

/-- The value that a reader makes of one that was written with its names as they are. -/
def resolved (d : Dialect) (v : Value) : Consultation Value :=
  match d.known.indexOf v with
  | some _ => .pure v
  | none =>
    match v with
    | .list items => (resolvedItems d items).map .list
    | .object c fields =>
      (d.resolver.resolveClass c).bind fun c => (resolvedFields d fields).map (.object c)
    | .proxy interfaces handler =>
      (d.resolver.resolveProxy interfaces).bind fun interfaces =>
        (resolved d handler).map (.proxy interfaces)
    | v => .pure v

/-- The values that a reader makes of values. -/
def resolvedItems (d : Dialect) : List Value → Consultation (List Value)
  | [] => .pure []
  | v :: vs => (resolved d v).bind fun v => (resolvedItems d vs).map (v :: ·)

/-- The fields that a reader makes of fields. -/
def resolvedFields (d : Dialect) : List (String × Value) → Consultation (List (String × Value))
  | [] => .pure []
  | (k, v) :: fields =>
    ((resolved d v).map fun v => (k, v)).bind fun field =>
      (resolvedFields d fields).map (field :: ·)

end

end Value

namespace Codec

open Reader

variable {known : KnownValues} {r : Resolver} {levels : Nat}

/-- What comes of a value comes of its contents after its tag. -/
theorem finds_tagged {α : Type} (t : Tag) {next : Tag → Reader CodecError α} {b : Bytes}
    {c : Consultation α} (contents : Finds (next t) b c) :
    Finds (readTag >>= next) (t.code :: b) c :=
  (Finds.of_delimits (.tag t) .tag).bind_pure contents

theorem length_pos_of_writeValue (hk : known.Coherent) {v : Value} {u : Bytes}
    (hu : writeValue ⟨.plain, known⟩ levels v = .put u) : 0 < u.length :=
  (delimits_writeValue hk (Resolver.plain_restores v) hu).length_pos (readValue_nil _ levels)

section Contents

/-! What follows the tag of a value that holds others, when these are found one level down. -/

theorem finds_list (hk : known.Coherent) {items : List Value} {w : Bytes}
    (each : ∀ v ∈ items, ∀ u, writeValue ⟨.plain, known⟩ levels v = .put u →
      Finds (readValue ⟨r, known⟩ levels) u (v.resolved ⟨r, known⟩))
    (hw : putLength items.length ++ .concat (items.map (writeValue ⟨.plain, known⟩ levels)) =
      .put w) :
    Finds
      (do
        let n ← Reader.count
        Value.list <$> Reader.times (readValue ⟨r, known⟩ levels) n) w
      ((Value.resolvedItems ⟨r, known⟩ items).map .list) := by
  obtain ⟨_, u, hn, hu, rfl⟩ := Emission.append_eq_put_iff.mp hw
  have hlen : items.length ≤ u.length :=
    length_le_of_concat (fun _ _ _ hv => length_pos_of_writeValue hk hv) hu
  refine .count hn hlen (Finds.map (.times ?_ (fun v vs => ?_) each hu) _)
  · exact Value.resolvedItems.eq_1 _
  · exact Value.resolvedItems.eq_2 _ v vs

theorem finds_object (hk : known.Coherent) {c : String} {fields : List (String × Value)}
    {w : Bytes}
    (each : ∀ e ∈ fields, ∀ u, writeValue ⟨.plain, known⟩ levels e.2 = .put u →
      Finds (readValue ⟨r, known⟩ levels) u (e.2.resolved ⟨r, known⟩))
    (hw : putText c ++ (putLength fields.length ++ .concat (fields.map fun (k, field) =>
      putText k ++ writeValue ⟨.plain, known⟩ levels field)) = .put w) :
    Finds
      (do
        let name ← Reader.text
        let className ← Reader.consult (r.resolveClass name)
        let n ← Reader.count
        Value.object className <$> Reader.times (readField ⟨r, known⟩ levels) n) w
      ((r.resolveClass c).bind fun c =>
        (Value.resolvedFields ⟨r, known⟩ fields).map (.object c)) := by
  obtain ⟨_, _, hname, hbody, rfl⟩ := Emission.append_eq_put_iff.mp hw
  obtain ⟨_, u, hn, hu, rfl⟩ := Emission.append_eq_put_iff.mp hbody
  have hfield : ∀ e ∈ fields, ∀ u, putText e.1 ++ writeValue ⟨.plain, known⟩ levels e.2 = .put u →
      0 < u.length ∧ Finds (readField ⟨r, known⟩ levels) u
        ((e.2.resolved ⟨r, known⟩).map fun v => (e.1, v)) := by
    intro e he u hu
    obtain ⟨_, _, hkey, hv, rfl⟩ := Emission.append_eq_put_iff.mp hu
    have hpos := length_pos_of_writeValue hk hv
    have hmap := (each e he _ hv).map fun v => (e.1, v)
    rw [map_eq_pure_bind] at hmap
    exact ⟨by rw [List.length_append]; omega, (Finds.of_delimits (.text hkey) .text).bind_pure hmap⟩
  have hlen : fields.length ≤ u.length :=
    length_le_of_concat (fun e he u hu => (hfield e he u hu).1) hu
  refine (Finds.of_delimits (.text hname) .text).bind_pure
    ((Finds.consult _).bind (b := []) fun c _ => ?_)
  refine .count hn hlen (Finds.map (.times ?_ (fun e es => ?_)
    (fun e he u hu => (hfield e he u hu).2) hu) _)
  · exact Value.resolvedFields.eq_1 _
  · exact Value.resolvedFields.eq_2 _ e.1 e.2 es

theorem finds_proxy {interfaces : List String} {handler : Value} {w : Bytes}
    (below : ∀ u, writeValue ⟨.plain, known⟩ levels handler = .put u →
      Finds (readValue ⟨r, known⟩ levels) u (handler.resolved ⟨r, known⟩))
    (hw : putLength interfaces.length ++ (.concat (interfaces.map putText) ++
      writeValue ⟨.plain, known⟩ levels handler) = .put w) :
    Finds
      (do
        let n ← Reader.count
        let names ← Reader.times Reader.text n
        let interfaces ← Reader.consult (r.resolveProxy names)
        Value.proxy interfaces <$> readValue ⟨r, known⟩ levels) w
      ((r.resolveProxy interfaces).bind fun interfaces =>
        (handler.resolved ⟨r, known⟩).map (.proxy interfaces)) := by
  obtain ⟨_, _, hn, hbody, rfl⟩ := Emission.append_eq_put_iff.mp hw
  obtain ⟨u, _, hu, hhandler, rfl⟩ := Emission.append_eq_put_iff.mp hbody
  have hname : ∀ name ∈ interfaces, ∀ u, putText name = .put u →
      Delimits .unexpectedEnd Reader.text u name := fun _ _ _ hu => Delimits.text hu
  have hlen := length_le_of_concat (fun s hs u hu => (hname s hs u hu).length_pos text_nil) hu
  refine .count hn (by rw [List.length_append]; omega)
    ((Finds.of_delimits (.times hname hu) (Silent.text.times _)).bind_pure ?_)
  exact (Finds.consult _).bind (b := []) fun _ _ => (below _ hhandler).map _

end Contents

/-- What a reader makes of the bytes of a value that was written with its names as they are. -/
theorem finds_writeValue (hk : known.Coherent) {v : Value} {w : Bytes}
    (hw : writeValue ⟨.plain, known⟩ levels v = .put w) :
    Finds (readValue ⟨r, known⟩ levels) w (v.resolved ⟨r, known⟩) := by
  induction levels generalizing v w with
  | zero => exact absurd hw (Emission.stop_ne_put _ _)
  | succ levels ih =>
      cases hi : known.indexOf v with
      | some i =>
          have hvalue := hk v i hi
          rw [writeValue_of_known hi, putTag_append_eq_put_iff] at hw
          obtain ⟨_, hw, rfl⟩ := hw
          obtain rfl := Emission.put_inj.mp hw
          have hresolved : v.resolved ⟨r, known⟩ = .pure v := by
            rw [Value.resolved.eq_def]
            simp only [hi]
          rw [hresolved, readValue]
          refine finds_tagged .reference ((Finds.of_delimits (.byte i) .byte).bind_pure (u := []) ?_)
          simp only [hvalue]
          exact .pure v
      | none =>
          rw [readValue]
          cases v with
          | null =>
              simp only [writeValue, hi, putTag, Emission.put_inj] at hw
              subst hw
              simp only [Value.resolved, hi]
              exact finds_tagged .null (.pure _)
          | bool b =>
              simp only [Value.resolved, hi]
              cases b <;> simp only [writeValue, hi, putTag, Emission.put_inj] at hw <;> subst hw
              · exact finds_tagged .no (.pure _)
              · exact finds_tagged .yes (.pure _)
          | int n =>
              simp only [writeValue, hi, putTag_append_eq_put_iff, Emission.put_inj] at hw
              obtain ⟨_, rfl, rfl⟩ := hw
              simp only [Value.resolved, hi]
              exact finds_tagged .int
                (.of_delimits ((Delimits.int n).map Value.int) (((Silent.word 4).map _).map _))
          | long n =>
              simp only [writeValue, hi, putTag_append_eq_put_iff, Emission.put_inj] at hw
              obtain ⟨_, rfl, rfl⟩ := hw
              simp only [Value.resolved, hi]
              exact finds_tagged .long (.of_delimits (Delimits.long n) ((Silent.word 8).map _))
          | double x =>
              simp only [writeValue, hi, putTag_append_eq_put_iff, Emission.put_inj] at hw
              obtain ⟨_, rfl, rfl⟩ := hw
              simp only [Value.resolved, hi]
              exact finds_tagged .double (.of_delimits (Delimits.double x) ((Silent.word 8).map _))
          | text s =>
              simp only [writeValue, hi, putTag_append_eq_put_iff] at hw
              obtain ⟨_, hs, rfl⟩ := hw
              simp only [Value.resolved, hi]
              exact finds_tagged .text
                (.of_delimits ((Delimits.text hs).map Value.text) (Silent.text.map _))
          | bytes b =>
              simp only [writeValue, hi, putTag_append_eq_put_iff, putBlock_eq_put_iff] at hw
              obtain ⟨_, ⟨hlen, rfl⟩, rfl⟩ := hw
              simp only [Value.resolved, hi]
              exact finds_tagged .bytes
                (.of_delimits ((Delimits.word hlen).bind ((Delimits.take b).map _))
                  ((Silent.word 4).bind fun n => (Silent.take n).map _))
          | list items =>
              simp only [writeValue, hi, Emission.append_assoc, putTag_append_eq_put_iff] at hw
              obtain ⟨_, hbody, rfl⟩ := hw
              simp only [Value.resolved, hi]
              exact finds_tagged .list (finds_list hk (fun v _ u hu => ih hu) hbody)
          | object c fields =>
              simp only [writeValue, hi, Emission.append_assoc, putTag_append_eq_put_iff] at hw
              obtain ⟨_, hbody, rfl⟩ := hw
              simp only [Value.resolved, hi]
              exact finds_tagged .object (finds_object hk (fun e _ u hu => ih hu) hbody)
          | proxy interfaces handler =>
              simp only [writeValue, hi, Emission.append_assoc, putTag_append_eq_put_iff] at hw
              obtain ⟨_, hbody, rfl⟩ := hw
              simp only [Value.resolved, hi]
              exact finds_tagged .proxy (finds_proxy (fun u hu => ih hu) hbody)

end Codec

end RemoteCall
