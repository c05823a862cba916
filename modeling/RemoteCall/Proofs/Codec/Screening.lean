import RemoteCall.Proofs.Codec.ReadNames
import RemoteCall.Proofs.Codec.Unread

/-!
# What a filter is shown while a value is read

A filter before names that are taken as they are is shown the names in the input as they come, up
to the first that it refuses. Nothing else comes of a filter: where it refuses nothing, the same is
read as without it, and where it refuses a name, that name is the error, and nothing is known of
the bytes behind it but how many there are.

## Implementation notes

Which names come is said without a filter, by `Codec.reached`. What is read without one says where
each part of the input begins, so a name is reached when all that stands before it can be read.
-/

namespace RemoteCall

namespace Consultation

variable {α β γ : Type}

theorem bind_assoc (c : Consultation α) (f : α → Consultation β) (g : β → Consultation γ) :
    (c.bind f).bind g = c.bind fun a => (f a).bind g := by
  obtain ⟨asked, a | e⟩ := c
  · rfl
  · rcases h : (f e) with ⟨asked', _ | b⟩
    · simp [bind, h]
    · simp [bind, h]

theorem map_bind (c : Consultation α) (f : α → β) (g : β → Consultation γ) :
    (c.map f).bind g = c.bind fun a => g (f a) := by
  obtain ⟨asked, _ | a⟩ := c
  · rfl
  · rfl

/-- What follows the answers to two rows of questions follows those to the first row and then those
to the second. -/
theorem each_append_bind (ask : String → Consultation α) (names names' : List String)
    (next : Consultation β) :
    ((each ask (names ++ names')).bind fun _ => next) =
      (each ask names).bind fun _ => (each ask names').bind fun _ => next := by
  induction names with
  | nil => simp [each, bind, pure]
  | cons name names ih => simp only [List.cons_append, each, bind_assoc, map_bind, ih]

/-- What needs no question adds none. -/
theorem asked_bind_silent (c : Consultation α) (x : Except CodecError β) :
    (c.bind fun _ => ⟨[], x⟩).asked = c.asked := by
  unfold bind
  split
  · exact List.append_nil _
  · rfl

/-- A row of names is shown to a filter up to the first that it refuses. -/
theorem asked_each_check (admits : String → Bool) (names : List String) :
    (each (Resolver.check admits) names).asked =
      names.takeWhile admits ++ (names.dropWhile admits).take 1 := by
  induction names with
  | nil => rfl
  | cons name names ih =>
      cases h : admits name with
      | true => simp [each, bind, map, Resolver.check, h, ih]
      | false => simp [each, bind, Resolver.check, h]

/-- A row of names is let through when each of them is. -/
theorem exists_each_check_iff {admits : String → Bool} {names : List String} :
    (∃ passed, (each (Resolver.check admits) names).answer = .ok passed) ↔
      ∀ name ∈ names, admits name = true := by
  constructor
  · rintro ⟨passed, h⟩ name hname
    obtain ⟨_, hcheck⟩ := each_answer_eq_ok h name hname
    exact Resolver.admits_of_check hcheck
  · intro h
    induction names with
    | nil => exact ⟨[], rfl⟩
    | cons name names ih =>
        obtain ⟨hname, hnames⟩ := List.forall_mem_cons.mp h
        obtain ⟨passed, hpassed⟩ := ih hnames
        exact ⟨() :: passed, by simp [each, bind, map, Resolver.check, hname, hpassed, Except.map]⟩

/-- A filter that admits whatever it is asked about is asked about every name. -/
theorem admits_of_asked_each_check {admits : String → Bool} {names : List String}
    (h : ∀ name ∈ (each (Resolver.check admits) names).asked, admits name = true) :
    ∀ name ∈ names, admits name = true := by
  induction names with
  | nil => exact List.forall_mem_nil _
  | cons first names ih =>
      cases hfirst : admits first with
      | true =>
          refine List.forall_mem_cons.mpr ⟨hfirst, ih fun name hname => h name ?_⟩
          simpa [each, bind, map, Resolver.check, hfirst] using .inr hname
      | false =>
          have hasked := h first (by simp [each, bind, Resolver.check, hfirst])
          cases hasked.symm.trans hfirst

/-- The first name that a filter refuses is the error. -/
theorem answer_each_check {admits : String → Bool} {names : List String} {name : String}
    (hname : name ∈ (each (Resolver.check admits) names).asked) (h : admits name = false) :
    (each (Resolver.check admits) names).answer = .error (.refusedName name) := by
  induction names with
  | nil => cases hname
  | cons first names ih =>
      cases hfirst : admits first with
      | true =>
          have hlater : name ∈ (each (Resolver.check admits) names).asked := by
            simp only [each, bind, map, Resolver.check, hfirst, if_true] at hname
            rcases List.mem_append.mp hname with hname | hname
            · obtain rfl := List.mem_singleton.mp hname
              cases hfirst.symm.trans h
            · exact hname
          simp [each, bind, map, Resolver.check, hfirst, ih hlater, Except.map]
      | false =>
          obtain rfl : name = first := by
            simpa [each, bind, Resolver.check, hfirst] using hname
          simp [each, bind, Resolver.check, hfirst]

end Consultation

namespace Reader

variable {ε α β : Type}

/-- What is named behind a thing, if this can be read. -/
def namedBehind (read : Reader ε α) (names : α → Bytes → List String) (b : Bytes) : List String :=
  match read (Cursor.start b) with
  | .ok a c => names a c.unread
  | .error _ _ => []

/-- What is named in a number of things in a row, as far as they can be read. -/
def namedInTimes (read : Reader ε α) (names : Bytes → List String) : Nat → Bytes → List String
  | 0, _ => []
  | n + 1, b => names b ++ namedBehind read (fun _ => namedInTimes read names n) b

end Reader

namespace Resolver

/-- A filter before names that are taken as they are. -/
abbrev screening (admits : String → Bool) : Resolver :=
  filtered (some admits) plain

end Resolver

namespace Codec

open Reader

/-- The names in an input in order, as far as a reader without a filter comes: the class of an
object when the class itself has been read, and the interfaces of a proxy when all of them have. -/
def reached (known : KnownValues) : (levels : Nat) → Bytes → List String
  | 0 => fun _ => []
  | levels + 1 =>
    let d : Dialect := ⟨.plain, known⟩
    namedBehind readTag fun
      | .list => namedBehind Reader.count (namedInTimes (readValue d levels) (reached known levels))
      | .object => namedBehind Reader.text fun name b =>
        name :: namedBehind Reader.count (namedInTimes (readField d levels)
          (namedBehind Reader.text fun _ => reached known levels)) b
      | .proxy => namedBehind Reader.count fun n =>
        namedBehind (Reader.times Reader.text n) fun names b => names ++ reached known levels b
      | _ => fun _ => []

end Codec

namespace Reader

variable {read : Reader CodecError α} {names : Bytes → List String}
  {post : α → List String → Prop}

/-- What is made of an input without a question, and the names along the input, are so related. -/
def Tells (read : Reader CodecError α) (names : Bytes → List String)
    (post : α → List String → Prop) : Prop :=
  ∀ b a c, read (Cursor.start b) = .ok a c → c.asked = #[] ∧ post a (names b)

namespace Tells

theorem of_quiet (h : Quiet read) (hmakes : Makes read fun a => post a []) :
    Tells read (fun _ => []) post :=
  fun _ a c hread => ⟨h.silent _ a c hread, hmakes _ a c hread⟩

/-- Names that stand before all others are told with them. -/
theorem named (first : List String)
    (h : Tells read names fun a later => post a (first ++ later)) :
    Tells read (fun b => first ++ names b) post := h

theorem behind {next : α → Reader CodecError β} {names' : α → Bytes → List String}
    {post : β → List String → Prop} (h : Quiet read)
    (second : ∀ a, Tells (next a) (names' a) post) :
    Tells (read >>= next) (namedBehind read names') post := by
  intro b x c hread
  obtain ⟨a, ⟨left, asked⟩, hfirst, hsecond⟩ := bind_eq_ok hread
  obtain rfl : asked = #[] := h.silent _ a _ hfirst
  simp only [namedBehind, hfirst]
  exact second a left x c hsecond

theorem map {f : α → β} {post' : β → List String → Prop} (h : Tells read names post)
    (hf : ∀ a l, post a l → post' (f a) l) : Tells (f <$> read) names post' := by
  rw [map_eq_pure_bind]
  intro b x c hread
  obtain ⟨a, c', hfirst, hpure⟩ := bind_eq_ok hread
  cases hpure
  obtain ⟨hasked, hpost⟩ := h b a c hfirst
  exact ⟨hasked, hf a _ hpost⟩

theorem times {namesOf : α → List String} (each : Tells read names fun a l => l = namesOf a)
    (n : Nat) : Tells (Reader.times read n) (namedInTimes read names n)
      fun as l => l = as.flatMap namesOf := by
  induction n with
  | zero => exact .of_quiet (.pure []) (.pure rfl)
  | succ n ih =>
      intro b as c hread
      obtain ⟨a, ⟨left, asked⟩, hfirst, hlater⟩ := bind_eq_ok hread
      obtain ⟨as', c', hlater, hpure⟩ := bind_eq_ok hlater
      cases hpure
      obtain ⟨rfl, hnames⟩ := each b a _ hfirst
      obtain ⟨hasked, hnames'⟩ := ih left as' c hlater
      refine ⟨hasked, ?_⟩
      simp only [namedInTimes, namedBehind, hfirst, hnames, hnames', List.flatMap_cons]

end Tells

end Reader

namespace Codec

open Reader

theorem itemNames_eq_flatMap (items : List Value) :
    Value.itemNames items = items.flatMap Value.typeNames := by
  induction items with
  | nil => rfl
  | cons v items ih => rw [Value.itemNames, ih, List.flatMap_cons]

theorem fieldNames_eq_flatMap (fields : List (String × Value)) :
    Value.fieldNames fields = fields.flatMap (Value.typeNames ·.2) := by
  induction fields with
  | nil => rfl
  | cons e fields ih => rw [Value.fieldNames, ih, List.flatMap_cons]

theorem consult_plain_class (name : String) (next : String → Reader CodecError α) :
    (Reader.consult (Resolver.plain.resolveClass name) >>= next) = next name := by
  funext c
  exact bind_of_ok (consult_pure name c) next

theorem consult_plain_proxy (names : List String) (next : List String → Reader CodecError α) :
    (Reader.consult (Resolver.plain.resolveProxy names) >>= next) = next names := by
  funext c
  rw [Resolver.plain_resolveProxy]
  exact bind_of_ok (consult_pure names c) next

theorem object_tells {known : KnownValues} {levels : Nat}
    (each : Tells (readValue ⟨.plain, known⟩ levels) (reached known levels)
      fun v l => l = v.typeNames) :
    Tells
      (do
        let name ← Reader.text
        let className ← Reader.consult (Resolver.plain.resolveClass name)
        let n ← Reader.count
        Value.object className <$> Reader.times (readField ⟨.plain, known⟩ levels) n)
      (namedBehind Reader.text fun name b =>
        name :: namedBehind Reader.count (namedInTimes (readField ⟨.plain, known⟩ levels)
          (namedBehind Reader.text fun _ => reached known levels)) b)
      fun v l => l = v.typeNames := by
  have hfield : Tells (readField ⟨.plain, known⟩ levels)
      (namedBehind Reader.text fun _ => reached known levels) fun e l => l = e.2.typeNames := by
    refine .behind .text fun key => ?_
    rw [← map_eq_pure_bind]
    exact each.map fun _ _ hnames => hnames
  refine .behind .text fun name => ?_
  rw [consult_plain_class]
  refine .named [name] (.behind .count fun n => (hfield.times n).map fun fields _ hnames => ?_)
  exact congrArg (name :: ·) (hnames.trans (fieldNames_eq_flatMap fields).symm)

/-- Where no value is well known, the names that are reached in what can be read are those of the
value that is read. -/
theorem reached_tells {known : KnownValues} (hknown : ∀ i, known.valueAt i = none) (levels : Nat) :
    Tells (readValue ⟨.plain, known⟩ levels) (reached known levels) fun v l => l = v.typeNames := by
  induction levels with
  | zero => exact .of_quiet (.throw _) (.throw _)
  | succ levels ih =>
      rw [readValue, reached]
      refine .behind .tag fun t => ?_
      cases t with
      | null => exact .of_quiet (.pure _) (.pure rfl)
      | yes => exact .of_quiet (.pure _) (.pure rfl)
      | no => exact .of_quiet (.pure _) (.pure rfl)
      | int => exact .of_quiet (.map .int _) (.map (.any _) fun _ _ => rfl)
      | long => exact .of_quiet (.map (.word 8) _) (.map (.any _) fun _ _ => rfl)
      | double => exact .of_quiet (.map (.word 8) _) (.map (.any _) fun _ _ => rfl)
      | text => exact .of_quiet (.map .text _) (.map (.any _) fun _ _ => rfl)
      | bytes =>
          exact .of_quiet ((Heedless.word 4).bind fun n => .map (.take n) _)
            (.after fun n => .map (.any _) fun _ _ => rfl)
      | list =>
          exact .behind .count fun n => (ih.times n).map fun items _ hnames =>
            hnames.trans (itemNames_eq_flatMap items).symm
      | object => exact object_tells ih
      | proxy =>
          refine .behind .count fun n => .behind (.times .text n) fun names => ?_
          rw [consult_plain_proxy]
          exact .named names (ih.map fun handler _ hnames => congrArg (names ++ ·) hnames)
      | reference =>
          simp only [hknown]
          exact .of_quiet (Heedless.byte.bind fun i => .throw _) (.after fun i => .throw _)

end Codec

namespace Reader

variable {admits : String → Bool} {plain screened : Reader CodecError α}
  {names : Bytes → List String}

/-- The second reader does what the first one does, unless the filter refuses one of these names;
it shows them to the filter, up to the first that is refused. -/
def Screens (admits : String → Bool) (plain screened : Reader CodecError α)
    (names : Bytes → List String) : Prop :=
  ∀ b, ∃ x left, plain (Cursor.start b) = Reader.consult ⟨[], x⟩ ⟨left, #[]⟩ ∧
    ∀ asked, ∃ left',
      screened ⟨b, asked⟩ = Reader.consult
          ((Consultation.each (Resolver.check admits) (names b)).bind fun _ => ⟨[], x⟩)
          ⟨left', asked⟩ ∧
        ((∀ name ∈ names b, admits name = true) → left' = left)

namespace Screens

/-- A reader that asks for no name does the same in either place. -/
theorem of_quiet {read : Reader CodecError α} (h : Quiet read) :
    Screens admits read read fun _ => [] := by
  intro b
  obtain ⟨taken, left, ⟨asked, x⟩, rfl, hasked, hread⟩ := h b
  obtain rfl : asked = [] := List.eq_nil_iff_forall_not_mem.mpr hasked
  exact ⟨x, left, hread left #[] rfl, fun asked => ⟨left, hread left asked rfl, fun _ => rfl⟩⟩

/-- The names that are put to a resolver are shown to the filter before it. -/
theorem consult (a : α) (names : List String) :
    Screens admits (Reader.consult (.pure a))
      (Reader.consult ((Consultation.each (Resolver.check admits) names).bind fun _ => .pure a))
      fun _ => names :=
  fun b => ⟨.ok a, b, rfl, fun _ => ⟨b, rfl, fun _ => rfl⟩⟩

/-- Two things in a row are screened when each of them is. -/
theorem bind {next next' : α → Reader CodecError β} {names' : α → Bytes → List String}
    (first : Screens admits plain screened names)
    (second : ∀ a, Screens admits (next a) (next' a) (names' a)) :
    Screens admits (plain >>= next) (screened >>= next')
      fun b => names b ++ namedBehind plain names' b := by
  intro b
  dsimp only
  obtain ⟨x, left, hplain, hscreened⟩ := first b
  cases x with
  | error e =>
      rw [consult_error] at hplain
      have hnone : namedBehind plain names' b = [] := by simp only [namedBehind, hplain]
      rw [hnone, List.append_nil]
      refine ⟨.error e, left, ?_, fun asked => ?_⟩
      · rw [consult_error]
        exact bind_of_error hplain next
      · obtain ⟨left', hread, hleft⟩ := hscreened asked
        refine ⟨left', ?_, hleft⟩
        cases hshown : (Consultation.each (Resolver.check admits) (names b)).answer with
        | error e' =>
            rw [consult_bind_of_error hshown] at hread ⊢
            exact bind_of_error hread next'
        | ok passed =>
            rw [consult_bind_of_ok hshown, consult_error] at hread ⊢
            exact bind_of_error hread next'
  | ok a =>
      change plain (Cursor.start b) = Reader.consult (.pure a) _ at hplain
      rw [consult_pure] at hplain
      have hnames : namedBehind plain names' b = names' a left := by
        simp only [namedBehind, hplain]
      rw [hnames]
      obtain ⟨y, rest, hnext, hscreened'⟩ := second a left
      refine ⟨y, rest, (bind_of_ok hplain next).trans hnext, fun asked => ?_⟩
      rw [Consultation.each_append_bind]
      obtain ⟨left', hread, hleft⟩ := hscreened asked
      cases hshown : (Consultation.each (Resolver.check admits) (names b)).answer with
      | error e' =>
          rw [consult_bind_of_error hshown] at hread
          refine ⟨left', ?_, fun hall => ?_⟩
          · rw [consult_bind_of_error hshown]
            exact bind_of_error hread next'
          · obtain ⟨passed, hpassed⟩ :=
              Consultation.exists_each_check_iff.mpr (List.forall_mem_append.mp hall).1
            cases hshown.symm.trans hpassed
      | ok passed =>
          obtain rfl := hleft (Consultation.exists_each_check_iff.mp ⟨passed, hshown⟩)
          change _ = Reader.consult (Consultation.bind _ fun _ => .pure a) _ at hread
          rw [consult_bind_of_ok hshown, consult_pure] at hread
          obtain ⟨rest', hread', hrest⟩ :=
            hscreened' (asked ++ (Consultation.each (Resolver.check admits) (names b)).asked)
          refine ⟨rest', ?_, fun hall => hrest (List.forall_mem_append.mp hall).2⟩
          rw [consult_bind_of_ok hshown, ← hread']
          exact bind_of_ok hread next'

/-- What follows the answer to a resolver comes behind the names that were put to it. -/
theorem asked (a : α) (first : List String) {next next' : α → Reader CodecError β}
    (second : ∀ a, Screens admits (next a) (next' a) names) :
    Screens admits (Reader.consult (.pure a) >>= next)
      (Reader.consult ((Consultation.each (Resolver.check admits) first).bind fun _ => .pure a) >>=
        next')
      fun b => first ++ names b := by
  have hbind := (consult a first).bind second
  simp only [namedBehind, consult_pure] at hbind
  exact hbind

/-- What follows a thing without a name in it is screened as it is alone. -/
theorem behind {read : Reader CodecError α} {next next' : α → Reader CodecError β}
    {names' : α → Bytes → List String} (h : Quiet read)
    (second : ∀ a, Screens admits (next a) (next' a) (names' a)) :
    Screens admits (read >>= next) (read >>= next') (namedBehind read names') :=
  (of_quiet h).bind second

theorem map (h : Screens admits plain screened names) (f : α → β) :
    Screens admits (f <$> plain) (f <$> screened) names := by
  rw [map_eq_pure_bind, map_eq_pure_bind]
  intro b
  have hbind := h.bind (fun a => of_quiet (.pure (f a))) b
  have hnone : namedBehind plain (fun _ _ => []) b = [] := by
    unfold namedBehind
    split
    · rfl
    · rfl
  dsimp only at hbind
  rw [hnone, List.append_nil] at hbind
  exact hbind

theorem times (each : Screens admits plain screened names) (n : Nat) :
    Screens admits (Reader.times plain n) (Reader.times screened n)
      (namedInTimes plain names n) := by
  induction n with
  | zero => exact of_quiet (.pure [])
  | succ n ih =>
      refine each.bind fun a => ?_
      have htail := ih.map (a :: ·)
      rwa [map_eq_pure_bind, map_eq_pure_bind] at htail

end Screens

end Reader

namespace Codec

open Reader

variable {known : KnownValues} {admits : String → Bool} {levels : Nat}

section Contents

/-! What is read after the tag of a value that holds others, when these are screened. -/

theorem screens_object
    (each : Screens admits (readValue ⟨.plain, known⟩ levels)
      (readValue ⟨.screening admits, known⟩ levels) (reached known levels)) :
    Screens admits
      (do
        let name ← Reader.text
        let className ← Reader.consult (Resolver.plain.resolveClass name)
        let n ← Reader.count
        Value.object className <$> Reader.times (readField ⟨.plain, known⟩ levels) n)
      (do
        let name ← Reader.text
        let className ← Reader.consult ((Resolver.screening admits).resolveClass name)
        let n ← Reader.count
        Value.object className <$> Reader.times (readField ⟨.screening admits, known⟩ levels) n)
      (namedBehind Reader.text fun name b =>
        name :: namedBehind Reader.count (namedInTimes (readField ⟨.plain, known⟩ levels)
          (namedBehind Reader.text fun _ => reached known levels)) b) := by
  have hfield : Screens admits (readField ⟨.plain, known⟩ levels)
      (readField ⟨.screening admits, known⟩ levels)
      (namedBehind Reader.text fun _ => reached known levels) := by
    refine .behind .text fun key => ?_
    have hmap := each.map fun v => (key, v)
    rwa [map_eq_pure_bind, map_eq_pure_bind] at hmap
  refine .behind .text fun name => ?_
  have hclass : (Resolver.screening admits).resolveClass name =
      (Consultation.each (Resolver.check admits) [name]).bind fun _ => .pure name := by
    simp only [Consultation.each, Consultation.bind_assoc]
    rfl
  rw [hclass]
  exact .asked name [name] fun c => .behind .count fun n => (hfield.times n).map _

theorem screens_proxy
    (below : Screens admits (readValue ⟨.plain, known⟩ levels)
      (readValue ⟨.screening admits, known⟩ levels) (reached known levels)) :
    Screens admits
      (do
        let n ← Reader.count
        let names ← Reader.times Reader.text n
        let interfaces ← Reader.consult (Resolver.plain.resolveProxy names)
        Value.proxy interfaces <$> readValue ⟨.plain, known⟩ levels)
      (do
        let n ← Reader.count
        let names ← Reader.times Reader.text n
        let interfaces ← Reader.consult ((Resolver.screening admits).resolveProxy names)
        Value.proxy interfaces <$> readValue ⟨.screening admits, known⟩ levels)
      (namedBehind Reader.count fun n =>
        namedBehind (Reader.times Reader.text n) fun names b => names ++ reached known levels b) := by
  refine .behind .count fun n => .behind (.times .text n) fun names => ?_
  have hproxy : (Resolver.screening admits).resolveProxy names =
      (Consultation.each (Resolver.check admits) names).bind fun _ => .pure names := by
    simp only [Resolver.filtered, Resolver.plain_resolveProxy]
  rw [hproxy, Resolver.plain_resolveProxy]
  exact .asked names names fun interfaces => below.map _

end Contents

/-- A value is screened name by name. -/
theorem screens_readValue (known : KnownValues) (admits : String → Bool) (levels : Nat) :
    Screens admits (readValue ⟨.plain, known⟩ levels)
      (readValue ⟨.screening admits, known⟩ levels) (reached known levels) := by
  induction levels with
  | zero => exact .of_quiet (.throw _)
  | succ levels ih =>
      rw [readValue, readValue, reached]
      refine .behind .tag fun t => ?_
      cases t with
      | null => exact .of_quiet (.pure _)
      | yes => exact .of_quiet (.pure _)
      | no => exact .of_quiet (.pure _)
      | int => exact .of_quiet (.map .int _)
      | long => exact .of_quiet (.map (.word 8) _)
      | double => exact .of_quiet (.map (.word 8) _)
      | text => exact .of_quiet (.map .text _)
      | bytes => exact .of_quiet ((Heedless.word 4).bind fun n => .map (.take n) _)
      | list => exact .behind .count fun n => (ih.times n).map _
      | object => exact screens_object ih
      | proxy => exact screens_proxy ih
      | reference =>
          refine .of_quiet (Heedless.byte.bind fun i => ?_)
          split
          · exact .pure _
          · exact .throw _

/-- A filter before names that are taken as they are is asked about the names that are reached, in
order and once for each place, up to the first that it refuses. If it refuses none of them, the
reader ends as it does without a filter and at the same place in the input. If it refuses a name,
this is the error, and any other bytes of the same number behind the place where the reader stops
bring the same error after the same questions. -/
theorem read_screened (known : KnownValues) (admits : String → Bool) (input : Bytes) :
    ∃ x c, read ⟨.screening admits, known⟩ (Cursor.start input) = ended x c ∧
      c.asked.toList = (reached known maxNesting input).takeWhile admits ++
        ((reached known maxNesting input).dropWhile admits).take 1 ∧
      ((∀ name ∈ c.asked, admits name = true) →
        read ⟨.plain, known⟩ (Cursor.start input) = ended x ⟨c.unread, #[]⟩) ∧
      ∀ name ∈ c.asked, admits name = false →
        x = .error (.refusedName name) ∧
        ∃ b, input = b ++ c.unread ∧ ∀ others, others.length = c.unread.length →
          read ⟨.screening admits, known⟩ (Cursor.start (b ++ others)) =
            ended (.error (.refusedName name)) ⟨others, c.asked⟩ := by
  obtain ⟨y, left, hplain, hscreened⟩ := screens_readValue known admits maxNesting input
  obtain ⟨left', hread, hleft⟩ := hscreened #[]
  rw [consult_eq_ended] at hplain hread
  rw [Consultation.asked_bind_silent] at hread
  refine ⟨_, _, hread, ?_, fun hall => ?_, fun name hname hrefused => ?_⟩
  · simp [Consultation.asked_each_check]
  · have hnames := Consultation.admits_of_asked_each_check fun name hname =>
      hall name (by simpa using hname)
    obtain ⟨passed, hpassed⟩ := Consultation.exists_each_check_iff.mpr hnames
    obtain rfl := hleft hnames
    rw [Consultation.bind, hpassed]
    exact hplain
  · have hreached : name ∈ (Consultation.each (Resolver.check admits)
        (reached known maxNesting input)).asked := by simpa using hname
    have hrefusal := Consultation.answer_each_check hreached hrefused
    rw [Consultation.bind, hrefusal] at hread ⊢
    exact ⟨rfl, (readValue_heedless _ _).others hread⟩

end Codec

end RemoteCall
