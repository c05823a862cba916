import RemoteCall.Proofs.Invocation.Attachments

/-!
# Attachments are a plain list of entries

A plain list of entries needs no table: a key is looked for from the front, is set where it stands
or at the end, and is taken out by closing the gap. Whatever is done with attachments, one thing
after the other, is answered as it is by a plain list, and leaves the entries of this list behind
with a table that is in step with them.
-/

namespace RemoteCall

/-- Named values in the order in which their names were first set. -/
abbrev Entries := List (String × Value)

/-- What may be done with named values. -/
inductive Keeping.Operation where
  | insert (key : String) (v : Value)
  | remove (key : String)
  | get (key : String)
  /-- Starts anew with some entries, set one after the other. -/
  | collect (entries : List (String × Value))
  /-- Starts anew with what is read at a place in an input, or keeps what is there if nothing can be
  read. -/
  | read (d : Dialect) (c : Cursor)

/-- What is answered. -/
inductive Keeping.Answer where
  /-- The value that was there, that was found or that was taken out. -/
  | value (v : Option Value)
  | collected
  /-- How reading ended, and where. -/
  | read (outcome : EStateM.Result ProtocolError Cursor Unit)

/-- A way to keep named values. -/
structure Keeping (σ : Type) where
  insert : String → Value → σ → Option Value × σ
  remove : String → σ → Option Value × σ
  get? : String → σ → Option Value
  collect : List (String × Value) → σ
  read : Dialect → Parse σ

namespace Keeping

variable {σ : Type}

/-- Carries out one operation. -/
def perform (k : Keeping σ) : Operation → σ → Answer × σ
  | .insert key v, s => ((.value (k.insert key v s).1), (k.insert key v s).2)
  | .remove key, s => ((.value (k.remove key s).1), (k.remove key s).2)
  | .get key, s => (.value (k.get? key s), s)
  | .collect entries, _ => (.collected, k.collect entries)
  | .read d c, s =>
    match k.read d c with
    | .ok s' c' => (.read (.ok () c'), s')
    | .error e c' => (.read (.error e c'), s)

/-- Carries out operations one after the other. -/
def run (k : Keeping σ) : List Operation → σ → List Answer × σ
  | [], s => ([], s)
  | op :: ops, s =>
    let (answer, s) := k.perform op s
    let (answers, s) := k.run ops s
    (answer :: answers, s)

theorem perform_read_of_ok {k : Keeping σ} {d : Dialect} {c c' : Cursor} {s s' : σ}
    (h : k.read d c = .ok s' c') : k.perform (.read d c) s = (.read (.ok () c'), s') := by
  simp only [perform, h]

theorem perform_read_of_error {k : Keeping σ} {d : Dialect} {c c' : Cursor} {s : σ}
    {e : ProtocolError} (h : k.read d c = .error e c') :
    k.perform (.read d c) s = (.read (.error e c'), s) := by
  simp only [perform, h]

end Keeping

namespace Entries

variable {key : String} {l front : Entries}

/-- Sets the value under a key where the key stands, or at the end if it is not there. -/
def put (key : String) (v : Value) : Entries → Entries
  | [] => [(key, v)]
  | e :: rest => if e.1 = key then (key, v) :: rest else e :: put key v rest

/-- The entries without the one under a key, in the same order. -/
def without (key : String) (l : Entries) : Entries :=
  l.eraseP (·.1 == key)

/-- Sets keys one after the other. -/
def putAll (l entries : Entries) : Entries :=
  entries.foldl (fun l e => put e.1 e.2 l) l

/-- Reads a key and its value. -/
def readEntry (d : Dialect) : Parse (String × Value) := do
  let key ← Attachments.readKey d
  let v ← Parse.value d
  pure (key, v)

/-- Reads a packed count and as many keys with their values. -/
def readAll (d : Dialect) : Parse Entries := do
  let n ← Parse.ofCodec Packed.read
  Reader.times (readEntry d) n.toNat

/-- Named values in a plain list. -/
def keeping : Keeping Entries where
  insert key v l := (l.lookup key, put key v l)
  remove key l := (l.lookup key, without key l)
  get? key l := l.lookup key
  collect := putAll []
  read d := putAll [] <$> readAll d

theorem put_of_forall_ne (h : ∀ e ∈ l, e.1 ≠ key) (v : Value) : put key v l = l ++ [(key, v)] := by
  induction l with
  | nil => rfl
  | cons e rest ih =>
      obtain ⟨he, hrest⟩ := List.forall_mem_cons.mp h
      rw [put, if_neg he, ih hrest, List.cons_append]

theorem put_append_cons (h : ∀ e ∈ front, e.1 ≠ key) (v w : Value) (back : Entries) :
    put key v (front ++ (key, w) :: back) = front ++ (key, v) :: back := by
  induction front with
  | nil => exact if_pos rfl
  | cons e rest ih =>
      obtain ⟨he, hrest⟩ := List.forall_mem_cons.mp h
      rw [List.cons_append, put, if_neg he, ih hrest, List.cons_append]

theorem without_of_forall_ne (h : ∀ e ∈ l, e.1 ≠ key) : without key l = l := by
  apply List.eraseP_of_forall_not
  intro e he
  simpa using h e he

theorem without_append_cons (h : ∀ e ∈ front, e.1 ≠ key) (w : Value) (back : Entries) :
    without key (front ++ (key, w) :: back) = front ++ back := by
  have hfront : ∀ e ∈ front, ¬ (e.1 == key) = true := by
    intro e he
    simpa using h e he
  rw [without, List.eraseP_append_right _ hfront, List.eraseP_cons_of_pos (by simp)]

theorem lookup_of_forall_ne (h : ∀ e ∈ l, e.1 ≠ key) : l.lookup key = none := by
  apply List.lookup_eq_none_iff.mpr
  intro e he
  simpa using (h e he).symm

theorem lookup_append_cons (h : ∀ e ∈ front, e.1 ≠ key) (w : Value) (back : Entries) :
    (front ++ (key, w) :: back).lookup key = some w := by
  refine List.lookup_eq_some_iff.mpr ⟨front, back, rfl, ?_⟩
  intro e he
  simpa using (h e he).symm

end Entries

namespace Attachments

open Entries

variable {a : Attachments} {l : Entries} {key : String}

/-- Named values in order, with a table of their places. -/
def keeping : Keeping Attachments where
  insert key v a := a.insert key v
  remove key a := a.remove key
  get? key a := a.get? key
  collect := ofList
  read := read

/-- The attachments have these entries, and their table is in step. -/
def Lists (a : Attachments) (l : Entries) : Prop :=
  a.Indexed ∧ a.toList = l

theorem get?_of_slot {slot : Nat} (h : a.slot? key = some slot) :
    a.get? key = a.toList[slot]?.map (·.2) := by
  rw [get?, h, Option.bind_some, toList, Array.getElem?_toList]

theorem get?_of_no_slot (h : a.slot? key = none) : a.get? key = none := by
  rw [get?, h, Option.bind_none]

/-- What was there before a key is set is what is found under it. -/
theorem insert_fst (a : Attachments) (key : String) (v : Value) :
    (a.insert key v).1 = a.get? key := by
  unfold insert get?
  cases a.slot? key with
  | none => rfl
  | some slot => rfl

/-- What is taken out under a key is what is found under it. -/
theorem remove_fst (a : Attachments) (key : String) : (a.remove key).1 = a.get? key := by
  unfold remove get?
  cases a.slot? key with
  | none => rfl
  | some slot => rfl

/-- A key that has a place stands there and nowhere before it. -/
theorem Indexed.exists_split (h : a.Indexed) {slot : Nat} (hs : a.slot? key = some slot) :
    ∃ front w back, a.toList = front ++ (key, w) :: back ∧ front.length = slot ∧
      ∀ e ∈ front, e.1 ≠ key := by
  obtain ⟨w, hw⟩ := (indexed_iff.mp h key slot).mp hs
  obtain ⟨hlt, hget⟩ := List.getElem?_eq_some_iff.mp hw
  refine ⟨a.toList.take slot, w, a.toList.drop (slot + 1), ?_, ?_, ?_⟩
  · rw [← hget, ← List.drop_eq_getElem_cons hlt, List.take_append_drop]
  · exact List.length_take_of_le (Nat.le_of_lt hlt)
  · intro e he hkey
    obtain ⟨i, hi, rfl⟩ := List.mem_iff_getElem.mp he
    rw [List.length_take] at hi
    rw [List.getElem_take] at hkey
    have hfirst : a.toList[i]? = some (key, a.toList[i].2) := by
      rw [List.getElem?_eq_getElem (by omega), ← hkey]
    have hplace := h.eq_of_getElem? hfirst hw
    omega

theorem Indexed.forall_ne (h : a.Indexed) (hs : a.slot? key = none) :
    ∀ e ∈ a.toList, e.1 ≠ key := by
  rintro ⟨k, w⟩ he rfl
  exact h.slot?_eq_none_iff.mp hs w he

theorem Lists.get? (h : a.Lists l) (key : String) : a.get? key = l.lookup key := by
  obtain ⟨hindexed, rfl⟩ := h
  cases hs : a.slot? key with
  | none =>
      rw [get?_of_no_slot hs, lookup_of_forall_ne (hindexed.forall_ne hs)]
  | some slot =>
      obtain ⟨front, w, back, hlist, rfl, hfront⟩ := hindexed.exists_split hs
      rw [get?_of_slot hs, hlist, lookup_append_cons hfront]
      simp

theorem Lists.insert (h : a.Lists l) (key : String) (v : Value) :
    (a.insert key v).2.Lists (put key v l) := by
  obtain ⟨hindexed, rfl⟩ := h
  refine ⟨hindexed.insert key v, ?_⟩
  cases hs : a.slot? key with
  | none =>
      rw [toList_insert_of_no_slot hs, put_of_forall_ne (hindexed.forall_ne hs)]
  | some slot =>
      obtain ⟨front, w, back, hlist, rfl, hfront⟩ := hindexed.exists_split hs
      rw [toList_insert_of_slot hs, hlist, put_append_cons hfront]
      simp [List.modify_eq_take_cons_drop]

theorem Lists.remove (h : a.Lists l) (key : String) :
    (a.remove key).2.Lists (without key l) := by
  obtain ⟨hindexed, rfl⟩ := h
  refine ⟨hindexed.remove key, ?_⟩
  cases hs : a.slot? key with
  | none =>
      rw [toList_remove_of_no_slot hs, without_of_forall_ne (hindexed.forall_ne hs)]
  | some slot =>
      obtain ⟨front, w, back, hlist, rfl, hfront⟩ := hindexed.exists_split hs
      rw [toList_remove_of_slot hs, hlist, without_append_cons hfront]
      simp [List.eraseIdx_eq_take_drop_succ]

theorem Lists.insertAll (h : a.Lists l) (entries : Entries) :
    (a.insertAll entries).Lists (putAll l entries) := by
  induction entries generalizing a l with
  | nil => exact h
  | cons e entries ih => exact ih (h.insert e.1 e.2)

theorem empty_lists : empty.Lists [] := ⟨empty_indexed, rfl⟩

theorem ofList_lists (entries : Entries) : (ofList entries).Lists (putAll [] entries) :=
  empty_lists.insertAll entries

/-- Reading attachments is reading entries and setting them one after the other. -/
theorem readInto_eq (d : Dialect) (n : Nat) (a : Attachments) :
    readInto d n a = a.insertAll <$> Reader.times (readEntry d) n := by
  induction n generalizing a with
  | zero =>
      rw [Reader.times, map_pure]
      rfl
  | succ n ih =>
      calc
        readInto d (n + 1) a = (do
            let key ← readKey d
            let v ← Parse.value d
            (a.insert key v).2.insertAll <$> Reader.times (readEntry d) n) := by
          simp only [readInto, ih]
        _ = (do
            let e ← readEntry d
            (fun entries => a.insertAll (e :: entries)) <$> Reader.times (readEntry d) n) := by
          rw [readEntry]
          simp only [bind_assoc, pure_bind]
          rfl
        _ = a.insertAll <$> Reader.times (readEntry d) (n + 1) := by
          simp only [Reader.times, map_eq_pure_bind, bind_assoc, pure_bind]

theorem read_eq (d : Dialect) : read d = ofList <$> readAll d := by
  calc
    read d = (do
        let n ← Parse.ofCodec Packed.read
        empty.insertAll <$> Reader.times (readEntry d) n.toNat) := by
      simp only [read, readInto_eq]
    _ = ofList <$> readAll d := by
      rw [readAll, map_bind]
      rfl

/-- One operation is answered as it is by a plain list, and keeps the entries alike. -/
theorem Lists.perform (h : a.Lists l) (op : Keeping.Operation) :
    (keeping.perform op a).1 = (Entries.keeping.perform op l).1 ∧
      (keeping.perform op a).2.Lists (Entries.keeping.perform op l).2 := by
  cases op with
  | insert key v =>
      have hanswer : (a.insert key v).1 = l.lookup key := (insert_fst a key v).trans (h.get? key)
      exact ⟨congrArg Keeping.Answer.value hanswer, h.insert key v⟩
  | remove key =>
      have hanswer : (a.remove key).1 = l.lookup key := (remove_fst a key).trans (h.get? key)
      exact ⟨congrArg Keeping.Answer.value hanswer, h.remove key⟩
  | get key => exact ⟨congrArg Keeping.Answer.value (h.get? key), h⟩
  | collect entries => exact ⟨rfl, ofList_lists entries⟩
  | read d c =>
      have hread : keeping.read d = ofList <$> readAll d := read_eq d
      have hlisted : Entries.keeping.read d = putAll [] <$> readAll d := rfl
      cases hall : readAll d c with
      | ok entries c' =>
          rw [Keeping.perform_read_of_ok (hread ▸ Reader.map_of_ok hall ofList),
            Keeping.perform_read_of_ok (hlisted ▸ Reader.map_of_ok hall (putAll []))]
          exact ⟨rfl, ofList_lists entries⟩
      | error e c' =>
          rw [Keeping.perform_read_of_error (hread ▸ Reader.map_of_error hall ofList),
            Keeping.perform_read_of_error (hlisted ▸ Reader.map_of_error hall (putAll []))]
          exact ⟨rfl, h⟩

/-- Operations one after the other are answered as they are by a plain list. -/
theorem Lists.run (h : a.Lists l) (ops : List Keeping.Operation) :
    (keeping.run ops a).1 = (Entries.keeping.run ops l).1 ∧
      (keeping.run ops a).2.Lists (Entries.keeping.run ops l).2 := by
  induction ops generalizing a l with
  | nil => exact ⟨rfl, h⟩
  | cons op ops ih =>
      obtain ⟨hanswer, hnext⟩ := h.perform op
      obtain ⟨hanswers, hlast⟩ := ih hnext
      exact ⟨List.cons_eq_cons.mpr ⟨hanswer, hanswers⟩, hlast⟩

/-- Whatever is done with attachments, one thing after the other, is answered as it is by a plain
list. Afterwards no key stands twice, the table gives the place of each key and of no other, the
entries are those of the plain list, so there are as many, the same is found under every key, and
other attachments are equal to these when the plain lists are. -/
theorem behaves_as_entries (ops : List Keeping.Operation) :
    let done := keeping.run ops ∅
    let listed := Entries.keeping.run ops []
    (done.2.entries.toList.map Prod.fst).Nodup ∧
      (∀ (key : String) (slot : Nat),
        done.2.slot? key = some slot ↔ ∃ v, done.2.entries[slot]? = some (key, v)) ∧
      done.1 = listed.1 ∧ done.2.toList = listed.2 ∧ done.2.size = listed.2.length ∧
      (∀ key, done.2.get? key = listed.2.lookup key) ∧
      ∀ others, done.2.same (keeping.run others ∅).2 =
        Value.sameFields listed.2 (Entries.keeping.run others []).2 := by
  intro done listed
  have hlists : ∀ ops, (keeping.run ops ∅).2.Lists (Entries.keeping.run ops []).2 := by
    intro ops
    exact (empty_lists.run ops).2
  obtain ⟨hindexed, hentries⟩ := hlists ops
  refine ⟨hindexed.nodup_keys, hindexed, (empty_lists.run ops).1, hentries, ?_, ?_, ?_⟩
  · rw [← length_toList, hentries]
  · exact (hlists ops).get?
  · intro others
    rw [same, hentries, (hlists others).2]

end Attachments

end RemoteCall
