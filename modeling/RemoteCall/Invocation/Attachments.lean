import Std.Data.ExtHashMap
import RemoteCall.Codec.Lift
import RemoteCall.Value.Describe

/-!
# Attachments

Named values that travel with an invocation, in the order in which their keys were first set.
Beside the entries a table gives the place of each key, so that a peer that sends many attachments
does not make every look-up long.
-/

namespace RemoteCall

/-- Named values in order, with the place of each name. -/
structure Attachments where
  entries : Array (String × Value)
  slots : Std.ExtHashMap String Nat

namespace Attachments

/-- The place of a key. -/
def slot? (a : Attachments) (key : String) : Option Nat := a.slots[key]?

/-- The table gives the place of each key, and of nothing else, and no key occurs twice. -/
def Indexed (a : Attachments) : Prop :=
  ∀ (key : String) (slot : Nat), a.slot? key = some slot ↔ ∃ v, a.entries[slot]? = some (key, v)

/-- No attachments. -/
def empty : Attachments := ⟨#[], ∅⟩

instance : EmptyCollection Attachments := ⟨empty⟩

/-- The value under a key. -/
def get? (a : Attachments) (key : String) : Option Value :=
  (a.slot? key).bind fun slot => a.entries[slot]?.map (·.2)

/-- Sets the value under a key, in place if the key is there. The first component is the value
that was there. -/
def insert (a : Attachments) (key : String) (v : Value) : Option Value × Attachments :=
  match a.slot? key with
  | some slot =>
    (a.entries[slot]?.map (·.2),
      { a with entries := a.entries.modify slot fun entry => (entry.1, v) })
  | none =>
    let slot := a.entries.size
    (none, ⟨a.entries.push (key, v), a.slots.insert key slot⟩)

/-- Removes a key; later entries move up by one place. The first component is the value that was
there. -/
def remove (a : Attachments) (key : String) : Option Value × Attachments :=
  match a.slot? key with
  | some slot =>
    (a.entries[slot]?.map (·.2),
      ⟨a.entries.eraseIdxIfInBounds slot,
        (a.slots.erase key).map fun _ place => if slot < place then place - 1 else place⟩)
  | none => (none, a)

/-- The attachments that result from setting keys one after the other. -/
def ofList (entries : List (String × Value)) : Attachments :=
  entries.foldl (fun a (key, v) => (a.insert key v).2) empty

/-- The attachments in order. -/
def toList (a : Attachments) : List (String × Value) := a.entries.toList

/-- The number of attachments. -/
def size (a : Attachments) : Nat := a.entries.size

/-- Equality: the same keys with equal values in the same order. -/
def same (a b : Attachments) : Bool :=
  Value.sameFields a.toList b.toList

/-- The text of attachments in a message. -/
def describe (a : Attachments) : String :=
  Value.describeEntries a.toList

/-- Writes a packed count, then every key with its value. -/
def write (d : Dialect) (a : Attachments) : Wire :=
  if a.size < 0x100000000 then
    Packed.write (UInt32.ofNat a.size) ++
      .concat (a.toList.map fun (key, v) => Wire.value d (.text key) ++ Wire.value d v)
  else .stop (.violation "too many attachments")

/-- Reads a key, which has to be a text. -/
def readKey (d : Dialect) : Parse String := do
  match ← Parse.value d with
  | .text key => pure key
  | other => throw (.violation ("attachment key is not a string: " ++ other.describe))

/-- Reads `n` attachments into those that are there already. -/
def readInto (d : Dialect) : (n : Nat) → Attachments → Parse Attachments
  | 0, a => pure a
  | n + 1, a => do
    let key ← readKey d
    let v ← Parse.value d
    readInto d n (a.insert key v).2

/-- Reads attachments; of two values under one key the later counts, in the earlier place. -/
def read (d : Dialect) : Parse Attachments := do
  let n ← Parse.ofCodec Packed.read
  readInto d n.toNat empty

@[simp] theorem toList_empty : (∅ : Attachments).toList = [] := rfl

@[simp] theorem length_toList (a : Attachments) : a.toList.length = a.size := rfl

theorem toList_insert_of_slot {a : Attachments} {key : String} {slot : Nat}
    (h : a.slot? key = some slot) (v : Value) :
    (a.insert key v).2.toList = a.toList.modify slot fun entry => (entry.1, v) := by
  rw [insert, h]
  exact Array.toList_modify

theorem toList_insert_of_no_slot {a : Attachments} {key : String}
    (h : a.slot? key = none) (v : Value) :
    (a.insert key v).2.toList = a.toList ++ [(key, v)] := by
  rw [insert, h]
  exact Array.toList_push

theorem toList_remove_of_slot {a : Attachments} {key : String} {slot : Nat}
    (h : a.slot? key = some slot) :
    (a.remove key).2.toList = a.toList.eraseIdx slot := by
  rw [remove, h]
  exact Array.toList_eraseIdxIfInBounds

theorem toList_remove_of_no_slot {a : Attachments} {key : String}
    (h : a.slot? key = none) : (a.remove key).2.toList = a.toList := by
  rw [remove, h]

theorem empty_indexed : (∅ : Attachments).Indexed := by
  intro key slot
  change (∅ : Std.ExtHashMap String Nat)[key]? = some slot ↔
    ∃ v, (#[] : Array (String × Value))[slot]? = some (key, v)
  simp

end Attachments

end RemoteCall
