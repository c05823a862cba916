import RemoteCall.Bytes
import RemoteCall.Value.Double

/-!
# Values

What parameters, results and attachments are made of. Classes and interfaces are known by name
only; an object is a class name with named fields in order, a proxy is a list of interface names
with a handler.
-/

namespace RemoteCall

/-- A value that can be carried. -/
inductive Value where
  | null
  | bool (b : Bool)
  | int (n : Int32)
  | long (n : Int64)
  | double (d : Double)
  | text (s : String)
  | bytes (b : Bytes)
  | list (items : List Value)
  | object (className : String) (fields : List (String × Value))
  | proxy (interfaces : List String) (handler : Value)
  deriving Inhabited, Repr

namespace Value

/-- The text of a text value. -/
def text? : Value → Option String
  | .text s => some s
  | _ => none

/-- The number of a 32-bit integer value. -/
def int? : Value → Option Int32
  | .int n => some n
  | _ => none

/-- The class name of an object. -/
def className? : Value → Option String
  | .object c _ => some c
  | _ => none

/-- The first field of an object under a name. -/
def field? (name : String) : Value → Option Value
  | .object _ fields => fields.lookup name
  | _ => none

mutual

/-- Equality of values, where doubles are compared as numbers. -/
def same : Value → Value → Bool
  | .null, .null => true
  | .bool a, .bool b => a == b
  | .int a, .int b => a == b
  | .long a, .long b => a == b
  | .double a, .double b => a.same b
  | .text a, .text b => a == b
  | .bytes a, .bytes b => a == b
  | .list a, .list b => sameItems a b
  | .object c a, .object d b => c == d && sameFields a b
  | .proxy i a, .proxy j b => i == j && same a b
  | _, _ => false

/-- Equality of lists of values, item by item. -/
def sameItems : List Value → List Value → Bool
  | [], [] => true
  | a :: as, b :: bs => same a b && sameItems as bs
  | _, _ => false

/-- Equality of fields, name by name and value by value. -/
def sameFields : List (String × Value) → List (String × Value) → Bool
  | [], [] => true
  | (k, a) :: as, (l, b) :: bs => k == l && same a b && sameFields as bs
  | _, _ => false

end

theorem eq_of_same_text {s : String} {v : Value} (h : same (.text s) v = true) : v = .text s := by
  cases v <;> simp_all [same]

theorem eq_of_same_object_nil {c : String} {v : Value} (h : same (.object c []) v = true) :
    v = .object c [] := by
  cases v with
  | object c' fields => cases fields <;> simp_all [same, sameFields]
  | _ => simp [same] at h

end Value

end RemoteCall
