/-!
# Tags

The byte that starts a written value and tells its kind.
-/

namespace RemoteCall

/-- The kinds of written values. -/
inductive Tag where
  | null
  | yes
  | no
  | int
  | long
  | double
  | text
  | bytes
  | list
  | object
  | proxy
  | reference
  deriving DecidableEq, Repr

namespace Tag

/-- The byte of a tag. -/
def code : Tag → UInt8
  | null => 0x01
  | yes => 0x02
  | no => 0x03
  | int => 0x04
  | long => 0x05
  | double => 0x06
  | text => 0x10
  | bytes => 0x11
  | list => 0x20
  | object => 0x30
  | proxy => 0x31
  | reference => 0x40

/-- The tag with a given byte. -/
def ofCode? (b : UInt8) : Option Tag :=
  match b.toNat with
  | 0x01 => some null
  | 0x02 => some yes
  | 0x03 => some no
  | 0x04 => some int
  | 0x05 => some long
  | 0x06 => some double
  | 0x10 => some text
  | 0x11 => some bytes
  | 0x20 => some list
  | 0x30 => some object
  | 0x31 => some proxy
  | 0x40 => some reference
  | _ => none

@[simp] theorem ofCode?_code (t : Tag) : ofCode? t.code = some t := by
  cases t <;> rfl

theorem code_of_ofCode? {b : UInt8} {t : Tag} (h : ofCode? b = some t) : t.code = b := by
  unfold ofCode? at h
  split at h <;> simp only [Option.some.injEq, reduceCtorEq] at h <;> subst h <;>
    exact UInt8.toNat_inj.mp (by simp_all [code])

end Tag

end RemoteCall
