import RemoteCall.Proofs.Codec.Accepted

/-!
# How the bytes of a value begin

The first byte of a value tells its kind. Behind it stands either a fixed number of bytes or a
length, and a length is never greater than the number of bytes that follow it. Nothing more is
needed to tell where a reader that starts at a wrong place can get through at all.
-/

namespace RemoteCall

/-- The number of bytes behind a tag, where it is the same for all values of the kind. -/
def Tag.width? : Tag → Option Nat
  | null => some 0
  | yes => some 0
  | no => some 0
  | int => some 4
  | long => some 8
  | double => some 8
  | _ => none

/-- The kind of a value. -/
def Value.tag : Value → Tag
  | null => .null
  | bool true => .yes
  | bool false => .no
  | int _ => .int
  | long _ => .long
  | double _ => .double
  | text _ => .text
  | bytes _ => .bytes
  | list _ => .list
  | object _ _ => .object
  | proxy _ _ => .proxy

namespace Codec

open Reader

/-- How the bytes of a value begin: a reference to a well-known value, or the tag of the value with
contents of a fixed width, or its tag with a length that the bytes behind it suffice for. -/
inductive Shape (d : Dialect) (v : Value) : Bytes → Prop
  | reference {i : UInt8} (h : d.known.valueAt i = some v) : Shape d v [Tag.reference.code, i]
  | fixed {u : Bytes} (h : v.tag.width? = some u.length) : Shape d v (v.tag.code :: u)
  | counted {n : Nat} {u : Bytes} (h : v.tag.width? = none) (hn : n < 0x100000000)
      (hu : n ≤ u.length) : Shape d v (v.tag.code :: (Bytes.ofNat 4 n ++ u))

variable {d : Dialect} {levels : Nat}

theorem Shape.length_pos {v : Value} {b : Bytes} (h : Shape d v b) : 0 < b.length := by
  cases h with
  | reference h => exact Nat.succ_pos _
  | fixed h => exact Nat.succ_pos _
  | counted h hn hu => exact Nat.succ_pos _

section Contents

/-! A count is not greater than the number of bytes that its items take. -/

/-- Things of which none is empty are not more than the bytes they take. -/
theorem accepts_times {ε α : Type} {read : Reader ε α}
    (each : Accepts read fun b _ => 0 < b.length) (n : Nat) :
    Accepts (Reader.times read n) fun b _ => n ≤ b.length := by
  have hcons (b : Bytes) (a : α) (b' : Bytes) (as : List α) (hb : 0 < b.length)
      (hb' : as.length ≤ b'.length) : (a :: as).length ≤ (b ++ b').length := by
    rw [List.length_append, List.length_cons]
    omega
  apply (each.times (Nat.le_refl 0) hcons n).weaken
  rintro b as ⟨rfl, hle⟩
  exact hle

theorem list_shape (each : Accepts (readValue d levels) fun b _ => 0 < b.length) :
    Accepts
      (do
        let n ← Reader.count
        Value.list <$> Reader.times (readValue d levels) n)
      fun b v => Shape d v (Tag.list.code :: b) := by
  apply Accepts.count.bind
  intro b n hn
  obtain ⟨hlt, rfl⟩ := putLength_eq_put_iff.mp hn
  apply (accepts_times each n).map
  intro u items hu
  exact .counted (v := .list items) rfl hlt hu

theorem object_shape (each : Accepts (readValue d levels) fun b _ => 0 < b.length) :
    Accepts
      (do
        let name ← Reader.text
        let className ← Reader.consult (d.resolver.resolveClass name)
        let n ← Reader.count
        Value.object className <$> Reader.times (readField d levels) n)
      fun b v => Shape d v (Tag.object.code :: b) := by
  have hfield : Accepts (readField d levels) fun b _ => 0 < b.length := by
    apply Accepts.text.bind
    intro b key _
    apply each.bind
    intro b' v hv
    apply Accepts.pure
    simp only [List.length_append, List.length_nil]
    omega
  apply Accepts.text.bind
  intro b name hname
  obtain ⟨hlt, rfl⟩ := putBlock_eq_put_iff.mp hname
  apply (Accepts.consult _).bind
  rintro b' className -
  apply Accepts.count.bind
  intro b'' n _
  apply (accepts_times hfield n).map
  intro u fields _
  rw [List.append_assoc]
  refine .counted (v := .object className fields) rfl hlt ?_
  rw [List.length_append]
  exact Nat.le_add_right _ _

theorem proxy_shape (each : Accepts (readValue d levels) fun b _ => 0 < b.length) :
    Accepts
      (do
        let n ← Reader.count
        let names ← Reader.times Reader.text n
        let interfaces ← Reader.consult (d.resolver.resolveProxy names)
        Value.proxy interfaces <$> readValue d levels)
      fun b v => Shape d v (Tag.proxy.code :: b) := by
  have htext : Accepts Reader.text fun b _ => 0 < b.length := by
    apply Accepts.text.weaken
    intro b s hs
    obtain ⟨-, rfl⟩ := putBlock_eq_put_iff.mp hs
    rw [List.length_append, Bytes.length_ofNat]
    omega
  apply Accepts.count.bind
  intro b n hn
  obtain ⟨hlt, rfl⟩ := putLength_eq_put_iff.mp hn
  apply (accepts_times htext n).bind
  intro u names hu
  apply (Accepts.consult _).bind
  rintro _ interfaces ⟨rfl, -⟩
  apply each.map
  intro u' handler _
  refine .counted (v := .proxy interfaces handler) rfl hlt ?_
  rw [List.length_append]
  exact Nat.le_add_right_of_le hu

end Contents

/-- Whatever is read as a value begins as the bytes of that value do. -/
theorem readValue_shape (d : Dialect) (levels : Nat) :
    Accepts (readValue d levels) fun b v => Shape d v b := by
  induction levels with
  | zero => exact Accepts.throw _
  | succ levels ih =>
      have each : Accepts (readValue d levels) fun b _ => 0 < b.length :=
        ih.weaken fun _ _ => Shape.length_pos
      rw [readValue]
      apply Accepts.tag.bind
      rintro _ t rfl
      cases t with
      | null => exact Accepts.pure (.fixed (v := .null) (u := []) rfl)
      | yes => exact Accepts.pure (.fixed (v := .bool true) (u := []) rfl)
      | no => exact Accepts.pure (.fixed (v := .bool false) (u := []) rfl)
      | int =>
          apply Accepts.int.map
          rintro _ n rfl
          exact .fixed (v := .int n) (u := intBytes n) rfl
      | long =>
          apply (Accepts.word 8).map
          rintro _ n ⟨-, rfl⟩
          exact .fixed (v := .long _) (u := Bytes.ofNat 8 n) rfl
      | double =>
          apply (Accepts.word 8).map
          rintro _ n ⟨-, rfl⟩
          exact .fixed (v := .double _) (u := Bytes.ofNat 8 n) rfl
      | text =>
          apply Accepts.text.map
          intro b s hs
          obtain ⟨hlt, rfl⟩ := putBlock_eq_put_iff.mp hs
          exact .counted (v := .text s) rfl hlt (Nat.le_refl _)
      | bytes =>
          apply (Accepts.word 4).bind
          rintro _ n ⟨hn, rfl⟩
          apply (Accepts.take n).map
          rintro _ u ⟨rfl, rfl⟩
          exact .counted (v := .bytes u) rfl hn (Nat.le_refl _)
      | list => exact list_shape each
      | object => exact object_shape each
      | proxy => exact proxy_shape each
      | reference =>
          apply Accepts.byte.bind
          rintro _ i rfl
          split
          · next v hv => exact Accepts.pure (.reference hv)
          · exact Accepts.throw _

end Codec

end RemoteCall
