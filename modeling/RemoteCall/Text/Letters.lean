/-!
# ASCII letters without regard to case

Media types, header flags and query flags are compared with the twenty-six ASCII letters folded;
every other character must agree as it stands.
-/

namespace RemoteCall.Text

/-- ASCII capitals become small letters, other characters stay. -/
def fold (cs : List Char) : List Char :=
  cs.map Char.toLower

/-- Whether two texts agree up to the case of ASCII letters. -/
def sameFolded (a b : List Char) : Bool :=
  fold a == fold b

theorem sameFolded_iff {a b : List Char} : sameFolded a b = true ↔ fold a = fold b := by
  simp [sameFolded]

@[simp] theorem sameFolded_self (a : List Char) : sameFolded a a = true := by
  simp [sameFolded]

@[simp] theorem fold_append (a b : List Char) : fold (a ++ b) = fold a ++ fold b := by
  simp [fold]

end RemoteCall.Text
