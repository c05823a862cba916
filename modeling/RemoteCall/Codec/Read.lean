import RemoteCall.Codec.Reader
import RemoteCall.Codec.Write

/-!
# Reading values

The reader undoes the writer tag by tag. The name of a type is resolved as soon as it has been
read, before anything that depends on it.
-/

namespace RemoteCall.Codec

/-- The tag of the next value. -/
def readTag : Reader CodecError Tag := do
  let b ← Reader.byte
  match Tag.ofCode? b with
  | some t => pure t
  | none => throw (.unknownTag b)

/-- Reads a value with at most `levels` values inside one another. -/
def readValue (d : Dialect) : (levels : Nat) → Reader CodecError Value
  | 0 => throw .tooDeep
  | levels + 1 => do
    match ← readTag with
    | .null => pure .null
    | .yes => pure (.bool true)
    | .no => pure (.bool false)
    | .int => .int <$> Reader.int
    | .long => (fun n => .long (UInt64.ofNat n).toInt64) <$> Reader.word 8
    | .double => (fun n => .double ⟨UInt64.ofNat n⟩) <$> Reader.word 8
    | .text => .text <$> Reader.text
    | .bytes => do
      let length ← Reader.word 4
      .bytes <$> Reader.take length
    | .list => do
      let n ← Reader.count
      .list <$> Reader.times (readValue d levels) n
    | .object => do
      let name ← Reader.text
      let className ← Reader.consult (d.resolver.resolveClass name)
      let n ← Reader.count
      .object className <$> Reader.times
        (do
          let key ← Reader.text
          let field ← readValue d levels
          pure (key, field)) n
    | .proxy => do
      let n ← Reader.count
      let names ← Reader.times Reader.text n
      let interfaces ← Reader.consult (d.resolver.resolveProxy names)
      .proxy interfaces <$> readValue d levels
    | .reference => do
      let i ← Reader.byte
      match d.known.valueAt i with
      | some v => pure v
      | none => throw (.unknownEntry i)

/-- The next field of an object. -/
def readField (d : Dialect) (levels : Nat) : Reader CodecError (String × Value) := do
  let key ← Reader.text
  let field ← readValue d levels
  pure (key, field)

/-- Reads a value. -/
def read (d : Dialect) : Reader CodecError Value :=
  readValue d maxNesting

end RemoteCall.Codec
