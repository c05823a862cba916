import RemoteCall.Codec.Packed
import RemoteCall.Codec.Read
import RemoteCall.ProtocolError

/-!
# The codec inside messages

Messages are written and read with the codec, and a failure of the codec is one way in which a
message fails.
-/

namespace RemoteCall

/-- Writing, as part of a message. -/
abbrev Wire := Emission ProtocolError

/-- Reading, as part of a message. -/
abbrev Parse (α : Type) := Reader ProtocolError α

namespace Wire

/-- What the codec writes. -/
def ofCodec (a : Emission CodecError) : Wire :=
  a.mapError .codec

/-- A value, in a dialect. -/
def value (d : Dialect) (v : Value) : Wire :=
  ofCodec (Codec.write d v)

/-- A single byte. -/
def byte (b : UInt8) : Wire := .put [b]

/-- A signed number in four bytes. -/
def int (n : Int32) : Wire := .put (Codec.intBytes n)

end Wire

namespace Parse

variable {α : Type}

/-- What the codec reads. -/
def ofCodec (r : Reader CodecError α) : Parse α := fun c =>
  match r c with
  | .ok a c' => .ok a c'
  | .error e c' => .error (.codec e) c'

/-- A value, in a dialect. -/
def value (d : Dialect) : Parse Value := ofCodec (Codec.read d)

/-- A single byte. -/
def byte : Parse UInt8 := ofCodec Reader.byte

/-- A signed number in four bytes. -/
def int : Parse Int32 := ofCodec Reader.int

/-- The end of the message. -/
def finish : Parse Unit := ofCodec Reader.finish

end Parse

end RemoteCall
