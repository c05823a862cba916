import RemoteCall.Text.Numeral

/-!
# Why bytes cannot be read or values cannot be written
-/

namespace RemoteCall

/-- The causes for which the codec stops. -/
inductive CodecError where
  /-- The input ends inside what is being read. -/
  | unexpectedEnd
  /-- No kind of value starts with this byte. -/
  | unknownTag (b : UInt8)
  /-- The bytes of a text are not UTF-8. -/
  | notText
  /-- A length does not fit in 32 bits. -/
  | tooLong (length : Nat)
  /-- A packed count does not fit in 32 bits. -/
  | packedOverflow
  /-- A value is nested too deeply. -/
  | tooDeep
  /-- A reference to a well-known value that does not exist. -/
  | unknownEntry (index : UInt8)
  /-- A filter refuses the name of a type. -/
  | refusedName (name : String)
  /-- The name of a type is not known. -/
  | unknownName (name : String)
  /-- Bytes are left where the input has to end. -/
  | trailing (count : Nat)
  deriving DecidableEq, Repr

namespace CodecError

/-- Whether a type was refused, as opposed to bytes that say nothing. -/
def isRefusal : CodecError → Bool
  | refusedName _ => true
  | _ => false

/-- The text shown for an error. -/
def message : CodecError → String
  | unexpectedEnd => "UnexpectedEnd"
  | unknownTag b => "Invalid Tag byte: 0x" ++ String.ofList (Text.hexByte b)
  | notText => "InvalidUtf8"
  | tooLong n => "Length " ++ toString n ++ " exceeds u32::MAX"
  | packedOverflow => "PackedIntegerOverflow"
  | tooDeep => "RecursionLimitExceeded"
  | unknownEntry i => "Unknown object table entry " ++ toString i.toNat
  | refusedName n => "Cannot resolve filtered class " ++ n
  | unknownName n => "Class not found: " ++ n
  | trailing n => toString n ++ " unread bytes after end of stream"

end CodecError

end RemoteCall
