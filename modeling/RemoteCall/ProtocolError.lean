import RemoteCall.Codec.Error

/-!
# Why a message is not understood
-/

namespace RemoteCall

/-- The causes for which a message is refused. -/
inductive ProtocolError where
  /-- The codec stopped. -/
  | codec (cause : CodecError)
  /-- A media type is missing, not readable, or not the expected one. -/
  | mediaType (header : String)
  /-- An address has too few segments. -/
  | shortAddress (segments : Nat)
  /-- A segment of an address cannot be decoded. -/
  | malformedAddress (reason : String)
  /-- A branch identifier breaks its limits. -/
  | invalidXid (reason : String)
  /-- The byte before a transaction descriptor is neither of the two markers. -/
  | unknownMarker (b : UInt8)
  /-- The message is put together wrongly. -/
  | violation (reason : String)
  deriving DecidableEq, Repr

namespace ProtocolError

/-- Whether a type was refused, as opposed to a message that says nothing. -/
def isRefusal : ProtocolError → Bool
  | codec e => e.isRefusal
  | _ => false

/-- The text shown for an error. -/
def message : ProtocolError → String
  | codec e => "Codec error: " ++ e.message
  | mediaType header => "Invalid content type: " ++ header
  | shortAddress n => "Invocation path has " ++ toString n ++ " segments, at least 7 required"
  | malformedAddress reason => "Malformed invocation path: " ++ reason
  | invalidXid reason => "Invalid Xid: " ++ reason
  | unknownMarker b => "Unknown transaction marker: 0x" ++ String.ofList (Text.hexByte b)
  | violation reason => "Protocol violation: " ++ reason

/-- The texts of an error and of what caused it, the error first. -/
def trace : ProtocolError → List String
  | codec e => [message (codec e), e.message]
  | e => [e.message]

end ProtocolError

end RemoteCall
