import RemoteCall.Codec.Write
import RemoteCall.Namespace
import RemoteCall.ProtocolVersion

/-!
# Settings of a service
-/

namespace RemoteCall

/-- What all parts of one service have in common. -/
structure ServiceConfig where
  /-- The types that may be read; all of them, if there is no filter. -/
  filter : Option (String → Bool)
  maxWorkers : Nat
  /-- How long a cancel request waits, in milliseconds. -/
  cancelWait : Nat
  /-- Whether names are changed for legacy peers. -/
  interop : Bool
  known : KnownValues

namespace ServiceConfig

/-- The settings without any choice. -/
def standard : ServiceConfig where
  filter := none
  maxWorkers := 16
  cancelWait := 5000
  interop := false
  known := KnownValues.protocolV1

/-- Sets the number of workers, which is at least one. -/
def withWorkers (c : ServiceConfig) (n : Nat) : ServiceConfig :=
  { c with maxWorkers := max n 1 }

/-- How names are resolved in an exchange with a peer. The filter always sees current names. -/
def resolver (c : ServiceConfig) (peer : ProtocolVersion) : Resolver :=
  let filtering := Resolver.filtered c.filter Resolver.plain
  if c.interop && peer.isLegacy then Namespace.translated filtering else filtering

/-- The dialect of an exchange with a peer. -/
def dialect (c : ServiceConfig) (peer : ProtocolVersion) : Dialect :=
  ⟨c.resolver peer, c.known⟩

end ServiceConfig

end RemoteCall
