import RemoteCall.Text.Blank
import RemoteCall.Text.Numeral

/-!
# Protocol versions

Each end says which version it speaks at most, and the client keeps to the smaller of the two from
the first answer on. A peer that does not say anything speaks version 1.
-/

namespace RemoteCall

/-- The versions of the protocol. -/
inductive ProtocolVersion where
  /-- Names are in the legacy namespace. -/
  | v1
  /-- Names are in the current namespace. -/
  | v2
  deriving DecidableEq, Repr

namespace ProtocolVersion

/-- The latest version. -/
def latest : ProtocolVersion := v2

/-- The number of a version in a header. -/
def text : ProtocolVersion → String
  | v1 => "1"
  | v2 => "2"

/-- The version that a peer announces. A later version than the latest counts as the latest, and
whatever is not a number from 2 on counts as version 1. -/
def ofHeader (header : String) : ProtocolVersion :=
  match Text.word? (Text.trim header.toList) with
  | some n => if 2 ≤ n then v2 else v1
  | none => v1

/-- The version of a peer that may announce none. -/
def ofHeader? : Option String → ProtocolVersion
  | some header => ofHeader header
  | none => v1

/-- Whether names have to be changed for a peer. -/
def isLegacy (v : ProtocolVersion) : Bool :=
  v == v1

/-- The smaller of two versions. -/
def min : ProtocolVersion → ProtocolVersion → ProtocolVersion
  | v2, v2 => v2
  | _, _ => v1

end ProtocolVersion

/-- What a client knows of the version of a connection. -/
structure Connection where
  /-- The latest version that this end speaks. -/
  offered : ProtocolVersion
  /-- The version agreed on, once an answer has been seen. -/
  pinned : Option ProtocolVersion
  deriving DecidableEq, Repr

namespace Connection

/-- The header that carries a version. -/
def header : String := "x-wf-version"

/-- A connection on which nothing has been answered. -/
def start (offered : ProtocolVersion) : Connection := ⟨offered, none⟩

/-- Whether no answer has been seen yet. -/
def isProbing (c : Connection) : Bool :=
  c.pinned.isNone

/-- The version in force: the offered one until another is agreed on. -/
def current (c : Connection) : ProtocolVersion :=
  c.pinned.getD c.offered

/-- Takes note of what an answer announces; only the first answer counts. -/
def observe (c : Connection) (announced : Option String) : Connection :=
  match c.pinned with
  | some _ => c
  | none => { c with pinned := some (c.offered.min (ProtocolVersion.ofHeader? announced)) }

end Connection

end RemoteCall
