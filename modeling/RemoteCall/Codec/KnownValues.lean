import RemoteCall.Value.Basic

/-!
# Well-known values

Values that both ends know by number travel as a one-byte reference.
-/

namespace RemoteCall

/-- The well-known values of a connection. -/
structure KnownValues where
  /-- The number of a value, if it is well known. -/
  indexOf : Value → Option UInt8
  /-- The value with a number, if there is one. -/
  valueAt : UInt8 → Option Value

namespace KnownValues

/-- No value is well known. -/
def empty : KnownValues where
  indexOf _ := none
  valueAt _ := none

/-- The listed values under the listed numbers; where an entry repeats, the first counts. Values
are compared as numbers, so a value may be written as a reference to one that differs in its
bits. -/
def ofEntries (entries : List (UInt8 × Value)) : KnownValues where
  indexOf v := (entries.find? fun entry => entry.2.same v).map (·.1)
  valueAt i := entries.lookup i

/-- A value that is written as a reference is the value that the reference is read as. -/
def Coherent (k : KnownValues) : Prop :=
  ∀ v i, k.indexOf v = some i → k.valueAt i = some v

theorem empty_coherent : empty.Coherent := by
  intro v i h
  simp [empty] at h

/-- The attachment key under which a server lists the attachments that it wants returned. -/
def returnedKeys : String := "jboss.returned.keys"

/-- The well-known values of protocol version 1. -/
def protocolV1 : KnownValues :=
  ofEntries [
    (0, .object "org.jboss.ejb.client.Affinity$NoAffinity" []),
    (1, .object "org.jboss.ejb.client.Affinity$LocalAffinity" []),
    (2, .text returnedKeys)]

theorem protocolV1_coherent : protocolV1.Coherent := by
  intro v i h
  obtain ⟨entry, hfind, rfl⟩ := Option.map_eq_some_iff.mp h
  have hsame : entry.2.same v = true := by simpa only using List.find?_some hfind
  have hmem := List.mem_of_find?_eq_some hfind
  simp only [List.mem_cons, List.not_mem_nil, or_false] at hmem
  rcases hmem with rfl | rfl | rfl
  · exact congrArg some (Value.eq_of_same_object_nil hsame).symm
  · exact congrArg some (Value.eq_of_same_object_nil hsame).symm
  · exact congrArg some (Value.eq_of_same_text hsame).symm

end KnownValues

end RemoteCall
