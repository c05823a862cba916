import RemoteCall.Proofs.Codec.Accepted
import RemoteCall.Proofs.Invocation.Frame

/-!
# The values in bodies that are read

The values in a call are its parameters and the values of its attachments. What holds of each value
that the codec makes holds of all of them, since setting a key keeps the other values.
-/

namespace RemoteCall

open Reader

variable {d : Dialect}

namespace Attachments

variable {p : Value → Prop}

theorem readInto_makes (each : Makes (Parse.value d) p) (n : Nat) {a : Attachments}
    (ha : ∀ e ∈ a.toList, p e.2) : Makes (readInto d n a) fun a' => ∀ e ∈ a'.toList, p e.2 := by
  induction n generalizing a with
  | zero => exact .pure ha
  | succ n ih =>
      refine .after fun key => each.bind fun v hv => ih fun e he => ?_
      rcases mem_toList_insert he with rfl | he
      · exact hv
      · exact ha e he

/-- Of the values of attachments holds what holds of each value that is read. -/
theorem read_makes (each : Makes (Parse.value d) p) :
    Makes (read d) fun a => ∀ e ∈ a.toList, p e.2 :=
  .after fun n => readInto_makes each n.toNat (List.forall_mem_nil _)

end Attachments

namespace Invocation.Request

/-- The parameters of a call and the values of its attachments. -/
def values (r : Request) : List Value :=
  r.parameters ++ r.attachments.toList.map Prod.snd

/-- Of the values in a call holds what holds of each value that is read. -/
theorem read_makes {p : Value → Prop} (each : Makes (Parse.value d) p) (n : Nat) :
    Makes (read d n) fun r => ∀ v ∈ r.values, p v := by
  refine .after fun transaction => (each.times n).bind fun parameters hparameters => ?_
  refine (Attachments.read_makes each).bind fun attachments hattachments => .after fun _ => ?_
  refine .pure fun v hv => ?_
  rcases List.mem_append.mp hv with hv | hv
  · exact hparameters v hv
  · obtain ⟨e, he, rfl⟩ := List.mem_map.mp hv
    exact hattachments e he

/-- A call without a transaction or attachments, with a reference as its only parameter. -/
theorem outcome_read_reference {i : UInt8} {v : Value} (hv : d.known.valueAt i = some v) :
    Reader.outcome (read d 1) [0, Tag.reference.code, i, 0] = .ok ⟨none, [v], ∅⟩ := by
  have hvalue : Delimits (.codec .unexpectedEnd) (Parse.value d) [Tag.reference.code, i] v :=
    (Codec.delimits_reference hv).ofCodec
  refine (framed_of_fills ?_).whole
  apply ((Delimits.byte 0).ofCodec.bind_nil (Delimits.pure none)).bind_fills
  apply (hvalue.bind_nil (Delimits.pure [v])).bind_fills
  apply Parse.fills_last (Request.mk none [v])
  exact (Packed.delimits_encode 0).ofCodec.bind_nil (Delimits.pure ∅)

end Invocation.Request

end RemoteCall
