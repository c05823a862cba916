import Mathlib.Data.Nat.Digits.Defs
import RemoteCall.Proofs.Codec.Renaming
import RemoteCall.Proofs.Codec.Writable
import RemoteCall.Proofs.Invocation.Frame
import RemoteCall.RemoteException

/-!
# Failures are written, and read back as they were written

An exception without a cause is written whenever its message is short enough, and the messages that
a service makes of errors are short, unless they quote a name. An exception stands for an object
that stands for it, so an exception that was written is read back with its message, its code and
all that led to it, wherever its classes are given back.
-/

namespace RemoteCall

open Reader Codec

namespace CodecError

/-- The error quotes no name, and no number beyond 64 bits. -/
def Brief : CodecError → Prop
  | tooLong n => n < 2 ^ 64
  | trailing n => n < 2 ^ 64
  | refusedName _ => False
  | unknownName _ => False
  | _ => True

theorem length_toString_le {n : Nat} (h : n < 2 ^ 64) : (toString n).length ≤ 20 := by
  have hdigits : n < 10 ^ 20 := by omega
  have hle := Nat.repr_length n 20 (by decide) hdigits
  exact hle

theorem Brief.length_message_le {e : CodecError} (h : e.Brief) : e.message.length ≤ 60 := by
  cases e with
  | unexpectedEnd =>
      have hlength : (message unexpectedEnd).length = 13 := by decide
      omega
  | unknownTag b =>
      have hbefore : "Invalid Tag byte: 0x".length = 20 := by decide
      have hbehind : (String.ofList (Text.hexByte b)).length = 2 := String.length_ofList
      change ("Invalid Tag byte: 0x" ++ String.ofList (Text.hexByte b)).length ≤ 60
      rw [String.length_append]
      omega
  | notText =>
      have hlength : (message notText).length = 11 := by decide
      omega
  | tooLong n =>
      have hn := length_toString_le h
      have hbefore : "Length ".length = 7 := by decide
      have hbehind : " exceeds u32::MAX".length = 17 := by decide
      change ("Length " ++ toString n ++ " exceeds u32::MAX").length ≤ 60
      rw [String.length_append, String.length_append]
      omega
  | packedOverflow =>
      have hlength : (message packedOverflow).length = 21 := by decide
      omega
  | tooDeep =>
      have hlength : (message tooDeep).length = 22 := by decide
      omega
  | unknownEntry i =>
      have hi := length_toString_le (n := i.toNat) (by have := i.toNat_lt; omega)
      have hbefore : "Unknown object table entry ".length = 27 := by decide
      change ("Unknown object table entry " ++ toString i.toNat).length ≤ 60
      rw [String.length_append]
      omega
  | refusedName n => exact h.elim
  | unknownName n => exact h.elim
  | trailing n =>
      have hn := length_toString_le h
      have hbehind : " unread bytes after end of stream".length = 33 := by decide
      change (toString n ++ " unread bytes after end of stream").length ≤ 60
      rw [String.length_append]
      omega

end CodecError

namespace ProtocolError

/-- The error has a short message. -/
def Brief : ProtocolError → Prop
  | codec e => e.Brief
  | invalidXid reason => reason.length ≤ 60
  | _ => False

theorem Brief.length_message_le {e : ProtocolError} (h : e.Brief) : e.message.length ≤ 80 := by
  cases e with
  | codec e =>
      have hle := CodecError.Brief.length_message_le h
      have hbefore : "Codec error: ".length = 13 := by decide
      change ("Codec error: " ++ e.message).length ≤ 80
      rw [String.length_append]
      omega
  | invalidXid reason =>
      have hle : reason.length ≤ 60 := h
      have hbefore : "Invalid Xid: ".length = 13 := by decide
      change ("Invalid Xid: " ++ reason).length ≤ 80
      rw [String.length_append]
      omega
  | _ => exact h.elim

end ProtocolError

/-- The value stands for an exception: it is an object, and the first of its fields that names a
cause, if there is one, is null or stands for an exception again. -/
inductive Value.IsException : Value → Prop
  | root {c : String} {fields : List (String × Value)} (h : fields.lookup "cause" = none) :
      IsException (.object c fields)
  | uncaused {c : String} {fields : List (String × Value)}
      (h : fields.lookup "cause" = some .null) : IsException (.object c fields)
  | caused {c : String} {fields : List (String × Value)} {v : Value}
      (h : fields.lookup "cause" = some v) (hv : IsException v) : IsException (.object c fields)

theorem Value.IsException.exists_object {v : Value} (h : v.IsException) :
    ∃ c fields, v = .object c fields := by
  cases h with
  | root h => exact ⟨_, _, rfl⟩
  | uncaused h => exact ⟨_, _, rfl⟩
  | caused h hv => exact ⟨_, _, rfl⟩

/-- A fault is written to its end when its texts can be, if there is a level below it for its
message and its cause is written there. -/
theorem Fault.exists_write_toValue {d : Dialect} {levels : Nat} {f : Fault} {cause : Option Value}
    (hclass : Fits (d.resolver.annotate f.className)) (hmessage : ∀ m ∈ f.message, Fits m)
    (hcause : ∀ v ∈ cause, ∃ w, writeValue d (levels + 1) v = .put w) :
    ∃ w, writeValue d (levels + 2) (f.toValue cause) = .put w := by
  have hmessageKey : Fits "message" := by decide
  have hcodeKey : Fits "errorCode" := by decide
  have hcauseKey : Fits "cause" := by decide
  refine exists_writeValue_object hclass ?_ (List.forall_mem_cons.mpr ⟨⟨hmessageKey, ?_⟩,
    List.forall_mem_append.mpr ⟨?_, ?_⟩⟩)
  · cases f.code <;> cases cause <;> simp
  · cases hm : f.message with
    | none => exact exists_writeValue_fixed rfl
    | some m => exact exists_writeValue_text (hmessage m hm)
  · intro e he
    obtain ⟨code, -, rfl⟩ := List.mem_map.mp he
    exact ⟨hcodeKey, exists_writeValue_fixed rfl⟩
  · intro e he
    obtain ⟨v, hv, rfl⟩ := List.mem_map.mp he
    exact ⟨hcauseKey, hcause v (Option.mem_toList.mp hv)⟩

namespace RemoteException

variable {d : Dialect} {e : RemoteException} {b : Bytes}

/-- An exception without a cause is written to its end when its texts can be. -/
theorem exists_write_of_fits {f : Fault} (hclass : Fits (d.resolver.annotate f.className))
    (hmessage : ∀ m ∈ f.message, Fits m) :
    ∃ b, ((⟨f, []⟩ : RemoteException).write d).result = .ok b := by
  obtain ⟨w, hw⟩ : ∃ w, Codec.write d (toValue ⟨f, []⟩) = .put w :=
    Fault.exists_write_toValue hclass hmessage fun v hv => nomatch hv
  exact ⟨w, Emission.result_eq_ok_iff.mpr (Emission.mapError_eq_put_iff.mpr hw)⟩

theorem causesOf_cause {v : Value} (h : ofValue v = .ok e) :
    causesOf [("cause", v)] = .ok e.chain := by
  cases v with
  | null => cases h
  | _ => simp only [causesOf, if_true, h, bind, Except.bind, pure, Except.pure]

theorem causesOf_skip (key : String) (hkey : key ≠ "cause") (v : Value)
    (fields : List (String × Value)) : causesOf ((key, v) :: fields) = causesOf fields := by
  cases v <;> simp only [causesOf, hkey, if_false]

theorem ofValue_object {c : String} {fields : List (String × Value)} {causes : List Fault}
    (h : causesOf fields = .ok causes) :
    ofValue (.object c fields) = .ok ⟨⟨c, (fields.lookup "message").bind Value.text?,
      (fields.lookup "errorCode").bind Value.int?⟩, causes⟩ := by
  simp only [ofValue, h, bind, Except.bind, pure, Except.pure]

theorem causesOf_of_none {fields : List (String × Value)} (h : fields.lookup "cause" = none) :
    causesOf fields = .ok [] := by
  induction fields with
  | nil => rfl
  | cons field fields ih =>
      obtain ⟨key, v⟩ := field
      by_cases hkey : key = "cause"
      · rw [hkey, List.lookup_cons_self] at h
        cases h
      · rw [List.lookup_cons, beq_false_of_ne (Ne.symm hkey)] at h
        rw [causesOf_skip key hkey, ih h]

/-- Only the first field that names a cause counts. -/
theorem causesOf_of_some {fields : List (String × Value)} {v : Value}
    (h : fields.lookup "cause" = some v) : causesOf fields = causesOf [("cause", v)] := by
  induction fields with
  | nil => cases h
  | cons field fields ih =>
      obtain ⟨key, v'⟩ := field
      by_cases hkey : key = "cause"
      · rw [hkey, List.lookup_cons_self] at h
        obtain rfl := Option.some.inj h
        subst hkey
        cases v' with
        | null => rfl
        | _ => simp only [causesOf, if_true]
      · rw [List.lookup_cons, beq_false_of_ne (Ne.symm hkey)] at h
        rw [causesOf_skip key hkey, ih h]

theorem null_or_exception_of_cause {v : Value} {causes : List Fault}
    (h : causesOf [("cause", v)] = .ok causes) : v = .null ∨ ∃ e, ofValue v = .ok e := by
  cases hv : ofValue v with
  | ok e => exact .inr ⟨e, rfl⟩
  | error reason =>
      cases v with
      | null => exact .inl rfl
      | _ =>
          simp only [causesOf, if_true, hv, bind, Except.bind] at h
          cases h

/-- What is read of an object that stands for an exception. -/
theorem top_of_ofValue {c : String} {fields : List (String × Value)}
    (h : ofValue (.object c fields) = .ok e) :
    e.top = ⟨c, (fields.lookup "message").bind Value.text?,
      (fields.lookup "errorCode").bind Value.int?⟩ := by
  cases hcauses : causesOf fields with
  | error reason =>
      simp only [ofValue, hcauses, bind, Except.bind] at h
      cases h
  | ok causes =>
      rw [ofValue_object hcauses] at h
      cases h
      rfl

mutual

theorem isException_of_ofValue : (v : Value) → {e : RemoteException} → ofValue v = .ok e →
    v.IsException
  | .object c fields, e, h => by
    cases hcauses : causesOf fields with
    | error reason =>
      simp only [ofValue, hcauses, bind, Except.bind] at h
      cases h
    | ok causes =>
      rcases hcause : fields.lookup "cause" with _ | v
      · exact .root hcause
      · rcases isException_of_causesOf fields hcauses hcause with rfl | hv
        · exact .uncaused hcause
        · exact .caused hcause hv
  | .null, _, h | .bool _, _, h | .int _, _, h | .long _, _, h | .double _, _, h | .text _, _, h
  | .bytes _, _, h | .list _, _, h | .proxy _ _, _, h => by cases h

theorem isException_of_causesOf : (fields : List (String × Value)) → {causes : List Fault} →
    causesOf fields = .ok causes → {v : Value} → fields.lookup "cause" = some v →
    v = .null ∨ v.IsException
  | [], _, _, _, h => by cases h
  | (key, v) :: fields, causes, hcauses, cause, h => by
    by_cases hkey : key = "cause"
    · rw [causesOf_of_some h] at hcauses
      rw [hkey, List.lookup_cons_self] at h
      obtain rfl := Option.some.inj h
      rcases null_or_exception_of_cause hcauses with hnull | ⟨e, he⟩
      · exact .inl hnull
      · exact .inr (isException_of_ofValue v he)
    · rw [causesOf_skip key hkey] at hcauses
      rw [List.lookup_cons, beq_false_of_ne (Ne.symm hkey)] at h
      exact isException_of_causesOf fields hcauses h

end

/-- An exception is read of a value exactly if it stands for one. -/
theorem exists_ofValue_iff {v : Value} : (∃ e, ofValue v = .ok e) ↔ v.IsException := by
  constructor
  · rintro ⟨e, h⟩
    exact isException_of_ofValue v h
  · intro h
    induction h with
    | root h => exact ⟨_, ofValue_object (causesOf_of_none h)⟩
    | uncaused h => exact ⟨_, ofValue_object (causesOf_of_some h)⟩
    | caused h hv ih =>
        obtain ⟨e, he⟩ := ih
        exact ⟨_, ofValue_object ((causesOf_of_some h).trans (causesOf_cause he))⟩

/-- The object for an exception stands for it. -/
theorem ofValue_toValue (e : RemoteException) : ofValue e.toValue = .ok e := by
  obtain ⟨top, causes⟩ := e
  induction causes generalizing top with
  | nil =>
      obtain ⟨className, message, code⟩ := top
      cases message <;> cases code <;> rfl
  | cons f causes ih =>
      obtain ⟨className, message, code⟩ := top
      have hcause := causesOf_cause (ih f)
      have hmessage := causesOf_skip "message" (by decide)
      have hcode := causesOf_skip "errorCode" (by decide)
      cases code with
      | none =>
          refine (ofValue_object ((hmessage _ _).trans hcause)).trans ?_
          cases message <;> rfl
      | some code =>
          refine (ofValue_object ((hmessage _ _).trans ((hcode _ _).trans hcause))).trans ?_
          cases message <;> rfl

/-- An exception that was written is read back. -/
theorem outcome_read (hk : d.known.Coherent) (hr : d.resolver.Restores e.toValue)
    (hw : (e.write d).result = .ok b) : Reader.outcome (read d) b = .ok e := by
  have hvalue := Parse.delimits_value hk hr (Emission.result_eq_ok_iff.mp hw)
  obtain ⟨asked, hread⟩ := hvalue.whole [] #[]
  rw [List.append_nil] at hread
  refine Reader.outcome_eq_ok_iff.mpr ⟨⟨[], asked⟩, (bind_of_ok hread _).trans ?_⟩
  simp only [ofValue_toValue]
  rfl

end RemoteException

end RemoteCall
