import RemoteCall.Invocation.SessionToken

/-!
# Session tokens are read back

Each group of a token holds the bits of up to three bytes, six in a sign, so the numbers of its
signs put together are the number of its bytes. A token is made of plain ASCII characters, of which
none is a slash, and no token stands for the empty sequence but the empty one.
-/

namespace RemoteCall

theorem Bytes.ofText_ascii {b : Bytes} (h : ∀ x ∈ b, x.toNat < 128) :
    Bytes.ofText (String.ofList (b.map fun x => Char.ofNat x.toNat)) = b := by
  rw [Bytes.ofText, String.toUTF8_eq_toByteArray, String.toByteArray_ofList]
  induction b with
  | nil => rfl
  | cons x b ih =>
      obtain ⟨hx, hb⟩ := List.forall_mem_cons.mp h
      have hchar : ∀ n < 128, String.utf8EncodeChar (Char.ofNat n) = [UInt8.ofNat n] := by decide
      rw [List.map_cons, List.utf8Encode_cons, List.utf8Encode_singleton, hchar _ hx,
        UInt8.ofNat_toNat, ByteArray.data_append, Array.toList_append, ih hb]
      rfl

theorem Bytes.ofText_ne_nil {s : String} (h : s ≠ "") : Bytes.ofText s ≠ [] := by
  intro hnil
  have htext := Bytes.toText?_ofText s
  rw [hnil] at htext
  exact h (Option.some.inj (htext.symm.trans (Bytes.toText?_ofText "")))

namespace SessionToken

/-- The bytes of a token. -/
def alphabet : Bytes :=
  pad :: (List.range 64).map sign

theorem sign_mem (n : Nat) : sign n ∈ alphabet := by
  refine List.mem_cons_of_mem _ (List.mem_map.mpr ⟨min n 63, ?_, ?_⟩)
  · exact List.mem_range.mpr (by omega)
  · by_cases h : n ≤ 63
    · rw [Nat.min_eq_left h]
    · rw [Nat.min_eq_right (by omega)]
      unfold sign
      repeat rw [if_neg (by omega : ¬ n < _)]
      rw [if_neg (by omega : n ≠ 62)]
      rfl

theorem pad_mem : pad ∈ alphabet :=
  List.mem_cons_self

theorem encode_subset (id : Bytes) : encode id ⊆ alphabet := by
  induction id using encode.induct with
  | case1 a b c rest ih => simpa [encode, List.cons_subset, sign_mem] using ih
  | case2 a b => simp [encode, List.cons_subset, sign_mem, pad_mem]
  | case3 a => simp [encode, List.cons_subset, sign_mem, pad_mem]
  | case4 => exact List.nil_subset _

theorem length_encode_mod (id : Bytes) : (encode id).length % 4 = 0 := by
  induction id using encode.induct with
  | case1 a b c rest ih =>
      simp only [encode, List.length_cons]
      omega
  | case2 a b => simp only [encode, List.length_cons, List.length_nil]
  | case3 a => simp only [encode, List.length_cons, List.length_nil]
  | case4 => simp only [encode, List.length_nil]

theorem encode_ne_nil {id : Bytes} (h : id ≠ []) : encode id ≠ [] := by
  cases id using encode.induct with
  | case1 a b c rest => simp [encode]
  | case2 a b => simp [encode]
  | case3 a => simp [encode]
  | case4 => exact absurd rfl h

section Signs

variable {n : Nat}

theorem value?_sign (h : n < 64) : value? (sign n) = some n := by
  have hall : ∀ n < 64, value? (sign n) = some n := by decide
  exact hall n h

theorem valueAt_sign (h : n < 64) (offset : Nat) : valueAt offset (sign n) = .ok n := by
  rw [valueAt, value?_sign h]

theorem sign_ne_pad (h : n < 64) : sign n ≠ pad := by
  have hpad : value? pad = none := by decide
  intro heq
  rw [← heq, value?_sign h] at hpad
  cases hpad

/-- A sign in the last group gives its number. -/
theorem lastSigns_sign (h : n < 64) (offset place : Nat) (rest : Bytes) :
    lastSigns offset place none (sign n :: rest) =
      (lastSigns offset (place + 1) none rest).map ((sign n, n) :: ·) := by
  rw [lastSigns, if_neg (sign_ne_pad h)]
  simp only [valueAt_sign h]
  rfl

/-- The numbers of the four signs of a full group make up the number of its three bytes. -/
theorem sum_group (n : Nat) :
    n / 262144 * 262144 + n / 4096 % 64 * 4096 + n / 64 % 64 * 64 + n % 64 = n := by
  omega

theorem decodeLast_group (h : n < 0x1000000) (offset : Nat) :
    decodeLast offset [sign (n / 262144), sign (n / 4096 % 64), sign (n / 64 % 64), sign (n % 64)] =
      .ok (Bytes.ofNat 3 n) := by
  unfold decodeLast
  simp (disch := omega) only [lastSigns_sign]
  simp only [lastSigns, Except.map, bind, Except.bind, sum_group]
  rfl

/-- A group of two bytes has one padding sign, and two bits of its last sign stand for nothing. -/
theorem decodeLast_two (h : n < 0x10000) (offset : Nat) :
    decodeLast offset [sign (n / 1024), sign (n / 16 % 64), sign (n % 16 * 4), pad] =
      .ok (Bytes.ofNat 2 n) := by
  have hsum : n / 1024 * 1024 + n / 16 % 64 * 16 + n % 16 * 4 / 4 = n := by omega
  have hlow : n % 16 * 4 % 4 = 0 := by omega
  unfold decodeLast
  simp (disch := omega) only [lastSigns_sign]
  simp only [lastSigns, Except.map, bind, Except.bind, if_true, hsum, hlow, if_false,
    Nat.reduceAdd, Nat.reduceLT]
  rfl

/-- A group of one byte has two padding signs, and four bits of its last sign stand for nothing. -/
theorem decodeLast_one (h : n < 0x100) (offset : Nat) :
    decodeLast offset [sign (n / 4), sign (n % 4 * 16), pad, pad] = .ok (Bytes.ofNat 1 n) := by
  have hsum : n / 4 * 4 + n % 4 * 16 / 16 = n := by omega
  have hlow : n % 4 * 16 % 16 = 0 := by omega
  unfold decodeLast
  simp (disch := omega) only [lastSigns_sign]
  simp only [lastSigns, Except.map, bind, Except.bind, if_true, hsum, hlow, if_false,
    Nat.reduceAdd, Nat.reduceLT]
  rfl

end Signs

theorem decodeFrom_encode {id : Bytes} (h : id ≠ []) (offset : Nat) :
    decodeFrom offset (encode id) = .ok id := by
  induction id using encode.induct generalizing offset with
  | case1 a b c rest ih =>
      have hlt : Bytes.toNat [a, b, c] < 0x1000000 :=
        Nat.lt_of_lt_of_eq (Bytes.toNat_lt [a, b, c]) (show Nat.pow 256 3 = 0x1000000 by decide)
      have hbytes : Bytes.ofNat 3 (Bytes.toNat [a, b, c]) = [a, b, c] := Bytes.ofNat_toNat [a, b, c]
      rw [encode]
      generalize Bytes.toNat [a, b, c] = n at hlt hbytes ⊢
      cases rest with
      | nil =>
          simp only [encode, decodeFrom]
          rw [decodeLast_group hlt, hbytes]
      | cons x xs =>
          -- a group is the last one unless a sign follows it
          obtain ⟨y, ys, hy⟩ := List.exists_cons_of_ne_nil (encode_ne_nil (List.cons_ne_nil x xs))
          have htail := ih (List.cons_ne_nil x xs) (offset + 4)
          rw [hy] at htail ⊢
          simp (disch := omega) only [decodeFrom, valueAt_sign]
          simp only [bind, Except.bind, htail, sum_group, hbytes]
          rfl
  | case2 a b =>
      have hlt : Bytes.toNat [a, b] < 0x10000 :=
        Nat.lt_of_lt_of_eq (Bytes.toNat_lt [a, b]) (show Nat.pow 256 2 = 0x10000 by decide)
      simp only [encode, decodeFrom]
      rw [decodeLast_two hlt]
      exact congrArg Except.ok (Bytes.ofNat_toNat [a, b])
  | case3 a =>
      simp only [encode, decodeFrom]
      rw [decodeLast_one a.toNat_lt, Bytes.ofNat, Bytes.ofNat, UInt8.ofNat_toNat, List.nil_append]
  | case4 => exact absurd rfl h

/-- A token is read as the bytes that it was written for. -/
theorem decode_encode (id : Bytes) : decode (encode id) = .ok id := by
  cases id with
  | nil => simp [encode, decode]
  | cons a rest =>
      have hne := List.cons_ne_nil a rest
      have hmod := length_encode_mod (a :: rest)
      rw [decode, List.getLast?_eq_some_getLast (encode_ne_nil hne)]
      simp only
      rw [if_neg (by omega), decodeFrom_encode hne]

/-- What a sequence of steps cannot end with is not its outcome. -/
theorem bind_ne_ok {ε α β : Type} {first : Except ε α} {next : α → Except ε β} {b : β}
    (h : ∀ a, next a ≠ .ok b) : (first >>= next) ≠ .ok b := by
  cases first with
  | error e => exact nofun
  | ok a => exact h a

theorem decodeLast_ne_ok_nil (offset : Nat) (group : Bytes) : decodeLast offset group ≠ .ok [] := by
  refine bind_ne_ok fun signs => ?_
  split
  · exact nofun
  · split
    · exact nofun
    · exact nofun
  · split
    · exact nofun
    · exact nofun
  · exact nofun

theorem decodeFrom_ne_ok_nil (offset : Nat) (token : Bytes) : decodeFrom offset token ≠ .ok [] := by
  unfold decodeFrom
  split
  · refine bind_ne_ok fun _ => bind_ne_ok fun _ => bind_ne_ok fun _ => bind_ne_ok fun _ => ?_
    refine bind_ne_ok fun tail h => ?_
    have hlength := congrArg List.length (Except.ok.inj h)
    rw [List.length_append, Bytes.length_ofNat, List.length_nil] at hlength
    omega
  · exact decodeLast_ne_ok_nil _ _

/-- Only the empty token stands for the empty sequence. -/
theorem decode_ne_ok_nil {token : Bytes} (h : token ≠ []) : decode token ≠ .ok [] := by
  rw [decode, List.getLast?_eq_some_getLast h]
  simp only
  split
  · exact nofun
  · exact decodeFrom_ne_ok_nil _ _

end SessionToken

end RemoteCall
