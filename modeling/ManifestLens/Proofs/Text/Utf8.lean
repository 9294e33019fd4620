import Mathlib.Algebra.Group.Nat.Defs
import ManifestLens.Text.Utf8

/-!
# Bytes of a text that has been read

Bytes that are UTF-8 throughout are the bytes of the text that they are read as: nothing is lost by reading
them and writing the text again.

While a character is read, the bytes so far are the front of the encoding of every character that may still
come of it, and the bits so far are the upper bits of that character.
-/

namespace ManifestLens.Text.Utf8

/-! ### Encoding character by character -/

theorem toList_loop_eq (bytes : ByteArray) (index : Nat) (reversed : List UInt8) :
    ByteArray.toList.loop bytes index reversed = reversed.reverse ++ bytes.data.toList.drop index := by
  fun_induction ByteArray.toList.loop bytes index reversed with
  | case1 index reversed h ih =>
      have hindex : index < bytes.data.toList.length := by simpa using h
      rw [ih, List.drop_eq_getElem_cons hindex]
      simp [ByteArray.get!, h]
  | case2 index reversed h =>
      rw [List.drop_eq_nil_of_le (by simpa using Nat.le_of_not_lt h)]
      simp

theorem encode_eq_flatMap (text : List Char) : encode text = text.flatMap String.utf8EncodeChar := by
  have hbytes : encode text = ByteArray.toList.loop text.utf8Encode 0 [] := by
    rw [encode, ByteArray.toList, String.toUTF8_eq_toByteArray, String.toByteArray_ofList]
  rw [hbytes, toList_loop_eq, List.utf8Encode, List.toList_data_toByteArray]
  rfl

theorem encode_append (left right : List Char) : encode (left ++ right) = encode left ++ encode right := by
  simp only [encode_eq_flatMap, List.flatMap_append]

/-! ### Reading a character -/

/-- The last bytes of a character, as many as a number says. -/
def continuation (code : Nat) : Nat → List UInt8
  | 0 => []
  | owed + 1 => UInt8.ofNat (code / 64 ^ owed % 64 + 0x80) :: continuation code owed

/-- The bytes are the front of the encoding of all characters that may come of a pending one. -/
structure Begins (pending : Pending) (begun : List UInt8) : Prop where
  owed : 0 < pending.owed
  low : 0x80 ≤ pending.low
  high : pending.high ≤ 0xBF
  encode : ∀ code, code / 64 ^ pending.owed = pending.bits →
    pending.low ≤ code / 64 ^ (pending.owed - 1) % 64 + 0x80 →
    code / 64 ^ (pending.owed - 1) % 64 + 0x80 ≤ pending.high →
    String.utf8EncodeChar (Char.ofNat code) = begun ++ continuation code pending.owed

theorem toNat_val_ofNat {code : Nat} (h : code < 0xD800 ∨ 0xDFFF < code ∧ code < 0x110000) :
    (Char.ofNat code).val.toNat = code := by
  rw [Char.ofNat, dif_pos h]
  rfl

theorem utf8EncodeChar_ofNat_of_whole {byte : UInt8} (h : byte.toNat < 0x80) :
    String.utf8EncodeChar (Char.ofNat byte.toNat) = [byte] := by
  rw [String.utf8EncodeChar, toNat_val_ofNat (by omega), if_pos (by omega), UInt8.ofNat_toNat]

/-- The encodings of two, three and four bytes, by the bits that the first byte gives. -/
theorem utf8EncodeChar_ofNat_two {code : Nat} (hlow : 0x80 ≤ code) (hhigh : code < 0x800) :
    String.utf8EncodeChar (Char.ofNat code) = UInt8.ofNat (code / 64 + 0xC0) :: continuation code 1 := by
  rw [String.utf8EncodeChar, toNat_val_ofNat (by omega), if_neg (by omega), if_pos (by omega)]
  simp only [continuation, Nat.pow_zero, Nat.div_one]
  rw [Nat.mod_eq_of_lt (by omega : code / 64 < 32)]

theorem utf8EncodeChar_ofNat_three {code : Nat} (hlow : 0x800 ≤ code) (hhigh : code < 0x10000)
    (hscalar : code < 0xD800 ∨ 0xDFFF < code) :
    String.utf8EncodeChar (Char.ofNat code) = UInt8.ofNat (code / 4096 + 0xE0) :: continuation code 2 := by
  rw [String.utf8EncodeChar, toNat_val_ofNat (by omega), if_neg (by omega), if_neg (by omega), if_pos (by omega)]
  simp only [continuation, Nat.pow_zero, Nat.div_one, Nat.pow_one]
  rw [Nat.mod_eq_of_lt (by omega : code / 4096 < 16)]

theorem utf8EncodeChar_ofNat_four {code : Nat} (hlow : 0x10000 ≤ code) (hhigh : code < 0x110000) :
    String.utf8EncodeChar (Char.ofNat code) = UInt8.ofNat (code / 262144 + 0xF0) :: continuation code 3 := by
  rw [String.utf8EncodeChar, toNat_val_ofNat (by omega), if_neg (by omega), if_neg (by omega), if_neg (by omega)]
  simp only [continuation, Nat.pow_zero, Nat.div_one, Nat.pow_one, Nat.reducePow]
  rw [Nat.mod_eq_of_lt (by omega : code / 262144 < 8)]

section Starts

variable {byte : UInt8} {bits low high : Nat}

theorem begins_two (hbyte : bits + 0xC0 = byte.toNat) (hbits : 2 ≤ bits ∧ bits < 0x20) :
    Begins ⟨bits, 1, 0x80, 0xBF⟩ [byte] := by
  refine ⟨Nat.one_pos, Nat.le_refl _, Nat.le_refl _, fun code hcode _ _ => ?_⟩
  simp only [Nat.pow_one] at hcode
  rw [utf8EncodeChar_ofNat_two (by omega) (by omega), hcode, hbyte, UInt8.ofNat_toNat]
  rfl

/-- The second byte keeps the character from being encoded in two bytes, and from being a surrogate. -/
theorem begins_three (hbyte : bits + 0xE0 = byte.toNat) (hbits : bits < 0x10) (hlow : 0x80 ≤ low)
    (hhigh : high ≤ 0xBF) (hlong : bits = 0 → 0xA0 ≤ low) (hscalar : bits = 0xD → high ≤ 0x9F) :
    Begins ⟨bits, 2, low, high⟩ [byte] := by
  refine ⟨Nat.two_pos, hlow, hhigh, fun code hcode hleft hright => ?_⟩
  simp only [Nat.reducePow, Nat.reduceSub, Nat.pow_one] at hcode hleft hright
  rw [utf8EncodeChar_ofNat_three (by omega) (by omega) (by omega), hcode, hbyte, UInt8.ofNat_toNat]
  rfl

/-- The second byte keeps the character from being encoded in three bytes, and from being past the last one. -/
theorem begins_four (hbyte : bits + 0xF0 = byte.toNat) (hbits : bits < 5) (hlow : 0x80 ≤ low)
    (hhigh : high ≤ 0xBF) (hlong : bits = 0 → 0x90 ≤ low) (hlast : bits = 4 → high ≤ 0x8F) :
    Begins ⟨bits, 3, low, high⟩ [byte] := by
  refine ⟨Nat.succ_pos _, hlow, hhigh, fun code hcode hleft hright => ?_⟩
  simp only [Nat.reducePow, Nat.reduceSub] at hcode hleft hright
  rw [utf8EncodeChar_ofNat_four (by omega) (by omega), hcode, hbyte, UInt8.ofNat_toNat]
  rfl

theorem begins_start {pending : Pending} (h : start byte.toNat = .begun pending) : Begins pending [byte] := by
  have hlt := byte.toNat_lt
  rw [start] at h
  repeat' split at h
  all_goals cases h
  · exact begins_two (by omega) (by omega)
  · exact begins_three (by omega) (by omega) (by omega) (by omega) (by omega) (by omega)
  · exact begins_three (by omega) (by omega) (by omega) (by omega) (by omega) (by omega)
  · exact begins_three (by omega) (by omega) (by omega) (by omega) (by omega) (by omega)
  · exact begins_four (by omega) (by omega) (by omega) (by omega) (by omega) (by omega)
  · exact begins_four (by omega) (by omega) (by omega) (by omega) (by omega) (by omega)
  · exact begins_four (by omega) (by omega) (by omega) (by omega) (by omega) (by omega)

theorem char_of_start {c : Char} (h : start byte.toNat = .whole c) : String.utf8EncodeChar c = [byte] := by
  rw [start] at h
  repeat' split at h
  all_goals cases h
  exact utf8EncodeChar_ofNat_of_whole (by assumption)

end Starts

/-! ### The next byte -/

section Steps

variable {pending : Pending} {begun : List UInt8} {byte : UInt8}

/-- The last byte of a character completes its encoding. -/
theorem Begins.last (h : Begins pending begun) (howed : pending.owed = 1)
    (hbyte : pending.low ≤ byte.toNat ∧ byte.toNat ≤ pending.high) :
    String.utf8EncodeChar (Char.ofNat (pending.bits * 0x40 + byte.toNat % 0x40)) = begun ++ [byte] := by
  have hlow := h.low
  have hhigh := h.high
  have hencode := h.encode (pending.bits * 0x40 + byte.toNat % 0x40)
  simp only [howed, Nat.sub_self, Nat.pow_one, Nat.pow_zero, Nat.div_one, continuation] at hencode
  rw [hencode (by omega) (by omega) (by omega)]
  have hlast : (pending.bits * 0x40 + byte.toNat % 0x40) % 64 + 0x80 = byte.toNat := by omega
  rw [hlast, UInt8.ofNat_toNat]

/-- Any other byte goes on with it. -/
theorem Begins.next (h : Begins pending begun) (howed : pending.owed ≠ 1)
    (hbyte : pending.low ≤ byte.toNat ∧ byte.toNat ≤ pending.high) :
    Begins ⟨pending.bits * 0x40 + byte.toNat % 0x40, pending.owed - 1, 0x80, 0xBF⟩ (begun ++ [byte]) := by
  obtain ⟨bits, owed, low, high⟩ := pending
  obtain ⟨owed, rfl⟩ : ∃ more, owed = more + 2 := ⟨owed - 2, by have := h.owed; simp only at this howed; omega⟩
  have hlow := h.low
  have hhigh := h.high
  simp only at hlow hhigh hbyte
  refine ⟨Nat.succ_pos _, Nat.le_refl _, Nat.le_refl _, fun code hcode _ _ => ?_⟩
  simp only [Nat.add_succ_sub_one] at hcode
  have hnext : code / 64 ^ (owed + 1) % 64 + 0x80 = byte.toNat := by omega
  have hbits : code / 64 ^ (owed + 2) = bits := by
    rw [Nat.pow_succ, ← Nat.div_div_eq_div_mul]
    omega
  rw [h.encode code hbits (hnext ▸ hbyte.1) (hnext ▸ hbyte.2), List.append_assoc]
  rw [continuation, hnext, UInt8.ofNat_toNat]
  rfl

end Steps

/-! ### Reading all bytes -/

/-- The bytes of what is read, with the replacement character for a fault. -/
def written (read : List (Option Char)) : List UInt8 :=
  encode (read.map (·.getD (Char.ofNat 0xFFFD)))

theorem written_cons (c : Char) (read : List (Option Char)) :
    written (some c :: read) = String.utf8EncodeChar c ++ written read := by
  rw [written, written, List.map_cons, encode_eq_flatMap, encode_eq_flatMap, List.flatMap_cons, Option.getD_some]

/-- By induction on the bytes, between two characters and within one. The search for faults does not keep the
bits of a pending character, only what may come next. -/
theorem written_decodeFrom (bytes : List UInt8) :
    (∀ position, faultFrom? position none bytes = none → written (decodeFrom none bytes) = bytes) ∧
      ∀ (position bits : Nat) (pending : Pending) (begun seen : List UInt8),
        faultFrom? position (some ({ pending with bits }, seen)) bytes = none → Begins pending begun →
          written (decodeFrom (some pending) bytes) = begun ++ bytes := by
  induction bytes with
  | nil =>
      refine ⟨fun _ _ => ?_, fun _ _ _ _ _ h => ?_⟩
      · rw [decodeFrom, written, encode_eq_flatMap]
        rfl
      · cases h
  | cons byte rest ih =>
      obtain ⟨hwhole, hpending⟩ := ih
      refine ⟨fun position h => ?_, fun position bits pending begun seen h hbegins => ?_⟩
      · rw [faultFrom?] at h
        rw [decodeFrom]
        dsimp only at h ⊢
        split at h
        · next c hstart =>
            rw [List.nil_append, written_cons, char_of_start hstart, hwhole _ h]
            rfl
        · next pending hstart =>
            rw [List.nil_append]
            exact hpending _ pending.bits pending [byte] _ h (begins_start hstart)
        · cases h
      · rw [faultFrom?] at h
        rw [decodeFrom]
        dsimp only at h ⊢
        split at h
        · next hbyte =>
            rw [if_pos hbyte]
            split at h
            · next howed =>
                rw [if_pos howed, written_cons, hbegins.last howed hbyte, hwhole _ h, List.append_assoc]
                rfl
            · next howed =>
                rw [if_neg howed, hpending _ 0 _ _ _ h (hbegins.next howed hbyte), List.append_assoc]
                rfl
        · cases h

/-- **What has been read is what stood there.** -/
theorem encode_of_decode {bytes : List UInt8} {text : List Char} (h : decode bytes = .ok text) :
    encode text = bytes := by
  unfold decode at h
  split at h
  · cases h
  · next hfault =>
      cases h
      exact (written_decodeFrom bytes).1 0 hfault

end ManifestLens.Text.Utf8
