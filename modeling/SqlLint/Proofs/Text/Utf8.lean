import SqlLint.Text.Utf8
import Mathlib.Data.List.Basic

/-! # Texts and their bytes

A text is read back from the bytes that it is written as, character by character. -/
namespace SqlLint.Utf8

variable {c : Char} {bs : List UInt8}

private theorem toList_loop (bytes : ByteArray) (i : Nat) (bs : List UInt8) :
    ByteArray.toList.loop bytes i bs = bs.reverse ++ bytes.data.toList.drop i := by
  fun_induction ByteArray.toList.loop bytes i bs with
  | case1 i bs inside ih =>
    have bound : i < bytes.data.toList.length := by simpa using inside
    have byte : bytes.get! i = bytes.data.toList[i] := by
      rw [Array.getElem_toList]
      exact getElem!_pos bytes.data i inside
    rw [ih, List.drop_eq_getElem_cons bound, byte, List.reverse_cons, List.append_assoc, List.singleton_append]
  | case2 i bs outside =>
    rw [List.drop_eq_nil_of_le (by simpa using outside), List.append_nil]

theorem encode_eq (s : String) : encode s = s.toList.flatMap String.utf8EncodeChar := by
  have bytes : s.toUTF8 = (s.toList.flatMap String.utf8EncodeChar).toByteArray := by
    rw [← List.utf8Encode, ← String.toByteArray_ofList, String.ofList_toList]
    rfl
  rw [encode, bytes, ByteArray.toList, toList_loop, List.toList_data_toByteArray]
  rfl

/-- A byte that is made of a number below 256 is that number. -/
theorem toNat_byte {n : Nat} (h : n < 256) : (UInt8.ofNat n).toNat = n := by
  rw [UInt8.toNat_ofNat']
  exact Nat.mod_eq_of_lt h

theorem follow_byte {n low high code b : Nat} (byte : b < 256) (inside : low ≤ b ∧ b ≤ high) :
    follow (n + 1) low high code (UInt8.ofNat b :: bs) = follow n 0x80 0xBF (code * 64 + b % 64) bs := by
  rw [follow, toNat_byte byte, if_pos inside]

/-- What is read behind a first byte counts for all that is read. -/
theorem decode_byte {n low high code b : Nat} {rest : List UInt8} (byte : b < 256)
    (first : lead? b = some (n, low, high, code)) (read : follow n low high code bs = (some c, rest)) :
    decode (UInt8.ofNat b :: bs) = some c :: decode rest := by
  rw [decode, next, toNat_byte byte, first]
  dsimp only
  rw [read]

theorem lead?_two {b : Nat} (low : 0xC2 ≤ b) (high : b < 0xE0) : lead? b = some (1, 0x80, 0xBF, b - 0xC0) := by
  rw [lead?, if_neg (by omega), if_neg (by omega), if_pos high]

theorem lead?_three {b : Nat} (low : 0xE0 ≤ b) (high : b < 0xF0) :
    lead? b = some (2, if b = 0xE0 then 0xA0 else 0x80, if b = 0xED then 0x9F else 0xBF, b - 0xE0) := by
  rw [lead?, if_neg (by omega), if_neg (by omega), if_neg (by omega), if_pos high]

theorem lead?_four {b : Nat} (low : 0xF0 ≤ b) (high : b < 0xF5) :
    lead? b = some (3, if b = 0xF0 then 0x90 else 0x80, if b = 0xF4 then 0x8F else 0xBF, b - 0xF0) := by
  rw [lead?, if_neg (by omega), if_neg (by omega), if_neg (by omega), if_neg (by omega), if_pos high]

/-- A character is read from its bytes. Its first byte tells how many there are. The numbers that need fewer bytes, and
those of no character, are why the second byte has bounds of its own. -/
theorem decode_utf8EncodeChar (c : Char) (bs : List UInt8) :
    decode (String.utf8EncodeChar c ++ bs) = some c :: decode bs := by
  have valid : c.val.toNat < 0xD800 ∨ 0xDFFF < c.val.toNat ∧ c.val.toNat < 0x110000 := c.valid
  have number : Char.ofNat c.val.toNat = c := Char.ofNat_toNat c
  rw [String.utf8EncodeChar]
  generalize c.val.toNat = v at valid number
  split
  · next one =>
    refine decode_byte (by omega) (if_pos (by omega)) ?_
    exact congrArg (fun c => (some c, bs)) number
  · split
    · next two =>
      rw [List.cons_append, List.singleton_append]
      refine decode_byte (by omega) (lead?_two (by omega) (by omega)) ?_
      rw [follow_byte (by omega) (by omega), follow, ← number]
      congr 3
      omega
    · split
      · next three =>
        rw [List.cons_append, List.cons_append, List.singleton_append]
        refine decode_byte (by omega) (lead?_three (by omega) (by omega)) ?_
        rw [follow_byte (by omega) (by split <;> split <;> omega), follow_byte (by omega) (by omega), follow, ← number]
        congr 3
        omega
      · next four =>
        rw [List.cons_append, List.cons_append, List.cons_append, List.singleton_append]
        refine decode_byte (by omega) (lead?_four (by omega) (by omega)) ?_
        rw [follow_byte (by omega) (by split <;> split <;> omega), follow_byte (by omega) (by omega),
          follow_byte (by omega) (by omega), follow, ← number]
        congr 3
        omega

theorem decode_encode (s : String) : decode (encode s) = s.toList.map some := by
  rw [encode_eq]
  induction s.toList with
  | nil => rw [List.flatMap_nil, decode, List.map_nil]
  | cons c cs ih => rw [List.flatMap_cons, decode_utf8EncodeChar, ih, List.map_cons]

/-- No fault is found in the bytes of a text. -/
theorem lossy_encode (s : String) : lossy (encode s) = s := by
  rw [lossy, decode_encode, List.map_map]
  exact (congrArg String.ofList (List.map_id s.toList)).trans String.ofList_toList

end SqlLint.Utf8
