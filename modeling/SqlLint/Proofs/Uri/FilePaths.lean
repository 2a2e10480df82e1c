import SqlLint.Uri
import SqlLint.Files.Path
import SqlLint.Proofs.Text.Utf8

/-! # Identifiers of files

The identifier that is made of an absolute path can be read and denotes this path again. Others may denote the same
path, as most characters can be spelled in two ways. -/
namespace SqlLint.Uri

variable {allowed : Char → Bool} {c : Char} {rest : List Char} {b : UInt8} {n : Nat} {path other : String}

theorem isHex_hexDigit (h : n < 16) : isHex (hexDigit n) = true := by
  have all : ∀ n < 16, isHex (hexDigit n) = true := by decide
  exact all n h

theorem hexValue_hexDigit (h : n < 16) : hexValue (hexDigit n) = n := by
  have all : ∀ n < 16, hexValue (hexDigit n) = n := by decide
  exact all n h

/-- A byte that is written as it is stands for a character of a path, which is no percent sign. -/
structure IsPlain (b : UInt8) : Prop where
  sign : Char.ofNat b.toNat ≠ '%'
  path : inPath (Char.ofNat b.toNat) = true
  bytes : String.utf8EncodeChar (Char.ofNat b.toNat) = [b]

/-- A byte is written as it is, or with a percent sign and two digits. -/
theorem encodeByte_cases (b : UInt8) : (encodeByte b = [Char.ofNat b.toNat] ∧ IsPlain b) ∨
    encodeByte b = ['%', hexDigit (b.toNat / 16), hexDigit (b.toNat % 16)] := by
  have all : ∀ n < 256, (isUnreserved (Char.ofNat n) || Char.ofNat n == '/') = true →
      Char.ofNat n ≠ '%' ∧ inPath (Char.ofNat n) = true ∧ String.utf8EncodeChar (Char.ofNat n) = [UInt8.ofNat n] := by
    decide +kernel
  rw [encodeByte]
  split
  · next plain =>
    obtain ⟨sign, path, bytes⟩ := all b.toNat b.toNat_lt plain
    rw [UInt8.ofNat_toNat] at bytes
    exact .inl ⟨rfl, sign, path, bytes⟩
  · exact .inr rfl

theorem decode_cons (sign : c ≠ '%') (rest : List Char) :
    decode (c :: rest) = String.utf8EncodeChar c ++ decode rest := by
  rw [decode, Utf8.encode_eq, String.toList_ofList, List.flatMap_singleton]
  exact fun _ _ _ same _ => sign same

theorem decode_encodeByte (b : UInt8) (rest : List Char) : decode (encodeByte b ++ rest) = b :: decode rest := by
  have bound : b.toNat < 256 := b.toNat_lt
  rcases encodeByte_cases b with ⟨written, plain⟩ | written
  · rw [written, List.singleton_append, decode_cons plain.sign, plain.bytes, List.singleton_append]
  · rw [written, List.cons_append, List.cons_append, List.singleton_append, decode, hexValue_hexDigit (by omega),
      hexValue_hexDigit (by omega), Nat.div_add_mod', UInt8.ofNat_toNat]

/-- What is written of a path stands for its bytes. -/
theorem decode_encode (path : String) : decode (encode path) = Utf8.encode path := by
  rw [encode]
  induction Utf8.encode path with
  | nil => rw [List.flatMap_nil, decode]
  | cons b bs ih => rw [List.flatMap_cons, decode_encodeByte, ih]

theorem encode_inj : encode path = encode other ↔ path = other := by
  refine ⟨fun same => ?_, congrArg encode⟩
  rw [← Utf8.lossy_encode path, ← decode_encode, same, decode_encode, Utf8.lossy_encode]

theorem text_ofFilePath (path : String) :
    (ofFilePath path).text = String.ofList ("file://".toList ++ encode path) := rfl

theorem text_ofFilePath_inj : (ofFilePath path).text = (ofFilePath other).text ↔ path = other := by
  rw [text_ofFilePath, text_ofFilePath, String.ofList_inj, List.append_cancel_left_eq, encode_inj]

theorem take_cons (sign : c ≠ '%') (fits : allowed c = true) (rest : List Char) :
    take allowed (c :: rest) = (take allowed rest).map fun p => (c :: p.1, p.2) := by
  rw [take, if_neg sign, if_pos fits]
  exact fun _ _ _ same _ => sign same

theorem take_encodeByte (b : UInt8) (rest : List Char) :
    take inPath (encodeByte b ++ rest) = (take inPath rest).map fun p => (encodeByte b ++ p.1, p.2) := by
  have bound : b.toNat < 256 := b.toNat_lt
  rcases encodeByte_cases b with ⟨written, plain⟩ | written
  · rw [written, List.singleton_append, take_cons plain.sign plain.path]
    rfl
  · have digits : (isHex (hexDigit (b.toNat / 16)) && isHex (hexDigit (b.toNat % 16))) = true := by
      rw [isHex_hexDigit (by omega), isHex_hexDigit (by omega), Bool.and_self]
    rw [written, List.cons_append, List.cons_append, List.singleton_append, take, if_pos digits]
    rfl

theorem take_encode (path : String) : take inPath (encode path) = .ok (encode path, []) := by
  rw [encode]
  induction Utf8.encode path with
  | nil => rw [List.flatMap_nil, take]
  | cons b bs ih =>
    rw [List.flatMap_cons, take_encodeByte, ih]
    rfl

theorem exists_encode (absolute : Path.isAbsolute path = true) : ∃ rest, encode path = '/' :: rest := by
  obtain ⟨cs, hc⟩ := List.head?_eq_some_iff.1 (beq_iff_eq.1 absolute)
  rw [encode, Utf8.encode_eq, hc, List.flatMap_cons, List.flatMap_append]
  exact ⟨_, rfl⟩

/-- The identifier of an absolute path is well formed. -/
theorem readPath_ofFilePath (absolute : Path.isAbsolute path = true) :
    readPath ("file://".toList ++ encode path) = .ok (encode path) := by
  have taken := take_encode path
  obtain ⟨rest, hr⟩ := exists_encode absolute
  rw [hr] at taken ⊢
  have name : scheme ("file://".toList ++ '/' :: rest) = .ok ('/' :: '/' :: '/' :: rest) := rfl
  have nobody : authority ('/' :: rest) = .ok ('/' :: rest) := rfl
  have whole : pathBehind ('/' :: rest) = .ok ('/' :: rest, []) := by
    rw [pathBehind, taken]
    rfl
  simp only [readPath, name, bind, Except.bind, nobody, whole]
  rfl

theorem parse?_ofFilePath (absolute : Path.isAbsolute path = true) :
    parse? (ofFilePath path).text = some (ofFilePath path) := by
  rw [parse?, parse, text_ofFilePath, String.toList_ofList, readPath_ofFilePath absolute]
  rfl

theorem filePath?_ofFilePath (absolute : Path.isAbsolute path = true) : (ofFilePath path).filePath? = some path := by
  obtain ⟨rest, hr⟩ := exists_encode absolute
  have named : (ofFilePath path).path.isEmpty = false := congrArg List.isEmpty hr
  rw [filePath?, named, if_neg Bool.false_ne_true]
  exact congrArg some ((congrArg Utf8.lossy (decode_encode path)).trans (Utf8.lossy_encode path))

end SqlLint.Uri
