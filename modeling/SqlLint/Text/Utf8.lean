/-! # UTF-8

Bytes are read from left to right. Where they form no character, the longest beginning of one that
is there, or else a single byte, is one fault. -/
namespace SqlLint.Utf8

/-- What a first byte announces: how many bytes follow, between which bounds the next one lies, and
the bits that it gives itself. -/
def lead? (b : Nat) : Option (Nat × Nat × Nat × Nat) :=
  if b < 0x80 then some (0, 0x80, 0xBF, b)
  else if b < 0xC2 then none
  else if b < 0xE0 then some (1, 0x80, 0xBF, b - 0xC0)
  else if b < 0xF0 then
    some (2, if b = 0xE0 then 0xA0 else 0x80, if b = 0xED then 0x9F else 0xBF, b - 0xE0)
  else if b < 0xF5 then
    some (3, if b = 0xF0 then 0x90 else 0x80, if b = 0xF4 then 0x8F else 0xBF, b - 0xF0)
  else none

/-- Takes the bytes that follow a first one; the second part is what is left. -/
def follow : Nat → Nat → Nat → Nat → List UInt8 → Option Char × List UInt8
  | 0, _, _, code, bs => (some (Char.ofNat code), bs)
  | _ + 1, _, _, _, [] => (none, [])
  | n + 1, low, high, code, b :: bs =>
    if low ≤ b.toNat ∧ b.toNat ≤ high then follow n 0x80 0xBF (code * 64 + b.toNat % 64) bs
    else (none, b :: bs)

def next (b : UInt8) (bs : List UInt8) : Option Char × List UInt8 :=
  match lead? b.toNat with
  | some (n, low, high, code) => follow n low high code bs
  | none => (none, bs)

theorem follow_length (n low high code : Nat) (bs : List UInt8) :
    (follow n low high code bs).2.length ≤ bs.length := by
  induction bs generalizing n low high code with
  | nil => cases n <;> simp [follow]
  | cons b bs ih =>
    cases n with
    | zero => simp [follow]
    | succ n =>
      rw [follow]
      split
      · exact Nat.le_trans (ih ..) (Nat.le_succ _)
      · exact Nat.le_refl _

theorem next_length (b : UInt8) (bs : List UInt8) : (next b bs).2.length ≤ bs.length := by
  unfold next
  split
  · exact follow_length ..
  · exact Nat.le_refl _

/-- The characters, with nothing in place of each fault. -/
def decode : List UInt8 → List (Option Char)
  | [] => []
  | b :: bs => (next b bs).1 :: decode (next b bs).2
termination_by bs => bs.length
decreasing_by exact Nat.lt_succ_of_le (next_length b bs)

/-- The text with a replacement character for each fault. -/
def lossy (bs : List UInt8) : String := String.ofList ((decode bs).map fun c => c.getD '\ufffd')

/-- The text of bytes without a fault. -/
def text? (bs : List UInt8) : Option String := ((decode bs).mapM id).map String.ofList

def encode (s : String) : List UInt8 := s.toUTF8.toList

end SqlLint.Utf8
