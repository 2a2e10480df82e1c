/-! # Integers of a number of bits -/
namespace SqlLint.Word

/-- The number of different words. -/
def size (bits : Nat) : Nat := Nat.pow 2 bits

/-- Whether an integer fits a word without a sign. -/
def isUnsigned (bits : Nat) (n : Int) : Bool := 0 ≤ n && n < size bits

/-- Whether an integer fits a word whose first bit is a sign. -/
def isSigned (bits : Nat) (n : Int) : Bool := -(size (bits - 1) : Int) ≤ n && n < size (bits - 1)

theorem size_pos (bits : Nat) : 0 < size bits := Nat.two_pow_pos bits

theorem isUnsigned_ofNat (bits n : Nat) : isUnsigned bits n = decide (n < size bits) := by
  simp [isUnsigned]

end SqlLint.Word
