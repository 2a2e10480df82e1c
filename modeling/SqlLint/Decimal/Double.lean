/-! # Doubles as exact binary fractions

A finite double is `significand * 2 ^ exponent` with a significand below `2 ^ 53`; rounding is to
the nearest such value, a tie going to the even significand. -/
namespace SqlLint

/-- The absolute value of a finite double. -/
structure Magnitude where
  significand : Nat
  exponent : Int
  deriving DecidableEq, Repr

inductive Double
  | finite (negative : Bool) (magnitude : Magnitude)
  | infinite (negative : Bool)
  | nan
  deriving DecidableEq, Repr

namespace Magnitude

def zero : Magnitude := ⟨0, -1074⟩

/-- The least exponent of a double. -/
def lowestExponent : Int := -1074

/-- The greatest exponent of a double whose significand has all 53 bits. -/
def highestExponent : Int := 971

/-- A numerator and a denominator of the value. -/
def ratio (x : Magnitude) : Nat × Nat :=
  (x.significand * Nat.pow 2 x.exponent.toNat, Nat.pow 2 (-x.exponent).toNat)

/-- The quotient to the nearest integer, a half going to the even neighbour. -/
def roundQuotient (num den : Nat) : Nat :=
  let q := num / den
  let r := 2 * (num % den)
  if r < den then q else if den < r then q + 1 else q + q % 2

/-- The exponent that leaves `num / den` with 53 bits before the point, or the lowest one. -/
def exponentFor (num den : Nat) : Int :=
  let guess : Int := (Nat.log2 num : Int) - Nat.log2 den - 52
  let short := num * Nat.pow 2 (-guess).toNat < Nat.pow 2 52 * den * Nat.pow 2 guess.toNat
  max lowestExponent (if short then guess - 1 else guess)

/-- The double nearest to `num / den`, unless that is beyond the greatest one. -/
def nearest? (num den : Nat) : Option Magnitude :=
  if num = 0 then some zero else
  let e := exponentFor num den
  let m := roundQuotient (num * Nat.pow 2 (-e).toNat) (den * Nat.pow 2 e.toNat)
  let x : Magnitude := if m = Nat.pow 2 53 then ⟨Nat.pow 2 52, e + 1⟩ else ⟨m, e⟩
  if highestExponent < x.exponent then none else some x

def mul? (x y : Magnitude) : Option Magnitude :=
  nearest? (x.ratio.1 * y.ratio.1) (x.ratio.2 * y.ratio.2)

def div? (x y : Magnitude) : Option Magnitude :=
  nearest? (x.ratio.1 * y.ratio.2) (x.ratio.2 * y.ratio.1)

theorem nearest?_zero (den : Nat) : nearest? 0 den = some zero := rfl

theorem ratio_snd_pos (x : Magnitude) : 0 < x.ratio.2 := Nat.two_pow_pos _

theorem roundQuotient_one (n : Nat) : roundQuotient n 1 = n := by
  simp [roundQuotient, Nat.mod_one]

end Magnitude
end SqlLint
