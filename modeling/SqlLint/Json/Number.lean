import SqlLint.Json.Value
import SqlLint.Word

/-! # Numbers of a JSON text

An integer that fits 64 bits is exact. Any other number keeps the leading digits that fit 64 bits
and takes one rounded power of ten. -/
namespace SqlLint.Json

/-- The parts of a number's text; without a point the fraction is empty. -/
structure NumberText where
  negative : Bool
  whole : List Nat
  fraction : List Nat
  exponent : Option (Bool × List Nat)
  deriving DecidableEq, Repr

namespace NumberText

/-- Appends digits to a significand as long as it stays in 64 bits, and counts them. -/
def absorb (significand : Nat) : List Nat → Nat × Nat
  | [] => (significand, 0)
  | d :: ds =>
    if significand * 10 + d < Word.size 64 then
      let (s, n) := absorb (significand * 10 + d) ds
      (s, n + 1)
    else (significand, 0)

def powerOfTen (k : Nat) : Magnitude := (Magnitude.nearest? (Nat.pow 10 k) 1).getD .zero

/-- A significand of 64 bits times a power of ten; none beyond the greatest double. -/
def scale? (significand : Nat) (exponent : Int) : Option Magnitude :=
  if significand = 0 then some .zero else do
    let x ← Magnitude.nearest? significand 1
    if 308 < exponent then none
    else if 0 ≤ exponent then x.mul? (powerOfTen exponent.toNat)
    else if -308 ≤ exponent then x.div? (powerOfTen (-exponent).toNat)
    else if -616 ≤ exponent then do
      let y ← x.div? (powerOfTen 308)
      y.div? (powerOfTen (-exponent - 308).toNat)
    else some .zero

def digitsValue (ds : List Nat) : Nat := ds.foldl (fun n d => n * 10 + d) 0

/-- The written power of ten; beyond 31 bits it counts as a huge one. -/
def power (t : NumberText) : Int :=
  match t.exponent with
  | none => 0
  | some (negative, ds) =>
    let n : Int := (min (digitsValue ds) (Word.size 31) : Nat)
    if negative then -n else n

def isInteger (t : NumberText) : Bool := t.fraction.isEmpty && t.exponent.isNone

/-- None for a number beyond the greatest double. -/
def value? (t : NumberText) : Option Number :=
  let (whole, taken) := absorb 0 t.whole
  let left : Int := (t.whole.length - taken : Nat)
  if t.isInteger ∧ left = 0 ∧ (t.negative → 0 < whole ∧ whole ≤ Word.size 63) then
    some (.int (if t.negative then -(whole : Int) else whole))
  else
    let (significand, places) := absorb whole t.fraction
    (scale? significand (left - places + t.power)).map fun x => .float (.finite t.negative x)

end NumberText
end SqlLint.Json
