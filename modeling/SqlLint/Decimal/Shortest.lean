import SqlLint.Decimal.Double

/-! # The shortest decimal that reads back as a double -/
namespace SqlLint

/-- A decimal `digits * 10 ^ exponent`. -/
structure Decimal where
  digits : Nat
  exponent : Int
  deriving DecidableEq, Repr

namespace Decimal

def text (n : Nat) : List Char := Nat.toDigits 10 n

/-- The decimals that round to a double: those between `low / den` and `high / den`. -/
structure Interval where
  value : Nat
  low : Nat
  high : Nat
  den : Nat
  closed : Bool

def interval (x : Magnitude) : Interval :=
  let quarter := if x.significand = Nat.pow 2 52 ∧ Magnitude.lowestExponent < x.exponent then 1 else 2
  let up := Nat.pow 2 (x.exponent - 2).toNat
  ⟨4 * x.significand * up, (4 * x.significand - quarter) * up, (4 * x.significand + 2) * up,
    Nat.pow 2 (2 - x.exponent).toNat, x.significand % 2 = 0⟩

def Interval.admits (i : Interval) (d : Decimal) : Bool :=
  let num := d.digits * Nat.pow 10 d.exponent.toNat * i.den
  let unit := Nat.pow 10 (-d.exponent).toNat
  if i.closed then i.low * unit ≤ num && num ≤ i.high * unit
  else i.low * unit < num && num < i.high * unit

/-- The distance of a decimal from the double, in a unit common to one grid. -/
def Interval.distance (i : Interval) (d : Decimal) : Nat :=
  let num := d.digits * Nat.pow 10 d.exponent.toNat * i.den
  let value := i.value * Nat.pow 10 (-d.exponent).toNat
  (num - value) + (value - num)

/-- The number of zeros between the point and the first digit of a value below one. -/
def leadingZeros (value den : Nat) : Nat → Nat
  | 0 => 0
  | fuel + 1 => if den ≤ value * 10 then 0 else leadingZeros (value * 10) den fuel + 1

/-- The power of ten of the first digit. -/
def Interval.scale (i : Interval) : Int :=
  if i.den ≤ i.value then ((text (i.value / i.den)).length : Int) - 1
  else -((leadingZeros i.value i.den 400 : Nat) : Int) - 1

/-- The two neighbours of the double on a grid, the nearer of those that read back. -/
def Interval.onGrid? (i : Interval) (exponent : Int) : Option Decimal :=
  let below := i.value * Nat.pow 10 (-exponent).toNat / (i.den * Nat.pow 10 exponent.toNat)
  let under : Decimal := ⟨below, exponent⟩
  let above : Decimal := ⟨below + 1, exponent⟩
  match i.admits under, i.admits above with
  | true, true =>
    let a := i.distance under
    let b := i.distance above
    if a < b ∨ (a = b ∧ below % 2 = 0) then some under else some above
  | true, false => some under
  | false, true => some above
  | false, false => none

def stripZeros (d : Decimal) : Nat → Decimal
  | 0 => d
  | fuel + 1 =>
    if d.digits ≠ 0 ∧ d.digits % 10 = 0 then stripZeros ⟨d.digits / 10, d.exponent + 1⟩ fuel else d

/-- The decimal of the fewest digits that reads back as the double, the nearest of those. -/
def shortest (x : Magnitude) : Decimal :=
  if x.significand = 0 then ⟨0, 0⟩ else
  let i := interval x
  let grids := (List.range 17).map fun n : Nat => i.scale - (n : Int)
  stripZeros ((grids.findSome? i.onGrid?).getD ⟨x.ratio.1 / x.ratio.2, 0⟩) 400

/-- The power of ten of a decimal's first digit. -/
def leading (d : Decimal) : Int := d.exponent + ((text d.digits).length : Int) - 1

/-- All digits around a point, with at least one on either side. -/
def positional (d : Decimal) : List Char :=
  let ds := text d.digits
  if 0 ≤ d.exponent then ds ++ List.replicate d.exponent.toNat '0' ++ ['.', '0']
  else
    let places := (-d.exponent).toNat
    if places < ds.length then
      ds.take (ds.length - places) ++ '.' :: ds.drop (ds.length - places)
    else '0' :: '.' :: List.replicate (places - ds.length) '0' ++ ds

/-- One digit before the point and a signed power of ten. -/
def scientific (d : Decimal) : List Char :=
  let mantissa := match text d.digits with
    | c :: r@(_ :: _) => c :: '.' :: r
    | ds => ds
  mantissa ++ 'e' :: (if d.leading < 0 then '-' else '+') :: text d.leading.natAbs

end Decimal

/-- The powers of ten, of the first digit, for which a number is written with all its digits. -/
structure FloatStyle where
  lowest : Int
  highest : Int

namespace Double

def write (style : FloatStyle) : Double → List Char
  | .nan => ['N', 'a', 'N']
  | .infinite negative => (if negative then ['-'] else []) ++ ['i', 'n', 'f']
  | .finite negative x =>
    let d := Decimal.shortest x
    (if negative then ['-'] else []) ++
      if style.lowest ≤ d.leading ∧ d.leading ≤ style.highest then d.positional else d.scientific

end Double
end SqlLint
