import SqlLint.Json.Outline
import SqlLint.Proofs.Text.CodeUnits

/-! # The grammar of JSON

How a text is written that is JSON. Blanks may stand around every value and sign, strings may hold characters as
they are or escaped, and nothing is said of the values of numbers and of halves of surrogate pairs. -/
namespace SqlLint.Json

/-- A text of white space. -/
def Blanks (cs : List Char) : Prop := ∀ c ∈ cs, c ∈ [' ', '\t', '\n', '\r']

/-- A hexadecimal digit and its value. -/
def Hexadecimal (c : Char) (n : Nat) : Prop :=
  "0123456789abcdef".toList[n]? = some c ∨ "0123456789ABCDEF".toList[n]? = some c

/-- The letters of short escapes and what they stand for. -/
def letters : List (Char × Char) :=
  [('"', '"'), ('\\', '\\'), ('/', '/'), ('b', '\x08'), ('f', '\x0c'), ('n', '\n'), ('r', '\r'), ('t', '\t')]

namespace Piece

/-- How pieces are spelled between two quotes. -/
inductive Spelled : List Piece → List Char → Prop
  | nil : Spelled [] []
  | plain {c : Char} {ps : List Piece} {cs : List Char} (shown : ' ' ≤ c) (quote : c ≠ '"') (slash : c ≠ '\\')
    (rest : Spelled ps cs) : Spelled (.char c :: ps) (c :: cs)
  | letter {e c : Char} {ps : List Piece} {cs : List Char} (known : (e, c) ∈ letters) (rest : Spelled ps cs) :
    Spelled (.char c :: ps) ('\\' :: e :: cs)
  | code {a b c d : Char} {i j k l : Nat} {ps : List Piece} {cs : List Char} (first : Hexadecimal a i)
    (second : Hexadecimal b j) (third : Hexadecimal c k) (last : Hexadecimal d l) (rest : Spelled ps cs) :
    Spelled (.unit (((i * 16 + j) * 16 + k) * 16 + l) :: ps) ('\\' :: 'u' :: a :: b :: c :: d :: cs)

/-- The text that pieces denote: each of its characters stands for itself or is given by its 16-bit units. -/
inductive Denotes : List Piece → List Char → Prop
  | nil : Denotes [] []
  | char (c : Char) {ps : List Piece} {cs : List Char} (rest : Denotes ps cs) : Denotes (.char c :: ps) (c :: cs)
  | units (c : Char) {ps : List Piece} {cs : List Char} (rest : Denotes ps cs) :
    Denotes ((CodeUnits.ofChar c).map .unit ++ ps) (c :: cs)

end Piece

/-- A sequence of decimal digits. -/
def IsDigits (ds : List Nat) : Prop := ds ≠ [] ∧ ∀ d ∈ ds, d < 10

def written (ds : List Nat) : List Char := ds.map Nat.digitChar

namespace NumberText

/-- How an exponent is spelled, if there is one. -/
inductive SpelledExponent : Option (Bool × List Nat) → List Char → Prop
  | none : SpelledExponent none []
  | some {e : Char} {negative : Bool} {sign : List Char} {ds : List Nat} (letter : e ∈ ['e', 'E'])
    (signed : (negative, sign) ∈ [(true, ['-']), (false, ['+']), (false, [])]) (digits : IsDigits ds) :
    SpelledExponent (some (negative, ds)) (e :: (sign ++ written ds))

/-- The digits after a point, if there are any. -/
inductive SpelledFraction : List Nat → List Char → Prop
  | none : SpelledFraction [] []
  | some {ds : List Nat} (digits : IsDigits ds) : SpelledFraction ds ('.' :: written ds)

/-- How a number is spelled: more than one digit in front of the point start with none that is zero. -/
inductive Spelled : NumberText → List Char → Prop
  | mk {negative : Bool} {whole fraction : List Nat} {exponent : Option (Bool × List Nat)}
    {sign fractionText exponentText : List Char} (signed : (negative, sign) ∈ [(true, ['-']), (false, [])])
    (digits : IsDigits whole) (leading : whole.head? = some 0 → whole = [0])
    (fractional : SpelledFraction fraction fractionText) (exponential : SpelledExponent exponent exponentText) :
    Spelled ⟨negative, whole, fraction, exponent⟩ (sign ++ (written whole ++ (fractionText ++ exponentText)))

end NumberText

mutual
/-- How a value is spelled, without blanks around it. -/
inductive Outline.Spelled : Outline → List Char → Prop
  | null : Outline.Spelled .null "null".toList
  | isTrue : Outline.Spelled (.bool true) "true".toList
  | isFalse : Outline.Spelled (.bool false) "false".toList
  | number {t : NumberText} {cs : List Char} (h : t.Spelled cs) : Outline.Spelled (.number t) cs
  | string {ps : List Piece} {cs : List Char} (h : Piece.Spelled ps cs) :
    Outline.Spelled (.string ps) ('"' :: (cs ++ ['"']))
  | emptyArray {blank : List Char} (hb : Blanks blank) :
    Outline.Spelled (.array .closed) ('[' :: (blank ++ [']']))
  | array {items : Items} {cs : List Char} (h : items.Spelled cs) :
    Outline.Spelled (.array items) ('[' :: (cs ++ [']']))
  | emptyObject {blank : List Char} (hb : Blanks blank) :
    Outline.Spelled (.object .closed) ('\x7b' :: (blank ++ ['\x7d']))
  | object {members : Members} {cs : List Char} (h : members.Spelled cs) :
    Outline.Spelled (.object members) ('\x7b' :: (cs ++ ['\x7d']))

/-- How items are spelled, of which there are some. -/
inductive Items.Spelled : Items → List Char → Prop
  | last {item : Outline} {before cs after : List Char} (hb : Blanks before) (h : item.Spelled cs)
    (ha : Blanks after) : Items.Spelled (.more item .closed) (before ++ (cs ++ after))
  | more {item : Outline} {rest : Items} {before cs after tail : List Char} (hb : Blanks before)
    (h : item.Spelled cs) (ha : Blanks after) (hr : rest.Spelled tail) :
    Items.Spelled (.more item rest) (before ++ (cs ++ (after ++ ',' :: tail)))

/-- How members are spelled, of which there are some. -/
inductive Members.Spelled : Members → List Char → Prop
  | last {key : List Piece} {value : Outline} {front name colon before cs after : List Char} (hf : Blanks front)
    (hk : Piece.Spelled key name) (hc : Blanks colon) (hb : Blanks before) (h : value.Spelled cs)
    (ha : Blanks after) :
    Members.Spelled (.more key value .closed)
      (front ++ '"' :: (name ++ '"' :: (colon ++ ':' :: (before ++ (cs ++ after)))))
  | more {key : List Piece} {value : Outline} {rest : Members} {front name colon before cs after tail : List Char}
    (hf : Blanks front) (hk : Piece.Spelled key name) (hc : Blanks colon) (hb : Blanks before)
    (h : value.Spelled cs) (ha : Blanks after) (hr : rest.Spelled tail) :
    Members.Spelled (.more key value rest)
      (front ++ '"' :: (name ++ '"' :: (colon ++ ':' :: (before ++ (cs ++ (after ++ ',' :: tail))))))
end

/-- How a whole text is spelled that is JSON. -/
def Outline.SpelledText (o : Outline) (text : List Char) : Prop :=
  ∃ before body after, Blanks before ∧ o.Spelled body ∧ Blanks after ∧ text = before ++ (body ++ after)

mutual
/-- What is spelled goes on to its end. -/
theorem Outline.Spelled.complete {o : Outline} {cs : List Char} (h : o.Spelled cs) : o.complete = true := by
  cases h with
  | array h => exact h.complete
  | object h => exact h.complete
  | _ => rfl

theorem Items.Spelled.complete {items : Items} {cs : List Char} (h : items.Spelled cs) : items.complete = true := by
  cases h with
  | last hb h ha => rw [Items.complete, h.complete]; rfl
  | more hb h ha hr => rw [Items.complete, h.complete, hr.complete]; rfl

theorem Members.Spelled.complete {members : Members} {cs : List Char} (h : members.Spelled cs) :
    members.complete = true := by
  cases h with
  | last hf hk hc hb h ha => rw [Members.complete, h.complete]; rfl
  | more hf hk hc hb h ha hr => rw [Members.complete, h.complete, hr.complete]; rfl
end

end SqlLint.Json
