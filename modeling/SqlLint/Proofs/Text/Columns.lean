import SqlLint.Diagnostic
import SqlLint.Proofs.Text.CodeUnits
import SqlLint.Proofs.Text.Located
import Mathlib.Order.Bounds.Defs
import Mathlib.Order.Monotone.Defs
import Mathlib.Data.Nat.Basic

/-! # Columns of a line

The places between the characters of a line are counted in characters or in 16-bit units. Between
characters the two counts determine each other and run in the same order. -/
namespace SqlLint.Text

variable {cs : List Char} {j k : Nat}

theorem takeUnits_units_append (as bs : List Char) : takeUnits (units as) (as ++ bs) = as := by
  induction as with
  | nil => cases bs <;> rfl
  | cons c as ih =>
    have hw : width c ≠ 0 := by unfold width; split <;> simp
    rw [units_cons, List.cons_append, takeUnits, if_neg (by omega), Nat.add_sub_cancel_left, ih]

/-- The units of a beginning tell how long it is. -/
theorem takeUnits_units_take (cs : List Char) (k : Nat) : takeUnits (units (cs.take k)) cs = cs.take k := by
  have h := takeUnits_units_append (cs.take k) (cs.drop k)
  rwa [List.take_append_drop] at h

theorem units_take_lt (hk : k ≤ cs.length) (h : j < k) : units (cs.take j) < units (cs.take k) := by
  have split : cs.take k = cs.take j ++ (cs.drop j).take (k - j) := by
    rw [← List.take_add, Nat.add_sub_cancel' (Nat.le_of_lt h)]
  have more := CodeUnits.length_le_units ((cs.drop j).take (k - j))
  rw [List.length_take, List.length_drop] at more
  rw [split, units_append]
  omega

theorem units_take_le (cs : List Char) (h : j ≤ k) : units (cs.take j) ≤ units (cs.take k) := by
  have split : cs.take k = cs.take j ++ (cs.drop j).take (k - j) := by
    rw [← List.take_add, Nat.add_sub_cancel' h]
  rw [split, units_append]
  omega

theorem units_take_lt_iff (hk : k ≤ cs.length) : units (cs.take j) < units (cs.take k) ↔ j < k :=
  ⟨fun h => Nat.lt_of_not_le fun hkj => absurd (units_take_le cs hkj) (by omega), units_take_lt hk⟩

theorem units_take_inj (hj : j ≤ cs.length) (hk : k ≤ cs.length) :
    units (cs.take j) = units (cs.take k) ↔ j = k := by
  refine ⟨fun h => ?_, fun h => h ▸ rfl⟩
  have hjk : ¬ j < k := fun lt => by
    have := units_take_lt hk lt
    omega
  have hkj : ¬ k < j := fun lt => by
    have := units_take_lt hj lt
    omega
  omega

theorem units_take_le_units (cs : List Char) (k : Nat) : units (cs.take k) ≤ units cs := by
  have h := congrArg units (List.take_append_drop k cs)
  rw [units_append] at h
  omega

/-- The content of a line. The empty line behind a last newline, and that of an empty text, has none. -/
def lineContent (text : List Char) (line : Nat) : List Char := (content? text line).getD []

variable {text : List Char} {line : Nat}

theorem charColumn_units (h : k ≤ (lineContent text line).length) :
    charColumn text line (units ((lineContent text line).take k)) = k := by
  revert h
  rw [lineContent, charColumn]
  cases content? text line with
  | none =>
    intro h
    obtain rfl := Nat.le_zero.1 h
    rfl
  | some content =>
    intro h
    rw [Option.getD_some] at h ⊢
    dsimp only
    rw [takeUnits_units_take, List.length_take, Nat.min_eq_left h]

theorem unitColumn_eq (h : k ≤ (lineContent text line).length) :
    unitColumn text line k = units ((lineContent text line).take k) := by
  revert h
  rw [lineContent, unitColumn]
  cases content? text line with
  | none =>
    intro h
    obtain rfl := Nat.le_zero.1 h
    rfl
  | some content => exact fun _ => rfl

theorem lineUnits_eq (text : List Char) (line : Nat) : lineUnits text line = units (lineContent text line) := by
  rw [lineUnits, lineContent]
  cases content? text line <;> rfl

/-! ## The two ways to count

The columns of a line in characters and in units are tied by one equivalence: a number of units is reached by so many
characters, or these are all. That both ways are inverse where they can be, and what a column inside a character
counts as, follows from it. -/

/-- As many characters are taken as it needs to reach so many units, and no more. -/
theorem length_takeUnits_le_iff (cs : List Char) (n k : Nat) :
    (takeUnits n cs).length ≤ k ↔ cs.length ≤ k ∨ n ≤ units (cs.take k) := by
  induction cs generalizing n k with
  | nil => simp [takeUnits]
  | cons c cs ih =>
    rw [takeUnits]
    by_cases hn : n = 0
    · simp [hn]
    · rw [if_neg hn]
      cases k with
      | zero => simp [hn]
      | succ k =>
        rw [List.length_cons, List.length_cons, List.take_succ_cons, units_cons, Nat.add_le_add_iff_right,
          Nat.add_le_add_iff_right, ih]
        omega

/-- Two ways to count the columns of a line of so many characters: the units in front of a character, and the
characters that it needs to reach a unit. -/
structure IsColumnPair (length : Nat) (toUnits toCharacters : Nat → Nat) : Prop where
  back : ∀ k ≤ length, toCharacters (toUnits k) = k
  beyond : ∀ k, length ≤ k → toCharacters (toUnits k) = length
  least : ∀ n, (∃ k ≤ length, n ≤ toUnits k) → IsLeast {k | k ≤ length ∧ n ≤ toUnits k} (toCharacters n)
  unreached : ∀ n, (∀ k ≤ length, toUnits k < n) → toCharacters n = length
  monotone_toUnits : Monotone toUnits
  monotone_toCharacters : Monotone toCharacters

/-- Everything about the two ways follows from when a number of characters is enough. -/
theorem IsColumnPair.of_le_iff {length : Nat} {toUnits toCharacters : Nat → Nat} (mono : Monotone toUnits)
    (strict : ∀ j k, j < k → k ≤ length → toUnits j < toUnits k) (all : ∀ k, length ≤ k → toUnits k = toUnits length)
    (enough : ∀ n k, toCharacters n ≤ k ↔ length ≤ k ∨ n ≤ toUnits k) :
    IsColumnPair length toUnits toCharacters := by
  have inLine (n : Nat) : toCharacters n ≤ length := (enough n length).2 (.inl (Nat.le_refl _))
  have reached (n : Nat) : length ≤ toCharacters n ∨ n ≤ toUnits (toCharacters n) :=
    (enough n (toCharacters n)).1 (Nat.le_refl _)
  have back (k : Nat) (hk : k ≤ length) : toCharacters (toUnits k) = k := by
    refine Nat.le_antisymm ((enough _ k).2 (.inr (Nat.le_refl _))) (Nat.le_of_not_lt fun less => ?_)
    have before := strict _ k less hk
    have there := reached (toUnits k)
    omega
  constructor
  · exact back
  · intro k hk
    rw [all k hk, back length (Nat.le_refl _)]
  · rintro n ⟨k, hk, hn⟩
    refine ⟨⟨inLine n, ?_⟩, fun j hj => (enough n j).2 (.inr hj.2)⟩
    rcases reached n with last | here
    · exact Nat.le_trans hn (mono (Nat.le_trans hk last))
    · exact here
  · intro n short
    have there := reached n
    have before := short (toCharacters n) (inLine n)
    have bound := inLine n
    omega
  · exact mono
  · intro n m hnm
    refine (enough n _).2 ?_
    rcases reached m with last | here
    · exact .inl last
    · exact .inr (Nat.le_trans hnm here)

theorem isColumnPair_content {content : List Char} (found : content? text line = some content) :
    IsColumnPair content.length (unitColumn text line) (charColumn text line) := by
  have inUnits (k : Nat) : unitColumn text line k = units (content.take k) := by rw [unitColumn, found]
  have inCharacters (n : Nat) : charColumn text line n = (takeUnits n content).length := by rw [charColumn, found]
  refine .of_le_iff (fun j k hjk => ?_) (fun j k hjk hk => ?_) (fun k hk => ?_) (fun n k => ?_)
  · rw [inUnits, inUnits]
    exact units_take_le content hjk
  · rw [inUnits, inUnits]
    exact units_take_lt hk hjk
  · rw [inUnits, inUnits, List.take_of_length_le hk, List.take_length]
  · rw [inUnits, inCharacters]
    exact length_takeUnits_le_iff content n k

/-- On every line that a reader of whole lines finds, the column of a diagnostic's place and that of a cursor are such a
pair, as long as the line's units have 32 bits. -/
theorem isColumnPair_place {content : List Char} (found : content? text line = some content)
    (small : units content < Word.size 32) :
    IsColumnPair content.length (fun k => (Diagnostic.place text line k).character) (charColumn text line) := by
  have unwrapped (k : Nat) : (Diagnostic.place text line k).character = unitColumn text line k := by
    refine Nat.mod_eq_of_lt (Nat.lt_of_le_of_lt ?_ small)
    rw [unitColumn, found]
    exact units_take_le_units content k
  simp only [unwrapped]
  exact isColumnPair_content found

/-- A line with a character of two units. A column inside it counts as the one behind it. -/
theorem isColumnPair_place_pair : content? "x\na😀b\r\n".toList 1 = some "a😀b".toList ∧
    units "a😀b".toList < Word.size 32 ∧
    charColumn "x\na😀b\r\n".toList 1 (Diagnostic.place "x\na😀b\r\n".toList 1 2).character = 2 ∧
    charColumn "x\na😀b\r\n".toList 1 (Diagnostic.place "x\na😀b\r\n".toList 1 9).character = 3 ∧
    IsLeast {k | k ≤ 3 ∧ 2 ≤ (Diagnostic.place "x\na😀b\r\n".toList 1 k).character}
      (charColumn "x\na😀b\r\n".toList 1 2) ∧
    charColumn "x\na😀b\r\n".toList 1 5 = 3 := by
  have found : content? "x\na😀b\r\n".toList 1 = some "a😀b".toList := by decide
  have small : units "a😀b".toList < Word.size 32 := by decide
  have pair := isColumnPair_place found small
  exact ⟨found, small, pair.back 2 (by decide), pair.beyond 9 (by decide),
    pair.least 2 ⟨2, by decide, by decide⟩, pair.unreached 5 (by decide)⟩

end SqlLint.Text
