import SqlLint.Proofs.Server.Hover
import SqlLint.Proofs.Text.Places

/-! # What a diagnostic marks

A finding counts lines and characters from one, its diagnostic lines and units from zero. When the editor
sends the range of a diagnostic back, its ends denote the places that the finding names. -/
namespace SqlLint.Diagnostic
open Text

/-- A position denotes the place in front of the character at a line and a column, from one. -/
def Denotes (text : List Char) (p : Position) (place : Nat × Nat) : Prop :=
  ∃ before after, IsCut text (place.1 - 1) (place.2 - 1) before after ∧ offset? text p = some (bytes before)

/-- A position denotes the place behind the content of a line, from one, and in front of what ends the line. -/
def DenotesEnd (text : List Char) (p : Position) (line : Nat) : Prop :=
  ∃ before after, IsCut text (line - 1) (lineContent text (line - 1)).length before after ∧
    EndsLine before after ∧ offset? text p = some (bytes before)

variable {text : List Char} {v : Violation} {line column : Nat}

theorem denotes_place (ends : text.getLast? ≠ some '\r') (h : HasPlace text (line, column)) :
    Denotes text (place text (line - 1) (column - 1)) (line, column) := by
  have lines := h.line_le
  have columns := h.column_le
  dsimp only at lines columns
  have inText : line - 1 ≤ text.count '\n' := by omega
  have inLine : column - 1 ≤ (lineContent text (line - 1)).length := by omega
  obtain ⟨before, after, found, cut, -⟩ := exists_isCut ends inText inLine
  refine ⟨before, after, cut, ?_⟩
  rw [place_eq h, offset?, found]
  rfl

theorem denotesEnd_of_none (ends : text.getLast? ≠ some '\r') (start : HasPlace text (v.line, v.column))
    (stop : v.stop = none) : DenotesEnd text (ofViolation text v).range.stop v.line := by
  have lines := start.line_le
  dsimp only at lines
  have inText : v.line - 1 ≤ text.count '\n' := by omega
  obtain ⟨before, after, found, cut, done⟩ := exists_isCut ends inText (Nat.le_refl _)
  rw [List.take_length] at found
  refine ⟨before, after, cut, done rfl, ?_⟩
  rw [range_of_none start stop, offset?, found]
  rfl

/-- Where a finding ends. Without an end of its own it ends with its line. -/
def reach (text : List Char) (v : Violation) : Nat × Nat :=
  v.stop.getD (v.line, (lineContent text (v.line - 1)).length + 1)

theorem hasPlace_reach (lies : v.LiesIn text) : HasPlace text (reach text v) := by
  cases stop : v.stop with
  | some place =>
    rw [reach, stop]
    exact lies.stop place stop
  | none =>
    rw [reach, stop]
    exact { lies.start with column_pos := Nat.le_add_left 1 _, column_le := Nat.le_refl _ }

theorem range_eq (lies : v.LiesIn text) :
    (ofViolation text v).range = ⟨place text (v.line - 1) (v.column - 1),
      place text ((reach text v).1 - 1) ((reach text v).2 - 1)⟩ := by
  cases stop : v.stop with
  | some other => rw [ofViolation, rangeOf, reach, stop, Option.getD_some]
  | none =>
    have there := hasPlace_reach lies
    rw [reach, stop, Option.getD_none] at there
    rw [range_of_none lies.start stop, reach, stop, Option.getD_none, place_eq there, Nat.add_sub_cancel,
      List.take_length]

/-- Places from one, in order, are in order from zero. -/
theorem order_of_not_before {line' column' : Nat} (one : HasPlace text (line, column))
    (other : HasPlace text (line', column')) (order : Violation.before (line', column') (line, column) = false) :
    line - 1 < line' - 1 ∨ (line - 1 = line' - 1 ∧ column - 1 ≤ column' - 1) := by
  have lines := one.line_pos
  have lines' := other.line_pos
  simp only [Violation.before, Bool.or_eq_false_iff, Bool.and_eq_false_iff, decide_eq_false_iff_not,
    beq_eq_false_iff_ne] at order
  dsimp only at lines lines'
  omega

theorem not_isBefore_place {line' column' : Nat} (one : HasPlace text (line, column))
    (other : HasPlace text (line', column')) (order : Violation.before (line', column') (line, column) = false) :
    ¬ (place text (line' - 1) (column' - 1)).IsBefore (place text (line - 1) (column - 1)) := by
  rw [place_eq one, place_eq other, Position.IsBefore]
  rcases order_of_not_before one other order with above | ⟨same, left⟩
  · dsimp only
    omega
  · have further := units_take_le (lineContent text (line - 1)) left
    rw [← same]
    dsimp only
    omega

/-- A diagnostic that does not end before it starts covers the bytes between its two places. -/
theorem offset?_le {p q : Position} {line' column' a b : Nat} (one : HasPlace text (line, column))
    (other : HasPlace text (line', column')) (first : Denotes text p (line, column))
    (second : Denotes text q (line', column')) (order : Violation.before (line', column') (line, column) = false)
    (ha : offset? text p = some a) (hb : offset? text q = some b) : a ≤ b := by
  obtain ⟨before, after, cut, found⟩ := first
  obtain ⟨before', after', cut', found'⟩ := second
  obtain ⟨rest, rfl⟩ := cut.prefix_of_le cut' (order_of_not_before one other order)
  obtain rfl := Option.some.inj (ha.symm.trans found)
  obtain rfl := Option.some.inj (hb.symm.trans found')
  rw [bytes_append]
  omega

theorem before_reach (lies : v.LiesIn text)
    (order : ∀ place, v.stop = some place → Violation.before place (v.line, v.column) = false) :
    Violation.before (reach text v) (v.line, v.column) = false := by
  cases stop : v.stop with
  | some place =>
    rw [reach, stop]
    exact order place stop
  | none =>
    have bound := lies.start.column_le
    dsimp only at bound
    simp only [reach, stop, Violation.before, Option.getD_none, Bool.or_eq_false_iff, Bool.and_eq_false_iff,
      decide_eq_false_iff_not]
    omega

/-- For every finding that lies in a text: the ends of its diagnostic's range denote the places that the
finding names, and without an end the range ends with the content of the line. The range does not end
before it starts unless the finding does. -/
theorem range_denotes (v : Violation) (text : List Char) (lies : v.LiesIn text)
    (ends : text.getLast? ≠ some '\r') :
    Denotes text (ofViolation text v).range.start (v.line, v.column) ∧
    (∀ place, v.stop = some place → Denotes text (ofViolation text v).range.stop place) ∧
    (v.stop = none → DenotesEnd text (ofViolation text v).range.stop v.line) ∧
    ((∀ place, v.stop = some place → Violation.before place (v.line, v.column) = false) →
      ¬ (ofViolation text v).range.stop.IsBefore (ofViolation text v).range.start ∧
      ∀ a b, offset? text (ofViolation text v).range.start = some a →
        offset? text (ofViolation text v).range.stop = some b → a ≤ b) := by
  have there := hasPlace_reach lies
  have first : Denotes text (ofViolation text v).range.start (v.line, v.column) := by
    rw [range_eq lies]
    exact denotes_place ends lies.start
  have second : Denotes text (ofViolation text v).range.stop (reach text v) := by
    rw [range_eq lies]
    exact denotes_place ends there
  refine ⟨first, fun place stop => ?_, denotesEnd_of_none ends lies.start, fun order => ⟨?_, fun a b ha hb => ?_⟩⟩
  · rwa [reach, stop] at second
  · rw [range_eq lies]
    exact not_isBefore_place lies.start there (before_reach lies order)
  · exact offset?_le lies.start there first second (before_reach lies order) ha hb

/-- A finding from the second character of the second line, without an end. -/
def restOfLine : Violation := ⟨"LT02", "", none, 2, 2, none, false⟩

theorem range_denotes_rest_of_line :
    restOfLine.LiesIn "a\r\n😀b\r\n".toList ∧ "a\r\n😀b\r\n".toList.getLast? ≠ some '\r' ∧
      Denotes "a\r\n😀b\r\n".toList ⟨1, 2⟩ (2, 2) ∧ DenotesEnd "a\r\n😀b\r\n".toList ⟨1, 3⟩ 2 := by
  have lies : restOfLine.LiesIn "a\r\n😀b\r\n".toList := ⟨by constructor <;> decide, nofun⟩
  have ends : "a\r\n😀b\r\n".toList.getLast? ≠ some '\r' := by decide
  have range : (ofViolation "a\r\n😀b\r\n".toList restOfLine).range = ⟨⟨1, 2⟩, ⟨1, 3⟩⟩ := by decide
  obtain ⟨first, -, last, -⟩ := range_denotes restOfLine "a\r\n😀b\r\n".toList lies ends
  rw [range] at first last
  exact ⟨lies, ends, first, last rfl⟩

end SqlLint.Diagnostic
