import SqlLint.Proofs.Text.Columns
import SqlLint.Server.Hover

/-! # Findings under the cursor and in the editor

A finding is shown in two ways: as a diagnostic, which marks a range of the text in units, and when the
cursor is on it, where the cursor's column is turned into characters. Both mean the same places. -/
namespace SqlLint
open Text

/-- The order of the places in a text. -/
def Position.IsBefore (p q : Position) : Prop := p.line < q.line ∨ (p.line = q.line ∧ p.character < q.character)

namespace Range

/-- The places from the start of a range up to its end. An empty range is the one place where it stands. -/
def Spans (r : Range) (p : Position) : Prop :=
  (¬ p.IsBefore r.start ∧ p.IsBefore r.stop) ∨ (r.start = r.stop ∧ p = r.start)

/-- The places of a range, its end included. -/
def SpansWithEnd (r : Range) (p : Position) : Prop := ¬ p.IsBefore r.start ∧ ¬ r.stop.IsBefore p

end Range

/-- The places that the diagnostic of a finding marks. Where the finding has no end, its line's end counts. -/
def Violation.Marks (v : Violation) (text : List Char) (p : Position) : Prop :=
  match v.stop with
  | some _ => (Diagnostic.ofViolation text v).range.Spans p
  | none => (Diagnostic.ofViolation text v).range.SpansWithEnd p

namespace Text

/-- A line and a column, from one, that a text has. The editor can count the units of the line. -/
structure HasPlace (text : List Char) (place : Nat × Nat) : Prop where
  line_pos : 1 ≤ place.1
  line_le : place.1 ≤ text.count '\n' + 1
  line_lt : place.1 < Word.size 32
  column_pos : 1 ≤ place.2
  column_le : place.2 ≤ (lineContent text (place.1 - 1)).length + 1
  units_lt : units (lineContent text (place.1 - 1)) < Word.size 32

/-- A cursor stands in front of a character of a line or at the line's end. -/
structure HasCursor (text : List Char) (p : Position) : Prop where
  line_le : p.line ≤ text.count '\n'
  between : ∃ k ≤ (lineContent text p.line).length, p.character = units ((lineContent text p.line).take k)

end Text

/-- A finding that lies in a text. -/
structure Violation.LiesIn (v : Violation) (text : List Char) : Prop where
  start : HasPlace text (v.line, v.column)
  stop : ∀ place, v.stop = some place → HasPlace text place

namespace Diagnostic

variable {text : List Char} {line column : Nat}

/-- The place of a diagnostic is counted in units. -/
theorem place_eq (h : HasPlace text (line, column)) :
    place text (line - 1) (column - 1) =
      ⟨line - 1, units ((lineContent text (line - 1)).take (column - 1))⟩ := by
  have bound := h.column_le
  have small := Nat.lt_of_le_of_lt (units_take_le_units (lineContent text (line - 1)) (column - 1)) h.units_lt
  have first := h.line_lt
  dsimp only at bound first
  rw [place, unitColumn_eq (by omega), Position.words_of_lt (by dsimp only; omega) small]

/-- Without an end, a diagnostic reaches to the end of its line. -/
theorem range_of_none {v : Violation} (start : HasPlace text (v.line, v.column)) (stop : v.stop = none) :
    (ofViolation text v).range = ⟨place text (v.line - 1) (v.column - 1),
      v.line - 1, units (lineContent text (v.line - 1))⟩ := by
  have within := units_take_le_units (lineContent text (v.line - 1)) (v.column - 1)
  rw [ofViolation, rangeOf, stop]
  dsimp only
  rw [place_eq start, lineUnits_eq, Position.word_of_lt start.units_lt, Nat.max_eq_left within]

/-- Between characters, cursors are in the order of their characters. -/
theorem isBefore_place_iff {p : Position} {k : Nat} (h : HasPlace text (line, column))
    (hp : p.character = units ((lineContent text p.line).take k)) :
    p.IsBefore (place text (line - 1) (column - 1)) ↔
      Violation.before (p.line, k) (line - 1, column - 1) = true := by
  have bound := h.column_le
  rw [place_eq h, Position.IsBefore, Violation.before]
  simp only [Bool.or_eq_true, Bool.and_eq_true, decide_eq_true_eq, beq_iff_eq]
  refine or_congr_right (and_congr_right fun same => ?_)
  rw [hp, same]
  exact units_take_lt_iff (by dsimp only at bound; omega)

theorem eq_place_iff {p : Position} {k : Nat} (h : HasPlace text (line, column))
    (hk : k ≤ (lineContent text p.line).length) (hp : p.character = units ((lineContent text p.line).take k)) :
    p = place text (line - 1) (column - 1) ↔ (p.line, k) = (line - 1, column - 1) := by
  have bound := h.column_le
  rw [place_eq h, Position.mk.injEq, Prod.mk.injEq]
  refine and_congr_right fun same => ?_
  rw [hp, same]
  exact units_take_inj (same ▸ hk) (by dsimp only at bound; omega)

end Diagnostic

namespace Violation

variable {v : Violation} {text : List Char} {p : Position} {k : Nat}

theorem before_irrefl (place : Nat × Nat) : before place place = false := by
  simp [before]

/-- A finding with an end covers the places from its start up to its end. -/
theorem contains_iff_spans {line column : Nat} (start : HasPlace text (v.line, v.column))
    (stop : v.stop = some (line, column)) (there : HasPlace text (line, column))
    (hk : k ≤ (lineContent text p.line).length) (hp : p.character = units ((lineContent text p.line).take k)) :
    v.contains p.line k = true ↔ (Diagnostic.ofViolation text v).range.Spans p := by
  have range : (Diagnostic.ofViolation text v).range =
      ⟨Diagnostic.place text (v.line - 1) (v.column - 1), Diagnostic.place text (line - 1) (column - 1)⟩ := by
    rw [Diagnostic.ofViolation, Diagnostic.rangeOf, stop]
  rw [range, Range.Spans, contains, stop]
  simp only [Bool.and_eq_true, Bool.or_eq_true, Bool.not_eq_true', beq_iff_eq, Violation.start]
  -- where start and end are one place, being at the start is being at both
  have both : (Diagnostic.place text (v.line - 1) (v.column - 1) = Diagnostic.place text (line - 1) (column - 1) ∧
      p = Diagnostic.place text (v.line - 1) (v.column - 1)) ↔
      ((p.line, k) = (v.line - 1, v.column - 1) ∧ (v.line - 1, v.column - 1) = (line - 1, column - 1)) := by
    constructor
    · rintro ⟨same, point⟩
      have first := (Diagnostic.eq_place_iff start hk hp).1 point
      exact ⟨first, first.symm.trans ((Diagnostic.eq_place_iff there hk hp).1 (point.trans same))⟩
    · rintro ⟨first, same⟩
      have point := (Diagnostic.eq_place_iff start hk hp).2 first
      exact ⟨point.symm.trans ((Diagnostic.eq_place_iff there hk hp).2 (first.trans same)), point⟩
  rw [both, Diagnostic.isBefore_place_iff start hp, Diagnostic.isBefore_place_iff there hp, Bool.not_eq_true]
  constructor
  · rintro ⟨notBefore, inside | point⟩
    · exact .inl ⟨notBefore, inside⟩
    · exact .inr point
  · rintro (⟨notBefore, inside⟩ | point)
    · exact ⟨notBefore, .inl inside⟩
    · exact ⟨point.1 ▸ before_irrefl _, .inr point⟩

/-- A finding without an end covers the rest of its line. -/
theorem contains_iff_spansWithEnd (start : HasPlace text (v.line, v.column)) (stop : v.stop = none)
    (hp : p.character = units ((lineContent text p.line).take k)) :
    v.contains p.line k = true ↔ (Diagnostic.ofViolation text v).range.SpansWithEnd p := by
  have cursor : p.line = v.line - 1 → p.character ≤ units (lineContent text (v.line - 1)) := by
    intro same
    rw [hp, ← same]
    exact units_take_le_units _ _
  rw [Diagnostic.range_of_none start stop, Range.SpansWithEnd, Diagnostic.isBefore_place_iff start hp, contains, stop]
  simp only [before, Position.IsBefore, Bool.and_eq_true, Bool.or_eq_true, beq_iff_eq, decide_eq_true_eq]
  simp only [Violation.start]
  omega

/-- For every finding that lies in a text and every cursor in it: whether the finding is shown for the cursor
is whether the cursor is in the range that the finding's diagnostic marks. -/
theorem contains_iff_marks (v : Violation) (text : List Char) (p : Position) (lies : v.LiesIn text)
    (cursor : HasCursor text p) :
    (v.contains p.line (charColumn text p.line p.character) = true ↔ v.Marks text p) ∧
      ∀ d : Document, d.text = text → v ∈ d.violations → (v ∈ Server.findingsAt d p ↔ v.Marks text p) := by
  obtain ⟨k, hk, hp⟩ := cursor.between
  have column : charColumn text p.line p.character = k := by
    rw [hp]
    exact charColumn_units hk
  have shown : v.contains p.line (charColumn text p.line p.character) = true ↔ v.Marks text p := by
    rw [column, Marks]
    cases stop : v.stop with
    | some place => exact contains_iff_spans lies.start stop (lies.stop place stop) hk hp
    | none => exact contains_iff_spansWithEnd lies.start stop hp
  refine ⟨shown, fun d same among => ?_⟩
  rw [Server.findingsAt, List.mem_filter, same]
  exact (and_iff_right among).trans shown

/-- A finding from the second character of a line to the empty line behind the last newline. -/
def acrossLines : Violation := ⟨"LT01", "", none, 1, 2, some (2, 1), false⟩

theorem contains_iff_marks_across_lines :
    acrossLines.contains 0 (charColumn ['😀', 'b', '\r', '\n'] 0 2) = true ∧
      acrossLines.Marks ['😀', 'b', '\r', '\n'] ⟨0, 2⟩ := by
  have lies : acrossLines.LiesIn ['😀', 'b', '\r', '\n'] := by
    refine ⟨by constructor <;> decide, fun place stop => ?_⟩
    obtain rfl := Option.some.inj stop
    constructor <;> decide
  have shown : acrossLines.contains 0 (charColumn ['😀', 'b', '\r', '\n'] 0 2) = true := by decide
  exact ⟨shown, (contains_iff_marks acrossLines _ ⟨0, 2⟩ lies ⟨by decide, 1, by decide, by decide⟩).1.1 shown⟩

end Violation
end SqlLint
