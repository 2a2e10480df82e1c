import SqlLint.Proofs.Server.Handler
import SqlLint.Proofs.Text.FullRange

/-! # Formatting replaces a document

A successful run of the linter on an open document leads to no edit where it changes nothing, and to
one edit of the whole text otherwise. As long as the editor's numbers reach the end of the text, the
edit is exact but for one kind of text: a carriage return at the very end, which no newline follows,
stays behind the fixed text. -/
namespace SqlLint.Server
open Text

/-- The run that fixes a document. -/
def fixRun (s : Session) (uri : Uri) (d : Document) : Invocation :=
  Linter.fixInvocation (settings s.server s.tree) (String.ofList d.text) uri.filePath? none

theorem fixEdits_apply {s : Session} {uri : Uri} {d : Document} (e : Environment)
    (hd : s.server.document? uri.text = some d) (hf : (settings s.server s.tree).format = true) :
    (fixEdits uri e s).1 =
      (Linter.run e.programs s.tree (fixRun s uri d)).map fun fixed => replacement? d.text fixed.toList := by
  simp [fixEdits, hd, hf, fixRun]

/-- The edit of a text that a run fixed: there is none exactly if nothing changed, and otherwise it
replaces the full range of the text. -/
theorem replacement?_eq (old new : List Char) : (replacement? old new = none ↔ new = old) ∧
    (new ≠ old → replacement? old new = some [⟨fullRange old, new⟩]) := by
  unfold replacement?
  split <;> simp [*]

/-- Formatting an open document answers no edit exactly if the linter changed nothing, and otherwise
one edit of its whole text. Applied to the text, the edit gives what the linter wrote if and only if
the editor's numbers reach the end of the text and the text does not end in a carriage return; if it
does, the carriage return follows what the linter wrote. The same holds of any text whose full range is
replaced. -/
theorem fixEdits_replaces (e : Environment) (s : Session) (uri : Uri) (d : Document) (fixed : String)
    (hd : s.server.document? uri.text = some d) (hf : (settings s.server s.tree).format = true)
    (hr : Linter.run e.programs s.tree (fixRun s uri d) = .ok fixed) :
    (∃ edits, (fixEdits uri e s).1 = .ok edits ∧ (edits = none ↔ fixed.toList = d.text) ∧
      (fixed.toList ≠ d.text → ∃ edit : TextEdit, edits = some [edit] ∧
        (Change.apply d.text ⟨some edit.range, edit.text⟩ = fixed.toList ↔
          HasEnd d.text ∧ d.text.getLast? ≠ some '\r') ∧
        (HasEnd d.text → d.text.getLast? = some '\r' →
          Change.apply d.text ⟨some edit.range, edit.text⟩ = fixed.toList ++ ['\r']))) ∧
    ∀ text replacement : List Char,
      Change.apply text ⟨some (fullRange text), replacement⟩ = replacement ↔
        HasEnd text ∧ text.getLast? ≠ some '\r' := by
  obtain ⟨hn, hs⟩ := replacement?_eq d.text fixed.toList
  refine ⟨⟨replacement? d.text fixed.toList, ?_, hn, fun hne => ?_⟩, apply_fullRange_eq_iff⟩
  · rw [fixEdits_apply e hd hf, hr]
    rfl
  · refine ⟨_, hs hne, apply_fullRange_eq_iff _ _, fun ends hl => ?_⟩
    rw [apply_fullRange ends, lastReturn, if_pos hl]

/-- A session with one open document. -/
def editing (uri : Uri) (d : Document) : Session :=
  Session.installed ⟨{ phase := .running, documents := [(uri.text, d)], active := some uri.text }, .empty [], []⟩

theorem fixEdits_replaces_lone_return :
    ∃ edit : TextEdit,
      (fixEdits ⟨"untitled:", []⟩ (.granting "b")
        (editing ⟨"untitled:", []⟩ ⟨['a', '\r'], "sql", []⟩)).1 = .ok (some [edit]) ∧
      Change.apply ['a', '\r'] ⟨some edit.range, edit.text⟩ = ['b', '\r'] := by
  obtain ⟨⟨edits, h, -, hs⟩, -⟩ := fixEdits_replaces (.granting "b")
    (editing ⟨"untitled:", []⟩ ⟨['a', '\r'], "sql", []⟩) ⟨"untitled:", []⟩ ⟨['a', '\r'], "sql", []⟩ "b"
    rfl rfl rfl
  obtain ⟨edit, rfl, -, ha⟩ := hs (by decide)
  exact ⟨edit, h, ha ⟨by decide, by decide⟩ rfl⟩

/-- Not every text becomes its replacement. -/
theorem apply_fullRange_lone_return :
    ¬ ∀ text replacement : List Char,
      Change.apply text ⟨some (fullRange text), replacement⟩ = replacement := by
  intro h
  exact absurd (h ['a', '\r'] ['b']) (by decide)

end SqlLint.Server
