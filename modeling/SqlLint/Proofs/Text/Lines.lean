import SqlLint.Text.Change
import Mathlib.Data.List.TakeWhile

/-! # Texts line by line

A text is a last line without a newline, or a first line, its newline and a text. What is looked up by
a position is looked up in the first line or in what follows it. -/
namespace SqlLint.Text

/-- Induction on the lines of a text. -/
theorem line_induction {P : List Char → Prop} (last : ∀ l, '\n' ∉ l → P l)
    (more : ∀ l rest, '\n' ∉ l → P rest → P (l ++ '\n' :: rest)) (text : List Char) : P text := by
  suffices h : ∀ n (text : List Char), text.length ≤ n → P text from h _ text (Nat.le_refl _)
  intro n
  induction n with
  | zero =>
    intro text ht
    exact last text (by simp [List.eq_nil_of_length_eq_zero (Nat.le_zero.1 ht)])
  | succ n ih =>
    intro text ht
    by_cases hn : '\n' ∈ text
    · obtain ⟨l, rest, rfl, hl⟩ := List.eq_append_cons_of_mem hn
      exact more l rest hl (ih rest (by simp at ht; omega))
    · exact last text hn

variable {l : List Char}

theorem lines_of_not_mem (h : '\n' ∉ l) : lines l = [l] := by
  induction l with
  | nil => rfl
  | cons c l ih =>
    obtain ⟨hc, hl⟩ : '\n' ≠ c ∧ '\n' ∉ l := by simpa using h
    simp [lines, hc.symm, ih hl]

theorem lines_append_newline (h : '\n' ∉ l) (rest : List Char) :
    lines (l ++ '\n' :: rest) = l :: lines rest := by
  induction l with
  | nil => simp [lines]
  | cons c l ih =>
    obtain ⟨hc, hl⟩ : '\n' ≠ c ∧ '\n' ∉ l := by simpa using h
    simp [lines, hc.symm, ih hl]

theorem splitAtLine_zero (cs : List Char) : splitAtLine 0 cs = some ([], cs) := by cases cs <;> rfl

theorem splitAtLine_succ_of_not_mem (h : '\n' ∉ l) (n : Nat) : splitAtLine (n + 1) l = none := by
  induction l with
  | nil => rfl
  | cons c l ih =>
    obtain ⟨hc, hl⟩ : '\n' ≠ c ∧ '\n' ∉ l := by simpa using h
    simp [splitAtLine, hc.symm, ih hl]

theorem splitAtLine_succ_append_newline (h : '\n' ∉ l) (n : Nat) (rest : List Char) :
    splitAtLine (n + 1) (l ++ '\n' :: rest) =
      (splitAtLine n rest).map fun parts => (l ++ '\n' :: parts.1, parts.2) := by
  induction l with
  | nil => simp [splitAtLine]
  | cons c l ih =>
    obtain ⟨hc, hl⟩ : '\n' ≠ c ∧ '\n' ∉ l := by simpa using h
    simp [splitAtLine, hc.symm, ih hl, Function.comp_def]

theorem decide_ne_newline (h : '\n' ∉ l) : ∀ c ∈ l, decide (c ≠ '\n') = true :=
  fun _ hc => decide_eq_true fun he => h (he ▸ hc)

theorem firstLine_of_not_mem (h : '\n' ∉ l) : firstLine l = dropReturn l := by
  rw [firstLine, List.takeWhile_eq_self_iff.2 (decide_ne_newline h)]

theorem firstLine_append_newline (h : '\n' ∉ l) (rest : List Char) :
    firstLine (l ++ '\n' :: rest) = dropReturn l := by
  rw [firstLine, List.takeWhile_append_of_pos (decide_ne_newline h), List.takeWhile_cons_of_neg (by decide),
    List.append_nil]

/-- Where the first line of a text is looked up, whatever follows it. -/
theorem splitAt?_zero (text : List Char) (n : Nat) :
    splitAt? text ⟨0, n⟩ =
      some (takeUnits n (firstLine text), text.drop (takeUnits n (firstLine text)).length) := by
  simp [splitAt?, splitAtLine_zero]

theorem splitAt?_succ_of_not_mem (h : '\n' ∉ l) (n m : Nat) : splitAt? l ⟨n + 1, m⟩ = none := by
  simp [splitAt?, splitAtLine_succ_of_not_mem h]

theorem splitAt?_succ_append_newline (h : '\n' ∉ l) (n m : Nat) (rest : List Char) :
    splitAt? (l ++ '\n' :: rest) ⟨n + 1, m⟩ =
      (splitAt? rest ⟨n, m⟩).map fun parts => (l ++ '\n' :: parts.1, parts.2) := by
  simp [splitAt?, splitAtLine_succ_append_newline h, Function.comp_def]

theorem takeUnits_isPrefix (n : Nat) (cs : List Char) : takeUnits n cs <+: cs :=
  ⟨_, takeUnits_append_drop n cs⟩

/-- A position cuts a text in two. -/
theorem splitAt?_append {text before after : List Char} {p : Position}
    (h : splitAt? text p = some (before, after)) : before ++ after = text := by
  rw [splitAt?, Option.map_eq_some_iff] at h
  obtain ⟨⟨a, b⟩, hs, he⟩ := h
  obtain ⟨rfl, rfl⟩ := Prod.mk.injEq .. ▸ he
  have hb := (takeUnits_isPrefix p.character (firstLine b)).trans <| firstLine_isPrefix b
  rw [List.append_assoc, List.prefix_iff_eq_append.1 hb, splitAtLine_append hs]

/-- The carriage return that ends a line, if one does. -/
def lastReturn (line : List Char) : List Char :=
  if line.getLast? = some '\r' then ['\r'] else []

theorem dropReturn_append_lastReturn (line : List Char) : dropReturn line ++ lastReturn line = line := by
  unfold dropReturn lastReturn
  split
  · next h =>
    obtain ⟨ys, rfl⟩ := List.getLast?_eq_some_iff.1 h
    simp
  · simp

theorem drop_length_dropReturn (line : List Char) :
    line.drop (dropReturn line).length = lastReturn line := by
  have h : (dropReturn line ++ lastReturn line).drop (dropReturn line).length = lastReturn line :=
    List.drop_left
  rwa [dropReturn_append_lastReturn] at h

/-- How a text ends is decided by what follows its first newline. -/
theorem getLast?_append_newline (l rest : List Char) :
    (l ++ '\n' :: rest).getLast? = some '\r' ↔ rest.getLast? = some '\r' := by
  cases rest with
  | nil => simp
  | cons c cs => simp [List.getLast?_append, List.getLast?_cons]

theorem lastReturn_append_newline (l rest : List Char) :
    lastReturn (l ++ '\n' :: rest) = lastReturn rest := by
  simp only [lastReturn, getLast?_append_newline]

theorem dropReturn_append_newline (l rest : List Char) :
    dropReturn (l ++ '\n' :: rest) = l ++ '\n' :: dropReturn rest := by
  have h := dropReturn_append_lastReturn (l ++ '\n' :: rest)
  rw [lastReturn_append_newline] at h
  apply List.append_cancel_right (h.trans _)
  simp [dropReturn_append_lastReturn]

end SqlLint.Text
