import SqlLint.Proofs.Text.Columns
import Mathlib.Data.List.DropRight

/-! # Places of a text

A place of a text is told by what stands in front of it and behind it. A position whose units are those
of the first characters of a line denotes the place behind these characters. -/
namespace SqlLint.Text

/-- What stands on the line behind which a text ends. -/
def openLine (before : List Char) : List Char := before.rtakeWhile (· ≠ '\n')

/-- A text is cut in front of the character at a line and a column, both from zero. -/
structure IsCut (text : List Char) (line column : Nat) (before after : List Char) : Prop where
  append : before ++ after = text
  line_eq : before.count '\n' = line
  column_eq : (openLine before).length = column

/-- What follows the content of a line. -/
inductive EndsLine (before : List Char) : List Char → Prop
  | text : EndsLine before []
  | newline (rest : List Char) (bare : before.getLast? ≠ some '\r') : EndsLine before ('\n' :: rest)
  | returned (rest : List Char) : EndsLine before ('\r' :: '\n' :: rest)

variable {l text before after : List Char} {line column k : Nat}

@[simp] theorem openLine_of_not_mem (h : '\n' ∉ before) : openLine before = before := by
  rw [openLine, List.rtakeWhile_eq_self_iff]
  intro c hc
  have other : c ≠ '\n' := fun same => h (same ▸ hc)
  simpa using other

@[simp] theorem openLine_append_newline (l before : List Char) :
    openLine (l ++ '\n' :: before) = openLine before := by
  induction before using List.reverseRecOn with
  | nil => simp [openLine]
  | append_singleton before c ih =>
    have joined : l ++ '\n' :: (before ++ [c]) = (l ++ '\n' :: before) ++ [c] := by simp
    rw [openLine] at ih
    rw [joined, openLine, openLine, List.rtakeWhile_concat, List.rtakeWhile_concat, ih, openLine]

theorem IsCut.behind_line (h : '\n' ∉ l) (cut : IsCut text line column before after) :
    IsCut (l ++ '\n' :: text) (line + 1) column (l ++ '\n' :: before) after where
  append := by simp [cut.append]
  line_eq := by simp [List.count_eq_zero.2 h, cut.line_eq]
  column_eq := by simp [cut.column_eq]

theorem EndsLine.behind_line (l : List Char) (h : EndsLine before after) :
    EndsLine (l ++ '\n' :: before) after := by
  cases h with
  | text => exact .text
  | returned => exact .returned _
  | newline rest bare => exact .newline rest fun last => bare ((getLast?_append_newline l before).1 last)

theorem openLine_append_of_not_mem (h : '\n' ∉ after) (before : List Char) :
    openLine (before ++ after) = openLine before ++ after := by
  induction after using List.reverseRecOn with
  | nil => simp
  | append_singleton after c ih =>
    obtain ⟨hafter, hc⟩ : '\n' ∉ after ∧ c ≠ '\n' := by simpa [eq_comm] using h
    rw [← List.append_assoc, openLine, List.rtakeWhile_concat_pos _ _ _ (by simpa using hc), ← List.append_assoc]
    exact congrArg (· ++ [c]) (ih hafter)

/-- Cuts of a text are in the order of their lines and columns. -/
theorem IsCut.prefix_of_le {line' column' : Nat} {before' after' : List Char}
    (cut : IsCut text line column before after) (other : IsCut text line' column' before' after')
    (order : line < line' ∨ (line = line' ∧ column ≤ column')) : before <+: before' := by
  have one : before <+: text := ⟨after, cut.append⟩
  have two : before' <+: text := ⟨after', other.append⟩
  rcases List.prefix_or_prefix_of_prefix one two with shorter | ⟨rest, rfl⟩
  · exact shorter
  -- what the first text has more stands on the same line and in front of its column, so it is nothing
  have lines := cut.line_eq
  rw [List.count_append, other.line_eq] at lines
  have none : '\n' ∉ rest := List.count_eq_zero.1 (by omega)
  have columns := cut.column_eq
  rw [openLine_append_of_not_mem none, List.length_append, other.column_eq] at columns
  have empty : rest = [] := List.eq_nil_of_length_eq_zero (by omega)
  simp [empty]

theorem newline_not_mem_dropReturn (h : '\n' ∉ l) : '\n' ∉ dropReturn l := by
  intro mem
  apply h
  rw [← dropReturn_append_lastReturn l]
  exact List.mem_append_left _ mem

theorem newline_not_mem_firstLine (text : List Char) : '\n' ∉ firstLine text := by
  apply newline_not_mem_dropReturn
  intro mem
  simpa using List.mem_takeWhile_imp mem

/-- The content of a line that ends in front of a carriage return, whatever follows it. -/
def bareLine (text : List Char) (line : Nat) : List Char := dropReturn ((lines text).getD line [])

theorem bareLine_of_not_mem (h : '\n' ∉ l) : bareLine l 0 = dropReturn l := by
  rw [bareLine, lines_of_not_mem h]
  rfl

theorem bareLine_zero_append_newline (h : '\n' ∉ l) (rest : List Char) :
    bareLine (l ++ '\n' :: rest) 0 = dropReturn l := by
  rw [bareLine, lines_append_newline h]
  rfl

theorem bareLine_succ_append_newline (h : '\n' ∉ l) (rest : List Char) (n : Nat) :
    bareLine (l ++ '\n' :: rest) (n + 1) = bareLine rest n := by
  rw [bareLine, bareLine, lines_append_newline h, List.getD_cons_succ]

theorem bareLine_zero (text : List Char) : bareLine text 0 = firstLine text := by
  by_cases hn : '\n' ∈ text
  · obtain ⟨l, rest, rfl, hl⟩ := List.eq_append_cons_of_mem hn
    rw [bareLine_zero_append_newline hl, firstLine_append_newline hl]
  · rw [bareLine_of_not_mem hn, firstLine_of_not_mem hn]

theorem content?_succ_append_newline (h : '\n' ∉ l) (rest : List Char) (n : Nat) :
    content? (l ++ '\n' :: rest) (n + 1) = content? rest n := by
  rw [content?, content?, lines_append_newline h]
  cases more : lines rest with
  | nil => exact absurd more (lines_ne_nil rest)
  | cons => rfl

/-- Unless a text ends in a carriage return, its readers agree on what a line is. -/
theorem lineContent_eq_bareLine (ends : text.getLast? ≠ some '\r') (line : Nat) :
    lineContent text line = bareLine text line := by
  induction text using line_induction generalizing line with
  | last l h =>
    rw [lineContent, content?, bareLine, lines_of_not_mem h]
    cases line with
    | zero => cases l <;> simp_all [contentOf?, dropReturn]
    | succ line => rfl
  | more l rest h ih =>
    cases line with
    | zero =>
      rw [bareLine_zero_append_newline h, lineContent, content?, lines_append_newline h]
      cases more : lines rest with
      | nil => exact absurd more (lines_ne_nil rest)
      | cons => rfl
    | succ line =>
      have ends' : rest.getLast? ≠ some '\r' := fun last => ends ((getLast?_append_newline l rest).2 last)
      rw [bareLine_succ_append_newline h, ← ih ends', lineContent, content?_succ_append_newline h, lineContent]

/-- What follows the content of the first line ends this line. -/
theorem endsLine_firstLine (text : List Char) (ends : text.getLast? ≠ some '\r') :
    EndsLine (firstLine text) (text.drop (firstLine text).length) := by
  by_cases hn : '\n' ∈ text
  · obtain ⟨l, rest, rfl, hl⟩ := List.eq_append_cons_of_mem hn
    have shorter : (dropReturn l).length ≤ l.length := by
      have whole := congrArg List.length (dropReturn_append_lastReturn l)
      rw [List.length_append] at whole
      omega
    rw [firstLine_append_newline hl, List.drop_append_of_le_length shorter, drop_length_dropReturn]
    by_cases last : l.getLast? = some '\r'
    · rw [lastReturn, if_pos last]
      exact .returned rest
    · rw [lastReturn, if_neg last, dropReturn, if_neg last]
      exact .newline rest last
  · rw [firstLine_of_not_mem hn, dropReturn, if_neg ends, List.drop_length]
    exact .text

/-- Units counted on a line lead behind as many characters of this line. -/
theorem exists_isCut_bareLine (hl : line ≤ text.count '\n') (hk : k ≤ (bareLine text line).length) :
    ∃ before after, splitAt? text ⟨line, units ((bareLine text line).take k)⟩ = some (before, after) ∧
      IsCut text line k before after ∧
      (text.getLast? ≠ some '\r' → k = (bareLine text line).length → EndsLine before after) := by
  have first (text : List Char) (hk : k ≤ (bareLine text 0).length) :
      ∃ before after, splitAt? text ⟨0, units ((bareLine text 0).take k)⟩ = some (before, after) ∧
        IsCut text 0 k before after ∧
        (text.getLast? ≠ some '\r' → k = (bareLine text 0).length → EndsLine before after) := by
    rw [bareLine_zero] at hk ⊢
    have found := splitAt?_zero text (units ((firstLine text).take k))
    rw [takeUnits_units_take] at found
    have one : '\n' ∉ (firstLine text).take k :=
      fun mem => newline_not_mem_firstLine text (List.mem_of_mem_take mem)
    refine ⟨_, _, found, ⟨splitAt?_append found, List.count_eq_zero.2 one, by simp [one, hk]⟩, fun ends all => ?_⟩
    rw [all, List.take_length]
    exact endsLine_firstLine text ends
  induction text using line_induction generalizing line with
  | last l h =>
    obtain rfl : line = 0 := by simpa [List.count_eq_zero.2 h] using hl
    exact first l hk
  | more l rest h ih =>
    cases line with
    | zero => exact first _ hk
    | succ line =>
      rw [bareLine_succ_append_newline h] at hk ⊢
      have hl' : line ≤ rest.count '\n' := by
        rw [List.count_append, List.count_cons_self] at hl
        have none := List.count_eq_zero.2 h
        omega
      obtain ⟨before, after, found, cut, stops⟩ := ih hl' hk
      refine ⟨l ++ '\n' :: before, after, ?_, cut.behind_line h, fun ends all => ?_⟩
      · rw [splitAt?_succ_append_newline h, found]
        rfl
      · exact (stops (fun last => ends ((getLast?_append_newline l rest).2 last)) all).behind_line l

theorem exists_isCut (ends : text.getLast? ≠ some '\r') (hl : line ≤ text.count '\n')
    (hk : k ≤ (lineContent text line).length) :
    ∃ before after, splitAt? text ⟨line, units ((lineContent text line).take k)⟩ = some (before, after) ∧
      IsCut text line k before after ∧ (k = (lineContent text line).length → EndsLine before after) := by
  rw [lineContent_eq_bareLine ends] at hk ⊢
  obtain ⟨before, after, found, cut, stops⟩ := exists_isCut_bareLine hl hk
  exact ⟨before, after, found, cut, stops ends⟩

end SqlLint.Text
