import SqlLint.Proofs.Text.Offsets

/-! # Replacing a whole text

The full range of a text ends where its last line ends. The last line ends in front of a carriage
return that no newline follows, and so does the range: of a text replaced by its full range exactly
such a carriage return is left. Where the editor's numbers do not reach the end of the text, the range
ends earlier, and more is left. -/
namespace SqlLint.Text

/-- The editor's numbers reach the end of a text. -/
structure HasEnd (text : List Char) : Prop where
  line_lt : text.count '\n' < Word.size 32
  character_lt : units (bareLine text (text.count '\n')) < Word.size 32

variable {text before after : List Char} {p : Position}

/-- The last byte of a text is located at the end of its last line's content. -/
theorem located_bytes (text : List Char) :
    located text (bytes text) = ⟨text.count '\n', units (bareLine text (text.count '\n'))⟩ := by
  induction text using line_induction with
  | last l h =>
    rw [located_of_not_mem h, column_bytes, List.count_eq_zero.2 h, bareLine_of_not_mem h]
  | more l rest h ih =>
    have lines : (l ++ '\n' :: rest).count '\n' = rest.count '\n' + 1 := by
      simp [List.count_eq_zero.2 h]
    rw [bytes_append_newline, located_append_newline h, ih, lines, bareLine_succ_append_newline h]

theorem HasEnd.position_bytes (h : HasEnd text) : position text (bytes text) = located text (bytes text) := by
  have ends := located_bytes text
  exact Position.words_of_lt (ends ▸ h.line_lt) (ends ▸ h.character_lt)

/-- Behind the last byte nothing is cut off but a carriage return at the very end. -/
theorem splitAt?_located_bytes (text : List Char) :
    splitAt? text (located text (bytes text)) = some (dropReturn text, lastReturn text) := by
  induction text using line_induction with
  | last l hl =>
    rw [located_of_not_mem hl, column_bytes, splitAt?_zero, firstLine_of_not_mem hl, takeUnits_units,
      drop_length_dropReturn]
  | more l rest hl ih =>
    rw [bytes_append_newline, located_append_newline hl, splitAt?_succ_append_newline hl, ih,
      dropReturn_append_newline, lastReturn_append_newline]
    rfl

theorem takeUnits_zero (cs : List Char) : takeUnits 0 cs = [] := by cases cs <;> rfl

theorem units_takeUnits_le (n : Nat) (cs : List Char) : units (takeUnits n cs) ≤ n + 1 := by
  induction cs generalizing n with
  | nil => simp [takeUnits]
  | cons c cs ih =>
    rw [takeUnits]
    split
    · simp
    · have wide : width c = 1 ∨ width c = 2 := by unfold width; split <;> simp
      have more := ih (n - width c)
      rw [units_cons]
      rcases Nat.lt_or_ge (width c) n with enough | last
      · omega
      · rw [Nat.sub_eq_zero_of_le last, takeUnits_zero, units_nil]
        omega

/-- Something is left behind a position that is not at the end of the last line. -/
theorem exists_splitAt?_of_before_end (h : p.line < text.count '\n' ∨
    (p.line = text.count '\n' ∧ p.character + 1 < units (bareLine text p.line))) :
    ∃ before after, splitAt? text p = some (before, after) ∧ after ≠ [] := by
  obtain ⟨line, character⟩ := p
  have first (text : List Char) (more : (takeUnits character (firstLine text)).length < text.length) :
      ∃ before after, splitAt? text ⟨0, character⟩ = some (before, after) ∧ after ≠ [] :=
    ⟨_, _, splitAt?_zero text character, fun none => absurd (List.drop_eq_nil_iff.1 none) (by omega)⟩
  induction text using line_induction generalizing line with
  | last l hl =>
    obtain ⟨rfl, short⟩ : line = 0 ∧ character + 1 < units (bareLine l line) := by
      simpa [List.count_eq_zero.2 hl] using h
    apply first
    have taken := takeUnits_isPrefix character (firstLine l)
    refine Nat.lt_of_le_of_ne (taken.trans (firstLine_isPrefix l)).length_le fun all => ?_
    -- were all of the line taken, it would have no more units than were asked for
    have whole := taken.eq_of_length_le (all ▸ (firstLine_isPrefix l).length_le)
    have few := units_takeUnits_le character (firstLine l)
    rw [bareLine_zero, ← whole] at short
    omega
  | more l rest hl ih =>
    cases line with
    | zero =>
      apply first
      have taken := (takeUnits_isPrefix character (firstLine (l ++ '\n' :: rest))).length_le
      rw [firstLine_append_newline hl] at taken ⊢
      have inside := congrArg List.length (dropReturn_append_lastReturn l)
      simp only [List.length_append, List.length_cons] at inside ⊢
      omega
    | succ line =>
      have h' : line < rest.count '\n' ∨ (line = rest.count '\n' ∧ character + 1 < units (bareLine rest line)) := by
        simpa [List.count_eq_zero.2 hl, bareLine_succ_append_newline hl] using h
      obtain ⟨before, after, found, left⟩ := ih line h'
      refine ⟨l ++ '\n' :: before, after, ?_, left⟩
      rw [splitAt?_succ_append_newline hl, found]
      rfl

theorem exists_splitAt?_position_bytes (h : ¬ HasEnd text) :
    ∃ before after, splitAt? text (position text (bytes text)) = some (before, after) ∧ after ≠ [] := by
  have size : Word.size 32 = 4294967296 := rfl
  apply exists_splitAt?_of_before_end
  rw [position, located_bytes]
  by_cases lines : text.count '\n' < Word.size 32
  · have long : Word.size 32 ≤ units (bareLine text (text.count '\n')) :=
      Nat.le_of_not_lt fun short => h ⟨lines, short⟩
    right
    rw [Position.words, Position.word_of_lt lines, Position.word]
    refine ⟨rfl, ?_⟩
    dsimp only
    rw [size] at long ⊢
    omega
  · left
    exact Nat.lt_of_lt_of_le (Nat.mod_lt _ (Word.size_pos 32)) (Nat.le_of_not_lt lines)

theorem splitAt?_start (text : List Char) : splitAt? text ⟨0, 0⟩ = some ([], text) := by
  rw [splitAt?_zero, takeUnits_zero]
  rfl

/-- What replaces a text up to a position is followed by what is left behind the position. -/
theorem apply_start (found : splitAt? text p = some (before, after)) (replacement : List Char) :
    Change.apply text ⟨some ⟨⟨0, 0⟩, p⟩, replacement⟩ = replacement ++ after := by
  have whole := congrArg List.length (splitAt?_append found)
  rw [List.length_append] at whole
  simp only [Change.apply, Change.around, splitAt?_start, found, Option.getD_some, List.nil_append]
  rw [if_neg (by omega)]

/-- A text whose full range is replaced becomes the replacement, behind which a carriage return at
the very end of the text stays. -/
theorem apply_fullRange (h : HasEnd text) (replacement : List Char) :
    Change.apply text ⟨some (fullRange text), replacement⟩ = replacement ++ lastReturn text := by
  rw [fullRange, h.position_bytes, apply_start (splitAt?_located_bytes text)]

theorem lastReturn_eq_nil_iff : lastReturn text = [] ↔ text.getLast? ≠ some '\r' := by
  unfold lastReturn
  split <;> simp_all

/-- The replacement of a full range is exact if and only if the range has the end of the text and the
text does not end in a carriage return. -/
theorem apply_fullRange_eq_iff (text replacement : List Char) :
    Change.apply text ⟨some (fullRange text), replacement⟩ = replacement ↔
      HasEnd text ∧ text.getLast? ≠ some '\r' := by
  by_cases h : HasEnd text
  · rw [apply_fullRange h, List.append_right_eq_self, lastReturn_eq_nil_iff]
    exact (and_iff_right h).symm
  · obtain ⟨before, after, found, left⟩ := exists_splitAt?_position_bytes h
    rw [fullRange, apply_start found, List.append_right_eq_self]
    exact iff_of_false left fun reached => h reached.1

end SqlLint.Text
