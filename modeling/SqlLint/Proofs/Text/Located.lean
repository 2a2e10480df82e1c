import SqlLint.Proofs.Text.Lines

/-! # Where an offset is located

An offset on the first line of a text is located by the line alone, and behind the first newline a text is located
as what follows this newline. -/
namespace SqlLint.Text

theorem takeBytes?_bytes {cs : List Char} {n : Nat} (h : bytes cs ≤ n) : takeBytes? n cs = some cs := by
  induction cs generalizing n with
  | nil => rfl
  | cons c cs ih =>
    have hc := c.utf8Size_pos
    simp only [bytes_cons] at h
    rw [takeBytes?, if_neg (by omega), if_neg (by omega), ih (by omega)]
    rfl

theorem takeUnits_units (cs : List Char) : takeUnits (units cs) cs = cs := by
  induction cs with
  | nil => rfl
  | cons c cs ih =>
    have hw : width c ≠ 0 := by unfold width; split <;> simp
    rw [takeUnits, units_cons, if_neg (by omega), Nat.add_sub_cancel_left, ih]

theorem bytes_dropReturn_le (line : List Char) : bytes (dropReturn line) ≤ bytes line := by
  have h := congrArg bytes (dropReturn_append_lastReturn line)
  rw [bytes_append] at h
  omega

/-- The last byte of a line has the column of the line's end. -/
theorem column_bytes (line : List Char) : column line (bytes line) = units (dropReturn line) := by
  rw [column, takeBytes?_bytes (bytes_dropReturn_le line)]
  rfl

theorem located_of_not_mem {l : List Char} (h : '\n' ∉ l) (offset : Nat) : located l offset = ⟨0, column l offset⟩ := by
  rw [located, lines_of_not_mem h, locate]

theorem located_of_le {l : List Char} (h : '\n' ∉ l) (rest : List Char) {offset : Nat} (inLine : offset ≤ bytes l) :
    located (l ++ '\n' :: rest) offset = ⟨0, column l offset⟩ := by
  obtain ⟨l', ls, hls⟩ := List.exists_cons_of_ne_nil (lines_ne_nil rest)
  rw [located, lines_append_newline h, hls, locate, if_pos inLine]
  simp

theorem bytes_append_newline (l rest : List Char) : bytes (l ++ '\n' :: rest) = bytes l + 1 + bytes rest := by
  have hn : ('\n').utf8Size = 1 := rfl
  rw [bytes_append, bytes_cons, hn, Nat.add_assoc]

/-- Behind the first newline a text is located as what follows this newline. -/
theorem located_append_newline {l : List Char} (h : '\n' ∉ l) (rest : List Char) (offset : Nat) :
    located (l ++ '\n' :: rest) (bytes l + 1 + offset) =
      ⟨(located rest offset).line + 1, (located rest offset).character⟩ := by
  obtain ⟨l', ls, hls⟩ := List.exists_cons_of_ne_nil (lines_ne_nil rest)
  have beyond : bytes l + 1 + offset - bytes l - 1 = offset := by omega
  simp only [located, lines_append_newline h, hls]
  rw [locate, if_neg (by omega), beyond]
  simp

end SqlLint.Text
