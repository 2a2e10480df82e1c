import SqlLint.Proofs.Text.Changes

/-! # Where offsets lie

A position has an offset exactly if the text has its line. The offset lies on this line: it is the start of the line
and what the position's units take of its content. So offsets are in the order of their positions. -/
namespace SqlLint.Text

/-- The bytes in front of a line. Each line above it has a newline. -/
def lineStart (text : List Char) (line : Nat) : Nat := (((lines text).take line).map fun l => bytes l + 1).sum

/-- The bytes in front of what ends a line. -/
def contentEnd (text : List Char) (line : Nat) : Nat := lineStart text line + bytes (bareLine text line)

variable {l text : List Char} {p q : Position}

theorem lineStart_zero (text : List Char) : lineStart text 0 = 0 := rfl

theorem lineStart_succ_append_newline (h : '\n' ∉ l) (rest : List Char) (n : Nat) :
    lineStart (l ++ '\n' :: rest) (n + 1) = bytes l + 1 + lineStart rest n := by
  rw [lineStart, lines_append_newline h, List.take_succ_cons, List.map_cons, List.sum_cons, lineStart]

theorem offset?_succ_append_newline (h : '\n' ∉ l) (rest : List Char) (n m : Nat) :
    offset? (l ++ '\n' :: rest) ⟨n + 1, m⟩ = (offset? rest ⟨n, m⟩).map (bytes l + 1 + ·) := by
  rw [offset?, splitAt?_succ_append_newline h, offset?, Option.map_map, Option.map_map]
  refine congrArg (Option.map · _) (funext fun parts => ?_)
  exact bytes_append_newline l parts.1

theorem offset?_zero (text : List Char) (m : Nat) :
    offset? text ⟨0, m⟩ = some (bytes (takeUnits m (bareLine text 0))) := by
  rw [offset?, splitAt?_zero, bareLine_zero]
  rfl

/-- The offset of a position, line by line. -/
theorem offset?_eq (text : List Char) (n m : Nat) : offset? text ⟨n, m⟩ =
    if n ≤ text.count '\n' then some (lineStart text n + bytes (takeUnits m (bareLine text n))) else none := by
  induction text using line_induction generalizing n with
  | last l h =>
    cases n with
    | zero => rw [offset?_zero, if_pos (Nat.zero_le _), lineStart_zero, Nat.zero_add]
    | succ n =>
      rw [offset?, splitAt?_succ_of_not_mem h, List.count_eq_zero.2 h, if_neg (by omega)]
      rfl
  | more l rest h ih =>
    cases n with
    | zero => rw [offset?_zero, if_pos (Nat.zero_le _), lineStart_zero, Nat.zero_add]
    | succ n =>
      have lines : (l ++ '\n' :: rest).count '\n' = rest.count '\n' + 1 := by
        rw [List.count_append, List.count_cons_self, List.count_eq_zero.2 h, Nat.zero_add]
      rw [offset?_succ_append_newline h, ih, lineStart_succ_append_newline h, bareLine_succ_append_newline h, lines]
      by_cases inText : n ≤ rest.count '\n'
      · rw [if_pos inText, if_pos (by omega), Option.map_some, ← Nat.add_assoc]
      · rw [if_neg inText, if_neg (by omega), Option.map_none]

theorem offset?_eq_none_iff (text : List Char) (p : Position) : offset? text p = none ↔ text.count '\n' < p.line := by
  obtain ⟨n, m⟩ := p
  rw [offset?_eq]
  split <;> simp only [reduceCtorEq, false_iff, true_iff] <;> omega

theorem bytes_le_bytes {front whole : List Char} (h : front <+: whole) : bytes front ≤ bytes whole := by
  obtain ⟨rest, rfl⟩ := h
  rw [bytes_append]
  omega

/-- An offset lies on the line of its position. -/
theorem mem_line_of_offset? {o : Nat} (found : offset? text p = some o) :
    lineStart text p.line ≤ o ∧ o ≤ contentEnd text p.line := by
  obtain ⟨n, m⟩ := p
  rw [offset?_eq] at found
  split at found
  · obtain rfl := Option.some.inj found
    have inLine := bytes_le_bytes (takeUnits_isPrefix m (bareLine text n))
    rw [contentEnd]
    exact ⟨Nat.le_add_right _ _, Nat.add_le_add_left inLine _⟩
  · cases found

/-- For every text: a position has no offset exactly if the text has fewer newlines than its line counts, and offsets
are in the order of their positions, each of them between the start of its line and the end of the line's content. -/
theorem offset?_bounds (text : List Char) :
    (∀ p, offset? text p = none ↔ text.count '\n' < p.line) ∧
    (∀ p o, offset? text p = some o → lineStart text p.line ≤ o ∧ o ≤ contentEnd text p.line) ∧
    ∀ p q a b, CodeUnits.before p q → offset? text p = some a → offset? text q = some b → a ≤ b := by
  refine ⟨offset?_eq_none_iff text, fun p o found => mem_line_of_offset? found, fun p q a b order ha hb => ?_⟩
  have ordered := resolved_le_of_before text order
  rwa [resolved, ha, resolved, hb] at ordered

/-- A text with a character of two units, whose last line ends in a bare carriage return. -/
theorem offset?_bounds_returned : offset? "a😀\r\né\r".toList ⟨2, 0⟩ = none ∧
    (lineStart "a😀\r\né\r".toList 1 ≤ 9 ∧ 9 ≤ contentEnd "a😀\r\né\r".toList 1) ∧
    CodeUnits.before ⟨0, 2⟩ ⟨1, 7⟩ ∧ offset? "a😀\r\né\r".toList ⟨0, 2⟩ = some 5 ∧
    offset? "a😀\r\né\r".toList ⟨1, 7⟩ = some 9 ∧ 5 ≤ 9 := by
  obtain ⟨missing, inLine, ordered⟩ := offset?_bounds "a😀\r\né\r".toList
  have order : CodeUnits.before ⟨0, 2⟩ ⟨1, 7⟩ := .inl (by decide)
  have inside : offset? "a😀\r\né\r".toList ⟨0, 2⟩ = some 5 := by decide
  have beyond : offset? "a😀\r\né\r".toList ⟨1, 7⟩ = some 9 := by decide
  exact ⟨(missing ⟨2, 0⟩).2 (by decide), inLine ⟨1, 7⟩ 9 beyond, order, inside, beyond,
    ordered _ _ 5 9 order inside beyond⟩

end SqlLint.Text
