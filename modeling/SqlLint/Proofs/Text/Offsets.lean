import SqlLint.Proofs.Text.Places

/-! # Offsets and positions

The position of a place counts the lines in front of it and the units in front of it on its line. The two ways
are inverse: a position of a text comes back from the offset that it denotes, and an offset between two characters
comes back from its position. Only behind a carriage return that ends a line there is no position, and such a place
counts as the one in front of the carriage return. -/
namespace SqlLint.Text

/-- A carriage return in front of a place ends the line: a newline follows it, or nothing. -/
def AfterReturn (before after : List Char) : Prop :=
  before.getLast? = some '\r' ∧ (after = [] ∨ after.head? = some '\n')

variable {l text before after : List Char} {line column k : Nat}

theorem takeBytes?_append (as bs : List Char) : takeBytes? (bytes as) (as ++ bs) = some as := by
  induction as with
  | nil => cases bs <;> rfl
  | cons c as ih =>
    have positive := c.utf8Size_pos
    rw [bytes_cons, List.cons_append, takeBytes?, if_neg (by omega), if_neg (by omega), Nat.add_sub_cancel_left, ih]
    rfl

/-- Characters of a line beyond its content do not count. -/
theorem column_take (line : List Char) (k : Nat) :
    Text.column line (bytes (line.take k)) = units ((dropReturn line).take k) := by
  have whole := dropReturn_append_lastReturn line
  rcases Nat.le_total k (dropReturn line).length with inside | beyond
  · have same : line.take k = (dropReturn line).take k := by
      conv_lhs => rw [← whole]
      exact List.take_append_of_le_length inside
    have found := takeBytes?_append ((dropReturn line).take k) ((dropReturn line).drop k)
    rw [List.take_append_drop] at found
    rw [Text.column, same, found]
    rfl
  · have all : bytes (dropReturn line) ≤ bytes (line.take k) := by
      conv_rhs => rw [← whole, List.take_append, List.take_of_length_le beyond, bytes_append]
      omega
    rw [Text.column, takeBytes?_bytes all, List.take_of_length_le beyond]
    rfl

/-! ## Cuts on the first line and behind it -/

theorem IsCut.of_not_mem (h : '\n' ∉ l) (cut : IsCut l line k before after) :
    line = 0 ∧ k ≤ l.length ∧ before = l.take k ∧ after = l.drop k := by
  obtain ⟨rfl, rfl, rfl⟩ := cut
  have none : '\n' ∉ before := fun mem => h (List.mem_append_left _ mem)
  simp [List.count_eq_zero.2 none, none]

/-- A cut is on the first line of a text, or it cuts what follows this line. -/
theorem IsCut.cases_line (h : '\n' ∉ l) {rest : List Char} (cut : IsCut (l ++ '\n' :: rest) line k before after) :
    (line = 0 ∧ k ≤ l.length ∧ before = l.take k ∧ after = l.drop k ++ '\n' :: rest) ∨
      ∃ line' before', line = line' + 1 ∧ before = l ++ '\n' :: before' ∧ IsCut rest line' k before' after := by
  obtain ⟨whole, rfl, rfl⟩ := cut
  rcases List.append_eq_append_iff.1 whole with ⟨more, rfl, rfl⟩ | ⟨more, rfl, same⟩
  · have none : '\n' ∉ before := fun mem => h (List.mem_append_left _ mem)
    left
    simp [List.count_eq_zero.2 none, none]
  · cases more with
    | nil =>
      left
      rw [List.append_nil, List.nil_append] at *
      simp [List.count_eq_zero.2 h, h, same]
    | cons c more =>
      obtain ⟨rfl, rfl⟩ := List.cons.inj same
      right
      exact ⟨more.count '\n', more, by simp [List.count_eq_zero.2 h], rfl, rfl, rfl, by simp⟩

theorem IsCut.unique {before' after' : List Char} (cut : IsCut text line k before after)
    (other : IsCut text line k before' after') : before = before' := by
  have one := cut.prefix_of_le other (.inr ⟨rfl, Nat.le_refl k⟩)
  have two := other.prefix_of_le cut (.inr ⟨rfl, Nat.le_refl k⟩)
  exact one.eq_of_length_le two.length_le

/-! ## The position of a place -/

/-- Where a cut is located, also when it is behind the content of its line. -/
theorem located_of_isCut (cut : IsCut text line k before after) :
    located text (bytes before) = ⟨line, units ((bareLine text line).take k)⟩ := by
  induction text using line_induction generalizing line before with
  | last l h =>
    obtain ⟨rfl, -, rfl, -⟩ := cut.of_not_mem h
    rw [located_of_not_mem h, bareLine_of_not_mem h, column_take]
  | more l rest h ih =>
    rcases cut.cases_line h with ⟨rfl, -, rfl, -⟩ | ⟨line, before, rfl, rfl, cut'⟩
    · have inLine : bytes (l.take k) ≤ bytes l := by
        conv_rhs => rw [← List.take_append_drop k l, bytes_append]
        omega
      rw [located_of_le h rest inLine, bareLine_zero_append_newline h, column_take]
    · rw [bytes_append_newline, located_append_newline h, bareLine_succ_append_newline h, ih cut']

/-- Of the places on a line only the last one may be behind a carriage return that ends the line. -/
theorem afterReturn_iff (hk : k ≤ l.length) (h : '\n' ∉ l) {rest : List Char} (ends : rest = [] ∨ rest.head? = some '\n') :
    AfterReturn (l.take k) (l.drop k ++ rest) ↔ l.getLast? = some '\r' ∧ k = l.length := by
  constructor
  · rintro ⟨last, stops⟩
    cases behind : l.drop k with
    | nil =>
      have all : k = l.length := Nat.le_antisymm hk (List.drop_eq_nil_iff.1 behind)
      rw [all, List.take_length] at last
      exact ⟨last, all⟩
    | cons c cs =>
      have mem : c ∈ l := List.mem_of_mem_drop (i := k) (by simp [behind])
      have newline : c = '\n' := by simpa [behind] using stops
      exact absurd (newline ▸ mem) h
  · rintro ⟨last, rfl⟩
    simpa [AfterReturn, last] using ends

theorem length_dropReturn (l : List Char) :
    (dropReturn l).length + (if l.getLast? = some '\r' then 1 else 0) = l.length := by
  have whole := congrArg List.length (dropReturn_append_lastReturn l)
  rw [List.length_append, lastReturn] at whole
  split at whole <;> simpa [*] using whole

/-- The places on a line that are not behind the carriage return at its end are those of its content. -/
theorem le_length_dropReturn_iff (hk : k ≤ l.length) (h : '\n' ∉ l) {rest : List Char}
    (ends : rest = [] ∨ rest.head? = some '\n') :
    k ≤ (dropReturn l).length ↔ ¬ AfterReturn (l.take k) (l.drop k ++ rest) := by
  have lengths := length_dropReturn l
  rw [afterReturn_iff hk h ends]
  split at lengths
  · next last =>
    simp only [last, true_and]
    omega
  · next last =>
    simp only [last, false_and, not_false_eq_true, iff_true]
    omega

theorem afterReturn_append_newline (l : List Char) :
    AfterReturn (l ++ '\n' :: before) after ↔ AfterReturn before after := by
  rw [AfterReturn, AfterReturn, getLast?_append_newline]

theorem IsCut.le_length_iff (cut : IsCut text line k before after) :
    k ≤ (bareLine text line).length ↔ ¬ AfterReturn before after := by
  induction text using line_induction generalizing line before with
  | last l h =>
    obtain ⟨rfl, inLine, rfl, rfl⟩ := cut.of_not_mem h
    have here := le_length_dropReturn_iff inLine h (.inl rfl)
    rwa [List.append_nil, ← bareLine_of_not_mem h] at here
  | more l rest h ih =>
    rcases cut.cases_line h with ⟨rfl, inLine, rfl, rfl⟩ | ⟨line, before, rfl, rfl, cut'⟩
    · rw [bareLine_zero_append_newline h]
      exact le_length_dropReturn_iff inLine h (.inr rfl)
    · rw [bareLine_succ_append_newline h, afterReturn_append_newline]
      exact ih cut'

/-! ## There and back -/

theorem eq_of_bytes_eq (shorter : before <+: text) (same : bytes before = bytes text) : before = text := by
  obtain ⟨rest, rfl⟩ := shorter
  cases rest with
  | nil => simp
  | cons c rest =>
    have positive := c.utf8Size_pos
    rw [bytes_append, bytes_cons] at same
    omega

theorem isCut_of_append (h : before ++ after = text) :
    IsCut text (before.count '\n') (openLine before).length before after := ⟨h, rfl, rfl⟩

theorem IsCut.line_le (cut : IsCut text line k before after) : line ≤ text.count '\n' := by
  obtain ⟨rfl, rfl, -⟩ := cut
  rw [List.count_append]
  omega

/-- The offset of a place comes back unless the place is behind a carriage return that ends its line. -/
theorem offset?_located_iff (h : before ++ after = text) :
    offset? text (located text (bytes before)) = some (bytes before) ↔ ¬ AfterReturn before after := by
  have cut := isCut_of_append h
  rw [← cut.le_length_iff, located_of_isCut cut, List.take_eq_take_min]
  generalize (openLine before).length = k at cut ⊢
  -- what is located denotes the last place on the line that is not behind the one that is located
  obtain ⟨before', after', found, cut', -⟩ := exists_isCut_bareLine cut.line_le (Nat.min_le_right k _)
  rw [offset?, found, Option.map_some, Option.some.injEq]
  constructor
  · intro same
    have shorter := cut'.prefix_of_le cut (.inr ⟨rfl, Nat.min_le_left _ _⟩)
    obtain rfl := eq_of_bytes_eq shorter same
    have columns := cut.column_eq.symm.trans cut'.column_eq
    omega
  · intro inLine
    rw [Nat.min_eq_left inLine] at cut'
    rw [cut'.unique cut]

/-- A position of a text is the one of the offset that it denotes. -/
theorem exists_offset?_eq (inText : line ≤ text.count '\n') (start : before <+: bareLine text line) :
    ∃ offset, offset? text ⟨line, units before⟩ = some offset ∧ located text offset = ⟨line, units before⟩ := by
  rw [List.prefix_iff_eq_take.1 start]
  obtain ⟨front, back, found, cut, -⟩ := exists_isCut_bareLine inText start.length_le
  refine ⟨bytes front, ?_, located_of_isCut cut⟩
  rw [offset?, found]
  rfl

/-- Inside the two characters that end a line is the end of its content. -/
theorem located_succ_of_return (h : before ++ '\r' :: '\n' :: after = text) :
    located text (bytes before + 1) = ⟨before.count '\n', units (bareLine text (before.count '\n'))⟩ ∧
      located text (bytes before + 1) = located text (bytes before) := by
  have cut := isCut_of_append h
  have cut' : IsCut text (before.count '\n') ((openLine before).length + 1) (before ++ ['\r']) ('\n' :: after) := by
    constructor
    · rw [← h, List.append_assoc, List.singleton_append]
    · simp
    · rw [openLine_append_of_not_mem (by simp), List.length_append, List.length_singleton]
  have inLine : (openLine before).length ≤ (bareLine text (before.count '\n')).length :=
    cut.le_length_iff.2 fun ⟨_, stops⟩ => by simp at stops
  have beyond : ¬ (openLine before).length + 1 ≤ (bareLine text (before.count '\n')).length := fun inside =>
    cut'.le_length_iff.1 inside ⟨by simp, .inr rfl⟩
  have size : bytes (before ++ ['\r']) = bytes before + 1 := by rw [bytes_append]; rfl
  rw [← size, located_of_isCut cut', located_of_isCut cut, List.take_of_length_le (by omega),
    List.take_of_length_le (by omega)]
  exact ⟨rfl, rfl⟩

/-! ## The editor's numbers -/

/-- The editor's numbers count the newlines of a text and the units of each of its lines. -/
structure IsCountable (text : List Char) : Prop where
  line_lt : text.count '\n' < Word.size 32
  units_lt : ∀ l ∈ lines text, units (dropReturn l) < Word.size 32

theorem IsCountable.units_bareLine_lt (h : IsCountable text) (line : Nat) : units (bareLine text line) < Word.size 32 := by
  rw [bareLine, List.getD_eq_getElem?_getD]
  cases found : (lines text)[line]? with
  | none => exact Word.size_pos 32
  | some l => exact h.units_lt l (List.mem_of_getElem? found)

theorem takeBytes?_isPrefix {n : Nat} {cs taken : List Char} (h : takeBytes? n cs = some taken) : taken <+: cs := by
  induction cs generalizing n taken with
  | nil => simp_all [takeBytes?]
  | cons c cs ih =>
    rw [takeBytes?] at h
    split at h
    · simp_all
    · split at h
      · cases h
      · obtain ⟨more, found, rfl⟩ := Option.map_eq_some_iff.1 h
        exact (List.prefix_cons_inj c).2 (ih found)

theorem column_le (l : List Char) (offset : Nat) : Text.column l offset ≤ units (dropReturn l) := by
  rw [Text.column]
  cases found : takeBytes? offset (dropReturn l) with
  | none => exact Nat.le_refl _
  | some taken =>
    rw [Option.getD_some, List.prefix_iff_eq_take.1 (takeBytes?_isPrefix found)]
    exact units_take_le_units _ _

/-- An offset is located on a line of the text, not behind this line's content. -/
theorem located_le (text : List Char) (offset : Nat) :
    (located text offset).line ≤ text.count '\n' ∧
      (located text offset).character ≤ units (bareLine text (located text offset).line) := by
  induction text using line_induction generalizing offset with
  | last l h =>
    rw [located_of_not_mem h, bareLine_of_not_mem h]
    exact ⟨Nat.zero_le _, column_le l offset⟩
  | more l rest h ih =>
    rcases Nat.lt_or_ge (bytes l) offset with beyond | inLine
    · obtain ⟨more, rfl⟩ := Nat.exists_eq_add_of_le (Nat.succ_le_of_lt beyond)
      have inside := ih more
      rw [located_append_newline h, bareLine_succ_append_newline h, List.count_append, List.count_cons_self]
      exact ⟨by dsimp only; omega, inside.2⟩
    · rw [located_of_le h rest inLine, bareLine_zero_append_newline h]
      exact ⟨Nat.zero_le _, column_le l offset⟩

theorem IsCountable.position_eq (h : IsCountable text) (offset : Nat) : position text offset = located text offset := by
  obtain ⟨line, character⟩ := located_le text offset
  exact Position.words_of_lt (Nat.lt_of_le_of_lt line h.line_lt) (Nat.lt_of_le_of_lt character (h.units_bareLine_lt _))

/-- For every text that the editor's numbers count: the offset of a place between two characters comes back from its
position exactly if the place is not behind a carriage return that ends its line, and each position on the content of a
line comes back from its offset. The place between the two characters that end a line has the position of the end of
the line's content. -/
theorem offset?_position (text : List Char) (countable : IsCountable text) :
    (∀ before after, before ++ after = text →
      (offset? text (position text (bytes before)) = some (bytes before) ↔ ¬ AfterReturn before after)) ∧
    (∀ line start, line ≤ text.count '\n' → start <+: bareLine text line →
      ∃ offset, offset? text ⟨line, units start⟩ = some offset ∧ position text offset = ⟨line, units start⟩) ∧
    (∀ before after, before ++ '\r' :: '\n' :: after = text →
      position text (bytes before + 1) = ⟨before.count '\n', units (bareLine text (before.count '\n'))⟩ ∧
        offset? text (position text (bytes before + 1)) = some (bytes before)) := by
  simp only [countable.position_eq]
  refine ⟨fun before after h => offset?_located_iff h, fun line start inText h => exists_offset?_eq inText h,
    fun before after h => ?_⟩
  obtain ⟨ends, same⟩ := located_succ_of_return h
  refine ⟨ends, ?_⟩
  rw [same, offset?_located_iff h]
  rintro ⟨-, stops⟩
  simp at stops

/-- A text whose lines end in both ways and in a bare carriage return. -/
def mixedLines : List Char := "é\r\n😀b\n\r".toList

theorem offset?_position_mixedLines :
    offset? mixedLines (position mixedLines 4) = some 4 ∧ offset? mixedLines (position mixedLines 11) ≠ some 11 ∧
      (∃ offset, offset? mixedLines ⟨1, 2⟩ = some offset ∧ position mixedLines offset = ⟨1, 2⟩) ∧
      position mixedLines 3 = ⟨0, 1⟩ := by
  obtain ⟨there, back, inside⟩ := offset?_position mixedLines ⟨by decide, by decide⟩
  refine ⟨(there "é\r\n".toList "😀b\n\r".toList rfl).2 ?_, fun same => ?_, back 1 "😀".toList (by decide) ?_,
    (inside "é".toList "😀b\n\r".toList rfl).1⟩
  · rintro ⟨last, -⟩
    exact absurd last (by decide)
  · exact (there mixedLines [] (by simp)).1 same ⟨rfl, .inl rfl⟩
  · exact ⟨"b".toList, rfl⟩

end SqlLint.Text
