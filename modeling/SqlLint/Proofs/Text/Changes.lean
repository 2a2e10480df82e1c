import SqlLint.Proofs.Text.Offsets

/-! # Ranged changes

A change works with two offsets of the text: that of the start of its range, and that of the end or, if this lies in
front of the start, of the start again. Whatever lines and units a range counts, both offsets are between two
characters of the text, and what lies between them is replaced. -/
namespace SqlLint

namespace Text

variable {text before after : List Char} {p q : Position} {line m m' : Nat}

/-- The bytes in front of a position. A position beyond the last line is the end of the text. -/
def resolved (text : List Char) (p : Position) : Nat := (offset? text p).getD (bytes text)

/-- The offset at which a range is taken to end: never in front of where it starts. -/
def resolvedEnd (text : List Char) (range : Range) : Nat := max (resolved text range.stop) (resolved text range.start)

theorem resolved_eq (text : List Char) (p : Position) : resolved text p = bytes (CodeUnits.cut text p).1 := by
  rw [resolved, offset?, CodeUnits.cut]
  cases splitAt? text p with
  | none => rfl
  | some parts => rfl

theorem takeUnits_prefix_of_le (cs : List Char) (h : m ≤ m') : takeUnits m cs <+: takeUnits m' cs := by
  induction cs generalizing m m' with
  | nil => exact List.prefix_rfl
  | cons c cs ih =>
    rw [takeUnits, takeUnits]
    by_cases hm : m = 0
    · rw [if_pos hm]
      exact List.nil_prefix
    · rw [if_neg hm, if_neg (by omega)]
      exact List.prefix_cons_inj c |>.2 (ih (by omega))

theorem cut_zero (text : List Char) (m : Nat) : (CodeUnits.cut text ⟨0, m⟩).1 = takeUnits m (firstLine text) := by
  rw [CodeUnits.cut, splitAt?_zero]
  rfl

theorem cut_succ_of_not_mem {l : List Char} (h : '\n' ∉ l) (n m : Nat) : (CodeUnits.cut l ⟨n + 1, m⟩).1 = l := by
  rw [CodeUnits.cut, splitAt?_succ_of_not_mem h]
  rfl

theorem cut_succ_append_newline {l : List Char} (h : '\n' ∉ l) (rest : List Char) (n m : Nat) :
    (CodeUnits.cut (l ++ '\n' :: rest) ⟨n + 1, m⟩).1 = l ++ '\n' :: (CodeUnits.cut rest ⟨n, m⟩).1 := by
  rw [CodeUnits.cut, splitAt?_succ_append_newline h, CodeUnits.cut]
  cases splitAt? rest ⟨n, m⟩ with
  | none => rfl
  | some parts => rfl

/-- In front of a later position stands no less. -/
theorem cut_isPrefix_of_before (text : List Char) (h : CodeUnits.before p q) :
    (CodeUnits.cut text p).1 <+: (CodeUnits.cut text q).1 := by
  obtain ⟨n, m⟩ := p
  obtain ⟨n', m'⟩ := q
  induction text using line_induction generalizing n n' with
  | last l hl =>
    have inText (n m : Nat) : (CodeUnits.cut l ⟨n, m⟩).1 <+: l := ⟨_, CodeUnits.cut_append l _⟩
    rcases h with h | ⟨h, hm⟩
    · obtain ⟨n', rfl⟩ : ∃ k, n' = k + 1 := ⟨n' - 1, by simp only at h; omega⟩
      rw [cut_succ_of_not_mem hl]
      exact inText n m
    · obtain rfl : n = n' := h
      cases n with
      | zero =>
        rw [cut_zero, cut_zero]
        exact takeUnits_prefix_of_le _ hm
      | succ n =>
        have same := (cut_succ_of_not_mem hl n m).trans (cut_succ_of_not_mem hl n m').symm
        exact ⟨[], by rw [List.append_nil, same]⟩
  | more l rest hl ih =>
    cases n' with
    | zero =>
      rcases h with h | ⟨h, hm⟩
      · exact absurd h (Nat.not_lt_zero n)
      · obtain rfl : n = 0 := h
        rw [cut_zero, cut_zero]
        exact takeUnits_prefix_of_le _ hm
    | succ n' =>
      rw [cut_succ_append_newline hl]
      cases n with
      | zero =>
        have inLine : dropReturn l <+: l := ⟨_, dropReturn_append_lastReturn l⟩
        rw [cut_zero, firstLine_append_newline hl]
        exact ((takeUnits_isPrefix m _).trans inLine).trans (List.prefix_append l _)
      | succ n =>
        have hb : CodeUnits.before ⟨n, m⟩ ⟨n', m'⟩ := by
          simp only [CodeUnits.before] at h ⊢
          omega
        rw [cut_succ_append_newline hl]
        exact (List.prefix_append_right_inj l).2 ((List.prefix_cons_inj _).2 (ih n n' hb))

theorem resolved_le_of_before (text : List Char) (h : CodeUnits.before p q) : resolved text p ≤ resolved text q := by
  obtain ⟨more, whole⟩ := cut_isPrefix_of_before text h
  rw [resolved_eq, resolved_eq, ← whole, bytes_append]
  omega

theorem takeUnits_inside {front back : List Char} {c : Char} (hl : units front < m) (hu : m ≤ units (front ++ [c])) :
    takeUnits m (front ++ c :: back) = front ++ [c] := by
  induction front generalizing m with
  | nil =>
    have one : m - width c = 0 := by
      simp at hu
      omega
    have none : takeUnits 0 back = [] := by cases back <;> rfl
    rw [List.nil_append, takeUnits, if_neg (by omega), one, none]
    rfl
  | cons d front ih =>
    rw [units_cons] at hl
    rw [List.cons_append, units_cons] at hu
    rw [List.cons_append, takeUnits, if_neg (by omega), ih (by omega) (by omega)]
    rfl

/-- Of the units of a position only those count that are needed to reach its place on the line. -/
theorem splitAt?_congr (text : List Char) (h : takeUnits m (bareLine text line) = takeUnits m' (bareLine text line)) :
    splitAt? text ⟨line, m⟩ = splitAt? text ⟨line, m'⟩ := by
  have first (text : List Char) (h : takeUnits m (bareLine text 0) = takeUnits m' (bareLine text 0)) :
      splitAt? text ⟨0, m⟩ = splitAt? text ⟨0, m'⟩ := by
    rw [bareLine_zero] at h
    rw [splitAt?_zero, splitAt?_zero, h]
  induction text using line_induction generalizing line with
  | last l hl =>
    cases line with
    | zero => exact first l h
    | succ line => rw [splitAt?_succ_of_not_mem hl, splitAt?_succ_of_not_mem hl]
  | more l rest hl ih =>
    cases line with
    | zero => exact first _ h
    | succ line =>
      rw [bareLine_succ_append_newline hl] at h
      rw [splitAt?_succ_append_newline hl, splitAt?_succ_append_newline hl, ih h]

/-- A position that leads into a character denotes the place behind this character. -/
theorem exists_isCut_of_inside {front back : List Char} {c : Char} (inText : line ≤ text.count '\n')
    (content : bareLine text line = front ++ c :: back) (hl : units front < m) (hu : m ≤ units (front ++ [c])) :
    ∃ before after, IsCut text line (front.length + 1) before after ∧ resolved text ⟨line, m⟩ = bytes before := by
  have start : (bareLine text line).take (front.length + 1) = front ++ [c] := by
    have split : front ++ c :: back = (front ++ [c]) ++ back := by simp
    rw [content, split]
    exact List.take_left' (by simp)
  have long : front.length + 1 ≤ (bareLine text line).length := by simp [content]
  obtain ⟨before, after, found, cut, -⟩ := exists_isCut_bareLine inText long
  have same : splitAt? text ⟨line, m⟩ = some (before, after) := by
    rw [← found, start]
    apply splitAt?_congr
    have all := takeUnits_units_append (front ++ [c]) back
    rw [List.append_assoc, List.singleton_append] at all
    rw [content, takeUnits_inside hl hu, all]
  refine ⟨before, after, cut, ?_⟩
  rw [resolved, offset?, same]
  rfl

end Text

namespace Change
open Text

theorem around_eq (text : List Char) (range : Range) : around text range =
    ((CodeUnits.cut text range.start).1,
      if (CodeUnits.cut text range.start).2.length < (CodeUnits.cut text range.stop).2.length
        then (CodeUnits.cut text range.start).2 else (CodeUnits.cut text range.stop).2) := rfl

/-- A range takes a piece out of the text, from the offset of its start to the one where it is taken to end. -/
theorem exists_around (text : List Char) (range : Range) :
    ∃ before between after, before ++ between ++ after = text ∧ around text range = (before, after) ∧
      bytes before = resolved text range.start ∧ bytes (before ++ between) = resolvedEnd text range := by
  have first := CodeUnits.cut_append text range.start
  have last := CodeUnits.cut_append text range.stop
  rw [around_eq, resolvedEnd, resolved_eq, resolved_eq]
  revert first last
  generalize CodeUnits.cut text range.start = front, CodeUnits.cut text range.stop = back
  obtain ⟨before, behindStart⟩ := front
  obtain ⟨beforeStop, after⟩ := back
  rintro first same
  simp only at first same ⊢
  subst first
  rcases List.append_eq_append_iff.1 same with ⟨between, rfl, rfl⟩ | ⟨between, rfl, rfl⟩
  · -- the range ends in front of its start, or there
    refine ⟨beforeStop ++ between, [], behindStart, by simp, ?_, rfl, ?_⟩
    · cases between with
      | nil => simp
      | cons c cs =>
        have shorter : behindStart.length < (c :: cs ++ behindStart).length := by
          rw [List.length_append, List.length_cons]
          omega
        rw [if_pos shorter]
    · simp only [List.append_nil, bytes_append]
      omega
  · refine ⟨before, between, after, by simp, ?_, rfl, ?_⟩
    · have longer : ¬ (between ++ after).length < after.length := by
        rw [List.length_append]
        omega
      rw [if_neg longer]
    · simp only [bytes_append]
      omega

/-- What a ranged change does, whatever lines and units its range counts. Its two offsets are in order, within the
text and between characters, and the new text comes between what lies in front of the first one and what lies behind
the second one. The second offset is that of the range's end if the range is in order, and a position that leads into
a character counts as the place behind it. -/
theorem apply_range (text new : List Char) (range : Range) :
    (∃ before between after, before ++ between ++ after = text ∧
      bytes before = resolved text range.start ∧ bytes (before ++ between) = resolvedEnd text range ∧
      apply text ⟨some range, new⟩ = before ++ new ++ after) ∧
    resolved text range.start ≤ resolvedEnd text range ∧ resolvedEnd text range ≤ bytes text ∧
    (CodeUnits.before range.start range.stop → resolvedEnd text range = resolved text range.stop) ∧
    ∀ line front c back character, line ≤ text.count '\n' → bareLine text line = front ++ c :: back →
      units front < character → character ≤ units (front ++ [c]) →
      ∃ before after, IsCut text line (front.length + 1) before after ∧
        resolved text ⟨line, character⟩ = bytes before := by
  obtain ⟨before, between, after, whole, found, first, last⟩ := exists_around text range
  refine ⟨⟨before, between, after, whole, first, last, ?_⟩, Nat.le_max_right _ _, ?_, fun order => ?_,
    fun line front c back character inText content hl hu => exists_isCut_of_inside inText content hl hu⟩
  · simp only [apply, found]
  · have size := congrArg bytes whole
    rw [bytes_append] at size
    omega
  · exact Nat.max_eq_left (resolved_le_of_before text order)

/-- A range from inside a character of two units to a line that is not there. -/
theorem apply_range_from_pair :
    CodeUnits.before ⟨0, 2⟩ ⟨7, 9⟩ ∧
      resolvedEnd ['a', '😀', 'b', '\n', 'c'] ⟨⟨0, 2⟩, ⟨7, 9⟩⟩ = resolved ['a', '😀', 'b', '\n', 'c'] ⟨7, 9⟩ ∧
      0 ≤ ['a', '😀', 'b', '\n', 'c'].count '\n' ∧
      bareLine ['a', '😀', 'b', '\n', 'c'] 0 = ['a'] ++ '😀' :: ['b'] ∧
      units ['a'] < 2 ∧ 2 ≤ units (['a'] ++ ['😀']) ∧
      ∃ before after, IsCut ['a', '😀', 'b', '\n', 'c'] 0 2 before after ∧
        resolved ['a', '😀', 'b', '\n', 'c'] ⟨0, 2⟩ = bytes before := by
  obtain ⟨-, -, -, ordered, inside⟩ := apply_range ['a', '😀', 'b', '\n', 'c'] ['x'] ⟨⟨0, 2⟩, ⟨7, 9⟩⟩
  have order : CodeUnits.before ⟨0, 2⟩ ⟨7, 9⟩ := .inl (by decide)
  have content : bareLine ['a', '😀', 'b', '\n', 'c'] 0 = ['a'] ++ '😀' :: ['b'] := by decide
  exact ⟨order, ordered order, Nat.zero_le _, content, by decide, by decide,
    inside 0 ['a'] '😀' ['b'] 2 (Nat.zero_le _) content (by decide) (by decide)⟩

end Change
end SqlLint
