import SqlLint.Proofs.Toml.Pieces
import SqlLint.Toml.Value

/-! # Words with a meaning

The truth values and the numbers, as they are usually written, are read as what they say. A number is not
mistaken for a date, a time or a float, since all of its characters are digits. -/
namespace SqlLint.Toml
open Token

theorem isScalar_of_isWord {t : List Char} (h : IsWord t) : IsScalar t := by
  obtain ⟨c, cs, rfl, hq, hcs⟩ := h
  have whole := IsPhrase.word (t := c :: cs) ⟨c, cs, rfl, hq, hcs⟩ (ahead_nil _) .nil
  rw [List.append_nil] at whole
  refine .phrase whole (List.cons_ne_nil c cs) (ahead_cons.2 ?_)
  obtain ⟨-, blank, -⟩ := not_endsWord (hcs c List.mem_cons_self)
  simp [isNoBlank, blank]

/-! ## Truth values -/

def boolText (b : Bool) : List Char := if b then ['t', 'r', 'u', 'e'] else ['f', 'a', 'l', 's', 'e']

theorem isScalar_boolText (b : Bool) : IsScalar (boolText b) := by
  have none : (boolText b).any endsWord = false := by cases b <;> rfl
  have word : ∀ c ∈ boolText b, endsWord c = false := fun c hc => Bool.eq_false_iff.2 (List.any_eq_false.1 none c hc)
  cases b <;> exact isScalar_of_isWord ⟨_, _, rfl, rfl, word⟩

theorem scalarOf_boolText (b : Bool) : scalarOf (boolText b) = .ok (.bool b) := by
  cases b <;> rfl

/-! ## Numbers -/

section Digits

variable {cs : List Char} {n : Nat}

/-- A text all of whose characters are digits. -/
def IsDigits (cs : List Char) : Prop := ∀ c ∈ cs, c.isDigit = true

theorem isDigits_toDigits (n : Nat) : IsDigits (Nat.toDigits 10 n) :=
  fun _ hc => Nat.isDigit_of_mem_toDigits (by decide) (by decide) hc

theorem IsDigits.ne {c : Char} (h : IsDigits cs) (hc : c ∈ cs) (other : Char) (hother : other.isDigit = false) :
    c ≠ other := by
  rintro rfl
  rw [h c hc] at hother
  cases hother

theorem isScalar_of_isDigits (h : IsDigits cs) (hn : cs ≠ []) : IsScalar cs := by
  obtain ⟨c, cs, rfl⟩ := List.exists_cons_of_ne_nil hn
  have plain (d : Char) (hd : d ∈ c :: cs) : isQuote d = false ∧ endsWord d = false := by
    have other := h.ne hd
    constructor
    · simp [isQuote, other '"' rfl, other '\x27' rfl]
    · simp [endsWord, isMark, isBlank, endsLine, other]
  exact isScalar_of_isWord ⟨c, cs, rfl, (plain c List.mem_cons_self).1, fun d hd => (plain d hd).2⟩

theorem isDate_of_isDigits (h : IsDigits cs) : isDate cs = false := by
  rw [isDate, Bool.and_eq_false_iff]
  rcases Nat.lt_or_ge 4 cs.length with long | short
  · right
    have fifth : (cs[4], 4) ∈ cs.zip (List.range 10) := by
      rw [List.mem_iff_getElem]
      refine ⟨4, ?_, ?_⟩
      · simp
        omega
      · simp
    rw [List.all_eq_false]
    refine ⟨_, fifth, ?_⟩
    have other := h.ne (List.getElem_mem long) '-' rfl
    simpa using other
  · left
    simp
    omega

/-- Behind two digits of a number there is no point of time. -/
theorem time?_of_isDigits (h : IsDigits cs) : time? cs = none := by
  rw [time?]
  cases first : pair? 23 cs with
  | none => rfl
  | some rest =>
    have part : ∀ c ∈ rest, c ∈ cs := by
      unfold pair? at first
      split at first
      · next a b more =>
        obtain ⟨m, -, first⟩ := Option.bind_eq_some_iff.1 first
        split at first
        · cases first
          simp +contextual
        · cases first
      · cases first
    cases rest with
    | nil => rfl
    | cons c rest =>
      have other : c ≠ ':' := h.ne (part c List.mem_cons_self) ':' rfl
      simp only [Option.bind_eq_bind, Option.bind_some]
      split
      · next same => exact absurd (List.cons.inj same).1 other
      · rfl

theorem isMoment_of_isDigits (h : IsDigits cs) : isMoment cs = false := by
  have date : isCalendarDate (cs.take 10) = false := by
    rw [isCalendarDate, isDate_of_isDigits fun c hc => h c (List.mem_of_mem_take hc)]
  rw [isMoment, date, time?_of_isDigits h]
  rfl

theorem splitOn_of_not_mem {mark : Char} (h : mark ∉ cs) : Text.splitOn mark cs = [cs] := by
  induction cs with
  | nil => rfl
  | cons c cs ih =>
    obtain ⟨hc, hcs⟩ : mark ≠ c ∧ mark ∉ cs := by simpa using h
    rw [Text.splitOn, if_neg hc.symm, ih hcs]

theorem hexValue?_of_isDigit {c : Char} (h : c.isDigit = true) :
    hexValue? c = some (c.toNat - '0'.toNat) ∧ c.toNat - '0'.toNat < 10 := by
  refine ⟨by rw [hexValue?, if_pos h], ?_⟩
  simp only [Char.isDigit, Bool.and_eq_true, decide_eq_true_eq] at h
  have above : c.toNat ≤ 57 := h.2
  have zero : '0'.toNat = 48 := rfl
  omega

theorem number?_of_isDigits (h : IsDigits cs) (hn : cs ≠ []) : number? 10 cs = some (Nat.ofDigitChars 10 cs 0) := by
  have value (cs : List Char) (h : IsDigits cs) (k : Nat) : cs.foldl (fun n c => do
      let n ← n
      let d ← hexValue? c
      if d < 10 then some (n * 10 + d) else none) (some k) = some (Nat.ofDigitChars 10 cs k) := by
    induction cs generalizing k with
    | nil => rfl
    | cons c cs ih =>
      obtain ⟨digit, small⟩ := hexValue?_of_isDigit (h c List.mem_cons_self)
      have first : (do
          let n ← some k
          let d ← hexValue? c
          if d < 10 then some (n * 10 + d) else none) = some (10 * k + (c.toNat - '0'.toNat)) := by
        simp only [digit, Option.bind_eq_bind, Option.bind_some, if_pos small, Nat.mul_comm]
      rw [List.foldl_cons, first, ih (fun d hd => h d (List.mem_cons_of_mem _ hd)), Nat.ofDigitChars, Nat.ofDigitChars,
        List.foldl_cons]
  have some : cs.isEmpty = false := by simpa using hn
  rw [number?, some]
  exact value cs h 0

/-- A number in decimals has no leading zero. -/
theorem toDigits_head (hn : 0 < n) : ∀ rest, Nat.toDigits 10 n ≠ '0' :: rest := by
  induction n using Nat.strongRecOn with
  | ind n ih =>
    intro rest
    rcases Nat.lt_or_ge n 10 with small | large
    · rw [Nat.toDigits_of_lt_base small]
      intro zero
      have other : ∀ d < 10, 0 < d → Nat.digitChar d ≠ '0' := by decide
      exact other n small hn (List.cons.inj zero).1
    · rw [Nat.toDigits_of_base_le (by decide) large]
      have front := Nat.toDigits_ne_nil (n := n / 10) (b := 10)
      obtain ⟨c, cs, split⟩ := List.exists_cons_of_ne_nil front
      rw [split, List.cons_append]
      rintro ⟨⟩
      exact ih (n / 10) (by omega) (by omega) cs split

theorem integer?_toDigits (n : Nat) : integer? false (Nat.toDigits 10 n) = some (n : Int) := by
  have groups : digits? 10 (Nat.toDigits 10 n) = some n := by
    have filled : (Nat.toDigits 10 n).isEmpty = false := by simp
    rw [digits?, splitOn_of_not_mem Nat.underscore_not_in_toDigits]
    simp only [List.all_cons, List.all_nil, filled, List.flatten_cons, List.flatten_nil, List.append_nil]
    rw [number?_of_isDigits (isDigits_toDigits n) Nat.toDigits_ne_nil, Nat.ofDigitChars_ten_toDigits]
    rfl
  have plain : decimal? (Nat.toDigits 10 n) = some n := by
    unfold decimal?
    split
    · next a rest zero =>
      rcases Nat.eq_zero_or_pos n with rfl | positive
      · cases zero
      · exact absurd zero (toDigits_head positive _)
    · exact groups
  rw [integer?, plain]
  rfl

theorem mem_of_isDigit {c : Char} (h : c.isDigit = true) :
    c ∈ ['0', '1', '2', '3', '4', '5', '6', '7', '8', '9'] := by
  simp only [Char.isDigit, Bool.and_eq_true, decide_eq_true_eq] at h
  have low : 48 ≤ c.toNat := h.1
  have high : c.toNat < 58 := Nat.lt_succ_of_le h.2
  have all : ∀ n < 58, 48 ≤ n → Char.ofNat n ∈ ['0', '1', '2', '3', '4', '5', '6', '7', '8', '9'] := by decide
  exact Char.ofNat_toNat c ▸ all c.toNat high low

/-- A word of digits is a number. -/
theorem word?_of_isDigits {c : Char} (h : IsDigits (c :: cs)) {m : Int} (value : integer? false (c :: cs) = some m) :
    word? (c :: cs) = some (.int m) := by
  have moment := isMoment_of_isDigits h
  have first := mem_of_isDigit (h c List.mem_cons_self)
  simp only [List.mem_cons, List.not_mem_nil, or_false] at first
  have unsigned : sign (c :: cs) = (false, c :: cs) := by
    rcases first with rfl | rfl | rfl | rfl | rfl | rfl | rfl | rfl | rfl | rfl <;> rfl
  rw [word?, unsigned]
  -- no digit begins a keyword, but behind a zero there might be the letter of a base
  rcases first with rfl | rfl | rfl | rfl | rfl | rfl | rfl | rfl | rfl | rfl
  case inl =>
    cases cs with
    | nil =>
      obtain rfl : 0 = m := Option.some.inj value
      rfl
    | cons d ds =>
      have second := mem_of_isDigit (h d (.tail _ List.mem_cons_self))
      simp only [List.mem_cons, List.not_mem_nil, or_false] at second
      rcases second with rfl | rfl | rfl | rfl | rfl | rfl | rfl | rfl | rfl | rfl
      all_goals
        change (if isMoment _ then _ else _) = _
        rw [moment, if_neg Bool.false_ne_true, value]
  all_goals
    change (if isMoment _ then _ else _) = _
    rw [moment, if_neg Bool.false_ne_true, value]

/-- A number in decimals means itself. -/
theorem scalarOf_toDigits (n : Nat) : scalarOf (Nat.toDigits 10 n) = .ok (.int n) := by
  have digits := isDigits_toDigits n
  have value := integer?_toDigits n
  obtain ⟨c, cs, shape⟩ := List.exists_cons_of_ne_nil (Nat.toDigits_ne_nil (n := n) (b := 10))
  rw [shape] at digits value ⊢
  have first := digits.ne List.mem_cons_self
  have unquoted : (c :: cs).head?.any isQuote = false := by
    simp [isQuote, first '"' rfl, first '\x27' rfl]
  rw [scalarOf, unquoted, if_neg Bool.false_ne_true, word?_of_isDigits digits value]
  rfl

end Digits

end SqlLint.Toml
