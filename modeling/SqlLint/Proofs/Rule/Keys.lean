import SqlLint.Proofs.Rule.Sorting
import Mathlib.Data.List.TakeWhile
import Mathlib.Data.Nat.Digits.Defs

/-! # Keys of rules

The number of an identifier may have any number of digits, its key has 64 bits. An identifier whose number is too large
has no key, and sorting treats it as one without a number. -/
namespace SqlLint.Rule

/-- The number that decimal digits spell. -/
def decimal (digits : List Char) : Nat := Nat.ofDigits 10 (digits.map fun c => c.toNat - '0'.toNat).reverse

/-- An identifier with a number: a first character, digits, and a rest that does not go on with a digit. -/
inductive HasNumber : String → Nat → Prop
  | digits (first : Char) {digits rest : List Char} (nonempty : digits ≠ []) (inside : ∀ c ∈ digits, c.isDigit)
    (stops : ∀ c ∈ rest.head?, ¬ c.isDigit) : HasNumber (String.ofList (first :: (digits ++ rest))) (decimal digits)

/-- An identifier without a number of 64 bits. -/
def IsKeyless (rule : String) : Prop := ∀ n, HasNumber rule n → Word.size 64 ≤ n

variable {rule a b : String} {rules : List String} {n : Nat}

theorem digitsValue_eq (digits : List Char) : digitsValue digits = decimal digits := by
  rw [decimal, Nat.ofDigits_eq_foldr, List.foldr_reverse, List.foldl_map, digitsValue]
  simp only [Nat.add_comm, Nat.mul_comm, Nat.cast_id]

theorem takeWhile_isDigit {digits rest : List Char} (inside : ∀ c ∈ digits, c.isDigit)
    (stops : ∀ c ∈ rest.head?, ¬ c.isDigit) : (digits ++ rest).takeWhile Char.isDigit = digits := by
  have rest_eq_nil : rest.takeWhile Char.isDigit = [] := by
    cases rest with
    | nil => rfl
    | cons c rest => exact List.takeWhile_cons_of_neg (stops c rfl)
  rw [List.takeWhile_append_of_pos inside, rest_eq_nil, List.append_nil]

/-- The key of an identifier with a number is the number, if this has 64 bits. -/
theorem HasNumber.sortKey_eq (h : HasNumber rule n) : sortKey rule = if n < Word.size 64 then some n else none := by
  cases h with
  | @digits first digits rest nonempty inside stops =>
    rw [sortKey, String.toList_ofList]
    dsimp only
    rw [takeWhile_isDigit inside stops, if_neg (by simpa using nonempty), digitsValue_eq]

theorem HasNumber.exists_digit (h : HasNumber rule n) : ∃ first digit cs, rule.toList = first :: digit :: cs ∧ digit.isDigit := by
  cases h with
  | @digits first digits rest nonempty inside stops =>
    obtain ⟨digit, digits, rfl⟩ := List.exists_cons_of_ne_nil nonempty
    exact ⟨first, digit, digits ++ rest, String.toList_ofList, inside digit List.mem_cons_self⟩

/-- The digits behind the first character of an identifier are its number. -/
theorem hasNumber_of_takeWhile {first : Char} {cs : List Char} (h : cs.takeWhile Char.isDigit ≠ []) :
    HasNumber (String.ofList (first :: cs)) (decimal (cs.takeWhile Char.isDigit)) := by
  have number : HasNumber (String.ofList (first :: (cs.takeWhile Char.isDigit ++ cs.dropWhile Char.isDigit)))
      (decimal (cs.takeWhile Char.isDigit)) := by
    refine .digits first h (fun c hc => List.mem_takeWhile_imp hc) fun c hc => ?_
    have stop := List.head?_dropWhile_not Char.isDigit cs
    rw [Option.mem_def.1 hc] at stop
    simpa using stop
  rwa [List.takeWhile_append_dropWhile] at number

/-- An identifier has a number, or it has no key. -/
theorem exists_hasNumber_or (rule : String) : (∃ n, HasNumber rule n) ∨ sortKey rule = none := by
  obtain ⟨cs, rfl⟩ : ∃ cs, rule = String.ofList cs := ⟨rule.toList, String.ofList_toList.symm⟩
  cases cs with
  | nil => exact .inr rfl
  | cons first cs =>
    by_cases h : cs.takeWhile Char.isDigit = []
    · right
      rw [sortKey, String.toList_ofList]
      dsimp only
      rw [h]
      rfl
    · exact .inl ⟨_, hasNumber_of_takeWhile h⟩

theorem sortKey_eq_none_iff : sortKey rule = none ↔ IsKeyless rule := by
  constructor
  · intro h n number
    rw [number.sortKey_eq] at h
    split at h
    · cases h
    · next large => exact Nat.le_of_not_lt large
  · intro keyless
    rcases exists_hasNumber_or rule with ⟨n, number⟩ | missing
    · rw [number.sortKey_eq, if_neg (Nat.not_lt.2 (keyless n number))]
    · exact missing

instance : DecidablePred IsKeyless := fun _ => decidable_of_iff _ sortKey_eq_none_iff

theorem tied_none (rules : List String) : tied none rules = rules.filter (IsKeyless ·) := by
  refine List.filter_congr fun rule _ => ?_
  rw [decide_eq_decide]
  exact sortKey_eq_none_iff

/-- In a list in order the identifiers without a key come last. -/
theorem eq_append_of_pairwise (ordered : rules.Pairwise (le · ·)) :
    rules = rules.filter (¬ IsKeyless ·) ++ rules.filter (IsKeyless ·) := by
  induction rules with
  | nil => rfl
  | cons a rules ih =>
    by_cases h : IsKeyless a
    · have all : ∀ b ∈ a :: rules, IsKeyless b := by
        refine List.forall_mem_cons.2 ⟨h, fun b hb => sortKey_eq_none_iff.1 ?_⟩
        have later := List.rel_of_pairwise_cons ordered hb
        rw [le, sortKey_eq_none_iff.2 h] at later
        cases key : sortKey b with
        | none => rfl
        | some n =>
          rw [key] at later
          cases later
      have front : (a :: rules).filter (¬ IsKeyless ·) = [] := by simpa using all
      have back : (a :: rules).filter (IsKeyless ·) = a :: rules := by simpa using all
      rw [front, back, List.nil_append]
    · rw [List.filter_cons_of_pos (by simpa using h), List.filter_cons_of_neg (by simpa using h), List.cons_append,
        ← ih ordered.of_cons]

theorem HasNumber.sortKey_of_not_keyless (h : HasNumber rule n) (keyed : ¬ IsKeyless rule) : sortKey rule = some n := by
  have key := h.sortKey_eq
  split at key
  · exact key
  · exact absurd (sortKey_eq_none_iff.1 key) keyed

/-- A sorted list: first the identifiers with a key, in the order of their numbers, then the others as they stood. -/
theorem exists_sort_eq (rules : List String) : ∃ front, sort rules = front ++ rules.filter (IsKeyless ·) ∧
    front.Perm (rules.filter (¬ IsKeyless ·)) ∧
    front.Pairwise (fun a b => ∀ m n, HasNumber a m → HasNumber b n → m ≤ n) ∧
    ∀ key, tied (some key) front = tied (some key) rules := by
  refine ⟨(sort rules).filter (¬ IsKeyless ·), ?_, (sort_perm rules).filter _, ?_, fun key => ?_⟩
  · -- having no key is a key of its own for a stable sort
    rw [← tied_none, ← tied_sort, tied_none]
    exact eq_append_of_pairwise (pairwise_sort rules)
  · refine ((pairwise_sort rules).filter _).imp_of_mem fun {a b} ha hb order m n first second => ?_
    have keyed {rule : String} (mem : rule ∈ (sort rules).filter (¬ IsKeyless ·)) : ¬ IsKeyless rule := by
      simpa using (List.mem_filter.1 mem).2
    rw [le, first.sortKey_of_not_keyless (keyed ha), second.sortKey_of_not_keyless (keyed hb)] at order
    simpa [keyLe] using order
  · rw [← tied_sort (some key) rules, tied, tied, List.filter_filter]
    refine List.filter_congr fun rule _ => ?_
    by_cases h : sortKey rule = some key
    · have keyed : ¬ IsKeyless rule := fun keyless => by
        rw [sortKey_eq_none_iff.2 keyless] at h
        cases h
      simp [h, keyed]
    · simp [h]

/-- The key of an identifier is the number that the digits behind its first character spell, whatever this character is
and however many digits there are, if the number has 64 bits; all other identifiers have no key. So sorting puts the
identifiers with such a number in front, in the order of their numbers, and leaves the others behind them as they
stood. -/
theorem sortKey_of_digits :
    (∀ (first : Char) (digits rest : List Char), digits ≠ [] → (∀ c ∈ digits, c.isDigit) →
      (∀ c ∈ rest.head?, ¬ c.isDigit) → sortKey (String.ofList (first :: (digits ++ rest))) =
        if decimal digits < Word.size 64 then some (decimal digits) else none) ∧
    (∀ rule, (∀ n, ¬ HasNumber rule n) → sortKey rule = none) ∧
    ∀ rules, ∃ front, sort rules = front ++ rules.filter (IsKeyless ·) ∧
      front.Perm (rules.filter (¬ IsKeyless ·)) ∧
      front.Pairwise (fun a b => ∀ m n, HasNumber a m → HasNumber b n → m ≤ n) ∧
      ∀ key, tied (some key) front = tied (some key) rules := by
  refine ⟨fun first digits rest nonempty inside stops => ?_, fun rule numberless => ?_, exists_sort_eq⟩
  · exact (HasNumber.digits first nonempty inside stops).sortKey_eq
  · exact (exists_hasNumber_or rule).resolve_left fun ⟨n, number⟩ => numberless n number

/-- The greatest number with 64 bits behind zeros, the next one, and digits of another script. -/
theorem sortKey_of_digits_greatest : sortKey "é0018446744073709551615x" = some 18446744073709551615 ∧
    sortKey "L18446744073709551616" = none ∧ (∀ n, ¬ HasNumber "L٣" n) ∧ sortKey "L٣" = none := by
  obtain ⟨key, missing, -⟩ := sortKey_of_digits
  have greatest := key 'é' "0018446744073709551615".toList ['x'] (by decide) (List.all_eq_true.1 (by decide)) (by simp)
  have next := key 'L' "18446744073709551616".toList [] (by decide) (List.all_eq_true.1 (by decide)) nofun
  have numberless : ∀ n, ¬ HasNumber "L٣" n := by
    intro n number
    obtain ⟨first, digit, cs, same, isDigit⟩ := number.exists_digit
    obtain ⟨-, rfl, -⟩ : 'L' = first ∧ '٣' = digit ∧ [] = cs := by simpa using same
    exact absurd isDigit (by decide)
  exact ⟨greatest, next, numberless, missing _ numberless⟩

end SqlLint.Rule
