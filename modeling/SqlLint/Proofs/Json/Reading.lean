import SqlLint.Json.Reader
import SqlLint.Proofs.Json.Grammar
import Mathlib.Data.List.DropRight

/-! # The reader reads what the grammar spells -/
namespace SqlLint.Json

/-- What may follow a value: nothing, or a character that does not continue a number. -/
def Ends (rest : List Char) : Prop := ∀ c ∈ rest.head?, c ∈ [' ', '\t', '\n', '\r', ',', ']', '\x7d']

section Blanks

theorem isBlank_iff {c : Char} : isBlank c = true ↔ c ∈ [' ', '\t', '\n', '\r'] := by
  simp [isBlank, or_assoc]

theorem skipBlank_append {blank : List Char} (h : Blanks blank) (rest : List Char) :
    skipBlank (blank ++ rest) = skipBlank rest :=
  List.dropWhile_append_of_pos fun c hc => isBlank_iff.2 (h c hc)

theorem skipBlank_cons {c : Char} (h : isBlank c = false) (rest : List Char) : skipBlank (c :: rest) = c :: rest :=
  List.dropWhile_cons_of_neg (by simp [h])

theorem skipBlank_idem (cs : List Char) : skipBlank (skipBlank cs) = skipBlank cs :=
  List.dropWhile_idempotent _ cs

theorem ends_append {blank : List Char} (h : Blanks blank) {rest : List Char} (hr : Ends rest) :
    Ends (blank ++ rest) := by
  cases blank with
  | nil => exact hr
  | cons c blank =>
    intro d hd
    obtain rfl := Option.some.inj hd
    have hb := h c List.mem_cons_self
    simp only [List.mem_cons, List.not_mem_nil, or_false] at hb ⊢
    tauto

end Blanks

section Strings

theorem hexValue?_of_hexadecimal {c : Char} {n : Nat} (h : Hexadecimal c n) : hexValue? c = some n := by
  have lower : ∀ n < 16, "0123456789abcdef".toList[n]?.bind hexValue? = some n := by decide
  have upper : ∀ n < 16, "0123456789ABCDEF".toList[n]?.bind hexValue? = some n := by decide
  rcases h with h | h
  · have value := lower n (List.getElem?_eq_some_iff.1 h).1
    rwa [h] at value
  · have value := upper n (List.getElem?_eq_some_iff.1 h).1
    rwa [h] at value

theorem escaped?_of_mem {e c : Char} (h : (e, c) ∈ letters) : escaped? e = some c := by
  have all : ∀ p ∈ letters, escaped? p.1 = some p.2 := by decide
  exact all _ h

theorem ne_of_mem_letters {e c : Char} (h : (e, c) ∈ letters) : e ≠ 'u' := by
  have all : ∀ p ∈ letters, p.1 ≠ 'u' := by decide
  exact all _ h

theorem hexValues?_of_hexadecimal {a b c d : Char} {i j k l : Nat} (first : Hexadecimal a i)
    (second : Hexadecimal b j) (third : Hexadecimal c k) (last : Hexadecimal d l) :
    hexValues? [a, b, c, d] = some (((i * 16 + j) * 16 + k) * 16 + l) := by
  simp [hexValues?, hexValue?_of_hexadecimal first, hexValue?_of_hexadecimal second,
    hexValue?_of_hexadecimal third, hexValue?_of_hexadecimal last]

theorem readString_spelled {ps : List Piece} {cs : List Char} (h : Piece.Spelled ps cs) (rest : List Char) :
    readString (cs ++ '"' :: rest) = some (ps, rest) := by
  induction h with
  | nil => simp [readString]
  | @plain c ps cs shown quote slash _ ih =>
    have control : ¬ c < ' ' := Char.not_lt.2 shown
    rw [List.cons_append, readString, ih, if_neg (not_or.2 ⟨slash, control⟩)]
    · rfl
    · exact fun _ _ _ _ _ h => absurd h slash
    · exact fun _ _ h => absurd h slash
    · exact quote
  | @letter e c ps cs known _ ih =>
    rw [List.cons_append, List.cons_append, readString, ih, escaped?_of_mem known]
    · rfl
    · exact fun _ _ _ _ _ h => absurd h (ne_of_mem_letters known)
  | code first second third last _ ih =>
    simp only [List.cons_append, readString, ih, hexValues?_of_hexadecimal first second third last]
    rfl

end Strings

section Numbers

theorem digitChar_facts {d : Nat} (h : d < 10) :
    (Nat.digitChar d).isDigit = true ∧ digitValue (Nat.digitChar d) = d := by
  have all : ∀ d < 10, (Nat.digitChar d).isDigit = true ∧ digitValue (Nat.digitChar d) = d := by decide
  exact all d h

/-- What follows digits that are not continued. -/
def NoDigit (rest : List Char) : Prop := ∀ c ∈ rest.head?, c.isDigit = false

theorem readDigits_written {ds : List Nat} (h : ∀ d ∈ ds, d < 10) {rest : List Char} (hr : NoDigit rest) :
    readDigits (written ds ++ rest) = (ds, rest) := by
  have inside : ∀ c ∈ written ds, c.isDigit = true := by
    intro c hc
    obtain ⟨d, hd, rfl⟩ := List.mem_map.1 hc
    exact (digitChar_facts (h d hd)).1
  have boundary : rest.takeWhile Char.isDigit = [] ∧ rest.dropWhile Char.isDigit = rest := by
    cases rest with
    | nil => exact ⟨rfl, rfl⟩
    | cons c rest =>
      have hc : c.isDigit = false := hr c rfl
      exact ⟨List.takeWhile_cons_of_neg (by simp [hc]), List.dropWhile_cons_of_neg (by simp [hc])⟩
  have values : (written ds).map digitValue = ds := by
    rw [written, List.map_map]
    exact (List.map_congr_left fun d hd => (digitChar_facts (h d hd)).2).trans (List.map_id ds)
  rw [readDigits, List.takeWhile_append_of_pos inside, List.dropWhile_append_of_pos inside, boundary.1, boundary.2,
    List.append_nil, values]

theorem readFraction_spelled {ds : List Nat} {cs rest : List Char} (h : NumberText.SpelledFraction ds cs)
    (hr : NoDigit rest) (point : rest.head? ≠ some '.') : readFraction (cs ++ rest) = some (ds, rest) := by
  cases h with
  | none =>
    rw [List.nil_append]
    unfold readFraction
    split
    · exact absurd rfl point
    · rfl
  | some digits =>
    rw [List.cons_append, readFraction, readDigits_written digits.2 hr]
    exact if_neg (by simpa using digits.1)

theorem ne_of_ends {rest : List Char} (ends : Ends rest) :
    NoDigit rest ∧ rest.head? ≠ some '.' ∧ rest.head? ≠ some 'e' ∧ rest.head? ≠ some 'E' := by
  have all : [' ', '\t', '\n', '\r', ',', ']', '\x7d'].all
      (fun c => !c.isDigit && c != '.' && c != 'e' && c != 'E') = true := rfl
  have each (c : Char) (hc : c ∈ rest.head?) : c.isDigit = false ∧ c ≠ '.' ∧ c ≠ 'e' ∧ c ≠ 'E' := by
    simpa [and_assoc] using List.all_eq_true.1 all c (ends c hc)
  exact ⟨fun c hc => (each c hc).1, fun h => (each _ h).2.1 rfl, fun h => (each _ h).2.2.1 rfl,
    fun h => (each _ h).2.2.2 rfl⟩

theorem head_written {ds : List Nat} (h : IsDigits ds) (rest : List Char) :
    ∃ c more, written ds ++ rest = c :: more ∧ c.isDigit = true := by
  obtain ⟨nonempty, bound⟩ := h
  cases ds with
  | nil => exact absurd rfl nonempty
  | cons d ds => exact ⟨_, _, rfl, (digitChar_facts (bound d List.mem_cons_self)).1⟩

theorem readSign_written {negative : Bool} {sign : List Char} {ds : List Nat}
    (signed : (negative, sign) ∈ [(true, ['-']), (false, ['+']), (false, [])]) (h : IsDigits ds) (rest : List Char) :
    readSign (sign ++ (written ds ++ rest)) = (negative, written ds ++ rest) := by
  obtain ⟨c, more, hc, digit⟩ := head_written h rest
  simp only [List.mem_cons, Prod.mk.injEq, List.not_mem_nil, or_false] at signed
  rcases signed with ⟨rfl, rfl⟩ | ⟨rfl, rfl⟩ | ⟨rfl, rfl⟩
  · rfl
  · rfl
  · rw [List.nil_append, hc]
    unfold readSign
    split
    · next h =>
      cases h
      cases digit
    · next h =>
      cases h
      cases digit
    · rfl

theorem readExponent_spelled {exponent : Option (Bool × List Nat)} {cs rest : List Char}
    (h : NumberText.SpelledExponent exponent cs) (ends : Ends rest) :
    readExponent (cs ++ rest) = some (exponent, rest) := by
  obtain ⟨noDigit, -, lower, upper⟩ := ne_of_ends ends
  cases h with
  | none =>
    rw [List.nil_append]
    cases rest with
    | nil => rfl
    | cons c rest =>
      refine if_neg (not_or.2 ⟨?_, ?_⟩)
      · rintro rfl
        exact lower rfl
      · rintro rfl
        exact upper rfl
  | @some e negative sign ds letter signed digits =>
    have isLetter : e = 'e' ∨ e = 'E' := by simpa using letter
    rw [List.cons_append, List.append_assoc, readExponent, if_pos isLetter, readSign_written signed digits]
    dsimp only
    rw [readDigits_written digits.2 noDigit]
    exact if_neg (by simpa using digits.1)

/-- A number is read after its sign. -/
theorem readNumber_spelled (negative : Bool) {whole fraction : List Nat}
    {exponent : Option (Bool × List Nat)} {fractionText exponentText rest : List Char} (digits : IsDigits whole)
    (leading : whole.head? = some 0 → whole = [0]) (fractional : NumberText.SpelledFraction fraction fractionText)
    (exponential : NumberText.SpelledExponent exponent exponentText) (ends : Ends rest) :
    readNumber negative (written whole ++ (fractionText ++ exponentText) ++ rest) =
      some (⟨negative, whole, fraction, exponent⟩, rest) := by
  have follows : NoDigit (exponentText ++ rest) ∧ (exponentText ++ rest).head? ≠ some '.' := by
    cases exponential with
    | none => exact ⟨(ne_of_ends ends).1, (ne_of_ends ends).2.1⟩
    | @some e _ _ _ letter =>
      have isLetter : e = 'e' ∨ e = 'E' := by simpa using letter
      refine ⟨fun c hc => ?_, fun h => ?_⟩
      · obtain rfl := Option.some.inj hc
        rcases isLetter with rfl | rfl <;> rfl
      · obtain rfl := Option.some.inj h
        simp at isLetter
  have before : NoDigit (fractionText ++ (exponentText ++ rest)) := by
    cases fractional with
    | none => exact follows.1
    | some =>
      intro c hc
      obtain rfl := Option.some.inj hc
      rfl
  rw [List.append_assoc, List.append_assoc, readNumber, readDigits_written digits.2 before]
  dsimp only
  split
  · exact absurd rfl digits.1
  · cases leading rfl
  · rw [readFraction_spelled fractional follows.1 follows.2]
    simp only [Option.bind_eq_bind, Option.bind_some, readExponent_spelled exponential ends]

end Numbers

section Values

variable {fuel : Nat} {cs rest blank : List Char}

theorem readValue_blanks (h : Blanks blank) (cs : List Char) : readValue fuel (blank ++ cs) = readValue fuel cs := by
  cases fuel with
  | zero => rfl
  | succ fuel => rw [readValue, readValue, skipBlank_append h]

theorem readValue_skipBlank (cs : List Char) : readValue fuel (skipBlank cs) = readValue fuel cs := by
  cases fuel with
  | zero => rfl
  | succ fuel => rw [readValue, readValue, skipBlank_idem]

theorem readItems_skipBlank (cs : List Char) : readItems fuel (skipBlank cs) = readItems fuel cs := by
  cases fuel with
  | zero => rfl
  | succ fuel => rw [readItems, readItems, readValue_skipBlank]

theorem readMembers_skipBlank (cs : List Char) : readMembers fuel (skipBlank cs) = readMembers fuel cs := by
  cases fuel with
  | zero => rfl
  | succ fuel => rw [readMembers, readMembers, skipBlank_idem]

theorem isBlank_of_isDigit {c : Char} (h : c.isDigit = true) : isBlank c = false := by
  by_contra blank
  rw [Bool.not_eq_false, isBlank_iff] at blank
  simp only [List.mem_cons, List.not_mem_nil, or_false] at blank
  rcases blank with rfl | rfl | rfl | rfl <;> cases h

theorem readValue_digit {c : Char} (h : c.isDigit = true) (cs : List Char) :
    readValue (fuel + 1) (c :: cs) = outlineOf .number (readNumber false (c :: cs)) := by
  rw [readValue, skipBlank_cons (isBlank_of_isDigit h)]
  split
  -- No digit starts a word, a string, a sign or a bracket.
  all_goals first | (next heq => cases heq; cases h) | skip
  · next heq =>
    cases heq
    exact if_pos h
  · next heq => cases heq

theorem readValue_number {t : NumberText} (h : t.Spelled cs) (ends : Ends rest) :
    readValue (fuel + 1) (cs ++ rest) = (.number t, rest) := by
  cases h with
  | mk signed digits leading fractional exponential =>
    have read (negative : Bool) := readNumber_spelled negative digits leading fractional exponential ends
    simp only [List.mem_cons, Prod.mk.injEq, List.not_mem_nil, or_false] at signed
    rcases signed with ⟨rfl, rfl⟩ | ⟨rfl, rfl⟩
    · have minus (cs : List Char) : readValue (fuel + 1) ('-' :: cs) = outlineOf .number (readNumber true cs) := rfl
      rw [List.singleton_append, List.cons_append, minus, read]
      rfl
    · obtain ⟨c, more, head, digit⟩ := head_written digits (_ ++ rest)
      rw [List.nil_append, List.append_assoc, head, readValue_digit digit, ← head, ← List.append_assoc, read]
      rfl

/-- What is spelled starts with a sign that ends no array. -/
theorem Outline.Spelled.head {o : Outline} (h : o.Spelled cs) :
    ∃ c more, cs = c :: more ∧ isBlank c = false ∧ c ≠ ']' := by
  cases h with
  | number h =>
    cases h with
    | @mk _ whole _ _ _ fractionText exponentText signed digits =>
      simp only [List.mem_cons, Prod.mk.injEq, List.not_mem_nil, or_false] at signed
      rcases signed with ⟨-, rfl⟩ | ⟨-, rfl⟩
      · exact ⟨_, _, rfl, rfl, by decide⟩
      · obtain ⟨c, more, head, digit⟩ := head_written digits (fractionText ++ exponentText)
        refine ⟨c, more, head, isBlank_of_isDigit digit, ?_⟩
        rintro rfl
        cases digit
  | _ => exact ⟨_, _, rfl, rfl, by decide⟩

/-- Some items start with no end of an array. -/
theorem Items.Spelled.head {items : Items} (h : items.Spelled cs) (rest : List Char) :
    ∃ c more, skipBlank (cs ++ rest) = c :: more ∧ c ≠ ']' := by
  have start {before value : List Char} {item : Outline} (hb : Blanks before) (hv : item.Spelled value)
      (tail : List Char) : ∃ c more, skipBlank (before ++ (value ++ tail)) = c :: more ∧ c ≠ ']' := by
    obtain ⟨c, more, rfl, shown, other⟩ := hv.head
    exact ⟨c, more ++ tail, by rw [skipBlank_append hb, List.cons_append, skipBlank_cons shown], other⟩
  cases h with
  | last hb h ha =>
    rw [List.append_assoc, List.append_assoc]
    exact start hb h _
  | more hb h ha hr =>
    rw [List.append_assoc, List.append_assoc]
    exact start hb h _

theorem Members.Spelled.head {members : Members} (h : members.Spelled cs) (rest : List Char) :
    ∃ more, skipBlank (cs ++ rest) = '"' :: more := by
  cases h with
  | last hf =>
    rw [List.append_assoc, skipBlank_append hf]
    exact ⟨_, rfl⟩
  | more hf =>
    rw [List.append_assoc, skipBlank_append hf]
    exact ⟨_, rfl⟩

theorem readValue_bracket (cs : List Char) : readValue (fuel + 1) ('[' :: cs) = match skipBlank cs with
    | ']' :: rest => (.array .closed, rest)
    | rest => (.array (readItems fuel rest).1, (readItems fuel rest).2) := rfl

theorem readValue_brace (cs : List Char) : readValue (fuel + 1) ('\x7b' :: cs) = match skipBlank cs with
    | '\x7d' :: rest => (.object .closed, rest)
    | rest => (.object (readMembers fuel rest).1, (readMembers fuel rest).2) := rfl

/-- An array with items is read as its items. -/
theorem readValue_array {c : Char} {more : List Char} (head : skipBlank cs = c :: more) (other : c ≠ ']') :
    readValue (fuel + 1) ('[' :: cs) = (.array (readItems fuel cs).1, (readItems fuel cs).2) := by
  rw [readValue_bracket]
  split
  · next closed =>
    rw [head] at closed
    exact absurd (List.cons.inj closed).1 other
  · rw [readItems_skipBlank]

/-- An object with members is read as its members. -/
theorem readValue_object {more : List Char} (head : skipBlank cs = '"' :: more) :
    readValue (fuel + 1) ('\x7b' :: cs) = (.object (readMembers fuel cs).1, (readMembers fuel cs).2) := by
  rw [readValue_brace]
  split
  · next closed =>
    rw [head] at closed
    cases closed
  · rw [readMembers_skipBlank]

theorem ends_of_mem {c : Char} (h : c ∈ [',', ']', '\x7d']) (rest : List Char) : Ends (c :: rest) := by
  intro d hd
  obtain rfl := Option.some.inj hd
  exact List.mem_append_right [' ', '\t', '\n', '\r'] h

/-- What is read after an item, and what after a member. -/
def itemsAfter (fuel : Nat) (item : Outline) (rest : List Char) : Items × List Char :=
  match skipBlank rest with
  | ']' :: rest => (.more item .closed, rest)
  | ',' :: rest => (.more item (readItems fuel rest).1, (readItems fuel rest).2)
  | _ => (.more item .broken, [])

def membersAfter (fuel : Nat) (key : List Piece) (value : Outline) (rest : List Char) : Members × List Char :=
  match skipBlank rest with
  | '\x7d' :: rest => (.more key value .closed, rest)
  | ',' :: rest => (.more key value (readMembers fuel rest).1, (readMembers fuel rest).2)
  | _ => (.more key value .broken, [])

theorem readItems_item (cs : List Char) :
    readItems (fuel + 1) cs = itemsAfter fuel (readValue fuel cs).1 (readValue fuel cs).2 := rfl

theorem itemsAfter_blanks (h : Blanks blank) (item : Outline) (rest : List Char) :
    itemsAfter fuel item (blank ++ rest) = itemsAfter fuel item rest := by
  rw [itemsAfter, itemsAfter, skipBlank_append h]

theorem itemsAfter_comma (item : Outline) (cs : List Char) :
    itemsAfter fuel item (',' :: cs) = (.more item (readItems fuel cs).1, (readItems fuel cs).2) := rfl

theorem membersAfter_blanks (h : Blanks blank) (key : List Piece) (value : Outline) (rest : List Char) :
    membersAfter fuel key value (blank ++ rest) = membersAfter fuel key value rest := by
  rw [membersAfter, membersAfter, skipBlank_append h]

theorem membersAfter_comma (key : List Piece) (value : Outline) (cs : List Char) :
    membersAfter fuel key value (',' :: cs) = (.more key value (readMembers fuel cs).1, (readMembers fuel cs).2) := rfl

theorem readMembers_member {front name colon : List Char} {key : List Piece} (hf : Blanks front)
    (hk : Piece.Spelled key name) (hc : Blanks colon) (cs : List Char) :
    readMembers (fuel + 1) (front ++ '"' :: (name ++ '"' :: (colon ++ ':' :: cs))) =
      membersAfter fuel key (readValue fuel cs).1 (readValue fuel cs).2 := by
  have quote (cs : List Char) : skipBlank ('"' :: cs) = '"' :: cs := rfl
  have sign (cs : List Char) : skipBlank (':' :: cs) = ':' :: cs := rfl
  simp only [readMembers, skipBlank_append hf, quote, readString_spelled hk, skipBlank_append hc, sign]
  rfl

mutual
/-- Values are read as they are spelled, up to what follows. A character takes two steps of reading at most. -/
theorem readValue_spelled {o : Outline} {cs : List Char} (h : o.Spelled cs) {fuel : Nat} (enough : 2 * cs.length ≤ fuel)
    {rest : List Char} (ends : Ends rest) : readValue fuel (cs ++ rest) = (o, rest) := by
  obtain ⟨c, more, rfl, -, -⟩ := h.head
  obtain ⟨fuel, rfl⟩ : ∃ more, fuel = more + 1 := ⟨fuel - 1, by simp at enough; omega⟩
  cases h with
  | null => rfl
  | isTrue => rfl
  | isFalse => rfl
  | number h => exact readValue_number h ends
  | @string ps cs h =>
    have opened (cs : List Char) : readValue (fuel + 1) ('"' :: cs) = outlineOf .string (readString cs) := rfl
    rw [List.cons_append, List.append_assoc, List.singleton_append, opened, readString_spelled h]
    rfl
  | emptyArray hb =>
    rw [List.cons_append, List.append_assoc, readValue_bracket, skipBlank_append hb]
    rfl
  | @array items cs h =>
    obtain ⟨c, more, head, other⟩ := h.head (']' :: rest)
    have inner : 2 * cs.length + 1 ≤ fuel := by simp at enough; omega
    rw [List.cons_append, List.append_assoc, List.singleton_append, readValue_array head other,
      readItems_spelled h inner]
  | emptyObject hb =>
    rw [List.cons_append, List.append_assoc, readValue_brace, skipBlank_append hb]
    rfl
  | @object members cs h =>
    obtain ⟨more, head⟩ := h.head ('\x7d' :: rest)
    have inner : 2 * cs.length + 1 ≤ fuel := by simp at enough; omega
    rw [List.cons_append, List.append_assoc, List.singleton_append, readValue_object head,
      readMembers_spelled h inner]

theorem readItems_spelled {items : Items} {cs : List Char} (h : items.Spelled cs) {fuel : Nat}
    (enough : 2 * cs.length + 1 ≤ fuel) (rest : List Char) : readItems fuel (cs ++ ']' :: rest) = (items, rest) := by
  obtain ⟨fuel, rfl⟩ : ∃ more, fuel = more + 1 := ⟨fuel - 1, by omega⟩
  cases h with
  | @last item before cs after hb h ha =>
    have inner : 2 * cs.length ≤ fuel := by simp at enough; omega
    have ends := ends_append ha (ends_of_mem (c := ']') (by decide) rest)
    rw [List.append_assoc, List.append_assoc, readItems_item, readValue_blanks hb, readValue_spelled h inner ends,
      itemsAfter_blanks ha]
    rfl
  | @more item items before cs after tail hb h ha hr =>
    have inner : 2 * cs.length ≤ fuel := by simp at enough; omega
    have further : 2 * tail.length + 1 ≤ fuel := by simp at enough; omega
    have ends := ends_append ha (ends_of_mem (c := ',') (by decide) (tail ++ ']' :: rest))
    rw [List.append_assoc, List.append_assoc, List.append_assoc, List.cons_append, readItems_item, readValue_blanks hb,
      readValue_spelled h inner ends, itemsAfter_blanks ha, itemsAfter_comma, readItems_spelled hr further]

theorem readMembers_spelled {members : Members} {cs : List Char} (h : members.Spelled cs) {fuel : Nat}
    (enough : 2 * cs.length + 1 ≤ fuel) (rest : List Char) :
    readMembers fuel (cs ++ '\x7d' :: rest) = (members, rest) := by
  obtain ⟨fuel, rfl⟩ : ∃ more, fuel = more + 1 := ⟨fuel - 1, by omega⟩
  cases h with
  | @last key value front name colon before cs after hf hk hc hb h ha =>
    have inner : 2 * cs.length ≤ fuel := by simp at enough; omega
    have ends := ends_append ha (ends_of_mem (c := '\x7d') (by decide) rest)
    simp only [List.append_assoc, List.cons_append]
    rw [readMembers_member hf hk hc, readValue_blanks hb, readValue_spelled h inner ends, membersAfter_blanks ha]
    rfl
  | @more key value members front name colon before cs after tail hf hk hc hb h ha hr =>
    have inner : 2 * cs.length ≤ fuel := by simp at enough; omega
    have further : 2 * tail.length + 1 ≤ fuel := by simp at enough; omega
    have ends := ends_append ha (ends_of_mem (c := ',') (by decide) (tail ++ '\x7d' :: rest))
    simp only [List.append_assoc, List.cons_append]
    rw [readMembers_member hf hk hc, readValue_blanks hb, readValue_spelled h inner ends, membersAfter_blanks ha,
      membersAfter_comma, readMembers_spelled hr further]
end

/-- The outline of a text is the one that it spells. -/
theorem outline_spelled {o : Outline} {text : List Char} (h : o.SpelledText text) : outline text = (o, true) := by
  obtain ⟨before, body, after, hb, hs, ha, rfl⟩ := h
  have enough : 2 * body.length ≤ 2 * (before ++ (body ++ after)).length + 2 := by simp; omega
  have ends : Ends after := List.append_nil after ▸ ends_append ha nofun
  rw [outline, readValue_blanks hb, readValue_spelled hs enough ends]
  dsimp only
  rw [← List.append_nil after, skipBlank_append ha]
  rfl

end Values

end SqlLint.Json
