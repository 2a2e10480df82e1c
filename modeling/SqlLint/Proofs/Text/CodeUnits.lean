import SqlLint.Proofs.Text.Lines
import Mathlib.Algebra.GroupWithZero.Nat
import Mathlib.Data.List.Basic

/-! # Texts as 16-bit units

An editor holds a text as a sequence of 16-bit units, where a character beyond the basic plane is a
pair of surrogates. It counts positions by units. Where a position does not split a pair, it denotes
the same place as in the text. -/
namespace SqlLint.CodeUnits
open Text

/-- The units of a character. -/
def ofChar (c : Char) : List Nat :=
  if c.toNat < 0x10000 then [c.toNat]
  else [0xD800 + (c.toNat - 0x10000) / 0x400, 0xDC00 + (c.toNat - 0x10000) % 0x400]

/-- The units of a text. -/
def encode (text : List Char) : List Nat := text.flatMap ofChar

def newline : Nat := 0x0A

def carriageReturn : Nat := 0x0D

def isHigh (u : Nat) : Bool := 0xD800 ≤ u && u < 0xDC00

def isLow (u : Nat) : Bool := 0xDC00 ≤ u && u < 0xE000

def lines (us : List Nat) : List (List Nat) := us.splitOn newline

/-- The units of a line without a carriage return at its end. -/
def content (line : List Nat) : List Nat :=
  if line.getLast? = some carriageReturn then line.dropLast else line

/-- The number of units in front of a line. -/
def lineStart (us : List Nat) (n : Nat) : Nat := (((lines us).take n).map fun line => line.length + 1).sum

/-- The number of units in front of a position: as many units of its line as there are, and all units
for a line that is not there. -/
def offset (us : List Nat) (p : Position) : Nat :=
  match (lines us)[p.line]? with
  | some line => lineStart us p.line + min p.character (content line).length
  | none => us.length

/-- Whether a place lies between the two surrogates of a pair. -/
def splitsPair (us : List Nat) (n : Nat) : Bool := us[n - 1]?.any isHigh && us[n]?.any isLow

/-- The units that a change makes of others. -/
def splice (us : List Nat) (change : Change) : List Nat :=
  match change.range with
  | some range =>
    us.take (offset us range.start) ++ encode change.text ++ us.drop (offset us range.stop)
  | none => encode change.text

/-- The order of positions in a text. -/
def before (p q : Position) : Prop := p.line < q.line ∨ (p.line = q.line ∧ p.character ≤ q.character)

/-- A range that starts before it ends, with both places between whole characters. -/
def IsProper (us : List Nat) (change : Change) : Prop :=
  ∀ range, change.range = some range → before range.start range.stop ∧
    splitsPair us (offset us range.start) = false ∧ splitsPair us (offset us range.stop) = false

@[simp] theorem encode_nil : encode [] = [] := rfl

@[simp] theorem encode_cons (c : Char) (cs : List Char) : encode (c :: cs) = ofChar c ++ encode cs := rfl

@[simp] theorem encode_append (a b : List Char) : encode (a ++ b) = encode a ++ encode b := by
  simp [encode]

@[simp] theorem length_ofChar (c : Char) : (ofChar c).length = width c := by
  unfold ofChar width
  split <;> rfl

@[simp] theorem length_encode (text : List Char) : (encode text).length = units text := by
  induction text with
  | nil => rfl
  | cons c cs ih => simp [ih]

/-- A unit that is no surrogate is a character of its own. -/
theorem mem_ofChar_iff {c : Char} {n : Nat} (hn : n < 0xD800) : n ∈ ofChar c ↔ c.toNat = n := by
  unfold ofChar
  split
  · simp [eq_comm]
  · next h =>
    simp only [List.mem_cons, List.not_mem_nil, or_false]
    omega

theorem newline_mem_encode {text : List Char} : newline ∈ encode text ↔ '\n' ∈ text := by
  induction text with
  | nil => simp
  | cons c cs ih =>
    rw [encode_cons, List.mem_append, mem_ofChar_iff (by decide), ih, List.mem_cons]
    have hc : c.toNat = newline ↔ '\n' = c := by
      constructor
      · intro h
        exact (Char.toNat_inj.1 h).symm
      · rintro rfl
        rfl
    rw [hc]

theorem lines_encode_of_not_mem {l : List Char} (h : '\n' ∉ l) : lines (encode l) = [encode l] :=
  List.splitOn_eq_singleton (mt newline_mem_encode.1 h)

theorem lines_encode_append_newline {l : List Char} (h : '\n' ∉ l) (rest : List Char) :
    lines (encode (l ++ '\n' :: rest)) = encode l :: lines (encode rest) := by
  have hn : encode ('\n' :: rest) = newline :: encode rest := rfl
  rw [encode_append, hn]
  exact List.splitOn_append_cons_self_of_not_mem (mt newline_mem_encode.1 h) _

theorem getLast?_ofChar_eq_iff (c : Char) : (ofChar c).getLast? = some carriageReturn ↔ c = '\r' := by
  unfold ofChar
  split
  · rw [← Char.toNat_inj]
    simp [carriageReturn]
  · next h =>
    constructor
    · intro hl
      simp only [carriageReturn, List.getLast?_cons_cons, List.getLast?_singleton, Option.some.injEq] at hl
      omega
    · rintro rfl
      exact absurd (by decide) h

theorem content_encode (l : List Char) : content (encode l) = encode (dropReturn l) := by
  rcases List.eq_nil_or_concat l with rfl | ⟨l, c, rfl⟩
  · rfl
  · have hc : ofChar c ≠ [] := by
      unfold ofChar
      split <;> simp
    have hl : (encode (l ++ [c])).getLast? = (ofChar c).getLast? := by
      rw [encode_append, encode_cons, encode_nil, List.append_nil, List.getLast?_append,
        List.getLast?_eq_some_getLast hc, Option.some_or]
    have hr : (l ++ [c]).getLast? = some '\r' ↔ c = '\r' := by
      rw [List.getLast?_concat, Option.some.injEq]
    rw [List.concat_eq_append]
    simp only [content, dropReturn, hl, getLast?_ofChar_eq_iff, hr]
    split
    · next h =>
      subst h
      have hu : encode (l ++ ['\r']) = encode l ++ [carriageReturn] := encode_append _ _
      rw [hu, List.dropLast_concat, List.dropLast_concat]
    · rfl

theorem offset_zero (text : List Char) (m : Nat) :
    offset (encode text) ⟨0, m⟩ = min m (units (firstLine text)) := by
  by_cases hn : '\n' ∈ text
  · obtain ⟨l, rest, rfl, hl⟩ := List.eq_append_cons_of_mem hn
    rw [offset, lineStart, lines_encode_append_newline hl, firstLine_append_newline hl]
    simp [content_encode]
  · rw [offset, lineStart, lines_encode_of_not_mem hn, firstLine_of_not_mem hn]
    simp [content_encode]

theorem offset_succ_of_not_mem {l : List Char} (h : '\n' ∉ l) (n m : Nat) :
    offset (encode l) ⟨n + 1, m⟩ = units l := by
  rw [offset, lines_encode_of_not_mem h]
  simp

theorem offset_succ_append_newline {l : List Char} (h : '\n' ∉ l) (rest : List Char) (n m : Nat) :
    offset (encode (l ++ '\n' :: rest)) ⟨n + 1, m⟩ = units l + 1 + offset (encode rest) ⟨n, m⟩ := by
  have hw : width '\n' = 1 := rfl
  simp only [offset, lineStart, lines_encode_append_newline h, List.getElem?_cons_succ]
  split
  · simp [Nat.add_assoc]
  · simp [hw, Nat.add_assoc]

theorem splitsPair_append (as : List Nat) {us : List Nat} {n : Nat} (h : splitsPair us n = true) :
    splitsPair (as ++ us) (as.length + n) = true := by
  cases n with
  | zero =>
    simp only [splitsPair, Bool.and_eq_true, Option.any_eq_true] at h
    obtain ⟨⟨u, hu, hh⟩, ⟨v, hv, hl⟩⟩ := h
    obtain rfl : u = v := Option.some.inj (hu.symm.trans hv)
    simp only [isHigh, isLow, Bool.and_eq_true, decide_eq_true_eq] at hh hl
    omega
  | succ n =>
    have hn : as.length + (n + 1) - 1 = as.length + n := by omega
    rw [splitsPair, hn]
    simpa [splitsPair, List.getElem?_append_right] using h

theorem isHigh_add {k : Nat} (h : k < 0x400) : isHigh (0xD800 + k) = true := by
  simp only [isHigh, Bool.and_eq_true, decide_eq_true_eq]
  omega

theorem isLow_add {k : Nat} (h : k < 0x400) : isLow (0xDC00 + k) = true := by
  simp only [isLow, Bool.and_eq_true, decide_eq_true_eq]
  omega

theorem splitsPair_pair {u v : Nat} (hu : isHigh u = true) (hv : isLow v = true) (us : List Nat) :
    splitsPair ([u, v] ++ us) 1 = true := by
  simp [splitsPair, hu, hv]

theorem splitsPair_ofChar {c : Char} (h : 0x10000 ≤ c.toNat) (us : List Nat) :
    splitsPair (ofChar c ++ us) 1 = true := by
  have hc : c.toNat < 0x110000 := c.valid.elim (fun hv => Nat.lt_trans hv (by decide)) And.right
  rw [ofChar, if_neg (Nat.not_lt.2 h)]
  exact splitsPair_pair (isHigh_add (by omega)) (isLow_add (Nat.mod_lt _ (by decide))) us

/-- The characters that are taken are as many units as wanted, if there are as many, or else the
wanted number lies within a pair. -/
theorem takeUnits_or_splitsPair (n : Nat) (cs more : List Char) :
    units (takeUnits n cs) = min n (units cs) ∨ splitsPair (encode (cs ++ more)) (min n (units cs)) = true := by
  induction cs generalizing n with
  | nil => simp [takeUnits]
  | cons c cs ih =>
    rw [takeUnits]
    split
    · next h => simp [h]
    · next h =>
      by_cases hc : width c ≤ n
      · have hm : min n (units (c :: cs)) = width c + min (n - width c) (units cs) := by
          rw [units_cons]
          omega
        rw [hm]
        refine (ih (n - width c)).imp (fun hi => ?_) (fun hi => ?_)
        · rw [units_cons, hi]
        · have hs := splitsPair_append (ofChar c) hi
          rwa [length_ofChar] at hs
      · right
        have hw : ¬ c.toNat < 0x10000 := by
          intro hw
          rw [width, if_pos hw] at hc
          omega
        have hm : min n (units (c :: cs)) = 1 := by
          rw [width, if_neg hw] at hc
          rw [units_cons, width, if_neg hw]
          omega
        rw [hm]
        exact splitsPair_ofChar (Nat.not_lt.1 hw) _

/-- What is in front of a position, and what follows it. A place beyond the last line is the end. -/
def cut (text : List Char) (p : Position) : List Char × List Char := (splitAt? text p).getD (text, [])

theorem cut_append (text : List Char) (p : Position) : (cut text p).1 ++ (cut text p).2 = text := by
  rw [cut]
  cases h : splitAt? text p with
  | none => simp
  | some parts => exact splitAt?_append h

/-- The text in front of a position has as many units as the position says, or else the position
splits a pair. -/
theorem units_cut_or_splitsPair (text : List Char) (p : Position) :
    units (cut text p).1 = offset (encode text) p ∨
      splitsPair (encode text) (offset (encode text) p) = true := by
  obtain ⟨n, m⟩ := p
  have first (text : List Char) : units (cut text ⟨0, m⟩).1 = offset (encode text) ⟨0, m⟩ ∨
      splitsPair (encode text) (offset (encode text) ⟨0, m⟩) = true := by
    obtain ⟨more, hm⟩ := firstLine_isPrefix text
    have h := takeUnits_or_splitsPair m (firstLine text) more
    rw [hm] at h
    rw [cut, splitAt?_zero, offset_zero]
    exact h
  induction text using line_induction generalizing n with
  | last l hl =>
    cases n with
    | zero => exact first l
    | succ n =>
      left
      rw [cut, splitAt?_succ_of_not_mem hl, offset_succ_of_not_mem hl]
      rfl
  | more l rest hl ih =>
    cases n with
    | zero => exact first _
    | succ n =>
      have hw : width '\n' = 1 := rfl
      rw [offset_succ_append_newline hl]
      refine (ih n).imp (fun hi => ?_) (fun hi => ?_)
      · rw [← hi, cut, splitAt?_succ_append_newline hl, cut]
        cases splitAt? rest ⟨n, m⟩ with
        | none => simp [hw, Nat.add_assoc]
        | some parts => simp [hw, Nat.add_assoc]
      · have hs := splitsPair_append (encode (l ++ ['\n'])) hi
        have hu : (encode (l ++ ['\n'])).length = units l + 1 := by simp [hw]
        rw [hu] at hs
        simpa using hs

theorem units_firstLine_le {l text : List Char} (h : firstLine text = dropReturn l) :
    units (firstLine text) ≤ units l := by
  have hd := congrArg units (dropReturn_append_lastReturn l)
  rw [units_append] at hd
  rw [h]
  omega

/-- A later position has no fewer units in front of it. -/
theorem offset_mono (text : List Char) {p q : Position} (h : before p q) :
    offset (encode text) p ≤ offset (encode text) q := by
  obtain ⟨n, m⟩ := p
  obtain ⟨n', m'⟩ := q
  have first (text : List Char) (hm : m ≤ m') :
      offset (encode text) ⟨0, m⟩ ≤ offset (encode text) ⟨0, m'⟩ := by
    rw [offset_zero, offset_zero]
    omega
  induction text using line_induction generalizing n n' with
  | last l hl =>
    have hf := units_firstLine_le (firstLine_of_not_mem hl)
    rcases h with h | ⟨h, hm⟩
    · obtain ⟨n', rfl⟩ : ∃ k, n' = k + 1 := ⟨n' - 1, by simp only at h; omega⟩
      rw [offset_succ_of_not_mem hl]
      cases n with
      | zero =>
        rw [offset_zero]
        omega
      | succ n => exact Nat.le_of_eq (offset_succ_of_not_mem hl n m)
    · obtain rfl : n = n' := h
      cases n with
      | zero => exact first l hm
      | succ n =>
        exact Nat.le_of_eq (by rw [offset_succ_of_not_mem hl, offset_succ_of_not_mem hl])
  | more l rest hl ih =>
    have hf := units_firstLine_le (firstLine_append_newline hl rest)
    cases n' with
    | zero =>
      rcases h with h | ⟨h, hm⟩
      · exact absurd h (Nat.not_lt_zero n)
      · obtain rfl : n = 0 := h
        exact first _ hm
    | succ n' =>
      rw [offset_succ_append_newline hl]
      cases n with
      | zero =>
        rw [offset_zero]
        omega
      | succ n =>
        have hb : before ⟨n, m⟩ ⟨n', m'⟩ := by
          simp only [before] at h ⊢
          omega
        have hi := ih n n' hb
        rw [offset_succ_append_newline hl]
        omega

theorem length_le_units (text : List Char) : text.length ≤ units text := by
  induction text with
  | nil => exact Nat.le_refl 0
  | cons c cs ih =>
    have hw : 1 ≤ width c := by
      unfold width
      split <;> decide
    rw [List.length_cons, units_cons]
    omega

/-- Of two ways to cut a text, the one with more units in front has no more characters behind. -/
theorem length_back_le {a b a' b' : List Char} (h : a ++ b = a' ++ b') (hu : units a ≤ units a') :
    b'.length ≤ b.length := by
  rcases List.append_eq_append_iff.1 h with ⟨c, rfl, rfl⟩ | ⟨c, rfl, rfl⟩
  · simp
  · have hc := length_le_units c
    rw [units_append] at hu
    obtain rfl := List.eq_nil_of_length_eq_zero (show c.length = 0 by omega)
    simp

theorem take_encode {a b : List Char} {n : Nat} (h : units a = n) :
    (encode (a ++ b)).take n = encode a := by
  rw [encode_append, ← h, ← length_encode, List.take_left]

theorem drop_encode {a b : List Char} {n : Nat} (h : units a = n) :
    (encode (a ++ b)).drop n = encode b := by
  rw [encode_append, ← h, ← length_encode, List.drop_left]

/-- A change of a text is the same splice of its units. -/
theorem encode_apply {text : List Char} {c : Change} (h : IsProper (encode text) c) :
    encode (c.apply text) = splice (encode text) c := by
  obtain ⟨range, new⟩ := c
  cases range with
  | none => rfl
  | some range =>
    obtain ⟨hb, hs, he⟩ := h range rfl
    have hs := (units_cut_or_splitsPair text range.start).resolve_right (by simp [hs])
    have he := (units_cut_or_splitsPair text range.stop).resolve_right (by simp [he])
    have hf := cut_append text range.start
    have hg := cut_append text range.stop
    have ha : (Change.around text range) = ((cut text range.start).1, (cut text range.stop).2) := by
      have hl := length_back_le (hf.trans hg.symm) (by
        rw [hs, he]
        exact offset_mono text hb)
      exact congrArg (Prod.mk _) (if_neg (Nat.not_lt.2 hl))
    have ht := take_encode (b := (cut text range.start).2) hs
    have hd := drop_encode (b := (cut text range.stop).2) he
    rw [hf] at ht
    rw [hg] at hd
    simp [Change.apply, splice, ha, ht, hd]

/-- The changes of a message, each of what the ones in front of it leave. -/
def spliceAll (us : List Nat) (changes : List Change) : List Nat := changes.foldl splice us

/-- Each change of a message is proper where it is made. -/
def AllProper : List Nat → List Change → Prop
  | _, [] => True
  | us, c :: cs => IsProper us c ∧ AllProper (splice us c) cs

theorem encode_applyAll {text : List Char} {changes : List Change} (h : AllProper (encode text) changes) :
    encode (Change.applyAll text changes) = spliceAll (encode text) changes := by
  induction changes generalizing text with
  | nil => rfl
  | cons c cs ih =>
    have hc := encode_apply h.1
    have hs := h.2
    rw [← hc] at hs
    have hi := ih hs
    rw [hc] at hi
    exact hi

end SqlLint.CodeUnits
