import SqlLint.Toml.Raw
import Mathlib.Data.List.TakeDrop

/-! # Pieces of a text

What blanks, comments, names and scalars look like, and why each of them is cut off again where the next
piece does not carry it on. -/
namespace SqlLint.Toml
open Token

/-- What follows is over, or starts with a character of a kind. -/
def Ahead (p : Char → Bool) (cs : List Char) : Prop := ∀ c rest, cs = c :: rest → p c = true

section Ahead

variable {p q : Char → Bool} {w r : List Char} {c : Char}

theorem ahead_nil (p : Char → Bool) : Ahead p [] := fun _ _ h => by cases h

theorem ahead_cons : Ahead p (c :: r) ↔ p c = true := by
  constructor
  · intro h
    exact h c r rfl
  · intro h d rest he
    cases he
    exact h

theorem Ahead.mono (h : Ahead p r) (hpq : ∀ c, p c = true → q c = true) : Ahead q r :=
  fun c rest he => hpq c (h c rest he)

theorem ahead_append (hw : Ahead p w) (hr : w = [] → Ahead p r) : Ahead p (w ++ r) := by
  cases w with
  | nil => exact hr rfl
  | cons c w => exact ahead_cons.2 (ahead_cons.1 hw)

theorem takeWhile_ahead (hw : ∀ c ∈ w, p c = true) (hr : Ahead (fun c => !p c) r) :
    (w ++ r).takeWhile p = w ∧ (w ++ r).dropWhile p = r := by
  rw [List.takeWhile_append_of_pos hw, List.dropWhile_append_of_pos hw]
  cases r with
  | nil => simp
  | cons c r =>
    have hc : p c = false := by simpa using ahead_cons.1 hr
    simp [hc]

end Ahead

/-- Whether a token stays as it is when a document is read. -/
def Token.IsClean (t : Token) : Prop := t.isSound = true ∧ t.unify = t

/-- From one place of a text to a later one there are clean tokens only. -/
structure Lexes (cs rest : List Char) : Prop where
  clean : (∀ t ∈ ofText rest, t.IsClean) → ∀ t ∈ ofText cs, t.IsClean
  length_le : (ofText rest).length ≤ (ofText cs).length

section Lexes

variable {a b c : List Char}

theorem Lexes.refl (a : List Char) : Lexes a a := ⟨id, Nat.le_refl _⟩

theorem Lexes.trans (h : Lexes a b) (h' : Lexes b c) : Lexes a c :=
  ⟨fun hc => h.clean (h'.clean hc), Nat.le_trans h'.length_le h.length_le⟩

theorem Lexes.of_token {t : Token} (h : ofText a = t :: ofText b) (ht : t.IsClean) : Lexes a b := by
  constructor
  · intro hb u hu
    rw [h] at hu
    rcases List.mem_cons.1 hu with rfl | hu
    · exact ht
    · exact hb u hu
  · rw [h]
    exact Nat.le_succ _

end Lexes

variable {w r t : List Char} {c : Char}

theorem ofText_cons (c : Char) (cs : List Char) : ofText (c :: cs) = (next c cs).1 :: ofText (next c cs).2 := by
  rw [ofText]

theorem ofText_mark (h : isMark c = true) (r : List Char) : ofText (c :: r) = .mark c :: ofText r := by
  have hn : next c r = (.mark c, r) := by
    unfold next
    rw [if_pos h]
  rw [ofText_cons, hn]

theorem ofText_newline (r : List Char) : ofText ('\n' :: r) = .newline ['\n'] :: ofText r := by
  rw [ofText_cons]
  rfl

theorem isClean_mark (c : Char) : (Token.mark c).IsClean := ⟨rfl, rfl⟩

theorem isClean_newline : (Token.newline ['\n']).IsClean := ⟨rfl, rfl⟩

/-! ## Blanks -/

def IsBlanks (w : List Char) : Prop := ∀ c ∈ w, isBlank c = true

theorem isBlanks_nil : IsBlanks [] := fun _ h => by cases h

theorem isBlank_iff : isBlank c = true ↔ c = ' ' ∨ c = '\t' := by
  simp [isBlank]

theorem not_isMark_of_isBlank (h : isBlank c = true) : isMark c = false := by
  rcases isBlank_iff.1 h with rfl | rfl <;> rfl

theorem ofText_blank (h : isBlank c = true) (r : List Char) :
    ofText (c :: r) = .blank (c :: r.takeWhile isBlank) :: ofText (r.dropWhile isBlank) := by
  have hm : ¬ isMark c = true := by simp [not_isMark_of_isBlank h]
  have hn : next c r = (.blank (c :: r.takeWhile isBlank), r.dropWhile isBlank) := by
    unfold next
    rw [if_neg hm, if_pos h]
  rw [ofText_cons, hn]

/-- Whether a character does not carry blanks on. -/
def isNoBlank (c : Char) : Bool := !isBlank c

theorem ofText_blanks (hw : IsBlanks w) (hn : w ≠ []) (hr : Ahead isNoBlank r) :
    ofText (w ++ r) = .blank w :: ofText r := by
  cases w with
  | nil => exact absurd rfl hn
  | cons c w =>
    have hc : isBlank c = true := hw c List.mem_cons_self
    obtain ⟨ht, hd⟩ := takeWhile_ahead (fun d hd => hw d (List.mem_cons_of_mem _ hd)) hr
    rw [List.cons_append, ofText_blank hc, ht, hd]

theorem next_ne_blank (h : isNoBlank c = true) (r t : List Char) : (next c r).1 ≠ .blank t := by
  have hc : isBlank c = false := by simpa [isNoBlank] using h
  fun_cases next c r <;> simp_all

theorem takeBlanks_of_ahead (hr : Ahead isNoBlank r) : takeBlanks (ofText r) = ([], ofText r) := by
  cases r with
  | nil =>
    rw [ofText]
    rfl
  | cons c r =>
    have hn := next_ne_blank (ahead_cons.1 hr) r
    rw [ofText_cons, takeBlanks]
    intro t rest he
    exact hn t (List.cons.inj he).1

theorem takeBlanks_text (hw : IsBlanks w) (hr : Ahead isNoBlank r) : takeBlanks (ofText (w ++ r)) = (w, ofText r) := by
  by_cases hn : w = []
  · rw [hn]
    exact takeBlanks_of_ahead hr
  · rw [ofText_blanks hw hn hr, takeBlanks, takeBlanks_of_ahead hr, List.append_nil]

/-! ## Space -/

/-- Blanks, newlines and comments that end before a newline. -/
inductive IsSpace : List Char → Prop
  | nil : IsSpace []
  | blank {c : Char} {w : List Char} : isBlank c = true → IsSpace w → IsSpace (c :: w)
  | newline {w : List Char} : IsSpace w → IsSpace ('\n' :: w)
  | comment {t w : List Char} : (∀ c ∈ t, isShown c = true) → IsSpace w →
    IsSpace ('#' :: (t ++ '\n' :: w))

/-- Whether a character stands neither in space nor at the start of it. -/
def opens (c : Char) : Bool := !(isBlank c || endsLine c || c == '#')

theorem isNoBlank_of_opens (h : opens c = true) : isNoBlank c = true := by
  simp_all [opens, isNoBlank]

theorem not_endsLine_of_isShown (h : isShown c = true) : endsLine c = false := by
  by_contra hc
  rw [Bool.not_eq_false, endsLine, Bool.or_eq_true, beq_iff_eq, beq_iff_eq] at hc
  rcases hc with rfl | rfl <;> cases h

theorem ofText_comment (ht : ∀ c ∈ t, isShown c = true) (hr : Ahead endsLine r) :
    ofText ('#' :: (t ++ r)) = .comment ('#' :: t) :: ofText r := by
  obtain ⟨h, hd⟩ := takeWhile_ahead (p := fun c => !endsLine c) (w := t) (r := r)
    (fun c hc => by simp [not_endsLine_of_isShown (ht c hc)]) (hr.mono fun c hc => by simp [hc])
  rw [ofText_cons]
  have hn : next '#' (t ++ r) = (.comment ('#' :: (t ++ r).takeWhile (!endsLine ·)), (t ++ r).dropWhile (!endsLine ·)) :=
    rfl
  rw [hn, h, hd]

theorem isClean_comment (ht : ∀ c ∈ t, isShown c = true) : (Token.comment ('#' :: t)).IsClean := by
  refine ⟨?_, rfl⟩
  rw [isSound, List.all_cons, List.all_eq_true.2 ht]
  rfl

theorem next_of_opens (h : opens c = true) (r : List Char) :
    (∃ t, (next c r).1 = .string t) ∨ (∃ t, (next c r).1 = .word t) ∨ (next c r).1 = .mark c := by
  have hc : isBlank c = false ∧ endsLine c = false ∧ c ≠ '#' := by
    simpa [opens, not_or, and_assoc] using h
  obtain ⟨hb, hl, hh⟩ := hc
  have hn : c ≠ '\n' ∧ c ≠ '\r' := by simpa [endsLine] using hl
  fun_cases next c r <;> simp_all

theorem takeSpace_of_ahead (hr : Ahead opens r) : takeSpace (ofText r) = ([], ofText r) := by
  cases r with
  | nil =>
    rw [ofText]
    rfl
  | cons c r =>
    rw [ofText_cons]
    rcases next_of_opens (ahead_cons.1 hr) r with ⟨t, h⟩ | ⟨t, h⟩ | h <;> rw [h] <;> rfl

theorem takeSpace_blank (h : isBlank c = true) (cs : List Char) :
    takeSpace (ofText (c :: cs)) = (c :: (takeSpace (ofText cs)).1, (takeSpace (ofText cs)).2) := by
  rw [ofText_blank h, takeSpace]
  cases cs with
  | nil => rfl
  | cons d cs =>
    by_cases hd : isBlank d = true
    · rw [ofText_blank hd, takeSpace]
      simp [hd]
    · simp [hd]

/-- A blank belongs to the same token as the blanks behind it. -/
theorem lexes_blank (h : isBlank c = true) (cs : List Char) : Lexes (c :: cs) cs := by
  by_cases hc : Ahead isNoBlank cs
  · refine .of_token (ofText_blanks (w := [c]) (fun d hd => ?_) (by simp) hc) ⟨rfl, rfl⟩
    rwa [List.mem_singleton.1 hd]
  · cases cs with
    | nil => exact absurd (ahead_nil _) hc
    | cons d cs =>
      have hd : isBlank d = true := by
        by_contra hd
        exact hc (ahead_cons.2 (by simpa [isNoBlank] using hd))
      have hdrop : (d :: cs).dropWhile isBlank = cs.dropWhile isBlank := by simp [hd]
      constructor
      · intro hcl t ht
        rw [ofText_blank h, hdrop] at ht
        rcases List.mem_cons.1 ht with rfl | ht
        · exact ⟨rfl, rfl⟩
        · refine hcl t ?_
          rw [ofText_blank hd]
          exact List.mem_cons_of_mem _ ht
      · exact Nat.le_of_eq (by rw [ofText_blank h, ofText_blank hd, hdrop, List.length_cons, List.length_cons])

theorem takeSpace_append (hw : IsSpace w) (r : List Char) :
    takeSpace (ofText (w ++ r)) = (w ++ (takeSpace (ofText r)).1, (takeSpace (ofText r)).2) := by
  induction hw with
  | nil => rfl
  | blank h _ ih =>
    rw [List.cons_append, takeSpace_blank h, ih]
    rfl
  | newline _ ih =>
    rw [List.cons_append, ofText_newline, takeSpace, ih]
    rfl
  | @comment t w ht _ ih =>
    rw [List.cons_append, List.append_assoc, List.cons_append, ofText_comment ht (ahead_cons.2 rfl), ofText_newline,
      takeSpace, takeSpace, ih]
    simp

theorem takeSpace_text (hw : IsSpace w) (hr : Ahead opens r) : takeSpace (ofText (w ++ r)) = (w, ofText r) := by
  rw [takeSpace_append hw, takeSpace_of_ahead hr, List.append_nil]

theorem lexes_space (hw : IsSpace w) (r : List Char) : Lexes (w ++ r) r := by
  induction hw with
  | nil => exact .refl r
  | blank h _ ih => exact .trans (lexes_blank h _) ih
  | newline _ ih => exact .trans (.of_token (ofText_newline _) isClean_newline) ih
  | @comment t w ht _ ih =>
    rw [List.cons_append, List.append_assoc]
    refine .trans (.of_token (ofText_comment ht (ahead_cons.2 rfl)) (isClean_comment ht)) ?_
    exact .trans (.of_token (ofText_newline _) isClean_newline) ih

theorem IsBlanks.isSpace (hw : IsBlanks w) : IsSpace w := by
  induction w with
  | nil => exact .nil
  | cons c w ih => exact .blank (hw c List.mem_cons_self) (ih fun d hd => hw d (List.mem_cons_of_mem _ hd))

theorem IsSpace.append (hw : IsSpace w) (hr : IsSpace r) : IsSpace (w ++ r) := by
  induction hw with
  | nil => exact hr
  | blank h _ ih => exact .blank h ih
  | newline _ ih => exact .newline ih
  | comment ht _ ih =>
    rw [List.cons_append, List.append_assoc, List.cons_append]
    exact .comment ht ih

/-- Space consists of blanks and of space that does not start with one. -/
theorem IsSpace.split (hw : IsSpace w) : ∃ b s, w = b ++ s ∧ IsBlanks b ∧ IsSpace s ∧ Ahead isNoBlank s := by
  induction hw with
  | nil => exact ⟨[], [], rfl, isBlanks_nil, .nil, ahead_nil _⟩
  | @blank c w h _ ih =>
    obtain ⟨b, s, rfl, hb, hs, ha⟩ := ih
    refine ⟨c :: b, s, rfl, fun d hd => ?_, hs, ha⟩
    rcases List.mem_cons.1 hd with rfl | hd
    · exact h
    · exact hb d hd
  | @newline w h _ => exact ⟨[], _, rfl, isBlanks_nil, .newline h, ahead_cons.2 rfl⟩
  | @comment t w ht h _ => exact ⟨[], _, rfl, isBlanks_nil, .comment ht h, ahead_cons.2 rfl⟩

/-- Blanks and a comment that the line may end with. -/
inductive IsTail : List Char → Prop
  | blanks {b : List Char} : IsBlanks b → IsTail b
  | comment {b t : List Char} : IsBlanks b → (∀ c ∈ t, isShown c = true) → IsTail (b ++ '#' :: t)

/-- Whether a character is the end of a line. -/
def isNewline (c : Char) : Bool := c == '\n'

theorem isNewline_iff : isNewline c = true ↔ c = '\n' := beq_iff_eq

theorem takeTail_text (hw : IsTail w) (hr : Ahead isNewline r) : takeTail (ofText (w ++ r)) = (w, ofText r) := by
  have ends : ∀ c, isNewline c = true → isNoBlank c = true ∧ endsLine c = true := by
    intro c hc
    rw [isNewline_iff.1 hc]
    exact ⟨rfl, rfl⟩
  cases hw with
  | blanks hb =>
    rw [takeTail, takeBlanks_text hb (hr.mono fun c hc => (ends c hc).1)]
    cases r with
    | nil => rw [ofText]
    | cons c r => rw [isNewline_iff.1 (ahead_cons.1 hr), ofText_newline]
  | @comment b t hb ht =>
    rw [List.append_assoc, takeTail, List.cons_append, takeBlanks_text hb (ahead_cons.2 rfl),
      ofText_comment ht (hr.mono fun c hc => (ends c hc).2)]

theorem lexes_tail (hw : IsTail w) (hr : Ahead isNewline r) : Lexes (w ++ r) r := by
  cases hw with
  | blanks hb => exact lexes_space hb.isSpace r
  | @comment b t hb ht =>
    rw [List.append_assoc]
    refine .trans (lexes_space hb.isSpace _) (.of_token (ofText_comment ht ?_) (isClean_comment ht))
    exact hr.mono fun c hc => by rw [isNewline_iff.1 hc]; rfl

/-! ## Names -/

/-- A word: nothing in it ends a word, and it does not start like a string. -/
def IsWord (t : List Char) : Prop :=
  ∃ c cs, t = c :: cs ∧ isQuote c = false ∧ ∀ d ∈ c :: cs, endsWord d = false

/-- A string with its closing quotes. -/
def IsClosed (t : List Char) : Prop :=
  ∃ c cs, t = c :: cs ∧ isQuote c = true ∧ ∀ r, Ahead (· != c) r → takeString c (cs ++ r) = (cs, r)

theorem endsWord_iff : endsWord c = true ↔
    isMark c = true ∨ isBlank c = true ∨ endsLine c = true ∨ c = '#' := by
  simp [endsWord, or_assoc]

theorem not_endsWord (h : endsWord c = false) :
    isMark c = false ∧ isBlank c = false ∧ endsLine c = false ∧ c ≠ '#' := by
  have hn : ¬ endsWord c = true := by simp [h]
  simpa [endsWord_iff, not_or] using hn

theorem ofText_word (ht : IsWord t) (hr : Ahead endsWord r) : ofText (t ++ r) = .word t :: ofText r := by
  obtain ⟨c, cs, rfl, hq, hcs⟩ := ht
  obtain ⟨hm, hb, hl, hh⟩ := not_endsWord (hcs c List.mem_cons_self)
  obtain ⟨h, hd⟩ := takeWhile_ahead (p := fun c => !endsWord c) (w := cs) (r := r)
    (fun d hd => by simp [hcs d (List.mem_cons_of_mem _ hd)]) (hr.mono fun c hc => by simp [hc])
  have hn : c ≠ '\n' ∧ c ≠ '\r' := by simpa [endsLine] using hl
  have hnext : next c (cs ++ r) = (.word (c :: (cs ++ r).takeWhile (!endsWord ·)), (cs ++ r).dropWhile (!endsWord ·)) := by
    unfold next
    simp [hm, hb, hn, hh, hq]
  rw [List.cons_append, ofText_cons, hnext, h, hd]

theorem isQuote_iff : isQuote c = true ↔ c = '"' ∨ c = '\x27' := by
  simp [isQuote]

theorem not_endsWord_of_isQuote (h : isQuote c = true) : endsWord c = false := by
  rcases isQuote_iff.1 h with rfl | rfl <;> rfl

theorem next_quote (h : isQuote c = true) (r : List Char) :
    next c r = (.string (c :: (takeString c r).1), (takeString c r).2) := by
  rcases isQuote_iff.1 h with rfl | rfl <;> rfl

theorem ofText_closed (ht : IsClosed t) (hr : Ahead endsWord r) : ofText (t ++ r) = .string t :: ofText r := by
  obtain ⟨c, cs, rfl, hq, hcs⟩ := ht
  have hne : Ahead (· != c) r := hr.mono fun d hd => by
    rw [bne_iff_ne]
    rintro rfl
    rw [not_endsWord_of_isQuote hq] at hd
    cases hd
  rw [List.cons_append, ofText_cons, next_quote hq, hcs r hne]

/-- The text of a name: a word or a string. -/
def IsName (t : List Char) : Prop := IsWord t ∨ IsClosed t

theorem lexes_name (ht : IsName t) (hr : Ahead endsWord r) : Lexes (t ++ r) r := by
  rcases ht with ht | ht
  · exact .of_token (ofText_word ht hr) ⟨rfl, rfl⟩
  · exact .of_token (ofText_closed ht hr) ⟨rfl, rfl⟩

/-- Whether a character may be the first one of a name. -/
def startsName (c : Char) : Bool := !endsWord c

theorem IsName.ahead (ht : IsName t) (r : List Char) : Ahead startsName (t ++ r) := by
  rcases ht with ⟨c, cs, rfl, -, hcs⟩ | ⟨c, cs, rfl, hq, -⟩
  · exact ahead_cons.2 (by simp [startsName, hcs c List.mem_cons_self])
  · exact ahead_cons.2 (by simp [startsName, not_endsWord_of_isQuote hq])

theorem opens_of_startsName (h : startsName c = true) : opens c = true := by
  obtain ⟨-, hb, hl, hh⟩ := not_endsWord (c := c) (by simpa [startsName] using h)
  simp [opens, hb, hl, hh]

/-- Reading a name leaves what follows it. -/
theorem takeSegments_name (ht : IsName t) (hr : Ahead endsWord r) (s : Segment) :
    takeSegments s false (ofText (t ++ r)) = takeSegments { s with text := t } true (ofText r) := by
  rcases ht with ht | ht
  · rw [ofText_word ht hr, takeSegments]
    rfl
  · rw [ofText_closed ht hr, takeSegments]
    rfl

theorem takeSegments_blanks (hw : IsBlanks w) (hr : Ahead isNoBlank r) (s : Segment) :
    takeSegments s false (ofText (w ++ r)) = takeSegments { s with before := s.before ++ w } false (ofText r) ∧
      takeSegments s true (ofText (w ++ r)) = takeSegments { s with after := s.after ++ w } true (ofText r) := by
  by_cases hn : w = []
  · subst hn
    simp
  · rw [ofText_blanks hw hn hr, takeSegments, takeSegments]
    exact ⟨rfl, rfl⟩

/-! ## Scalars -/

/-- Words and points, with blanks between them. -/
inductive IsPhrase : List Char → Prop
  | nil : IsPhrase []
  | word {t w : List Char} : IsWord t → Ahead endsWord w → IsPhrase w → IsPhrase (t ++ w)
  | point {w : List Char} : IsPhrase w → IsPhrase ('.' :: w)
  | blanks {b w : List Char} : IsBlanks b → b ≠ [] → w ≠ [] → Ahead isNoBlank w → IsPhrase w → IsPhrase (b ++ w)

theorem takeScalar_blanks (hb : IsBlanks w) (hw : w ≠ []) (ht : IsPhrase t) (hn : t ≠ []) (ha : Ahead isNoBlank t)
    (hr : Ahead endsWord r) : takeScalar (ofText (w ++ (t ++ r))) =
      (w ++ (takeScalar (ofText (t ++ r))).1, (takeScalar (ofText (t ++ r))).2) := by
  rw [ofText_blanks hb hw (ahead_append ha fun h => absurd h hn)]
  cases ht with
  | nil => exact absurd rfl hn
  | @word t v ht hv _ =>
    rw [List.append_assoc, ofText_word ht (ahead_append hv fun _ => hr), takeScalar, takeScalar, List.append_assoc]
  | @point v _ =>
    rw [List.cons_append, ofText_mark rfl, takeScalar, takeScalar]
  | @blanks b v hb' hb'' _ _ _ =>
    cases b with
    | nil => exact absurd rfl hb''
    | cons c b =>
      have hc := ahead_cons.1 ha
      rw [isNoBlank, hb' c List.mem_cons_self] at hc
      cases hc

theorem takeScalar_text (ht : IsPhrase t) (hr : Ahead endsWord r) (hs : takeScalar (ofText r) = ([], ofText r)) :
    takeScalar (ofText (t ++ r)) = (t, ofText r) := by
  induction ht with
  | nil => exact hs
  | word ht hw _ ih =>
    rw [List.append_assoc, ofText_word ht (ahead_append hw fun _ => hr), takeScalar, ih]
  | point _ ih =>
    rw [List.cons_append, ofText_mark rfl, takeScalar, ih]
  | blanks hb hn hw ha ht ih => rw [List.append_assoc, takeScalar_blanks hb hn ht hw ha hr, ih]

/-- Whether a character ends a scalar, blanks apart. -/
def endsScalar (c : Char) : Bool := c == '\n' || c == '#' || c == ',' || c == ']' || c == '\x7d'

theorem endsScalar_iff : endsScalar c = true ↔ c = '\n' ∨ c = '#' ∨ c = ',' ∨ c = ']' ∨ c = '\x7d' := by
  simp [endsScalar, or_assoc]

/-- Whether a token carries a scalar on. -/
def Token.isPart : Token → Bool
  | .word _ => true
  | .mark c => c == '.'
  | _ => false

def Token.isBlanks : Token → Bool
  | .blank _ => true
  | _ => false

theorem takeScalar_other {t : Token} {us : List Token} (ht : t.isPart = false) :
    (t.isBlanks = false → takeScalar (t :: us) = ([], t :: us)) ∧
      ∀ b, takeScalar (.blank b :: t :: us) = ([], .blank b :: t :: us) := by
  cases t with
  | mark c =>
    have hc : c ≠ '.' := by simpa [Token.isPart] using ht
    simp [takeScalar, hc]
  | word => cases ht
  | blank => simp [takeScalar, Token.isBlanks]
  | _ => simp [takeScalar]

theorem takeScalar_stop (hw : IsBlanks w) (hr : Ahead endsScalar r) :
    takeScalar (ofText (w ++ r)) = ([], ofText (w ++ r)) := by
  have hb : Ahead isNoBlank r := hr.mono fun c hc => by
    rcases endsScalar_iff.1 hc with rfl | rfl | rfl | rfl | rfl <;> rfl
  have hfirst : ofText r = [] ∨ ∃ t us, ofText r = t :: us ∧ t.isPart = false ∧ t.isBlanks = false := by
    cases r with
    | nil => exact .inl (by rw [ofText])
    | cons c r =>
      right
      refine ⟨_, _, ofText_cons c r, ?_⟩
      rcases endsScalar_iff.1 (ahead_cons.1 hr) with rfl | rfl | rfl | rfl | rfl <;> exact ⟨rfl, rfl⟩
  by_cases hn : w = []
  · subst hn
    rw [List.nil_append]
    rcases hfirst with h | ⟨t, us, h, hp, hb⟩
    · rw [h]
      rfl
    · rw [h, (takeScalar_other hp).1 hb]
  · rw [ofText_blanks hw hn hb]
    rcases hfirst with h | ⟨t, us, h, hp, -⟩
    · rw [h]
      rfl
    · rw [h, (takeScalar_other hp).2]

theorem lexes_phrase (ht : IsPhrase t) (hr : Ahead endsWord r) : Lexes (t ++ r) r := by
  induction ht with
  | nil => exact .refl r
  | word ht hw _ ih =>
    rw [List.append_assoc]
    exact .trans (.of_token (ofText_word ht (ahead_append hw fun _ => hr)) ⟨rfl, rfl⟩) ih
  | point _ ih => exact .trans (.of_token (ofText_mark rfl _) (isClean_mark _)) ih
  | blanks hb _ _ _ _ ih =>
    rw [List.append_assoc]
    exact .trans (lexes_space hb.isSpace _) ih

/-- The text of a scalar: words and points that do not start with a blank, or a string. -/
inductive IsScalar (t : List Char) : Prop
  | phrase : IsPhrase t → t ≠ [] → Ahead isNoBlank t → IsScalar t
  | string : IsClosed t → IsScalar t

end SqlLint.Toml
