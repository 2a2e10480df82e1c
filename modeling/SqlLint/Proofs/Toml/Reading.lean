import SqlLint.Proofs.Toml.Render
import SqlLint.Proofs.Toml.Strings
import Mathlib.Data.List.TakeWhile

/-! # What is read is spelled well

The tokens of a text stand in an order that only some tokens can have, and so do the pieces that the
reader makes of them. Whether a name or a scalar has a meaning is not yet known. -/
namespace SqlLint.Toml
open Token

/-! ## Tokens -/

/-- What a token consists of, once newlines are all the same. -/
def Token.IsFormed : Token → Prop
  | .mark _ => True
  | .blank w => IsBlanks w ∧ w ≠ []
  | .newline w => w = ['\n']
  | .comment w => ∃ t, w = '#' :: t ∧ ∀ c ∈ t, isShown c = true
  | .string w => IsQuoted w
  | .word w => IsWord w

def Token.isWord : Token → Bool
  | .word _ => true
  | _ => false

def Token.isNewline : Token → Bool
  | .newline _ => true
  | _ => false

/-- What may follow a token: a comment goes on up to the end of its line, and a word to its end. -/
def Token.Precedes : Token → List Token → Prop
  | .comment _, ts => ts.head?.all Token.isNewline
  | .word _, ts => ts.head?.all fun t => !t.isWord
  | _, _ => True

/-- Tokens that a text may have. -/
inductive Lexed : List Token → Prop
  | nil : Lexed []
  | cons {t : Token} {ts : List Token} : t.IsFormed → t.Precedes ts → Lexed ts → Lexed (t :: ts)

section Tokens

variable {c : Char} {cs : List Char}

theorem Lexed.tail {t : Token} {ts : List Token} (h : Lexed (t :: ts)) : Lexed ts := by
  cases h with
  | cons _ _ h => exact h

theorem Lexed.formed {t : Token} {ts : List Token} (h : Lexed (t :: ts)) : t.IsFormed := by
  cases h with
  | cons h _ _ => exact h

theorem Lexed.precedes {t : Token} {ts : List Token} (h : Lexed (t :: ts)) : t.Precedes ts := by
  cases h with
  | cons _ h _ => exact h

theorem isFormed_next (hs : (next c cs).1.isSound = true) : (next c cs).1.unify.IsFormed := by
  revert hs
  fun_cases next c cs with
  | case1 => exact fun _ => trivial
  | case2 _ _ hb =>
    refine fun _ => ⟨fun d hd => ?_, by simp⟩
    rcases List.mem_cons.1 hd with rfl | hd
    · exact hb
    · exact List.mem_takeWhile_imp hd
  | case3 => exact fun _ => rfl
  | case4 => exact fun _ => rfl
  | case5 => exact fun _ => rfl
  | case6 _ _ _ _ _ hh =>
    intro hs
    subst hh
    rw [isSound, List.all_cons, Bool.and_eq_true, List.all_eq_true] at hs
    exact ⟨_, rfl, hs.2⟩
  | case7 _ _ _ _ _ _ hq => exact fun _ => ⟨c, cs, hq, rfl⟩
  | case8 _ hm hb hn hr hh hq =>
    intro _
    refine ⟨c, _, rfl, by simpa using hq, fun d hd => ?_⟩
    rcases List.mem_cons.1 hd with rfl | hd
    · simp_all [endsWord, endsLine]
    · simpa using List.mem_takeWhile_imp hd

theorem head?_ofText (p : Char → Bool) (q : Token → Bool) (hq : ∀ d ds, p d = true → q (next d ds).1.unify = true)
    (h : Ahead p cs) : ((ofText cs).map unify).head?.all q = true := by
  cases cs with
  | nil =>
    rw [ofText]
    rfl
  | cons d ds =>
    rw [ofText_cons]
    exact hq d ds (ahead_cons.1 h)

theorem ahead_dropWhile (p : Char → Bool) (cs : List Char) : Ahead (fun c => !p c) (cs.dropWhile p) := by
  intro d ds he
  have hd := List.head_dropWhile_not p (l := cs) (by simp [he])
  simpa [he] using hd

theorem isNewline_next (h : endsLine c = true) (cs : List Char) : (next c cs).1.unify.isNewline = true := by
  rw [endsLine, Bool.or_eq_true, beq_iff_eq, beq_iff_eq] at h
  rcases h with rfl | rfl
  · rfl
  · unfold next
    rw [if_neg (by decide), if_neg (by decide), if_neg (by decide), if_pos rfl]
    split <;> rfl

theorem not_isWord_next (h : endsWord c = true) (cs : List Char) : (next c cs).1.unify.isWord = false := by
  fun_cases next c cs <;> simp_all [unify, Token.isWord, endsWord, endsLine]

theorem precedes_next (c : Char) (cs : List Char) :
    (next c cs).1.unify.Precedes ((ofText (next c cs).2).map unify) := by
  fun_cases next c cs with
  | case6 =>
    refine head?_ofText endsLine _ (fun d ds hd => isNewline_next hd ds) ?_
    simpa using ahead_dropWhile (!endsLine ·) cs
  | case8 =>
    refine head?_ofText endsWord _ (fun d ds hd => by simp [not_isWord_next hd ds]) ?_
    simpa using ahead_dropWhile (!endsWord ·) cs
  | _ => trivial

/-- The tokens of a text may all be read. -/
theorem lexed_ofText (h : ∀ t ∈ ofText cs, t.isSound = true) : Lexed ((ofText cs).map unify) := by
  fun_induction ofText cs with
  | case1 => exact .nil
  | case2 c cs ih =>
    refine .cons (isFormed_next (h _ List.mem_cons_self)) (precedes_next c cs) (ih fun t ht => ?_)
    exact h t (List.mem_cons_of_mem _ ht)

end Tokens

/-! ## Pieces -/

section Pieces

variable {ts us : List Token} {w v : List Char}

theorem IsBlanks.append (hw : IsBlanks w) (hv : IsBlanks v) : IsBlanks (w ++ v) := by
  intro c hc
  rcases List.mem_append.1 hc with hc | hc
  · exact hw c hc
  · exact hv c hc

theorem lexed_takeBlanks (h : Lexed ts) : IsBlanks (takeBlanks ts).1 ∧ Lexed (takeBlanks ts).2 := by
  fun_induction takeBlanks ts with
  | case1 text rest ih =>
    obtain ⟨hb, hl⟩ := ih h.tail
    exact ⟨IsBlanks.append h.formed.1 hb, hl⟩
  | case2 => exact ⟨isBlanks_nil, h⟩

theorem IsEnd.prepend (hw : IsSpace w) (hv : IsEnd v) : IsEnd (w ++ v) := by
  cases hv with
  | space hv => exact .space (hw.append hv)
  | comment hv ht =>
    rw [← List.append_assoc]
    exact .comment (hw.append hv) ht

theorem IsSpace.of_newline (h : IsSpace ('\n' :: w)) : IsSpace w := by
  generalize hv : '\n' :: w = v at h
  cases h with
  | newline h =>
    cases hv
    exact h
  | blank hb _ =>
    cases hv
    cases hb
  | _ => cases hv

theorem IsEnd.of_newline (h : IsEnd ('\n' :: w)) : IsEnd w := by
  generalize hv : '\n' :: w = v at h
  cases h with
  | space h =>
    cases hv
    exact .space h.of_newline
  | @comment v t h ht =>
    rcases List.cons_eq_append_iff.1 hv with ⟨-, he⟩ | ⟨s, rfl, rfl⟩
    · cases he
    · exact .comment h.of_newline ht

/-- Space that is read is space, unless the text ends with it. -/
theorem lexed_takeSpace (h : Lexed ts) : IsEnd (takeSpace ts).1 ∧
    ((takeSpace ts).2 ≠ [] → IsSpace (takeSpace ts).1) ∧ Lexed (takeSpace ts).2 := by
  fun_induction takeSpace ts with
  | case1 text rest ih =>
    obtain ⟨he, hs, hl⟩ := ih h.tail
    have hb := IsBlanks.isSpace h.formed.1
    exact ⟨.prepend hb he, fun hn => hb.append (hs hn), hl⟩
  | case2 text rest ih =>
    obtain ⟨he, hs, hl⟩ := ih h.tail
    have ht : text = ['\n'] := h.formed
    subst ht
    exact ⟨.prepend (.newline .nil) he, fun hn => .newline (hs hn), hl⟩
  | case3 text rest ih =>
    obtain ⟨he, hs, hl⟩ := ih h.tail
    obtain ⟨t, rfl, ht⟩ := h.formed
    have hp : rest.head?.all Token.isNewline = true := h.precedes
    cases rest with
    | nil =>
      have hnil : takeSpace [] = ([], []) := rfl
      rw [hnil, List.append_nil]
      exact ⟨IsEnd.comment .nil ht, fun hn => absurd rfl hn, .nil⟩
    | cons u rest =>
      cases u with
      | newline text =>
        have hu : text = ['\n'] := h.tail.formed
        subst hu
        rw [takeSpace] at he hs hl ⊢
        refine ⟨?_, fun hn => .comment ht (hs hn).of_newline, hl⟩
        have hc : IsSpace ('#' :: (t ++ '\n' :: [])) := .comment ht .nil
        simpa using IsEnd.prepend hc he.of_newline
      | _ => cases hp
  | case4 => exact ⟨.space .nil, fun _ => .nil, h⟩

theorem lexed_takeTail (h : Lexed ts) : IsTail (takeTail ts).1 ∧ Lexed (takeTail ts).2 := by
  obtain ⟨hb, hl⟩ := lexed_takeBlanks h
  rw [takeTail]
  split
  · next blanks text rest he =>
    rw [he] at hb hl
    obtain ⟨t, rfl, ht⟩ := hl.formed
    exact ⟨.comment hb ht, hl.tail⟩
  · exact ⟨.blanks hb, hl⟩

/-- Whether a token list starts with a token of a kind. -/
def starts (p : Token → Bool) (ts : List Token) : Bool := ts.head?.any p

theorem ahead_of_word {t : List Char} (ht : IsWord t) (p : Char → Bool) (hp : ∀ c, endsWord c = false → p c = true)
    (w : List Char) : Ahead p (t ++ w) := by
  obtain ⟨c, cs, rfl, -, h⟩ := ht
  exact ahead_cons.2 (hp c (h c List.mem_cons_self))

theorem isNoBlank_of_inWord {c : Char} (h : endsWord c = false) : isNoBlank c = true := by
  simp [isNoBlank, (not_endsWord h).2.1]

/-- The words and points that are read. -/
theorem lexed_takeScalar (h : Lexed ts) : IsPhrase (takeScalar ts).1 ∧ Lexed (takeScalar ts).2 ∧
    (starts Token.isWord ts = false → Ahead endsWord (takeScalar ts).1) ∧
    (starts Token.isBlanks ts = false → Ahead isNoBlank (takeScalar ts).1) := by
  have hword {t : List Char} {rest : List Token} (h : Lexed (.word t :: rest)) (ih : IsPhrase (takeScalar rest).1 ∧
      (starts Token.isWord rest = false → Ahead endsWord (takeScalar rest).1)) :
      IsPhrase (t ++ (takeScalar rest).1) := by
    refine .word h.formed (ih.2 ?_) ih.1
    have hp : rest.head?.all (fun t => !t.isWord) = true := h.precedes
    cases rest with
    | nil => rfl
    | cons u us => simpa [starts] using hp
  fun_induction takeScalar ts with
  | case1 text rest ih =>
    obtain ⟨hp, hl, ha, -⟩ := ih h.tail
    refine ⟨hword h ⟨hp, ha⟩, hl, fun h => (by cases h), fun _ => ?_⟩
    exact ahead_of_word h.formed _ (fun c => isNoBlank_of_inWord) _
  | case2 rest ih =>
    obtain ⟨hp, hl, -, -⟩ := ih h.tail
    exact ⟨.point hp, hl, fun _ => ahead_cons.2 rfl, fun _ => ahead_cons.2 rfl⟩
  | case3 blanks text rest ih =>
    obtain ⟨hp, hl, ha, -⟩ := ih h.tail.tail
    obtain ⟨hb, hn⟩ := h.formed
    have ht : IsWord text := h.tail.formed
    refine ⟨?_, hl, fun _ => ?_, fun h => (by cases h)⟩
    · rw [List.append_assoc]
      refine .blanks hb hn ?_ (ahead_of_word ht _ (fun c => isNoBlank_of_inWord) _) (hword h.tail ⟨hp, ha⟩)
      obtain ⟨c, cs, rfl, -⟩ := ht
      exact List.cons_ne_nil _ _
    · cases blanks with
      | nil => exact absurd rfl hn
      | cons c cs => exact ahead_cons.2 (by simp [endsWord, hb c List.mem_cons_self])
  | case4 blanks rest ih =>
    obtain ⟨hp, hl, -, -⟩ := ih h.tail.tail
    obtain ⟨hb, hn⟩ := h.formed
    refine ⟨.blanks hb hn (List.cons_ne_nil _ _) (ahead_cons.2 rfl) (.point hp), hl, fun _ => ?_, fun h => (by cases h)⟩
    cases blanks with
    | nil => exact absurd rfl hn
    | cons c cs => exact ahead_cons.2 (by simp [endsWord, hb c List.mem_cons_self])
  | case5 => exact ⟨.nil, h, fun _ => ahead_nil _, fun _ => ahead_nil _⟩

end Pieces

/-! ## Keys -/

/-- The text of a part of a key: nothing, a word, or a string that may lack its closing quotes. -/
def IsPiece (t : List Char) : Prop := t = [] ∨ IsWord t ∨ IsQuoted t

/-- A key as it is read, with what stands in front of it and what follows it. -/
inductive KeyRead (Q : List Char → Prop) : (List Char → Prop) → Key → Prop
  | last {P : List Char → Prop} {s : Segment} : P s.before → IsPiece s.text → Q s.after → KeyRead Q P [s]
  | cons {P : List Char → Prop} {s : Segment} {key : Key} : P s.before → IsPiece s.text → IsBlanks s.after →
    KeyRead Q IsBlanks key → KeyRead Q P (s :: key)

section Keys

variable {ts : List Token} {P : List Char → Prop} {key : Key} {w : List Char}

theorem lexed_takeSegments {s : Segment} {named : Bool} (h : Lexed ts) (hP : ∀ w b, P w → IsBlanks b → P (w ++ b))
    (hb : P s.before) (ht : IsPiece s.text) (ha : IsBlanks s.after) :
    KeyRead IsBlanks P (takeSegments s named ts).1 ∧ Lexed (takeSegments s named ts).2 := by
  fun_induction takeSegments s named ts generalizing P with
  | case1 s text rest ih => exact ih h.tail hP hb ht (ha.append h.formed.1)
  | case2 s named text rest _ ih => exact ih h.tail hP (hP _ _ hb h.formed.1) ht ha
  | case3 => exact ⟨.last hb ht ha, h⟩
  | case4 s named text rest _ ih => exact ih h.tail hP hb (.inr (.inr h.formed)) ha
  | case5 => exact ⟨.last hb ht ha, h⟩
  | case6 s named text rest _ ih => exact ih h.tail hP hb (.inr (.inl h.formed)) ha
  | case7 s named rest p =>
    rename_i ih
    obtain ⟨hk, hl⟩ := ih h.tail (fun w b hw hb => hw.append hb) isBlanks_nil (.inl rfl) isBlanks_nil
    exact ⟨.cons hb ht ha hk, hl⟩
  | case8 => exact ⟨.last hb ht ha, h⟩

theorem lexed_takeKey (h : Lexed ts) (hP : ∀ w b, P w → IsBlanks b → P (w ++ b)) (hw : P w) :
    KeyRead IsBlanks P (takeKey w ts).1 ∧ Lexed (takeKey w ts).2 :=
  lexed_takeSegments h hP hw (.inl rfl) isBlanks_nil

theorem isSpace_append_blanks (w b : List Char) (hw : IsSpace w) (hb : IsBlanks b) : IsSpace (w ++ b) :=
  hw.append hb.isSpace

theorem KeyRead.extend (h : KeyRead IsBlanks P key) (hw : IsSpace w) : KeyRead IsSpace P (extend w key) := by
  induction h with
  | last hb ht ha => exact .last hb ht (ha.isSpace.append hw)
  | @cons P s key hb ht ha hk ih =>
    cases hk with
    | last => exact .cons hb ht ha ih
    | cons => exact .cons hb ht ha ih

end Keys

/-! ## Values -/

/-- The text of a scalar as it is read: words and points, or a string that may lack its closing quotes. -/
def IsDatum (t : List Char) : Prop := (IsPhrase t ∧ Ahead isNoBlank t) ∨ IsQuoted t

/-- A value as it is read, with at most so many brackets to open. -/
inductive RawRead : Bool → Nat → Raw → Prop
  | scalar {inside : Bool} {depth : Nat} {before text after : List Char} : IsBefore inside before →
    IsAfter inside after → IsDatum text → RawRead inside depth (.scalar before text after)
  | array {inside : Bool} {depth : Nat} {before rest after : List Char} {items : List Raw} :
    IsBefore inside before → IsAfter inside after → IsRest items rest → (∀ r ∈ items, RawRead true depth r) →
    RawRead inside (depth + 1) (.array before items rest after)
  | table {inside : Bool} {depth : Nat} {before rest after : List Char} {entries : List (Key × Raw)} :
    IsBefore inside before → IsAfter inside after → IsRest entries rest →
    (∀ key r, (key, r) ∈ entries → KeyRead IsSpace IsSpace key) →
    (∀ key r, (key, r) ∈ entries → RawRead true depth r) →
    RawRead inside (depth + 1) (.table before entries rest after)

/-- Behind the end of a text nothing follows a value inside of brackets. -/
def Goes (inside : Bool) (ts : List Token) : Prop := inside = true → ts ≠ []

/-- The values that are read with so much fuel are read well. -/
def ReadsValues (fuel : Nat) : Prop := ∀ inside depth ts raw rest, Lexed ts →
  takeValue inside fuel depth ts = some (raw, rest) → Goes inside rest → RawRead inside depth raw ∧ Lexed rest

def ReadsItems (fuel : Nat) : Prop := ∀ depth ts items left rest, Lexed ts →
  takeItems fuel depth ts = some (items, left, rest) →
  (∀ r ∈ items, RawRead true depth r) ∧ IsRest items left ∧ Lexed rest

def ReadsEntries (fuel : Nat) : Prop := ∀ depth ts entries left rest, Lexed ts →
  takeEntries fuel depth ts = some (entries, left, rest) →
  (∀ key r, (key, r) ∈ entries → KeyRead IsSpace IsSpace key ∧ RawRead true depth r) ∧ IsRest entries left ∧ Lexed rest

section Values

variable {inside : Bool} {fuel depth : Nat} {ts : List Token} {left : List Char}

theorem lexed_opening (inside : Bool) (h : Lexed ts) : Lexed (opening inside ts).2 ∧
    (Goes inside (opening inside ts).2 → IsBefore inside (opening inside ts).1) := by
  cases inside with
  | true =>
    obtain ⟨-, hs, hl⟩ := lexed_takeSpace h
    exact ⟨hl, fun hg => hs (hg rfl)⟩
  | false =>
    obtain ⟨hb, hl⟩ := lexed_takeBlanks h
    exact ⟨hl, fun _ => hb⟩

theorem lexed_closing (inside : Bool) (h : Lexed ts) : Lexed (closing inside ts).2 ∧
    (Goes inside (closing inside ts).2 → IsAfter inside (closing inside ts).1) := by
  cases inside with
  | true =>
    obtain ⟨-, hs, hl⟩ := lexed_takeSpace h
    exact ⟨hl, fun hg => hs (hg rfl)⟩
  | false =>
    obtain ⟨hb, hl⟩ := lexed_takeTail h
    exact ⟨hl, fun _ => hb⟩

theorem starts_takeBlanks (ts : List Token) : starts Token.isBlanks (takeBlanks ts).2 = false := by
  fun_induction takeBlanks ts with
  | case1 text rest ih => exact ih
  | case2 ts h =>
    cases ts with
    | nil => rfl
    | cons t ts =>
      cases t with
      | blank text => exact absurd rfl (h text ts)
      | _ => rfl

theorem starts_takeSpace (ts : List Token) : starts Token.isBlanks (takeSpace ts).2 = false := by
  fun_induction takeSpace ts with
  | case1 text rest ih => exact ih
  | case2 text rest ih => exact ih
  | case3 text rest ih => exact ih
  | case4 ts h =>
    cases ts with
    | nil => rfl
    | cons t ts =>
      cases t with
      | blank text => exact absurd rfl (h text ts)
      | _ => rfl

theorem starts_opening (inside : Bool) (ts : List Token) : starts Token.isBlanks (opening inside ts).2 = false := by
  cases inside with
  | true => exact starts_takeSpace ts
  | false => exact starts_takeBlanks ts

/-- What is closed goes on already in front of it. -/
theorem Goes.of_closing (h : Goes inside (closing inside ts).2) : Goes inside ts := by
  rintro rfl rfl
  exact h rfl rfl

theorem Goes.of_scalar (h : Goes inside (takeScalar ts).2) : Goes inside ts := by
  rintro rfl rfl
  exact h rfl rfl

/-- What a value is taken from: a string, brackets with their contents, or words. -/
inductive TakesValue (inside : Bool) (fuel depth : Nat) (ts : List Token) : Raw → List Token → Prop
  | string {before text : List Char} {us : List Token} : opening inside ts = (before, .string text :: us) →
    TakesValue inside fuel depth ts (.scalar before text (closing inside us).1) (closing inside us).2
  | array {before left : List Char} {us vs : List Token} {items : List Raw} :
    opening inside ts = (before, .mark '[' :: us) → depth ≠ 0 → takeItems fuel (depth - 1) us = some (items, left, vs) →
    TakesValue inside fuel depth ts (.array before items left (closing inside vs).1) (closing inside vs).2
  | table {before left : List Char} {us vs : List Token} {entries : List (Key × Raw)} :
    opening inside ts = (before, .mark '\x7b' :: us) → depth ≠ 0 →
    takeEntries fuel (depth - 1) us = some (entries, left, vs) →
    TakesValue inside fuel depth ts (.table before entries left (closing inside vs).1) (closing inside vs).2
  | words {before : List Char} {us : List Token} : opening inside ts = (before, us) →
    TakesValue inside fuel depth ts (.scalar before (takeScalar us).1 (closing inside (takeScalar us).2).1)
      (closing inside (takeScalar us).2).2

/-- What items are taken from: the closing bracket, or an item and what the mark behind it says. -/
inductive TakesItems (fuel depth : Nat) (ts : List Token) : List Raw → List Char → List Token → Prop
  | none {space : List Char} {rest : List Token} : takeSpace ts = (space, .mark ']' :: rest) →
    TakesItems fuel depth ts [] space rest
  | last {item : Raw} {rest : List Token} : takeValue true fuel depth ts = some (item, .mark ']' :: rest) →
    TakesItems fuel depth ts [item] [] rest
  | more {item : Raw} {us rest : List Token} {items : List Raw} {left : List Char} :
    takeValue true fuel depth ts = some (item, .mark ',' :: us) → takeItems fuel depth us = some (items, left, rest) →
    TakesItems fuel depth ts (item :: items) (restOf items left) rest

/-- The same of entries, of which one may lack its value. -/
inductive TakesEntries (fuel depth : Nat) (ts : List Token) : List (Key × Raw) → List Char → List Token → Prop
  | none {space : List Char} {rest : List Token} : takeSpace ts = (space, .mark '\x7d' :: rest) →
    TakesEntries fuel depth ts [] space rest
  | last {space more : List Char} {us vs rest : List Token} {raw : Raw} : takeSpace ts = (space, us) →
    takeSpace (takeKey space us).2 = (more, .mark '=' :: vs) →
    takeValue true fuel depth vs = some (raw, .mark '\x7d' :: rest) →
    TakesEntries fuel depth ts [(extend more (takeKey space us).1, raw)] [] rest
  | more {space more left : List Char} {us vs ws rest : List Token} {raw : Raw} {entries : List (Key × Raw)} :
    takeSpace ts = (space, us) → takeSpace (takeKey space us).2 = (more, .mark '=' :: vs) →
    takeValue true fuel depth vs = some (raw, .mark ',' :: ws) → takeEntries fuel depth ws = some (entries, left, rest) →
    TakesEntries fuel depth ts ((extend more (takeKey space us).1, raw) :: entries) (restOf entries left) rest
  | bare {space more : List Char} {us rest : List Token} : takeSpace ts = (space, us) →
    takeSpace (takeKey space us).2 = (more, .mark '\x7d' :: rest) →
    TakesEntries fuel depth ts [(extend more (takeKey space us).1, .scalar [] [] [])] [] rest

theorem takesValue {raw : Raw} {rest : List Token} (h : takeValue inside (fuel + 1) depth ts = some (raw, rest)) :
    TakesValue inside fuel depth ts raw rest := by
  rw [takeValue, ← opening] at h
  generalize ho : opening inside ts = p at h
  obtain ⟨before, us⟩ := p
  dsimp only at h
  split at h
  · next text vs =>
    cases h
    exact .string ho
  · next vs =>
    by_cases hd : depth = 0
    · rw [if_pos hd] at h
      cases h
    · rw [if_neg hd] at h
      obtain ⟨⟨items, left, ws⟩, hw, h⟩ := Option.bind_eq_some_iff.1 h
      cases h
      exact .array ho hd hw
  · next vs =>
    by_cases hd : depth = 0
    · rw [if_pos hd] at h
      cases h
    · rw [if_neg hd] at h
      obtain ⟨⟨entries, left, ws⟩, hw, h⟩ := Option.bind_eq_some_iff.1 h
      cases h
      exact .table ho hd hw
  · cases h
  · cases h
  · cases h
  · cases h
    exact .words ho

theorem takesItems {items : List Raw} {rest : List Token} (h : takeItems (fuel + 1) depth ts = some (items, left, rest)) :
    TakesItems fuel depth ts items left rest := by
  rw [takeItems] at h
  split at h
  · next space us hs =>
    cases h
    exact .none hs
  · obtain ⟨⟨item, us⟩, hw, h⟩ := Option.bind_eq_some_iff.1 h
    split at h
    · next he =>
      cases he
      cases h
      exact .last hw
    · next he =>
      cases he
      obtain ⟨⟨more, left, ws⟩, hm, h⟩ := Option.bind_eq_some_iff.1 h
      cases h
      exact .more hw hm
    · cases h

theorem takesEntries {entries : List (Key × Raw)} {rest : List Token}
    (h : takeEntries (fuel + 1) depth ts = some (entries, left, rest)) : TakesEntries fuel depth ts entries left rest := by
  rw [takeEntries] at h
  split at h
  · next space us hs =>
    cases h
    exact .none hs
  · next space us hn hs =>
    dsimp only at h
    split at h
    · next more vs hm =>
      obtain ⟨⟨raw, ws⟩, hw, h⟩ := Option.bind_eq_some_iff.1 h
      split at h
      · next he =>
        cases he
        cases h
        exact .last hs hm hw
      · next he =>
        cases he
        obtain ⟨⟨entries, left, ws⟩, he, h⟩ := Option.bind_eq_some_iff.1 h
        cases h
        exact .more hs hm hw he
      · cases h
    · next more vs hm =>
      cases h
      exact .bare hs hm
    · cases h

theorem readsValues_succ (hi : ReadsItems fuel) (he : ReadsEntries fuel) : ReadsValues (fuel + 1) := by
  intro inside depth ts raw rest h ht hg
  obtain ⟨hl, hb⟩ := lexed_opening inside h
  have hs := starts_opening inside ts
  cases takesValue ht with
  | string ho =>
    rw [ho] at hl hb
    obtain ⟨hlc, hc⟩ := lexed_closing inside hl.tail
    exact ⟨.scalar (hb fun _ => List.cons_ne_nil _ _) (hc hg) (.inr hl.formed), hlc⟩
  | array ho hd hw =>
    rw [ho] at hl hb
    obtain ⟨hr, hrest, hw⟩ := hi _ _ _ _ _ hl.tail hw
    obtain ⟨hlc, hc⟩ := lexed_closing inside hw
    obtain ⟨d, rfl⟩ := Nat.exists_eq_succ_of_ne_zero hd
    exact ⟨.array (hb fun _ => List.cons_ne_nil _ _) (hc hg) hrest hr, hlc⟩
  | table ho hd hw =>
    rw [ho] at hl hb
    obtain ⟨hr, hrest, hw⟩ := he _ _ _ _ _ hl.tail hw
    obtain ⟨hlc, hc⟩ := lexed_closing inside hw
    obtain ⟨d, rfl⟩ := Nat.exists_eq_succ_of_ne_zero hd
    refine ⟨.table (hb fun _ => List.cons_ne_nil _ _) (hc hg) hrest (fun key r hm => (hr key r hm).1) ?_, hlc⟩
    exact fun key r hm => (hr key r hm).2
  | words ho =>
    rw [ho] at hl hb hs
    obtain ⟨hp, hl, -, hn⟩ := lexed_takeScalar hl
    obtain ⟨hlc, hc⟩ := lexed_closing inside hl
    exact ⟨.scalar (hb hg.of_closing.of_scalar) (hc hg) (.inl ⟨hp, hn hs⟩), hlc⟩

theorem isRest_restOf {α : Type} {items : List α} (item : α) (h : IsRest items left) :
    IsRest (item :: items) (restOf items left) := by
  rw [IsRest, if_neg (by simp)]
  cases items with
  | nil => exact .inr ⟨left, rfl, by simpa [IsRest] using h⟩
  | cons next items =>
    rw [IsRest, if_neg (by simp)] at h
    exact h

theorem readsItems_succ (hv : ReadsValues fuel) (hi : ReadsItems fuel) : ReadsItems (fuel + 1) := by
  intro depth ts items left rest h ht
  cases takesItems ht with
  | none hs =>
    obtain ⟨-, hspace, hl⟩ := lexed_takeSpace h
    rw [hs] at hspace hl
    exact ⟨List.forall_mem_nil _, hspace (List.cons_ne_nil _ _), hl.tail⟩
  | last hw =>
    obtain ⟨hr, hl⟩ := hv _ _ _ _ _ h hw fun _ => List.cons_ne_nil _ _
    refine ⟨fun r hm => ?_, .inl rfl, hl.tail⟩
    rwa [List.mem_singleton.1 hm]
  | more hw hm =>
    obtain ⟨hr, hl⟩ := hv _ _ _ _ _ h hw fun _ => List.cons_ne_nil _ _
    obtain ⟨hmore, hrest, hl⟩ := hi _ _ _ _ _ hl.tail hm
    exact ⟨List.forall_mem_cons.2 ⟨hr, hmore⟩, isRest_restOf _ hrest, hl⟩

/-- A key that something follows is read, and something follows the space in front of it. -/
theorem lexed_entryKey {space more : List Char} {us vs : List Token} {t : Token} (hl : Lexed us)
    (hspace : us ≠ [] → IsSpace space) (hm : takeSpace (takeKey space us).2 = (more, t :: vs)) :
    us ≠ [] ∧ KeyRead IsBlanks IsSpace (takeKey space us).1 ∧ Lexed (takeKey space us).2 ∧ IsSpace more ∧
      Lexed (t :: vs) := by
  have hne : us ≠ [] := by
    rintro rfl
    cases hm
  obtain ⟨hk, hlk⟩ := lexed_takeKey hl isSpace_append_blanks (hspace hne)
  obtain ⟨-, hmore, hvs⟩ := lexed_takeSpace hlk
  rw [hm] at hmore hvs
  exact ⟨hne, hk, hlk, hmore (List.cons_ne_nil _ _), hvs⟩

theorem readsEntries_succ (hv : ReadsValues fuel) (he : ReadsEntries fuel) : ReadsEntries (fuel + 1) := by
  intro depth ts entries left rest h ht
  obtain ⟨-, hspace, hl⟩ := lexed_takeSpace h
  have hkey {space more : List Char} {us vs : List Token} {t : Token} (hs : takeSpace ts = (space, us))
      (hm : takeSpace (takeKey space us).2 = (more, t :: vs)) :
      KeyRead IsSpace IsSpace (extend more (takeKey space us).1) ∧ Lexed (t :: vs) := by
    rw [hs] at hspace hl
    obtain ⟨-, hk, -, hmore, hvs⟩ := lexed_entryKey hl hspace hm
    exact ⟨hk.extend hmore, hvs⟩
  cases takesEntries ht with
  | none hs =>
    rw [hs] at hspace hl
    exact ⟨fun _ _ hm => (by cases hm), hspace (List.cons_ne_nil _ _), hl.tail⟩
  | last hs hm hw =>
    obtain ⟨hk, hlk⟩ := hkey hs hm
    obtain ⟨hr, hl⟩ := hv _ _ _ _ _ hlk.tail hw fun _ => List.cons_ne_nil _ _
    refine ⟨fun key r hm => ?_, .inl rfl, hl.tail⟩
    obtain ⟨rfl, rfl⟩ := Prod.mk.inj (List.mem_singleton.1 hm)
    exact ⟨hk, hr⟩
  | more hs hm hw hes =>
    obtain ⟨hk, hlk⟩ := hkey hs hm
    obtain ⟨hr, hl⟩ := hv _ _ _ _ _ hlk.tail hw fun _ => List.cons_ne_nil _ _
    obtain ⟨hmore, hrest, hl⟩ := he _ _ _ _ _ hl.tail hes
    refine ⟨fun key r hm => ?_, isRest_restOf _ hrest, hl⟩
    rcases List.mem_cons.1 hm with hm | hm
    · obtain ⟨rfl, rfl⟩ := Prod.mk.inj hm
      exact ⟨hk, hr⟩
    · exact hmore key r hm
  | bare hs hm =>
    obtain ⟨hk, hlk⟩ := hkey hs hm
    refine ⟨fun key r hm => ?_, .inl rfl, hlk.tail⟩
    obtain ⟨rfl, rfl⟩ := Prod.mk.inj (List.mem_singleton.1 hm)
    exact ⟨hk, .scalar .nil .nil (.inl ⟨.nil, ahead_nil _⟩)⟩

/-- Values, items and entries are read well. -/
theorem reads_all (fuel : Nat) : ReadsValues fuel ∧ ReadsItems fuel ∧ ReadsEntries fuel := by
  induction fuel with
  | zero =>
    refine ⟨fun _ _ _ _ _ _ h => ?_, fun _ _ _ _ _ _ h => ?_, fun _ _ _ _ _ _ h => ?_⟩
    · rw [takeValue] at h
      cases h
    · rw [takeItems] at h
      cases h
    · rw [takeEntries] at h
      cases h
  | succ fuel ih =>
    obtain ⟨hv, hi, he⟩ := ih
    exact ⟨readsValues_succ hi he, readsItems_succ hv hi, readsEntries_succ hv he⟩

end Values

/-! ## Lines -/

/-- A line as it is read. -/
inductive LineRead : Line → Prop
  | entry {key : Key} {raw : Raw} : KeyRead IsBlanks IsSpace key → RawRead false nestingLimit raw →
    LineRead (.entry key raw)
  | header {lead tail : List Char} {repeated : Bool} {key : Key} : IsSpace lead → IsTail tail →
    KeyRead IsBlanks IsBlanks key → LineRead (.header lead repeated key tail)

section Lines

variable {ts rest : List Token} {lead : List Char} {line : Line}

theorem lexed_dropLine (h : Lexed ts) : Lexed (dropLine ts) := by
  fun_induction dropLine ts with
  | case1 => exact h
  | case2 t rest _ ih => exact ih h.tail
  | case3 => exact h

/-- The key of a header, behind its first bracket and maybe a second one. -/
theorem lexed_headerKey {repeated : Bool} {us vs : List Token} {key : Key} (hp : (match ts with
    | .mark '[' :: ts => (true, ts)
    | ts => (false, ts)) = (repeated, us)) (hs : takeKey [] us = (key, vs)) (h : Lexed ts) :
    KeyRead IsBlanks IsBlanks key ∧ Lexed vs := by
  have hus : Lexed us := by
    split at hp
    · cases hp
      exact h.tail
    · cases hp
      exact h
  have hk := lexed_takeKey hus (fun _ _ hw hb => hw.append hb) isBlanks_nil
  rwa [hs] at hk

theorem reads_header (hlead : IsSpace lead) (h : Lexed ts) (ht : header? lead ts = some (line, rest)) :
    LineRead line ∧ Lexed rest := by
  revert ht
  fun_cases header? lead ts with
  | case1 us key vs hs hp =>
    intro ht
    cases ht
    obtain ⟨hk, hl⟩ := lexed_headerKey hp hs h
    obtain ⟨ht, hl⟩ := lexed_takeTail hl.tail.tail
    exact ⟨.header hlead ht hk, hl⟩
  | case2 us key vs hs hp =>
    intro ht
    cases ht
    obtain ⟨hk, hl⟩ := lexed_headerKey hp hs h
    obtain ⟨ht, hl⟩ := lexed_takeTail hl.tail
    exact ⟨.header hlead ht hk, hl⟩
  | case3 => exact fun h => (by cases h)
  | case4 repeated us hp key vs _ hs =>
    intro ht
    cases ht
    obtain ⟨hk, hl⟩ := lexed_headerKey hp hs h
    exact ⟨.header hlead (.blanks isBlanks_nil) hk, lexed_dropLine hl⟩
  | case5 => exact fun h => (by cases h)

/-- An entry is a key, an equals sign and a value. -/
theorem exists_of_entry (h : entry? lead ts = some (line, rest)) : ∃ key us raw,
    takeKey lead ts = (key, .mark '=' :: us) ∧ value? us = some (raw, rest) ∧ line = .entry key raw := by
  rw [ entry?] at h
  split at h
  · next key us hs =>
    obtain ⟨⟨raw, vs⟩, hv, he⟩ := Option.map_eq_some_iff.1 h
    cases he
    exact ⟨key, us, raw, hs, hv, rfl⟩
  · cases h

theorem reads_entry (hlead : IsSpace lead) (h : Lexed ts) (ht : entry? lead ts = some (line, rest)) :
    LineRead line ∧ Lexed rest := by
  obtain ⟨hk, hl⟩ := lexed_takeKey h isSpace_append_blanks hlead
  obtain ⟨key, us, raw, hs, hv, rfl⟩ := exists_of_entry ht
  rw [hs] at hk hl
  obtain ⟨hr, hl⟩ := (reads_all _).1 _ _ _ _ _ hl.tail hv fun h => (by cases h)
  exact ⟨.entry hk hr, hl⟩

/-- What a line is taken from, behind the space in front of it. -/
inductive TakesLine (lead : List Char) : List Token → Line → List Token → Prop
  | header {us rest : List Token} {line : Line} : header? lead us = some (line, rest) →
    TakesLine lead (.mark '[' :: us) line rest
  | entry {ts rest : List Token} {line : Line} : entry? lead ts = some (line, rest) → TakesLine lead ts line rest

/-- What lines are taken from: space, or a line and those behind it. -/
inductive TakesLines (fuel : Nat) (ts : List Token) : List Line → List Char → Prop
  | none {lead : List Char} : takeSpace ts = (lead, []) → TakesLines fuel ts [] lead
  | last {lead : List Char} {t : Token} {us : List Token} {line : Line} : takeSpace ts = (lead, t :: us) →
    TakesLine lead (t :: us) line [] → TakesLines fuel ts [line] []
  | more {lead w text : List Char} {t : Token} {us rest : List Token} {line : Line} {lines : List Line} :
    takeSpace ts = (lead, t :: us) → TakesLine lead (t :: us) line (.newline text :: rest) →
    takeLines fuel rest = some (lines, w) → TakesLines fuel ts (line :: lines) w

/-- What is read behind a line. -/
def linesBehind (fuel : Nat) (line : Line) : List Token → Option (List Line × List Char)
  | [] => some ([line], [])
  | .newline _ :: rest => (takeLines fuel rest).bind fun p => some (line :: p.1, p.2)
  | _ => none

theorem takesLines {fuel : Nat} {lines : List Line} {w : List Char} (h : takeLines (fuel + 1) ts = some (lines, w)) :
    TakesLines fuel ts lines w := by
  rw [takeLines] at h
  split at h
  · next hs =>
    cases h
    exact .none hs
  · next lead t us hs =>
    have behind {line : Line} {vs : List Token} (ht : TakesLine lead (t :: us) line vs)
        (hb : linesBehind fuel line vs = some (lines, w)) : TakesLines fuel ts lines w := by
      rw [linesBehind.eq_def] at hb
      split at hb
      · cases hb
        exact .last hs ht
      · obtain ⟨⟨more, v⟩, hm, hb⟩ := Option.bind_eq_some_iff.1 hb
        cases hb
        exact .more hs ht hm
      · cases hb
    dsimp only at h
    split at h
    · next hmark =>
      obtain ⟨⟨line, vs⟩, hline, hb⟩ := Option.bind_eq_some_iff.1 h
      exact behind (hmark ▸ .header hline) hb
    · obtain ⟨⟨line, vs⟩, hline, hb⟩ := Option.bind_eq_some_iff.1 h
      exact behind (.entry hline) hb

theorem reads_line (hlead : IsSpace lead) (h : Lexed ts) (ht : TakesLine lead ts line rest) :
    LineRead line ∧ Lexed rest := by
  cases ht with
  | header ht => exact reads_header hlead h.tail ht
  | entry ht => exact reads_entry hlead h ht

theorem reads_lines {fuel : Nat} {lines : List Line} {w : List Char} (h : Lexed ts)
    (ht : takeLines fuel ts = some (lines, w)) : (∀ line ∈ lines, LineRead line) ∧ IsEnd w := by
  induction fuel generalizing ts lines w with
  | zero => cases ht
  | succ fuel ih =>
    obtain ⟨he, hs, hl⟩ := lexed_takeSpace h
    cases takesLines ht with
    | none hsp =>
      rw [hsp] at he
      exact ⟨List.forall_mem_nil _, he⟩
    | last hsp hline =>
      rw [hsp] at hs hl
      obtain ⟨hr, -⟩ := reads_line (hs (List.cons_ne_nil _ _)) hl hline
      exact ⟨List.forall_mem_singleton.2 hr, .space .nil⟩
    | more hsp hline hm =>
      rw [hsp] at hs hl
      obtain ⟨hr, hl⟩ := reads_line (hs (List.cons_ne_nil _ _)) hl hline
      obtain ⟨hmore, hend⟩ := ih hl.tail hm
      exact ⟨List.forall_mem_cons.2 ⟨hr, hmore⟩, hend⟩

/-- The lines of a text are read well. -/
theorem reads_source {text : List Char} {s : Source} (h : Source.read? text = some s) :
    (∀ line ∈ s.lines, LineRead line) ∧ IsEnd s.rest := by
  rw [Source.read?] at h
  split at h
  · next hs =>
    obtain ⟨⟨lines, w⟩, ht, rfl⟩ := Option.map_eq_some_iff.1 h
    exact reads_lines (lexed_ofText (List.all_eq_true.1 hs)) ht
  · cases h

end Lines

end SqlLint.Toml
