import SqlLint.Proofs.Toml.Spelling

/-! # Reading what is written

Keys and values that have the form of what is read are read as themselves wherever they stand. -/
namespace SqlLint.Toml
open Token

/-! ## Keys -/

section Keys

variable {path : List Label} {a b r : List Char}

/-- Whether a character ends a key, blanks apart. -/
def endsKey (c : Char) : Bool := c == '=' || c == ']' || c == '\n' || c == '#'

theorem endsKey_iff {c : Char} : endsKey c = true ↔ c = '=' ∨ c = ']' ∨ c = '\n' ∨ c = '#' := by
  simp [endsKey, or_assoc]

theorem takeSegments_stop (hr : Ahead endsKey r) (s : Segment) :
    takeSegments s true (ofText r) = ([s], ofText r) := by
  cases r with
  | nil =>
    rw [ofText]
    rfl
  | cons c r =>
    rcases endsKey_iff.1 (ahead_cons.1 hr) with rfl | rfl | rfl | rfl <;> rw [ofText_cons] <;> rfl

theorem isNoBlank_of_endsWord_of_endsKey {c : Char} (h : endsKey c = true) :
    isNoBlank c = true ∧ endsWord c = true := by
  rcases endsKey_iff.1 h with rfl | rfl | rfl | rfl <;> exact ⟨rfl, rfl⟩

theorem ahead_endsWord (ha : IsBlanks a) (hr : Ahead endsWord r) : Ahead endsWord (a ++ r) := by
  refine ahead_append (fun c rest hc => ?_) fun _ => hr
  subst hc
  rcases isBlank_iff.1 (ha c List.mem_cons_self) with rfl | rfl <;> rfl

/-- A path with blanks around it is read as its segments, behind a given text. -/
theorem takeSegments_path (hn : path ≠ []) (hp : ∀ l ∈ path, l.IsSpelled) (hb : IsBlanks b) (ha : IsBlanks a)
    (hr : Ahead endsKey r) (lead : List Char) :
    takeSegments ⟨lead, [], []⟩ false (ofText (b ++ (pathText path ++ (a ++ r)))) =
      (keyFrom (lead ++ b) a path, ofText r) := by
  have hstop : Ahead isNoBlank r := hr.mono fun c h => (isNoBlank_of_endsWord_of_endsKey h).1
  have hword : Ahead endsWord (a ++ r) := ahead_endsWord ha (hr.mono fun c h => (isNoBlank_of_endsWord_of_endsKey h).2)
  induction path generalizing lead b with
  | nil => exact absurd rfl hn
  | cons l ls ih =>
    have hl := hp l List.mem_cons_self
    have hname (x : List Char) : Ahead isNoBlank (l.text ++ x) :=
      (hl.text.ahead x).mono fun c h => isNoBlank_of_opens (opens_of_startsName h)
    cases ls with
    | nil =>
      rw [pathText, (takeSegments_blanks hb (hname _) _).1, takeSegments_name hl.text hword,
        (takeSegments_blanks ha hstop _).2, takeSegments_stop hr]
      rfl
    | cons l' ls =>
      have hpoint : Ahead isNoBlank ('.' :: (l'.before ++ (pathText (l' :: ls) ++ (a ++ r)))) := ahead_cons.2 rfl
      have htext : b ++ (pathText (l :: l' :: ls) ++ (a ++ r)) =
          b ++ (l.text ++ (l.after ++ '.' :: (l'.before ++ (pathText (l' :: ls) ++ (a ++ r))))) := by
        simp [pathText]
      rw [htext, (takeSegments_blanks hb (hname _) _).1,
        takeSegments_name hl.text (ahead_endsWord hl.after (ahead_cons.2 rfl)), (takeSegments_blanks hl.after hpoint _).2,
        ofText_mark rfl, takeSegments]
      have h := ih (by simp) (fun k hk => hp k (List.mem_cons_of_mem _ hk)) (hp l' (by simp)).before []
      rw [h]
      rfl

theorem ahead_pathText (hp : IsPath path) (r : List Char) : Ahead startsName (pathText path ++ r) := by
  obtain ⟨l, ls, rfl⟩ := List.exists_cons_of_ne_nil hp.ne_nil
  have hl := (hp.spelled l List.mem_cons_self).text
  cases ls with
  | nil => exact hl.ahead r
  | cons l' ls =>
    have h := hl.ahead (l.after ++ '.' :: (l'.before ++ (pathText (l' :: ls) ++ r)))
    simpa [pathText] using h

theorem lexes_pathText (hn : path ≠ []) (hp : ∀ l ∈ path, l.IsSpelled) (hr : Ahead endsWord r) :
    Lexes (pathText path ++ r) r := by
  induction path with
  | nil => exact absurd rfl hn
  | cons l ls ih =>
    have hl := hp l List.mem_cons_self
    cases ls with
    | nil => exact lexes_name hl.text hr
    | cons l' ls =>
      have htext : pathText (l :: l' :: ls) ++ r =
          l.text ++ (l.after ++ '.' :: (l'.before ++ (pathText (l' :: ls) ++ r))) := by simp [pathText]
      rw [htext]
      refine .trans (lexes_name hl.text (ahead_endsWord hl.after (ahead_cons.2 rfl))) ?_
      refine .trans (lexes_space hl.after.isSpace _) (.trans (.of_token (ofText_mark rfl _) (isClean_mark _)) ?_)
      refine .trans (lexes_space (hp l' (by simp)).before.isSpace _) ?_
      exact ih (by simp) fun k hk => hp k (List.mem_cons_of_mem _ hk)

theorem extend_keyFrom (hn : path ≠ []) (more before after : List Char) :
    extend more (keyFrom before after path) = keyFrom before (after ++ more) path := by
  fun_induction keyFrom before after path with
  | case1 => exact absurd rfl hn
  | case2 => rfl
  | case3 before l l' ls ih =>
    obtain ⟨s, key, hs⟩ : ∃ s key, keyFrom l'.before after (l' :: ls) = s :: key := by
      cases ls <;> exact ⟨_, _, rfl⟩
    rw [hs] at ih
    rw [hs, extend, ih (by simp), keyFrom]
    exact fun h => by cases h

end Keys

/-! ## Equations of the reader -/

/-- What is read in front of a value. -/
def opening (inside : Bool) (ts : List Token) : List Char × List Token :=
  if inside then takeSpace ts else takeBlanks ts

/-- What is read behind a value. -/
def closing (inside : Bool) (ts : List Token) : List Char × List Token :=
  if inside then takeSpace ts else takeTail ts

section Equations

variable {inside : Bool} {fuel depth : Nat} {ts us vs : List Token} {before text space left : List Char}
  {p : List Char × List Token}

theorem takeValue_string (ho : opening inside ts = (before, .string text :: us)) :
    takeValue inside (fuel + 1) depth ts =
      some (.scalar before text (closing inside us).1, (closing inside us).2) := by
  rw [takeValue, ← opening, ho]
  rfl

theorem takeValue_words (ho : opening inside ts = (before, us))
    (hu : (∃ w vs, us = .word w :: vs) ∨ ∃ vs, us = .mark '.' :: vs) (hs : takeScalar us = (text, vs)) :
    takeValue inside (fuel + 1) depth ts =
      some (.scalar before text (closing inside vs).1, (closing inside vs).2) := by
  have hmatch : takeValue inside (fuel + 1) depth ts =
      some (.scalar before (takeScalar us).1 (closing inside (takeScalar us).2).1, (closing inside (takeScalar us).2).2) := by
    rw [takeValue, ← opening, ho]
    rcases hu with ⟨w, us, rfl⟩ | ⟨us, rfl⟩ <;> rfl
  rw [hmatch, hs]

theorem takeValue_array {items : List Raw} (ho : opening inside ts = (before, .mark '[' :: us))
    (hi : takeItems fuel depth us = some (items, left, vs)) :
    takeValue inside (fuel + 1) (depth + 1) ts =
      some (.array before items left (closing inside vs).1, (closing inside vs).2) := by
  rw [takeValue, ← opening, ho]
  simp only [Nat.add_sub_cancel, hi]
  rfl

theorem takeValue_table {entries : List (Key × Raw)} (ho : opening inside ts = (before, .mark '\x7b' :: us))
    (hi : takeEntries fuel depth us = some (entries, left, vs)) :
    takeValue inside (fuel + 1) (depth + 1) ts =
      some (.table before entries left (closing inside vs).1, (closing inside vs).2) := by
  rw [takeValue, ← opening, ho]
  simp only [Nat.add_sub_cancel, hi]
  rfl

theorem takeItems_nil (hs : takeSpace ts = (space, .mark ']' :: us)) :
    takeItems (fuel + 1) depth ts = some ([], space, us) := by
  rw [takeItems, hs]
  rfl

theorem takeItems_last {item : Raw} (hs : ∀ space us, takeSpace ts ≠ (space, .mark ']' :: us))
    (hv : takeValue true fuel depth ts = some (item, .mark ']' :: us)) :
    takeItems (fuel + 1) depth ts = some ([item], [], us) := by
  rw [takeItems]
  split
  · next h => exact absurd h (hs _ _)
  · rw [hv]
    rfl

theorem takeItems_cons {item : Raw} {items : List Raw} (hs : ∀ space us, takeSpace ts ≠ (space, .mark ']' :: us))
    (hv : takeValue true fuel depth ts = some (item, .mark ',' :: us))
    (hi : takeItems fuel depth us = some (items, left, vs)) :
    takeItems (fuel + 1) depth ts = some (item :: items, restOf items left, vs) := by
  rw [takeItems]
  split
  · next h => exact absurd h (hs _ _)
  · rw [hv]
    simp only [bind, Option.bind, hi]

theorem takeEntries_nil (hs : takeSpace ts = (space, .mark '\x7d' :: us)) :
    takeEntries (fuel + 1) depth ts = some ([], space, us) := by
  rw [takeEntries, hs]
  rfl

variable {key : Key} {value : Raw} {after : List Char} {ks es : List Token}

theorem takeEntries_last (hs : takeSpace ts = (space, ks)) (hn : ∀ us, ks ≠ .mark '\x7d' :: us)
    (hk : takeKey space ks = (key, es)) (he : takeSpace es = (after, .mark '=' :: us))
    (hv : takeValue true fuel depth us = some (value, .mark '\x7d' :: vs)) :
    takeEntries (fuel + 1) depth ts = some ([(extend after key, value)], [], vs) := by
  rw [takeEntries, hs]
  split
  · next h => exact absurd (Prod.mk.inj h).2 (hn _)
  · next h =>
    obtain ⟨rfl, rfl⟩ := Prod.mk.inj h
    simp only [hk, he, bind, Option.bind, hv]

theorem takeEntries_cons {entries : List (Key × Raw)} {ws : List Token} (hs : takeSpace ts = (space, ks))
    (hn : ∀ us, ks ≠ .mark '\x7d' :: us) (hk : takeKey space ks = (key, es))
    (he : takeSpace es = (after, .mark '=' :: us))
    (hv : takeValue true fuel depth us = some (value, .mark ',' :: vs))
    (hi : takeEntries fuel depth vs = some (entries, left, ws)) :
    takeEntries (fuel + 1) depth ts = some ((extend after key, value) :: entries, restOf entries left, ws) := by
  rw [takeEntries, hs]
  split
  · next h => exact absurd (Prod.mk.inj h).2 (hn _)
  · next h =>
    obtain ⟨rfl, rfl⟩ := Prod.mk.inj h
    simp only [hk, he, bind, Option.bind, hv, hi]

end Equations

/-! ## Values -/

section Values

variable {inside : Bool} {depth : Nat} {n : Node} {w r : List Char} {c : Char}

/-- Whether a character ends an item. -/
def endsItem (c : Char) : Bool := c == ',' || c == ']' || c == '\x7d'

theorem endsItem_iff : endsItem c = true ↔ c = ',' ∨ c = ']' ∨ c = '\x7d' := by
  simp [endsItem, or_assoc]

/-- What may follow a value, inside of brackets or not. -/
def Follows (inside : Bool) (r : List Char) : Prop := if inside then Ahead endsItem r else Ahead isNewline r

theorem opens_of_endsItem (h : endsItem c = true) : opens c = true := by
  rcases endsItem_iff.1 h with rfl | rfl | rfl <;> rfl

theorem opening_text (hw : IsBefore inside w) (hr : Ahead opens r) :
    opening inside (ofText (w ++ r)) = (w, ofText r) := by
  cases inside with
  | true => exact takeSpace_text hw hr
  | false => exact takeBlanks_text hw (hr.mono fun c => isNoBlank_of_opens)

theorem closing_text (hw : IsAfter inside w) (hr : Follows inside r) :
    closing inside (ofText (w ++ r)) = (w, ofText r) := by
  cases inside with
  | true => exact takeSpace_text hw (Ahead.mono hr fun c => opens_of_endsItem)
  | false => exact takeTail_text hw hr

theorem lexes_before (hw : IsBefore inside w) (r : List Char) : Lexes (w ++ r) r := by
  cases inside with
  | true => exact lexes_space hw r
  | false => exact lexes_space (IsBlanks.isSpace hw) r

theorem lexes_after (hw : IsAfter inside w) (hr : Follows inside r) : Lexes (w ++ r) r := by
  cases inside with
  | true => exact lexes_space hw r
  | false => exact lexes_tail hw hr

theorem IsSpace.ahead (hw : IsSpace w) (ha : Ahead isNoBlank w) : Ahead (fun c => c == '\n' || c == '#') w := by
  cases hw with
  | nil => exact ahead_nil _
  | blank h _ =>
    have hc := ahead_cons.1 ha
    rw [isNoBlank, h] at hc
    cases hc
  | newline _ => exact ahead_cons.2 rfl
  | comment _ _ => exact ahead_cons.2 rfl

/-- Behind blanks, what follows a scalar ends it. -/
theorem exists_endsScalar (hw : IsAfter inside w) (hr : Follows inside r) :
    ∃ b y, w ++ r = b ++ y ∧ IsBlanks b ∧ Ahead endsScalar y := by
  cases inside with
  | true =>
    obtain ⟨b, s, rfl, hb, hs, ha⟩ := IsSpace.split hw
    refine ⟨b, s ++ r, List.append_assoc .., hb, ahead_append ((hs.ahead ha).mono fun c hc => ?_) fun _ => ?_⟩
    · rcases (by simpa using hc : c = '\n' ∨ c = '#') with rfl | rfl <;> rfl
    · exact Ahead.mono hr fun c hc => by rcases endsItem_iff.1 hc with rfl | rfl | rfl <;> rfl
  | false =>
    cases hw with
    | blanks hb => exact ⟨w, r, rfl, hb, Ahead.mono hr fun c hc => by rw [isNewline_iff.1 hc]; rfl⟩
    | @comment b t hb ht => exact ⟨b, '#' :: t ++ r, List.append_assoc .., hb, ahead_cons.2 rfl⟩

theorem ahead_endsWord_after (hw : IsAfter inside w) (hr : Follows inside r) : Ahead endsWord (w ++ r) := by
  obtain ⟨b, y, h, hb, hy⟩ := exists_endsScalar hw hr
  rw [h]
  refine ahead_endsWord hb (hy.mono fun c hc => ?_)
  rcases endsScalar_iff.1 hc with rfl | rfl | rfl | rfl | rfl <;> rfl

theorem takeScalar_after (hw : IsAfter inside w) (hr : Follows inside r) :
    takeScalar (ofText (w ++ r)) = ([], ofText (w ++ r)) := by
  obtain ⟨b, y, h, hb, hy⟩ := exists_endsScalar hw hr
  rw [h]
  exact takeScalar_stop hb hy

/-- Whether a character may be the first one of a value. -/
def startsValue (c : Char) : Bool := startsName c || c == '.' || c == '[' || c == '\x7b'

theorem opens_of_startsValue (h : startsValue c = true) : opens c = true := by
  rw [startsValue, Bool.or_eq_true, Bool.or_eq_true, Bool.or_eq_true, beq_iff_eq, beq_iff_eq, beq_iff_eq] at h
  rcases h with ((h | rfl) | rfl) | rfl
  · exact opens_of_startsName h
  · rfl
  · rfl
  · rfl

theorem not_ahead_blanks {b : List Char} (hb : IsBlanks b) (hb' : b ≠ []) (w : List Char) :
    ¬ Ahead isNoBlank (b ++ w) := by
  cases b with
  | nil => exact absurd rfl hb'
  | cons c b =>
    intro ha
    have hc := ahead_cons.1 ha
    rw [isNoBlank, hb c List.mem_cons_self] at hc
    cases hc

/-- The first token of a phrase is a word or a point. -/
theorem ofText_phrase {t : List Char} (ht : IsPhrase t) (hn : t ≠ []) (ha : Ahead isNoBlank t) (hr : Ahead endsWord r) :
    (∃ w us, ofText (t ++ r) = .word w :: us) ∨ ∃ us, ofText (t ++ r) = .mark '.' :: us := by
  cases ht with
  | nil => exact absurd rfl hn
  | @word t w ht hw _ =>
    rw [List.append_assoc]
    exact .inl ⟨t, _, ofText_word ht (ahead_append hw fun _ => hr)⟩
  | point _ => exact .inr ⟨_, ofText_mark rfl _⟩
  | blanks hb hb' _ _ _ => exact absurd ha (not_ahead_blanks hb hb' _)

theorem ahead_phrase {t : List Char} (ht : IsPhrase t) (hn : t ≠ []) (ha : Ahead isNoBlank t) (r : List Char) :
    Ahead startsValue (t ++ r) := by
  cases ht with
  | nil => exact absurd rfl hn
  | @word t w ht _ _ =>
    rw [List.append_assoc]
    exact ((IsName.ahead (.inl ht) _).mono fun c hc => by rw [startsValue, hc]; rfl)
  | point _ => exact ahead_cons.2 rfl
  | blanks hb hb' _ _ _ => exact absurd ha (not_ahead_blanks hb hb' _)

theorem IsScalar.ahead {t : List Char} (ht : IsScalar t) (r : List Char) : Ahead startsValue (t ++ r) := by
  cases ht with
  | phrase ht hn ha => exact ahead_phrase ht hn ha r
  | string ht => exact ((IsName.ahead (.inr ht) _).mono fun c hc => by rw [startsValue, hc]; rfl)

theorem lexes_scalar {t : List Char} (ht : IsScalar t) (hr : Ahead endsWord r) : Lexes (t ++ r) r := by
  cases ht with
  | phrase ht _ _ => exact lexes_phrase ht hr
  | string ht => exact lexes_name (.inr ht) hr

/-- A value starts behind what stands in front of it. -/
theorem Written.text_eq (h : Written inside depth n) :
    ∃ before core, n.text = before ++ core ∧ IsBefore inside before ∧ ∀ x, Ahead startsValue (core ++ x) := by
  cases h with
  | @scalar _ _ before text after s hb _ ht _ _ =>
    refine ⟨before, text ++ after, by rw [Node.text, List.append_assoc], hb, fun x => ?_⟩
    rw [List.append_assoc]
    exact ht.ahead _
  | @array _ _ before rest after items hb _ _ _ =>
    exact ⟨before, '[' :: commas (textsOf items) ++ rest ++ ']' :: after, by simp [Node.text], hb,
      fun x => ahead_cons.2 rfl⟩
  | @inline _ _ before rest after e hb _ _ _ _ _ _ =>
    exact ⟨before, '\x7b' :: commas (entryTexts [] e) ++ rest ++ '\x7d' :: after, by simp [Node.text], hb,
      fun x => ahead_cons.2 rfl⟩

end Values

end SqlLint.Toml
