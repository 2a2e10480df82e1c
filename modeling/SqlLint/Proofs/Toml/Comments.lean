import SqlLint.Proofs.Toml.Reading
import Mathlib.Algebra.Order.Group.Multiset
import Mathlib.Tactic.Abel

/-! # Comments that are read

No comment of a text is lost when the text is cut into pieces: each one stands in front of something,
behind something or at the end of the text. -/
namespace SqlLint.Toml
open Token

def Token.comment? : Token → Option (List Char)
  | .comment text => some text
  | _ => none

/-- The comments among tokens, each as often as it is there. -/
def commentsAmong (ts : List Token) : Multiset (List Char) := ↑(ts.filterMap Token.comment?)

/-- The comments of a text. -/
def comments (cs : List Char) : Multiset (List Char) := commentsAmong (ofText cs)

/-! ## Texts -/

section Texts

variable {t : Token} {ts : List Token} {w r cs : List Char} {c : Char}

@[simp] theorem commentsAmong_nil : commentsAmong [] = 0 := rfl

@[simp] theorem commentsAmong_comment (text : List Char) (ts : List Token) :
    commentsAmong (.comment text :: ts) = {text} + commentsAmong ts := rfl

theorem commentsAmong_other (ht : t.comment? = none) (ts : List Token) : commentsAmong (t :: ts) = commentsAmong ts := by
  rw [commentsAmong, List.filterMap_cons_none ht]
  rfl

theorem commentsAmong_unify (ts : List Token) : commentsAmong (ts.map unify) = commentsAmong ts := by
  rw [commentsAmong, List.filterMap_map]
  congr 2
  funext t
  cases t <;> rfl

@[simp] theorem comments_nil : comments [] = 0 := by
  rw [comments, ofText]
  rfl

theorem comments_of_token (h : ofText cs = t :: ofText r) (ht : t.comment? = none) : comments cs = comments r := by
  rw [comments, h, commentsAmong_other ht]
  rfl

theorem comments_mark (h : isMark c = true) (r : List Char) : comments (c :: r) = comments r :=
  comments_of_token (ofText_mark h r) rfl

theorem comments_newline (r : List Char) : comments ('\n' :: r) = comments r :=
  comments_of_token (ofText_newline r) rfl

theorem comments_blank (h : isBlank c = true) (r : List Char) : comments (c :: r) = comments r := by
  have hc : comments (c :: r) = comments (r.dropWhile isBlank) := comments_of_token (ofText_blank h r) rfl
  rw [hc]
  cases r with
  | nil => rfl
  | cons d r =>
    by_cases hd : isBlank d = true
    · rw [List.dropWhile_cons_of_pos hd]
      exact (comments_of_token (ofText_blank hd r) rfl).symm
    · rw [List.dropWhile_cons_of_neg hd]

theorem comments_comment {t : List Char} (ht : ∀ c ∈ t, isShown c = true) (hr : Ahead endsLine r) :
    comments ('#' :: (t ++ r)) = {'#' :: t} + comments r := by
  rw [comments, ofText_comment ht hr, commentsAmong_comment]
  rfl

theorem comments_blanks_append (hw : IsBlanks w) (r : List Char) : comments (w ++ r) = comments r := by
  induction w with
  | nil => rfl
  | cons c w ih =>
    rw [List.cons_append, comments_blank (hw c List.mem_cons_self), ih fun d hd => hw d (List.mem_cons_of_mem _ hd)]

theorem comments_blanks (hw : IsBlanks w) : comments w = 0 := by
  rw [← List.append_nil w, comments_blanks_append hw, comments_nil]

/-- Space ends with its last comment's line, so that nothing behind it belongs to a comment of it. -/
theorem comments_space_append (hw : IsSpace w) (r : List Char) : comments (w ++ r) = comments w + comments r := by
  induction hw with
  | nil => rw [List.nil_append, comments_nil, zero_add]
  | blank h _ ih => rw [List.cons_append, comments_blank h, comments_blank h, ih]
  | newline _ ih => rw [List.cons_append, comments_newline, comments_newline, ih]
  | @comment t w ht _ ih =>
    have hline (x : List Char) : comments ('#' :: (t ++ '\n' :: x)) = {'#' :: t} + comments x := by
      rw [comments_comment ht (ahead_cons.2 rfl), comments_newline]
    rw [List.cons_append, List.append_assoc, List.cons_append, hline, hline, ih, add_assoc]

end Texts

/-! ## Pieces -/

section Pieces

variable {ts : List Token} {w more : List Char} {key : Key} {inside named : Bool} {s : Segment}

theorem comments_takeBlanks (h : Lexed ts) :
    commentsAmong ts = commentsAmong (takeBlanks ts).2 ∧ comments (takeBlanks ts).1 = 0 := by
  refine ⟨?_, comments_blanks (lexed_takeBlanks h).1⟩
  fun_induction takeBlanks ts with
  | case1 text rest ih => rw [commentsAmong_other rfl, ih h.tail]
  | case2 => rfl

/-- A comment is followed by a newline or by nothing. -/
theorem ahead_takeSpace {text : List Char} (h : Lexed (.comment text :: ts)) : Ahead endsLine (takeSpace ts).1 := by
  have hp : ts.head?.all Token.isNewline = true := h.precedes
  cases ts with
  | nil => exact ahead_nil _
  | cons u us =>
    cases u with
    | newline v =>
      obtain rfl : v = ['\n'] := h.tail.formed
      exact ahead_cons.2 rfl
    | _ => cases hp

theorem comments_takeSpace (h : Lexed ts) :
    commentsAmong ts = comments (takeSpace ts).1 + commentsAmong (takeSpace ts).2 := by
  fun_induction takeSpace ts with
  | case1 text rest ih => rw [commentsAmong_other rfl, ih h.tail, comments_blanks_append h.formed.1]
  | case2 text rest ih =>
    obtain rfl : text = ['\n'] := h.formed
    rw [commentsAmong_other rfl, ih h.tail, List.singleton_append, comments_newline]
  | case3 text rest ih =>
    have ha := ahead_takeSpace h
    obtain ⟨t, rfl, ht⟩ := h.formed
    rw [commentsAmong_comment, ih h.tail, List.cons_append, comments_comment ht ha, add_assoc]
  | case4 => rw [comments_nil, zero_add]

theorem comments_takeTail (h : Lexed ts) :
    commentsAmong ts = comments (takeTail ts).1 + commentsAmong (takeTail ts).2 := by
  obtain ⟨hts, hw⟩ := comments_takeBlanks h
  obtain ⟨hb, hl⟩ := lexed_takeBlanks h
  rw [takeTail]
  split
  · next blanks text rest he =>
    rw [he] at hts hb hl
    obtain ⟨t, rfl, ht⟩ := hl.formed
    have hc := comments_comment ht (ahead_nil endsLine)
    rw [List.append_nil, comments_nil, add_zero] at hc
    rw [hts, commentsAmong_comment, comments_blanks_append hb, hc]
  · rw [hw, zero_add, hts]

theorem comments_opening (inside : Bool) (h : Lexed ts) :
    commentsAmong ts = comments (opening inside ts).1 + commentsAmong (opening inside ts).2 := by
  cases inside with
  | true => exact comments_takeSpace h
  | false =>
    obtain ⟨hts, hw⟩ := comments_takeBlanks h
    rw [opening, if_neg Bool.false_ne_true, hw, zero_add, hts]

theorem comments_closing (inside : Bool) (h : Lexed ts) :
    commentsAmong ts = comments (closing inside ts).1 + commentsAmong (closing inside ts).2 := by
  cases inside with
  | true => exact comments_takeSpace h
  | false => exact comments_takeTail h

theorem comments_takeScalar (ts : List Token) : commentsAmong (takeScalar ts).2 = commentsAmong ts := by
  fun_induction takeScalar ts with
  | case1 text rest ih => rw [ih, commentsAmong_other rfl]
  | case2 rest ih => rw [ih, commentsAmong_other rfl]
  | case3 blanks text rest ih => rw [ih, commentsAmong_other rfl, commentsAmong_other rfl]
  | case4 blanks rest ih => rw [ih, commentsAmong_other rfl, commentsAmong_other rfl]
  | case5 => rfl

def Segment.comments (s : Segment) : Multiset (List Char) := Toml.comments s.before + Toml.comments s.after

def Key.comments (key : Key) : Multiset (List Char) := (key.map Segment.comments).sum

@[simp] theorem Key.comments_nil : Key.comments [] = 0 := rfl

@[simp] theorem Key.comments_cons (s : Segment) (key : Key) : Key.comments (s :: key) = s.comments + key.comments :=
  List.sum_cons

theorem comments_takeSegments (h : Lexed ts) (hb : IsSpace s.before) (ha : IsBlanks s.after) :
    s.comments + commentsAmong ts =
      Key.comments (takeSegments s named ts).1 + commentsAmong (takeSegments s named ts).2 := by
  fun_induction takeSegments s named ts with
  | case1 s text rest ih =>
    have hr := ih h.tail hb (ha.append h.formed.1)
    rw [← hr, commentsAmong_other rfl, Segment.comments, Segment.comments, comments_blanks (ha.append h.formed.1),
      comments_blanks ha]
  | case2 s named text rest _ ih =>
    have hr := ih h.tail (hb.append h.formed.1.isSpace) ha
    rw [← hr, commentsAmong_other rfl, Segment.comments, Segment.comments, comments_space_append hb,
      comments_blanks h.formed.1, add_zero]
  | case3 => simp
  | case4 s named text rest _ ih =>
    rw [commentsAmong_other rfl]
    exact ih h.tail hb ha
  | case5 => simp
  | case6 s named text rest _ ih =>
    rw [commentsAmong_other rfl]
    exact ih h.tail hb ha
  | case7 s named rest p ih =>
    have hr := ih h.tail .nil isBlanks_nil
    have hnone : Segment.comments {} = 0 := by simp [Segment.comments]
    rw [hnone, zero_add] at hr
    rw [commentsAmong_other rfl, hr, Key.comments_cons, add_assoc]
  | case8 => simp

theorem comments_takeKey (h : Lexed ts) (hw : IsSpace w) :
    comments w + commentsAmong ts = Key.comments (takeKey w ts).1 + commentsAmong (takeKey w ts).2 := by
  have hs : Segment.comments { before := w } + commentsAmong ts =
      Key.comments (takeKey w ts).1 + commentsAmong (takeKey w ts).2 := comments_takeSegments h hw isBlanks_nil
  rwa [Segment.comments, comments_nil, add_zero] at hs

theorem comments_extend {P : List Char → Prop} (h : KeyRead IsBlanks P key) (more : List Char) :
    Key.comments (extend more key) = key.comments + comments more := by
  induction h with
  | @last P s _ _ ha =>
    rw [extend, Key.comments_cons, Key.comments_cons, Segment.comments, Segment.comments, comments_blanks_append ha,
      comments_blanks ha]
    simp
  | @cons P s key _ _ _ hk ih =>
    have hstep : extend more (s :: key) = s :: extend more key := by
      cases hk <;> rfl
    rw [hstep, Key.comments_cons, Key.comments_cons, ih, add_assoc]

end Pieces

/-! ## Values -/

mutual
/-- The comments of a value: around it and between its items. -/
def Raw.comments : Raw → Multiset (List Char)
  | .scalar before _ after => Toml.comments before + Toml.comments after
  | .array before items rest after =>
    Toml.comments before + commentsOfItems items + Toml.comments rest + Toml.comments after
  | .table before entries rest after =>
    Toml.comments before + commentsOfPairs entries + Toml.comments rest + Toml.comments after

def commentsOfItems : List Raw → Multiset (List Char)
  | [] => 0
  | raw :: rest => raw.comments + commentsOfItems rest

def commentsOfPairs : List (Key × Raw) → Multiset (List Char)
  | [] => 0
  | (key, raw) :: rest => key.comments + raw.comments + commentsOfPairs rest
end

section Values

variable {fuel depth : Nat} {ts rest : List Token} {raw : Raw} {inside : Bool}

def KeepsValues (fuel : Nat) : Prop := ∀ inside depth ts raw rest, Lexed ts →
  takeValue inside fuel depth ts = some (raw, rest) → commentsAmong ts = raw.comments + commentsAmong rest

def KeepsItems (fuel : Nat) : Prop := ∀ depth ts items left rest, Lexed ts →
  takeItems fuel depth ts = some (items, left, rest) →
  commentsAmong ts = commentsOfItems items + comments left + commentsAmong rest

def KeepsEntries (fuel : Nat) : Prop := ∀ depth ts entries left rest, Lexed ts →
  takeEntries fuel depth ts = some (entries, left, rest) →
  commentsAmong ts = commentsOfPairs entries + comments left + commentsAmong rest

theorem keepsValues_succ (hi : KeepsItems fuel) (he : KeepsEntries fuel) : KeepsValues (fuel + 1) := by
  intro inside depth ts raw rest h ht
  have ho := comments_opening inside h
  obtain ⟨hl, -⟩ := lexed_opening inside h
  cases takesValue ht with
  | string hs =>
    rw [hs] at ho hl
    rw [ho, commentsAmong_other rfl, comments_closing inside hl.tail, Raw.comments, add_assoc]
  | array hs _ hw =>
    rw [hs] at ho hl
    obtain ⟨-, -, hlw⟩ := (reads_all fuel).2.1 _ _ _ _ _ hl.tail hw
    rw [ho, commentsAmong_other rfl, hi _ _ _ _ _ hl.tail hw, comments_closing inside hlw, Raw.comments]
    abel
  | table hs _ hw =>
    rw [hs] at ho hl
    obtain ⟨-, -, hlw⟩ := (reads_all fuel).2.2 _ _ _ _ _ hl.tail hw
    rw [ho, commentsAmong_other rfl, he _ _ _ _ _ hl.tail hw, comments_closing inside hlw, Raw.comments]
    abel
  | @words before us hs =>
    rw [hs] at ho hl
    obtain ⟨-, hls, -⟩ := lexed_takeScalar hl
    rw [ho, ← comments_takeScalar us, comments_closing inside hls, Raw.comments, add_assoc]

theorem comments_restOf {α : Type} (items : List α) (left : List Char) : comments (restOf items left) = comments left := by
  rw [restOf]
  split
  · exact comments_mark rfl left
  · rfl

/-- What is read behind an item that a mark follows. -/
theorem lexed_behind {c : Char} (h : Lexed ts) (hv : takeValue true fuel depth ts = some (raw, .mark c :: rest)) :
    Lexed rest :=
  ((reads_all fuel).1 _ _ _ _ _ h hv fun _ => List.cons_ne_nil _ _).2.tail

theorem keepsItems_succ (hv : KeepsValues fuel) (hi : KeepsItems fuel) : KeepsItems (fuel + 1) := by
  intro depth ts items left rest h ht
  cases takesItems ht with
  | none hs =>
    have hspace := comments_takeSpace h
    rw [hs, commentsAmong_other rfl] at hspace
    rw [hspace, commentsOfItems, zero_add]
  | last hw =>
    rw [hv _ _ _ _ _ h hw, commentsAmong_other rfl, commentsOfItems, commentsOfItems, comments_nil, add_zero, add_zero]
  | more hw hm =>
    rw [hv _ _ _ _ _ h hw, commentsAmong_other rfl, hi _ _ _ _ _ (lexed_behind h hw) hm, commentsOfItems, comments_restOf]
    abel

theorem keepsEntries_succ (hv : KeepsValues fuel) (he : KeepsEntries fuel) : KeepsEntries (fuel + 1) := by
  intro depth ts entries left rest h ht
  obtain ⟨-, hspace, hl⟩ := lexed_takeSpace h
  have hcomments := comments_takeSpace h
  have hkey {space more : List Char} {us vs : List Token} {t : Token} (hs : takeSpace ts = (space, us))
      (hm : takeSpace (takeKey space us).2 = (more, t :: vs)) (ht : t.comment? = none) :
      commentsAmong ts = Key.comments (extend more (takeKey space us).1) + commentsAmong vs ∧ Lexed vs := by
    rw [hs] at hspace hl hcomments
    obtain ⟨hne, hk, hlk, -, hvs⟩ := lexed_entryKey hl hspace hm
    have hmore := comments_takeSpace hlk
    rw [hm, commentsAmong_other ht] at hmore
    refine ⟨?_, hvs.tail⟩
    rw [hcomments, comments_takeKey hl (hspace hne), hmore, comments_extend hk, add_assoc]
  cases takesEntries ht with
  | none hs =>
    rw [hs, commentsAmong_other rfl] at hcomments
    rw [hcomments, commentsOfPairs, zero_add]
  | last hs hm hw =>
    obtain ⟨hk, hlk⟩ := hkey hs hm rfl
    rw [hk, hv _ _ _ _ _ hlk hw, commentsAmong_other rfl, commentsOfPairs, commentsOfPairs, comments_nil]
    abel
  | more hs hm hw hes =>
    obtain ⟨hk, hlk⟩ := hkey hs hm rfl
    rw [hk, hv _ _ _ _ _ hlk hw, commentsAmong_other rfl, he _ _ _ _ _ (lexed_behind hlk hw) hes, commentsOfPairs,
      comments_restOf]
    abel
  | bare hs hm =>
    obtain ⟨hk, -⟩ := hkey hs hm rfl
    rw [hk, commentsOfPairs, commentsOfPairs, Raw.comments, comments_nil]
    abel

/-- Values, items and entries keep their comments. -/
theorem keeps_all (fuel : Nat) : KeepsValues fuel ∧ KeepsItems fuel ∧ KeepsEntries fuel := by
  induction fuel with
  | zero =>
    refine ⟨fun _ _ _ _ _ _ h => ?_, fun _ _ _ _ _ _ h => ?_, fun _ _ _ _ _ _ h => ?_⟩
    · rw [takeValue] at h
      cases h
    · rw [takeItems] at h
      cases h
    · rw [takeEntries] at h
      cases h
  | succ fuel ih =>
    obtain ⟨hv, hi, he⟩ := ih
    exact ⟨keepsValues_succ hi he, keepsItems_succ hv hi, keepsEntries_succ hv he⟩

end Values

/-! ## Lines -/

def Line.comments : Line → Multiset (List Char)
  | .entry key raw => key.comments + raw.comments
  | .header lead _ key tail => Toml.comments lead + key.comments + Toml.comments tail

/-- Whether a header has its last name. Behind one that lacks it nothing is read. -/
def Line.isNamed : Line → Bool
  | .entry .. => true
  | .header _ _ key _ => !isOpen key

def commentsOfLines (lines : List Line) : Multiset (List Char) := (lines.map Line.comments).sum

@[simp] theorem commentsOfLines_nil : commentsOfLines [] = 0 := rfl

@[simp] theorem commentsOfLines_cons (line : Line) (lines : List Line) :
    commentsOfLines (line :: lines) = line.comments + commentsOfLines lines := List.sum_cons

section Lines

variable {fuel : Nat} {ts rest : List Token} {lead : List Char} {line : Line}

theorem comments_headerKey {repeated : Bool} {us vs : List Token} {key : Key} (hp : (match ts with
    | .mark '[' :: ts => (true, ts)
    | ts => (false, ts)) = (repeated, us)) (hs : takeKey [] us = (key, vs)) (h : Lexed ts) :
    commentsAmong ts = key.comments + commentsAmong vs := by
  have hus : commentsAmong ts = commentsAmong us ∧ Lexed us := by
    split at hp
    · cases hp
      exact ⟨commentsAmong_other rfl _, h.tail⟩
    · cases hp
      exact ⟨rfl, h⟩
  have hk := comments_takeKey hus.2 .nil
  rw [hs, comments_nil, zero_add] at hk
  rw [hus.1, hk]

theorem comments_header (h : Lexed ts) (ht : header? lead ts = some (line, rest)) (hn : line.isNamed = true) :
    comments lead + commentsAmong ts = line.comments + commentsAmong rest := by
  revert ht
  fun_cases header? lead ts with
  | case1 us key vs hs hp =>
    intro ht
    cases ht
    obtain ⟨-, hl⟩ := lexed_headerKey hp hs h
    rw [comments_headerKey hp hs h, commentsAmong_other rfl, commentsAmong_other rfl, comments_takeTail hl.tail.tail, Line.comments]
    abel
  | case2 us key vs hs hp =>
    intro ht
    cases ht
    obtain ⟨-, hl⟩ := lexed_headerKey hp hs h
    rw [comments_headerKey hp hs h, commentsAmong_other rfl, comments_takeTail hl.tail, Line.comments]
    abel
  | case3 => exact fun h => (by cases h)
  | case4 repeated us hp key vs _ hs hopen =>
    intro ht
    cases ht
    rw [Line.isNamed, hopen] at hn
    cases hn
  | case5 => exact fun h => (by cases h)

theorem comments_entry (hlead : IsSpace lead) (h : Lexed ts) (ht : entry? lead ts = some (line, rest)) :
    comments lead + commentsAmong ts = line.comments + commentsAmong rest := by
  have hk := comments_takeKey h hlead
  obtain ⟨-, hl⟩ := lexed_takeKey h isSpace_append_blanks hlead
  obtain ⟨key, us, raw, hs, hv, rfl⟩ := exists_of_entry ht
  rw [hs] at hk hl
  rw [hk, commentsAmong_other rfl, (keeps_all _).1 _ _ _ _ _ hl.tail hv, Line.comments, add_assoc]

theorem comments_line (hlead : IsSpace lead) (h : Lexed ts) (ht : TakesLine lead ts line rest)
    (hn : line.isNamed = true) : comments lead + commentsAmong ts = line.comments + commentsAmong rest := by
  cases ht with
  | header ht =>
    rw [commentsAmong_other rfl]
    exact comments_header h.tail ht hn
  | entry ht => exact comments_entry hlead h ht

theorem comments_lines {lines : List Line} {w : List Char} (h : Lexed ts)
    (ht : takeLines fuel ts = some (lines, w)) (hn : ∀ line ∈ lines, line.isNamed = true) :
    commentsAmong ts = commentsOfLines lines + comments w := by
  induction fuel generalizing ts lines w with
  | zero => cases ht
  | succ fuel ih =>
    obtain ⟨-, hs, hl⟩ := lexed_takeSpace h
    have hspace := comments_takeSpace h
    cases takesLines ht with
    | none hsp =>
      rw [hsp, commentsAmong_nil, add_zero] at hspace
      rw [hspace, commentsOfLines_nil, zero_add]
    | last hsp hline =>
      rw [hsp] at hs hl hspace
      rw [hspace, comments_line (hs (List.cons_ne_nil _ _)) hl hline (hn _ List.mem_cons_self)]
      simp
    | more hsp hline hm =>
      rw [hsp] at hs hl hspace
      have hlead := hs (List.cons_ne_nil _ _)
      obtain ⟨-, hlv⟩ := reads_line hlead hl hline
      rw [hspace, comments_line hlead hl hline (hn _ List.mem_cons_self), commentsAmong_other rfl, commentsOfLines_cons,
        ih hlv.tail hm fun l hl => hn l (List.mem_cons_of_mem _ hl), add_assoc]

/-- No comment of a text is lost when it is cut into lines. -/
theorem comments_source {text : List Char} {s : Source} (h : Source.read? text = some s)
    (hn : ∀ line ∈ s.lines, line.isNamed = true) :
    comments (Source.dropMark text) = commentsOfLines s.lines + comments s.rest := by
  rw [Source.read?] at h
  split at h
  · next hs =>
    obtain ⟨⟨lines, w⟩, ht, rfl⟩ := Option.map_eq_some_iff.1 h
    have hl := lexed_ofText (List.all_eq_true.1 hs)
    rw [comments, ← commentsAmong_unify]
    exact comments_lines hl ht hn
  · cases h

end Lines

end SqlLint.Toml
