import SqlLint.Proofs.Toml.Values

/-! # Documents are read as written

The text of a document whose tree is spelled well is cut into the lines of the tree, and these describe
the same table. -/
namespace SqlLint.Toml
open Token

/-- The values of a table that can be written as entries. -/
def LeavesSpelled (e : Entries) : Prop :=
  ∀ leaf ∈ leavesOf e, IsPath leaf.1 ∧ IsAround false (aroundOf ([], [' ']) leaf.1) ∧
    Written false nestingLimit leaf.2

/-- A section that can be written. -/
structure Section.IsSpelled (s : Section) : Prop where
  path : IsPath s.path
  before : IsBlanks (aroundOf ([], []) s.path).1
  after : IsBlanks (aroundOf ([], []) s.path).2
  lead : IsSpace s.header.lead
  tail : IsTail s.header.tail
  leaves : LeavesSpelled s.entries

/-- What may stand at the end of a text. -/
inductive IsEnd : List Char → Prop
  | space {w : List Char} : IsSpace w → IsEnd w
  | comment {w t : List Char} : IsSpace w → (∀ c ∈ t, isShown c = true) → IsEnd (w ++ '#' :: t)

/-- A document that can be written. -/
structure Document.IsSpelled (d : Document) : Prop where
  sound : d.entries.IsSound
  nodup : (placesOf d.entries).Nodup
  leaves : LeavesSpelled d.entries
  sections : ∀ s ∈ sectionsOf [] d.entries, s.IsSpelled
  rest : IsEnd d.rest

def entryLine (leaf : Item) : Line := .entry (rawEntry [] leaf).1 (rawEntry [] leaf).2

/-- The lines of a section. -/
def Section.lines (s : Section) : Lines :=
  ⟨s.header.lead, s.repeated, keyOf ([], []) s.path, s.header.tail, (leavesOf s.entries).map entryLine⟩

/-- The lines of a tree. -/
def linesOf (e : Entries) : List Line :=
  (leavesOf e).map entryLine ++ ((sortedSections e).map Section.lines).flatMap Lines.all

/-! ## Single lines -/

section Line

variable {ts us rest : List Token} {lead text w : List Char} {line : Line} {leaf : Item} {s : Section} {fuel : Nat}

theorem takeLines_header (hs : takeSpace ts = (lead, .mark '[' :: us))
    (hl : header? lead us = some (line, .newline w :: rest)) :
    takeLines (fuel + 1) ts = (takeLines fuel rest).map fun p => (line :: p.1, p.2) := by
  rw [takeLines, hs]
  simp only [if_true, hl, bind, Option.bind]
  cases takeLines fuel rest <;> rfl

theorem takeLines_entry {t : Token} (hs : takeSpace ts = (lead, t :: us)) (ht : t ≠ .mark '[')
    (hl : entry? lead (t :: us) = some (line, .newline w :: rest)) :
    takeLines (fuel + 1) ts = (takeLines fuel rest).map fun p => (line :: p.1, p.2) := by
  rw [takeLines, hs]
  simp only [if_neg ht, hl, bind, Option.bind]
  cases takeLines fuel rest <;> rfl

/-- A text that is read as one line, whatever follows. -/
structure ReadsLine (text : List Char) (line : Line) : Prop where
  take : ∀ r fuel, takeLines (fuel + 1) (ofText (text ++ '\n' :: r)) =
    (takeLines fuel (ofText r)).map fun p => (line :: p.1, p.2)
  lexes : ∀ r, Lexes (text ++ '\n' :: r) ('\n' :: r)
  no_mark : ∀ r, Ahead (· != '\ufeff') (text ++ r)

theorem IsSpace.no_mark (hw : IsSpace w) : Ahead (· != '\ufeff') w := by
  cases hw with
  | nil => exact ahead_nil _
  | blank h _ => rcases isBlank_iff.1 h with rfl | rfl <;> exact ahead_cons.2 rfl
  | newline _ => exact ahead_cons.2 rfl
  | comment _ _ => exact ahead_cons.2 rfl

/-- A name does not start with a byte order mark. -/
theorem Label.IsSpelled.no_mark {l : Label} (hl : l.IsSpelled) (r : List Char) :
    Ahead (· != '\ufeff') (l.text ++ r) := by
  obtain ⟨c, cs, ht⟩ : ∃ c cs, l.text = c :: cs := by
    rcases hl.text with ⟨c, cs, h, -⟩ | ⟨c, cs, h, -⟩ <;> exact ⟨c, cs, h⟩
  rw [ht]
  refine ahead_cons.2 (bne_iff_ne.2 fun hc => ?_)
  subst hc
  have hname := hl.name
  rw [ht] at hname
  cases cs with
  | nil => cases hname
  | cons b cs =>
    cases cs with
    | nil => cases hname
    | cons a cs => cases hname

theorem no_mark_pathText {path : List Label} (hp : IsPath path) (r : List Char) :
    Ahead (· != '\ufeff') (pathText path ++ r) := by
  obtain ⟨l, ls, rfl⟩ := List.exists_cons_of_ne_nil hp.ne_nil
  have hl := hp.spelled l List.mem_cons_self
  cases ls with
  | nil => exact hl.no_mark r
  | cons l' ls =>
    have h := hl.no_mark (l.after ++ '.' :: (l'.before ++ (pathText (l' :: ls) ++ r)))
    simpa [pathText] using h

/-- The first token of a path is not a bracket. -/
theorem exists_token_pathText {path : List Label} (hp : IsPath path) (r : List Char) :
    ∃ t us, ofText (pathText path ++ r) = t :: us ∧ t ≠ .mark '[' := by
  have hstart := ahead_pathText hp r
  cases hx : pathText path ++ r with
  | nil =>
    obtain ⟨l, ls, rfl⟩ := List.exists_cons_of_ne_nil hp.ne_nil
    have hl := (hp.spelled l List.mem_cons_self).text
    have ht : l.text ≠ [] := by
      rcases hl with ⟨c, cs, h, -⟩ | ⟨c, cs, h, -⟩ <;> rw [h] <;> simp
    cases ls <;> simp [pathText, ht] at hx
  | cons c x =>
    have hc := ahead_cons.1 (hx ▸ hstart)
    refine ⟨_, _, ofText_cons c x, ?_⟩
    rcases next_of_opens (opens_of_startsName hc) x with ⟨t, h⟩ | ⟨t, h⟩ | h <;> rw [h]
    · simp
    · simp
    · rintro ⟨⟩
      cases hc

theorem readsLine_entry (hp : IsPath leaf.1) (ha : IsAround false (aroundOf ([], [' ']) leaf.1))
    (hw : Written false nestingLimit leaf.2) : ReadsLine (entryText [] leaf) (entryLine leaf) := by
  constructor
  · intro r fuel
    obtain ⟨t, us, ht, hne⟩ := exists_token_pathText hp ((aroundOf ([], [' ']) leaf.1).2 ++ '=' :: (leaf.2.text ++ '\n' :: r))
    have hs := takeSpace_text ha.1 ((ahead_pathText hp ((aroundOf ([], [' ']) leaf.1).2 ++ '=' ::
      (leaf.2.text ++ '\n' :: r))).mono fun c => opens_of_startsName)
    have hk := takeSegments_path hp.ne_nil hp.spelled isBlanks_nil ha.2 (ahead_cons.2 rfl)
      (aroundOf ([], [' ']) leaf.1).1 (r := '=' :: (leaf.2.text ++ '\n' :: r))
    have hv := hw.rereads ('\n' :: r) _ (ahead_cons.2 rfl) (Nat.le_refl _)
    rw [entryText_append]
    rw [ht] at hs
    rw [List.nil_append, List.append_nil, ht, ofText_mark rfl] at hk
    refine takeLines_entry (w := ['\n']) hs hne ?_
    rw [ entry?, takeKey, hk]
    simp only [value?, hv, Option.map_some, ofText_newline]
    rfl
  · intro r
    rw [entryText_append]
    exact .trans (lexes_key hp ha _) (hw.lexes (ahead_cons.2 rfl))
  · intro r
    rw [entryText_append]
    exact ahead_append ha.1.no_mark fun _ => no_mark_pathText hp _

/-- The text of a header. -/
def headerText (s : Section) : List Char :=
  let brackets := if s.repeated then 2 else 1
  s.header.lead ++ List.replicate brackets '[' ++ keyText ([], []) s.path ++ List.replicate brackets ']' ++ s.header.tail

def headerLine (s : Section) : Line := .header s.header.lead s.repeated (keyOf ([], []) s.path) s.header.tail

theorem headerText_append (s : Section) (r : List Char) : headerText s ++ r =
    s.header.lead ++ '[' :: ((if s.repeated then ['['] else []) ++ ((aroundOf ([], []) s.path).1 ++ (pathText s.path ++
      ((aroundOf ([], []) s.path).2 ++ ']' :: ((if s.repeated then [']'] else []) ++ (s.header.tail ++ r)))))) := by
  rw [headerText, keyText, ← aroundOf]
  cases s.repeated <;> simp

/-- A key between brackets does not start with a bracket. -/
theorem exists_token_key {path : List Label} {b : List Char} (hp : IsPath path) (hb : IsBlanks b) (r : List Char) :
    ∀ us, ofText (b ++ (pathText path ++ r)) ≠ .mark '[' :: us := by
  intro us hu
  obtain ⟨t, vs, ht, hne⟩ := exists_token_pathText hp r
  by_cases hn : b = []
  · subst hn
    rw [List.nil_append, ht] at hu
    exact hne (List.cons.inj hu).1
  · rw [ofText_blanks hb hn ((ahead_pathText hp r).mono fun c h => isNoBlank_of_opens (opens_of_startsName h))] at hu
    cases hu

theorem header?_repeated {key : Key} (hk : takeKey [] ts = (key, .mark ']' :: .mark ']' :: us)) :
    header? lead (.mark '[' :: ts) = some (.header lead true key (takeTail us).1, (takeTail us).2) := by
  rw [header?]
  simp only [hk]

theorem header?_single {key : Key} (hn : ∀ us, ts ≠ .mark '[' :: us) (hk : takeKey [] ts = (key, .mark ']' :: us)) :
    header? lead ts = some (.header lead false key (takeTail us).1, (takeTail us).2) := by
  rw [header?]
  · simp only [hk]
  · exact hn

theorem readsLine_header (h : s.IsSpelled) : ReadsLine (headerText s) (headerLine s) := by
  constructor
  · intro r fuel
    have hs (x : List Char) := takeSpace_text h.lead (r := '[' :: x) (ahead_cons.2 rfl)
    have ht := takeTail_text h.tail (r := '\n' :: r) (ahead_cons.2 rfl)
    have hk (x : List Char) := takeSegments_path h.path.ne_nil h.path.spelled h.before h.after (r := ']' :: x)
      (ahead_cons.2 rfl) []
    have hbracket (x : List Char) : ofText (']' :: x) = .mark ']' :: ofText x := ofText_mark rfl x
    have hopen (x : List Char) : ofText ('[' :: x) = .mark '[' :: ofText x := ofText_mark rfl x
    rw [headerText_append, headerLine]
    cases s.repeated with
    | true =>
      have hk' := hk (']' :: (s.header.tail ++ '\n' :: r))
      have hs' := hs ('[' :: ((aroundOf ([], []) s.path).1 ++ (pathText s.path ++
        ((aroundOf ([], []) s.path).2 ++ ']' :: ']' :: (s.header.tail ++ '\n' :: r)))))
      rw [hbracket, hbracket] at hk'
      rw [hopen, hopen] at hs'
      refine takeLines_header (w := ['\n']) hs' ?_
      rw [header?_repeated hk', ht, ofText_newline]
      rfl
    | false =>
      have hk' := hk (s.header.tail ++ '\n' :: r)
      have hs' := hs ((aroundOf ([], []) s.path).1 ++ (pathText s.path ++
        ((aroundOf ([], []) s.path).2 ++ ']' :: (s.header.tail ++ '\n' :: r))))
      rw [hbracket] at hk'
      rw [hopen] at hs'
      refine takeLines_header (w := ['\n']) hs' ?_
      rw [header?_single (exists_token_key h.path h.before _) hk', ht, ofText_newline]
      rfl
  · intro r
    have hmark {c : Char} (hc : isMark c = true) (x : List Char) : Lexes (c :: x) x :=
      .of_token (ofText_mark hc x) (isClean_mark c)
    have hkey (x : List Char) : Lexes ((aroundOf ([], []) s.path).1 ++ (pathText s.path ++
        ((aroundOf ([], []) s.path).2 ++ ']' :: x))) x := by
      refine .trans (lexes_space h.before.isSpace _) ?_
      refine .trans (lexes_pathText h.path.ne_nil h.path.spelled (ahead_endsWord h.after (ahead_cons.2 rfl))) ?_
      exact .trans (lexes_space h.after.isSpace _) (hmark rfl x)
    rw [headerText_append]
    refine .trans (lexes_space h.lead _) (.trans (hmark rfl _) ?_)
    have htail := lexes_tail h.tail (r := '\n' :: r) (ahead_cons.2 rfl)
    cases s.repeated with
    | true => exact .trans (hmark rfl _) (.trans (hkey _) (.trans (hmark rfl _) htail))
    | false => exact .trans (hkey _) htail
  · intro r
    rw [headerText_append]
    exact ahead_append h.lead.no_mark fun _ => ahead_cons.2 rfl

end Line

/-! ## Whole documents -/

section Document

variable {d : Document} {e : Entries} {rest w : List Char} {takes : Scalar → Bool}

/-- The entries of a table, each with its line. -/
def entriesWritten (e : Entries) : List (List Char × Line) :=
  (leavesOf e).map fun leaf => (entryText [] leaf, entryLine leaf)

/-- The lines of a document with their texts. -/
def Document.written (d : Document) : List (List Char × Line) :=
  entriesWritten d.entries ++
    (sortedSections d.entries).flatMap fun s => (headerText s, headerLine s) :: entriesWritten s.entries

/-- Texts, each on its own line. -/
def textOf (lines : List (List Char × Line)) : List Char := lines.flatMap fun line => line.1 ++ ['\n']

theorem linesText_eq (e : Entries) : linesText e = textOf (entriesWritten e) := by
  rw [linesText, entryTexts_eq, textOf, entriesWritten, List.flatMap_map, List.flatMap_map]

theorem sectionText_eq (s : Section) : s.text = textOf ((headerText s, headerLine s) :: entriesWritten s.entries) := by
  rw [Section.text, textOf, List.flatMap_cons, ← textOf, ← linesText_eq, headerText]
  simp

theorem Document.render_eq (d : Document) : d.render = textOf d.written ++ d.rest := by
  have hsections : (sortedSections d.entries).flatMap Section.text =
      textOf ((sortedSections d.entries).flatMap fun s => (headerText s, headerLine s) :: entriesWritten s.entries) := by
    rw [textOf, List.flatMap_assoc]
    exact List.flatMap_congr fun s _ => sectionText_eq s
  rw [Document.render, Document.written, linesText_eq]
  simp only [textOf, List.flatMap_append] at hsections ⊢
  rw [← hsections]
  rfl

theorem lines_written (d : Document) : d.written.map Prod.snd = linesOf d.entries := by
  rw [Document.written, linesOf, entriesWritten, List.map_append, List.map_map, List.map_flatMap, List.flatMap_map]
  congr 2
  funext s
  rw [List.map_cons, entriesWritten, List.map_map]
  rfl

theorem readsLine_entries (h : LeavesSpelled e) : ∀ p ∈ entriesWritten e, ReadsLine p.1 p.2 := by
  intro p hp
  obtain ⟨leaf, hl, rfl⟩ := List.mem_map.1 hp
  obtain ⟨hpath, ha, hw⟩ := h leaf hl
  exact readsLine_entry hpath ha hw

theorem Document.IsSpelled.readsLine (h : d.IsSpelled) : ∀ p ∈ d.written, ReadsLine p.1 p.2 := by
  intro p hp
  rcases List.mem_append.1 hp with hp | hp
  · exact readsLine_entries h.leaves p hp
  · obtain ⟨s, hs, hp⟩ := List.mem_flatMap.1 hp
    have hsec := h.sections s (mem_sortedSections.1 hs)
    rcases List.mem_cons.1 hp with rfl | hp
    · exact readsLine_header hsec
    · exact readsLine_entries hsec.leaves p hp

theorem takeSpace_end (h : IsEnd w) : takeSpace (ofText w) = (w, []) := by
  cases h with
  | space hw =>
    have hs := takeSpace_text hw (ahead_nil opens)
    rwa [ofText, List.append_nil] at hs
  | @comment w t hw ht =>
    have hc := ofText_comment ht (ahead_nil _)
    rw [List.append_nil, ofText] at hc
    rw [takeSpace_append hw, hc]
    simp [takeSpace]

theorem clean_end (h : IsEnd w) : ∀ t ∈ ofText w, t.IsClean := by
  cases h with
  | space hw =>
    have hs := (lexes_space hw []).clean (by rw [ofText]; exact fun _ h => by cases h)
    rwa [List.append_nil] at hs
  | @comment w t hw ht =>
    have hc := ofText_comment ht (ahead_nil _)
    rw [List.append_nil, ofText] at hc
    refine (lexes_space hw _).clean ?_
    rw [hc]
    intro u hu
    rw [List.mem_singleton.1 hu]
    exact isClean_comment ht

theorem IsEnd.no_mark (h : IsEnd w) : Ahead (· != '\ufeff') w := by
  cases h with
  | space hw => exact hw.no_mark
  | comment hw _ => exact ahead_append hw.no_mark fun _ => ahead_cons.2 rfl

section Lines

variable {lines : List (List Char × Line)}

theorem textOf_cons (p : List Char × Line) (lines : List (List Char × Line)) (rest : List Char) :
    textOf (p :: lines) ++ rest = p.1 ++ '\n' :: (textOf lines ++ rest) := by
  simp [textOf]

/-- Each line takes a token at least, so there is fuel for all of them. -/
theorem takeLines_text (h : ∀ p ∈ lines, ReadsLine p.1 p.2) (hr : IsEnd rest) {fuel : Nat}
    (hf : (ofText (textOf lines ++ rest)).length < fuel) :
    takeLines fuel (ofText (textOf lines ++ rest)) = some (lines.map Prod.snd, rest) := by
  induction lines generalizing fuel with
  | nil =>
    obtain ⟨fuel, rfl⟩ : ∃ k, fuel = k + 1 := ⟨fuel - 1, by omega⟩
    rw [textOf, List.flatMap_nil, List.nil_append, takeLines, takeSpace_end hr]
    rfl
  | cons p lines ih =>
    have hp := h p List.mem_cons_self
    obtain ⟨fuel, rfl⟩ : ∃ k, fuel = k + 1 := ⟨fuel - 1, by omega⟩
    have hlen := (hp.lexes (textOf lines ++ rest)).length_le
    rw [ofText_newline, List.length_cons, ← textOf_cons] at hlen
    rw [textOf_cons, hp.take, ih (fun q hq => h q (List.mem_cons_of_mem _ hq)) (by omega)]
    rfl

theorem clean_text (h : ∀ p ∈ lines, ReadsLine p.1 p.2) (hr : IsEnd rest) :
    ∀ t ∈ ofText (textOf lines ++ rest), t.IsClean := by
  induction lines with
  | nil => exact clean_end hr
  | cons p lines ih =>
    rw [textOf_cons]
    refine ((h p List.mem_cons_self).lexes _).clean ?_
    exact (Lexes.of_token (ofText_newline _) isClean_newline).clean (ih fun q hq => h q (List.mem_cons_of_mem _ hq))

theorem no_mark_text (h : ∀ p ∈ lines, ReadsLine p.1 p.2) (hr : IsEnd rest) :
    Ahead (· != '\ufeff') (textOf lines ++ rest) := by
  cases lines with
  | nil => exact hr.no_mark
  | cons p lines =>
    rw [textOf_cons]
    exact (h p List.mem_cons_self).no_mark _

end Lines

theorem dropMark_of_ahead (h : Ahead (· != '\ufeff') w) : Source.dropMark w = w := by
  cases w with
  | nil => rfl
  | cons c w =>
    rw [Source.dropMark]
    rintro rest ⟨⟩
    cases ahead_cons.1 h

/-- The text of a document is cut into the lines of its tree. -/
theorem read?_render (h : d.IsSpelled) : Source.read? d.render = some ⟨linesOf d.entries, d.rest⟩ := by
  have hlines := h.readsLine
  have hclean := clean_text hlines h.rest
  have hunify : (ofText (textOf d.written ++ d.rest)).map unify = ofText (textOf d.written ++ d.rest) :=
    (List.map_congr_left fun t ht => (hclean t ht).2).trans (List.map_id _)
  have hsound : (ofText (textOf d.written ++ d.rest)).all isSound = true :=
    List.all_eq_true.2 fun t ht => (hclean t ht).1
  rw [Document.render_eq, Source.read?, dropMark_of_ahead (no_mark_text hlines h.rest), hunify]
  simp only [hsound, if_true, takeLines_text hlines h.rest (Nat.lt_succ_self _), Option.map_some, lines_written]

/-- The entries of a table are read as its values. -/
theorem sets_leaves (ht : ∀ s : Scalar, s.isNarrow = true → takes s = true) (h : LeavesSpelled e) :
    ∃ items, List.Forall₂ (Line.Sets takes) ((leavesOf e).map entryLine) items ∧
      List.Forall₂ Item.IsOf items (leavesOf e) := by
  obtain ⟨items, hi, hr⟩ := items_of_leaves (fun leaf hl => (h leaf hl).1)
    fun leaf hl => (h leaf hl).2.2.keeps ht
  refine ⟨items, ?_, hi⟩
  rw [List.forall₂_map_left_iff] at hr ⊢
  exact hr.imp fun leaf item hs => ⟨_, _, rfl, hs.1, hs.2⟩

theorem Section.IsSpelled.reads (ht : ∀ s : Scalar, s.isNarrow = true → takes s = true) {s : Section} (h : s.IsSpelled) :
    ∃ r : Reading, s.lines.Reads takes r ∧ r.IsOf s := by
  obtain ⟨items, hl, hi⟩ := sets_leaves ht h.leaves
  obtain ⟨ls, hls, hn⟩ := labels_keyFrom h.path (aroundOf ([], []) s.path).1 (aroundOf ([], []) s.path).2
  exact ⟨⟨s.header, s.repeated, ls, items⟩, ⟨rfl, hls, rfl, rfl, hl⟩, ⟨rfl, hn, hi⟩⟩

theorem reads_sections (ht : ∀ s : Scalar, s.isNarrow = true → takes s = true) {sections : List Section}
    (h : ∀ s ∈ sections, s.IsSpelled) : ∃ readings,
      List.Forall₂ (Lines.Reads takes) (sections.map Section.lines) readings ∧
        List.Forall₂ Reading.IsOf readings sections := by
  induction sections with
  | nil => exact ⟨[], .nil, .nil⟩
  | cons s sections ih =>
    obtain ⟨r, hr, ho⟩ := (h s List.mem_cons_self).reads ht
    obtain ⟨rs, hrs, hos⟩ := ih fun s' hs => h s' (List.mem_cons_of_mem _ hs)
    exact ⟨r :: rs, .cons hr hrs, .cons ho hos⟩

/-- The text of a document is read as a document with the same table. -/
theorem read_render (ht : ∀ s : Scalar, s.isNarrow = true → takes s = true) (h : d.IsSpelled) :
    ∃ d', Document.read takes d.render = .ok d' ∧ d'.table = d.table := by
  obtain ⟨items, hl, hi⟩ := sets_leaves ht h.leaves
  obtain ⟨readings, hr, ho⟩ := reads_sections ht fun s hs => h.sections s (mem_sortedSections.1 hs)
  obtain ⟨d', hd, htable⟩ := ofSource_written h.sound h.nodup hl hi hr ho d.rest
  refine ⟨d', ?_, htable⟩
  rw [Document.read, read?_render h]
  exact hd

end Document

end SqlLint.Toml
