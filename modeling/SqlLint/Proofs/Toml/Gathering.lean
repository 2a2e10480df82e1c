import SqlLint.Proofs.Toml.Comments
import SqlLint.Proofs.Toml.Spelled

/-! # Comments in trees

A tree gathers the comments of the lines that were read: those around keys stay with the values, and
those of a header with its table. -/
namespace SqlLint.Toml
open Document (Draft)
open Document.Draft (atLast)
open Token (isOpen nestingLimit)

/-- The comments around a key with so many names. What stands between the names are blanks. -/
def commentsOfPath (path : List Label) : Multiset (List Char) :=
  comments (aroundOf ([], []) path).1 + comments (aroundOf ([], []) path).2

def Header.comments (h : Header) : Multiset (List Char) := Toml.comments h.lead + Toml.comments h.tail

def Origin.comments : Origin → Multiset (List Char)
  | .header h => h.comments
  | .dotted | .implicit => 0

/-- What stands around a label is written with a value only. -/
def Label.commentsFor (l : Label) (n : Node) : Multiset (List Char) := if n.isLeaf then commentsOfPath [l] else 0

mutual
/-- The comments of a value, or of all values and headers of a table. -/
def Node.comments : Node → Multiset (List Char)
  | .scalar before _ after _ => Toml.comments before + Toml.comments after
  | .array before items rest after =>
    Toml.comments before + commentsOfNodes items + Toml.comments rest + Toml.comments after
  | .inline before entries rest after =>
    Toml.comments before + commentsIn entries + Toml.comments rest + Toml.comments after
  | .table origin entries => origin.comments + commentsIn entries
  | .tables rows => commentsInRows rows

def commentsOfNodes : List Node → Multiset (List Char)
  | [] => 0
  | n :: rest => n.comments + commentsOfNodes rest

def commentsIn : List (Label × Node) → Multiset (List Char)
  | [] => 0
  | (l, n) :: rest => l.commentsFor n + n.comments + commentsIn rest

def commentsInRows : List (Header × List (Label × Node)) → Multiset (List Char)
  | [] => 0
  | (h, row) :: rows => h.comments + commentsIn row + commentsInRows rows
end

/-! ## Changes under one name -/

section Changes

variable {e t u : Entries} {l : Label} {n m : Node} {added lost : Multiset (List Char)}

theorem commentsIn_append (e e' : Entries) : commentsIn (e ++ e') = commentsIn e + commentsIn e' := by
  induction e with
  | nil => rw [List.nil_append, commentsIn, zero_add]
  | cons first rest ih =>
    obtain ⟨k, c⟩ := first
    rw [List.cons_append, commentsIn, commentsIn, ih, ← add_assoc]

theorem commentsIn_singleton (l : Label) (n : Node) : commentsIn [(l, n)] = l.commentsFor n + n.comments := by
  rw [commentsIn, commentsIn, add_zero]

theorem commentsInRows_append (rows rows' : List (Header × Entries)) :
    commentsInRows (rows ++ rows') = commentsInRows rows + commentsInRows rows' := by
  induction rows with
  | nil => rw [List.nil_append, commentsInRows, zero_add]
  | cons first rest ih =>
    obtain ⟨k, c⟩ := first
    rw [List.cons_append, commentsInRows, commentsInRows, ih, ← add_assoc]

theorem commentsInRows_singleton (h : Header) (t : Entries) : commentsInRows [(h, t)] = h.comments + commentsIn t := by
  rw [commentsInRows, commentsInRows, add_zero]

theorem Label.commentsFor_congr (l : Label) (h : n.isLeaf = m.isLeaf) : l.commentsFor n = l.commentsFor m := by
  rw [Label.commentsFor, Label.commentsFor, h]

theorem Label.commentsFor_of_not_isLeaf (l : Label) (h : n.isLeaf = false) : l.commentsFor n = 0 := by
  rw [Label.commentsFor, h]
  rfl

theorem commentsIn_set_of_none (h : e.get? l.name = none) (n : Node) :
    commentsIn (e.set l n) = l.commentsFor n + n.comments + commentsIn e := by
  rw [Entries.set_of_none h, commentsIn_append, commentsIn_singleton, add_comm]

/-- A node takes the place of another one, with other comments. -/
theorem commentsIn_set_of_some (h : e.get? l.name = some m) (hleaf : n.isLeaf = m.isLeaf)
    (hc : n.comments + lost = added + m.comments) : commentsIn (e.set l n) + lost = added + commentsIn e := by
  obtain ⟨front, k, back, rfl, hset, -⟩ := Entries.exists_split h
  rw [hset, commentsIn_append, commentsIn_append, commentsIn, commentsIn, k.commentsFor_congr hleaf]
  calc commentsIn front + (k.commentsFor m + n.comments + commentsIn back) + lost
      = commentsIn front + (k.commentsFor m + (n.comments + lost) + commentsIn back) := by abel
    _ = added + (commentsIn front + (k.commentsFor m + m.comments + commentsIn back)) := by rw [hc]; abel

theorem commentsIn_set_table (h : e.get? l.name = some m) (hleaf : n.isLeaf = m.isLeaf)
    (hc : n.comments = added + m.comments) : commentsIn (e.set l n) = added + commentsIn e := by
  have hlost : n.comments + 0 = added + m.comments := by rw [hc, add_zero]
  have hs := commentsIn_set_of_some h hleaf hlost
  rwa [add_zero] at hs

/-- A table that is written at the end instead, with other comments. -/
theorem commentsIn_remove (hf : e.IsFunctional) (h : e.get? l.name = some m) (hn : n.isLeaf = false)
    (hm : m.isLeaf = false) (hc : n.comments = added + m.comments) :
    commentsIn (e.remove l.name ++ [(l, n)]) = added + commentsIn e := by
  obtain ⟨front, k, back, rfl, -, hremove⟩ := Entries.exists_split h
  rw [hremove hf, commentsIn_append, commentsIn_append, commentsIn_append, commentsIn_singleton, commentsIn,
    l.commentsFor_of_not_isLeaf hn, k.commentsFor_of_not_isLeaf hm, hc]
  abel

end Changes

/-! ## Operations -/

section Operations

variable {e t u : Entries} {l : Label} {n : Node} {added : Multiset (List Char)} {path : List Label}

theorem commentsOfPath_cons (l l' : Label) (ls : List Label) :
    commentsOfPath (l :: l' :: ls) = commentsOfPath (l' :: ls) := by
  rw [commentsOfPath, commentsOfPath, aroundOf, aroundOf, List.getLast?_cons_cons]

theorem commentsInRows_last {init : List (Header × Entries)} {k : Header} (h : commentsIn u = added + commentsIn t) :
    (Node.tables (init ++ [(k, u)])).comments = added + (Node.tables (init ++ [(k, t)])).comments := by
  rw [Node.comments, Node.comments, commentsInRows_append, commentsInRows_append, commentsInRows_singleton,
    commentsInRows_singleton, h]
  abel

/-- A value comes with its comments and those around its key. -/
theorem commentsIn_put {labels : List Label} (hn : n.isLeaf = true) (h : e.put n labels = some u) :
    commentsIn u = commentsOfPath labels + n.comments + commentsIn e := by
  induction labels generalizing e u with
  | nil => cases h
  | cons l ls ih =>
    cases ls with
    | nil =>
      obtain ⟨hx, rfl⟩ := Entries.put_last h
      rw [commentsIn_set_of_none hx, Label.commentsFor, if_pos hn]
    | cons l' ls =>
      rw [commentsOfPath_cons]
      cases Entries.put_cons h with
      | new hx ht =>
        rw [commentsIn_set_of_none hx, l.commentsFor_of_not_isLeaf rfl, zero_add, Node.comments, ih ht, commentsIn,
          Origin.comments, zero_add, add_zero]
      | @table o t t' ho hx ht =>
        refine commentsIn_set_table hx rfl ?_
        have hnone : o.comments = 0 := by
          cases o with
          | header k => cases ho
          | _ => rfl
        rw [Node.comments, Node.comments, ih ht, hnone, Origin.comments, zero_add, zero_add]
      | row hx ht => exact commentsIn_set_table hx rfl (commentsInRows_last (ih ht))

/-- What a change adds to the table that a path leads to, it adds to the tree. -/
theorem commentsIn_within {f : Entries → Option Entries}
    (hf : ∀ t u : Entries, t.IsSound → f t = some u → commentsIn u = added + commentsIn t)
    (he : e.IsSound) (h : Entries.within f path e = some u) : commentsIn u = added + commentsIn e := by
  induction path generalizing e u with
  | nil => exact hf e u he h
  | cons l ls ih =>
    cases Entries.within_cons h with
    | new hx ht =>
      rw [commentsIn_set_of_none hx, l.commentsFor_of_not_isLeaf rfl, Node.comments, ih .nil ht, commentsIn,
        Origin.comments, zero_add, zero_add, add_zero]
    | table hx ht =>
      refine commentsIn_set_table hx rfl ?_
      rw [Node.comments, Node.comments, ih (.of_table (he.get? hx)) ht, add_left_comm]
    | @row init k t t' hx ht =>
      have hlast : (k, t) ∈ init ++ [(k, t)] := List.mem_append_right _ (List.mem_singleton_self _)
      exact commentsIn_set_table hx rfl (commentsInRows_last (ih (.of_row (he.get? hx) hlast) ht))

theorem commentsIn_openTable {k : Header} (he : e.IsSound) (h : Entries.openTable k l e = some u) :
    commentsIn u = k.comments + commentsIn e := by
  rcases Entries.openTable_cases h with ⟨hx, rfl⟩ | ⟨t, hx, rfl⟩
  · rw [commentsIn_set_of_none hx, l.commentsFor_of_not_isLeaf rfl, Node.comments, commentsIn, zero_add, add_zero]
    rfl
  · refine commentsIn_remove he.functional hx rfl rfl ?_
    rw [Node.comments, Node.comments, Origin.comments, Origin.comments, zero_add]

theorem commentsIn_addRow {k : Header} {row : Entries} (h : Entries.addRow k row l e = some u) :
    commentsIn u = k.comments + commentsIn row + commentsIn e := by
  rcases Entries.addRow_cases h with ⟨hx, rfl⟩ | ⟨rows, hx, rfl⟩
  · rw [commentsIn_set_of_none hx, l.commentsFor_of_not_isLeaf rfl, Node.comments, commentsInRows_singleton, zero_add]
  · refine commentsIn_set_table hx rfl ?_
    rw [Node.comments, Node.comments, commentsInRows_append, commentsInRows_singleton, add_comm]

end Operations

/-! ## Keys -/

section Keys

variable {P Q : List Char → Prop} {key : Key} {ls : List Label}

/-- Inside a key there are blanks and no comments. -/
theorem KeyRead.comments (hk : KeyRead Q P key) :
    Key.comments key = Toml.comments (Key.around key).1 + Toml.comments (Key.around key).2 := by
  induction hk with
  | last => rw [Key.comments_cons, Key.comments_nil, add_zero]; rfl
  | @cons P s key _ _ ha hk ih =>
    obtain ⟨s', key, rfl⟩ : ∃ s' more, key = s' :: more := by
      cases hk <;> exact ⟨_, _, rfl⟩
    have hb : IsBlanks s'.before := hk.around.1
    have hbefore : Toml.comments (Key.around (s' :: key)).1 = 0 := comments_blanks hb
    rw [Key.comments_cons, ih, hbefore, zero_add, Segment.comments, comments_blanks ha, add_zero, Key.around, Key.around,
      List.getLast?_cons_cons]
    rfl

theorem around_spell (around : List Char × List Char) (first : Bool) (pairs : List (String × Segment)) :
    pairs = [] ∨ (Key.labels.spell around first pairs).getLast?.bind Label.around = some around := by
  fun_induction Key.labels.spell around first pairs with
  | case1 => exact .inl rfl
  | case2 => exact .inr rfl
  | case3 first name s rest hne ih =>
    right
    rcases ih with rfl | ih
    · cases hne rfl
    · cases hls : Key.labels.spell around false rest with
      | nil =>
        rw [hls] at ih
        cases ih
      | cons l ls =>
        rw [hls] at ih
        rw [List.getLast?_cons_cons, ih]

/-- The comments of a key that is read are those around its labels. -/
theorem commentsOfPath_labels (hk : KeyRead Q P key) (h : key.labels = .ok ls) : commentsOfPath ls = Key.comments key := by
  obtain ⟨names, -, hlen, -, rfl⟩ := exists_of_labels h
  rcases around_spell (Key.around key) true (names.zip key) with hnil | ha
  · rw [hnil] at hlen
    cases hk <;> cases hlen
  · rw [hk.comments, commentsOfPath, aroundOf, ha]
    rfl

/-- A key whose labels are known has its last name. -/
theorem not_isOpen_of_labels (h : key.labels = .ok ls) (hne : key ≠ []) : isOpen key = false := by
  obtain ⟨names, hn, -⟩ := exists_of_labels h
  clear h
  induction key generalizing names with
  | nil => exact absurd rfl hne
  | cons s key ih =>
    obtain ⟨name, more, hname, hm, rfl⟩ := mapM_name_cons hn
    cases key with
    | nil =>
      rw [isOpen]
      cases ht : s.text with
      | nil =>
        rw [Segment.name, ht] at hname
        cases hname
      | cons c cs => simp [ht]
    | cons s' key =>
      have hrest := ih (List.cons_ne_nil _ _) more hm
      rw [isOpen] at hrest ⊢
      rwa [List.getLast?_cons_cons]

end Keys

/-! ## Values -/

section Values

variable {takes : Scalar → Bool} {raw : Raw} {n : Node} {e u : Entries} {inside : Bool} {depth : Nat}

theorem isLeaf_of_node (h : raw.node takes = .ok n) : n.isLeaf = true := by
  cases raw with
  | scalar before text after =>
    obtain ⟨s, -, -, rfl⟩ := exists_of_scalar h
    rfl
  | array before items rest after =>
    rw [Raw.node] at h
    obtain ⟨ns, -, rfl⟩ := exists_of_map h
    rfl
  | table before entries rest after =>
    rw [Raw.node] at h
    obtain ⟨es, -, rfl⟩ := exists_of_map h
    rfl

theorem comments_nodesOf {items : List Raw} {ns : List Node}
    (hc : ∀ r ∈ items, ∀ n, r.node takes = .ok n → n.comments = r.comments) (h : nodesOf takes items = .ok ns) :
    commentsOfNodes ns = commentsOfItems items := by
  induction items generalizing ns with
  | nil =>
    cases h
    rfl
  | cons r items ih =>
    rw [nodesOf] at h
    obtain ⟨n, hn, h⟩ := exists_of_bind h
    obtain ⟨more, hm, rfl⟩ := exists_of_map h
    rw [commentsOfNodes, commentsOfItems, hc r List.mem_cons_self n hn,
      ih (fun r hr => hc r (List.mem_cons_of_mem _ hr)) hm]

theorem comments_fill {entries : List (Key × Raw)} (hk : ∀ key r, (key, r) ∈ entries → KeyRead IsSpace IsSpace key)
    (hc : ∀ key r, (key, r) ∈ entries → ∀ n, r.node takes = .ok n → n.comments = r.comments)
    (h : fill takes entries e = .ok u) : commentsIn u = commentsOfPairs entries + commentsIn e := by
  induction entries generalizing e with
  | nil =>
    cases h
    rw [commentsOfPairs, zero_add]
  | cons entry entries ih =>
    obtain ⟨key, r⟩ := entry
    obtain ⟨labels, n, t, hl, hn, ht, h⟩ := exists_of_fill h
    rw [ih (fun key r hm => hk key r (List.mem_cons_of_mem _ hm)) (fun key r hm => hc key r (List.mem_cons_of_mem _ hm)) h,
      commentsIn_put (isLeaf_of_node hn) ht,
      commentsOfPath_labels (hk key r List.mem_cons_self) hl, hc key r List.mem_cons_self n hn, commentsOfPairs]
    abel

/-- A value with a meaning keeps the comments that were read with it. -/
theorem comments_node (hr : RawRead inside depth raw) (h : raw.node takes = .ok n) : n.comments = raw.comments := by
  induction hr generalizing n with
  | scalar =>
    obtain ⟨s, -, -, rfl⟩ := exists_of_scalar h
    rfl
  | array _ _ _ _ ih =>
    rw [Raw.node] at h
    obtain ⟨ns, hns, rfl⟩ := exists_of_map h
    rw [Node.comments, Raw.comments, comments_nodesOf (fun r hr n hn => ih r hr hn) hns]
  | table _ _ _ hk _ ih =>
    rw [Raw.node] at h
    obtain ⟨e, he, rfl⟩ := exists_of_map h
    rw [Node.comments, Raw.comments, comments_fill hk (fun key r hm n hn => ih key r hm hn) he, commentsIn, add_zero]

end Values

/-! ## Documents -/

section Drafts

variable {d d' : Draft} {line : Line} {takes : Scalar → Bool}

/-- The comments of what was read so far. -/
def Document.Draft.comments (d : Draft) : Multiset (List Char) :=
  match d.cursor with
  | .table _ => commentsIn d.entries
  | .row header _ row => header.comments + commentsIn row + commentsIn d.entries

theorem comments_row (e row : Entries) (h : Header) (path : List Label) (headers : Nat) :
    Draft.comments ⟨e, .row h path row, headers⟩ = h.comments + commentsIn row + commentsIn e := rfl

theorem comments_finish (hs : Draft.Stands d) (h : d.finish = .ok d') : commentsIn d'.entries = d.comments := by
  cases hs with
  | root =>
    cases h
    rfl
  | table =>
    cases h
    rfl
  | @row e row path k hs hp _ _ _ _ =>
    rw [Draft.finish] at h
    obtain ⟨u, hu, h⟩ := exists_of_bind h
    cases h
    obtain ⟨init, l, rfl, hw⟩ := exists_of_atLast (exists_of_orMalformed hu)
    exact commentsIn_within (fun _ _ _ => commentsIn_addRow) hs.fits.isSound hw

theorem comments_put {n : Node} {labels : List Label} (hs : Draft.Stands d) (hn : n.isLeaf = true)
    (h : d.put n labels = .ok d') : d'.comments = commentsOfPath labels + n.comments + d.comments := by
  have hroot {e u : Entries} {path : List Label} {headers bound : Nat} (he : e.Stands bound)
      (hu : orMalformed (Entries.within (Entries.put n labels) path e) = .ok u) :
      Draft.comments ⟨u, .table path, headers⟩ = commentsOfPath labels + n.comments + Draft.comments ⟨e, .table path, headers⟩ :=
    commentsIn_within (fun _ _ _ => commentsIn_put hn) he.fits.isSound (exists_of_orMalformed hu)
  rw [Draft.put] at h
  cases hs with
  | root hs =>
    obtain ⟨u, hu, h⟩ := exists_of_bind h
    cases h
    exact hroot hs hu
  | table hs =>
    obtain ⟨u, hu, h⟩ := exists_of_bind h
    cases h
    exact hroot hs hu
  | row hs =>
    obtain ⟨u, hu, h⟩ := exists_of_bind h
    cases h
    rw [comments_row, comments_row, commentsIn_put hn (exists_of_orMalformed hu)]
    abel

/-- Each line that is read adds its comments. -/
theorem comments_add (hs : Draft.Stands d) (hl : LineRead line) (h : d.add takes line = .ok d') :
    d'.comments = line.comments + d.comments ∧ line.isNamed = true := by
  cases hl with
  | @entry key raw hk hr =>
    rw [Draft.add] at h
    obtain ⟨labels, hls, h⟩ := exists_of_bind h
    obtain ⟨n, hn, h⟩ := exists_of_bind h
    refine ⟨?_, rfl⟩
    rw [comments_put hs (isLeaf_of_node hn) h, commentsOfPath_labels hk hls, comments_node hr hn, Line.comments]
  | @header lead tail repeated key hlead htail hk =>
    rw [Draft.add] at h
    obtain ⟨v, hv, h⟩ := exists_of_bind h
    obtain ⟨labels, hls, h⟩ := exists_of_bind h
    obtain ⟨hstands, -⟩ := hs.finish hv
    have hne : key ≠ [] := by cases hk <;> exact List.cons_ne_nil _ _
    have hkey : Key.comments key = 0 := by
      obtain ⟨hb, ha⟩ := hk.around
      rw [hk.comments, comments_blanks hb, comments_blanks ha, add_zero]
    refine ⟨?_, by rw [Line.isNamed, not_isOpen_of_labels hls hne]; rfl⟩
    rw [Line.comments, hkey, add_zero, ← comments_finish hs hv]
    cases repeated with
    | true =>
      cases h
      rw [comments_row, commentsIn, add_zero, Header.comments]
    | false =>
      obtain ⟨u, hu, h⟩ := exists_of_bind h
      cases h
      obtain ⟨init, l, rfl, hw⟩ := exists_of_atLast (exists_of_orMalformed hu)
      exact commentsIn_within (fun _ _ ht => commentsIn_openTable ht) hstands.fits.isSound hw

theorem comments_foldlM {lines : List Line} (hs : Draft.Stands d) (hl : ∀ line ∈ lines, LineRead line)
    (h : lines.foldlM (Draft.add Scalar.isNarrow) d = .ok d') :
    d'.comments = commentsOfLines lines + d.comments ∧ ∀ line ∈ lines, line.isNamed = true := by
  induction lines generalizing d with
  | nil =>
    cases h
    rw [commentsOfLines_nil, zero_add]
    exact ⟨rfl, List.forall_mem_nil _⟩
  | cons line lines ih =>
    rw [List.foldlM_cons] at h
    obtain ⟨v, hv, h⟩ := exists_of_bind h
    have hline := hl line List.mem_cons_self
    obtain ⟨hc, hn⟩ := comments_add hs hline hv
    obtain ⟨hcs, hns⟩ := ih (hs.add hline hv) (fun l hm => hl l (List.mem_cons_of_mem _ hm)) h
    refine ⟨?_, List.forall_mem_cons.2 ⟨hn, hns⟩⟩
    rw [hcs, hc, commentsOfLines_cons]
    abel

/-- The tree of a document that is read has all comments of the text but those at its end. -/
theorem comments_read {text : List Char} {doc : Document} (h : Document.read Scalar.isNarrow text = .ok doc) :
    comments (Source.dropMark text) = commentsIn doc.entries + comments doc.rest := by
  rw [Document.read] at h
  obtain ⟨s, hs, h⟩ := exists_of_bind h
  have hsource := exists_of_orMalformed hs
  obtain ⟨hlines, -⟩ := reads_source hsource
  rw [Document.ofSource] at h
  obtain ⟨v, hv, h⟩ := exists_of_bind h
  obtain ⟨u, hu, h⟩ := exists_of_bind h
  cases h
  have hroot : Draft.Stands {} := .root .nil
  obtain ⟨hc, hn⟩ := comments_foldlM hroot hlines hv
  have hnone : Draft.comments {} = 0 := rfl
  rw [comments_source hsource hn, comments_finish (hroot.foldlM hlines hv) hu, hc, hnone, add_zero]

end Drafts

end SqlLint.Toml
