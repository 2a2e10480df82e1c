import SqlLint.Proofs.Toml.Gathering
import SqlLint.Proofs.Toml.Rewrite
import Mathlib.Algebra.BigOperators.Group.List.Basic

/-! # Comments that are written

All comments of a tree are written, whatever the order of its sections, so setting a list takes away none
but those of the value that it replaces. -/
namespace SqlLint.Toml
open Token (isOpen nestingLimit)

def commentsOfLeaf (leaf : Item) : Multiset (List Char) := commentsOfPath leaf.1 + leaf.2.comments

def commentsOfLeaves (leaves : List Item) : Multiset (List Char) := (leaves.map commentsOfLeaf).sum

def Section.comments (s : Section) : Multiset (List Char) := s.header.comments + commentsOfLeaves (leavesOf s.entries)

def commentsOfSections (sections : List Section) : Multiset (List Char) := (sections.map Section.comments).sum

/-! ## Values and sections -/

section Sums

variable {e : Entries} {n : Node} {l : Label}

theorem commentsOfLeaves_append (as bs : List Item) :
    commentsOfLeaves (as ++ bs) = commentsOfLeaves as + commentsOfLeaves bs := by
  rw [commentsOfLeaves, List.map_append, List.sum_append]
  rfl

theorem commentsOfSections_append (as bs : List Section) :
    commentsOfSections (as ++ bs) = commentsOfSections as + commentsOfSections bs := by
  rw [commentsOfSections, List.map_append, List.sum_append]
  rfl

theorem commentsOfSections_cons (s : Section) (ss : List Section) :
    commentsOfSections (s :: ss) = s.comments + commentsOfSections ss := List.sum_cons

/-- The comments of a node are those of its values, under a name, and of its sections. -/
def Node.IsSum (n : Node) : Prop := ∀ (l : Label) (path : List Label), l.commentsFor n + n.comments =
  commentsOfLeaves (n.leaves.map fun leaf => (l :: leaf.1, leaf.2)) + commentsOfSections (n.sections path)

theorem commentsIn_eq_of (h : ∀ l n, (l, n) ∈ e → n.IsSum) (path : List Label) :
    commentsIn e = commentsOfLeaves (leavesOf e) + commentsOfSections (sectionsOf path e) := by
  induction e with
  | nil => rfl
  | cons first rest ih =>
    obtain ⟨l, n⟩ := first
    rw [commentsIn, leavesOf, sectionsOf, commentsOfLeaves_append, commentsOfSections_append,
      h l n List.mem_cons_self l (path ++ [l]), ih fun k m hm => h k m (List.mem_cons_of_mem _ hm)]
    abel

/-- One more name in front of the others changes nothing around a key. -/
theorem commentsOfLeaves_under (l : Label) (e : Entries) :
    commentsOfLeaves ((leavesOf e).map fun leaf => (l :: leaf.1, leaf.2)) = commentsOfLeaves (leavesOf e) := by
  rw [commentsOfLeaves, List.map_map, commentsOfLeaves]
  refine congrArg List.sum (List.map_congr_left fun leaf hl => ?_)
  obtain ⟨k, m, p, -, -, hp⟩ := mem_leavesOf.1 hl
  rw [Function.comp_apply, commentsOfLeaf, commentsOfLeaf, hp, commentsOfPath_cons]

theorem leavesOf_of_allDefined (h : AllDefined e) : leavesOf e = [] := by
  rw [List.eq_nil_iff_forall_not_mem]
  intro leaf hl
  obtain ⟨k, m, p, hm, hp, -⟩ := mem_leavesOf.1 hl
  have hd := h k m hm
  cases m with
  | table o t =>
    cases o with
    | dotted => cases hd
    | _ => cases hp
  | tables => cases hp
  | _ => cases hd

theorem commentsInRows_eq {rows : List (Header × Entries)} (path : List Label)
    (h : ∀ k t, (k, t) ∈ rows → commentsIn t = commentsOfLeaves (leavesOf t) + commentsOfSections (sectionsOf path t)) :
    commentsInRows rows = commentsOfSections (rowSections path rows) := by
  induction rows with
  | nil => rfl
  | cons first rest ih =>
    obtain ⟨k, t⟩ := first
    rw [commentsInRows, rowSections, List.cons_append, commentsOfSections_cons, commentsOfSections_append,
      h k t List.mem_cons_self, ih fun k t hm => h k t (List.mem_cons_of_mem _ hm), Section.comments]
    abel

theorem Sound.isSum (hs : Sound n) : n.IsSum := by
  induction hs with
  | @leaf n hl =>
    intro l path
    have hsections : n.sections path = [] := by
      cases n with
      | scalar | array | inline => rfl
      | table | tables => cases hl
    rw [leaves_of_isLeaf hl, hsections, Label.commentsFor, if_pos hl]
    exact ((add_zero _).trans (add_zero _)).symm
  | @table o t _ _ himplicit _ ih =>
    intro l path
    have ht := commentsIn_eq_of ih path
    rw [l.commentsFor_of_not_isLeaf rfl, zero_add, Node.comments, ht]
    cases o with
    | dotted =>
      rw [Origin.comments, zero_add, Node.leaves, commentsOfLeaves_under]
      rfl
    | implicit =>
      rw [Origin.comments, zero_add, leavesOf_of_allDefined (himplicit rfl)]
      rfl
    | header k =>
      rw [Origin.comments, Node.sections, commentsOfSections_cons, Section.comments, add_assoc]
      exact (zero_add _).symm
  | @tables rows _ _ _ _ ih =>
    intro l path
    rw [l.commentsFor_of_not_isLeaf rfl, zero_add, Node.comments, Node.sections]
    rw [commentsInRows_eq path fun k t hm => ?_]
    · exact (zero_add _).symm
    · have hrow := ih k t hm ⟨"", [], [], [], none⟩ path
      rw [Label.commentsFor_of_not_isLeaf _ rfl, zero_add, Node.comments, Origin.comments, Node.sections,
        commentsOfSections_cons, Section.comments, add_assoc] at hrow
      exact (add_left_cancel (hrow.trans (zero_add _)))

/-- The comments of a table are those of its values and of its sections. -/
theorem commentsIn_eq (he : e.IsSound) (path : List Label) :
    commentsIn e = commentsOfLeaves (leavesOf e) + commentsOfSections (sectionsOf path e) :=
  commentsIn_eq_of (fun l n hm => (he.sound l n hm).isSum) path

end Sums

/-! ## Lines -/

section Lines

variable {e : Entries} {n : Node} {path : List Label} {inside : Bool} {depth : Nat} {leaf : Item} {d : Document}

theorem comments_keyFrom (hn : path ≠ []) (hp : ∀ l ∈ path, l.IsSpelled) (before after : List Char) :
    Key.comments (keyFrom before after path) = comments before + comments after := by
  fun_induction keyFrom before after path with
  | case1 => exact absurd rfl hn
  | case2 => exact add_zero _
  | case3 before l l' ls ih =>
    rw [Key.comments_cons, ih (List.cons_ne_nil _ _) fun k hk => hp k (List.mem_cons_of_mem _ hk), Segment.comments,
      comments_blanks (hp l List.mem_cons_self).after,
      comments_blanks (hp l' (List.mem_cons_of_mem _ List.mem_cons_self)).before, add_zero, zero_add]

/-- What usually stands around a key has no comments. -/
theorem comments_aroundOf {usual : List Char × List Char} (hb : IsBlanks usual.1) (ha : IsBlanks usual.2)
    (path : List Label) :
    comments (aroundOf usual path).1 + comments (aroundOf usual path).2 = commentsOfPath path := by
  rw [commentsOfPath, aroundOf, aroundOf]
  cases path.getLast?.bind Label.around with
  | none =>
    rw [Option.getD_none, Option.getD_none, comments_blanks hb, comments_blanks ha, comments_nil]
  | some around => rfl

theorem isBlanks_space : IsBlanks [' '] := by
  intro c hc
  rw [List.mem_singleton.1 hc]
  rfl

/-- The comments of an entry on its own. -/
theorem comments_rawEntry (hp : IsPath leaf.1) (hn : leaf.2.raw.comments = leaf.2.comments) :
    Key.comments (rawEntry [] leaf).1 + (rawEntry [] leaf).2.comments = commentsOfLeaf leaf := by
  rw [rawEntry, keyOf, List.nil_append, comments_keyFrom hp.ne_nil hp.spelled,
    comments_aroundOf isBlanks_nil isBlanks_space, hn, commentsOfLeaf]

theorem comments_rawsOf {items : List Node} (h : ∀ n ∈ items, n.raw.comments = n.comments) :
    commentsOfItems (rawsOf items) = commentsOfNodes items := by
  induction items with
  | nil => rfl
  | cons n items ih =>
    rw [rawsOf, commentsOfItems, commentsOfNodes, h n List.mem_cons_self,
      ih fun m hm => h m (List.mem_cons_of_mem _ hm)]

theorem comments_rawEntries {leaves : List Item} (hp : ∀ leaf ∈ leaves, IsPath leaf.1)
    (h : ∀ leaf ∈ leaves, leaf.2.raw.comments = leaf.2.comments) :
    commentsOfPairs (leaves.map (rawEntry [])) = commentsOfLeaves leaves := by
  induction leaves with
  | nil => rfl
  | cons leaf leaves ih =>
    have hleaf := comments_rawEntry (hp leaf List.mem_cons_self) (h leaf List.mem_cons_self)
    rw [List.map_cons, commentsOfPairs, hleaf,
      ih (fun k hk => hp k (List.mem_cons_of_mem _ hk)) fun k hk => h k (List.mem_cons_of_mem _ hk)]
    exact List.sum_cons.symm

/-- A value is written with its comments. -/
theorem comments_raw (h : Written inside depth n) : n.raw.comments = n.comments := by
  induction h with
  | scalar => rfl
  | array _ _ _ _ ih => rw [Node.raw, Raw.comments, Node.comments, comments_rawsOf ih]
  | @inline inside depth before rest after e _ _ _ hs hd hp _ ih =>
    have hsections : sectionsOf [] e = [] := by
      have hmap := places_sectionsOf [] e
      rwa [hd, List.map_eq_nil_iff] at hmap
    rw [Node.raw, Raw.comments, Node.comments, rawEntries_eq, comments_rawEntries (fun leaf hl => (hp leaf hl).1) ih,
      commentsIn_eq hs [], hsections]
    simp [commentsOfSections]

theorem commentsOfLines_append (as bs : List Line) :
    commentsOfLines (as ++ bs) = commentsOfLines as + commentsOfLines bs := by
  rw [commentsOfLines, List.map_append, List.sum_append]
  rfl

theorem comments_entryLines (h : LeavesSpelled e) :
    commentsOfLines ((leavesOf e).map entryLine) = commentsOfLeaves (leavesOf e) := by
  rw [commentsOfLines, List.map_map, commentsOfLeaves]
  refine congrArg List.sum (List.map_congr_left fun leaf hl => ?_)
  obtain ⟨hp, -, hw⟩ := h leaf hl
  exact comments_rawEntry hp (comments_raw hw)

theorem comments_sectionLines {s : Section} (h : s.IsSpelled) : commentsOfLines s.lines.all = s.comments := by
  have hkey : Key.comments (keyOf ([], []) s.path) = 0 := by
    rw [keyOf, comments_keyFrom h.path.ne_nil h.path.spelled, comments_blanks h.before, comments_blanks h.after, add_zero]
  rw [Lines.all, Section.lines, commentsOfLines_cons, comments_entryLines h.leaves, Line.comments, hkey, add_zero]
  rfl

theorem comments_sections {sections : List Section} (h : ∀ s ∈ sections, s.IsSpelled) :
    commentsOfLines ((sections.map Section.lines).flatMap Lines.all) = commentsOfSections sections := by
  induction sections with
  | nil => rfl
  | cons s sections ih =>
    rw [List.map_cons, List.flatMap_cons, commentsOfLines_append, comments_sectionLines (h s List.mem_cons_self),
      ih fun t ht => h t (List.mem_cons_of_mem _ ht), commentsOfSections_cons]

/-- The lines of a tree have all its comments. -/
theorem commentsOfLines_linesOf (h : d.IsSpelled) : commentsOfLines (linesOf d.entries) = commentsIn d.entries := by
  have hperm : (sortedSections d.entries).Perm (sectionsOf [] d.entries) := List.mergeSort_perm _ _
  rw [linesOf, commentsOfLines_append, comments_entryLines h.leaves,
    comments_sections fun s hs => h.sections s (mem_sortedSections.1 hs), commentsIn_eq h.sound []]
  exact congrArg _ (hperm.map _).sum_eq

theorem not_isOpen_keyOf (hp : IsPath path) (usual : List Char × List Char) : isOpen (keyOf usual path) = false := by
  obtain ⟨ls, hls, -⟩ := labels_keyFrom hp (aroundOf usual path).1 (aroundOf usual path).2
  refine not_isOpen_of_labels hls fun hnil => hp.ne_nil ?_
  have hlen := length_keyFrom (aroundOf usual path).1 (aroundOf usual path).2 path
  rw [← keyOf, hnil] at hlen
  exact List.length_eq_zero_iff.1 hlen.symm

theorem isNamed_linesOf (h : d.IsSpelled) : ∀ line ∈ linesOf d.entries, line.isNamed = true := by
  have entries (e : Entries) : ∀ line ∈ (leavesOf e).map entryLine, line.isNamed = true := by
    intro line hl
    obtain ⟨leaf, -, rfl⟩ := List.mem_map.1 hl
    rfl
  intro line hl
  rcases List.mem_append.1 hl with hl | hl
  · exact entries _ line hl
  · obtain ⟨ls, hls, hl⟩ := List.mem_flatMap.1 hl
    obtain ⟨s, hs, rfl⟩ := List.mem_map.1 hls
    rcases List.mem_cons.1 hl with rfl | hl
    · rw [Line.isNamed, Section.lines, not_isOpen_keyOf (h.sections s (mem_sortedSections.1 hs)).path]
      rfl
    · exact entries _ line hl

/-- All comments of a document are written. -/
theorem comments_render (h : d.IsSpelled) : comments (Source.dropMark d.render) = commentsIn d.entries + comments d.rest := by
  rw [comments_source (read?_render h) (isNamed_linesOf h), commentsOfLines_linesOf h]

end Lines

/-! ## The list -/

section SetList

variable {name : String} {values : List String} {d : Document} {text written : List Char}

theorem comments_listItems (first : Bool) (values : List String) : commentsOfNodes (listNode.items first values) = 0 := by
  induction values generalizing first with
  | nil => rfl
  | cons v vs ih =>
    have hbefore : comments (if first then [] else [' ']) = 0 := by
      cases first with
      | true => exact comments_nil
      | false => exact comments_blanks isBlanks_space
    rw [listNode.items, commentsOfNodes, ih, Node.comments, hbefore, comments_nil, add_zero, add_zero]

theorem comments_listNode (values : List String) : (listNode values).comments = 0 := by
  rw [listNode, Node.comments, comments_listItems, comments_blanks isBlanks_space, comments_nil]
  rfl

/-- The comments of the value that a key of the root table has. -/
def Document.commentsAt (name : String) (d : Document) : Multiset (List Char) :=
  ((d.entries.get? name).map Node.comments).getD 0

/-- Setting a list takes away the comments of the value that it replaces. -/
theorem comments_setList (hx : ∀ n, d.entries.get? name = some n → n.isLeaf = true) (values : List String) :
    commentsIn (d.setList name values).entries + d.commentsAt name = commentsIn d.entries := by
  have hnone : (nameLabel name).commentsFor (listNode values) = 0 := by
    have hpath : commentsOfPath [nameLabel name] = comments [] + comments [] := rfl
    rw [Label.commentsFor, if_pos (show (listNode values).isLeaf = true from rfl), hpath, comments_nil, add_zero]
  cases hg : d.entries.get? name with
  | none =>
    have hset := commentsIn_set_of_none (l := nameLabel name) hg (listNode values)
    rw [Document.commentsAt, hg, Option.map_none, Option.getD_none, add_zero]
    refine hset.trans ?_
    rw [hnone, comments_listNode, zero_add, zero_add]
  | some n =>
    have hlost : (listNode values).comments + n.comments = 0 + n.comments := by rw [comments_listNode]
    have hleaf : (listNode values).isLeaf = n.isLeaf := (hx n hg).symm
    have hset := commentsIn_set_of_some (l := nameLabel name) hg hleaf hlost
    rw [Document.commentsAt, hg]
    exact hset.trans (zero_add _)

/-- Every comment of the text is in the text that is written, but those of the value that the list replaces. -/
theorem comments_writeList (hd : Document.read Scalar.isNarrow text = .ok d) (hname : (nameLabel name).IsSpelled)
    (hx : ∀ n, d.entries.get? name = some n → n.isLeaf = true) (hw : writeList name values text = .ok written) :
    comments (Source.dropMark text) = comments (Source.dropMark written) + d.commentsAt name := by
  obtain ⟨⟨bound, hs⟩, hend⟩ := stands_of_read hd
  have hstands : (d.setList name values).entries.Stands bound := stands_setList hs hname hx
  have hwritten : (d.setList name values).render = written := by
    rw [writeList, hd] at hw
    exact Except.ok.inj hw
  have hrender := comments_render (d := d.setList name values) (hstands.isSpelled hend)
  have hrest : (d.setList name values).rest = d.rest := rfl
  rw [comments_read hd, ← hwritten, hrender, hrest, ← comments_setList hx values, add_right_comm]

end SetList

end SqlLint.Toml
