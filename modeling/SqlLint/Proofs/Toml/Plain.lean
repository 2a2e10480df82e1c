import SqlLint.Proofs.Toml.Rewrite

/-! # Plain documents

A plain document has values under names at the top and tables of such values, each with its header. Its text is
the values line by line, and it is read back as written. -/
namespace SqlLint.Toml
open Token (nestingLimit)

/-- Values under names. -/
def row (fields : List (String × Node)) : Entries := fields.map fun f => (nameLabel f.1, f.2)

/-- Tables with headers that count from a place. -/
def headed : Nat → List (String × List (String × Node)) → Entries
  | _, [] => []
  | place, (name, fields) :: tables =>
    (nameLabel name, .table (.header ⟨place, [], []⟩) (row fields)) :: headed (place + 1) tables

def plain (root : List (String × Node)) (tables : List (String × List (String × Node))) : Entries :=
  row root ++ headed 0 tables

def rowText (fields : List (String × Node)) : List Char :=
  fields.flatMap fun f => f.1.toList ++ ' ' :: '=' :: f.2.text ++ ['\n']

def plainText (root : List (String × Node)) (tables : List (String × List (String × Node))) : List Char :=
  rowText root ++ tables.flatMap fun t => '[' :: t.1.toList ++ ']' :: '\n' :: rowText t.2

/-- A name that needs no quotes. -/
structure IsBareName (name : String) : Prop where
  ne_empty : name.toList ≠ []
  bare : ∀ c ∈ name.toList, isBare c = true

/-- Values that can be written under different names without quotes. -/
structure IsRow (fields : List (String × Node)) : Prop where
  nodup : (fields.map Prod.fst).Nodup
  name : ∀ f ∈ fields, IsBareName f.1
  written : ∀ f ∈ fields, Written false nestingLimit f.2

section Names

variable {c : Char} {name : String}

theorem not_endsWord_of_isBare (h : isBare c = true) : Token.endsWord c = false ∧ Token.isQuote c = false := by
  have apart (e : Char) (he : isBare e = false) : c ≠ e := by
    rintro rfl
    exact Bool.false_ne_true (he.symm.trans h)
  simp [Token.endsWord, Token.isMark, Token.isBlank, Token.endsLine, Token.isQuote, apart, isBare]

theorem IsBareName.segment (h : IsBareName name) : Segment.name ⟨[], name.toList, []⟩ = .ok name := by
  have named : Segment.name.named name.toList = .ok name := by
    have bare : name.toList.all isBare = true := List.all_eq_true.2 h.bare
    have plain : name.toList.head?.any Token.isQuote = false := by
      cases text : name.toList with
      | nil => rfl
      | cons c cs => exact (not_endsWord_of_isBare (h.bare c (by simp [text]))).2
    rw [Segment.name.named, plain, if_neg Bool.false_ne_true, if_pos bare, String.ofList_toList]
  rw [Segment.name]
  dsimp only
  split
  · next none => exact absurd none h.ne_empty
  · next a b c rest text =>
    have first := (not_endsWord_of_isBare (h.bare a (by simp [text]))).2
    rw [first, if_neg (by simp), ← text]
    exact named
  · exact named

/-- A name without quotes is a word. -/
theorem IsBareName.isSpelled (h : IsBareName name) : (nameLabel name).IsSpelled := by
  refine ⟨h.segment, .inl ?_, isBlanks_nil, isBlanks_nil⟩
  obtain ⟨c, cs, text⟩ := List.exists_cons_of_ne_nil h.ne_empty
  refine ⟨c, cs, text, (not_endsWord_of_isBare (h.bare c (by simp [text]))).2, fun d hd => ?_⟩
  exact (not_endsWord_of_isBare (h.bare d (text ▸ hd))).1

theorem IsBareName.fits (h : IsBareName name) (n : Node) : (nameLabel name).Fits false n :=
  ⟨h.isSpelled, fun _ _ ha => (by cases ha), fun _ _ ha => (by cases ha)⟩

end Names

section Text

variable {root fields : List (String × Node)} {tables : List (String × List (String × Node))}

theorem leavesOf_append (e e' : Entries) : leavesOf (e ++ e') = leavesOf e ++ leavesOf e' := by
  induction e with
  | nil => rfl
  | cons first e ih => rw [List.cons_append, leavesOf, leavesOf, ih, List.append_assoc]

theorem sectionsOf_append (path : List Label) (e e' : Entries) :
    sectionsOf path (e ++ e') = sectionsOf path e ++ sectionsOf path e' := by
  induction e with
  | nil => rfl
  | cons first e ih => rw [List.cons_append, sectionsOf, sectionsOf, ih, List.append_assoc]

theorem leavesOf_row (h : IsRow fields) : leavesOf (row fields) = fields.map fun f => ([nameLabel f.1], f.2) := by
  have written := h.written
  clear h
  induction fields with
  | nil => rfl
  | cons f fields ih =>
    have leaf := leaves_of_isLeaf (written f List.mem_cons_self).isLeaf
    have rest := ih fun f hf => written f (List.mem_cons_of_mem _ hf)
    rw [row] at rest ⊢
    rw [List.map_cons, leavesOf, leaf, rest]
    rfl

theorem leavesOf_headed (place : Nat) (tables : List (String × List (String × Node))) :
    leavesOf (headed place tables) = [] := by
  induction tables generalizing place with
  | nil => rfl
  | cons t tables ih =>
    rw [headed, leavesOf, ih]
    rfl

theorem linesText_row (h : IsRow fields) : linesText (row fields) = rowText fields := by
  rw [linesText, entryTexts_eq, leavesOf_row h, List.map_map, List.flatMap_map, rowText]
  refine List.flatMap_congr fun f _ => ?_
  simp [entryText, keyText, pathText, nameLabel]

theorem sectionsOf_row (h : IsRow fields) (path : List Label) : sectionsOf path (row fields) = [] := by
  have written := h.written
  clear h
  induction fields with
  | nil => rfl
  | cons f fields ih =>
    have rest := ih fun f hf => written f (List.mem_cons_of_mem _ hf)
    rw [row] at rest ⊢
    rw [List.map_cons, sectionsOf, rest]
    have leaf := (written f List.mem_cons_self).isLeaf
    have here (n : Node) (hn : n.isLeaf = true) (path : List Label) : n.sections path = [] := by
      cases n <;> first | rfl | cases hn
    rw [here f.2 leaf, List.append_nil]

/-- The tables of a plain document in the order of their headers. -/
def sectionsFrom : Nat → List (String × List (String × Node)) → List Section
  | _, [] => []
  | place, (name, fields) :: tables => ⟨⟨place, [], []⟩, false, [nameLabel name], row fields⟩ :: sectionsFrom (place + 1) tables

theorem sectionsOf_headed (rows : ∀ t ∈ tables, IsRow t.2) (place : Nat) :
    sectionsOf [] (headed place tables) = sectionsFrom place tables := by
  induction tables generalizing place with
  | nil => rfl
  | cons t tables ih =>
    obtain ⟨name, fields⟩ := t
    have here : IsRow fields := rows _ List.mem_cons_self
    rw [headed, sectionsOf, ih (fun t ht => rows t (List.mem_cons_of_mem _ ht)), Node.sections, sectionsOf_row here]
    rfl

theorem text_sectionsFrom (rows : ∀ t ∈ tables, IsRow t.2) (place : Nat) : (sectionsFrom place tables).flatMap Section.text =
    tables.flatMap fun t => '[' :: t.1.toList ++ ']' :: '\n' :: rowText t.2 := by
  induction tables generalizing place with
  | nil => rfl
  | cons t tables ih =>
    obtain ⟨name, fields⟩ := t
    have here : IsRow fields := rows _ List.mem_cons_self
    rw [sectionsFrom, List.flatMap_cons, List.flatMap_cons, ih (fun t ht => rows t (List.mem_cons_of_mem _ ht)), Section.text,
      linesText_row here]
    simp [keyText, pathText, nameLabel]

theorem place_le_of_mem {place : Nat} {s : Section} (h : s ∈ sectionsFrom place tables) : place ≤ s.header.place := by
  induction tables generalizing place with
  | nil => cases h
  | cons t tables ih =>
    rcases List.mem_cons.1 h with rfl | later
    · exact Nat.le_refl _
    · have := ih later
      omega

theorem pairwise_sectionsFrom (place : Nat) : (sectionsFrom place tables).Pairwise fun a b =>
    decide (a.header.place ≤ b.header.place) = true := by
  induction tables generalizing place with
  | nil => exact .nil
  | cons t tables ih =>
    refine List.pairwise_cons.2 ⟨fun s hs => ?_, ih (place + 1)⟩
    have := place_le_of_mem hs
    exact decide_eq_true (by dsimp only; omega)

/-- The text of a plain document is its values, line by line. -/
theorem render_plain (hr : IsRow root) (rows : ∀ t ∈ tables, IsRow t.2) :
    Document.render ⟨plain root tables, []⟩ = plainText root tables := by
  have entries : linesText (plain root tables) = rowText root := by
    rw [linesText, entryTexts_eq, plain, leavesOf_append, leavesOf_headed, List.append_nil, ← entryTexts_eq, ← linesText,
      linesText_row hr]
  have sections : sectionsOf [] (plain root tables) = sectionsFrom 0 tables := by
    rw [plain, sectionsOf_append, sectionsOf_row hr, sectionsOf_headed rows, List.nil_append]
  rw [Document.render]
  dsimp only
  rw [entries, sections, List.mergeSort_of_pairwise (pairwise_sectionsFrom 0), text_sectionsFrom rows, List.append_nil, plainText]

end Text

section Reading

variable {root fields : List (String × Node)} {tables : List (String × List (String × Node))} {place : Nat}

theorem fits_row (h : IsRow fields) (i : Nat) : (row fields).Fits false nestingLimit i 1 where
  functional := by
    rw [Entries.IsFunctional, row, List.map_map]
    exact h.nodup
  labels l n mem := by
    obtain ⟨f, hf, same⟩ := List.mem_map.1 mem
    cases same
    exact (h.name f hf).fits f.2
  nodes l n mem := by
    obtain ⟨f, hf, same⟩ := List.mem_map.1 mem
    cases same
    exact .leaf (h.written f hf) (by decide)

theorem placesOf_row (h : IsRow fields) : placesOf (row fields) = [] := by
  rw [List.eq_nil_iff_forall_not_mem]
  intro q hq
  obtain ⟨l, n, mem, hq⟩ := mem_placesOf.1 hq
  obtain ⟨f, hf, same⟩ := List.mem_map.1 mem
  cases same
  rw [places_of_isLeaf (h.written f hf).isLeaf] at hq
  cases hq

theorem placesOf_headed (rows : ∀ t ∈ tables, IsRow t.2) (place : Nat) :
    placesOf (headed place tables) = List.range' place tables.length := by
  induction tables generalizing place with
  | nil => rfl
  | cons t tables ih =>
    obtain ⟨name, fields⟩ := t
    have here : IsRow fields := rows _ List.mem_cons_self
    rw [headed, placesOf, ih (fun t ht => rows t (List.mem_cons_of_mem _ ht)), Node.places, placesOf_row here]
    rfl

theorem mem_headed {l : Label} {n : Node} (h : (l, n) ∈ headed place tables) : ∃ t ∈ tables, ∃ header,
    l = nameLabel t.1 ∧ n = .table (.header header) (row t.2) ∧ header.IsSpelled := by
  induction tables generalizing place with
  | nil => cases h
  | cons t tables ih =>
    rcases List.mem_cons.1 h with same | later
    · cases same
      exact ⟨t, List.mem_cons_self, ⟨place, [], []⟩, rfl, rfl, .nil, .blanks isBlanks_nil⟩
    · obtain ⟨t, ht, rest⟩ := ih later
      exact ⟨t, List.mem_cons_of_mem _ ht, rest⟩

theorem names_headed (place : Nat) : (headed place tables).map (fun e => e.1.name) = tables.map Prod.fst := by
  induction tables generalizing place with
  | nil => rfl
  | cons t tables ih =>
    rw [headed, List.map_cons, ih, List.map_cons]
    rfl

theorem names_plain : (plain root tables).map (fun e => e.1.name) = root.map Prod.fst ++ tables.map Prod.fst := by
  rw [plain, List.map_append, names_headed, row, List.map_map]
  rfl

/-- A plain document with different names. -/
structure IsPlainTree (root : List (String × Node)) (tables : List (String × List (String × Node))) : Prop where
  nodup : (root.map Prod.fst ++ tables.map Prod.fst).Nodup
  root : IsRow root
  rows : ∀ t ∈ tables, IsRow t.2
  name : ∀ t ∈ tables, IsBareName t.1

theorem stands_plain (h : IsPlainTree root tables) : (plain root tables).Stands tables.length where
  fits := {
    functional := by rw [Entries.IsFunctional, names_plain]; exact h.nodup
    labels := by
      intro l n mem
      rcases List.mem_append.1 mem with mem | mem
      · exact (fits_row h.root 1).labels l n mem
      · obtain ⟨t, ht, header, rfl, -⟩ := mem_headed mem
        exact (h.name t ht).fits n
    nodes := by
      intro l n mem
      rcases List.mem_append.1 mem with mem | mem
      · exact (fits_row h.root 1).nodes l n mem
      · obtain ⟨t, ht, header, -, rfl, spelled⟩ := mem_headed mem
        have inner := fits_row (h.rows t ht) 2
        exact .header rfl (by decide) spelled inner.functional inner.labels inner.nodes }
  places := by
    rw [plain, placesOf_append, placesOf_row h.root, placesOf_headed h.rows, List.nil_append, List.range_eq_range']

/-- A plain document is read back with its values. -/
theorem read_plainText (takes : Scalar → Bool) (ht : ∀ s, s.isNarrow = true → takes s = true) (h : IsPlainTree root tables) :
    ∃ d, Document.read takes (plainText root tables) = .ok d ∧ d.table = tableOf (plain root tables) := by
  have spelled := (stands_plain h).isSpelled (.space .nil)
  rw [← render_plain h.root h.rows]
  exact read_render ht spelled

end Reading

end SqlLint.Toml
