import SqlLint.Proofs.Toml.Drafts
import SqlLint.Proofs.Toml.Pieces

/-! # How trees are spelled

The labels and the values of a tree have the form of what is read. The lines of such a tree have the
meaning of its labels and its values. -/
namespace SqlLint.Toml

/-- A label whose text is that of its name. -/
structure Label.IsSpelled (l : Label) : Prop where
  name : Segment.name ⟨[], l.text, []⟩ = .ok l.name
  text : IsName l.text
  before : IsBlanks l.before
  after : IsBlanks l.after

/-- Labels that a key may have. -/
structure IsPath (path : List Label) : Prop where
  ne_nil : path ≠ []
  length_le : path.length ≤ Key.limit
  spelled : ∀ l ∈ path, l.IsSpelled

/-- What stands around a key, if that is known, or else what usually does. -/
def aroundOf (usual : List Char × List Char) (path : List Label) : List Char × List Char :=
  (path.getLast?.bind Label.around).getD usual

/-- The segments of a path with something around it. -/
def keyFrom (before after : List Char) : List Label → Key
  | [] => []
  | [l] => [⟨before, l.text, after⟩]
  | l :: l' :: ls => ⟨before, l.text, l.after⟩ :: keyFrom l'.before after (l' :: ls)

def keyOf (usual : List Char × List Char) (path : List Label) : Key :=
  keyFrom (aroundOf usual path).1 (aroundOf usual path).2 path

section Keys

variable {path : List Label}

theorem length_keyFrom (before after : List Char) (path : List Label) :
    (keyFrom before after path).length = path.length := by
  fun_induction keyFrom before after path with
  | case1 => rfl
  | case2 => rfl
  | case3 before l l' ls ih => rw [List.length_cons, ih]; rfl

theorem mapM_name_keyFrom (before after : List Char) (hp : ∀ l ∈ path, l.IsSpelled) :
    (keyFrom before after path).mapM Segment.name = .ok (names path) := by
  fun_induction keyFrom before after path with
  | case1 => rfl
  | case2 before l =>
    have h : Segment.name ⟨before, l.text, after⟩ = .ok l.name := (hp l List.mem_cons_self).name
    rw [List.mapM_cons, h]
    rfl
  | case3 before l l' ls ih =>
    have h : Segment.name ⟨before, l.text, l.after⟩ = .ok l.name := (hp l List.mem_cons_self).name
    rw [List.mapM_cons, h, ih fun k hk => hp k (List.mem_cons_of_mem _ hk)]
    rfl

theorem names_spell (around : List Char × List Char) (first : Bool) (pairs : List (String × Segment)) :
    names (Key.labels.spell around first pairs) = pairs.map Prod.fst := by
  fun_induction Key.labels.spell around first pairs with
  | case1 => rfl
  | case2 => rfl
  | case3 first name s rest _ ih =>
    rw [names, List.map_cons, List.map_cons]
    exact congrArg _ ih

/-- The names of a written path are those of its labels. -/
theorem labels_keyFrom (hp : IsPath path) (before after : List Char) :
    ∃ ls, (keyFrom before after path).labels = .ok ls ∧ names ls = names path := by
  have hlimit : ¬ Key.limit < (keyFrom before after path).length := by
    rw [length_keyFrom]
    exact Nat.not_lt.2 hp.length_le
  refine ⟨_, by simp only [Key.labels, mapM_name_keyFrom before after hp.spelled, bind, Except.bind]; rw [if_neg hlimit]; rfl, ?_⟩
  rw [names_spell, List.map_fst_zip]
  rw [length_keyFrom, names, List.length_map]

end Keys

mutual
/-- What is written of a value. -/
def Node.raw : Node → Raw
  | .scalar before text after _ => .scalar before text after
  | .array before items rest after => .array before (rawsOf items) rest after
  | .inline before entries rest after => .table before (rawEntries [] entries) rest after
  | .table .. => .scalar [] [] []
  | .tables _ => .scalar [] [] []

def rawsOf : List Node → List Raw
  | [] => []
  | n :: rest => n.raw :: rawsOf rest

def rawEntries (path : List Label) : List (Label × Node) → List (Key × Raw)
  | [] => []
  | (l, .table .dotted t) :: rest => rawEntries (path ++ [l]) t ++ rawEntries path rest
  | (_, .table .implicit _) :: rest => rawEntries path rest
  | (_, .table (.header _) _) :: rest => rawEntries path rest
  | (_, .tables _) :: rest => rawEntries path rest
  | (l, n) :: rest => (keyOf ([], [' ']) (path ++ [l]), n.raw) :: rawEntries path rest
end

/-- An entry on its own. -/
def rawEntry (path : List Label) (leaf : List Label × Node) : Key × Raw :=
  (keyOf ([], [' ']) (path ++ leaf.1), leaf.2.raw)

theorem rawEntries_eq (path : List Label) : ∀ e : Entries, rawEntries path e = (leavesOf e).map (rawEntry path)
  | [] => by rw [rawEntries]; rfl
  | (l, .table .dotted t) :: rest => by
    rw [rawEntries, rawEntries_eq (path ++ [l]) t, rawEntries_eq path rest, leavesOf, Node.leaves, List.map_append,
      List.map_map]
    congr 2
    funext leaf
    simp [rawEntry]
  | (_, .table .implicit _) :: rest => by rw [rawEntries, rawEntries_eq path rest]; rfl
  | (_, .table (.header _) _) :: rest => by rw [rawEntries, rawEntries_eq path rest]; rfl
  | (_, .tables _) :: rest => by rw [rawEntries, rawEntries_eq path rest]; rfl
  | (l, .scalar ..) :: rest => by rw [rawEntries, rawEntries_eq path rest] <;> first | rfl | simp
  | (l, .array ..) :: rest => by rw [rawEntries, rawEntries_eq path rest] <;> first | rfl | simp
  | (l, .inline ..) :: rest => by rw [rawEntries, rawEntries_eq path rest] <;> first | rfl | simp

/-- What stands in front of a value, inside of brackets or not. -/
def IsBefore (inside : Bool) (w : List Char) : Prop := if inside then IsSpace w else IsBlanks w

/-- What stands behind a value. -/
def IsAfter (inside : Bool) (w : List Char) : Prop := if inside then IsSpace w else IsTail w

/-- What stands behind the items in brackets. -/
def IsRest {α : Type} (items : List α) (w : List Char) : Prop :=
  if items.isEmpty then IsSpace w else w = [] ∨ ∃ s, w = ',' :: s ∧ IsSpace s

/-- What stands around the key of a value. -/
def IsAround (inside : Bool) (around : List Char × List Char) : Prop :=
  IsSpace around.1 ∧ if inside then IsSpace around.2 else IsBlanks around.2

/-- A value that has the form of what is read, with at most so many brackets to open. -/
inductive Written : Bool → Nat → Node → Prop
  | scalar {inside : Bool} {depth : Nat} {before text after : List Char} {s : Scalar} : IsBefore inside before →
    IsAfter inside after → IsScalar text → scalarOf text = .ok s → s.isNarrow = true →
    Written inside depth (.scalar before text after s)
  | array {inside : Bool} {depth : Nat} {before rest after : List Char} {items : List Node} :
    IsBefore inside before → IsAfter inside after → IsRest items rest → (∀ n ∈ items, Written true depth n) →
    Written inside (depth + 1) (.array before items rest after)
  | inline {inside : Bool} {depth : Nat} {before rest after : List Char} {e : Entries} : IsBefore inside before →
    IsAfter inside after → IsRest (leavesOf e) rest → e.IsSound → placesOf e = [] →
    (∀ leaf ∈ leavesOf e, IsPath leaf.1 ∧ IsAround true (aroundOf ([], [' ']) leaf.1)) →
    (∀ leaf ∈ leavesOf e, Written true depth leaf.2) → Written inside (depth + 1) (.inline before e rest after)

section Meaning

variable {takes : Scalar → Bool} {inside : Bool} {depth : Nat} {n : Node} {e : Entries}

theorem Written.isLeaf (h : Written inside depth n) : n.isLeaf = true := by
  cases h <;> rfl

/-- A value that is read again has the meaning it had. -/
def Node.Keeps (takes : Scalar → Bool) (n : Node) : Prop :=
  ∃ m, n.raw.node takes = .ok m ∧ m.isLeaf = true ∧ m.value = n.value

theorem nodesOf_raws {items : List Node} (h : ∀ n ∈ items, n.Keeps takes) :
    ∃ ms, nodesOf takes (rawsOf items) = .ok ms ∧ valuesOf ms = valuesOf items := by
  induction items with
  | nil => exact ⟨[], by rw [rawsOf, nodesOf], rfl⟩
  | cons n items ih =>
    obtain ⟨m, hm, -, hv⟩ := h n List.mem_cons_self
    obtain ⟨ms, hms, hvs⟩ := ih fun k hk => h k (List.mem_cons_of_mem _ hk)
    refine ⟨m :: ms, ?_, by rw [valuesOf, valuesOf, hv, hvs]⟩
    rw [rawsOf, nodesOf, hm, hms]
    rfl

/-- Entries with their labels and their nodes, as they are read again. -/
theorem items_of_leaves {leaves : List Item} (hp : ∀ leaf ∈ leaves, IsPath leaf.1)
    (hk : ∀ leaf ∈ leaves, leaf.2.Keeps takes) :
    ∃ items, List.Forall₂ Item.IsOf items leaves ∧ List.Forall₂ (fun (raw : Key × Raw) (item : Item) =>
      raw.1.labels = .ok item.1 ∧ raw.2.node takes = .ok item.2) (leaves.map (rawEntry [])) items := by
  induction leaves with
  | nil => exact ⟨[], .nil, .nil⟩
  | cons leaf leaves ih =>
    obtain ⟨items, hi, hr⟩ := ih (fun k h => hp k (List.mem_cons_of_mem _ h)) fun k h => hk k (List.mem_cons_of_mem _ h)
    obtain ⟨ls, hls, hn⟩ := labels_keyFrom (hp leaf List.mem_cons_self) (aroundOf ([], [' ']) leaf.1).1
      (aroundOf ([], [' ']) leaf.1).2
    obtain ⟨m, hm, hl, hv⟩ := hk leaf List.mem_cons_self
    exact ⟨(ls, m) :: items, .cons ⟨hn, hl, hv⟩ hi, .cons ⟨hls, hm⟩ hr⟩

theorem fill_eq {raws : List (Key × Raw)} {items : List Item} (h : List.Forall₂ (fun (raw : Key × Raw) (item : Item) =>
      raw.1.labels = .ok item.1 ∧ raw.2.node takes = .ok item.2) raws items) {t u : Entries}
    (hu : putAll items t = some u) : fill takes raws t = .ok u := by
  induction h generalizing t with
  | nil =>
    cases hu
    rw [fill]
  | @cons raw item raws items hr _ ih =>
    obtain ⟨key, raw⟩ := raw
    rw [putAll_cons] at hu
    obtain ⟨v, hv, hu⟩ := Option.bind_eq_some_iff.1 hu
    rw [fill]
    simp only [hr.1, hr.2, hv, bind, Except.bind]
    exact ih hu

/-- Entries without sections are read again with the table they describe. -/
theorem fill_leaves (hs : e.IsSound) (hd : placesOf e = []) (hp : ∀ leaf ∈ leavesOf e, IsPath leaf.1)
    (hk : ∀ leaf ∈ leavesOf e, leaf.2.Keeps takes) :
    ∃ u, fill takes (rawEntries [] e) [] = .ok u ∧ tableOf u = tableOf e := by
  obtain ⟨items, hi, hr⟩ := items_of_leaves hp hk
  have hempty : List.Forall₂ Reading.IsOf [] (sortedSections e) := sortedSections_eq_nil hd ▸ .nil
  obtain ⟨u, v, hu, hv, ht⟩ := tableOf_readings hs (hd ▸ List.nodup_nil) hi hempty
  cases hv
  refine ⟨u, ?_, ht⟩
  rw [rawEntries_eq]
  exact fill_eq hr hu

theorem Written.keeps (ht : ∀ s : Scalar, s.isNarrow = true → takes s = true) (h : Written inside depth n) :
    n.Keeps takes := by
  induction h with
  | @scalar inside depth before text after s _ _ _ hs hn =>
    refine ⟨.scalar before text after s, ?_, rfl, rfl⟩
    rw [Node.raw, Raw.node, hs]
    simp only [bind, Except.bind]
    rw [if_pos (ht s hn)]
    rfl
  | @array inside depth before rest after items _ _ _ _ ih =>
    obtain ⟨ms, hms, hv⟩ := nodesOf_raws ih
    refine ⟨.array before ms rest after, ?_, rfl, by rw [Node.value, Node.value, hv]⟩
    rw [Node.raw, Raw.node, hms]
    rfl
  | @inline inside depth before rest after e _ _ _ hs hd hp _ ih =>
    obtain ⟨u, hu, hv⟩ := fill_leaves hs hd (fun leaf hl => (hp leaf hl).1) ih
    refine ⟨.inline before u rest after, ?_, rfl, by rw [Node.value, Node.value, hv]⟩
    rw [Node.raw, Raw.node, hu]
    rfl

end Meaning

end SqlLint.Toml
