import SqlLint.Proofs.Toml.Sections
import Mathlib.Data.List.Nodup

/-! # What is written of a tree

The values of a table and its sections, in the order in which they are written, are those that the names
of the tree lead to, and each of them is written once. -/
namespace SqlLint.Toml

mutual
/-- The values of a node outside of its sections, each with the labels that lead to it. -/
def Node.leaves : Node → List (List Label × Node)
  | .table .dotted t => leavesOf t
  | .table _ _ => []
  | .tables _ => []
  | n => [([], n)]

def leavesOf : List (Label × Node) → List (List Label × Node)
  | [] => []
  | (l, n) :: rest => n.leaves.map (fun leaf => (l :: leaf.1, leaf.2)) ++ leavesOf rest
end

def names (path : List Label) : List String := path.map Label.name

/-- An entry on its own. -/
def entryText (path : List Label) (leaf : List Label × Node) : List Char :=
  keyText ([], [' ']) (path ++ leaf.1) ++ '=' :: leaf.2.text

/-- Entries whose names are not repeated, with sound trees under them. -/
structure Entries.IsSound (e : Entries) : Prop where
  functional : e.IsFunctional
  sound : ∀ l n, (l, n) ∈ e → Sound n

variable {e t : Entries} {m n : Node} {x : String}

theorem Entries.IsSound.nil : Entries.IsSound [] := ⟨List.nodup_nil, fun _ _ h => by cases h⟩

theorem Entries.IsSound.of_table {o : Origin} (h : Sound (.table o t)) : t.IsSound := by
  cases h with
  | leaf hl => cases hl
  | table hf _ _ hs => exact ⟨hf, hs⟩

theorem Entries.IsSound.of_row {rows : List (Header × Entries)} {h : Header} {t : Entries} (hs : Sound (.tables rows))
    (hm : (h, t) ∈ rows) : t.IsSound := by
  cases hs with
  | leaf hl => cases hl
  | tables _ _ hr _ => exact .of_table (hr h t hm)

theorem Entries.IsSound.get? (h : e.IsSound) (hg : e.get? x = some n) : Sound n := by
  obtain ⟨l, -, hm⟩ := Entries.mem_of_get? hg
  exact h.sound l n hm

theorem leaves_of_isLeaf (h : n.isLeaf = true) : n.leaves = [([], n)] := by
  cases n with
  | scalar | array | inline => rfl
  | table | tables => cases h

theorem entryTexts_eq (path : List Label) : ∀ e : Entries, entryTexts path e = (leavesOf e).map (entryText path)
  | [] => rfl
  | (l, .table .dotted t) :: rest => by
    rw [entryTexts, entryTexts_eq (path ++ [l]) t, entryTexts_eq path rest, leavesOf, Node.leaves, List.map_append,
      List.map_map]
    congr 2
    funext leaf
    simp [entryText]
  | (_, .table .implicit _) :: rest => by rw [entryTexts, entryTexts_eq path rest]; rfl
  | (_, .table (.header _) _) :: rest => by rw [entryTexts, entryTexts_eq path rest]; rfl
  | (_, .tables _) :: rest => by rw [entryTexts, entryTexts_eq path rest]; rfl
  | (l, .scalar ..) :: rest => by rw [entryTexts, entryTexts_eq path rest] <;> first | rfl | simp
  | (l, .array ..) :: rest => by rw [entryTexts, entryTexts_eq path rest] <;> first | rfl | simp
  | (l, .inline ..) :: rest => by rw [entryTexts, entryTexts_eq path rest] <;> first | rfl | simp

theorem mem_leavesOf {leaf : List Label × Node} :
    leaf ∈ leavesOf e ↔ ∃ l n p, (l, n) ∈ e ∧ (p, leaf.2) ∈ n.leaves ∧ leaf.1 = l :: p := by
  induction e with
  | nil => simp [leavesOf]
  | cons first rest ih =>
    obtain ⟨k, c⟩ := first
    rw [leavesOf, List.mem_append, ih, List.mem_map]
    constructor
    · rintro (⟨⟨p, m⟩, hm, rfl⟩ | ⟨l, n, p, hm, hp, hl⟩)
      · exact ⟨k, c, p, List.mem_cons_self, hm, rfl⟩
      · exact ⟨l, n, p, List.mem_cons_of_mem _ hm, hp, hl⟩
    · rintro ⟨l, n, p, hm, hp, hl⟩
      rcases List.mem_cons.1 hm with hm | hm
      · cases hm
        exact .inl ⟨(p, leaf.2), hp, Prod.ext hl.symm rfl⟩
      · exact .inr ⟨l, n, p, hm, hp, hl⟩

/-- What is written of a table is a value that its names lead to. -/
theorem reaches_of_mem_leaves {p : List Label} (hs : Sound n) (hm : (p, m) ∈ n.leaves) :
    (p = [] ∧ n = m ∧ m.isLeaf = true) ∨ ∃ t, n = .table .dotted t ∧ Reaches t (names p) m := by
  induction hs generalizing p with
  | leaf hl =>
    rw [leaves_of_isLeaf hl] at hm
    cases List.mem_singleton.1 hm
    exact .inl ⟨rfl, rfl, hl⟩
  | @table o t hf _ _ _ ih =>
    cases o with
    | dotted =>
      right
      refine ⟨t, rfl, ?_⟩
      obtain ⟨l, c, q, hc, hq, rfl⟩ := mem_leavesOf.1 hm
      have hg := Entries.get?_of_mem hf hc
      rcases ih l c hc hq with ⟨rfl, rfl, hl⟩ | ⟨t', rfl, hr⟩
      · exact .here hg hl
      · exact .dotted hg hr
    | _ => cases hm
  | tables => cases hm

theorem reaches_of_mem_leavesOf {p : List Label} (hs : e.IsSound) (hm : (p, m) ∈ leavesOf e) :
    Reaches e (names p) m := by
  obtain ⟨l, c, q, hc, hq, rfl⟩ := mem_leavesOf.1 hm
  have hg := Entries.get?_of_mem hs.functional hc
  rcases reaches_of_mem_leaves (hs.sound l c hc) hq with ⟨rfl, rfl, hl⟩ | ⟨t', rfl, hr⟩
  · exact .here hg hl
  · exact .dotted hg hr

/-- A table that was only named has no values. -/
theorem not_owns_of_isDefined {p : List String} (hs : Sound n) (hn : n.isDefined = true) : ¬ Owns n p := by
  intro ho
  induction ho with
  | @leaf n hl =>
    cases n with
    | scalar | array | inline => cases hn
    | table | tables => cases hl
  | @inside o t x c p ho hg _ ih =>
    cases hs with
    | leaf hl => cases hl
    | table _ _ hi hs =>
      obtain ⟨l, -, hm⟩ := Entries.mem_of_get? hg
      cases o with
      | implicit => exact ih (hs l c hm) (hi rfl l c hm)
      | dotted => cases hn
      | header => cases ho

/-- Every value that belongs to a table is written with it. -/
theorem mem_leaves_of_owns {p : List String} (hs : Sound n) (ho : Owns n p) :
    p ∈ n.leaves.map fun leaf => names leaf.1 := by
  induction ho with
  | leaf hl =>
    rw [leaves_of_isLeaf hl]
    exact List.mem_singleton.2 rfl
  | @inside o t x c p ho hg hc ih =>
    cases o with
    | implicit => exact absurd (Owns.inside ho hg hc) (not_owns_of_isDefined hs rfl)
    | header => cases ho
    | dotted =>
      obtain ⟨l, rfl, hm⟩ := Entries.mem_of_get? hg
      obtain ⟨leaf, hl, rfl⟩ := List.mem_map.1 (ih (sound_of_get? hs hg))
      exact List.mem_map.2 ⟨(l :: leaf.1, leaf.2), mem_leavesOf.2 ⟨l, c, leaf.1, hm, hl, rfl⟩, rfl⟩

theorem mem_leavesOf_of_owns {p : List String} (hs : e.IsSound) (hg : e.get? x = some n) (ho : Owns n p) :
    x :: p ∈ (leavesOf e).map fun leaf => names leaf.1 := by
  obtain ⟨l, rfl, hm⟩ := Entries.mem_of_get? hg
  obtain ⟨leaf, hl, rfl⟩ := List.mem_map.1 (mem_leaves_of_owns (hs.get? hg) ho)
  exact List.mem_map.2 ⟨(l :: leaf.1, leaf.2), mem_leavesOf.2 ⟨l, n, leaf.1, hm, hl, rfl⟩, rfl⟩

theorem nodup_leavesOf_of (hf : e.IsFunctional)
    (hn : ∀ l n, (l, n) ∈ e → (n.leaves.map fun leaf => names leaf.1).Nodup) :
    ((leavesOf e).map fun leaf => names leaf.1).Nodup := by
  induction e with
  | nil => exact List.nodup_nil
  | cons first rest ih =>
    obtain ⟨k, c⟩ := first
    obtain ⟨hk, hr⟩ := List.nodup_cons.1 hf
    rw [leavesOf, List.map_append, List.map_map]
    have hc := hn k c List.mem_cons_self
    refine List.nodup_append.2 ⟨?_, ih hr fun l n hm => hn l n (List.mem_cons_of_mem _ hm), ?_⟩
    · have hmap : c.leaves.map ((fun leaf => names leaf.1) ∘ fun leaf => (k :: leaf.1, leaf.2)) =
          (c.leaves.map fun leaf => names leaf.1).map (k.name :: ·) := by
        rw [List.map_map]
        rfl
      rw [hmap]
      exact List.Nodup.map (fun _ _ h => List.tail_eq_of_cons_eq h) hc
    · intro a ha b hb hab
      obtain ⟨leaf, -, rfl⟩ := List.mem_map.1 ha
      obtain ⟨leaf', hl', rfl⟩ := List.mem_map.1 hb
      obtain ⟨l, n, p, hm, -, hp⟩ := mem_leavesOf.1 hl'
      simp only [hp, names, Function.comp_apply, List.map_cons, List.cons.injEq] at hab
      exact hk (List.mem_map.2 ⟨(l, n), hm, hab.1.symm⟩)

theorem nodup_leaves (hs : Sound n) : (n.leaves.map fun leaf => names leaf.1).Nodup := by
  induction hs with
  | leaf hl =>
    rw [leaves_of_isLeaf hl]
    exact List.pairwise_singleton _ _
  | @table o t hf _ _ _ ih =>
    cases o with
    | dotted => exact nodup_leavesOf_of hf ih
    | _ => exact List.nodup_nil
  | tables => exact List.nodup_nil

theorem nodup_leavesOf (hs : e.IsSound) : ((leavesOf e).map fun leaf => names leaf.1).Nodup :=
  nodup_leavesOf_of hs.functional fun l n hm => nodup_leaves (hs.sound l n hm)

/-- The labels that lead to a section: of repeated tables any one may be on the way. -/
inductive Route (h : Header) (repeated : Bool) (content : Entries) : Entries → List Label → Prop
  | table {e : Entries} {l : Label} : (l, .table (.header h) content) ∈ e → repeated = false →
    Route h repeated content e [l]
  | row {e : Entries} {l : Label} {rows : List (Header × Entries)} : (l, .tables rows) ∈ e → (h, content) ∈ rows →
    repeated = true → Route h repeated content e [l]
  | inside {e t : Entries} {l : Label} {o : Origin} {path : List Label} : (l, .table o t) ∈ e →
    Route h repeated content t path → Route h repeated content e (l :: path)
  | insideRow {e t : Entries} {l : Label} {rows : List (Header × Entries)} {k : Header} {path : List Label} :
    (l, .tables rows) ∈ e → (k, t) ∈ rows → Route h repeated content t path → Route h repeated content e (l :: path)

/-- The names of such labels lead there too. -/
theorem Route.site {h : Header} {repeated : Bool} {content : Entries} {path : List Label}
    (hr : Route h repeated content e path) (he : e.IsSound) : Site h repeated content e (names path) := by
  induction hr with
  | table hm hrep => exact .table (Entries.get?_of_mem he.functional hm) hrep
  | row hm hrow hrep => exact .row (Entries.get?_of_mem he.functional hm) hrow hrep
  | inside hm _ ih => exact .inside (Entries.get?_of_mem he.functional hm) (ih (.of_table (he.sound _ _ hm)))
  | insideRow hm hrow _ ih =>
    exact .insideRow (Entries.get?_of_mem he.functional hm) hrow (ih (.of_row (he.sound _ _ hm) hrow))

/-- A section of a tree is where the labels of its header lead. -/
def Section.IsAt (s : Section) (path : List Label) (e : Entries) : Prop :=
  ∃ p, s.path = path ++ p ∧ Route s.header s.repeated s.entries e p

/-- Each section of entries is where its labels lead. -/
def AllAt (e : Entries) : Prop := ∀ path s, s ∈ sectionsOf path e → s.IsAt path e

/-- The same of the entries of a table, or of each of repeated ones. -/
def Node.AllAt : Node → Prop
  | .table _ t => Toml.AllAt t
  | .tables rows => ∀ h t, (h, t) ∈ rows → Toml.AllAt t
  | _ => True

theorem sectionsOf_eq_flatMap (path : List Label) (e : Entries) :
    sectionsOf path e = e.flatMap fun entry => entry.2.sections (path ++ [entry.1]) := by
  induction e with
  | nil => rfl
  | cons entry rest ih => rw [sectionsOf, List.flatMap_cons, ih]

theorem rowSections_eq_flatMap (path : List Label) (rows : List (Header × Entries)) :
    rowSections path rows = rows.flatMap fun r => ⟨r.1, true, path, r.2⟩ :: sectionsOf path r.2 := by
  induction rows with
  | nil => rfl
  | cons r rows ih => rw [rowSections, List.flatMap_cons, ih]

theorem mem_sectionsOf {s : Section} {path : List Label} :
    s ∈ sectionsOf path e ↔ ∃ l n, (l, n) ∈ e ∧ s ∈ n.sections (path ++ [l]) := by
  rw [sectionsOf_eq_flatMap, List.mem_flatMap, Prod.exists]

theorem mem_rowSections {s : Section} {path : List Label} {rows : List (Header × Entries)} :
    s ∈ rowSections path rows ↔
      ∃ h t, (h, t) ∈ rows ∧ (s = ⟨h, true, path, t⟩ ∨ s ∈ sectionsOf path t) := by
  rw [rowSections_eq_flatMap, List.mem_flatMap, Prod.exists]
  simp only [List.mem_cons]

theorem isAt_of_mem_sections (hn : n.AllAt) {l : Label} {path : List Label} {s : Section}
    (hg : (l, n) ∈ e) (hm : s ∈ n.sections (path ++ [l])) : s.IsAt path e := by
  cases n with
  | scalar | array | inline => cases hm
  | table o t =>
    have inside (h : s ∈ sectionsOf (path ++ [l]) t) : s.IsAt path e := by
      obtain ⟨p, hp, hs⟩ := hn _ _ h
      exact ⟨l :: p, by rw [hp, List.append_assoc]; rfl, .inside hg hs⟩
    cases o with
    | header h =>
      rcases List.mem_cons.1 hm with rfl | hm
      · exact ⟨[l], rfl, .table hg rfl⟩
      · exact inside hm
    | _ => exact inside hm
  | tables rows =>
    obtain ⟨h, t, hr, rfl | hs⟩ := mem_rowSections.1 hm
    · exact ⟨[l], rfl, .row hg hr rfl⟩
    · obtain ⟨p, hp, hs⟩ := hn h t hr _ _ hs
      exact ⟨l :: p, by rw [hp, List.append_assoc]; rfl, .insideRow hg hr hs⟩

theorem allAt_of_forall (h : ∀ l n, (l, n) ∈ e → n.AllAt) : AllAt e := by
  intro path s hs
  obtain ⟨l, n, hm, hs⟩ := mem_sectionsOf.1 hs
  exact isAt_of_mem_sections (h l n hm) hm hs

theorem Sound.allAt (hs : Sound n) : n.AllAt := by
  induction hs with
  | @leaf n hl =>
    cases n with
    | scalar | array | inline => trivial
    | table | tables => cases hl
  | table _ _ _ _ ih => exact allAt_of_forall ih
  | tables _ _ _ _ ih => exact fun h t hr => ih h t hr

theorem Entries.IsSound.allAt (hs : e.IsSound) : AllAt e :=
  allAt_of_forall fun l n hm => (hs.sound l n hm).allAt

mutual
theorem places_sections (path : List Label) : ∀ n : Node, (n.sections path).map (·.header.place) = n.places
  | .scalar .. | .array .. | .inline .. => rfl
  | .table (.header h) t => by
    rw [Node.sections, Node.places, List.map_cons, places_sectionsOf path t]
  | .table .implicit t => places_sectionsOf path t
  | .table .dotted t => places_sectionsOf path t
  | .tables rows => places_rowSections path rows

theorem places_sectionsOf (path : List Label) : ∀ e : Entries,
    (sectionsOf path e).map (·.header.place) = placesOf e
  | [] => rfl
  | (l, n) :: rest => by
    rw [sectionsOf, placesOf, List.map_append, places_sections _ n, places_sectionsOf path rest]

theorem places_rowSections (path : List Label) : ∀ rows : List (Header × Entries),
    (rowSections path rows).map (·.header.place) = placesOfRows rows
  | [] => rfl
  | (h, t) :: rest => by
    rw [rowSections, placesOfRows, List.map_append, List.map_cons, places_sectionsOf path t,
      places_rowSections path rest]
end

end SqlLint.Toml
