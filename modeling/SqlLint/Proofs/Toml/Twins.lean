import SqlLint.Proofs.Toml.Neatness

/-! # Trees that are written alike

A tree that is written and read again differs from the one it was in what is not written: what stands in
front of the first name of a key, and what is around a name that is not the last one. All else is the same,
at each stage of the reading: names that lead to values follow one another as they did. -/
namespace SqlLint.Toml
open Document.Draft (atLast)

/-- Which table it is that names stand in: the root, one with a header, one of repeated tables, or one of
dotted keys. -/
inductive Level
  | root
  | table
  | row
  | dotted
  deriving DecidableEq

def Origin.level : Origin → Level
  | .dotted => .dotted
  | _ => .table

/-- What is known of the blanks in front of a name that is read again. A name that leads to a value is the
first one of a key in a table with a header; it is only spelled with blanks where a header comes before. -/
def Level.Keeps (level : Level) (k l : Label) (m : Node) : Prop :=
  match level with
  | .root => True
  | .table => m.places ≠ [] → k.before = l.before
  | .row => (m.leaves = [] → k.before = l.before) ∧ (m.leaves ≠ [] → k.before = [])
  | .dotted => k.before = l.before

/-- A name with its node is written as another one is. -/
structure Resembles (level : Level) (k : Label) (n : Node) (l : Label) (m : Node) : Prop where
  text : k.text = l.text
  before : level.Keeps k l m
  after : m.isLeaf = false → k.after = l.after
  value : m.isLeaf = true → k.around.getD ([], [' ']) = l.around.getD ([], [' ']) ∧ n.text = m.text
  headers : n.headers <+: m.headers
  around : n.headers ≠ [] → k.around.getD ([], []) = l.around.getD ([], [])

/-- The names that lead to values, in their order. -/
def bearers (e : Entries) : List String := (e.filter fun entry => !entry.2.leaves.isEmpty).map fun entry => entry.1.name

/-- Entries at a stage of their reading and all of them, as they were written. -/
inductive Twins : Level → Entries → Entries → Prop
  | intro {level : Level} {t e : Entries} :
    (∀ k n l m, (k, n) ∈ t → (l, m) ∈ e → k.name = l.name → Resembles level k n l m) →
    (t.map fun entry => entry.1.name).Pairwise (fun x y => ¬ [y, x].Sublist (bearers e)) →
    (∀ k o s l o' s', (k, .table o s) ∈ t → (l, .table o' s') ∈ e → k.name = l.name → Twins o'.level s s') →
    (∀ k rows l rows' (i : Nat) h s h' s', (k, .tables rows) ∈ t → (l, .tables rows') ∈ e → k.name = l.name →
      rows[i]? = some (h, s) → rows'[i]? = some (h', s') → Twins .row s s') → Twins level t e

/-- A name and what is under it, with what they were. -/
structure Twin (level : Level) (k : Label) (n : Node) (l : Label) (m : Node) : Prop extends Resembles level k n l m where
  table : ∀ o s o' s', n = .table o s → m = .table o' s' → Twins o'.level s s'
  rows : ∀ rows rows' (i : Nat) h s h' s', n = .tables rows → m = .tables rows' → rows[i]? = some (h, s) →
    rows'[i]? = some (h', s') → Twins .row s s'

variable {level : Level} {t u e s : Entries} {k l : Label} {n m : Node} {x y : String}

theorem twins_iff : Twins level t e ↔ (∀ k n l m, (k, n) ∈ t → (l, m) ∈ e → k.name = l.name → Twin level k n l m) ∧
    (t.map fun entry => entry.1.name).Pairwise (fun x y => ¬ [y, x].Sublist (bearers e)) := by
  constructor
  · rintro ⟨hres, horder, htable, hrows⟩
    refine ⟨fun k n l m hn hm hname => { hres k n l m hn hm hname with table := ?_, rows := ?_ }, horder⟩
    · rintro o s o' s' rfl rfl
      exact htable k o s l o' s' hn hm hname
    · rintro rows rows' i h s h' s' rfl rfl hi hi'
      exact hrows k rows l rows' i h s h' s' hn hm hname hi hi'
  · rintro ⟨heach, horder⟩
    exact .intro (fun k n l m hn hm hname => (heach k n l m hn hm hname).toResembles) horder
      (fun k o s l o' s' hn hm hname => (heach k _ l _ hn hm hname).table o s o' s' rfl rfl)
      fun k rows l rows' i h s h' s' hn hm hname hi hi' =>
        (heach k _ l _ hn hm hname).rows rows rows' i h s h' s' rfl rfl hi hi'

theorem Twins.each (h : Twins level t e) (hn : (k, n) ∈ t) (hm : (l, m) ∈ e) (hname : k.name = l.name) :
    Twin level k n l m := (twins_iff.1 h).1 k n l m hn hm hname

theorem Twins.nil (level : Level) (e : Entries) : Twins level [] e :=
  twins_iff.2 ⟨fun _ _ _ _ h => (by cases h), .nil⟩

theorem eq_of_name {l' : Label} {m' : Node} (hf : e.IsFunctional) (hm : (l, m) ∈ e) (hm' : (l', m') ∈ e)
    (h : l.name = l'.name) : l' = l ∧ m' = m := by
  have hinj := List.inj_on_of_nodup_map hf hm hm' h
  exact ⟨(Prod.mk.inj hinj).1.symm, (Prod.mk.inj hinj).2.symm⟩

/-! ## Changes under one name -/

/-- A name that is new comes behind those that are there. -/
theorem Twins.set_of_none (h : Twins level t e) (hf : e.IsFunctional) (hx : t.get? k.name = none) (hm : (l, m) ∈ e)
    (hk : k.name = l.name) (hn : Twin level k n l m)
    (horder : ∀ y ∈ t.map fun entry => entry.1.name, ¬ [k.name, y].Sublist (bearers e)) : Twins level (t.set k n) e := by
  obtain ⟨heach, hpairs⟩ := twins_iff.1 h
  refine twins_iff.2 ⟨fun k' n' l' m' hk' => ?_, ?_⟩
  · exact Entries.forall_set (l := k) (n := n)
      (Q := fun k' n' => ∀ l' m', (l', m') ∈ e → k'.name = l'.name → Twin level k' n' l' m')
      (fun k' n' hk' l' m' => heach k' n' l' m' hk') (fun _ l' m' hm' hname => by
        obtain ⟨rfl, rfl⟩ := eq_of_name hf hm hm' (hk.symm.trans hname)
        exact hn) (fun k' n' _ hx' => by rw [hx] at hx'; cases hx') k' n' hk' l' m'
  · rw [Entries.names_set, hx, if_neg (by simp)]
    exact pairwise_concat hpairs horder

/-- A name that is there keeps its label. -/
theorem Twins.set_of_some {n₀ : Node} (h : Twins level t e) (hf : e.IsFunctional) (hx : t.get? k.name = some n₀)
    (hm : (l, m) ∈ e) (hk : k.name = l.name) (hn : ∀ k', Twin level k' n₀ l m → Twin level k' n l m) :
    Twins level (t.set k n) e := by
  obtain ⟨heach, hpairs⟩ := twins_iff.1 h
  refine twins_iff.2 ⟨fun k' n' l' m' hk' => ?_, ?_⟩
  · exact Entries.forall_set (l := k) (n := n)
      (Q := fun k' n' => ∀ l' m', (l', m') ∈ e → k'.name = l'.name → Twin level k' n' l' m')
      (fun k' n' hk' l' m' => heach k' n' l' m' hk') (fun hx' => by rw [hx] at hx'; cases hx')
      (fun k' n' hk' hx' hname l' m' hm' hname' => by
        obtain ⟨rfl, rfl⟩ := eq_of_name hf hm hm' (hk.symm.trans (hname.symm.trans hname'))
        cases hx.symm.trans hx'
        exact hn k' (heach k' n₀ l' m' hk' hm' hname')) k' n' hk' l' m'
  · rw [Entries.names_set, hx, Option.isSome_some, if_pos rfl]
    exact hpairs

theorem not_sublist_of_leaves (hf : e.IsFunctional) (hm : (l, m) ∈ e) (hb : m.leaves = []) (y : String) :
    ¬ [l.name, y].Sublist (bearers e) := by
  intro hsub
  obtain ⟨⟨l', m'⟩, hm', hname⟩ := List.mem_map.1 (hsub.subset List.mem_cons_self)
  obtain ⟨hmem, hne⟩ := List.mem_filter.1 hm'
  obtain ⟨rfl, rfl⟩ := eq_of_name hf hm hmem hname.symm
  rw [hb] at hne
  cases hne

/-- A table that gets a header stands last, and no value is written in it where it stood. -/
theorem Twins.reopen (h : Twins level t e) (hf : e.IsFunctional) (hm : (l, m) ∈ e) (hk : k.name = l.name)
    (hb : m.leaves = []) (hn : Twin level k n l m) : Twins level (t.remove k.name ++ [(k, n)]) e := by
  obtain ⟨heach, hpairs⟩ := twins_iff.1 h
  refine twins_iff.2 ⟨fun k' n' l' m' hk' hm' hname => ?_, ?_⟩
  · rcases List.mem_append.1 hk' with hk' | hk'
    · exact heach k' n' l' m' (List.mem_filter.1 hk').1 hm' hname
    · obtain ⟨rfl, rfl⟩ := Prod.mk.inj (List.mem_singleton.1 hk')
      obtain ⟨rfl, rfl⟩ := eq_of_name hf hm hm' (hk.symm.trans hname)
      exact hn
  · rw [List.map_append]
    refine pairwise_concat (hpairs.sublist (List.filter_sublist.map _)) fun y _ => ?_
    have hlast : ¬ [k.name, y].Sublist (bearers e) := hk ▸ not_sublist_of_leaves hf hm hb y
    exact hlast

/-! ## What is there -/

section Order

variable {early : Nat → Prop} {here : List String → Prop} {i q : Nat} {p : List String}

theorem headers_of_leaves (h : n.leaves ≠ []) : n.headers = [] := by
  cases n with
  | table o t =>
    cases o with
    | header => exact absurd rfl h
    | _ => rfl
  | tables => exact absurd rfl h
  | _ => rfl

theorem Reaches.owns (h : Reaches t p m) : Owns (.table .dotted t) p := by
  induction h with
  | here hg hl => exact .inside rfl hg (.leaf hl)
  | dotted hg _ ih => exact .inside rfl hg ih

theorem owns_of_mem_leaves {p : List Label} (hs : Sound n) (h : (p, m) ∈ n.leaves) : Owns n (names p) := by
  rcases reaches_of_mem_leaves hs h with ⟨rfl, rfl, hl⟩ | ⟨t, rfl, hr⟩
  · exact .leaf hl
  · exact hr.owns

theorem Owns.present {done : Nat → Prop} (h : Owns m p) (hp : here p) : Present done here m := by
  induction h generalizing here with
  | leaf hl => exact .leaf hl hp
  | inside ho hg _ ih => exact .inside ho hg (ih hp)

/-- A header that comes before a stage has left its table there, and all tables on the way. -/
theorem present_of_place (hs : Sound m) (hq : q ∈ m.places) (hlt : q < i) : Present (· < i) here m := by
  induction hs generalizing here with
  | leaf hl =>
    rw [places_of_isLeaf hl] at hq
    cases hq
  | @table o t hf _ _ _ ih =>
    have inside (hq : q ∈ placesOf t) (here : List String → Prop) : ∃ x c, t.get? x = some c ∧
        Present (· < i) here c := by
      obtain ⟨l, c, hm, hq⟩ := mem_placesOf.1 hq
      exact ⟨l.name, c, Entries.get?_of_mem hf hm, ih l c hm hq⟩
    cases o with
    | header h =>
      rcases List.mem_cons.1 hq with rfl | hq
      · exact .header hlt
      · obtain ⟨x, c, hg, hc⟩ := inside hq fun _ => False
        exact .under hg hc
    | _ =>
      obtain ⟨l, c, hm, hq⟩ := mem_placesOf.1 hq
      exact .inside rfl (Entries.get?_of_mem hf hm) (ih l c hm hq)
  | @tables rows _ hin _ _ _ =>
    obtain ⟨h, t, hm, hq⟩ := mem_placesOfRows.1 hq
    refine .row hm ?_
    rcases List.mem_cons.1 hq with rfl | hq
    · exact hlt
    · exact (hin h t hm q hq).trans hlt

/-- The values that are here are the first ones. -/
def Orderly (here : List String → Prop) (e : Entries) : Prop :=
  (leavesOf e).Pairwise fun a b => here (names b.1) → here (names a.1)

theorem leavesOf_eq_flatMap (e : Entries) :
    leavesOf e = e.flatMap fun entry => entry.2.leaves.map fun leaf => (entry.1 :: leaf.1, leaf.2) := by
  induction e with
  | nil => rfl
  | cons entry rest ih => rw [leavesOf, List.flatMap_cons, ih]

theorem orderly_iff : Orderly here e ↔ (∀ l n, (l, n) ∈ e → n.leaves.Pairwise fun a b =>
      here (l.name :: names b.1) → here (l.name :: names a.1)) ∧
    e.Pairwise fun a b => ∀ p ∈ a.2.leaves, ∀ r ∈ b.2.leaves,
      here (b.1.name :: names r.1) → here (a.1.name :: names p.1) := by
  rw [Orderly, leavesOf_eq_flatMap, List.pairwise_flatMap]
  refine and_congr ⟨fun h l n hm => ?_, fun h entry hm => ?_⟩ ⟨fun h => ?_, fun h => ?_⟩
  · exact List.pairwise_map.1 (h (l, n) hm)
  · exact List.pairwise_map.2 (h entry.1 entry.2 hm)
  · refine h.imp fun hab p hp r hr => ?_
    exact hab _ (List.mem_map_of_mem hp) _ (List.mem_map_of_mem hr)
  · refine h.imp fun hab x hx y hy => ?_
    obtain ⟨p, hp, rfl⟩ := List.mem_map.1 hx
    obtain ⟨r, hr, rfl⟩ := List.mem_map.1 hy
    exact hab p hp r hr

/-- Headers that have been read come early, or all values of the table have been read. -/
def InTime (early : Nat → Prop) (here : List String → Prop) (i : Nat) (e : Entries) : Prop :=
  (∀ q ∈ placesOf e, q < i → early q) ∨ ∀ p, here p

/-- A name that is not there yet has no later one that is there, of those that lead to values. -/
theorem not_sublist_of_absent (hs : e.IsSound) (ho : InOrder early e) (hc : Orderly here e) (ht : InTime early here i e)
    (hp : Parts (· < i) here t e) (hx : t.get? x = none) (hy : y ∈ t.map fun entry => entry.1.name) :
    ¬ [x, y].Sublist (bearers e) := by
  intro hsub
  obtain ⟨pair, hpair, hnames⟩ := List.sublist_map_iff.1 hsub
  obtain ⟨a, b, rfl, rfl, rfl⟩ : ∃ a b, pair = [a, b] ∧ x = a.1.name ∧ y = b.1.name := by
    match pair, hnames with
    | [a, b], h =>
      obtain ⟨hx, hy⟩ := List.cons_eq_cons.1 h
      exact ⟨a, b, rfl, hx, (List.cons_eq_cons.1 hy).1⟩
  have hab := hpair.trans List.filter_sublist
  have ha : (a.1, a.2) ∈ e := hab.subset List.mem_cons_self
  have hb : (b.1, b.2) ∈ e := hab.subset (by simp)
  have hbears {c : Label × Node} (hc : c ∈ [a, b]) : c.2.leaves ≠ [] := by
    have := (List.mem_filter.1 (hpair.subset hc)).2
    simpa using this
  have hga := Entries.get?_of_mem hs.functional ha
  have hgb := Entries.get?_of_mem hs.functional hb
  have habs := hp.absent hx hga
  obtain ⟨⟨p, c⟩, hpa⟩ := List.exists_mem_of_ne_nil _ (hbears List.mem_cons_self)
  have howns := owns_of_mem_leaves (hs.sound _ _ ha) hpa
  have hpresent : Present (· < i) (fun p => here (b.1.name :: p)) b.2 := by
    obtain ⟨c, hc, hpr⟩ := (hp.all b.1.name).1 (by
      rw [← Option.ne_none_iff_isSome]
      exact fun hnone => Entries.get?_eq_none_iff.1 hnone hy)
    cases hgb.symm.trans hc
    exact hpr
  rcases ht with ht | ht
  · rcases hpresent.exists with ⟨r, hown, hr⟩ | ⟨q, hq, hlt⟩
    · obtain ⟨leaf, hleaf, rfl⟩ := List.mem_map.1 (mem_leaves_of_owns (hs.sound _ _ hb) hown)
      have hcross := List.pairwise_iff_forall_sublist.1 (orderly_iff.1 hc).2 hab
      exact habs (howns.present (hcross _ hpa _ hleaf hr))
    · have hpairs := List.pairwise_iff_forall_sublist.1 ho hab
      obtain ⟨q', hq', hlt'⟩ := hpairs (headers_of_leaves (hbears List.mem_cons_self)) (headers_of_leaves (hbears (by simp)))
        q hq (ht q (mem_placesOf_of_get? hgb hq) hlt)
      exact habs (present_of_place (hs.sound _ _ ha) hq' (hlt'.trans hlt))
  · exact habs (howns.present (ht _))

end Order

/-! ## Values -/

/-- A name that is read again: what stands in front of the first one is not part of its label. -/
structure Label.Recalls (first : Bool) (k l : Label) : Prop where
  name : k.name = l.name
  text : k.text = l.text
  before : k.before = if first then [] else l.before

/-- Labels of a key that is read again, with those it was written from. -/
inductive Recalls (usual : List Char × List Char) : Bool → List Label → List Label → Prop
  | last {first : Bool} {k l : Label} : k.Recalls first l → k.after = [] → k.around.getD usual = l.around.getD usual →
    Recalls usual first [k] [l]
  | cons {first : Bool} {k l : Label} {ks ls : List Label} : k.Recalls first l → k.after = l.after →
    Recalls usual false ks ls → Recalls usual first (k :: ks) (l :: ls)

section Put

variable {early : Nat → Prop} {here : List String → Prop} {i : Nat} {first : Bool} {path labels : List Label}

theorem Recalls.ne_nil {usual : List Char × List Char} (h : Recalls usual first labels path) :
    ∃ k ks l ls, labels = k :: ks ∧ path = l :: ls := by
  cases h with
  | last => exact ⟨_, _, _, _, rfl, rfl⟩
  | cons => exact ⟨_, _, _, _, rfl, rfl⟩

theorem Recalls.names {usual : List Char × List Char} (h : Recalls usual first labels path) : names labels = names path := by
  induction h with
  | last hk => exact congrArg (fun x => [x]) hk.name
  | cons hk _ _ ih => exact congrArg₂ List.cons hk.name ih

/-- The first name of a value is known where it leads to headers, if no header has named it before. -/
theorem Label.Recalls.keeps_value (hk : k.Recalls first l) (hfirst : first = true ↔ level ≠ .dotted) (hm : m.leaves ≠ [])
    (hlead : level = .table → m.places ≠ [] → l.before = []) : level.Keeps k l m := by
  have hb := hk.before
  cases level with
  | root => trivial
  | dotted =>
    have hf : first = false := Bool.eq_false_iff.2 fun h => hfirst.1 h rfl
    rwa [hf, if_neg Bool.false_ne_true] at hb
  | table =>
    intro hp
    rw [hfirst.2 (by decide), if_pos rfl] at hb
    rw [hb, hlead rfl hp]
  | row =>
    rw [hfirst.2 (by decide), if_pos rfl] at hb
    exact ⟨fun h => absurd h hm, fun _ => hb⟩

/-- A value is like another one with the same text. -/
theorem twin_of_leaf (htext : k.text = l.text) (hb : level.Keeps k l m)
    (haround : k.around.getD ([], [' ']) = l.around.getD ([], [' '])) (hn : n.isLeaf = true) (hm : m.isLeaf = true)
    (hvalue : n.text = m.text) : Twin level k n l m where
  text := htext
  before := hb
  after h := by rw [hm] at h; cases h
  value _ := ⟨haround, hvalue⟩
  headers := by rw [headers_of_isLeaf hn]; exact List.nil_prefix
  around h := absurd (headers_of_isLeaf hn) h
  table := by
    rintro _ _ _ _ rfl
    cases hn
  rows := by
    rintro _ _ _ _ _ _ _ rfl
    cases hn

/-- A node that is no leaf and has no header is like another one as far as their tables are alike. -/
theorem twin_of_table {o o' : Origin} (htext : k.text = l.text) (hb : level.Keeps k l (.table o' s))
    (hafter : k.after = l.after) (ho : o.header? = none) (ht : Twins o'.level t s) :
    Twin level k (.table o t) l (.table o' s) where
  text := htext
  before := hb
  after _ := hafter
  value h := by cases h
  headers := by
    cases o with
    | header h => cases ho
    | _ => exact List.nil_prefix
  around h := by
    cases o with
    | header h => cases ho
    | _ => exact absurd rfl h
  table := by
    rintro _ _ _ _ ⟨⟩ ⟨⟩
    exact ht
  rows := by
    rintro _ _ _ _ _ _ _ ⟨⟩

/-- One more value leads to a tree like the one it was. -/
theorem put_twins (hr : Recalls ([], [' ']) first labels path) (hm : (path, m) ∈ leavesOf e) (hs : e.IsSound)
    (hneat : Neat early e) (hfirst : first = true ↔ level ≠ .dotted)
    (hleads : level = .table → ∀ l s, (l, .table .dotted s) ∈ e → l.before = [] ∨ ∃ q ∈ placesOf s, q < i)
    (hearly : ∀ q ∈ placesOf e, q < i → early q) (hc : Orderly here e) (hp : Parts (· < i) here t e)
    (ht : Twins level t e) (hn : n.isLeaf = true) (htext : n.text = m.text) (hu : t.put n labels = some u) :
    Twins level u e := by
  induction hr generalizing e t u level here early with
  | @last first k l hk hafter haround =>
    obtain ⟨hx, rfl⟩ := Entries.put_last hu
    obtain ⟨l', c, q, hmem, hq, heq⟩ := mem_leavesOf.1 hm
    obtain ⟨rfl, rfl⟩ := List.cons_eq_cons.1 heq
    obtain ⟨rfl, hleaf⟩ : c = m ∧ m.isLeaf = true := by
      rcases reaches_of_mem_leaves (hs.sound _ _ hmem) hq with ⟨-, rfl, hleaf⟩ | ⟨s, -, hreach⟩
      · exact ⟨rfl, hleaf⟩
      · cases hreach
    have hplaces := places_of_isLeaf hleaf
    refine ht.set_of_none hs.functional hx hmem hk.name ?_ fun y hy => hk.name ▸ ?_
    · have hb : level.Keeps k l c := hk.keeps_value hfirst (by simp [leaves_of_isLeaf hleaf]) fun _ h => absurd hplaces h
      exact twin_of_leaf hk.text hb haround hn hleaf htext
    · exact not_sublist_of_absent hs hneat.inOrder hc (.inl hearly) hp (hk.name ▸ hx) hy
  | @cons first k l ks ls hk hafter hr ih =>
    obtain ⟨k', ks', l₁, ls', rfl, rfl⟩ := hr.ne_nil
    obtain ⟨l', c, q, hmem, hq, heq⟩ := mem_leavesOf.1 hm
    obtain ⟨rfl, rfl⟩ := List.cons_eq_cons.1 heq
    obtain ⟨s, rfl⟩ : ∃ s : Entries, c = .table .dotted s := by
      rcases reaches_of_mem_leaves (hs.sound _ _ hmem) hq with ⟨h, -⟩ | ⟨s, rfl, -⟩
      · cases h
      · exact ⟨s, rfl⟩
    have hq : (l₁ :: ls', m) ∈ leavesOf s := hq
    have hg := Entries.get?_of_mem hs.functional hmem
    have hss : Entries.IsSound s := .of_table (hs.sound _ _ hmem)
    have hbears : (Node.table .dotted s).leaves ≠ [] := List.ne_nil_of_mem hq
    have hci : Orderly (fun p => here (l.name :: p)) s := (orderly_iff.1 hc).1 l _ hmem
    have hinner {a a' : Entries} (hpa : Parts (· < i) (fun p => here (l.name :: p)) a s) (hta : Twins .dotted a s)
        (ha : a.put n (k' :: ks') = some a') : Twins .dotted a' s :=
      ih hq hss ((hneat.node hg).table _ s rfl) (by simp) (fun h => by cases h)
        (fun q hq => hearly q (mem_placesOf_of_get? hg hq)) hci hpa hta ha
    cases Entries.put_cons hu with
    | @new a hx ha =>
      have habs := hp.absent (hk.name ▸ hx) hg
      have hpa : Parts (· < i) (fun p => here (l.name :: p)) [] s :=
        parts_nil fun y c hc hpr => habs (.inside rfl hc hpr)
      refine ht.set_of_none hs.functional hx hmem hk.name ?_ fun y hy => hk.name ▸ ?_
      · refine twin_of_table hk.text (hk.keeps_value hfirst hbears fun htable _ => ?_) hafter rfl
          (hinner hpa (.nil _ _) ha)
        rcases hleads htable l s hmem with hb | ⟨q, hq, hlt⟩
        · exact hb
        · exact absurd (present_of_place (hs.sound _ _ hmem) hq hlt) habs
      · exact not_sublist_of_absent hs hneat.inOrder hc (.inl hearly) hp (hk.name ▸ hx) hy
    | @table o a a' ho hx ha =>
      obtain ⟨hpart, -⟩ := hp.child (hk.name ▸ hx) hg
      obtain ⟨there, hst, hpa⟩ := part_table_iff.1 hpart
      refine ht.set_of_some hs.functional hx hmem hk.name fun k₀ htwin => ?_
      refine twin_of_table htwin.text htwin.before (htwin.after rfl) rfl (hinner ?_ (htwin.table _ _ _ _ rfl rfl) ha)
      cases hst with
      | named => exact hpa
    | @row init k₀ a a' hx ha =>
      obtain ⟨hpart, -⟩ := hp.child (hk.name ▸ hx) hg
      cases hpart with
      | leaf h => cases h

end Put

/-! ## Headers -/

section Enter

variable {h : Header} {repeated : Bool} {content : Entries} {g : Entries → Option Entries} {done : Nat → Prop}
  {here : List String → Prop} {o : Origin} {a : Entries} {i : Nat}

/-- The values that are here of a table, which those of a table with a header are once that is done. -/
def Origin.reach (done : Nat → Prop) (here : List String → Prop) : Origin → List String → Prop
  | .header h => fun _ => done h.place
  | _ => here

theorem Stands.reach_eq {o' : Origin} {there : List String → Prop} (h : Stands done here o o' there) :
    there = o'.reach done here := by
  cases h with
  | named _ ho' =>
    cases o' with
    | header => cases ho'
    | _ => rfl
  | opened hd =>
    funext p
    exact (eq_true hd).symm
  | closed hd =>
    funext p
    exact (eq_false hd).symm

/-- What is there of a table, or nothing of it, is a stage of it. -/
theorem Parts.descend (hp : Parts done here t e) (hg : e.get? x = some (.table o s))
    (ha : t.get? x = none ∧ a = [] ∨ ∃ o', t.get? x = some (.table o' a)) :
    Parts done (o.reach done fun p => here (x :: p)) a s := by
  rcases ha with ⟨hx, rfl⟩ | ⟨o', hx⟩
  · have habs := hp.absent hx hg
    cases o with
    | header h =>
      have hnot : ¬ done h.place := fun hd => habs (.header hd)
      have hreach : (Origin.header h).reach done (fun p => here (x :: p)) = fun _ => False :=
        funext fun _ => eq_false hnot
      rw [hreach]
      exact parts_nil fun y c hc hpr => habs (.under hc hpr)
    | _ => exact parts_nil fun y c hc hpr => habs (.inside rfl hc hpr)
  · obtain ⟨there, hst, hpa⟩ := part_table_iff.1 (hp.child hx hg).1
    rwa [← hst.reach_eq]

theorem orderly_const (P : Prop) (e : Entries) : Orderly (fun _ => P) e :=
  List.pairwise_of_forall_mem_list fun _ _ _ _ h => h

theorem Orderly.reach (hc : Orderly here e) (hm : (l, .table o s) ∈ e) (hi : o = .implicit → AllDefined s) (hs : s.IsSound) :
    Orderly (o.reach done fun p => here (l.name :: p)) s := by
  cases o with
  | header h => exact orderly_const _ _
  | dotted => exact (orderly_iff.1 hc).1 l _ hm
  | implicit =>
    have hnone : leavesOf s = [] := List.eq_nil_iff_forall_not_mem.2 fun leaf hl => by
      obtain ⟨k, c, p, hk, hp, -⟩ := mem_leavesOf.1 hl
      exact not_owns_of_isDefined (hs.sound k c hk) (hi rfl k c hk) (owns_of_mem_leaves (hs.sound k c hk) hp)
    rw [Orderly, hnone]
    exact .nil

/-- In a table that a header leads through, headers have come early, or all values are there. -/
theorem InTime.reach {early : Nat → Prop} {i : Nat} (ht : InTime early here i e) (hm : (l, .table o s) ∈ e) :
    InTime (o.early early) (o.reach (· < i) fun p => here (l.name :: p)) i s := by
  cases o with
  | implicit => exact .inl fun _ _ _ => trivial
  | dotted => exact ht.imp (fun h q hq => h q (mem_placesOf.2 ⟨l, _, hm, hq⟩)) fun h p => h _
  | header h =>
    rcases Nat.lt_or_ge h.place i with hlt | hle
    · exact .inr fun _ => hlt
    · exact .inl fun q _ hq => hq.trans_le hle

theorem set_append_of_none {e' : Entries} (hx : e.get? l.name = none) : Entries.set l n (e ++ e') = e ++ Entries.set l n e' := by
  induction e with
  | nil => rfl
  | cons first rest ih =>
    obtain ⟨k, c⟩ := first
    rw [Entries.get?] at hx
    split at hx
    · cases hx
    · next hne => rw [List.cons_append, Entries.set, if_neg hne, ih hx, List.cons_append]

/-- A table that is opened and filled is a new one, or it takes the place of one that was only named. -/
theorem enter_false_cases (hu : enter h false g l t = some u) :
    (t.get? l.name = none ∧ ∃ a', g [] = some a' ∧ u = t.set l (.table (.header h) a')) ∨
      ∃ a a', t.get? l.name = some (.table .implicit a) ∧ g a = some a' ∧
        u = t.remove l.name ++ [(l, .table (.header h) a')] := by
  rw [enter, if_neg Bool.false_ne_true] at hu
  obtain ⟨v, hv, hu⟩ := Option.bind_eq_some_iff.1 hu
  rcases Entries.openTable_cases hv with ⟨hx, rfl⟩ | ⟨a, hx, rfl⟩
  · have hs : (t.set l (.table (.header h) [])).get? l.name = some (.table (.header h) []) := by
      rw [Entries.get?_set, if_pos rfl]
    rw [Entries.within_of_table hs] at hu
    obtain ⟨a', ha', rfl⟩ := Option.map_eq_some_iff.1 hu
    exact .inl ⟨hx, a', ha', by rw [Entries.set_set]⟩
  · have hrem : (t.remove l.name).get? l.name = none := by rw [Entries.get?_remove, if_pos rfl]
    have hs : Entries.get? l.name (t.remove l.name ++ [(l, .table (.header h) a)]) = some (.table (.header h) a) := by
      rw [Entries.get?_append, hrem, Option.none_or, Entries.get?, if_pos rfl]
    rw [Entries.within_of_table hs] at hu
    obtain ⟨a', ha', rfl⟩ := Option.map_eq_some_iff.1 hu
    exact .inr ⟨a, a', hx, ha', by rw [set_append_of_none hrem, Entries.set, if_pos rfl]⟩

theorem enter_true_cases (hu : enter h true g l t = some u) : ∃ row, g [] = some row ∧ Entries.addRow h row l t = some u := by
  rw [enter, if_pos rfl] at hu
  exact Option.bind_eq_some_iff.1 hu

theorem Label.Recalls.keeps_header {first : Bool} (hk : k.Recalls first l) (hfirst : first = true → level = .root)
    (hrow : level = .row → m.leaves = []) : level.Keeps k l m := by
  have hb := hk.before
  cases first with
  | true =>
    rw [hfirst rfl]
    trivial
  | false =>
    cases level with
    | root => trivial
    | dotted => exact hb
    | table => exact fun _ => hb
    | row => exact ⟨fun _ => hb, fun h => absurd (hrow rfl) h⟩

theorem prefix_concat {α : Type} {xs ys : List α} {a : α} (h : xs <+: ys) (ha : ys[xs.length]? = some a) :
    xs ++ [a] <+: ys := by
  obtain ⟨zs, rfl⟩ := h
  rw [List.getElem?_append_right (Nat.le_refl _), Nat.sub_self] at ha
  cases zs with
  | nil => cases ha
  | cons z zs =>
    cases ha
    exact ⟨zs, by simp⟩

section Steps

variable {early : Nat → Prop} {first : Bool} {rows init : List (Header × Entries)} {h' : Header}

/-- Repeated tables with one more, or with another last one. -/
theorem twin_of_rows (htext : k.text = l.text) (hb : level.Keeps k l (.tables rows)) (hafter : k.after = l.after)
    (haround : k.around.getD ([], []) = l.around.getD ([], []))
    (hh : (init ++ [(h, a)]).map Prod.fst <+: rows.map Prod.fst)
    (hinit : ∀ (j : Nat) k₁ t₁ k₂ t₂, init[j]? = some (k₁, t₁) → rows[j]? = some (k₂, t₂) → Twins .row t₁ t₂)
    (hi : rows[init.length]? = some (h', s)) (hlast : Twins .row a s) :
    Twin level k (.tables (init ++ [(h, a)])) l (.tables rows) where
  text := htext
  before := hb
  after _ := hafter
  value h := by cases h
  headers := hh
  around _ := haround
  table := by
    rintro _ _ _ _ ⟨⟩
  rows := by
    rintro _ _ j k₁ t₁ k₂ t₂ ⟨⟩ ⟨⟩ h₁ h₂
    by_cases hj : j < init.length
    · rw [List.getElem?_append_left hj] at h₁
      exact hinit j k₁ t₁ k₂ t₂ h₁ h₂
    · obtain rfl : j = init.length := by
        have := (List.getElem?_eq_some_iff.1 h₁).1
        simp only [List.length_append, List.length_singleton] at this
        omega
      rw [List.getElem?_append_right (Nat.le_refl _), Nat.sub_self] at h₁
      cases h₁
      cases hi.symm.trans h₂
      exact hlast

theorem enter_table_twins (hm : (l, .table (.header h) content) ∈ e) (hs : e.IsSound) (hneat : Neat early e)
    (hk : k.Recalls first l) (hafter : k.after = []) (haround : k.around.getD ([], []) = l.around.getD ([], []))
    (hfirst : first = true → level = .root) (hp : Parts (· < h.place) here t e) (ht : Twins level t e)
    (hg : ∀ a a', Parts (· < h.place) (fun _ => False) a content → Twins .table a content → g a = some a' →
      Twins .table a' content) (hu : enter h false g k t = some u) : Twins level u e := by
  have hget := Entries.get?_of_mem hs.functional hm
  have hreach : (Origin.header h).reach (· < h.place) (fun p => here (l.name :: p)) = fun _ => False :=
    funext fun _ => eq_false (Nat.lt_irrefl _)
  have hlast : k.after = l.after := by
    rw [hafter, (neat_iff.1 hneat).2.1 l _ hm (by simp [Node.headers])]
  have htwin {a : Entries} (ha : Twins .table a content) :
      Twin level k (.table (.header h) a) l (.table (.header h) content) := {
    text := hk.text
    before := hk.keeps_header hfirst fun _ => rfl
    after := fun _ => hlast
    value := fun h => by cases h
    headers := List.prefix_refl _
    around := fun _ => haround
    table := by
      rintro _ _ _ _ ⟨⟩ ⟨⟩
      exact ha
    rows := by
      rintro _ _ _ _ _ _ _ ⟨⟩ }
  have hparts {a : Entries} (ha : t.get? l.name = none ∧ a = [] ∨ ∃ o', t.get? l.name = some (.table o' a)) :
      Parts (· < h.place) (fun _ => False) a content := by
    have hd := hp.descend hget ha
    rwa [hreach] at hd
  rcases enter_false_cases hu with ⟨hx, a', ha', rfl⟩ | ⟨a, a', hx, ha', rfl⟩
  · have ha := hg [] a' (hparts (.inl ⟨hk.name ▸ hx, rfl⟩)) (.nil _ _) ha'
    exact ht.set_of_none hs.functional hx hm hk.name (htwin ha) fun y _ =>
      hk.name ▸ not_sublist_of_leaves hs.functional hm rfl y
  · obtain ⟨k', hname, hk'⟩ := Entries.mem_of_get? hx
    have ha := hg a a' (hparts (.inr ⟨_, hk.name ▸ hx⟩))
      ((ht.each hk' hm (hname.trans hk.name)).table _ _ _ _ rfl rfl) ha'
    exact ht.reopen hs.functional hm hk.name rfl (htwin ha)

theorem enter_row_twins (hm : (l, .tables rows) ∈ e) (hr : (h, content) ∈ rows) (hs : e.IsSound) (hneat : Neat early e)
    (hk : k.Recalls first l) (hafter : k.after = []) (haround : k.around.getD ([], []) = l.around.getD ([], []))
    (hfirst : first = true → level = .root) (hp : Parts (· < h.place) here t e) (ht : Twins level t e)
    (hg : ∀ a a', Parts (· < h.place) (fun _ => False) a content → Twins .row a content → g a = some a' →
      Twins .row a' content) (hu : enter h true g k t = some u) : Twins level u e := by
  have hget := Entries.get?_of_mem hs.functional hm
  obtain ⟨row, hrow, hadd⟩ := enter_true_cases hu
  obtain ⟨i, hi⟩ := List.mem_iff_getElem?.1 hr
  cases hs.sound _ _ hm with
  | leaf hl => cases hl
  | tables hne hin _ hord =>
    have hlast : k.after = l.after := by
      rw [hafter, (neat_iff.1 hneat).2.1 l _ hm (by simp [Node.headers, hne])]
    have ha : Twins .row row content := by
      refine hg [] row (parts_start fun q hq hlt => ?_) (.nil _ _) hrow
      exact Nat.lt_asymm (hin h content hr q hq) hlt
    have hbefore (j : Nat) (r : Header × Entries) (hj : j < i) (hr : rows[j]? = some r) : r.1.place < h.place :=
      place_lt hord hr hi hj List.mem_cons_self
    have hheader {init : List (Header × Entries)} (hi : rows[init.length]? = some (h, content))
        (hpre : init.map Prod.fst <+: rows.map Prod.fst) : (init ++ [(h, row)]).map Prod.fst <+: rows.map Prod.fst := by
      rw [List.map_append]
      exact prefix_concat hpre (by rw [List.length_map, List.getElem?_map, hi]; rfl)
    rcases Entries.addRow_cases hadd with ⟨hx, rfl⟩ | ⟨rn, hx, rfl⟩
    · obtain rfl : i = 0 := eq_zero_of_absent (hp.absent (hk.name ▸ hx) hget) hi hbefore
      refine ht.set_of_none hs.functional hx hm hk.name ?_ fun y _ => hk.name ▸ not_sublist_of_leaves hs.functional hm rfl y
      have hnil : rows[([] : List (Header × Entries)).length]? = some (h, content) := hi
      exact twin_of_rows hk.text (hk.keeps_header hfirst fun _ => rfl) hlast haround
        (hheader hnil List.nil_prefix) (fun _ _ _ _ _ h => by cases h) hnil ha
    · obtain ⟨hpart, hpresent⟩ := hp.child (hk.name ▸ hx) hget
      obtain rfl : rn.length = i := length_of_part_rows hpart hi (Nat.lt_irrefl _) hbefore
      -- one of the tables is there, so that their label is that of a header
      have hrn : rn ≠ [] := by
        rintro rfl
        cases hpresent with
        | leaf hl => cases hl
        | @row _ _ h₁ t₁ hmem hlt =>
          obtain ⟨j, hj⟩ := List.mem_iff_getElem?.1 hmem
          cases hpart with
          | leaf hl => cases hl
          | rows _ hdone _ => exact Nat.not_lt_zero _ ((hdone j h₁ t₁ hj).1 hlt)
      refine ht.set_of_some hs.functional hx hm hk.name fun k' htwin => ?_
      exact twin_of_rows htwin.text htwin.before (htwin.after rfl) (htwin.around (by simp [Node.headers, hrn]))
        (hheader hi htwin.headers) (fun j k₁ t₁ k₂ t₂ h₁ h₂ => htwin.rows _ _ j k₁ t₁ k₂ t₂ rfl rfl h₁ h₂) hi ha

/-- What changes in the tables under the first label of a path is what changes on the rest of it. -/
theorem within_of_atLast {f : Label → Entries → Option Entries} {k₁ : Label} {ks : List Label}
    (hu : atLast f (k :: k₁ :: ks) t = some u) : ∃ last, atLast f (k₁ :: ks) = Entries.within (f last) (k₁ :: ks).dropLast ∧
      Entries.Within (f last) (k₁ :: ks).dropLast k t u := by
  obtain ⟨last, h, h'⟩ := exists_last f k k₁ ks
  rw [h'] at hu
  exact ⟨last, h, Entries.within_cons hu⟩

theorem enter_inside_twins {f : Label → Entries → Option Entries} {k₁ : Label} {ks : List Label}
    (hm : (l, .table o s) ∈ e) (hs : e.IsSound) (hneat : Neat early e) (hk : k.Recalls first l)
    (hafter : k.after = l.after) (hfirst : first = true → level = .root) (hrow : level = .row → ∀ p, here p)
    (htime : InTime early here i e) (hc : Orderly here e) (hp : Parts (· < i) here t e) (ht : Twins level t e)
    (hf : ∀ a a', Parts (· < i) (o.reach (· < i) fun p => here (l.name :: p)) a s → Twins o.level a s →
      atLast f (k₁ :: ks) a = some a' → Twins o.level a' s)
    (hu : atLast f (k :: k₁ :: ks) t = some u) : Twins level u e := by
  have hget := Entries.get?_of_mem hs.functional hm
  obtain ⟨last, hlast, hw⟩ := within_of_atLast hu
  rw [hlast] at hf
  cases hw with
  | @new a hx ha =>
    have hd := hp.descend hget (.inl ⟨hk.name ▸ hx, rfl⟩)
    refine ht.set_of_none hs.functional hx hm hk.name ?_ fun y hy => hk.name ▸ ?_
    · refine twin_of_table hk.text (hk.keeps_header hfirst fun hlevel => ?_) hafter rfl (hf [] a hd (.nil _ _) ha)
      -- all values of a repeated table that is there are there, so this name leads to none
      by_contra hne
      obtain ⟨⟨p, c⟩, hpc⟩ := List.exists_mem_of_ne_nil _ hne
      exact hp.absent (hk.name ▸ hx) hget ((owns_of_mem_leaves (hs.sound _ _ hm) hpc).present (hrow hlevel _))
    · exact not_sublist_of_absent hs hneat.inOrder hc htime hp (hk.name ▸ hx) hy
  | @table o' a a' hx ha =>
    have hd := hp.descend hget (.inr ⟨o', hk.name ▸ hx⟩)
    refine ht.set_of_some hs.functional hx hm hk.name fun k' htwin => ?_
    have ha := hf a a' hd (htwin.table _ _ _ _ rfl rfl) ha
    exact { htwin with
      value := fun h => by cases h
      headers := by
        have hh := htwin.headers
        cases o' <;> exact hh
      around := fun hne => htwin.around (by cases o' <;> exact hne)
      table := by
        rintro _ _ _ _ ⟨⟩ ⟨⟩
        exact ha
      rows := by
        rintro _ _ _ _ _ _ _ ⟨⟩ }
  | row hx ha =>
    cases (hp.child (hk.name ▸ hx) hget).1 with
    | leaf h => cases h

theorem enter_insideRow_twins {f : Label → Entries → Option Entries} {k₁ : Label} {ks : List Label}
    (hm : (l, .tables rows) ∈ e) (hr : (h', s) ∈ rows) (hmem : h.place ∈ placesOf s) (hs : e.IsSound)
    (hk : k.Recalls first l) (hp : Parts (· < h.place) here t e) (ht : Twins level t e)
    (hf : ∀ a a', Parts (· < h.place) (fun _ => True) a s → Twins .row a s → atLast f (k₁ :: ks) a = some a' →
      Twins .row a' s) (hu : atLast f (k :: k₁ :: ks) t = some u) : Twins level u e := by
  have hget := Entries.get?_of_mem hs.functional hm
  obtain ⟨last, hlast, hw⟩ := within_of_atLast hu
  rw [hlast] at hf
  obtain ⟨i, hi⟩ := List.mem_iff_getElem?.1 hr
  cases hs.sound _ _ hm with
  | leaf hl => cases hl
  | tables _ hin _ hord =>
    have hlt : h'.place < h.place := hin h' s hr _ hmem
    cases hw with
    | new hx ha => exact absurd (.row hr hlt) (hp.absent (hk.name ▸ hx) hget)
    | table hx ha =>
      cases (hp.child (hk.name ▸ hx) hget).1 with
      | leaf _ hl => cases hl
    | @row init₀ k₀ a₀ a' hx ha =>
      obtain ⟨hpart, -⟩ := hp.child (hk.name ▸ hx) hget
      obtain ⟨init, k₂, a, hinit, rfl, hpa, -⟩ := exists_last_row hpart hi hlt fun r hr hc =>
        Nat.lt_asymm (place_lt hord hi hr (Nat.lt_succ_self _) (List.mem_cons_of_mem _ hmem)) hc
      obtain ⟨rfl, hlast'⟩ := List.append_inj' hinit rfl
      obtain ⟨rfl, rfl⟩ := Prod.mk.inj (List.singleton_inj.1 hlast')
      refine ht.set_of_some hs.functional hx hm hk.name fun k' htwin => ?_
      have hrows (j : Nat) (k₁ : Header) (t₁ : Entries) (k₂ : Header) (t₂ : Entries)
          (h₁ : (init₀ ++ [(k₀, a₀)])[j]? = some (k₁, t₁)) (h₂ : rows[j]? = some (k₂, t₂)) : Twins .row t₁ t₂ :=
        htwin.rows _ _ j k₁ t₁ k₂ t₂ rfl rfl h₁ h₂
      have hlast₀ : (init₀ ++ [(k₀, a₀)])[init₀.length]? = some (k₀, a₀) := by
        rw [List.getElem?_append_right (Nat.le_refl _), Nat.sub_self]
        rfl
      refine twin_of_rows htwin.text htwin.before (htwin.after rfl) (htwin.around (by simp [Node.headers])) ?_
        (fun j k₁ t₁ k₂ t₂ h₁ h₂ => hrows j k₁ t₁ k₂ t₂ ?_ h₂) hi (hf a₀ a' hpa (hrows _ _ _ _ _ hlast₀ hi) ha)
      · have hh := htwin.headers
        simpa [Node.headers] using hh
      · rwa [List.getElem?_append_left (List.getElem?_eq_some_iff.1 h₁).1]

/-- One more section leads to a tree like the one it was. -/
theorem enter_twins {path labels : List Label} (hroute : Route h repeated content e path) (hs : e.IsSound)
    (hneat : Neat early e) (hr : Recalls ([], []) first labels path) (hfirst : first = true → level = .root)
    (hrow : level = .row → ∀ p, here p) (htime : InTime early here h.place e) (hc : Orderly here e)
    (hp : Parts (· < h.place) here t e) (ht : Twins level t e)
    (hg : ∀ a a', Parts (· < h.place) (fun _ => False) a content → Twins (if repeated then .row else .table) a content →
      g a = some a' → Twins (if repeated then .row else .table) a' content)
    (hu : atLast (enter h repeated g) labels t = some u) : Twins level u e := by
  induction hroute generalizing early first level here t u labels with
  | @table e l hm hrep =>
    subst hrep
    cases hr with
    | last hk hafter haround => exact enter_table_twins hm hs hneat hk hafter haround hfirst hp ht hg hu
    | cons _ _ hr => cases hr
  | @row e l rows hm hmem hrep =>
    subst hrep
    cases hr with
    | last hk hafter haround => exact enter_row_twins hm hmem hs hneat hk hafter haround hfirst hp ht hg hu
    | cons _ _ hr => cases hr
  | @inside e s l o path hm hroute ih =>
    cases hr with
    | last => exact absurd rfl (hroute.site (.of_table (hs.sound _ _ hm))).ne_nil
    | cons hk hafter hr =>
      obtain ⟨k₁, ks, l₁, ls, rfl, rfl⟩ := hr.ne_nil
      have hss : Entries.IsSound s := .of_table (hs.sound _ _ hm)
      have hnode := (neat_iff.1 hneat).2.2 l _ hm
      refine enter_inside_twins hm hs hneat hk hafter hfirst hrow htime hc hp ht (fun a a' hpa hta ha => ?_) hu
      refine ih hss (hnode.table o s rfl) hr (fun h => by cases h) (fun h => ?_) (htime.reach hm) (hc.reach hm ?_ hss) hpa hta ha
      · cases o <;> cases h
      · rintro rfl
        cases hs.sound _ _ hm with
        | leaf hl => cases hl
        | table _ _ hi _ => exact hi rfl
  | @insideRow e s l rows h' path hm hmem hroute ih =>
    have hss : Entries.IsSound s := .of_row (hs.sound _ _ hm) hmem
    cases hr with
    | last => exact absurd rfl (hroute.site hss).ne_nil
    | cons hk hafter hr =>
      obtain ⟨k₁, ks, l₁, ls, rfl, rfl⟩ := hr.ne_nil
      have hnode := (neat_iff.1 hneat).2.2 l _ hm
      refine enter_insideRow_twins hm hmem (hroute.site hss).place_mem hs hk hp ht (fun a a' hpa hta ha => ?_) hu
      exact ih hss (hnode.rows rows h' s rfl hmem) hr (fun h => by cases h) (fun _ _ => trivial) (.inr fun _ => trivial)
        (orderly_const _ _) hpa hta ha

end Steps

end Enter

end SqlLint.Toml
