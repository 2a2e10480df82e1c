import SqlLint.Proofs.Toml.Render

/-! # Trees grow well spelled

Which trees come of reading, and that they stay such trees with each value that is set and each table
that is opened or added. -/
namespace SqlLint.Toml
open Token (nestingLimit)

/-- A label may stand where it is: what is known to stand around it fits a value, or a header. -/
structure Label.Fits (inside : Bool) (l : Label) (n : Node) : Prop where
  spelled : l.IsSpelled
  leaf : n.isLeaf = true → ∀ a, l.around = some a → IsAround inside a
  defined : n.isDefined = true → ∀ a, l.around = some a → IsBlanks a.1 ∧ IsBlanks a.2

structure Header.IsSpelled (h : Header) : Prop where
  lead : IsSpace h.lead
  tail : IsTail h.tail

/-- All entries are tables that headers speak of. -/
def AllDefined (t : Entries) : Prop := ∀ l n, (l, n) ∈ t → n.isDefined = true

/-- A node that may be the result of reading, inside of brackets or not, with so many brackets left to
open. The first number is that of the names from the root to the node, the second one that of the names
that a key of it has. -/
inductive Fit (inside : Bool) (depth : Nat) : Nat → Nat → Node → Prop
  | leaf {i j : Nat} {n : Node} : Written inside depth n → j ≤ Key.limit → Fit inside depth i j n
  | dotted {i j : Nat} {t : Entries} : t.IsFunctional → t ≠ [] → (∀ l n, (l, n) ∈ t → l.Fits inside n) →
    (∀ l n, (l, n) ∈ t → Fit inside depth (i + 1) (j + 1) n) → Fit inside depth i j (.table .dotted t)
  | implicit {i j : Nat} {t : Entries} : inside = false → t.IsFunctional → t ≠ [] → AllDefined t →
    (∀ l n, (l, n) ∈ t → l.Fits inside n) → (∀ l n, (l, n) ∈ t → Fit inside depth (i + 1) 1 n) →
    Fit inside depth i j (.table .implicit t)
  | header {i j : Nat} {h : Header} {t : Entries} : inside = false → i ≤ Key.limit → h.IsSpelled → t.IsFunctional →
    (∀ l n, (l, n) ∈ t → l.Fits inside n) → (∀ l n, (l, n) ∈ t → Fit inside depth (i + 1) 1 n) →
    Fit inside depth i j (.table (.header h) t)
  | tables {i j : Nat} {rows : List (Header × Entries)} : inside = false → i ≤ Key.limit → rows ≠ [] →
    (∀ h t, (h, t) ∈ rows → h.IsSpelled ∧ t.IsFunctional ∧ ∀ q ∈ placesOf t, h.place < q) →
    (∀ h t, (h, t) ∈ rows → ∀ l n, (l, n) ∈ t → l.Fits inside n) →
    (∀ h t, (h, t) ∈ rows → ∀ l n, (l, n) ∈ t → Fit inside depth (i + 1) 1 n) →
    rows.Pairwise (fun r r' => ∀ q ∈ r.1.place :: placesOf r.2, q < r'.1.place) →
    Fit inside depth i j (.tables rows)

/-- Entries that may be the result of reading. -/
structure Entries.Fits (inside : Bool) (depth i j : Nat) (e : Entries) : Prop where
  functional : e.IsFunctional
  labels : ∀ l n, (l, n) ∈ e → l.Fits inside n
  nodes : ∀ l n, (l, n) ∈ e → Fit inside depth i j n

variable {inside : Bool} {depth i j : Nat} {n m : Node} {e t u : Entries} {l : Label}

/-! ## What such trees are -/

theorem Fit.sound (h : Fit inside depth i j n) : Sound n := by
  induction h with
  | leaf hw _ => exact .leaf hw.isLeaf
  | dotted hf hne _ _ ih => exact .table hf (fun _ => hne) (fun h => by cases h) ih
  | implicit _ hf hne hd _ _ ih => exact .table hf (fun _ => hne) (fun _ => hd) ih
  | header _ _ _ hf _ _ ih => exact .table hf (fun h => by cases h) (fun h => by cases h) ih
  | tables _ _ hne hr _ _ hp ih =>
    refine .tables hne (fun h t hm => (hr h t hm).2.2) (fun h t hm => ?_) hp
    exact .table (hr h t hm).2.1 (fun h => by cases h) (fun h => by cases h) (ih h t hm)

theorem Entries.Fits.isSound (h : e.Fits inside depth i j) : e.IsSound :=
  ⟨h.functional, fun l n hm => (h.nodes l n hm).sound⟩

theorem places_of_isLeaf (h : n.isLeaf = true) : n.places = [] := by
  cases n with
  | scalar | array | inline => rfl
  | table | tables => cases h

/-- Inside of brackets there are no headers, and a table is not empty. -/
theorem Fit.of_inside (h : Fit true depth i j n) : n.places = [] ∧ n.leaves ≠ [] := by
  induction h with
  | leaf hw _ =>
    rw [leaves_of_isLeaf hw.isLeaf]
    exact ⟨places_of_isLeaf hw.isLeaf, by simp⟩
  | @dotted i j t _ hne _ _ ih =>
    constructor
    · rw [Node.places, List.eq_nil_iff_forall_not_mem]
      · intro q hq
        obtain ⟨l, n, hm, hq⟩ := mem_placesOf.1 hq
        rw [(ih l n hm).1] at hq
        cases hq
      · exact fun h he => by cases he
    · obtain ⟨⟨l, n⟩, rest, rfl⟩ := List.exists_cons_of_ne_nil hne
      rw [Node.leaves, leavesOf]
      simp [(ih l n List.mem_cons_self).2]
  | implicit h => cases h
  | header h => cases h
  | tables h => cases h

theorem Entries.Fits.of_inside (h : e.Fits true depth i j) : placesOf e = [] ∧ (leavesOf e = [] → e = []) := by
  constructor
  · rw [List.eq_nil_iff_forall_not_mem]
    intro q hq
    obtain ⟨l, n, hm, hq⟩ := mem_placesOf.1 hq
    rw [(h.nodes l n hm).of_inside.1] at hq
    cases hq
  · intro hl
    cases e with
    | nil => rfl
    | cons first rest =>
      obtain ⟨l, n⟩ := first
      have hn := (h.nodes l n List.mem_cons_self).of_inside.2
      rw [leavesOf, List.append_eq_nil_iff, List.map_eq_nil_iff] at hl
      exact absurd hl.1 hn

/-- The values of a fitting node can be written behind its label. -/
theorem Fit.leaf_spelled (h : Fit inside depth i j n) {p : List Label} (hm : (p, m) ∈ n.leaves) (hl : l.Fits inside n) :
    (∀ k ∈ l :: p, k.IsSpelled) ∧ j + p.length ≤ Key.limit ∧ IsAround inside (aroundOf ([], [' ']) (l :: p)) ∧
      Written inside depth m := by
  induction h generalizing l p with
  | @leaf i j n hw hj =>
    rw [leaves_of_isLeaf hw.isLeaf] at hm
    obtain ⟨rfl, rfl⟩ := Prod.mk.inj (List.mem_singleton.1 hm)
    refine ⟨fun k hk => ?_, hj, ?_, hw⟩
    · rw [List.mem_singleton.1 hk]
      exact hl.spelled
    · have haround : aroundOf ([], [' ']) [l] = l.around.getD ([], [' ']) := rfl
      rw [haround]
      cases ha : l.around with
      | none =>
        refine ⟨.nil, ?_⟩
        have hb : IsBlanks [' '] := fun c hc => by rw [List.mem_singleton.1 hc]; rfl
        cases inside with
        | true => exact hb.isSpace
        | false => exact hb
      | some a => exact hl.leaf hw.isLeaf a ha
  | @dotted i j t _ _ hlabels _ ih =>
    obtain ⟨k, c, q, hc, hq, rfl⟩ := mem_leavesOf.1 (show (p, m) ∈ leavesOf t from hm)
    obtain ⟨hs, hlen, ha, hw⟩ := ih k c hc hq (hlabels k c hc)
    refine ⟨fun k' hk => ?_, ?_, ?_, hw⟩
    · rcases List.mem_cons.1 hk with rfl | hk
      · exact hl.spelled
      · exact hs k' hk
    · rw [List.length_cons]
      omega
    · rwa [aroundOf, List.getLast?_cons_cons]
  | implicit => cases hm
  | header => cases hm
  | tables => cases hm

theorem Entries.Fits.leaves (h : e.Fits inside depth i 1) : ∀ leaf ∈ leavesOf e, IsPath leaf.1 ∧
    IsAround inside (aroundOf ([], [' ']) leaf.1) ∧ Written inside depth leaf.2 := by
  intro leaf hm
  obtain ⟨l, n, p, hn, hp, hl⟩ := mem_leavesOf.1 hm
  obtain ⟨hs, hlen, ha, hw⟩ := (h.nodes l n hn).leaf_spelled hp (h.labels l n hn)
  rw [hl]
  refine ⟨⟨by simp, ?_, hs⟩, ha, hw⟩
  rw [List.length_cons]
  omega

/-- A header that is spelled well is a section that can be written, if its entries are. -/
theorem isSpelled_section {path : List Label} {h : Header} {repeated : Bool} (hp : ∀ k ∈ path, k.IsSpelled)
    (hi : path.length + 1 ≤ Key.limit) (hl : l.Fits false n) (hd : n.isDefined = true) (hh : h.IsSpelled)
    (ht : t.Fits false nestingLimit i 1) : Section.IsSpelled ⟨h, repeated, path ++ [l], t⟩ := by
  have haround : aroundOf ([], []) (path ++ [l]) = l.around.getD ([], []) := by
    rw [aroundOf, List.getLast?_concat]
    rfl
  have hblanks : IsBlanks (aroundOf ([], []) (path ++ [l])).1 ∧ IsBlanks (aroundOf ([], []) (path ++ [l])).2 := by
    rw [haround]
    cases ha : l.around with
    | none => exact ⟨isBlanks_nil, isBlanks_nil⟩
    | some a => exact hl.defined hd a ha
  have hspelled := List.forall_mem_append.2 ⟨hp, List.forall_mem_singleton.2 hl.spelled⟩
  exact ⟨⟨by simp, by simpa using hi, hspelled⟩, hblanks.1, hblanks.2, hh.lead, hh.tail, ht.leaves⟩

/-- The sections of a fitting node can be written. -/
theorem Fit.section_spelled (h : Fit false nestingLimit i j n) {path : List Label} (hp : ∀ k ∈ path, k.IsSpelled)
    (hi : path.length + 1 = i) (hl : l.Fits false n) {s : Section} (hs : s ∈ n.sections (path ++ [l])) : s.IsSpelled := by
  have hp' {l : Label} {path : List Label} (hp : ∀ k ∈ path, k.IsSpelled) (hl : l.IsSpelled) :
      ∀ k ∈ path ++ [l], k.IsSpelled := List.forall_mem_append.2 ⟨hp, List.forall_mem_singleton.2 hl⟩
  have hi' {i : Nat} {path : List Label} (hi : path.length + 1 = i) (l : Label) : (path ++ [l]).length + 1 = i + 1 := by
    rw [List.length_append, List.length_singleton, hi]
  induction h generalizing l path s with
  | @leaf i j n hw _ =>
    cases hw <;> cases hs
  | @dotted i j t _ _ hlabels _ ih =>
    obtain ⟨k, c, hc, hs⟩ := mem_sectionsOf.1 hs
    exact ih k c hc (hp' hp hl.spelled) (hi' hi l) (hlabels k c hc) hs
  | @implicit i j t _ _ _ _ hlabels _ ih =>
    obtain ⟨k, c, hc, hs⟩ := mem_sectionsOf.1 hs
    exact ih k c hc (hp' hp hl.spelled) (hi' hi l) (hlabels k c hc) hs
  | @header i j h t _ hlen hh hf hlabels hfit ih =>
    rcases List.mem_cons.1 hs with rfl | hs
    · exact isSpelled_section hp (hi ▸ hlen) hl rfl hh ⟨hf, hlabels, hfit⟩
    · obtain ⟨k, c, hc, hs⟩ := mem_sectionsOf.1 hs
      exact ih k c hc (hp' hp hl.spelled) (hi' hi l) (hlabels k c hc) hs
  | @tables i j rows _ hlen _ hr hlabels hfit _ ih =>
    obtain ⟨h, t, hm, rfl | hs⟩ := mem_rowSections.1 hs
    · obtain ⟨hh, hf, -⟩ := hr h t hm
      exact isSpelled_section hp (hi ▸ hlen) hl rfl hh ⟨hf, hlabels h t hm, hfit h t hm⟩
    · obtain ⟨k, c, hc, hs⟩ := mem_sectionsOf.1 hs
      exact ih h t hm k c hc (hp' hp hl.spelled) (hi' hi l) (hlabels h t hm k c hc) hs

theorem Entries.Fits.sections (h : e.Fits false nestingLimit 1 j) : ∀ s ∈ sectionsOf [] e, s.IsSpelled := by
  intro s hs
  obtain ⟨l, n, hm, hs⟩ := mem_sectionsOf.1 hs
  exact (h.nodes l n hm).section_spelled (List.forall_mem_nil _) rfl (h.labels l n hm) hs

end SqlLint.Toml
