import SqlLint.Proofs.Toml.Rewrite

/-! # Trees in the order of their text

A tree is written table by table, and what is written first is not always what was first in the text that
was read. Of the names that lead to values, however, each one is first spelled where it was before: it is
either not named by a header before the values of its table, or it is named before the ones behind it. -/
namespace SqlLint.Toml
open Document (Draft)
open Document.Draft (atLast)
open Token (nestingLimit)

/-- The headers that speak of a node itself. -/
def Node.headers : Node → List Header
  | .table (.header h) _ => [h]
  | .tables rows => rows.map Prod.fst
  | _ => []

/-- The places of headers that come before the values of a table. A table that was only named never gets
values, and a dotted table gets them with the table that it is in. -/
def Origin.early (early : Nat → Prop) : Origin → Nat → Prop
  | .header h => (· < h.place)
  | .implicit => fun _ => True
  | .dotted => early

/-- Of two names that have no header of their own, the second one is not the first one to be named early. -/
def InOrder (early : Nat → Prop) (e : Entries) : Prop :=
  e.Pairwise fun a b => a.2.headers = [] → b.2.headers = [] →
    ∀ q ∈ b.2.places, early q → ∃ q' ∈ a.2.places, q' < q

/-- A name that leads to values of a table stands without blanks in front, if no header in front of that of
the table has named it. -/
def Leads (h : Header) (t : Entries) : Prop :=
  ∀ l s, (l, .table .dotted s) ∈ t → l.before = [] ∨ ∃ q ∈ placesOf s, q < h.place

/-- Entries whose names are in the order of the text, and so on in each table. The name of a header has
nothing between it and the end of its key. -/
inductive Neat : (Nat → Prop) → Entries → Prop
  | intro {early : Nat → Prop} {e : Entries} : InOrder early e →
    (∀ l n, (l, n) ∈ e → n.headers ≠ [] → l.after = []) →
    (∀ l h t, (l, .table (.header h) t) ∈ e → Leads h t) →
    (∀ l o t, (l, .table o t) ∈ e → Neat (o.early early) t) →
    (∀ l rows h t, (l, .tables rows) ∈ e → (h, t) ∈ rows → Neat (fun _ => False) t) → Neat early e

/-- A node that may be one of neat entries. -/
structure Node.IsNeat (early : Nat → Prop) (n : Node) : Prop where
  leads : ∀ h t, n = .table (.header h) t → Leads h t
  table : ∀ o t, n = .table o t → Neat (o.early early) t
  rows : ∀ rows h t, n = .tables rows → (h, t) ∈ rows → Neat (fun _ => False) t

variable {early early' : Nat → Prop} {e t u : Entries} {l : Label} {n m : Node} {added : List Nat}

theorem neat_iff : Neat early e ↔ InOrder early e ∧ (∀ l n, (l, n) ∈ e → n.headers ≠ [] → l.after = []) ∧
    ∀ l n, (l, n) ∈ e → n.IsNeat early := by
  constructor
  · rintro ⟨horder, hafter, hleads, htable, hrows⟩
    refine ⟨horder, hafter, fun l n hm => ⟨?_, ?_, ?_⟩⟩
    · rintro h t rfl
      exact hleads l h t hm
    · rintro o t rfl
      exact htable l o t hm
    · rintro rows h t rfl
      exact hrows l rows h t hm
  · rintro ⟨horder, hafter, hnodes⟩
    exact .intro horder hafter (fun l h t hm => (hnodes l _ hm).leads h t rfl)
      (fun l o t hm => (hnodes l _ hm).table o t rfl) fun l rows h t hm => (hnodes l _ hm).rows rows h t rfl

theorem Neat.inOrder (h : Neat early e) : InOrder early e := (neat_iff.1 h).1

theorem Neat.node (h : Neat early e) (hg : e.get? l.name = some n) : n.IsNeat early := by
  obtain ⟨k, -, hm⟩ := Entries.mem_of_get? hg
  exact (neat_iff.1 h).2.2 k n hm

theorem Neat.nil (early : Nat → Prop) : Neat early [] :=
  neat_iff.2 ⟨.nil, fun _ _ h => (by cases h), fun _ _ h => (by cases h)⟩

/-- Fewer headers come early. -/
theorem Neat.mono (h : Neat early e) (hle : ∀ q, early' q → early q) : Neat early' e := by
  induction h generalizing early' with
  | @intro early e horder hafter hleads _ hrows ih _ =>
    refine .intro ?_ hafter hleads (fun l o t hm => ih l o t hm fun q => ?_) hrows
    · exact horder.imp fun hab ha hb q hq he => hab ha hb q hq (hle q he)
    · cases o with
      | dotted => exact hle q
      | _ => exact id

theorem isNeat_of_isLeaf (h : n.isLeaf = true) : n.IsNeat early := by
  refine ⟨?_, ?_, ?_⟩
  · rintro _ _ rfl
    cases h
  · rintro _ _ rfl
    cases h
  · rintro _ _ _ rfl
    cases h

theorem isNeat_table {o : Origin} (hl : ∀ h, o = .header h → Leads h t) (h : Neat (o.early early) t) :
    (Node.table o t).IsNeat early := by
  refine ⟨?_, ?_, fun _ _ _ h => (by cases h)⟩
  · rintro k t ⟨⟩
    exact hl k rfl
  · rintro _ _ ⟨⟩
    exact h

theorem isNeat_dotted (h : Neat early t) : (Node.table .dotted t).IsNeat early := isNeat_table (fun _ h => (by cases h)) h

theorem isNeat_rows {rows : List (Header × Entries)} (h : ∀ k t, (k, t) ∈ rows → Neat (fun _ => False) t) :
    (Node.tables rows).IsNeat early :=
  ⟨fun _ _ h => (by cases h), fun _ _ h => (by cases h), by rintro _ k t ⟨⟩; exact h k t⟩

/-- The last of repeated tables may become another one. -/
theorem Node.IsNeat.refill_last {init : List (Header × Entries)} {k : Header}
    (h : (Node.tables (init ++ [(k, t)])).IsNeat early) (ht : Neat (fun _ => False) t → Neat (fun _ => False) u) :
    (Node.tables (init ++ [(k, u)])).IsNeat early := by
  have hinit := fun k₁ t₁ hm => h.rows _ k₁ t₁ rfl (List.mem_append_left _ hm)
  exact isNeat_rows (forall_mem_concat hinit (ht (h.rows _ k t rfl (by simp))))

theorem headers_of_isLeaf (h : n.isLeaf = true) : n.headers = [] := by
  cases n with
  | scalar | array | inline => rfl
  | table | tables => cases h

/-- What speaks of a node has a place in it. -/
theorem mem_places_of_headers {h : Header} (hm : h ∈ n.headers) : h.place ∈ n.places := by
  cases n with
  | table o t =>
    cases o with
    | header k =>
      rw [List.mem_singleton.1 hm]
      exact List.mem_cons_self
    | _ => cases hm
  | tables rows =>
    obtain ⟨⟨h, t⟩, hr, rfl⟩ := List.mem_map.1 hm
    exact mem_placesOfRows.2 ⟨h, t, hr, List.mem_cons_self⟩
  | _ => cases hm

theorem neat_of_nodes (hp : ∀ l n, (l, n) ∈ e → ∀ q, q ∉ n.places) (hn : ∀ l n, (l, n) ∈ e → n.IsNeat early) :
    Neat early e := by
  refine neat_iff.2 ⟨List.pairwise_of_forall_mem_list fun a _ b hb _ _ q hq => absurd hq (hp b.1 b.2 hb q),
    fun l n hm hh => ?_, hn⟩
  obtain ⟨k, ks, hk⟩ := List.exists_cons_of_ne_nil hh
  exact absurd (mem_places_of_headers (hk ▸ List.mem_cons_self)) (hp l n hm k.place)

theorem isNeat_of_places (hs : Sound n) (h : ∀ q, q ∉ n.places) : n.IsNeat early := by
  induction hs generalizing early with
  | leaf hl => exact isNeat_of_isLeaf hl
  | @tables rows hne =>
    obtain ⟨⟨k, t⟩, rest, rfl⟩ := List.exists_cons_of_ne_nil hne
    exact absurd List.mem_cons_self (h k.place)
  | @table o t _ _ _ _ ih =>
    have hnone (l : Label) (c : Node) (hm : (l, c) ∈ t) (q : Nat) : q ∉ c.places :=
      fun hq => h q (placesOf_subset o t (mem_placesOf.2 ⟨l, c, hm, hq⟩))
    refine isNeat_table ?_ (neat_of_nodes hnone fun l c hm => ih l c hm (hnone l c hm))
    rintro k rfl
    exact absurd List.mem_cons_self (h k.place)

/-- Where there are no headers at all, all names are in order. -/
theorem neat_of_places (hs : e.IsSound) (h : placesOf e = []) : Neat early e := by
  have hnone (l : Label) (n : Node) (hm : (l, n) ∈ e) (q : Nat) : q ∉ n.places := fun hq => by
    have := mem_placesOf.2 ⟨l, n, hm, hq⟩
    rw [h] at this
    cases this
  exact neat_of_nodes hnone fun l n hm => isNeat_of_places (hs.sound l n hm) (hnone l n hm)

/-! ## Changes under one name -/

/-- A new header with a place comes too late to change the order of entries. -/
def Late (early : Nat → Prop) (e : Entries) (q : Nat) : Prop :=
  early q → ∀ a ∈ e, a.2.headers = [] → ∃ q' ∈ a.2.places, q' < q

theorem inOrder_append (h : InOrder early e) (hn : n.headers = [] → ∀ q ∈ n.places, Late early e q) :
    InOrder early (e ++ [(l, n)]) := by
  exact pairwise_concat h fun a ha hla hlb q hq he => hn hlb q hq he a ha hla

theorem inOrder_set (h : InOrder early e) (hg : e.get? l.name = some m) (hh : n.headers = [] → m.headers = [])
    (hsub : ∀ q ∈ m.places, q ∈ n.places)
    (hnew : n.headers = [] → ∀ q ∈ n.places, q ∈ m.places ∨ Late early e q) : InOrder early (e.set l n) := by
  obtain ⟨front, k, back, rfl, hset, -⟩ := Entries.exists_split hg
  obtain ⟨hfront, hrest, hcross⟩ := List.pairwise_append.1 h
  obtain ⟨hk, hback⟩ := List.pairwise_cons.1 hrest
  rw [hset]
  refine List.pairwise_append.2 ⟨hfront, List.pairwise_cons.2 ⟨fun b hb hl hlb q hq he => ?_, hback⟩,
    fun a ha b hb => ?_⟩
  · obtain ⟨q', hq', hlt⟩ := hk b hb (hh hl) hlb q hq he
    exact ⟨q', hsub q' hq', hlt⟩
  · rcases List.mem_cons.1 hb with rfl | hb
    · intro hla hl q hq he
      rcases hnew hl q hq with hq | hlate
      · exact hcross a ha _ List.mem_cons_self hla (hh hl) q hq he
      · exact hlate he a (List.mem_append_left _ ha) hla
    · exact hcross a ha b (List.mem_cons_of_mem _ hb)

theorem Neat.set_of_none (h : Neat early e) (hg : e.get? l.name = none) (hafter : n.headers ≠ [] → l.after = [])
    (hn : n.IsNeat early) (hlate : n.headers = [] → ∀ q ∈ n.places, Late early e q) : Neat early (e.set l n) := by
  obtain ⟨horder, hafters, hnodes⟩ := neat_iff.1 h
  refine neat_iff.2 ⟨?_, Entries.forall_set hafters (fun _ => hafter) fun _ _ _ hx => ?_,
    Entries.forall_set hnodes (fun _ => hn) fun _ _ _ _ _ => hn⟩
  · rw [Entries.set_of_none hg]
    exact inOrder_append horder hlate
  · rw [hg] at hx
    cases hx

theorem Neat.set_of_some (h : Neat early e) (hg : e.get? l.name = some m) (hh : n.headers = [] ↔ m.headers = [])
    (hn : n.IsNeat early) (hsub : ∀ q ∈ m.places, q ∈ n.places)
    (hlate : n.headers = [] → ∀ q ∈ n.places, q ∈ m.places ∨ Late early e q) : Neat early (e.set l n) := by
  obtain ⟨horder, hafters, hnodes⟩ := neat_iff.1 h
  refine neat_iff.2 ⟨inOrder_set horder hg hh.1 hsub hlate, Entries.forall_set hafters (fun hx => ?_)
    fun k c hm hx _ hne => ?_, Entries.forall_set hnodes (fun _ => hn) fun _ _ _ _ _ => hn⟩
  · rw [hg] at hx
    cases hx
  · cases hg.symm.trans hx
    exact hafters k m hm fun hnil => hne (hh.2 hnil)

/-! ## Values -/

section Put

variable {labels : List Label}

theorem perm_placesOf_set (h : e.get? l.name = some m) (hp : n.places.Perm m.places) :
    (placesOf (e.set l n)).Perm (placesOf e) := by
  have hset : (placesOf (e.set l n)).Perm ([] ++ placesOf e) := placesOf_set_of_some h hp
  exact hset

theorem perm_refill_last {init : List (Header × Entries)} {k : Header} (h : (placesOf u).Perm (placesOf t)) :
    (Node.tables (init ++ [(k, u)])).places.Perm (Node.tables (init ++ [(k, t)])).places := by
  have hperm : (placesOf u).Perm ([] ++ placesOf t) := h
  exact places_refill_last hperm

/-- A value that is set brings no headers. -/
theorem places_put (hn : n.places = []) (h : e.put n labels = some u) : (placesOf u).Perm (placesOf e) := by
  induction labels generalizing e u with
  | nil => cases h
  | cons l ls ih =>
    cases ls with
    | nil =>
      obtain ⟨hx, rfl⟩ := Entries.put_last h
      rw [placesOf_set_of_none hx, hn, List.append_nil]
    | cons l' ls =>
      cases Entries.put_cons h with
      | @new t hx ht =>
        have hnil : (Node.table .dotted t).places = [] := List.perm_nil.1 (ih ht)
        rw [placesOf_set_of_none hx, hnil, List.append_nil]
      | table ho hx ht =>
        refine perm_placesOf_set hx ?_
        rw [places_of_header?_eq_none ho]
        exact ih ht
      | row hx ht => exact perm_placesOf_set hx (perm_refill_last (ih ht))

/-- A value that is set keeps the order. -/
theorem Neat.put (hn : n.isLeaf = true) (he : Neat early e) (h : e.put n labels = some u) : Neat early u := by
  induction labels generalizing e u early with
  | nil => cases h
  | cons l ls ih =>
    have hplaces := places_of_isLeaf hn
    have hempty {m : Node} (hm : m.places = []) : ∀ q ∈ m.places, Late early e q := by
      rw [hm]
      exact List.forall_mem_nil _
    cases ls with
    | nil =>
      obtain ⟨hx, rfl⟩ := Entries.put_last h
      exact he.set_of_none hx (absurd (headers_of_isLeaf hn)) (isNeat_of_isLeaf hn) fun _ => hempty hplaces
    | cons l' ls =>
      cases Entries.put_cons h with
      | @new t hx ht =>
        have hnil : (Node.table .dotted t).places = [] := List.perm_nil.1 (places_put hplaces ht)
        exact he.set_of_none hx (fun hne => absurd rfl hne) (isNeat_dotted (ih (.nil _) ht)) fun _ => hempty hnil
      | @table o t t' ho hx ht =>
        have hperm := places_put hplaces ht
        have hsame : (Node.table o t).places = placesOf t := places_of_header?_eq_none ho t
        have hneat : Neat early t := by
          cases o with
          | header k => cases ho
          | implicit => exact ((he.node hx).table _ _ rfl).mono fun _ _ => trivial
          | dotted => exact (he.node hx).table _ _ rfl
        refine he.set_of_some hx ?_ (isNeat_dotted (ih hneat ht)) (fun q hq => ?_) fun _ q hq => .inl ?_
        · cases o with
          | header k => cases ho
          | _ => exact .rfl
        · rw [hsame] at hq
          exact hperm.mem_iff.2 hq
        · rw [hsame]
          exact hperm.mem_iff.1 hq
      | @row init k t t' hx ht =>
        have hperm : (Node.tables (init ++ [(k, t')])).places.Perm (Node.tables (init ++ [(k, t)])).places :=
          perm_refill_last (places_put hplaces ht)
        exact he.set_of_some hx (by simp [Node.headers]) ((he.node hx).refill_last fun hneat => ih hneat ht)
          (fun q => hperm.mem_iff.2) fun _ q hq => .inl (hperm.mem_iff.1 hq)

end Put

/-- A table that headers speak of has a place. -/
theorem exists_place (hs : Sound m) (hm : m.isDefined = true) : ∃ q, q ∈ m.places := by
  induction hs with
  | @leaf m hl =>
    cases m with
    | scalar | array | inline => cases hm
    | table | tables => cases hl
  | @table o t _ hne hi _ ih =>
    cases o with
    | dotted => cases hm
    | header h => exact ⟨h.place, List.mem_cons_self⟩
    | implicit =>
      obtain ⟨⟨l, c⟩, rest, rfl⟩ := List.exists_cons_of_ne_nil (hne rfl)
      obtain ⟨q, hq⟩ := ih l c List.mem_cons_self (hi rfl l c List.mem_cons_self)
      exact ⟨q, mem_placesOf.2 ⟨l, c, List.mem_cons_self, hq⟩⟩
  | @tables rows hne =>
    obtain ⟨⟨h, t⟩, rest, rfl⟩ := List.exists_cons_of_ne_nil hne
    exact ⟨h.place, List.mem_cons_self⟩

/-- What becomes of a name keeps the places that were under it, or there is an early one. -/
theorem Leads.set {h : Header} (hl : Leads h t)
    (hnew : ∀ s, n = .table .dotted s → t.get? l.name = none → l.before = [])
    (hold : ∀ s, n = .table .dotted s → ∀ m, t.get? l.name = some m →
      (∃ s₀, m = .table .dotted s₀ ∧ ∀ q ∈ placesOf s₀, q ∈ placesOf s) ∨ ∃ q ∈ placesOf s, q < h.place) :
    Leads h (t.set l n) := by
  have hall := Entries.forall_set (l := l) (n := n)
    (Q := fun k c => ∀ s, c = .table .dotted s → k.before = [] ∨ ∃ q ∈ placesOf s, q < h.place)
    (fun k m hm s hc => hl k s (hc ▸ hm)) (fun hx s hc => .inl (hnew s hc hx)) fun k m hm hx _ s hc => ?_
  · exact fun k s hm => hall k _ hm s rfl
  · rcases hold s hc m hx with ⟨s₀, rfl, hsub⟩ | hearly
    · rcases hl k s₀ hm with hb | ⟨q, hq, hlt⟩
      · exact .inl hb
      · exact .inr ⟨q, hsub q hq, hlt⟩
    · exact .inr hearly

/-- A value that is set in the table of the last header leads on. -/
theorem Leads.put {h : Header} {labels : List Label} (hl : Leads h t) (hn : n.isLeaf = true)
    (hfirst : ∀ l, labels.head? = some l → l.before = []) (hs : ∀ x c, t.get? x = some c → Sound c)
    (hlt : ∀ q ∈ placesOf t, q < h.place) (hu : t.put n labels = some u) : Leads h u := by
  cases labels with
  | nil => cases hu
  | cons l ls =>
    have hb := hfirst l rfl
    cases ls with
    | nil =>
      obtain ⟨hx, rfl⟩ := Entries.put_last hu
      refine hl.set (fun _ _ _ => hb) fun s hc => ?_
      subst hc
      cases hn
    | cons l' ls =>
      cases Entries.put_cons hu with
      | new hx ht =>
        refine hl.set (fun _ _ _ => hb) fun s _ m hm => ?_
        rw [hx] at hm
        cases hm
      | @table o s₀ s ho hx ht =>
        have hperm := places_put (places_of_isLeaf hn) ht
        refine hl.set (fun _ _ _ => hb) fun s' hc m hm => ?_
        cases hc
        cases hx.symm.trans hm
        cases o with
        | header k => cases ho
        | dotted => exact .inl ⟨s₀, rfl, fun q => hperm.mem_iff.2⟩
        | implicit =>
          obtain ⟨q, hq⟩ := exists_place (hs _ _ hx) rfl
          exact .inr ⟨q, hperm.mem_iff.2 hq, hlt q (mem_placesOf_of_get? hx hq)⟩
      | row hx ht => exact hl.set (fun _ hc => by cases hc) fun _ hc => by cases hc

/-! ## Headers -/

section Within

variable {f : Entries → Option Entries} {path : List Label} {depth i j bound : Nat}

theorem tableAt_nil (path : List Label) : tableAt path [] = [] := by
  induction path with
  | nil => rfl
  | cons l ls ih => rw [tableAt_of_none rfl, ih]

/-- The table that a path leads to is one that reading may give. -/
theorem fits_tableAt (path : List Label) (he : e.Fits false depth i j) :
    ∃ k, (tableAt path e).Fits false depth (i + path.length) k := by
  induction path generalizing e i j with
  | nil => exact ⟨j, he⟩
  | cons l ls ih =>
    have hlen : i + (l :: ls).length = i + 1 + ls.length := by
      rw [List.length_cons]
      omega
    have hempty : ∃ k, (tableAt ls []).Fits false depth (i + 1 + ls.length) k := by
      rw [tableAt_nil]
      exact ⟨1, fits_nil ..⟩
    rw [hlen, tableAt]
    split
    · next hx =>
      obtain ⟨k, hfit, -⟩ := (fit_of_get? he hx).refill
      exact ih hfit
    · next rows hx =>
      rcases List.eq_nil_or_concat rows with rfl | ⟨init, ⟨k, t⟩, hc⟩
      · exact hempty
      · rw [List.concat_eq_append] at hc
        subst hc
        rw [List.getLast?_concat]
        exact ih (fit_of_get? he hx).refill_last.1
    · exact hempty

theorem places_sublist {x : String} (h : e.get? x = some n) : n.places.Sublist (placesOf e) := by
  induction e with
  | nil => cases h
  | cons first rest ih =>
    obtain ⟨k, c⟩ := first
    rw [Entries.get?] at h
    rw [placesOf]
    split at h
    · cases h
      exact List.sublist_append_left _ _
    · exact (ih h).trans (List.sublist_append_right _ _)

theorem tableAt_sublist (path : List Label) (e : Entries) : (placesOf (tableAt path e)).Sublist (placesOf e) := by
  induction path generalizing e with
  | nil => exact List.Sublist.refl _
  | cons l ls ih =>
    rw [tableAt]
    split
    · next o t hx =>
      refine ((ih t).trans ?_).trans (places_sublist hx)
      cases o with
      | header h => exact List.sublist_cons_self _ _
      | _ => exact List.Sublist.refl _
    · next rows hx =>
      rcases List.eq_nil_or_concat rows with rfl | ⟨init, ⟨k, t⟩, hc⟩
      · exact (ih []).trans (List.nil_sublist _)
      · rw [List.concat_eq_append] at hc
        subst hc
        rw [List.getLast?_concat]
        refine ((ih t).trans ?_).trans (places_sublist hx)
        rw [Node.places, placesOfRows_append, placesOfRows_singleton]
        exact (List.sublist_cons_self _ _).trans (List.sublist_append_right _ _)
    · exact (ih []).trans (List.nil_sublist _)

/-- The headers of a tree are those of the change in it and those that were there. -/
theorem places_within (hf : ∀ u, f (tableAt path e) = some u → (placesOf u).Perm (added ++ placesOf (tableAt path e)))
    (h : Entries.within f path e = some u) : (placesOf u).Perm (added ++ placesOf e) := by
  induction path generalizing e u with
  | nil => exact hf u h
  | cons l ls ih =>
    cases Entries.within_cons h with
    | @new t hx ht =>
      rw [tableAt_of_none hx] at hf
      have hperm := ih hf ht
      rw [placesOf, List.append_nil] at hperm
      rw [placesOf_set_of_none hx]
      exact (hperm.append_left _).trans List.perm_append_comm
    | table hx ht =>
      rw [tableAt_of_table hx] at hf
      exact placesOf_set_of_some hx (places_refill _ (ih hf ht))
    | row hx ht =>
      rw [tableAt_of_tables hx] at hf
      exact placesOf_set_of_some hx (places_refill_last (ih hf ht))

theorem places_openTable {h : Header} (hf : e.IsFunctional) (ho : Entries.openTable h l e = some u) :
    (placesOf u).Perm ([h.place] ++ placesOf e) := by
  rcases Entries.openTable_cases ho with ⟨hx, rfl⟩ | ⟨t, hx, rfl⟩
  · rw [placesOf_set_of_none hx]
    exact List.perm_append_comm
  · exact placesOf_remove hf hx (List.Perm.refl _)

theorem places_addRow {h : Header} {row : Entries} (hrow : placesOf row = []) (ho : Entries.addRow h row l e = some u) :
    (placesOf u).Perm ([h.place] ++ placesOf e) := by
  rcases Entries.addRow_cases ho with ⟨hx, rfl⟩ | ⟨rows, hx, rfl⟩
  · rw [placesOf_set_of_none hx, Node.places, placesOfRows_singleton, hrow]
    exact List.perm_append_comm
  · refine placesOf_set_of_some hx ?_
    rw [Node.places, Node.places, placesOfRows_append, placesOfRows_singleton, hrow]
    exact List.perm_append_comm

/-- Headers that are added now come too late. -/
def Entries.TakesLate (early : Nat → Prop) (added : List Nat) (e : Entries) : Prop :=
  (∀ q ∈ added, ¬ early q) ∨ AllDefined e

theorem Entries.TakesLate.late (h : e.TakesLate early added) (hs : ∀ x c, e.get? x = some c → Sound c) (hf : e.IsFunctional)
    (hb : ∀ q ∈ placesOf e, q < bound) (hadded : ∀ q ∈ added, bound ≤ q) {q : Nat} (hq : q ∈ added) : Late early e q := by
  intro he a ha _
  rcases h with h | h
  · exact absurd he (h q hq)
  · obtain ⟨q', hq'⟩ := exists_place (hs _ _ (Entries.get?_of_mem hf ha)) (h a.1 a.2 ha)
    exact ⟨q', hq', (hb q' (mem_placesOf.2 ⟨a.1, a.2, ha, hq'⟩)).trans_le (hadded q hq)⟩

/-- What a change makes of entries keeps them neat. -/
def KeepsNeat (added : List Nat) (e u : Entries) : Prop :=
  (∀ early, Neat early e → e.TakesLate early added → Neat early u) ∧ ∀ h, Leads h e → Leads h u

/-- A change of the table that a path leads to keeps the order, if all headers that it adds are new. -/
theorem keepsNeat_within (added : List Nat) (bound : Nat) (hadded : ∀ q ∈ added, bound ≤ q)
    (hf : ∀ u, f (tableAt path e) = some u → (placesOf u).Perm (added ++ placesOf (tableAt path e)))
    (hk : ∀ u, f (tableAt path e) = some u → KeepsNeat added (tableAt path e) u) (he : e.Fits false depth i j)
    (hb : ∀ q ∈ placesOf e, q < bound) (h : Entries.within f path e = some u) : KeepsNeat added e u := by
  induction path generalizing e u i j with
  | nil => exact hk u h
  | cons l ls ih =>
    have hsound := fun x c hx => (fit_of_get? he (x := x) (n := c) hx).sound
    have hlate {early : Nat → Prop} (hl : e.TakesLate early added) {q : Nat} (hq : q ∈ added) : Late early e q :=
      hl.late hsound he.functional hb hadded hq
    cases Entries.within_cons h with
    | @new t hx ht =>
      rw [tableAt_of_none hx] at hf hk
      have hnone : ∀ q ∈ placesOf [], q < bound := List.forall_mem_nil _
      have hperm := places_within hf ht
      rw [placesOf, List.append_nil] at hperm
      obtain ⟨hneat, -⟩ := ih (i := i + 1) (j := 1) hf hk (fits_nil ..) hnone ht
      refine ⟨fun early hn hl => ?_, fun h hleads => hleads.set (fun s hc => by cases hc) fun s hc => by cases hc⟩
      have htable : Neat (Origin.implicit.early early) t := hneat _ (.nil _) (.inr fun _ _ hm => by cases hm)
      exact hn.set_of_none hx (absurd rfl) (isNeat_table (fun _ hc => by cases hc) htable)
        fun _ q hq => hlate hl (hperm.mem_iff.1 hq)
    | @table o t t' hx ht =>
      rw [tableAt_of_table hx] at hf hk
      have hbt : ∀ q ∈ placesOf t, q < bound :=
        fun q hq => hb q (mem_placesOf_of_get? hx (placesOf_subset o t hq))
      obtain ⟨k, hfit, hall, -, -⟩ := (fit_of_get? he hx).refill
      obtain ⟨hneat, hleads⟩ := ih hf hk hfit hbt ht
      have hgrown := places_within hf ht
      have hperm := places_refill o hgrown
      refine ⟨fun early hn hl => hn.set_of_some hx ?_ (isNeat_table ?_ ?_) (fun q hq => ?_) fun _ q hq => ?_,
        fun h hl => hl.set (fun s _ hnone => ?_) fun s hc m hm => ?_⟩
      · cases o <;> exact .rfl
      · rintro k' rfl
        exact hleads k' ((hn.node hx).leads k' t rfl)
      · refine hneat _ ((hn.node hx).table o t rfl) ?_
        cases o with
        | header k' =>
          have hplace : k'.place < bound := hb _ (mem_placesOf_of_get? hx List.mem_cons_self)
          exact .inl fun q hq hlt => Nat.lt_irrefl _ ((hlt.trans hplace).trans_le (hadded q hq))
        | implicit => exact .inr (hall rfl)
        | dotted =>
          rcases hl with hl | hl
          · exact .inl hl
          · obtain ⟨k', -, hm⟩ := Entries.mem_of_get? hx
            cases hl k' _ hm
      · exact hperm.mem_iff.2 (List.mem_append_right _ hq)
      · exact (List.mem_append.1 (hperm.mem_iff.1 hq)).symm.imp_right fun hq => hlate hl hq
      · rw [hx] at hnone
        cases hnone
      · cases hx.symm.trans hm
        cases hc
        exact .inl ⟨t, rfl, fun q hq => hgrown.mem_iff.2 (List.mem_append_right _ hq)⟩
    | @row init k t t' hx ht =>
      rw [tableAt_of_tables hx] at hf hk
      have hbt : ∀ q ∈ placesOf t, q < bound := fun q hq => hb q (mem_placesOf_of_get? hx
        (mem_placesOfRows.2 ⟨k, t, by simp, List.mem_cons_of_mem _ hq⟩))
      obtain ⟨hfit, -⟩ := (fit_of_get? he hx).refill_last
      obtain ⟨hneat, -⟩ := ih hf hk hfit hbt ht
      have hperm : (Node.tables (init ++ [(k, t')])).places.Perm (added ++ (Node.tables (init ++ [(k, t)])).places) :=
        places_refill_last (places_within hf ht)
      refine ⟨fun early hn hl => ?_, fun h hl => hl.set (fun s hc => by cases hc) fun s hc => by cases hc⟩
      exact hn.set_of_some hx (by simp [Node.headers])
        ((hn.node hx).refill_last fun hrow => hneat _ hrow (.inl fun _ _ => id))
        (fun q hq => hperm.mem_iff.2 (List.mem_append_right _ hq))
        fun _ q hq => (List.mem_append.1 (hperm.mem_iff.1 hq)).symm.imp_right fun hq => hlate hl hq

/-- A table that is opened comes last, where it is the only one with its name. -/
theorem keepsNeat_openTable {h : Header} (hl : l.after = []) (he : e.Fits false depth i j)
    (ho : Entries.openTable h l e = some u) : KeepsNeat added e u := by
  rcases Entries.openTable_cases ho with ⟨hx, rfl⟩ | ⟨t, hx, rfl⟩
  · exact ⟨fun early hn _ => hn.set_of_none hx (fun _ => hl) (isNeat_table (fun _ _ _ _ hm => by cases hm) (.nil _))
      fun hc => (by cases hc), fun k hleads => hleads.set (fun s hc => by cases hc) fun s hc => by cases hc⟩
  · have hdefined : AllDefined t := by
      cases fit_of_get? he hx with
      | leaf hw _ => cases hw
      | implicit _ _ _ hd => exact hd
    refine ⟨fun early hn _ => ?_, fun k hleads l' s hm => ?_⟩
    · obtain ⟨horder, hafter, hnodes⟩ := neat_iff.1 hn
      have hempty (k : Header) : Leads k t := fun l' s hm => by cases hdefined l' _ hm
      have htable : (Node.table (.header h) t).IsNeat early :=
        isNeat_table (fun k _ => hempty k) (((hn.node hx).table _ _ rfl).mono fun _ _ => trivial)
      exact neat_iff.2 ⟨inOrder_append (horder.sublist List.filter_sublist) fun hc => (by cases hc),
        Entries.forall_remove_append hafter fun _ => hl, Entries.forall_remove_append hnodes htable⟩
    · rcases List.mem_append.1 hm with hm | hm
      · exact hleads l' s (List.mem_filter.1 hm).1
      · cases List.mem_singleton.1 hm

/-- A table that is added to repeated ones keeps the order. -/
theorem keepsNeat_addRow {h : Header} {row : Entries} (hl : l.after = []) (hrow : Neat (fun _ => False) row)
    (he : e.Fits false depth i j) (ho : Entries.addRow h row l e = some u) : KeepsNeat added e u := by
  rcases Entries.addRow_cases ho with ⟨hx, rfl⟩ | ⟨rows, hx, rfl⟩
  · refine ⟨fun early hn _ => ?_, fun k hleads => hleads.set (fun s hc => by cases hc) fun s hc => by cases hc⟩
    refine hn.set_of_none hx (fun _ => hl) (isNeat_rows fun k t hm => ?_) fun hc => ?_
    · cases List.mem_singleton.1 hm
      exact hrow
    · cases hc
  · have hne : rows ≠ [] := by
      cases fit_of_get? he hx with
      | leaf hw _ => cases hw
      | tables _ _ hne => exact hne
    refine ⟨fun early hn _ => ?_, fun k hleads => hleads.set (fun s hc => by cases hc) fun s hc => by cases hc⟩
    have hrows := (hn.node hx).rows rows
    refine hn.set_of_some hx (by simp [Node.headers, hne])
      (isNeat_rows (forall_mem_concat (fun k t hm => hrows k t rfl hm) hrow)) (fun q hq => ?_) fun hc => ?_
    · rw [Node.places, placesOfRows_append]
      exact List.mem_append_left _ hq
    · simp [Node.headers] at hc

/-- A value that is set in the table of a header brings no headers. -/
theorem places_put_header {h : Header} {labels : List Label} (hn : n.places = [])
    (hx : e.get? l.name = some (.table (.header h) t)) (hu : Entries.within (Entries.put n labels) [l] e = some u) :
    (placesOf u).Perm ([] ++ placesOf e) := by
  rw [Entries.within_of_table hx] at hu
  obtain ⟨s, hs, rfl⟩ := Option.map_eq_some_iff.1 hu
  exact perm_placesOf_set hx ((places_put hn hs).cons _)

/-- A value that is set in the table of the last header keeps the order. -/
theorem keepsNeat_put {h : Header} {labels : List Label} (hn : n.isLeaf = true)
    (hfirst : ∀ l, labels.head? = some l → l.before = []) (hs : Sound (.table (.header h) t))
    (hlt : ∀ q ∈ placesOf t, q < h.place) (hx : e.get? l.name = some (.table (.header h) t))
    (hu : Entries.within (Entries.put n labels) [l] e = some u) : KeepsNeat added e u := by
  rw [Entries.within_of_table hx] at hu
  obtain ⟨s, ht, rfl⟩ := Option.map_eq_some_iff.1 hu
  have hperm : (Node.table (.header h) s).places.Perm (Node.table (.header h) t).places :=
    (places_put (places_of_isLeaf hn) ht).cons _
  refine ⟨fun early hneat _ => hneat.set_of_some hx (by simp [Node.headers])
    (isNeat_table ?_ (((hneat.node hx).table _ t rfl).put hn ht)) (fun q => hperm.mem_iff.2)
    fun _ q hq => .inl (hperm.mem_iff.1 hq), fun k hleads => hleads.set (fun _ hc => by cases hc) fun _ hc => by cases hc⟩
  rintro k ⟨⟩
  exact ((hneat.node hx).leads h t rfl).put hn hfirst (fun x c => sound_of_get? hs) hlt ht

end Within

/-! ## Documents -/

section Ends

/-- Nothing stands in front of the names of a key and nothing behind them, what is around them apart. -/
structure IsTrimmed (labels : List Label) : Prop where
  first : ∀ l, labels.head? = some l → l.before = []
  last : ∀ l, labels.getLast? = some l → l.after = []

theorem isTrimmed_spell (around : List Char × List Char) (first : Bool) (pairs : List (String × Segment)) :
    (first = true → ∀ l, (Key.labels.spell around first pairs).head? = some l → l.before = []) ∧
      ∀ l, (Key.labels.spell around first pairs).getLast? = some l → l.after = [] := by
  fun_induction Key.labels.spell around first pairs with
  | case1 => exact ⟨fun _ _ h => (by cases h), fun _ h => (by cases h)⟩
  | case2 first name s =>
    refine ⟨fun hf l hl => ?_, fun l hl => ?_⟩
    · cases hl
      exact if_pos hf
    · cases hl
      rfl
  | case3 first name s rest hne ih =>
    refine ⟨fun hf l hl => ?_, fun l hl => ?_⟩
    · cases hl
      exact if_pos hf
    · obtain ⟨k, ks, hk⟩ : ∃ k ks, Key.labels.spell around false rest = k :: ks := by
        cases rest with
        | nil => exact (hne rfl).elim
        | cons second more => cases more <;> exact ⟨_, _, rfl⟩
      rw [hk] at hl ih
      exact ih.2 l (by rwa [List.getLast?_cons_cons] at hl)

theorem isTrimmed_of_labels {key : Key} {labels : List Label} (h : key.labels = .ok labels) : IsTrimmed labels := by
  obtain ⟨names, -, -, -, rfl⟩ := exists_of_labels h
  obtain ⟨hfirst, hlast⟩ := isTrimmed_spell (Key.around key) true (names.zip key)
  exact ⟨hfirst rfl, hlast⟩

end Ends

/-- What a draft has read so far is neat: the open table is that of the last header. -/
inductive Document.Draft.IsNeat : Draft → Prop
  | root {e : Entries} {headers : Nat} : Neat (fun _ => False) e → Draft.IsNeat ⟨e, .table [], headers⟩
  | table {e t : Entries} {init : List Label} {l : Label} {h : Header} : Neat (fun _ => False) e →
    (tableAt init e).get? l.name = some (.table (.header h) t) → Draft.IsNeat ⟨e, .table (init ++ [l]), h.place + 1⟩
  | row {e row : Entries} {init : List Label} {l : Label} {h : Header} {headers : Nat} : Neat (fun _ => False) e →
    Neat (fun _ => False) row → l.after = [] → Draft.IsNeat ⟨e, .row h (init ++ [l]) row, headers⟩

section Drafts

variable {d d' : Draft} {line : Line} {lines : List Line} {labels : List Label}

theorem takesLate_root (e : Entries) : e.TakesLate (fun _ => False) added := .inl fun _ _ => id

/-- A draft whose repeated table is complete has a neat tree. -/
theorem Document.Draft.IsNeat.finish (h : Draft.IsNeat d) (hs : Draft.Stands d) (hd : d.finish = .ok d') :
    Neat (fun _ => False) d'.entries := by
  cases h with
  | root h =>
    cases hd
    exact h
  | table h _ =>
    cases hd
    exact h
  | @row e row init l k headers h hrow hl =>
    obtain ⟨u, hu, hd⟩ := exists_of_bind hd
    cases hd
    obtain ⟨init', l', hpath, hw⟩ := exists_of_atLast (exists_of_orMalformed hu)
    obtain ⟨rfl, rfl⟩ := List.append_inj' hpath rfl |>.imp id List.singleton_inj.1
    cases hs with
    | row hstands _ _ _ _ hnone =>
      obtain ⟨i, hfits⟩ := fits_tableAt init hstands.fits
      exact (keepsNeat_within [k.place] k.place (fun q hq => (List.mem_singleton.1 hq).ge)
        (fun u hu => places_addRow hnone hu) (fun u hu => keepsNeat_addRow hl hrow hfits hu) hstands.fits
        hstands.below hw).1 _ h (takesLate_root e)

/-- A value that is set keeps the tree neat. -/
theorem Document.Draft.IsNeat.put (h : Draft.IsNeat d) (hs : Draft.Stands d) (hn : n.isLeaf = true)
    (hl : IsTrimmed labels) (hd : d.put n labels = .ok d') : Draft.IsNeat d' := by
  cases h with
  | root h =>
    obtain ⟨u, hu, hd⟩ := exists_of_bind hd
    cases hd
    exact .root (h.put hn (exists_of_orMalformed hu))
  | @row e row init l k headers h hrow hlast =>
    obtain ⟨u, hu, hd⟩ := exists_of_bind hd
    cases hd
    exact .row h (hrow.put hn (exists_of_orMalformed hu)) hlast
  | @table e t init l k h hx =>
    obtain ⟨u, hu, hd⟩ := exists_of_bind hd
    cases hd
    have hw := exists_of_orMalformed hu
    rw [Entries.within_append] at hw
    obtain ⟨t', hx'⟩ := get?_of_within hx (tableAt_within hw)
    refine .table ?_ hx'
    have hstands : e.Stands (k.place + 1) := (hs.finish rfl).1
    obtain ⟨i, hfits⟩ := fits_tableAt init hstands.fits
    have hsub := tableAt_sublist init e
    have hnodup := nodup_places (hsub.nodup hstands.nodup) hx
    -- all headers in the open table come before its own one
    have hlt : ∀ q ∈ placesOf t, q < k.place := fun q hq => by
      have hne : q ≠ k.place := fun hc => (List.nodup_cons.1 hnodup).1 (hc ▸ hq)
      have := hstands.below q (hsub.subset (mem_placesOf_of_get? hx (List.mem_cons_of_mem _ hq)))
      omega
    exact (keepsNeat_within [] (k.place + 1) (List.forall_mem_nil _) (fun u hu => places_put_header (places_of_isLeaf hn) hx hu)
      (fun u hu => keepsNeat_put hn hl.first (fit_of_get? hfits hx).sound hlt hx hu) hstands.fits hstands.below hw).1
      _ h (takesLate_root e)

/-- Each line that is read keeps the tree neat. -/
theorem Document.Draft.IsNeat.add (h : Draft.IsNeat d) (hs : Draft.Stands d) (hl : LineRead line)
    (ha : d.add Scalar.isNarrow line = .ok d') : Draft.IsNeat d' := by
  cases hl with
  | @entry key raw hk hr =>
    obtain ⟨labels, hls, ha⟩ := exists_of_bind ha
    obtain ⟨n, hn, ha⟩ := exists_of_bind ha
    exact h.put hs (written_of_node hr hn).isLeaf (isTrimmed_of_labels hls) ha
  | @header lead tail repeated key hlead htail hk =>
    obtain ⟨v, hv, ha⟩ := exists_of_bind ha
    obtain ⟨labels, hls, ha⟩ := exists_of_bind ha
    have hneat := h.finish hs hv
    obtain ⟨hstands, -⟩ := hs.finish hv
    have hpath := (isPath_of_labels hk hls).1.ne_nil
    have htrim := isTrimmed_of_labels hls
    obtain ⟨init, l, rfl⟩ : ∃ init l, labels = init ++ [l] :=
      ⟨_, _, (List.dropLast_append_getLast hpath).symm⟩
    have hlast : l.after = [] := htrim.last l List.getLast?_concat
    cases repeated with
    | true =>
      cases ha
      exact .row hneat (.nil _) hlast
    | false =>
      obtain ⟨u, hu, ha⟩ := exists_of_bind ha
      cases ha
      have hw : Entries.within (Entries.openTable ⟨v.headers, lead, tail⟩ l) init v.entries = some u := by
        rw [← atLast_append]
        exact exists_of_orMalformed hu
      obtain ⟨t, hx⟩ := Entries.get?_openTable (tableAt_within hw)
      obtain ⟨i, hfits⟩ := fits_tableAt init hstands.fits
      refine .table (h := ⟨v.headers, lead, tail⟩) ?_ hx
      exact (keepsNeat_within [v.headers] v.headers (fun q hq => (List.mem_singleton.1 hq).ge)
        (fun u hu => places_openTable hfits.functional hu) (fun u hu => keepsNeat_openTable hlast hfits hu)
        hstands.fits hstands.below hw).1 _ hneat (takesLate_root _)

theorem Document.Draft.IsNeat.foldlM (h : Draft.IsNeat d) (hs : Draft.Stands d) (hl : ∀ line ∈ lines, LineRead line)
    (ha : lines.foldlM (Draft.add Scalar.isNarrow) d = .ok d') : Draft.IsNeat d' := by
  induction lines generalizing d with
  | nil =>
    cases ha
    exact h
  | cons line lines ih =>
    rw [List.foldlM_cons] at ha
    obtain ⟨v, hv, ha⟩ := exists_of_bind ha
    have hline := hl line List.mem_cons_self
    exact ih (h.add hs hline hv) (hs.add hline hv) (fun l hm => hl l (List.mem_cons_of_mem _ hm)) ha

/-- The tree of a document that is read is in the order of the text. -/
theorem neat_of_read {text : List Char} {doc : Document} (h : Document.read Scalar.isNarrow text = .ok doc) :
    Neat (fun _ => False) doc.entries := by
  rw [Document.read] at h
  obtain ⟨s, hs, h⟩ := exists_of_bind h
  obtain ⟨hlines, -⟩ := reads_source (exists_of_orMalformed hs)
  rw [Document.ofSource] at h
  obtain ⟨v, hv, h⟩ := exists_of_bind h
  obtain ⟨u, hu, h⟩ := exists_of_bind h
  cases h
  have hneat := Document.Draft.IsNeat.foldlM (.root (.nil _)) (.root .nil) hlines hv
  exact hneat.finish (Document.Draft.Stands.foldlM (.root .nil) hlines hv) hu

/-- A list that takes the place of a value, or of none, does too. -/
theorem neat_setList {doc : Document} {name : String} {values : List String} (h : Neat early doc.entries)
    (hx : ∀ n, doc.entries.get? name = some n → n.isLeaf = true) : Neat early (doc.setList name values).entries := by
  have hleaf : (listNode values).isLeaf = true := rfl
  cases hg : doc.entries.get? name with
  | none =>
    refine h.set_of_none (l := nameLabel name) hg (fun hne => absurd rfl hne) (isNeat_of_isLeaf hleaf) fun _ q hq => ?_
    cases hq
  | some m =>
    have hm := hx m hg
    refine h.set_of_some (l := nameLabel name) hg ⟨fun _ => headers_of_isLeaf hm, fun _ => rfl⟩ (isNeat_of_isLeaf hleaf)
      (fun q hq => ?_) fun _ q hq => ?_
    · rw [places_of_isLeaf hm] at hq
      cases hq
    · cases hq

end Drafts

end SqlLint.Toml
