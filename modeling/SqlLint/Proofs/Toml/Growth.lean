import SqlLint.Proofs.Toml.Fit

/-! # Growth of trees

One lemma for each operation: it leads from a tree that reading may give to another one, whose headers
have the places they had and those of the header that was read. -/
namespace SqlLint.Toml

/-! ## Places -/

section Places

variable {e t : Entries} {l : Label} {n m : Node} {added : List Nat}

theorem placesOf_append (e e' : Entries) : placesOf (e ++ e') = placesOf e ++ placesOf e' := by
  induction e with
  | nil => rfl
  | cons first rest ih =>
    obtain ⟨k, c⟩ := first
    rw [List.cons_append, placesOf, placesOf, ih, List.append_assoc]

theorem placesOf_singleton (l : Label) (n : Node) : placesOf [(l, n)] = n.places := by
  rw [placesOf, placesOf, List.append_nil]

theorem placesOf_set_of_none (h : e.get? l.name = none) : placesOf (e.set l n) = placesOf e ++ n.places := by
  rw [Entries.set_of_none h, placesOf_append, placesOf_singleton]

theorem perm_places {a b c : List Nat} (h : a.Perm (added ++ b)) : (a ++ c).Perm (added ++ (b ++ c)) := by
  rw [← List.append_assoc]
  exact h.append_right c

theorem perm_places_left {a b c : List Nat} (h : a.Perm (added ++ b)) : (c ++ a).Perm (added ++ (c ++ b)) := by
  have hc : (c ++ (added ++ b)).Perm (added ++ (c ++ b)) := by
    rw [← List.append_assoc, ← List.append_assoc]
    exact List.perm_append_comm.append_right b
  exact (h.append_left c).trans hc

theorem placesOf_set_of_some (h : e.get? l.name = some m) (hp : n.places.Perm (added ++ m.places)) :
    (placesOf (e.set l n)).Perm (added ++ placesOf e) := by
  obtain ⟨front, k, back, rfl, hset, -⟩ := Entries.exists_split h
  rw [hset, placesOf_append, placesOf_append, placesOf, placesOf]
  exact perm_places_left (perm_places hp)

theorem placesOf_remove (hf : e.IsFunctional) (h : e.get? l.name = some m)
    (hp : n.places.Perm (added ++ m.places)) :
    (placesOf (e.remove l.name ++ [(l, n)])).Perm (added ++ placesOf e) := by
  obtain ⟨front, k, back, rfl, -, hremove⟩ := Entries.exists_split h
  have hmoved : (placesOf back ++ n.places).Perm (n.places ++ placesOf back) := List.perm_append_comm
  rw [hremove hf, placesOf_append, placesOf_append, placesOf_append, placesOf_singleton, placesOf, List.append_assoc]
  exact (hmoved.append_left _).trans (perm_places_left (perm_places hp))

theorem placesOfRows_append (rows rows' : List (Header × Entries)) :
    placesOfRows (rows ++ rows') = placesOfRows rows ++ placesOfRows rows' := by
  induction rows with
  | nil => rfl
  | cons first rest ih =>
    obtain ⟨k, c⟩ := first
    rw [List.cons_append, placesOfRows, placesOfRows, ih, List.append_assoc]

theorem placesOfRows_singleton (h : Header) (t : Entries) : placesOfRows [(h, t)] = h.place :: placesOf t := by
  rw [placesOfRows, placesOfRows, List.append_nil]

end Places

variable {inside : Bool} {depth i j : Nat} {n m : Node} {e t u : Entries} {l : Label} {added : List Nat}

/-! ## Changes under one name -/

theorem Label.Fits.mono (hl : l.Fits inside m) (hleaf : n.isLeaf = true → m.isLeaf = true)
    (hdefined : n.isDefined = true → m.isDefined = true) : l.Fits inside n :=
  ⟨hl.spelled, fun h => hl.leaf (hleaf h), fun h => hl.defined (hdefined h)⟩

/-- What becomes of a tree: it still fits, and the places of some headers were added. -/
structure Grown (inside : Bool) (depth i j : Nat) (added : List Nat) (t u : Entries) : Prop where
  fits : u.Fits inside depth i j
  ne_nil : u ≠ []
  places : (placesOf u).Perm (added ++ placesOf t)

theorem set_ne_nil (l : Label) (n : Node) (e : Entries) : e.set l n ≠ [] := by
  cases e with
  | nil => simp [Entries.set]
  | cons first rest =>
    obtain ⟨k, c⟩ := first
    rw [Entries.set]
    split <;> simp

theorem fits_set (he : e.Fits inside depth i j) (hn : Fit inside depth i j n)
    (hnew : e.get? l.name = none → l.Fits inside n)
    (hold : ∀ m, e.get? l.name = some m → ∀ k : Label, k.Fits inside m → k.Fits inside n) :
    (e.set l n).Fits inside depth i j := by
  refine ⟨Entries.isFunctional_set l n he.functional, ?_, ?_⟩
  · exact Entries.forall_set he.labels hnew fun k m hm hg _ => hold m hg k (he.labels k m hm)
  · exact Entries.forall_set he.nodes (fun _ => hn) fun _ _ _ _ _ => hn

theorem grown_set_of_none (he : e.Fits inside depth i j) (hx : e.get? l.name = none) (hn : Fit inside depth i j n)
    (hl : l.Fits inside n) (hp : n.places = added) : Grown inside depth i j added e (e.set l n) := by
  refine ⟨fits_set he hn (fun _ => hl) fun m hm => ?_, set_ne_nil l n e, ?_⟩
  · rw [hx] at hm
    cases hm
  · rw [placesOf_set_of_none hx, hp]
    exact List.perm_append_comm

theorem grown_set_of_some (he : e.Fits inside depth i j) (hx : e.get? l.name = some m) (hn : Fit inside depth i j n)
    (hleaf : n.isLeaf = true → m.isLeaf = true) (hdefined : n.isDefined = true → m.isDefined = true)
    (hp : n.places.Perm (added ++ m.places)) : Grown inside depth i j added e (e.set l n) := by
  refine ⟨fits_set he hn (fun h => ?_) fun m' hm k hk => ?_, set_ne_nil l n e, placesOf_set_of_some hx hp⟩
  · rw [hx] at h
    cases h
  · rw [hx] at hm
    cases hm
    exact hk.mono hleaf hdefined

theorem allDefined_set (he : AllDefined e) (hn : n.isDefined = true) : AllDefined (e.set l n) :=
  Entries.forall_set he (fun _ => hn) fun _ _ _ _ _ => hn

theorem fits_nil (inside : Bool) (depth i j : Nat) : Entries.Fits inside depth i j [] :=
  ⟨List.nodup_nil, fun _ _ h => (by cases h), fun _ _ h => (by cases h)⟩

theorem fit_of_get? (he : e.Fits inside depth i j) {x : String} (hx : e.get? x = some n) : Fit inside depth i j n := by
  obtain ⟨l, -, hm⟩ := Entries.mem_of_get? hx
  exact he.nodes l n hm

theorem Fit.of_isDefined (h : Fit inside depth i j n) (hn : n.isDefined = true) (k : Nat) : Fit inside depth i k n := by
  cases h with
  | leaf hw _ =>
    cases n with
    | scalar | array | inline => cases hn
    | table | tables => cases hw
  | dotted => cases hn
  | implicit hin hf hne hd hl hfit => exact .implicit hin hf hne hd hl hfit
  | header hin hi hh hf hl hfit => exact .header hin hi hh hf hl hfit
  | tables hin hi hne hr hl hfit hp => exact .tables hin hi hne hr hl hfit hp

/-- A table may get other entries, which must be tables where it was only named. -/
theorem Fit.refill {o : Origin} (h : Fit inside depth i j (.table o t)) :
    ∃ k, t.Fits inside depth (i + 1) k ∧ (o = .implicit → AllDefined t) ∧ (o.header?.isSome = true → k = 1) ∧
      ∀ u : Entries, u.Fits inside depth (i + 1) k → u ≠ [] → (o = .implicit → AllDefined u) →
        Fit inside depth i j (.table o u) := by
  cases h with
  | leaf hw _ => cases hw
  | dotted hf hne hl hfit =>
    exact ⟨j + 1, ⟨hf, hl, hfit⟩, fun h => (by cases h), fun h => (by cases h),
      fun u hu hne _ => .dotted hu.functional hne hu.labels hu.nodes⟩
  | implicit hin hf hne hd hl hfit =>
    exact ⟨1, ⟨hf, hl, hfit⟩, fun _ => hd, fun _ => rfl,
      fun u hu hne hd => .implicit hin hu.functional hne (hd rfl) hu.labels hu.nodes⟩
  | header hin hi hh hf hl hfit =>
    exact ⟨1, ⟨hf, hl, hfit⟩, fun h => (by cases h), fun _ => rfl,
      fun u hu _ _ => .header hin hi hh hu.functional hu.labels hu.nodes⟩

theorem places_refill (o : Origin) (h : (placesOf u).Perm (added ++ placesOf t)) :
    (Node.table o u).places.Perm (added ++ (Node.table o t).places) := by
  cases o with
  | header k => exact (h.cons _).trans List.perm_middle.symm
  | _ => exact h

/-- The last of repeated tables may get other entries, if all headers that were added come later. -/
theorem Fit.refill_last {init : List (Header × Entries)} {k : Header}
    (h : Fit inside depth i j (.tables (init ++ [(k, t)]))) :
    t.Fits inside depth (i + 1) 1 ∧ ∀ (u : Entries) (added : List Nat), u.Fits inside depth (i + 1) 1 →
      (placesOf u).Perm (added ++ placesOf t) → (∀ q ∈ added, k.place < q) →
        Fit inside depth i j (.tables (init ++ [(k, u)])) := by
  cases h with
  | leaf hw _ => cases hw
  | tables hin hi _ hr hl hfit hp =>
    have hmem : (k, t) ∈ init ++ [(k, t)] := List.mem_append.2 (.inr (List.mem_singleton.2 rfl))
    obtain ⟨hh, hf, hlt⟩ := hr k t hmem
    refine ⟨⟨hf, hl k t hmem, hfit k t hmem⟩, fun u added hu hperm hadded => ?_⟩
    have hinit {h' : Header} {t' : Entries} (hm : (h', t') ∈ init) : (h', t') ∈ init ++ [(k, t)] :=
      List.mem_append_left _ hm
    have hlater : ∀ q ∈ placesOf u, k.place < q := fun q hq =>
      (List.mem_append.1 (hperm.mem_iff.1 hq)).elim (hadded q) (hlt q)
    exact .tables hin hi (by simp)
      (forall_mem_concat (fun h' t' hm => hr h' t' (hinit hm)) ⟨hh, hu.functional, hlater⟩)
      (forall_mem_concat (fun h' t' hm => hl h' t' (hinit hm)) hu.labels)
      (forall_mem_concat (fun h' t' hm => hfit h' t' (hinit hm)) hu.nodes) (pairwise_replace_last hp fun _ h => h)

theorem places_refill_last {init : List (Header × Entries)} {k : Header}
    (h : (placesOf u).Perm (added ++ placesOf t)) :
    (Node.tables (init ++ [(k, u)])).places.Perm (added ++ (Node.tables (init ++ [(k, t)])).places) := by
  rw [Node.places, Node.places, placesOfRows_append, placesOfRows_append, placesOfRows_singleton, placesOfRows_singleton]
  exact perm_places_left ((h.cons _).trans List.perm_middle.symm)

/-! ## Operations -/

/-- A value that is set by a key. -/
theorem grown_put {labels : List Label} (hw : Written inside depth n)
    (hl : ∀ l ∈ labels, l.IsSpelled ∧ ∀ a, l.around = some a → IsAround inside a)
    (he : e.Fits inside depth i j) (hlen : j + labels.length ≤ Key.limit + 1) (h : e.put n labels = some u) :
    Grown inside depth i j [] e u := by
  induction labels generalizing e i j u with
  | nil => cases h
  | cons l ls ih =>
    obtain ⟨hspelled, haround⟩ := hl l List.mem_cons_self
    have hdotted (t : Entries) : l.Fits inside (.table .dotted t) :=
      ⟨hspelled, fun h => (by cases h), fun h => (by cases h)⟩
    cases ls with
    | nil =>
      obtain ⟨hx, rfl⟩ := Entries.put_last h
      rw [List.length_singleton] at hlen
      have hleaf := hw.isLeaf
      refine grown_set_of_none he hx (.leaf hw (by omega)) ?_ (places_of_isLeaf hleaf)
      refine ⟨hspelled, fun _ => haround, fun hd => ?_⟩
      cases n with
      | scalar | array | inline => cases hd
      | table | tables => cases hleaf
    | cons l' ls =>
      have hl' : ∀ k ∈ l' :: ls, k.IsSpelled ∧ ∀ a, k.around = some a → IsAround inside a :=
        fun k hk => hl k (List.mem_cons_of_mem _ hk)
      have hlen' : j + 1 + (l' :: ls).length ≤ Key.limit + 1 := by
        rw [List.length_cons] at hlen
        omega
      cases Entries.put_cons h with
      | new hx ht =>
        have hg := ih hl' (fits_nil inside depth (i + 1) (j + 1)) hlen' ht
        refine grown_set_of_none he hx (.dotted hg.fits.functional hg.ne_nil hg.fits.labels hg.fits.nodes) (hdotted _) ?_
        exact List.perm_nil.1 hg.places
      | @table o t t' ho hx ht =>
        have hfit : t.Fits inside depth (i + 1) (j + 1) := by
          cases fit_of_get? he hx with
          | leaf hw _ => cases hw
          | dotted hf _ hl hfit => exact ⟨hf, hl, hfit⟩
          | implicit _ hf _ hd hl hfit => exact ⟨hf, hl, fun k c hm => (hfit k c hm).of_isDefined (hd k c hm) _⟩
          | header => cases ho
        have hg := ih hl' hfit hlen' ht
        refine grown_set_of_some he hx (.dotted hg.fits.functional hg.ne_nil hg.fits.labels hg.fits.nodes)
          (fun h => (by cases h)) (fun h => (by cases h)) ?_
        rw [places_of_header?_eq_none ho]
        exact hg.places
      | row hx ht =>
        obtain ⟨hfit, hrefill⟩ := (fit_of_get? he hx).refill_last
        have hg := ih hl' hfit (by rw [List.length_cons] at hlen' ⊢; omega) ht
        exact grown_set_of_some he hx (hrefill _ [] hg.fits hg.places fun _ h => (by cases h)) (fun h => h) (fun h => h)
          (places_refill_last hg.places)

/-- A label of a header: what stands around it are blanks. -/
structure Label.IsOfHeader (l : Label) : Prop where
  spelled : l.IsSpelled
  around : ∀ a, l.around = some a → IsBlanks a.1 ∧ IsBlanks a.2

theorem Label.IsOfHeader.fits (hl : l.IsOfHeader) (hn : n.isLeaf = false) : l.Fits inside n := by
  refine ⟨hl.spelled, fun h => ?_, fun _ => hl.around⟩
  rw [hn] at h
  cases h

variable {f : Entries → Option Entries} {path : List Label} {bound : Nat}

/-- The table that a path leads to; an empty one if there is none. -/
def tableAt : List Label → Entries → Entries
  | [], e => e
  | l :: ls, e =>
    match e.get? l.name with
    | some (.table _ t) => tableAt ls t
    | some (.tables rows) => tableAt ls ((rows.getLast?.map Prod.snd).getD [])
    | _ => tableAt ls []

theorem tableAt_of_none (hx : e.get? l.name = none) : tableAt (l :: path) e = tableAt path [] := by
  simp [tableAt, hx]

theorem tableAt_of_table {o : Origin} (hx : e.get? l.name = some (.table o t)) :
    tableAt (l :: path) e = tableAt path t := by
  simp [tableAt, hx]

theorem tableAt_of_tables {init : List (Header × Entries)} {k : Header}
    (hx : e.get? l.name = some (.tables (init ++ [(k, t)]))) : tableAt (l :: path) e = tableAt path t := by
  simp [tableAt, hx]

/-- A change of the table that a path leads to is a change of that table. -/
theorem tableAt_within (h : Entries.within f path e = some u) : f (tableAt path e) = some (tableAt path u) := by
  induction path generalizing e u with
  | nil => exact h
  | cons l ls ih =>
    have hset (n : Node) : (e.set l n).get? l.name = some n := by rw [Entries.get?_set, if_pos rfl]
    cases Entries.within_cons h with
    | new hx ht =>
      rw [tableAt_of_none hx, tableAt_of_table (hset _)]
      exact ih ht
    | table hx ht =>
      rw [tableAt_of_table hx, tableAt_of_table (hset _)]
      exact ih ht
    | row hx ht =>
      rw [tableAt_of_tables hx, tableAt_of_tables (hset _)]
      exact ih ht

/-- A change of the table that a path leads to. All headers that it adds come after those that are there. -/
theorem grown_within (hadded : ∀ q ∈ added, bound ≤ q) (hp : ∀ l ∈ path, l.IsOfHeader)
    (hf : ∀ (u : Entries) (k : Nat), (tableAt path e).Fits false depth (i + path.length) k →
      (∀ q ∈ placesOf (tableAt path e), q < bound) → f (tableAt path e) = some u →
      Grown false depth (i + path.length) k added (tableAt path e) u ∧ (AllDefined (tableAt path e) → AllDefined u))
    (he : e.Fits false depth i j) (hb : ∀ q ∈ placesOf e, q < bound) (h : Entries.within f path e = some u) :
    Grown false depth i j added e u ∧ (AllDefined e → AllDefined u) := by
  induction path generalizing e u i j with
  | nil => exact hf u j he hb h
  | cons l ls ih =>
    have hl := hp l List.mem_cons_self
    have hls := fun k hk => hp k (List.mem_cons_of_mem l hk)
    have hlen : i + (l :: ls).length = i + 1 + ls.length := by
      rw [List.length_cons]
      omega
    rw [hlen] at hf
    cases Entries.within_cons h with
    | @new t hx ht =>
      rw [tableAt_of_none hx] at hf
      obtain ⟨hg, hd⟩ := ih (j := 1) hls hf (fits_nil ..) (fun _ h => (by cases h)) ht
      have hfit : Fit false depth i j (.table .implicit t) :=
        .implicit rfl hg.fits.functional hg.ne_nil (hd fun _ _ h => (by cases h)) hg.fits.labels hg.fits.nodes
      refine ⟨?_, fun ha => allDefined_set ha rfl⟩
      obtain ⟨hfits, hne, hperm⟩ := grown_set_of_none he hx hfit (hl.fits rfl) rfl
      refine ⟨hfits, hne, hperm.trans ?_⟩
      have hplaces := hg.places
      rw [show placesOf [] = [] from rfl, List.append_nil] at hplaces
      exact hplaces.append_right _
    | @table o t t' hx ht =>
      rw [tableAt_of_table hx] at hf
      obtain ⟨k, hfit, hall, -, hrefill⟩ := (fit_of_get? he hx).refill
      obtain ⟨hg, hd⟩ := ih hls hf hfit
        (fun q hq => hb q (mem_placesOf_of_get? hx (placesOf_subset o t hq))) ht
      have hfit' := hrefill t' hg.fits hg.ne_nil fun ho => hd (hall ho)
      have hsame : (Node.table o t').isDefined = (Node.table o t).isDefined := by cases o <;> rfl
      refine ⟨grown_set_of_some he hx hfit' (fun h => h) (fun h => hsame ▸ h) (places_refill o hg.places), fun ha => ?_⟩
      obtain ⟨l', -, hm⟩ := Entries.mem_of_get? hx
      exact allDefined_set ha (hsame ▸ ha l' _ hm)
    | @row init k t t' hx ht =>
      rw [tableAt_of_tables hx] at hf
      obtain ⟨hfit, hrefill⟩ := (fit_of_get? he hx).refill_last
      have hin {q : Nat} (hq : q ∈ k.place :: placesOf t) : q < bound := by
        refine hb q (mem_placesOf_of_get? hx (mem_placesOfRows.2 ⟨k, t, ?_, hq⟩))
        exact List.mem_append.2 (.inr (List.mem_singleton.2 rfl))
      obtain ⟨hg, -⟩ := ih hls hf hfit (fun q hq => hin (List.mem_cons_of_mem _ hq)) ht
      have hfit' := hrefill t' added hg.fits hg.places fun q hq => Nat.lt_of_lt_of_le (hin List.mem_cons_self) (hadded q hq)
      exact ⟨grown_set_of_some he hx hfit' (fun h => h) (fun h => h) (places_refill_last hg.places),
        fun ha => allDefined_set ha rfl⟩

/-- A value that is set in the table of a header. -/
theorem grown_put_header {labels : List Label} {h : Header} (hw : Written false depth n)
    (hl : ∀ k ∈ labels, k.IsSpelled ∧ ∀ a, k.around = some a → IsAround false a) (hlen : labels.length ≤ Key.limit)
    (he : e.Fits false depth i j) (hx : e.get? l.name = some (.table (.header h) t))
    (hu : Entries.within (Entries.put n labels) [l] e = some u) :
    Grown false depth i j [] e u ∧ (AllDefined e → AllDefined u) := by
  rw [Entries.within_of_table hx] at hu
  obtain ⟨t', ht, rfl⟩ := Option.map_eq_some_iff.1 hu
  obtain ⟨k, hfit, -, hone, hrefill⟩ := (fit_of_get? he hx).refill
  have hk : k = 1 := hone rfl
  subst hk
  have hg := grown_put hw hl hfit (by omega) ht
  have hfit' := hrefill t' hg.fits hg.ne_nil fun h => (by cases h)
  exact ⟨grown_set_of_some he hx hfit' (fun h => h) (fun h => h) (places_refill _ hg.places),
    fun ha => allDefined_set ha rfl⟩

/-- The table of a header that is opened. -/
theorem grown_openTable {h : Header} (hi : i ≤ Key.limit) (hh : h.IsSpelled) (hl : l.IsOfHeader)
    (he : e.Fits false depth i j) (ho : Entries.openTable h l e = some u) :
    Grown false depth i j [h.place] e u ∧ (AllDefined e → AllDefined u) := by
  rcases Entries.openTable_cases ho with ⟨hx, rfl⟩ | ⟨t, hx, rfl⟩
  · have hfit : Fit false depth i j (.table (.header h) []) :=
      .header rfl hi hh List.nodup_nil (fun _ _ h => (by cases h)) fun _ _ h => (by cases h)
    exact ⟨grown_set_of_none he hx hfit (hl.fits rfl) rfl, fun ha => allDefined_set ha rfl⟩
  · have hfit : Fit false depth i j (.table (.header h) t) := by
      cases fit_of_get? he hx with
      | leaf hw _ => cases hw
      | implicit _ hf _ _ hl hfit => exact .header rfl hi hh hf hl hfit
    have hfits : Entries.Fits false depth i j (e.remove l.name ++ [(l, .table (.header h) t)]) :=
      ⟨Entries.isFunctional_remove_append l _ he.functional, Entries.forall_remove_append he.labels (hl.fits rfl),
        Entries.forall_remove_append he.nodes hfit⟩
    exact ⟨⟨hfits, by simp, placesOf_remove he.functional hx (List.Perm.refl _)⟩,
      fun ha => Entries.forall_remove_append ha rfl⟩

/-- A table that is added to repeated ones. Its header comes after all others. -/
theorem grown_addRow {h : Header} {row : Entries} (hi : i ≤ Key.limit) (hh : h.IsSpelled) (hl : l.IsOfHeader)
    (hrow : row.Fits false depth (i + 1) 1) (hplaces : placesOf row = []) (he : e.Fits false depth i j)
    (hb : ∀ q ∈ placesOf e, q < h.place) (ho : Entries.addRow h row l e = some u) :
    Grown false depth i j [h.place] e u ∧ (AllDefined e → AllDefined u) := by
  have hnone : ∀ q ∈ placesOf row, h.place < q := by
    rw [hplaces]
    exact fun _ h => (by cases h)
  rcases Entries.addRow_cases ho with ⟨hx, rfl⟩ | ⟨rows, hx, rfl⟩
  · have hfit : Fit false depth i j (.tables [(h, row)]) := by
      refine .tables rfl hi (by simp) (fun k t hm => ?_) (fun k t hm => ?_) (fun k t hm => ?_) (List.pairwise_singleton _ _)
      · obtain ⟨rfl, rfl⟩ := Prod.mk.inj (List.mem_singleton.1 hm)
        exact ⟨hh, hrow.functional, hnone⟩
      · obtain ⟨rfl, rfl⟩ := Prod.mk.inj (List.mem_singleton.1 hm)
        exact hrow.labels
      · obtain ⟨rfl, rfl⟩ := Prod.mk.inj (List.mem_singleton.1 hm)
        exact hrow.nodes
    refine ⟨grown_set_of_none he hx hfit (hl.fits rfl) ?_, fun ha => allDefined_set ha rfl⟩
    rw [Node.places, placesOfRows_singleton, hplaces]
  · have hrows : ∀ r ∈ rows, ∀ q ∈ r.1.place :: placesOf r.2, q < h.place := fun r hr q hq =>
      hb q (mem_placesOf_of_get? hx (mem_placesOfRows.2 ⟨r.1, r.2, hr, hq⟩))
    have hfit : Fit false depth i j (.tables (rows ++ [(h, row)])) := by
      cases fit_of_get? he hx with
      | leaf hw _ => cases hw
      | tables _ _ _ hr hlabels hnodes hp =>
        exact .tables rfl hi (by simp) (forall_mem_concat hr ⟨hh, hrow.functional, hnone⟩)
          (forall_mem_concat hlabels hrow.labels) (forall_mem_concat hnodes hrow.nodes) (pairwise_concat hp hrows)
    refine ⟨grown_set_of_some he hx hfit (fun h => h) (fun h => h) ?_, fun ha => allDefined_set ha rfl⟩
    rw [Node.places, Node.places, placesOfRows_append, placesOfRows_singleton, hplaces]
    exact List.perm_append_comm

end SqlLint.Toml
