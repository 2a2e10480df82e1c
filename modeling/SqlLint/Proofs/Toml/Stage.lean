import SqlLint.Proofs.Toml.Entries
import Mathlib.Data.List.Nodup
import Mathlib.Data.List.Pairwise

/-! # Trees at a stage of their reading

A tree that is read section by section is, at each stage, a part of the whole one: it has the sections
that were read, the tables named on the way to them, and of the section that is being read the values
that were set. One more value or one more section leads from a stage to the next. -/
namespace SqlLint.Toml

mutual
/-- The places of the headers in a node. -/
def Node.places : Node → List Nat
  | .table (.header h) t => h.place :: placesOf t
  | .table _ t => placesOf t
  | .tables rows => placesOfRows rows
  | _ => []

def placesOf : List (Label × Node) → List Nat
  | [] => []
  | (_, n) :: rest => n.places ++ placesOf rest

def placesOfRows : List (Header × List (Label × Node)) → List Nat
  | [] => []
  | (h, row) :: rows => h.place :: placesOf row ++ placesOfRows rows
end

/-- Whether a node is a table or tables that headers speak of. -/
def Node.isDefined : Node → Bool
  | .table .dotted _ => false
  | .table _ _ | .tables _ => true
  | _ => false

/-- A tree whose names are not repeated. A table without a header is not empty, and one that was only
named holds tables and nothing else. The headers of repeated tables, and of what is in them, follow one
another. -/
inductive Sound : Node → Prop
  | leaf {n : Node} : n.isLeaf = true → Sound n
  | table {o : Origin} {t : Entries} : t.IsFunctional → (o.header? = none → t ≠ []) →
    (o = .implicit → ∀ l n, (l, n) ∈ t → n.isDefined = true) → (∀ l n, (l, n) ∈ t → Sound n) →
    Sound (.table o t)
  | tables {rows : List (Header × Entries)} : rows ≠ [] →
    (∀ h t, (h, t) ∈ rows → ∀ q ∈ placesOf t, h.place < q) →
    (∀ h t, (h, t) ∈ rows → Sound (.table (.header h) t)) →
    rows.Pairwise (fun r r' => ∀ q ∈ r.1.place :: placesOf r.2, q < r'.1.place) → Sound (.tables rows)

section Places

variable {e t : Entries} {x : String} {n : Node} {q : Nat} {rows : List (Header × Entries)}

theorem placesOf_eq_flatMap (e : Entries) : placesOf e = e.flatMap fun entry => entry.2.places := by
  induction e with
  | nil => rfl
  | cons entry rest ih => rw [placesOf, List.flatMap_cons, ih]

theorem placesOfRows_eq_flatMap (rows : List (Header × Entries)) :
    placesOfRows rows = rows.flatMap fun r => r.1.place :: placesOf r.2 := by
  induction rows with
  | nil => rfl
  | cons r rows ih => rw [placesOfRows, List.flatMap_cons, ih]

theorem mem_placesOf : q ∈ placesOf e ↔ ∃ l n, (l, n) ∈ e ∧ q ∈ n.places := by
  rw [placesOf_eq_flatMap, List.mem_flatMap, Prod.exists]

theorem mem_placesOf_of_get? (h : e.get? x = some n) (hq : q ∈ n.places) : q ∈ placesOf e := by
  obtain ⟨l, -, hm⟩ := Entries.mem_of_get? h
  exact mem_placesOf.2 ⟨l, n, hm, hq⟩

theorem mem_placesOfRows : q ∈ placesOfRows rows ↔ ∃ h t, (h, t) ∈ rows ∧ q ∈ h.place :: placesOf t := by
  rw [placesOfRows_eq_flatMap, List.mem_flatMap, Prod.exists]

/-- Where no place is repeated, two names have no place in common. -/
theorem disjoint_places (hd : (placesOf e).Nodup) {y : String} {m : Node} (hxy : x ≠ y)
    (hx : e.get? x = some n) (hy : e.get? y = some m) (hq : q ∈ n.places) : q ∉ m.places := by
  obtain ⟨l, rfl, hl⟩ := Entries.mem_of_get? hx
  obtain ⟨k, rfl, hk⟩ := Entries.mem_of_get? hy
  rw [placesOf_eq_flatMap, List.nodup_flatMap] at hd
  have hne : (l, n) ≠ (k, m) := fun h => hxy (by cases h; rfl)
  have hsymm : Std.Symm (Function.onFun List.Disjoint fun entry : Label × Node => entry.2.places) :=
    ⟨fun _ _ h => List.disjoint_symm h⟩
  exact fun hq' => hd.2.forall hl hk hne hq hq'

theorem nodup_places (hd : (placesOf e).Nodup) (hx : e.get? x = some n) : n.places.Nodup := by
  obtain ⟨l, -, hm⟩ := Entries.mem_of_get? hx
  rw [placesOf_eq_flatMap, List.nodup_flatMap] at hd
  exact hd.1 (l, n) hm

theorem nodup_placesOf_row (hd : (placesOfRows rows).Nodup) {h : Header} (hm : (h, t) ∈ rows) :
    (h.place :: placesOf t).Nodup := by
  rw [placesOfRows_eq_flatMap, List.nodup_flatMap] at hd
  exact hd.1 (h, t) hm

theorem nodup_placesOf_table {o : Origin} (hd : (Node.table o t).places.Nodup) : (placesOf t).Nodup := by
  cases o with
  | header h => exact (List.nodup_cons.1 hd).2
  | _ => exact hd

end Places

/-- Whether anything of a node is there: of its sections those are whose places are done, and of the
values outside of them those are that are found here. -/
inductive Present (done : Nat → Prop) : (List String → Prop) → Node → Prop
  | leaf {here : List String → Prop} {n : Node} : n.isLeaf = true → here [] → Present done here n
  | inside {here : List String → Prop} {o : Origin} {t : Entries} {x : String} {n : Node} :
    o.header? = none → t.get? x = some n → Present done (fun p => here (x :: p)) n →
    Present done here (.table o t)
  | header {here : List String → Prop} {h : Header} {t : Entries} : done h.place →
    Present done here (.table (.header h) t)
  | under {here : List String → Prop} {h : Header} {t : Entries} {x : String} {n : Node} :
    t.get? x = some n → Present done (fun _ => False) n → Present done here (.table (.header h) t)
  | row {here : List String → Prop} {rows : List (Header × Entries)} {h : Header} {t : Entries} :
    (h, t) ∈ rows → done h.place → Present done here (.tables rows)

/-- The names that lead to a value of a node outside of its sections. -/
inductive Owns : Node → List String → Prop
  | leaf {n : Node} : n.isLeaf = true → Owns n []
  | inside {o : Origin} {t : Entries} {x : String} {n : Node} {p : List String} : o.header? = none →
    t.get? x = some n → Owns n p → Owns (.table o t) (x :: p)

/-- How a table came to be at a stage and in the end, and which of its own values are there. -/
inductive Stands (done : Nat → Prop) (here : List String → Prop) :
    Origin → Origin → (List String → Prop) → Prop
  | named {o o' : Origin} : o.header? = none → o'.header? = none → Stands done here o o' here
  | opened {h h' : Header} : done h'.place → Stands done here (.header h) (.header h') fun _ => True
  | closed {h : Header} : ¬ done h.place → Stands done here .implicit (.header h) fun _ => False

/-- A node at a stage, and the whole one. -/
inductive Part (done : Nat → Prop) : (List String → Prop) → Node → Node → Prop
  | leaf {here : List String → Prop} {n m : Node} : n.isLeaf = true → m.isLeaf = true →
    n.value = m.value → Part done here n m
  | table {here there : List String → Prop} {o o' : Origin} {t t' : Entries} :
    Stands done here o o' there →
    (∀ x n m, t.get? x = some n → t'.get? x = some m → Part done (fun p => there (x :: p)) n m) →
    (∀ x, (t.get? x).isSome ↔ ∃ m, t'.get? x = some m ∧ Present done (fun p => there (x :: p)) m) →
    Part done here (.table o t) (.table o' t')
  | rows {here : List String → Prop} {rows rows' : List (Header × Entries)} :
    rows.length ≤ rows'.length →
    (∀ (i : Nat) (h : Header) (t : Entries), rows'[i]? = some (h, t) → (done h.place ↔ i < rows.length)) →
    (∀ (i : Nat) (h h' : Header) (t t' : Entries), rows[i]? = some (h, t) → rows'[i]? = some (h', t') →
      Part done (fun _ => False) (.table (.header h) t) (.table (.header h') t')) →
    Part done here (.tables rows) (.tables rows')

/-- Entries at a stage, and all of them. -/
structure Parts (done : Nat → Prop) (here : List String → Prop) (t t' : Entries) : Prop where
  each : ∀ x n m, t.get? x = some n → t'.get? x = some m → Part done (fun p => here (x :: p)) n m
  all : ∀ x, (t.get? x).isSome ↔ ∃ m, t'.get? x = some m ∧ Present done (fun p => here (x :: p)) m

section

variable {done done' : Nat → Prop} {here here' : List String → Prop} {n m : Node} {t t' : Entries}

theorem places_of_header?_eq_none {o : Origin} (h : o.header? = none) (t : Entries) :
    (Node.table o t).places = placesOf t := by
  cases o with
  | header h' => cases h
  | _ => rfl

theorem placesOf_subset (o : Origin) (t : Entries) {q : Nat} (h : q ∈ placesOf t) :
    q ∈ (Node.table o t).places := by
  cases o with
  | header h' => exact List.mem_cons_of_mem _ h
  | _ => exact h

theorem part_table_iff {o o' : Origin} : Part done here (.table o t) (.table o' t') ↔
    ∃ there, Stands done here o o' there ∧ Parts done there t t' := by
  constructor
  · intro h
    cases h with
    | leaf h => cases h
    | table hs he ha => exact ⟨_, hs, he, ha⟩
  · rintro ⟨there, hs, he, ha⟩
    exact .table hs he ha

/-- What has neither a section that is done nor a value that is here is not there. -/
theorem Present.exists (h : Present done here m) : (∃ p, Owns m p ∧ here p) ∨ ∃ q ∈ m.places, done q := by
  induction h with
  | leaf hl hh => exact .inl ⟨_, .leaf hl, hh⟩
  | inside ho hg _ ih =>
    rcases ih with ⟨p, hown, hp⟩ | ⟨q, hq, hd⟩
    · exact .inl ⟨_, .inside ho hg hown, hp⟩
    · exact .inr ⟨q, placesOf_subset _ _ (mem_placesOf_of_get? hg hq), hd⟩
  | header hd => exact .inr ⟨_, List.mem_cons_self, hd⟩
  | under hg _ ih =>
    rcases ih with ⟨p, -, hp⟩ | ⟨q, hq, hd⟩
    · exact hp.elim
    · exact .inr ⟨q, List.mem_cons_of_mem _ (mem_placesOf_of_get? hg hq), hd⟩
  | row hm hd => exact .inr ⟨_, mem_placesOfRows.2 ⟨_, _, hm, List.mem_cons_self⟩, hd⟩

/-- More that is done and more values leave more there. -/
theorem Present.mono (h : Present done here m) (hd : ∀ q ∈ m.places, done q → done' q)
    (hh : ∀ p, Owns m p → here p → here' p) : Present done' here' m := by
  induction h generalizing here' with
  | leaf hl h => exact .leaf hl (hh _ (.leaf hl) h)
  | inside ho hg _ ih =>
    exact .inside ho hg (ih (fun q hq => hd q (placesOf_subset _ _ (mem_placesOf_of_get? hg hq)))
      fun p hp => hh _ (.inside ho hg hp))
  | header h => exact .header (hd _ List.mem_cons_self h)
  | under hg _ ih =>
    exact .under hg (ih (fun q hq => hd q (List.mem_cons_of_mem _ (mem_placesOf_of_get? hg hq))) fun _ _ => id)
  | row hm h => exact .row hm (hd _ (mem_placesOfRows.2 ⟨_, _, hm, List.mem_cons_self⟩) h)

theorem Present.congr (hd : ∀ q ∈ m.places, done q ↔ done' q) (hh : ∀ p, Owns m p → (here p ↔ here' p)) :
    Present done here m ↔ Present done' here' m :=
  ⟨fun h => h.mono (fun q hq => (hd q hq).1) fun p hp => (hh p hp).1,
    fun h => h.mono (fun q hq => (hd q hq).2) fun p hp => (hh p hp).2⟩

/-- Whether a place is done matters only where a header has it, and whether a value is here only where
there is one. -/
theorem Part.congr (h : Part done here n m) (hd : ∀ q ∈ m.places, done q ↔ done' q)
    (hh : ∀ p, Owns m p → (here p ↔ here' p)) : Part done' here' n m := by
  induction h generalizing here' with
  | leaf hn hm hv => exact .leaf hn hm hv
  | @table here there o o' t t' hs _ ha ih =>
    have hc {x : String} {c : Node} (hg : t'.get? x = some c) : ∀ q ∈ c.places, done q ↔ done' q :=
      fun q hq => hd q (placesOf_subset _ _ (mem_placesOf_of_get? hg hq))
    obtain ⟨there', hs', hth⟩ : ∃ there', Stands done' here' o o' there' ∧ ∀ x c p, t'.get? x = some c →
        Owns c p → (there (x :: p) ↔ there' (x :: p)) := by
      cases hs with
      | named ho ho' => exact ⟨_, .named ho ho', fun x c p hg hp => hh _ (.inside ho' hg hp)⟩
      | opened h => exact ⟨_, .opened ((hd _ List.mem_cons_self).1 h), fun _ _ _ _ _ => .rfl⟩
      | closed h => exact ⟨_, .closed (mt (hd _ List.mem_cons_self).2 h), fun _ _ _ _ _ => .rfl⟩
    refine .table hs' (fun x n m hn hm => ih x n m hn hm (hc hm) fun p => hth x m p hm) fun x => ?_
    rw [ha x]
    constructor
    · rintro ⟨c, hg, hp⟩
      exact ⟨c, hg, (Present.congr (hc hg) fun p => hth x c p hg).1 hp⟩
    · rintro ⟨c, hg, hp⟩
      exact ⟨c, hg, (Present.congr (hc hg) fun p => hth x c p hg).2 hp⟩
  | @rows here rows rows' hl hr _ ih =>
    have hc {i : Nat} {h : Header} {t : Entries} (hi : rows'[i]? = some (h, t)) {q : Nat}
        (hq : q ∈ h.place :: placesOf t) : done q ↔ done' q :=
      hd q (mem_placesOfRows.2 ⟨h, t, List.mem_of_getElem? hi, hq⟩)
    refine .rows hl (fun i h t hi => ?_) fun i h h' t t' hi hi' =>
      ih i h h' t t' hi hi' (fun q hq => hc hi' hq) fun _ _ => .rfl
    rw [← hc hi List.mem_cons_self]
    exact hr i h t hi

theorem parts_congr (h : Parts done here t t') (hd : ∀ q ∈ placesOf t', done q ↔ done' q)
    (hh : ∀ x c p, t'.get? x = some c → Owns c p → (here (x :: p) ↔ here' (x :: p))) :
    Parts done' here' t t' := by
  have hc {x : String} {c : Node} (hg : t'.get? x = some c) : ∀ q ∈ c.places, done q ↔ done' q :=
    fun q hq => hd q (mem_placesOf_of_get? hg hq)
  refine ⟨fun x n m hn hm => (h.each x n m hn hm).congr (hc hm) fun p => hh x m p hm, fun x => ?_⟩
  rw [h.all x]
  constructor
  · rintro ⟨c, hg, hp⟩
    exact ⟨c, hg, (Present.congr (hc hg) fun p => hh x c p hg).1 hp⟩
  · rintro ⟨c, hg, hp⟩
    exact ⟨c, hg, (Present.congr (hc hg) fun p => hh x c p hg).2 hp⟩

/-- Where nothing is there, there is nothing. -/
theorem parts_nil (h : ∀ x m, t'.get? x = some m → ¬ Present done (fun p => here (x :: p)) m) :
    Parts done here [] t' := by
  refine ⟨fun x n m hn => absurd hn nofun, fun x => ⟨fun hn => absurd hn nofun, ?_⟩⟩
  rintro ⟨m, hg, hm⟩
  exact absurd hm (h x m hg)

theorem Parts.absent {x : String} (h : Parts done here t t') (hx : t.get? x = none) (hg : t'.get? x = some m) :
    ¬ Present done (fun p => here (x :: p)) m := by
  intro hm
  have := (h.all x).2 ⟨m, hg, hm⟩
  rw [hx] at this
  cases this

theorem Parts.child {x : String} (h : Parts done here t t') (hx : t.get? x = some n) (hg : t'.get? x = some m) :
    Part done (fun p => here (x :: p)) n m ∧ Present done (fun p => here (x :: p)) m := by
  obtain ⟨m', hg', hm⟩ := (h.all x).1 (by rw [hx]; rfl)
  cases hg.symm.trans hg'
  exact ⟨h.each x n m hx hg, hm⟩

/-- Another node under one name leads to another stage, where that node is a part. -/
theorem Parts.update {u : Entries} {x : String} (h : Parts done here t t')
    (hu : ∀ y, u.get? y = if x = y then some n else t.get? y) (hg : t'.get? x = some m)
    (hn : Part done' (fun p => here' (x :: p)) n m) (hm : Present done' (fun p => here' (x :: p)) m)
    (hd : ∀ y c, y ≠ x → t'.get? y = some c → ∀ q ∈ c.places, done q ↔ done' q)
    (hh : ∀ y p, y ≠ x → (here (y :: p) ↔ here' (y :: p))) : Parts done' here' u t' := by
  constructor
  · intro y a b ha hb
    rw [hu] at ha
    split at ha
    · next hx =>
      subst hx
      cases ha
      cases hg.symm.trans hb
      exact hn
    · next hx =>
      exact (h.each y a b ha hb).congr (hd y b (Ne.symm hx) hb) fun p _ => hh y p (Ne.symm hx)
  · intro y
    rw [hu]
    split
    · next hx =>
      subst hx
      exact ⟨fun _ => ⟨m, hg, hm⟩, fun _ => rfl⟩
    · next hx =>
      rw [h.all y]
      constructor
      · rintro ⟨c, hc, hp⟩
        exact ⟨c, hc, (Present.congr (hd y c (Ne.symm hx) hc) fun p _ => hh y p (Ne.symm hx)).1 hp⟩
      · rintro ⟨c, hc, hp⟩
        exact ⟨c, hc, (Present.congr (hd y c (Ne.symm hx) hc) fun p _ => hh y p (Ne.symm hx)).2 hp⟩

/-- The labels of a path of several names. -/
theorem labels_cons {labels : List Label} {x : String} {p : List String} (hp : p ≠ [])
    (hl : labels.map Label.name = x :: p) :
    ∃ l l' ls, labels = l :: l' :: ls ∧ l.name = x ∧ (l' :: ls).map Label.name = p := by
  cases labels with
  | nil => cases hl
  | cons l ls =>
    cases ls with
    | nil =>
      obtain ⟨-, rfl⟩ := List.cons_eq_cons.1 hl
      exact absurd rfl hp
    | cons l' ls =>
      obtain ⟨hx, hls⟩ := List.cons_eq_cons.1 hl
      exact ⟨l, l', ls, rfl, hx, hls⟩

theorem labels_singleton {labels : List Label} {x : String} (hl : labels.map Label.name = [x]) :
    ∃ l, labels = [l] ∧ l.name = x := by
  obtain ⟨l, rfl, hx⟩ := List.map_eq_singleton_iff.1 hl
  exact ⟨l, rfl, hx⟩

/-- A value of a table, or of the dotted tables in it. -/
inductive Reaches : Entries → List String → Node → Prop
  | here {t : Entries} {x : String} {m : Node} : t.get? x = some m → m.isLeaf = true → Reaches t [x] m
  | dotted {t t' : Entries} {x : String} {p : List String} {m : Node} : t.get? x = some (.table .dotted t') →
    Reaches t' p m → Reaches t (x :: p) m

theorem Reaches.ne_nil {p : List String} (h : Reaches t p m) : p ≠ [] := by
  cases h <;> exact List.cons_ne_nil _ _

theorem Reaches.present {p : List String} (h : Reaches t' p m) (hp : here p) :
    ∃ x c q, p = x :: q ∧ t'.get? x = some c ∧ Present done (fun q => here (x :: q)) c := by
  induction h generalizing here with
  | here hg hl => exact ⟨_, _, _, rfl, hg, .leaf hl hp⟩
  | @dotted _ _ x p _ hg _ ih =>
    obtain ⟨x, c, q, rfl, hc, hpr⟩ := @ih (fun q => here (x :: q)) hp
    exact ⟨_, _, _, rfl, hg, .inside rfl hc hpr⟩

/-- One more value leads to the next stage. -/
theorem put_parts {p : List String} (h : Reaches t' p m) (hp : Parts done here t t') (hn : ¬ here p)
    {labels : List Label} (hl : labels.map Label.name = p) (hv : n.isLeaf = true) (he : n.value = m.value) :
    ∃ u, Entries.put n labels t = some u ∧ Parts done (fun q => here q ∨ q = p) u t' := by
  induction h generalizing t here labels with
  | @here t' x m hg hm =>
    obtain ⟨l, rfl, rfl⟩ := labels_singleton hl
    have hx : t.get? l.name = none := by
      cases hx : t.get? l.name with
      | none => rfl
      | some c =>
        obtain ⟨-, hpr⟩ := hp.child hx hg
        cases hpr with
        | leaf _ hh => exact absurd hh hn
        | _ => cases hm
    refine ⟨t.set l n, Entries.put_singleton hx, ?_⟩
    refine hp.update (Entries.get?_set l n t) hg (.leaf hv hm he) (.leaf hm (.inr rfl)) (fun _ _ _ _ _ _ => .rfl)
      fun y q hy => ?_
    simp [hy]
  | @dotted t' c x p m hg hr ih =>
    obtain ⟨l, l', ls, rfl, rfl, hls⟩ := labels_cons hr.ne_nil hl
    have hu {u : Entries} (hu : Parts done (fun q => here (l.name :: q) ∨ q = p) u c) :
        Parts done (fun q => here q ∨ q = l.name :: p) (t.set l (.table .dotted u)) t' := by
      have hh : (fun q => here (l.name :: q) ∨ l.name :: q = l.name :: p) = fun q => here (l.name :: q) ∨ q = p := by
        funext q
        simp
      have hpresent := @Reaches.present done (fun q => here (l.name :: q) ∨ q = p) _ _ _ hr (.inr rfl)
      obtain ⟨y, b, q, -, hb, hpr⟩ := hpresent
      refine hp.update (Entries.get?_set l _ t) hg ?_ ?_ (fun _ _ _ _ _ _ => .rfl) fun y q hy => by simp [hy]
      · rw [hh]
        exact part_table_iff.2 ⟨_, .named rfl rfl, hu⟩
      · rw [hh]
        exact .inside rfl hb hpr
    cases hx : t.get? l.name with
    | none =>
      have hne := hp.absent hx hg
      have hnil : Parts done (fun q => here (l.name :: q)) [] c :=
        parts_nil fun y b hb hpr => hne (.inside rfl hb hpr)
      obtain ⟨u, hpu, hpp⟩ := ih hnil hn hls he
      exact ⟨_, by rw [Entries.put_of_none hx, hpu]; rfl, hu hpp⟩
    | some b =>
      obtain ⟨hpart, -⟩ := hp.child hx hg
      cases hpart with
      | leaf _ h => cases h
      | @table _ there o _ s _ hs hea hal =>
        cases hs with
        | named ho _ =>
          have hparts : Parts done (fun q => here (l.name :: q)) s c := ⟨hea, hal⟩
          obtain ⟨u, hpu, hpp⟩ := ih hparts hn hls he
          exact ⟨_, by rw [Entries.put_of_table ho hx, hpu]; rfl, hu hpp⟩

/-- In the end everything is there. -/
theorem present_of_all (hs : Sound m) (hd : ∀ q ∈ m.places, done q) (hh : ∀ p, here p) : Present done here m := by
  induction hs generalizing here with
  | leaf hl => exact .leaf hl (hh [])
  | @table o t _ hne _ _ ih =>
    cases o with
    | header h => exact .header (hd _ List.mem_cons_self)
    | _ =>
      obtain ⟨⟨l, n⟩, rest, rfl⟩ := List.exists_cons_of_ne_nil (hne rfl)
      have hg : Entries.get? l.name ((l, n) :: rest) = some n := by rw [Entries.get?, if_pos rfl]
      refine .inside rfl hg (ih l n List.mem_cons_self (fun q hq => hd q ?_) fun p => hh _)
      exact mem_placesOf_of_get? hg hq
  | @tables rows hne _ _ _ _ =>
    obtain ⟨⟨h, t⟩, rest, rfl⟩ := List.exists_cons_of_ne_nil hne
    exact .row List.mem_cons_self (hd _ List.mem_cons_self)

theorem rowsOf_eq_map (rows : List (Header × Entries)) : rowsOf rows = rows.map fun r => .table (tableOf r.2) := by
  induction rows with
  | nil => rfl
  | cons r rows ih =>
    obtain ⟨h, t⟩ := r
    rw [rowsOf, ih, List.map_cons]

/-- In the end entries describe the same table as all of them, if what is under each name has the same value. -/
theorem tableOf_eq_of_parts (hp : Parts done here t t') (hs : ∀ l m, (l, m) ∈ t' → Sound m)
    (hd : ∀ q ∈ placesOf t', done q) (hh : ∀ p, here p) (hv : ∀ l n m, (l, m) ∈ t' →
      Part done (fun p => here (l.name :: p)) n m → n.value = m.value) : tableOf t = tableOf t' := by
  refine tableOf_congr fun x => ?_
  cases hg : t'.get? x with
  | none =>
    cases hx : t.get? x with
    | none => rfl
    | some c =>
      obtain ⟨m, hm, -⟩ := (hp.all x).1 (by rw [hx]; rfl)
      cases hg.symm.trans hm
  | some m =>
    obtain ⟨l, rfl, hl⟩ := Entries.mem_of_get? hg
    have hpr : Present done (fun p => here (l.name :: p)) m :=
      present_of_all (hs l m hl) (fun q hq => hd q (mem_placesOf_of_get? hg hq)) fun p => hh _
    obtain ⟨c, hx⟩ := Option.isSome_iff_exists.1 ((hp.all l.name).2 ⟨m, hg, hpr⟩)
    rw [hx, Option.map_some, Option.map_some, hv l c m hl (hp.each _ c m hx hg)]

/-- In the end both trees describe the same value. -/
theorem value_eq_of_part (hs : Sound m) (hd : ∀ q ∈ m.places, done q) (hh : ∀ p, here p)
    (hp : Part done here n m) : n.value = m.value := by
  induction hs generalizing n here with
  | leaf hl =>
    cases hp with
    | leaf _ _ hv => exact hv
    | _ => cases hl
  | @table o t' _ _ _ hc ih =>
    cases hp with
    | leaf _ hl => cases hl
    | @table _ there o' _ t _ hst hea hal =>
      have hall : ∀ p, there p := by
        cases hst with
        | named _ _ => exact hh
        | opened _ => exact fun _ => trivial
        | closed hn => exact absurd (hd _ List.mem_cons_self) hn
      have hdt : ∀ q ∈ placesOf t', done q := fun q hq => hd q (placesOf_subset o t' hq)
      have htable : tableOf t = tableOf t' := by
        refine tableOf_eq_of_parts ⟨hea, hal⟩ hc hdt hall fun l n m hl hpart => ?_
        exact ih l m hl (fun q hq => hdt q (mem_placesOf.2 ⟨l, m, hl, hq⟩)) (fun p => hall _) hpart
      rw [Node.value, Node.value, htable]
  | @tables rows' _ _ _ _ ih =>
    cases hp with
    | leaf _ hl => cases hl
    | @rows _ rows _ hlen hdone hr =>
      have hdr {r : Header × Entries} (hm : r ∈ rows') {q : Nat} (hq : q ∈ r.1.place :: placesOf r.2) : done q :=
        hd q (mem_placesOfRows.2 ⟨r.1, r.2, hm, hq⟩)
      have hle : rows'.length ≤ rows.length := Nat.le_of_not_lt fun hlt => by
        have hj : rows'[rows.length]? = some rows'[rows.length] := List.getElem?_eq_getElem hlt
        exact Nat.lt_irrefl _ ((hdone _ _ _ hj).1 (hdr (List.mem_of_getElem? hj) List.mem_cons_self))
      rw [Node.value, Node.value, rowsOf_eq_map, rowsOf_eq_map]
      congr 1
      refine List.ext_getElem (by simp [Nat.le_antisymm hlen hle]) fun i hi hi' => ?_
      rw [List.length_map] at hi hi'
      rw [List.getElem_map, List.getElem_map]
      have hp := hr i _ _ _ _ (List.getElem?_eq_getElem hi) (List.getElem?_eq_getElem hi')
      -- the row is a table whose header is done, so all its values are there
      obtain ⟨there, hst, hpa⟩ := part_table_iff.1 hp
      have hmem : (rows'[i].1, rows'[i].2) ∈ rows' := List.getElem_mem hi'
      cases hst with
      | named ho => cases ho
      | opened ho =>
        have hall : ∀ p : List String, (fun _ => True) p := fun _ => trivial
        have hv := ih _ _ hmem (n := .table (.header rows[i].1) rows[i].2) (fun q hq => hdr hmem hq) hall
          (part_table_iff.2 ⟨_, .opened ho, hpa⟩)
        exact hv

end

end SqlLint.Toml
