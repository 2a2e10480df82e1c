import SqlLint.Proofs.Toml.Stage
import SqlLint.Toml.Document

/-! # One more section

Where a section is in a tree, its header and its values lead from the stage before it to the stage
behind it. -/
namespace SqlLint.Toml
open Document.Draft (atLast)

/-- The names that lead to a section: of repeated tables any one may be on the way. -/
inductive Site (h : Header) (repeated : Bool) (content : Entries) : Entries → List String → Prop
  | table {e : Entries} {x : String} : e.get? x = some (.table (.header h) content) → repeated = false →
    Site h repeated content e [x]
  | row {e : Entries} {x : String} {rows : List (Header × Entries)} : e.get? x = some (.tables rows) →
    (h, content) ∈ rows → repeated = true → Site h repeated content e [x]
  | inside {e t : Entries} {x : String} {o : Origin} {p : List String} : e.get? x = some (.table o t) →
    Site h repeated content t p → Site h repeated content e (x :: p)
  | insideRow {e t : Entries} {x : String} {rows : List (Header × Entries)} {k : Header} {p : List String} :
    e.get? x = some (.tables rows) → (k, t) ∈ rows → Site h repeated content t p →
    Site h repeated content e (x :: p)

/-- Opens the table of a header, or adds a repeated one, and sets what belongs there. -/
def enter (h : Header) (repeated : Bool) (g : Entries → Option Entries) (l : Label) (e : Entries) :
    Option Entries :=
  if repeated then (g []).bind fun row => Entries.addRow h row l e
  else (Entries.openTable h l e).bind (Entries.within g [l])

variable {h : Header} {repeated : Bool} {content e : Entries} {p : List String}

theorem Site.ne_nil (hs : Site h repeated content e p) : p ≠ [] := by cases hs <;> simp

/-- The place of a section is one of the places under the first name that leads to it. -/
theorem Site.mem_places (hs : Site h repeated content e p) :
    ∃ x c q, p = x :: q ∧ e.get? x = some c ∧ h.place ∈ c.places := by
  induction hs with
  | table hg _ => exact ⟨_, _, _, rfl, hg, List.mem_cons_self⟩
  | row hg hm _ => exact ⟨_, _, _, rfl, hg, mem_placesOfRows.2 ⟨_, _, hm, List.mem_cons_self⟩⟩
  | inside hg _ ih =>
    obtain ⟨x, c, q, rfl, hc, hm⟩ := ih
    exact ⟨_, _, _, rfl, hg, placesOf_subset _ _ (mem_placesOf_of_get? hc hm)⟩
  | insideRow hg hr _ ih =>
    obtain ⟨x, c, q, rfl, hc, hm⟩ := ih
    refine ⟨_, _, _, rfl, hg, mem_placesOfRows.2 ⟨_, _, hr, List.mem_cons_of_mem _ ?_⟩⟩
    exact mem_placesOf_of_get? hc hm

theorem Site.place_mem (hs : Site h repeated content e p) : h.place ∈ placesOf e := by
  obtain ⟨x, c, q, -, hc, hm⟩ := hs.mem_places
  exact mem_placesOf_of_get? hc hm

/-- Of repeated tables, what is in one comes before the next ones. -/
theorem place_lt {rows : List (Header × Entries)} {r r' : Header × Entries} {i j : Nat}
    (hp : rows.Pairwise (fun r r' => ∀ q ∈ r.1.place :: placesOf r.2, q < r'.1.place))
    (hi : rows[i]? = some r) (hj : rows[j]? = some r') (hij : i < j) {q : Nat}
    (hq : q ∈ r.1.place :: placesOf r.2) : q < r'.1.place := by
  obtain ⟨hil, rfl⟩ := List.getElem?_eq_some_iff.1 hi
  obtain ⟨hjl, rfl⟩ := List.getElem?_eq_some_iff.1 hj
  exact List.pairwise_iff_getElem.1 hp i j hil hjl hij q hq

section Step

variable {done : Nat → Prop} {here : List String → Prop} {t : Entries} {k : Header}
  {g : Entries → Option Entries}

/-- The places that are done once a header is. -/
def andPlace (done : Nat → Prop) (h : Header) (q : Nat) : Prop := done q ∨ q = h.place

/-- What belongs to a section can be set where nothing of it was. -/
def Fills (done : Nat → Prop) (h : Header) (content : Entries) (g : Entries → Option Entries) : Prop :=
  ∀ u, Parts done (fun _ => False) u content →
    ∃ u', g u = some u' ∧ Parts (andPlace done h) (fun _ => True) u' content

theorem andPlace_iff {q : Nat} (h' : q ≠ h.place) : done q ↔ andPlace done h q :=
  ⟨.inl, fun hq => hq.resolve_right h'⟩

/-- Under another name than that of a section nothing changes. -/
theorem done_of_ne (hd : (placesOf e).Nodup) {x y : String} {c m : Node} (hx : e.get? x = some c)
    (hc : h.place ∈ c.places) (hy : y ≠ x) (hm : e.get? y = some m) :
    ∀ q ∈ m.places, done q ↔ andPlace done h q := by
  intro q hq
  refine andPlace_iff fun he => ?_
  subst he
  exact disjoint_places hd hy hm hx hq hc

theorem enter_table_parts {l : Label} (hg : e.get? l.name = some (.table (.header h) content))
    (hd : (placesOf e).Nodup) (hn : ¬ done h.place) (hf : Fills done h content g) (hp : Parts done here t e) :
    ∃ u, enter k false g l t = some u ∧ Parts (andPlace done h) here u e := by
  have hm : h.place ∈ (Node.table (.header h) content).places := List.mem_cons_self
  have other (y : String) (c : Node) (hy : y ≠ l.name) (hc : e.get? y = some c) :
      ∀ q ∈ c.places, done q ↔ andPlace done h q := done_of_ne hd hg hm hy hc
  have settle {u' u : Entries} (hu' : Parts (andPlace done h) (fun _ => True) u' content)
      (hu : ∀ y, u.get? y = if l.name = y then some (.table (.header k) u') else t.get? y) :
      Parts (andPlace done h) here u e :=
    hp.update hu hg (part_table_iff.2 ⟨_, .opened (.inr rfl), hu'⟩) (.header (.inr rfl)) other
      fun _ _ _ => .rfl
  cases hx : t.get? l.name with
  | none =>
    have habs := hp.absent hx hg
    obtain ⟨u', hgu, hu'⟩ := hf [] (parts_nil fun x c hc hpr => habs (.under hc hpr))
    have hs : (t.set l (.table (.header k) [])).get? l.name = some (.table (.header k) []) := by
      rw [Entries.get?_set, if_pos rfl]
    refine ⟨(t.set l (.table (.header k) [])).set l (.table (.header k) u'), ?_, ?_⟩
    · rw [enter, if_neg Bool.false_ne_true, Entries.openTable_of_none hx, Option.bind_some,
        Entries.within_of_table hs, Entries.within, hgu]
      rfl
    · refine settle hu' fun y => ?_
      rw [Entries.set_set, Entries.get?_set]
  | some n =>
    obtain ⟨hpart, -⟩ := hp.child hx hg
    cases hpart with
    | leaf _ hl => cases hl
    | @table _ there o _ a _ hst hea hal =>
      cases hst with
      | named _ ho => cases ho
      | opened hdone => exact absurd hdone hn
      | closed _ =>
        obtain ⟨u', hgu, hu'⟩ := hf a ⟨hea, hal⟩
        have hs : Entries.get? l.name (t.remove l.name ++ [(l, .table (.header k) a)]) =
            some (.table (.header k) a) := by
          rw [Entries.get?_append, Entries.get?_remove, if_pos rfl, Option.none_or, Entries.get?, if_pos rfl]
        refine ⟨Entries.set l (.table (.header k) u') (t.remove l.name ++ [(l, .table (.header k) a)]), ?_, ?_⟩
        · rw [enter, if_neg Bool.false_ne_true, Entries.openTable_of_implicit hx, Option.bind_some,
            Entries.within_of_table hs, Entries.within, hgu]
          rfl
        · refine settle hu' fun y => ?_
          rw [Entries.get?_set]
          split
          · rfl
          · next hy =>
            rw [Entries.get?_append, Entries.get?_remove, if_neg (Ne.symm hy), Entries.get?, if_neg hy, Entries.get?,
              Option.or_none]

variable {rows : List (Header × Entries)}

/-- Of repeated tables those are done that come before the first one that is not. -/
theorem length_of_part_rows {rn : List (Header × Entries)} {i : Nat} {r : Header × Entries}
    (hp : Part done here (.tables rn) (.tables rows)) (hi : rows[i]? = some r) (hr : ¬ done r.1.place)
    (hb : ∀ j r', j < i → rows[j]? = some r' → done r'.1.place) : rn.length = i := by
  cases hp with
  | leaf hl => cases hl
  | rows hlen hdone _ =>
    have hle : rn.length ≤ i := by
      by_contra hlt
      exact hr ((hdone i _ _ hi).2 (Nat.lt_of_not_le hlt))
    refine Nat.le_antisymm hle (Nat.le_of_not_lt fun hlt => ?_)
    obtain ⟨hil, -⟩ := List.getElem?_eq_some_iff.1 hi
    have hj : rows[rn.length]? = some rows[rn.length] := List.getElem?_eq_getElem (hlt.trans hil)
    exact absurd ((hdone _ _ _ hj).1 (hb _ _ hlt hj)) (Nat.lt_irrefl _)

/-- The places up to a header are done behind it. -/
theorem andPlace_iff_lt {i j q : Nat} (hd : done q ↔ q < h.place) (hle : j ≤ i → q ≤ h.place)
    (hlt : i < j → h.place < q) : andPlace done h q ↔ j < i + 1 := by
  rw [andPlace, hd]
  rcases Nat.lt_or_ge i j with hij | hij
  · have := hlt hij
    omega
  · have := hle hij
    omega

/-- Repeated tables that come to an end with one more. -/
theorem part_rows_concat {init : List (Header × Entries)} {k' : Header} {u s : Entries}
    (hi : rows[init.length]? = some (k', s))
    (hdone : ∀ (j : Nat) (k₂ : Header) (t₂ : Entries), rows[j]? = some (k₂, t₂) → (done k₂.place ↔ j < init.length + 1))
    (hinit : ∀ (j : Nat) (k₁ k₂ : Header) (t₁ t₂ : Entries), init[j]? = some (k₁, t₁) → rows[j]? = some (k₂, t₂) →
      Part done (fun _ => False) (.table (.header k₁) t₁) (.table (.header k₂) t₂))
    (hlast : Part done (fun _ => False) (.table (.header k) u) (.table (.header k') s)) :
    Part done here (.tables (init ++ [(k, u)])) (.tables rows) := by
  have hlen : (init ++ [(k, u)]).length = init.length + 1 := by simp
  obtain ⟨hlt, -⟩ := List.getElem?_eq_some_iff.1 hi
  refine .rows (hlen ▸ hlt) (fun j k₂ t₂ hj => hlen ▸ hdone j k₂ t₂ hj) fun j k₁ k₂ t₁ t₂ h₁ h₂ => ?_
  by_cases hj : j < init.length
  · rw [List.getElem?_append_left hj] at h₁
    exact hinit j k₁ k₂ t₁ t₂ h₁ h₂
  · obtain rfl : j = init.length := by
      have := (List.getElem?_eq_some_iff.1 h₁).1
      omega
    rw [List.getElem?_append_right (Nat.le_refl _), Nat.sub_self] at h₁
    cases h₁
    cases hi.symm.trans h₂
    exact hlast

/-- What is there of repeated tables once a header in one of them is done: those in front of that one, as they
were, and that one as it is now. -/
theorem part_rows_enter {init : List (Header × Entries)} {k' : Header} {u s : Entries}
    (hord : rows.Pairwise (fun r r' => ∀ q ∈ r.1.place :: placesOf r.2, q < r'.1.place))
    (hi : rows[init.length]? = some (k', s)) (hh : h.place ∈ k'.place :: placesOf s) (hle : k'.place ≤ h.place)
    (hb : ∀ r ∈ rows, done r.1.place ↔ r.1.place < h.place)
    (hinit : ∀ (j : Nat) (k₁ k₂ : Header) (t₁ t₂ : Entries), init[j]? = some (k₁, t₁) → rows[j]? = some (k₂, t₂) →
      Part done (fun _ => False) (.table (.header k₁) t₁) (.table (.header k₂) t₂))
    (hlast : Part (andPlace done h) (fun _ => False) (.table (.header k) u) (.table (.header k') s)) :
    Part (andPlace done h) here (.tables (init ++ [(k, u)])) (.tables rows) := by
  have hbefore {j : Nat} {r : Header × Entries} (hj : rows[j]? = some r) (hji : j < init.length) {q : Nat}
      (hq : q ∈ r.1.place :: placesOf r.2) : q < h.place := (place_lt hord hj hi hji hq).trans_le hle
  refine part_rows_concat hi (fun j k₂ t₂ hj => ?_) (fun j k₁ k₂ t₁ t₂ h₁ h₂ => ?_) hlast
  · refine andPlace_iff_lt (hb _ (List.mem_of_getElem? hj)) (fun hji => ?_) fun hij => place_lt hord hi hj hij hh
    rcases Nat.lt_or_eq_of_le hji with hji | rfl
    · exact Nat.le_of_lt (hbefore hj hji List.mem_cons_self)
    · cases hi.symm.trans hj
      exact hle
  · have hj : j < init.length := (List.getElem?_eq_some_iff.1 h₁).1
    exact (hinit j k₁ k₂ t₁ t₂ h₁ h₂).congr (fun q hq => andPlace_iff (Nat.ne_of_lt (hbefore h₂ hj hq))) fun _ _ => .rfl

/-- Where none of repeated tables is there, the one that comes next is the first of them. -/
theorem eq_zero_of_absent {i : Nat} {r : Header × Entries} (hx : ¬ Present done here (.tables rows))
    (hi : rows[i]? = some r) (hb : ∀ j r', j < i → rows[j]? = some r' → done r'.1.place) : i = 0 := by
  by_contra hne
  have hil := (List.getElem?_eq_some_iff.1 hi).1
  have h0 : rows[0]? = some rows[0] := List.getElem?_eq_getElem (Nat.lt_of_le_of_lt (Nat.zero_le _) hil)
  exact hx (.row (List.mem_of_getElem? h0) (hb 0 _ (Nat.pos_of_ne_zero hne) h0))

theorem enter_row_parts {l : Label} (hg : e.get? l.name = some (.tables rows)) (hm : (h, content) ∈ rows)
    (hs : Sound (.tables rows)) (hd : (placesOf e).Nodup) (hb : ∀ q ∈ placesOf e, done q ↔ q < h.place)
    (hf : Fills done h content g) (hp : Parts done here t e) :
    ∃ u, enter k true g l t = some u ∧ Parts (andPlace done h) here u e := by
  obtain ⟨i, hi⟩ := List.mem_iff_getElem?.1 hm
  cases hs with
  | leaf hl => cases hl
  | tables _ hin _ hord =>
    have hplaces {r : Header × Entries} (hr : r ∈ rows) {q : Nat} (hq : q ∈ r.1.place :: placesOf r.2) :
        q ∈ (Node.tables rows).places := mem_placesOfRows.2 ⟨r.1, r.2, hr, hq⟩
    have hdone {r : Header × Entries} (hr : r ∈ rows) {q : Nat} (hq : q ∈ r.1.place :: placesOf r.2) :
        done q ↔ q < h.place := hb q (mem_placesOf_of_get? hg (hplaces hr hq))
    have hbefore (j : Nat) (r : Header × Entries) (hj : j < i) (hr : rows[j]? = some r) : done r.1.place :=
      (hdone (List.mem_of_getElem? hr) List.mem_cons_self).2 (place_lt hord hr hi hj List.mem_cons_self)
    have hn : ¬ done h.place := fun hc => Nat.lt_irrefl _ ((hdone hm List.mem_cons_self).1 hc)
    -- nothing of the new table is there before its header
    obtain ⟨u', hgu, hu'⟩ := hf [] (parts_nil fun x c hc hpr => by
      rcases hpr.exists with ⟨_, -, hh⟩ | ⟨q, hq, hdq⟩
      · exact hh
      · have hqp := mem_placesOf_of_get? hc hq
        exact Nat.lt_asymm ((hdone hm (List.mem_cons_of_mem _ hqp)).1 hdq) (hin h content hm q hqp))
    have settle {rn : List (Header × Entries)} {u : Entries} (hlen : rn.length = i)
        (hrn : ∀ (j : Nat) (k₁ k₂ : Header) (t₁ t₂ : Entries), rn[j]? = some (k₁, t₁) → rows[j]? = some (k₂, t₂) →
          Part done (fun _ => False) (.table (.header k₁) t₁) (.table (.header k₂) t₂))
        (hu : ∀ y, u.get? y = if l.name = y then some (.tables (rn ++ [(k, u')])) else t.get? y) :
        Parts (andPlace done h) here u e := by
      subst hlen
      have hrows : Part (andPlace done h) (fun p => here (l.name :: p)) (.tables (rn ++ [(k, u')])) (.tables rows) :=
        part_rows_enter hord hi List.mem_cons_self (Nat.le_refl _) (fun r hr => hdone hr List.mem_cons_self) hrn
          (part_table_iff.2 ⟨_, .opened (.inr rfl), hu'⟩)
      exact hp.update hu hg hrows (.row hm (.inr rfl))
        (fun y c hy hc => done_of_ne hd hg (hplaces hm List.mem_cons_self) hy hc) fun _ _ _ => .rfl
    cases hx : t.get? l.name with
    | none =>
      have hlen : ([] : List (Header × Entries)).length = i := (eq_zero_of_absent (hp.absent hx hg) hi hbefore).symm
      refine ⟨t.set l (.tables [(k, u')]), ?_, settle hlen (by simp) fun y => ?_⟩
      · rw [enter, if_pos rfl, hgu, Option.bind_some, Entries.addRow_of_none hx]
      · rw [Entries.get?_set]
        rfl
    | some n =>
      obtain ⟨hpart, -⟩ := hp.child hx hg
      cases n with
      | tables rn =>
        have hlen := length_of_part_rows hpart hi hn hbefore
        refine ⟨t.set l (.tables (rn ++ [(k, u')])), ?_, settle hlen ?_ fun y => Entries.get?_set ..⟩
        · rw [enter, if_pos rfl, hgu, Option.bind_some, Entries.addRow_of_tables hx]
        · cases hpart with
          | leaf hl => cases hl
          | rows _ _ hr => exact hr
      | _ =>
        cases hpart with
        | leaf _ hl => cases hl

section Path

variable {f : Label → Entries → Option Entries} {l l' : Label} {ls : List Label} {s : Entries}

theorem atLast_eq {path : List Label} (hl : path.getLast? = some l) :
    atLast f path = Entries.within (f l) path.dropLast := by
  funext t
  rw [atLast, hl]
  rfl

/-- Behind the first label of a path, its last one is the same. -/
theorem exists_last (f : Label → Entries → Option Entries) (l l' : Label) (ls : List Label) : ∃ last,
    atLast f (l' :: ls) = Entries.within (f last) (l' :: ls).dropLast ∧
      atLast f (l :: l' :: ls) = Entries.within (f last) (l :: (l' :: ls).dropLast) := by
  obtain ⟨last, hlast⟩ : ∃ last, (l' :: ls).getLast? = some last := Option.isSome_iff_exists.1 (by simp)
  refine ⟨last, atLast_eq hlast, ?_⟩
  rw [atLast_eq (by rw [List.getLast?_cons_cons, hlast]), List.dropLast_cons_cons]

theorem atLast_of_none (hx : t.get? l.name = none) :
    atLast f (l :: l' :: ls) t = (atLast f (l' :: ls) []).map fun s => t.set l (.table .implicit s) := by
  obtain ⟨last, h, h'⟩ := exists_last f l l' ls
  rw [h, h']
  exact Entries.within_of_none hx

theorem atLast_of_table {o : Origin} (hx : t.get? l.name = some (.table o s)) :
    atLast f (l :: l' :: ls) t = (atLast f (l' :: ls) s).map fun s => t.set l (.table o s) := by
  obtain ⟨last, h, h'⟩ := exists_last f l l' ls
  rw [h, h']
  exact Entries.within_of_table hx

theorem atLast_of_tables (hx : t.get? l.name = some (.tables rows)) :
    atLast f (l :: l' :: ls) t =
      (Entries.onLast (atLast f (l' :: ls)) rows).map fun rows => t.set l (.tables rows) := by
  obtain ⟨last, h, h'⟩ := exists_last f l l' ls
  rw [h, h']
  exact Entries.within_of_tables hx

end Path

theorem sound_of_get? {o : Origin} {s : Entries} {x : String} {c : Node} (h : Sound (.table o s))
    (hg : s.get? x = some c) : Sound c := by
  cases h with
  | leaf hl => cases hl
  | table _ _ _ hs =>
    obtain ⟨l, -, hm⟩ := Entries.mem_of_get? hg
    exact hs l c hm

/-- Of what leads to a section something is there once its header is. -/
theorem Site.present (hs : Site h repeated content e p) (hsound : ∀ x c, e.get? x = some c → Sound c)
    (hb : ∀ q ∈ placesOf e, q < h.place → done q) :
    ∃ x c q, p = x :: q ∧ e.get? x = some c ∧ ∀ here, Present (andPlace done h) here c := by
  induction hs with
  | table hg _ => exact ⟨_, _, _, rfl, hg, fun _ => .header (.inr rfl)⟩
  | row hg hm _ => exact ⟨_, _, _, rfl, hg, fun _ => .row hm (.inr rfl)⟩
  | @inside e s x o p hg _ ih =>
    obtain ⟨y, c, q, -, hc, hpr⟩ := ih (fun y c => sound_of_get? (hsound _ _ hg))
      fun q hq => hb q (mem_placesOf_of_get? hg (placesOf_subset o s hq))
    refine ⟨_, _, _, rfl, hg, fun here => ?_⟩
    cases o with
    | header h' => exact .under hc (hpr _)
    | _ => exact .inside rfl hc (hpr _)
  | @insideRow e s x rows k p hg hm hs _ =>
    have hsr := hsound _ _ hg
    cases hsr with
    | leaf hl => cases hl
    | tables _ hin _ _ =>
      have hk : k.place ∈ placesOf e := mem_placesOf_of_get? hg (mem_placesOfRows.2 ⟨k, s, hm, List.mem_cons_self⟩)
      exact ⟨_, _, _, rfl, hg, fun _ => .row hm (.inl (hb _ hk (hin k s hm _ hs.place_mem)))⟩

/-- A change leads from each stage in front of a header to the one behind it. -/
def Enters (done : Nat → Prop) (h : Header) (f : Entries → Option Entries) (e : Entries) : Prop :=
  ∀ here t, Parts done here t e → ∃ u, f t = some u ∧ Parts (andPlace done h) here u e

section Inside

variable {f : Label → Entries → Option Entries} {l l' : Label} {ls : List Label} {s : Entries}

/-- What changes in a table changes in the entries that hold it. -/
theorem enters_table {o : Origin} (hg : e.get? l.name = some (.table o s)) (hm : h.place ∈ placesOf s)
    (hd : (placesOf e).Nodup) (hpr : ∀ here, Present (andPlace done h) here (.table o s))
    (hf : Enters done h (atLast f (l' :: ls)) s) : Enters done h (atLast f (l :: l' :: ls)) e := by
  intro here t hp
  have hds := nodup_places hd hg
  have settle {o' : Origin} {a : Entries}
      (ha : Part (andPlace done h) (fun q => here (l.name :: q)) (.table o' a) (.table o s)) :
      Parts (andPlace done h) here (t.set l (.table o' a)) e :=
    hp.update (Entries.get?_set _ _ _) hg ha (hpr _)
      (fun y c hy hc => done_of_ne hd hg (placesOf_subset o s hm) hy hc) fun _ _ _ => .rfl
  -- a table with a header that is not done stays as it is
  have hother {h' : Header} (ho : o = .header h') (hn' : ¬ done h'.place) : ¬ andPlace done h h'.place := by
    rintro (hc | hc)
    · exact hn' hc
    · subst ho
      exact (List.nodup_cons.1 hds).1 (hc ▸ hm)
  cases hx : t.get? l.name with
  | none =>
    have habs := hp.absent hx hg
    obtain ⟨there, hst, hpa⟩ : ∃ there, Stands (andPlace done h) (fun q => here (l.name :: q)) .implicit o there ∧
        Parts done there [] s := by
      cases o with
      | header h' =>
        exact ⟨_, .closed (hother rfl fun hc => habs (.header hc)), parts_nil fun x c hc hpr => habs (.under hc hpr)⟩
      | _ => exact ⟨_, .named rfl rfl, parts_nil fun x c hc hpr => habs (.inside rfl hc hpr)⟩
    obtain ⟨u, hu, hup⟩ := hf _ _ hpa
    refine ⟨t.set l (.table .implicit u), ?_, settle (part_table_iff.2 ⟨_, hst, hup⟩)⟩
    rw [atLast_of_none hx, hu]
    rfl
  | some n =>
    obtain ⟨hpart, -⟩ := hp.child hx hg
    cases hpart with
    | leaf _ hl => cases hl
    | @table _ there o' _ a _ hst hea hal =>
      obtain ⟨u, hu, hup⟩ := hf _ _ ⟨hea, hal⟩
      have hst' : Stands (andPlace done h) (fun q => here (l.name :: q)) o' o there := by
        cases hst with
        | named ho ho' => exact .named ho ho'
        | opened hc => exact .opened (.inl hc)
        | closed hc => exact .closed (hother rfl hc)
      refine ⟨t.set l (.table o' u), ?_, settle (part_table_iff.2 ⟨_, hst', hup⟩)⟩
      rw [atLast_of_table hx, hu]
      rfl

/-- A repeated table is the last one that is there if it is done and the next one is not. -/
theorem exists_last_row {rn : List (Header × Entries)} {i : Nat} {k' : Header}
    (hp : Part done here (.tables rn) (.tables rows)) (hi : rows[i]? = some (k', s)) (hk : done k'.place)
    (hnext : ∀ r, rows[i + 1]? = some r → ¬ done r.1.place) :
    ∃ init k₁ a, rn = init ++ [(k₁, a)] ∧ init.length = i ∧ Parts done (fun _ => True) a s ∧
      ∀ (j : Nat) (k₁ k₂ : Header) (t₁ t₂ : Entries), init[j]? = some (k₁, t₁) → rows[j]? = some (k₂, t₂) →
        Part done (fun _ => False) (.table (.header k₁) t₁) (.table (.header k₂) t₂) := by
  cases hp with
  | leaf hl => cases hl
  | rows hlen hdone hrn =>
    have hil : i < rn.length := (hdone i k' s hi).1 hk
    have hlast : rn.length = i + 1 := by
      refine Nat.le_antisymm (Nat.le_of_not_lt fun hlt => ?_) hil
      have hj : rows[i + 1]? = some rows[i + 1] := List.getElem?_eq_getElem (hlt.trans_le hlen)
      exact hnext _ hj ((hdone (i + 1) _ _ hj).2 hlt)
    obtain ⟨init, ⟨k₁, a⟩, rfl⟩ : ∃ init last, rn = init ++ [last] := by
      rcases List.eq_nil_or_concat rn with rfl | ⟨init, last, hc⟩
      · cases hlast
      · exact ⟨init, last, by rw [hc, List.concat_eq_append]⟩
    obtain rfl : init.length = i := by simpa using hlast
    have ha : (init ++ [(k₁, a)])[init.length]? = some (k₁, a) := by
      rw [List.getElem?_append_right (Nat.le_refl _), Nat.sub_self]
      rfl
    refine ⟨init, k₁, a, rfl, rfl, ?_, fun j k₁ k₂ t₁ t₂ h₁ h₂ => ?_⟩
    · obtain ⟨there, hst, hpa⟩ := part_table_iff.1 (hrn _ k₁ k' a s ha hi)
      cases hst with
      | named ho => cases ho
      | opened _ => exact hpa
    · have hj : j < init.length := (List.getElem?_eq_some_iff.1 h₁).1
      exact hrn j k₁ k₂ t₁ t₂ (by rw [List.getElem?_append_left hj, h₁]) h₂

/-- What changes in the last one of repeated tables changes in the entries that hold them. -/
theorem enters_row {k' : Header} (hg : e.get? l.name = some (.tables rows)) (hm : (k', s) ∈ rows)
    (hmem : h.place ∈ placesOf s) (hs : Sound (.tables rows)) (hd : (placesOf e).Nodup)
    (hb : ∀ q ∈ placesOf e, done q ↔ q < h.place) (hf : Enters done h (atLast f (l' :: ls)) s) :
    Enters done h (atLast f (l :: l' :: ls)) e := by
  intro here t hp
  obtain ⟨i, hi⟩ := List.mem_iff_getElem?.1 hm
  have hrow {r : Header × Entries} (hr : r ∈ rows) : r.1.place ∈ placesOf e :=
    mem_placesOf_of_get? hg (mem_placesOfRows.2 ⟨r.1, r.2, hr, List.mem_cons_self⟩)
  have hplace : h.place ∈ k'.place :: placesOf s := List.mem_cons_of_mem _ hmem
  cases hs with
  | leaf hl => cases hl
  | tables _ hin _ hord =>
    have hlt : k'.place < h.place := hin k' s hm _ hmem
    have hk : done k'.place := (hb _ (hrow hm)).2 hlt
    have hafter {j : Nat} {r : Header × Entries} (hj : rows[j]? = some r) (hij : i < j) : h.place < r.1.place :=
      place_lt hord hi hj hij hplace
    cases hx : t.get? l.name with
    | none => exact absurd (.row hm hk) (hp.absent hx hg)
    | some n =>
      obtain ⟨hpart, -⟩ := hp.child hx hg
      cases n with
      | tables rn =>
        obtain ⟨init, k₁, a, rfl, rfl, ha, hinit⟩ := exists_last_row hpart hi hk fun r hr hc =>
          Nat.lt_asymm (hafter hr (Nat.lt_succ_self _)) ((hb _ (hrow (List.mem_of_getElem? hr))).1 hc)
        obtain ⟨u, hu, hup⟩ := hf _ _ ha
        have hrows : Part (andPlace done h) (fun p => here (l.name :: p)) (.tables (init ++ [(k₁, u)])) (.tables rows) :=
          part_rows_enter hord hi hplace (Nat.le_of_lt hlt) (fun r hr => hb _ (hrow hr)) hinit
            (part_table_iff.2 ⟨_, .opened (.inl hk), hup⟩)
        refine ⟨t.set l (.tables (init ++ [(k₁, u)])), ?_, ?_⟩
        · rw [atLast_of_tables hx, Entries.onLast_append, hu]
          rfl
        · exact hp.update (Entries.get?_set _ _ _) hg hrows (.row hm (.inl hk))
            (fun y c hy hc => done_of_ne hd hg (mem_placesOfRows.2 ⟨k', s, hm, hplace⟩) hy hc) fun _ _ _ => .rfl
      | _ =>
        cases hpart with
        | leaf _ hl => cases hl

end Inside

/-- A section that comes after all that is done leads to the next stage. -/
theorem enter_parts (hs : Site h repeated content e p) (hsound : ∀ x c, e.get? x = some c → Sound c)
    (hd : (placesOf e).Nodup) (hb : ∀ q ∈ placesOf e, done q ↔ q < h.place) (hf : Fills done h content g)
    {labels : List Label} (hl : labels.map Label.name = p) : Enters done h (atLast (enter k repeated g) labels) e := by
  have hn (hm : h.place ∈ placesOf e) : ¬ done h.place := fun hc => Nat.lt_irrefl _ ((hb _ hm).1 hc)
  induction hs generalizing labels with
  | @table e x hg hr =>
    subst hr
    obtain ⟨l, rfl, rfl⟩ := labels_singleton hl
    exact fun here t hp => enter_table_parts hg hd (hn (mem_placesOf_of_get? hg List.mem_cons_self)) hf hp
  | @row e x rows hg hm hr =>
    subst hr
    obtain ⟨l, rfl, rfl⟩ := labels_singleton hl
    exact fun here t hp => enter_row_parts hg hm (hsound _ _ hg) hd hb hf hp
  | @inside e s x o p hg hs ih =>
    obtain ⟨l, l', ls, rfl, rfl, hls⟩ := labels_cons hs.ne_nil hl
    have hsub {q : Nat} (hq : q ∈ placesOf s) : q ∈ placesOf e := mem_placesOf_of_get? hg (placesOf_subset o s hq)
    obtain ⟨y, c, q, hxy, hc, hpr⟩ := (Site.inside hg hs).present hsound fun q hq => (hb q hq).2
    cases hxy
    cases hg.symm.trans hc
    exact enters_table hg hs.place_mem hd hpr (ih (fun x c => sound_of_get? (hsound _ _ hg))
      (nodup_placesOf_table (nodup_places hd hg)) (fun q hq => hb q (hsub hq)) hls fun hq => hn (hsub hq))
  | @insideRow e s x rows k' p hg hm hs ih =>
    obtain ⟨l, l', ls, rfl, rfl, hls⟩ := labels_cons hs.ne_nil hl
    have hsub {q : Nat} (hq : q ∈ placesOf s) : q ∈ placesOf e :=
      mem_placesOf_of_get? hg (mem_placesOfRows.2 ⟨k', s, hm, List.mem_cons_of_mem _ hq⟩)
    have hsr := hsound _ _ hg
    have hrows : ∀ x c, s.get? x = some c → Sound c := by
      cases hsr with
      | leaf hl => cases hl
      | tables _ _ heach _ => exact fun x c => sound_of_get? (heach k' s hm)
    exact enters_row hg hm hs.place_mem hsr hd hb (ih hrows
      (List.nodup_cons.1 (nodup_placesOf_row (nodup_places hd hg) hm)).2 (fun q hq => hb q (hsub hq)) hls
      fun hq => hn (hsub hq))

end Step

end SqlLint.Toml
