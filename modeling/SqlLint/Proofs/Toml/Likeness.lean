import SqlLint.Proofs.Toml.Twins

/-! # Alike trees have one text

Of two trees of which all is there, and that are alike name by name, the same text is written. The one
exception are names with blanks in front that lead from one of repeated tables both to a value and to a
header: there the blanks are lost when the text is read again. -/
namespace SqlLint.Toml

variable {level : Level} {t v e : Entries} {k l : Label} {n m : Node} {x : String} {p : List String}

/-! ## Values of both trees -/

section Values

/-- Each name of one tree is one of the other. -/
theorem Parts.exists_entry {done : Nat → Prop} {here : List String → Prop} (hp : Parts done here v e) (hv : v.IsFunctional)
    (hk : (k, n) ∈ v) : ∃ l m, (l, m) ∈ e ∧ k.name = l.name ∧ Part done (fun p => here (k.name :: p)) n m := by
  have hg := Entries.get?_of_mem hv hk
  obtain ⟨m, hm, -⟩ := (hp.all k.name).1 (by rw [hg]; rfl)
  obtain ⟨l, hl, hmem⟩ := Entries.mem_of_get? hm
  exact ⟨l, m, hmem, hl.symm, hp.each _ n m hg hm⟩

theorem Part.tables_inner {o o' : Origin} {s s' : Entries}
    (hp : Part (fun _ => True) (fun _ => True) (.table o s) (.table o' s')) :
    Parts (fun _ => True) (fun _ => True) s s' := by
  obtain ⟨there, hst, hpa⟩ := part_table_iff.1 hp
  have hall : there = fun _ => True := by
    rw [hst.reach_eq]
    cases o' <;> rfl
  rwa [hall] at hpa

theorem owns_of_part_left (hp : Part (fun _ => True) (fun _ => True) n m) (ho : Owns n p) : Owns m p := by
  induction ho generalizing m with
  | leaf hl =>
    cases hp with
    | leaf _ hm => exact .leaf hm
    | _ => cases hl
  | @inside o t x c p ho hg _ ih =>
    cases hp with
    | leaf h => cases h
    | @table _ there _ o' _ t' hst hea hal =>
      cases hst with
      | opened => cases ho
      | closed h => exact absurd trivial h
      | named _ ho' =>
        obtain ⟨c', hc', -⟩ := (hal x).1 (by rw [hg]; rfl)
        exact .inside ho' hc' (ih (hea x c c' hg hc'))

theorem owns_of_part_right (hp : Part (fun _ => True) (fun _ => True) n m) (ho : Owns m p) : Owns n p := by
  induction ho generalizing n with
  | leaf hl =>
    cases hp with
    | leaf hn => exact .leaf hn
    | _ => cases hl
  | @inside o t x c p ho hg hc ih =>
    cases hp with
    | leaf _ h => cases h
    | @table _ there o' _ t' _ hst hea hal =>
      cases hst with
      | opened => cases ho
      | closed h => exact absurd trivial h
      | named ho' _ =>
        obtain ⟨c', hc'⟩ := Option.isSome_iff_exists.1 ((hal x).2 ⟨c, hg, hc.present trivial⟩)
        exact .inside ho' hc' (ih (hea x c' c hc' hg))

theorem leaves_ne_nil_iff (hs : Sound n) : n.leaves ≠ [] ↔ ∃ p, Owns n p := by
  constructor
  · intro h
    obtain ⟨⟨p, m⟩, hm⟩ := List.exists_mem_of_ne_nil _ h
    exact ⟨_, owns_of_mem_leaves hs hm⟩
  · rintro ⟨p, ho⟩
    obtain ⟨leaf, hl, -⟩ := List.mem_map.1 (mem_leaves_of_owns hs ho)
    exact List.ne_nil_of_mem hl

/-- The same names lead to values. -/
theorem leaves_ne_nil_of_part (hp : Part (fun _ => True) (fun _ => True) n m) (hn : Sound n) (hm : Sound m) :
    n.leaves ≠ [] ↔ m.leaves ≠ [] := by
  rw [leaves_ne_nil_iff hn, leaves_ne_nil_iff hm]
  exact exists_congr fun p => ⟨owns_of_part_left hp, owns_of_part_right hp⟩

theorem mem_bearers (he : e.IsFunctional) : x ∈ bearers e ↔ ∃ n, e.get? x = some n ∧ n.leaves ≠ [] := by
  rw [bearers, List.mem_map]
  constructor
  · rintro ⟨⟨l, n⟩, hm, rfl⟩
    obtain ⟨hm, hn⟩ := List.mem_filter.1 hm
    exact ⟨n, Entries.get?_of_mem he hm, by simpa using hn⟩
  · rintro ⟨n, hg, hn⟩
    obtain ⟨l, rfl, hm⟩ := Entries.mem_of_get? hg
    exact ⟨(l, n), List.mem_filter.2 ⟨hm, by simpa using hn⟩, rfl⟩

theorem nodup_bearers (he : e.IsFunctional) : (bearers e).Nodup := he.sublist (List.filter_sublist.map _)

/-- Two lists of the same different names without an inversion are one list. -/
theorem eq_of_not_sublist {xs ys : List String} (hx : xs.Nodup) (hy : ys.Nodup) (hmem : ∀ x, x ∈ xs ↔ x ∈ ys)
    (h : xs.Pairwise fun x y => ¬ [y, x].Sublist ys) : xs = ys := by
  induction ys generalizing xs with
  | nil => exact List.eq_nil_iff_forall_not_mem.2 fun x hx => (by cases (hmem x).1 hx)
  | cons y ys ih =>
    obtain ⟨x, xs, rfl⟩ := List.exists_cons_of_ne_nil (List.ne_nil_of_mem ((hmem y).2 List.mem_cons_self))
    obtain ⟨hfirst, hpairs⟩ := List.pairwise_cons.1 h
    obtain ⟨hxn, hxs⟩ := List.nodup_cons.1 hx
    obtain ⟨hyn, hys⟩ := List.nodup_cons.1 hy
    obtain rfl : x = y := by
      by_contra hne
      have hxy : x ∈ ys := (List.mem_cons.1 ((hmem x).1 List.mem_cons_self)).resolve_left hne
      have hyx : y ∈ xs := (List.mem_cons.1 ((hmem y).2 List.mem_cons_self)).resolve_left (Ne.symm hne)
      exact hfirst y hyx ((List.singleton_sublist.2 hxy).cons_cons y)
    refine congrArg _ (ih hxs hys (fun z => ⟨fun hz => ?_, fun hz => ?_⟩) (hpairs.imp fun hn hs => hn (hs.cons _)))
    · refine (List.mem_cons.1 ((hmem z).1 (List.mem_cons_of_mem _ hz))).resolve_left ?_
      rintro rfl
      exact hxn hz
    · refine (List.mem_cons.1 ((hmem z).2 (List.mem_cons_of_mem _ hz))).resolve_left ?_
      rintro rfl
      exact hyn hz

/-- The names that lead to values follow one another in both trees as they do in one. -/
theorem bearers_eq (ht : Twins level v e) (hp : Parts (fun _ => True) (fun _ => True) v e) (hv : v.IsSound)
    (he : e.IsSound) : bearers v = bearers e := by
  refine eq_of_not_sublist (nodup_bearers hv.functional) (nodup_bearers he.functional) (fun x => ?_)
    ((twins_iff.1 ht).2.sublist (List.filter_sublist.map _))
  rw [mem_bearers hv.functional, mem_bearers he.functional]
  constructor
  · rintro ⟨n, hg, hn⟩
    obtain ⟨m, hm, -⟩ := (hp.all x).1 (by rw [hg]; rfl)
    exact ⟨m, hm, (leaves_ne_nil_of_part (hp.each x n m hg hm) (hv.get? hg) (he.get? hm)).1 hn⟩
  · rintro ⟨m, hm, hb⟩
    obtain ⟨p, ho⟩ := (leaves_ne_nil_iff (he.get? hm)).1 hb
    obtain ⟨n, hg⟩ := Option.isSome_iff_exists.1 ((hp.all x).2 ⟨m, hm, ho.present trivial⟩)
    exact ⟨n, hg, (leaves_ne_nil_of_part (hp.each x n m hg hm) (hv.get? hg) (he.get? hm)).2 hb⟩

end Values

/-! ## Paths -/

section Paths

variable {path path' : List Label}

/-- What is written of the names in front of another one, up to the point. -/
def stem (path : List Label) : List Char := pathText path ++ (path.getLast?.map Label.after).getD []

theorem pathText_concat (hn : path ≠ []) (l : Label) :
    pathText (path ++ [l]) = stem path ++ '.' :: (l.before ++ l.text) := by
  induction path with
  | nil => exact absurd rfl hn
  | cons k ks ih =>
    cases ks with
    | nil => simp [pathText, stem]
    | cons k' ks =>
      have h := ih (by simp)
      rw [List.cons_append] at h
      rw [List.cons_append, List.cons_append, pathText, h]
      simp [stem, pathText]

/-- Names in front of others are written alike. -/
def SamePrefix (path path' : List Label) : Prop :=
  (path = [] ∧ path' = []) ∨ (path ≠ [] ∧ path' ≠ [] ∧ stem path = stem path')

theorem SamePrefix.pathText_eq (h : SamePrefix path path') (ht : k.text = l.text) (hb : path ≠ [] → k.before = l.before) :
    pathText (path ++ [k]) = pathText (path' ++ [l]) := by
  rcases h with ⟨rfl, rfl⟩ | ⟨hn, hn', hs⟩
  · exact ht
  · rw [pathText_concat hn, pathText_concat hn', hs, ht, hb hn]

theorem SamePrefix.concat (h : SamePrefix path path') (ht : k.text = l.text) (hb : path ≠ [] → k.before = l.before)
    (ha : k.after = l.after) : SamePrefix (path ++ [k]) (path' ++ [l]) := by
  refine .inr ⟨by simp, by simp, ?_⟩
  rw [stem, stem, h.pathText_eq ht hb, List.getLast?_concat, List.getLast?_concat, Option.map_some, Option.map_some, ha]

theorem SamePrefix.keyText_eq {usual : List Char × List Char} (h : SamePrefix path path') (ht : k.text = l.text)
    (hb : path ≠ [] → k.before = l.before) (ha : k.around.getD usual = l.around.getD usual) :
    keyText usual (path ++ [k]) = keyText usual (path' ++ [l]) := by
  have haround {path : List Label} {k : Label} : ((path ++ [k]).getLast?.bind Label.around).getD usual =
      k.around.getD usual := by
    rw [List.getLast?_concat]
    rfl
  rw [keyText, keyText, haround, haround, h.pathText_eq ht hb, ha]

end Paths

/-! ## Entries -/

theorem map_eq_map_of_key {α β κ γ : Type} {f : α → κ} {f' : β → κ} {g : α → γ} {g' : β → γ} {xs : List α} {ys : List β}
    (h : xs.map f = ys.map f') (hg : ∀ x ∈ xs, ∀ y ∈ ys, f x = f' y → g x = g' y) : xs.map g = ys.map g' := by
  induction xs generalizing ys with
  | nil =>
    cases ys with
    | nil => rfl
    | cons y ys => cases h
  | cons x xs ih =>
    cases ys with
    | nil => cases h
    | cons y ys =>
      obtain ⟨hxy, hrest⟩ := List.cons_eq_cons.1 h
      rw [List.map_cons, List.map_cons, hg x List.mem_cons_self y List.mem_cons_self hxy,
        ih hrest fun x hx y hy => hg x (List.mem_cons_of_mem _ hx) y (List.mem_cons_of_mem _ hy)]

/-- The entries of one name. -/
def textsUnder (path : List Label) (entry : Label × Node) : List (List Char) :=
  entry.2.leaves.map fun leaf => entryText path (entry.1 :: leaf.1, leaf.2)

/-- Only names that lead to values have entries. -/
theorem entryTexts_eq_bearers (path : List Label) (e : Entries) :
    entryTexts path e = ((e.filter fun entry => !entry.2.leaves.isEmpty).map (textsUnder path)).flatten := by
  rw [entryTexts_eq]
  induction e with
  | nil => rfl
  | cons entry rest ih =>
    rw [leavesOf, List.map_append, ih, List.filter_cons, List.map_map]
    split
    · rfl
    · next hempty =>
      have hnil : entry.2.leaves = [] := by simpa using hempty
      rw [hnil]
      rfl

theorem textsUnder_dotted (path : List Label) (l : Label) (s : Entries) :
    textsUnder path (l, .table .dotted s) = entryTexts (path ++ [l]) s := by
  rw [entryTexts_eq, textsUnder]
  refine List.map_congr_left fun leaf _ => ?_
  rw [entryText, entryText, List.append_assoc]
  rfl

/-- Entries of both trees are written alike. -/
theorem entryTexts_eq_of_twins {path path' : List Label} (ht : Twins level v e)
    (hp : Parts (fun _ => True) (fun _ => True) v e) (hv : v.IsSound) (he : e.IsSound) (hpre : SamePrefix path path')
    (hlevel : path ≠ [] → level = .dotted) : entryTexts path v = entryTexts path' e := by
  have hnames := bearers_eq ht hp hv he
  induction ht generalizing path path' with
  | @intro level v e hres horder htables hrows ih _ =>
    have ht : Twins level v e := .intro hres horder htables hrows
    rw [entryTexts_eq_bearers, entryTexts_eq_bearers]
    refine congrArg _ (map_eq_map_of_key hnames ?_)
    rintro ⟨k, n⟩ hk ⟨l, m⟩ hl hname
    obtain ⟨hk, hbears⟩ := List.mem_filter.1 hk
    obtain ⟨hl, -⟩ := List.mem_filter.1 hl
    have hname : k.name = l.name := hname
    have hbears : n.leaves ≠ [] := by simpa using hbears
    have htwin := ht.each hk hl hname
    have hgk := Entries.get?_of_mem hv.functional hk
    have hgl : e.get? k.name = some m := hname ▸ Entries.get?_of_mem he.functional hl
    have hpart := hp.each _ n m hgk hgl
    have hbefore (hne : path ≠ []) : k.before = l.before := by
      have hb := htwin.before
      rw [hlevel hne] at hb
      exact hb
    cases hpart with
    | leaf hn hm _ =>
      obtain ⟨haround, htext⟩ := htwin.value hm
      rw [textsUnder, textsUnder, leaves_of_isLeaf hn, leaves_of_isLeaf hm]
      simp only [List.map_singleton, entryText]
      rw [hpre.keyText_eq htwin.text hbefore haround, htext]
    | @table _ _ o o' s s' hst hea hal =>
      have hm := (leaves_ne_nil_of_part (.table hst hea hal) (hv.get? hgk) (he.get? hgl)).1 hbears
      obtain rfl : o = .dotted := by
        cases o with
        | dotted => rfl
        | _ => exact absurd rfl hbears
      obtain rfl : o' = .dotted := by
        cases o' with
        | dotted => rfl
        | _ => exact absurd rfl hm
      have hinner := Part.tables_inner (.table hst hea hal)
      have hs : Entries.IsSound s := .of_table (hv.get? hgk)
      have hs' : Entries.IsSound s' := .of_table (he.get? hgl)
      rw [textsUnder_dotted, textsUnder_dotted]
      exact ih k _ s l _ s' hk hl hname hinner hs hs' (hpre.concat htwin.text hbefore (htwin.after rfl)) (fun _ => rfl)
        (bearers_eq (htwin.table _ _ _ _ rfl rfl) hinner hs hs')
    | rows => exact absurd rfl hbears

theorem linesText_eq_of_twins (ht : Twins level v e) (hp : Parts (fun _ => True) (fun _ => True) v e) (hv : v.IsSound)
    (he : e.IsSound) : linesText v = linesText e := by
  rw [linesText, linesText, entryTexts_eq_of_twins ht hp hv he (.inl ⟨rfl, rfl⟩) fun h => absurd rfl h]

/-! ## Sections -/

/-- Names that lead both to values and to headers have no blanks in front. -/
def Entries.IsSettled (e : Entries) : Prop :=
  ∀ entry ∈ e, entry.2.leaves ≠ [] → entry.2.places ≠ [] → entry.1.before = []

instance (e : Entries) : Decidable e.IsSettled := inferInstanceAs (Decidable (∀ entry ∈ e, _))

/-- So it is in all repeated tables of a tree, and here if this is one. -/
def Settled (level : Level) (e : Entries) : Prop :=
  (level = .row → e.IsSettled) ∧ ∀ h c path, Route h true c e path → Entries.IsSettled c

section Route

variable {h : Header} {repeated : Bool} {content : Entries} {path : List Label}

theorem Settled.inside {o : Origin} {s : Entries} (hs : Settled level e) (hm : (l, .table o s) ∈ e) : Settled o.level s :=
  ⟨fun h => (by cases o <;> cases h), fun h c _ hr => hs.2 h c _ (.inside hm hr)⟩

theorem Settled.insideRow {rows : List (Header × Entries)} {s : Entries} (hs : Settled level e) (hm : (l, .tables rows) ∈ e)
    (hr : (h, s) ∈ rows) : Settled .row s :=
  ⟨fun _ => hs.2 h s _ (.row hm hr rfl), fun h c _ hc => hs.2 h c _ (.insideRow hm hr hc)⟩

/-- In front of a name that leads to headers there is what was there, unless the tree is not settled. -/
theorem Twin.before_eq (ht : Twin level k n l m) (hs : Settled level e) (hm : (l, m) ∈ e) (hroot : level ≠ .root)
    (hp : m.places ≠ []) : k.before = l.before := by
  have hb := ht.before
  cases level with
  | root => exact absurd rfl hroot
  | dotted => exact hb
  | table => exact hb hp
  | row =>
    by_cases hl : m.leaves = []
    · exact hb.1 hl
    · rw [hb.2 hl, hs.1 rfl (l, m) hm hl hp]

theorem Part.rows_inner {rows rows' : List (Header × Entries)} {j : Nat} {h₁ h₂ : Header} {s s' : Entries}
    (hp : Part (fun _ => True) (fun _ => True) (.tables rows) (.tables rows')) (h : rows[j]? = some (h₁, s))
    (h' : rows'[j]? = some (h₂, s')) : Parts (fun _ => True) (fun _ => True) s s' := by
  cases hp with
  | leaf hl => cases hl
  | rows _ _ hr =>
    obtain ⟨there, hst, hpa⟩ := part_table_iff.1 (hr j h₁ h₂ s s' h h')
    cases hst with
    | named ho => cases ho
    | opened => exact hpa

theorem exists_getElem?_row {rows rows' : List (Header × Entries)} {j : Nat} {s : Entries}
    (hh : rows.map Prod.fst <+: rows'.map Prod.fst) (hj : rows[j]? = some (h, s)) : ∃ s', rows'[j]? = some (h, s') := by
  have hmap : (rows.map Prod.fst)[j]? = some h := by rw [List.getElem?_map, hj]; rfl
  obtain ⟨zs, hz⟩ := hh
  have hmap' : (rows'.map Prod.fst)[j]? = some h := by
    rw [← hz, List.getElem?_append_left (List.getElem?_eq_some_iff.1 hmap).1]
    exact hmap
  rw [List.getElem?_map, Option.map_eq_some_iff] at hmap'
  obtain ⟨⟨h', s'⟩, hj', rfl⟩ := hmap'
  exact ⟨s', hj'⟩

theorem places_ne_nil_of_row {rows : List (Header × Entries)} {s : Entries} (hr : (h, s) ∈ rows) :
    (Node.tables rows).places ≠ [] :=
  List.ne_nil_of_mem (mem_placesOfRows.2 ⟨h, s, hr, List.mem_cons_self⟩)

/-- Under a name that leads to a table in one tree the other has a table too. -/
theorem Twins.exists_table {o : Origin} {s : Entries} (ht : Twins level v e)
    (hp : Parts (fun _ => True) (fun _ => True) v e) (hv : v.IsFunctional) (hk : (k, .table o s) ∈ v) :
    ∃ l o' s', (l, .table o' s') ∈ e ∧ k.name = l.name ∧ Twin level k (.table o s) l (.table o' s') ∧
      Parts (fun _ => True) (fun _ => True) s s' := by
  obtain ⟨l, m, hm, hname, hpart⟩ := hp.exists_entry hv hk
  cases hpart with
  | leaf hl => cases hl
  | @table _ _ _ o' _ s' hst hea hal =>
    exact ⟨l, o', s', hm, hname, ht.each hk hm hname, Part.tables_inner (.table hst hea hal)⟩

/-- Each of repeated tables in one tree has its like, with the same header, in the other. -/
theorem Twins.exists_row {rows : List (Header × Entries)} {s : Entries} (ht : Twins level v e)
    (hp : Parts (fun _ => True) (fun _ => True) v e) (hv : v.IsFunctional) (hk : (k, .tables rows) ∈ v)
    (hr : (h, s) ∈ rows) : ∃ l rows' s', (l, .tables rows') ∈ e ∧ (h, s') ∈ rows' ∧ k.name = l.name ∧
      Twin level k (.tables rows) l (.tables rows') ∧ Twins .row s s' ∧
      Parts (fun _ => True) (fun _ => True) s s' := by
  obtain ⟨l, m, hm, hname, hpart⟩ := hp.exists_entry hv hk
  have htwin := ht.each hk hm hname
  obtain ⟨rows', rfl⟩ : ∃ rows', m = .tables rows' := by
    cases hpart with
    | leaf hl => cases hl
    | rows => exact ⟨_, rfl⟩
  obtain ⟨j, hj⟩ := List.mem_iff_getElem?.1 hr
  obtain ⟨s', hj'⟩ := exists_getElem?_row htwin.headers hj
  exact ⟨l, rows', s', hm, List.mem_of_getElem? hj', hname, htwin, htwin.rows _ _ _ _ _ _ _ rfl rfl hj hj',
    hpart.rows_inner hj hj'⟩

/-- What is known of a section of a tree that is written alike. -/
structure Alike (repeated : Bool) (content content' : Entries) : Prop where
  twins : Twins (if repeated then .row else .table) content content'
  parts : Parts (fun _ => True) (fun _ => True) content content'

/-- The labels that lead to a section of one tree lead to one of the other, and they are written alike. -/
theorem Twins.route (hr : Route h repeated content v path) (ht : Twins level v e)
    (hp : Parts (fun _ => True) (fun _ => True) v e) (hv : v.IsSound) (he : e.IsSound) :
    ∃ content' path', Route h repeated content' e path' ∧ names path = names path' ∧ Alike repeated content content' ∧
      (Settled level e → ∀ pre pre', SamePrefix pre pre' → (level = .root → pre = []) →
        keyText ([], []) (pre ++ path) = keyText ([], []) (pre' ++ path')) := by
  induction hr generalizing level e with
  | @table v k hk hrep =>
    obtain ⟨l, o', s', hm, hname, htwin, hparts⟩ := ht.exists_table hp hv.functional hk
    obtain rfl : o' = .header h := by
      have hh := htwin.headers
      cases o' with
      | header h' =>
        obtain ⟨xs, hx⟩ := hh
        cases hx
        rfl
      | _ => cases List.prefix_nil.1 hh
    refine ⟨s', [l], .table hm hrep, congrArg (fun x => [x]) hname, ⟨?_, hparts⟩, fun hs pre pre' hpre hroot => ?_⟩
    · rw [hrep]
      exact htwin.table _ _ _ _ rfl rfl
    · exact hpre.keyText_eq htwin.text (fun hne => htwin.before_eq hs hm (mt hroot hne) (List.cons_ne_nil _ _))
        (htwin.around (List.cons_ne_nil _ _))
  | @row v k rows hk hmem hrep =>
    obtain ⟨l, rows', s', hm, hmem', hname, htwin, htwins, hparts⟩ := ht.exists_row hp hv.functional hk hmem
    refine ⟨s', [l], .row hm hmem' hrep, congrArg (fun x => [x]) hname, ⟨?_, hparts⟩, fun hs pre pre' hpre hroot => ?_⟩
    · rw [hrep]
      exact htwins
    · exact hpre.keyText_eq htwin.text
        (fun hne => htwin.before_eq hs hm (mt hroot hne) (places_ne_nil_of_row hmem'))
        (htwin.around (by simp [Node.headers, List.ne_nil_of_mem hmem]))
  | @inside v s k o path hk hr ih =>
    obtain ⟨l, o', s', hm, hname, htwin, hparts⟩ := ht.exists_table hp hv.functional hk
    have hs' : Entries.IsSound s' := .of_table (he.sound _ _ hm)
    obtain ⟨content', path', hr', hnames, halike, htext⟩ := ih (htwin.table _ _ _ _ rfl rfl) hparts
      (.of_table (hv.sound _ _ hk)) hs'
    refine ⟨content', l :: path', .inside hm hr', congrArg₂ List.cons hname hnames, halike, fun hs pre pre' hpre hroot => ?_⟩
    have hplace : (Node.table o' s').places ≠ [] :=
      List.ne_nil_of_mem (placesOf_subset o' s' (hr'.site hs').place_mem)
    have h := htext (hs.inside hm) (pre ++ [k]) (pre' ++ [l]) (hpre.concat htwin.text
      (fun hne => htwin.before_eq hs hm (mt hroot hne) hplace) (htwin.after rfl)) fun h => by cases o' <;> cases h
    simpa using h
  | @insideRow v s k rows h₁ path hk hmem hr ih =>
    obtain ⟨l, rows', s', hm, hmem', hname, htwin, htwins, hparts⟩ := ht.exists_row hp hv.functional hk hmem
    obtain ⟨content', path', hr', hnames, halike, htext⟩ := ih htwins hparts (.of_row (hv.sound _ _ hk) hmem)
      (.of_row (he.sound _ _ hm) hmem')
    refine ⟨content', l :: path', .insideRow hm hmem' hr', congrArg₂ List.cons hname hnames, halike,
      fun hs pre pre' hpre hroot => ?_⟩
    have h := htext (hs.insideRow hm hmem') (pre ++ [k]) (pre' ++ [l]) (hpre.concat htwin.text
      (fun hne => htwin.before_eq hs hm (mt hroot hne) (places_ne_nil_of_row hmem')) (htwin.after rfl))
      fun h => by cases h
    simpa using h

end Route

/-! ## Documents -/

section Documents

variable {bound : Nat} {rest : List Char}

/-- In each repeated table of a document, names that lead both to values and to headers have no blanks in
front. -/
def Document.IsSettled (d : Document) : Prop :=
  ∀ s ∈ sectionsOf [] d.entries, s.repeated = true → s.entries.IsSettled

instance (d : Document) : Decidable d.IsSettled := inferInstanceAs (Decidable (∀ s ∈ sectionsOf [] d.entries, _))

theorem Route.mem_sectionsOf {h : Header} {repeated : Bool} {content : Entries} {path : List Label}
    (hr : Route h repeated content e path) (pre : List Label) :
    (⟨h, repeated, pre ++ path, content⟩ : Section) ∈ sectionsOf pre e := by
  induction hr generalizing pre with
  | table hm hrep => exact Toml.mem_sectionsOf.2 ⟨_, _, hm, by rw [hrep]; exact List.mem_cons_self⟩
  | row hm hmem hrep => exact Toml.mem_sectionsOf.2 ⟨_, _, hm, mem_rowSections.2 ⟨_, _, hmem, .inl (by rw [hrep])⟩⟩
  | @inside e s l o path hm _ ih =>
    have h := ih (pre ++ [l])
    rw [List.append_assoc] at h
    refine Toml.mem_sectionsOf.2 ⟨_, _, hm, ?_⟩
    cases o with
    | header => exact List.mem_cons_of_mem _ h
    | _ => exact h
  | @insideRow e s l rows k path hm hmem _ ih =>
    have h := ih (pre ++ [l])
    rw [List.append_assoc] at h
    exact Toml.mem_sectionsOf.2 ⟨_, _, hm, mem_rowSections.2 ⟨_, _, hmem, .inr h⟩⟩

theorem Document.IsSettled.settled {d : Document} (h : d.IsSettled) : Settled .root d.entries :=
  ⟨fun h => (by cases h), fun _ _ _ hr => h _ (hr.mem_sectionsOf []) rfl⟩

theorem placesIn_sortedSections (h : e.Stands bound) : placesIn (sortedSections e) = List.range bound := by
  have hperm : (placesIn (sortedSections e)).Perm (List.range bound) := by
    have hsections := (List.mergeSort_perm (sectionsOf [] e) fun a b => a.header.place ≤ b.header.place).map
      fun s => s.header.place
    rw [places_sectionsOf] at hsections
    exact hsections.trans h.places
  exact hperm.eq_of_pairwise (fun a b _ _ hab hba => absurd hab (Nat.lt_asymm hba)) (pairwise_sortedSections h.nodup)
    List.pairwise_lt_range

/-- Each section of one tree is written as one of the other. -/
theorem exists_section (ht : Twins .root v e) (hp : Parts (fun _ => True) (fun _ => True) v e) (hv : v.IsSound)
    (he : e.IsSound) {s : Section} (hs : s ∈ sectionsOf [] v) : ∃ s' ∈ sectionsOf [] e, s'.header = s.header ∧
      Alike s.repeated s.entries s'.entries ∧ (Settled .root e → s.text = s'.text) := by
  obtain ⟨path, hpath, hroute⟩ := hv.allAt [] s hs
  obtain ⟨content', path', hroute', -, halike, htext⟩ := ht.route hroute hp hv he
  refine ⟨_, hroute'.mem_sectionsOf [], rfl, halike, fun hsettled => ?_⟩
  have hkey := htext hsettled [] [] (.inl ⟨rfl, rfl⟩) fun _ => rfl
  have hlines := linesText_eq_of_twins halike.twins halike.parts ((hroute.site hv).isSound hv)
    ((hroute'.site he).isSound he)
  have hkey' : keyText ([], []) s.path = keyText ([], []) ([] ++ path') := hpath ▸ hkey
  simp only [Section.text, hkey', hlines]

/-- Alike trees of which all is there have one text, if the tree is settled. -/
theorem render_eq_of_twins (ht : Twins .root v e) (hp : Parts (fun _ => True) (fun _ => True) v e)
    (hv : v.Stands bound) (he : e.Stands bound) (hs : Document.IsSettled ⟨e, rest⟩) :
    Document.render ⟨v, rest⟩ = Document.render ⟨e, rest⟩ := by
  have hlines := linesText_eq_of_twins ht hp hv.fits.isSound he.fits.isSound
  have hplaces : (sortedSections v).map (·.header.place) = (sortedSections e).map (·.header.place) :=
    (placesIn_sortedSections hv).trans (placesIn_sortedSections he).symm
  have htexts : (sortedSections v).map Section.text = (sortedSections e).map Section.text := by
    refine map_eq_map_of_key hplaces fun s hmem s' hmem' hplace => ?_
    obtain ⟨s₁, hmem₁, hheader, -, htext⟩ := exists_section ht hp hv.fits.isSound he.fits.isSound
      (mem_sortedSections.1 hmem)
    have hnodup : ((sectionsOf [] e).map (·.header.place)).Nodup := by
      rw [places_sectionsOf]
      exact he.nodup
    have hsame := List.inj_on_of_nodup_map hnodup hmem₁ (mem_sortedSections.1 hmem') (by rw [hheader]; exact hplace)
    rw [htext hs.settled, hsame]
  have hflat : (sortedSections v).flatMap Section.text = (sortedSections e).flatMap Section.text := by
    rw [List.flatMap_def, List.flatMap_def, htexts]
  rw [sortedSections, sortedSections] at hflat
  simp only [Document.render, hlines, hflat]

/-- A tree that was read again is settled, whatever it was before. -/
theorem isSettled_of_twins (ht : Twins .root v e) (hp : Parts (fun _ => True) (fun _ => True) v e) (hv : v.IsSound)
    (he : e.IsSound) : Document.IsSettled ⟨v, rest⟩ := by
  rintro s hs hrep ⟨k, n⟩ hk hn -
  obtain ⟨s', hs', -, halike, -⟩ := exists_section ht hp hv he hs
  obtain ⟨p, -, hr⟩ := hv.allAt [] s hs
  obtain ⟨p', -, hr'⟩ := he.allAt [] s' hs'
  have hsv := (hr.site hv).isSound hv
  have hse := (hr'.site he).isSound he
  obtain ⟨l, m, hl, hname, hpart⟩ := halike.parts.exists_entry hsv.functional hk
  have htwins := halike.twins
  rw [hrep, if_pos rfl] at htwins
  have hb := (htwins.each hk hl hname).before
  exact hb.2 ((leaves_ne_nil_of_part hpart (hsv.sound _ _ hk) (hse.sound _ _ hl)).1 hn)

end Documents

end SqlLint.Toml
