import SqlLint.Proofs.Toml.Rereading

/-! # A list that is written over another one

A document in which a list has been set has the text that it has if another list was set before, except for
blanks in front of names that lead from one of repeated tables both to a value and to a header. -/
namespace SqlLint.Toml

variable {v e : Entries} {k l : Label} {n m : Node} {path path' : List Label} {bound : Nat} {rest : List Char}

/-! ## Blanks that are written -/

section Blanks

variable {h : Header} {repeated : Bool} {content : Entries}

theorem Route.exists_head (hr : Route h repeated content e path) : ∃ l n ls, (l, n) ∈ e ∧ path = l :: ls := by
  cases hr with
  | table hm => exact ⟨_, _, _, hm, rfl⟩
  | row hm => exact ⟨_, _, _, hm, rfl⟩
  | inside hm => exact ⟨_, _, _, hm, rfl⟩
  | insideRow hm => exact ⟨_, _, _, hm, rfl⟩

/-- From a section labels lead on to the sections in its table. -/
theorem Route.append {h' : Header} {repeated' : Bool} {content' : Entries} (hr : Route h repeated content e path)
    (hr' : Route h' repeated' content' content path') : Route h' repeated' content' e (path ++ path') := by
  induction hr with
  | table hm _ => exact .inside hm hr'
  | row hm hmem _ => exact .insideRow hm hmem hr'
  | inside hm _ ih => exact .inside hm ih
  | insideRow hm hmem _ ih => exact .insideRow hm hmem ih

/-- A name that leads to a header leads to a section. -/
theorem exists_route (hs : Sound n) (hm : (l, n) ∈ e) (hp : n.places ≠ []) :
    ∃ h repeated content ls, Route h repeated content e (l :: ls) := by
  have inside {o : Origin} {t : Entries} (hs : Sound (.table o t)) (hm : (l, .table o t) ∈ e) (hp : placesOf t ≠ []) :
      ∃ h repeated content ls, Route h repeated content e (l :: ls) := by
    rw [← places_sectionsOf [], ne_eq, List.map_eq_nil_iff] at hp
    obtain ⟨s, hmem⟩ := List.exists_mem_of_ne_nil _ hp
    obtain ⟨ls, -, hr⟩ := (Entries.IsSound.of_table hs).allAt [] s hmem
    exact ⟨_, _, _, ls, .inside hm hr⟩
  cases n with
  | scalar | array | inline => exact absurd rfl hp
  | table o t =>
    cases o with
    | header h => exact ⟨h, false, t, [], .table hm rfl⟩
    | _ => exact inside hs hm hp
  | tables rows =>
    cases rows with
    | nil => exact absurd rfl hp
    | cons row rows => exact ⟨row.1, true, row.2, [], .row hm List.mem_cons_self rfl⟩

/-- Each name of a tree is one of a part of which all is there. -/
theorem Parts.exists_entry_left (hp : Parts (fun _ => True) (fun _ => True) v e) (hf : e.IsFunctional) (hm : (l, m) ∈ e)
    (hs : Sound m) : ∃ k n, (k, n) ∈ v ∧ k.name = l.name ∧ Part (fun _ => True) (fun _ => True) n m := by
  have hg := Entries.get?_of_mem hf hm
  obtain ⟨n, hn⟩ := Option.isSome_iff_exists.1
    ((hp.all l.name).2 ⟨m, hg, present_of_all hs (fun _ _ => trivial) fun _ => trivial⟩)
  obtain ⟨k, hk, hkn⟩ := Entries.mem_of_get? hn
  exact ⟨k, n, hkn, hk, hp.each _ n m hn hg⟩

/-- What leads to headers in a tree leads to headers in a part of which all is there. -/
theorem places_ne_nil_of_part (hs : Sound m) (hp : Part (fun _ => True) (fun _ => True) n m) (hm : m.places ≠ []) :
    n.places ≠ [] := by
  induction hs generalizing n with
  | leaf hl => exact absurd (places_of_isLeaf hl) hm
  | @table o' t' hf _ _ hs ih =>
    cases hp with
    | leaf _ hl => cases hl
    | @table _ there o _ t _ hst hea hal =>
      have inside (hm : placesOf t' ≠ []) : (Node.table o t).places ≠ [] := by
        obtain ⟨q, hq⟩ := List.exists_mem_of_ne_nil _ hm
        obtain ⟨l, c, hc, hq⟩ := mem_placesOf.1 hq
        obtain ⟨k, n, hk, -, hpart⟩ := (Part.tables_inner (.table hst hea hal)).exists_entry_left hf hc (hs l c hc)
        obtain ⟨q', hq'⟩ := List.exists_mem_of_ne_nil _ (ih l c hc hpart (List.ne_nil_of_mem hq))
        exact List.ne_nil_of_mem (placesOf_subset o t (mem_placesOf.2 ⟨k, n, hk, hq'⟩))
      cases hst with
      | opened => exact List.cons_ne_nil _ _
      | closed h => exact absurd trivial h
      | named _ ho' => exact inside (places_of_header?_eq_none ho' t' ▸ hm)
  | @tables rows' hne _ _ _ _ =>
    cases hp with
    | leaf _ hl => cases hl
    | @rows _ rows _ hlen hdone _ =>
      obtain ⟨row, rows', rfl⟩ := List.exists_cons_of_ne_nil hne
      have hpos : 0 < rows.length := (hdone 0 row.1 row.2 rfl).1 trivial
      obtain ⟨row', hrow'⟩ := List.exists_mem_of_length_pos hpos
      exact places_ne_nil_of_row hrow'

/-- In front of a name that is not the first one of a key its blanks are written. -/
theorem getElem?_keyFrom (before after : List Char) (path : List Label) (l : Label) (ls : List Label) :
    ((keyFrom before after (path ++ l :: ls))[path.length]?).map Segment.before =
      some (if path = [] then before else l.before) := by
  induction path generalizing before with
  | nil => cases ls <;> rfl
  | cons k ks ih =>
    cases ks with
    | nil =>
      rw [if_neg (List.cons_ne_nil _ _)]
      cases ls <;> rfl
    | cons k' ks =>
      have h := ih k'.before
      rw [if_neg (List.cons_ne_nil _ _)] at h ⊢
      exact h

theorem getElem?_sortedSections (h : e.Stands bound) {s : Section} (hs : s ∈ sectionsOf [] e) :
    (sortedSections e)[s.header.place]? = some s := by
  obtain ⟨i, hi⟩ := List.mem_iff_getElem?.1 (mem_sortedSections.2 hs)
  have hplace : (placesIn (sortedSections e))[i]? = some s.header.place := by
    rw [placesIn, List.getElem?_map, hi]
    rfl
  rw [placesIn_sortedSections h] at hplace
  obtain ⟨_, hrange⟩ := List.getElem?_eq_some_iff.1 hplace
  rw [List.getElem_range] at hrange
  rw [← hrange]
  exact hi

/-- Trees with the same lines have the same keys in the headers of the same places. -/
theorem keyOf_eq_of_linesOf (hv : v.Stands bound) (he : e.Stands bound) (hl : linesOf v = linesOf e) {s s' : Section}
    (hs : s ∈ sectionsOf [] v) (hs' : s' ∈ sectionsOf [] e) (hplace : s.header.place = s'.header.place) :
    keyOf ([], []) s.path = keyOf ([], []) s'.path := by
  have hkeys := congrArg (·[s.header.place]?) (congrArg headersIn hl)
  simp only [headersIn_linesOf, List.getElem?_map] at hkeys
  rw [getElem?_sortedSections hv hs, hplace, getElem?_sortedSections he hs'] at hkeys
  exact Option.some.inj hkeys

end Blanks

/-- A tree of which the text is kept when it is read again is settled. -/
theorem isSettled_of_render_eq (ht : Twins .root v e) (hp : Parts (fun _ => True) (fun _ => True) v e)
    (hv : v.Stands bound) (he : e.Stands bound) (hr : IsEnd rest)
    (h : Document.render ⟨v, rest⟩ = Document.render ⟨e, rest⟩) : Document.IsSettled ⟨e, rest⟩ := by
  have hlines : linesOf v = linesOf e := by
    have hsource := (read?_render (hv.isSpelled hr)).symm.trans ((congrArg _ h).trans (read?_render (he.isSpelled hr)))
    exact (Source.mk.inj (Option.some.inj hsource)).1
  have hvs := hv.fits.isSound
  have hes := he.fits.isSound
  rintro s' hs' hrep ⟨l, m⟩ hl hleaves hplaces
  -- The section of the other tree at the same place, of which this one is the like.
  have hplace : s'.header.place ∈ placesIn (sortedSections v) := by
    rw [placesIn_sortedSections hv, ← placesIn_sortedSections he]
    exact List.mem_map_of_mem (mem_sortedSections.2 hs')
  obtain ⟨s, hs, hplace⟩ := List.mem_map.1 hplace
  obtain ⟨p, -, hroute⟩ := hvs.allAt [] s (mem_sortedSections.1 hs)
  obtain ⟨content, p', hroute', hnames, halike, -⟩ := ht.route hroute hp hvs hes
  have hnodup : ((sectionsOf [] e).map (·.header.place)).Nodup := by
    rw [places_sectionsOf]
    exact he.nodup
  obtain rfl := List.inj_on_of_nodup_map hnodup (hroute'.mem_sectionsOf []) hs' hplace
  have hsv := (hroute.site hvs).isSound hvs
  have hse := (hroute'.site hes).isSound hes
  obtain ⟨k, n, hk, hname, hpart⟩ := halike.parts.exists_entry_left hse.functional hl (hse.sound _ _ hl)
  have hbefore : k.before = [] := by
    have htwins := halike.twins
    rw [show s.repeated = true from hrep, if_pos rfl] at htwins
    exact (htwins.each hk hl hname).before.2 hleaves
  -- A header in it that the name leads to is written with the blanks in front of the name.
  obtain ⟨h₁, repeated, content₁, ls, hinner⟩ := exists_route (hsv.sound _ _ hk) hk
    (places_ne_nil_of_part (hse.sound _ _ hl) hpart hplaces)
  obtain ⟨content₂, path, hinner', hnames', -, -⟩ := halike.twins.route hinner halike.parts hsv hse
  obtain ⟨l', m', ls', hl', rfl⟩ := hinner'.exists_head
  obtain ⟨rfl, -⟩ := eq_of_name hse.functional hl hl' (hname.symm.trans (List.cons_eq_cons.1 hnames').1)
  have hkey := keyOf_eq_of_linesOf hv he hlines ((hroute.append hinner).mem_sectionsOf [])
    ((hroute'.append hinner').mem_sectionsOf []) rfl
  have hlength : p.length = p'.length := by
    have h := congrArg List.length hnames
    rwa [names, names, List.length_map, List.length_map] at h
  have hseg := congrArg (fun key : Key => (key[p.length]?).map Segment.before) hkey
  simp only [keyOf, List.nil_append, getElem?_keyFrom] at hseg
  rw [hlength, getElem?_keyFrom] at hseg
  obtain ⟨_, _, _, -, rfl⟩ := hroute.exists_head
  obtain ⟨_, _, _, -, rfl⟩ := hroute'.exists_head
  rw [if_neg (List.cons_ne_nil _ _), if_neg (List.cons_ne_nil _ _), hbefore] at hseg
  exact (Option.some.inj hseg).symm

/-! ## A value in place of another one -/

section Set

variable {m' : Node} {name : String} {values : List String} {d : Document}

/-- The same names lead to values after a value took the place of another one. -/
theorem bearers_set (hx : e.get? l.name = some m) (hm : m.isLeaf = true) (hn : n.isLeaf = true) :
    bearers (e.set l n) = bearers e := by
  obtain ⟨front, k, back, rfl, hset, -⟩ := Entries.exists_split hx
  rw [hset, bearers, bearers, List.filter_append, List.filter_append, List.filter_cons_of_pos, List.filter_cons_of_pos,
    List.map_append, List.map_append]
  · rfl
  · rw [leaves_of_isLeaf hm]
    rfl
  · rw [leaves_of_isLeaf hn]
    rfl

/-- Trees stay alike when the same value takes the place of an old one in both. -/
theorem Twins.set_leaf (ht : Twins .root v e) (hv : v.IsFunctional) (he : e.IsFunctional) (hn : n.isLeaf = true)
    (hx : v.get? l.name = some m') (hy : e.get? l.name = some m) (hm : m.isLeaf = true) :
    Twins .root (v.set l n) (e.set l n) := by
  obtain ⟨heach, hpairs⟩ := twins_iff.1 ht
  refine twins_iff.2 ⟨fun k₁ n₁ l₁ m₁ hk hl hname => ?_, ?_⟩
  · rcases Entries.mem_set_of_some hv hx hk with ⟨hkl, rfl, hkv⟩ | ⟨hkl, hkv⟩
    · rcases Entries.mem_set_of_some he hy hl with ⟨-, rfl, hle⟩ | ⟨hll, -⟩
      · have htwin := heach _ _ _ _ hkv hle hname
        exact twin_of_leaf htwin.text trivial (htwin.value hm).1 hn hn rfl
      · exact absurd (hname.symm.trans hkl) hll
    · rcases Entries.mem_set_of_some he hy hl with ⟨hll, -, -⟩ | ⟨-, hle⟩
      · exact absurd (hname.trans hll) hkl
      · exact heach _ _ _ _ hkv hle hname
  · rw [Entries.names_set, hx, Option.isSome_some, if_pos rfl, bearers_set hy hm hn]
    exact hpairs

/-- All is there still. -/
theorem Parts.set_leaf (hp : Parts (fun _ => True) (fun _ => True) v e) (hn : n.isLeaf = true) :
    Parts (fun _ => True) (fun _ => True) (v.set l n) (e.set l n) := by
  refine ⟨fun x n₁ m₁ hx hy => ?_, fun x => ?_⟩
  · rw [Entries.get?_set] at hx hy
    split at hx
    · next h =>
      rw [if_pos h] at hy
      cases hx
      cases hy
      exact .leaf hn hn rfl
    · next h =>
      rw [if_neg h] at hy
      exact hp.each x n₁ m₁ hx hy
  · rw [Entries.get?_set, Entries.get?_set]
    split
    · exact ⟨fun _ => ⟨n, rfl, .leaf hn trivial⟩, fun _ => rfl⟩
    · exact hp.all x

/-- A value of the root table has no sections. -/
theorem sectionsOf_set_leaf (path : List Label) (hn : n.isLeaf = true)
    (hx : ∀ m, e.get? l.name = some m → m.isLeaf = true) : sectionsOf path (e.set l n) = sectionsOf path e := by
  have hsections {m : Node} (hm : m.isLeaf = true) (path : List Label) : m.sections path = [] := by
    cases m with
    | scalar | array | inline => rfl
    | table | tables => cases hm
  induction e with
  | nil =>
    have hfirst : sectionsOf path [(l, n)] = n.sections (path ++ [l]) ++ [] := rfl
    rw [Entries.set, hfirst, hsections hn]
    rfl
  | cons first rest ih =>
    obtain ⟨k, c⟩ := first
    rw [Entries.get?] at hx
    rw [Entries.set]
    split
    · next hk =>
      rw [if_pos hk] at hx
      rw [sectionsOf, sectionsOf, hsections hn, hsections (hx c rfl)]
    · next hk =>
      rw [if_neg hk] at hx
      rw [sectionsOf, sectionsOf, ih hx]

theorem isSettled_setList_iff (values : List String) (hx : ∀ n, d.entries.get? name = some n → n.isLeaf = true) :
    (d.setList name values).IsSettled ↔ d.IsSettled := by
  have hsections : sectionsOf [] (d.setList name values).entries = sectionsOf [] d.entries :=
    sectionsOf_set_leaf (l := nameLabel name) [] rfl hx
  rw [Document.IsSettled, Document.IsSettled, hsections]

end Set

/-! ## Lists -/

section Lists

variable {name : String} {d : Document} {text : List Char}

theorem writeList_eq (hd : Document.read Scalar.isNarrow text = .ok d) (name : String) (values : List String) :
    writeList name values text = .ok (d.setList name values).render := by
  rw [writeList, hd]
  rfl

/-- Of two lists that are written one after the other only the second one leaves a trace, if the document is
settled, and it is once a list has been written. -/
theorem exists_overwritten (hd : Document.read Scalar.isNarrow text = .ok d) (hname : (nameLabel name).IsSpelled)
    (hx : ∀ n, d.entries.get? name = some n → n.isLeaf = true) (values : List String) :
    ∃ written d', writeList name values text = .ok written ∧ Document.read Scalar.isNarrow written = .ok d' ∧
      d'.IsSettled ∧ ∀ more, writeList name more written = writeList name more text ↔ d.IsSettled := by
  obtain ⟨⟨bound, hs⟩, hend⟩ := stands_of_read hd
  have hstands : (d.setList name values).entries.Stands bound := stands_setList hs hname hx
  obtain ⟨v, hv, hvs, htwins, hparts⟩ := exists_twin hstands (neat_setList (neat_of_read hd) hx) hend
  have hlist : (d.setList name values).entries.get? name = some (listNode values) := by
    rw [Document.setList, Entries.get?_set, if_pos rfl]
  obtain ⟨n, hn⟩ := Option.isSome_iff_exists.1 ((hparts.all name).2 ⟨_, hlist, .leaf rfl trivial⟩)
  have hleaf : n.isLeaf = true := by
    cases hparts.each _ _ _ hn hlist with
    | leaf hn => exact hn
  refine ⟨_, _, writeList_eq hd name values, hv, ?_, fun more => ?_⟩
  · exact isSettled_of_twins htwins hparts hvs.fits.isSound hstands.fits.isSound
  · have hset : (d.setList name more).entries =
        (d.setList name values).entries.set (nameLabel name) (listNode more) := (Entries.set_set _ _ _ _).symm
    have htwins' : Twins .root (v.set (nameLabel name) (listNode more)) (d.setList name more).entries :=
      hset ▸ htwins.set_leaf hvs.fits.isSound.functional hstands.fits.isSound.functional rfl hn hlist rfl
    have hparts' : Parts (fun _ => True) (fun _ => True) (v.set (nameLabel name) (listNode more))
        (d.setList name more).entries := hset ▸ hparts.set_leaf rfl
    have hvs' : (v.set (nameLabel name) (listNode more)).Stands bound :=
      stands_setList (d := ⟨v, d.rest⟩) hvs hname fun m hm => by cases hn.symm.trans hm; exact hleaf
    have hstands' : (d.setList name more).entries.Stands bound := stands_setList hs hname hx
    have hv : Document.read Scalar.isNarrow (d.setList name values).render = .ok ⟨v, d.rest⟩ := hv
    rw [writeList_eq hv, writeList_eq hd, ← isSettled_setList_iff more hx, Except.ok.injEq]
    exact ⟨isSettled_of_render_eq htwins' hparts' hvs' hstands' hend, render_eq_of_twins htwins' hparts' hvs' hstands'⟩

end Lists

end SqlLint.Toml
