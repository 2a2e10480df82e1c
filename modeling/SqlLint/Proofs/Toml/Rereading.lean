import SqlLint.Proofs.Toml.Likeness

/-! # Reading again, label by label

The lines of a tree that was read are read as a tree that is written alike: value by value and section by
section. -/
namespace SqlLint.Toml
open Document.Draft (atLast)

/-- A value that is read again as it was written. -/
structure Item.Recalls (item leaf : Item) : Prop extends item.IsOf leaf where
  labels : Toml.Recalls ([], [' ']) true item.1 leaf.1
  text : item.2.text = leaf.2.text

/-- A section that is read again as it was written. -/
structure Reading.Recalls (r : Reading) (s : Section) : Prop where
  header : r.header = s.header
  repeated : r.repeated = s.repeated
  labels : Toml.Recalls ([], []) true r.labels s.path
  items : List.Forall₂ Item.Recalls r.items (leavesOf s.entries)

theorem Reading.Recalls.isOf {r : Reading} {s : Section} (h : r.Recalls s) : r.IsOf s :=
  ⟨h.repeated, h.labels.names, h.items.imp fun _ _ h => h.toIsOf⟩

variable {early : Nat → Prop} {level : Level} {e t u v : Entries} {i : Nat} {items leaves : List Item}

/-! ## Values -/

/-- Of values in their order, the first ones are here. -/
theorem orderly_of_append {before : List Item} (hs : e.IsSound) (h : leavesOf e = before ++ leaves) :
    Orderly (· ∈ before.map fun leaf => names leaf.1) e := by
  have hd := nodup_leavesOf hs
  rw [h, List.map_append] at hd
  rw [Orderly, h]
  refine List.pairwise_append.2 ⟨?_, ?_, fun a ha _ _ _ => List.mem_map_of_mem ha⟩
  · exact List.pairwise_of_forall_mem_list fun a ha _ _ _ => List.mem_map_of_mem ha
  · refine List.pairwise_of_forall_mem_list fun a _ b hb hhere => ?_
    exact absurd rfl ((List.nodup_append.1 hd).2.2 _ hhere _ (List.mem_map_of_mem hb))

/-- Values that are set one after another lead to a tree like the one that they are of. -/
theorem putAll_twins (before : List Item) (hs : e.IsSound) (hneat : Neat early e) (hi : List.Forall₂ Item.Recalls items leaves)
    (hl : leavesOf e = before ++ leaves) (hlevel : level ≠ .dotted)
    (hleads : level = .table → ∀ l s, (l, .table .dotted s) ∈ e → l.before = [] ∨ ∃ q ∈ placesOf s, q < i)
    (hearly : ∀ q ∈ placesOf e, q < i → early q)
    (hp : Parts (· < i) (· ∈ before.map fun leaf => names leaf.1) t e) (ht : Twins level t e)
    (hu : putAll items t = some u) : Twins level u e := by
  induction hi generalizing t before with
  | nil =>
    cases hu
    exact ht
  | @cons item leaf items leaves hit _ ih =>
    have hmem : leaf ∈ leavesOf e := by simp [hl]
    have hd := nodup_leavesOf hs
    rw [hl, List.map_append] at hd
    have hnot : names leaf.1 ∉ before.map fun leaf => names leaf.1 := fun hc =>
      (List.nodup_append.1 hd).2.2 _ hc _ (List.mem_map_of_mem List.mem_cons_self) rfl
    rw [putAll_cons] at hu
    obtain ⟨w, hw, hu⟩ := Option.bind_eq_some_iff.1 hu
    obtain ⟨w', hw', hparts⟩ := put_parts (reaches_of_mem_leavesOf hs hmem) hp hnot hit.names hit.isLeaf hit.value
    cases hw.symm.trans hw'
    have htwins := put_twins hit.labels hmem hs hneat (by simp [hlevel]) hleads hearly (orderly_of_append hs hl) hp ht
      hit.isLeaf hit.text hw
    refine ih (before ++ [leaf]) (by rw [hl, List.append_assoc]; rfl) ?_ htwins hu
    refine parts_congr hparts (fun _ _ => .rfl) fun x c p _ _ => ?_
    simp

/-- The values of a table lead to a table like it. -/
theorem fill_twins (hs : e.IsSound) (hneat : Neat early e) (hi : List.Forall₂ Item.Recalls items (leavesOf e))
    (hlevel : level ≠ .dotted)
    (hleads : level = .table → ∀ l s, (l, .table .dotted s) ∈ e → l.before = [] ∨ ∃ q ∈ placesOf s, q < i)
    (hearly : ∀ q ∈ placesOf e, q < i → early q) (hp : Parts (· < i) (fun _ => False) t e) (ht : Twins level t e)
    (hu : putAll items t = some u) : Twins level u e := by
  refine putAll_twins [] hs hneat hi rfl hlevel hleads hearly ?_ ht hu
  exact parts_congr hp (fun _ _ => .rfl) fun _ _ _ _ _ => by simp

/-! ## Sections -/

/-- Where a section is, its table is in the order of the text. -/
theorem Route.neat {h : Header} {repeated : Bool} {content : Entries} {path : List Label}
    (hr : Route h repeated content e path) (hneat : Neat early e) :
    Neat (if repeated then fun _ => False else (· < h.place)) content ∧ (repeated = false → Leads h content) := by
  induction hr generalizing early with
  | table hm hrep =>
    have hnode := (neat_iff.1 hneat).2.2 _ _ hm
    rw [hrep]
    exact ⟨hnode.table _ _ rfl, fun _ => hnode.leads h content rfl⟩
  | row hm hmem hrep =>
    rw [hrep]
    exact ⟨((neat_iff.1 hneat).2.2 _ _ hm).rows _ h content rfl hmem, fun h => by cases h⟩
  | inside hm _ ih => exact ih (((neat_iff.1 hneat).2.2 _ _ hm).table _ _ rfl)
  | insideRow hm hmem _ ih => exact ih (((neat_iff.1 hneat).2.2 _ _ hm).rows _ _ _ rfl hmem)

/-- The headers in one of repeated tables come after its own one. -/
theorem Route.lt_of_repeated {h : Header} {repeated : Bool} {content : Entries} {path : List Label}
    (hr : Route h repeated content e path) (hrep : repeated = true) (hs : e.IsSound) :
    ∀ q ∈ placesOf content, h.place < q := by
  induction hr with
  | table _ h => exact absurd (hrep.symm.trans h) (by simp)
  | row hm hmem _ =>
    cases hs.sound _ _ hm with
    | leaf hl => cases hl
    | tables _ hin _ _ => exact hin _ _ hmem
  | inside hm _ ih => exact ih (.of_table (hs.sound _ _ hm))
  | insideRow hm hmem _ ih => exact ih (.of_row (hs.sound _ _ hm) hmem)

/-- A section that is read again leads to a tree like the one it is of. -/
theorem Reading.Recalls.twins {r : Reading} {s : Section} (hr : r.Recalls s) (hs : e.IsSound) (hneat : Neat early e)
    (hm : s ∈ sectionsOf [] e) (hp : Parts (· < s.header.place) (fun _ => True) t e) (ht : Twins .root t e)
    (hu : r.enter t = some u) : Twins .root u e := by
  obtain ⟨p, hpath, hroute⟩ := hs.allAt [] s hm
  have hcontent : s.entries.IsSound := (hroute.site hs).isSound hs
  obtain ⟨hneat', hleads⟩ := hroute.neat hneat
  have hlabels := hr.labels
  rw [hpath, List.nil_append] at hlabels
  rw [Reading.enter, hr.header, hr.repeated] at hu
  refine enter_twins hroute hs hneat hlabels (fun _ => rfl) (fun h => by cases h) (.inr fun _ => trivial)
    (orderly_const _ _) hp ht (fun a a' ha hta hga => ?_) hu
  refine fill_twins hcontent hneat' hr.items (by cases s.repeated <;> simp) (fun hlevel => ?_) (fun q hq hlt => ?_) ha hta hga
  · exact hleads (by cases hrep : s.repeated with | false => rfl | true => rw [hrep] at hlevel; cases hlevel)
  · cases hrep : s.repeated with
    | false => exact hlt
    | true => exact absurd hlt (Nat.lt_asymm (hroute.lt_of_repeated hrep hs q hq))

/-- Sections that are read again in their order lead to a tree like the one they are of. -/
theorem enterAll_twins (hs : e.IsSound) (hd : (placesOf e).Nodup) (hneat : Neat early e) {readings : List Reading}
    {sections : List Section} (hr : List.Forall₂ Reading.Recalls readings sections)
    (hm : ∀ s ∈ sections, s ∈ sectionsOf [] e) (hplaces : placesIn sections = List.range' i sections.length)
    (hp : Parts (· < i) (fun _ => True) t e) (ht : Twins .root t e) (hu : readings.foldlM Reading.enter t = some u) :
    Twins .root u e := by
  induction hr generalizing t i with
  | nil =>
    cases hu
    exact ht
  | @cons r s readings sections hrs _ ih =>
    obtain ⟨hplace, hplaces⟩ := List.cons_eq_cons.1 hplaces
    rw [List.foldlM_cons] at hu
    obtain ⟨w, hw, hu⟩ := Option.bind_eq_some_iff.1 hu
    have hmem := hm s List.mem_cons_self
    subst hplace
    obtain ⟨w', hw', hparts⟩ := enter_reading hs hd hrs.isOf hmem (fun _ _ => .rfl) hp
    cases hw.symm.trans hw'
    refine ih (fun s' h => hm s' (List.mem_cons_of_mem _ h)) hplaces ?_ (hrs.twins hs hneat hmem hp ht hw) hu
    exact parts_congr hparts (fun q _ => by simp only [andPlace]; omega) fun _ _ _ _ _ => .rfl

/-! ## Keys -/

section Keys

variable {usual : List Char × List Char} {path labels : List Label}

theorem around_keyFrom (hn : path ≠ []) (before after : List Char) :
    (((keyFrom before after path).head?.map Segment.before).getD [],
      ((keyFrom before after path).getLast?.map Segment.after).getD []) = (before, after) := by
  induction path generalizing before with
  | nil => exact absurd rfl hn
  | cons l ls ih =>
    cases ls with
    | nil => rfl
    | cons l' ls =>
      obtain ⟨s, key, hs⟩ : ∃ s key, keyFrom l'.before after (l' :: ls) = s :: key := by
        cases ls <;> exact ⟨_, _, rfl⟩
      have h := (Prod.mk.inj (ih (by simp) l'.before)).2
      rw [hs] at h
      rw [keyFrom, hs, List.getLast?_cons_cons, h]
      rfl

theorem recalls_spell (hn : path ≠ []) (first : Bool) (before after : List Char)
    (hb : first = false → ∀ l, path.head? = some l → before = l.before) :
    Recalls usual first (Key.labels.spell (aroundOf usual path) first ((names path).zip (keyFrom before after path))) path := by
  induction path generalizing first before with
  | nil => exact absurd rfl hn
  | cons l ls ih =>
    have hbefore : (if first then [] else before) = if first then [] else l.before := by
      cases first with
      | true => rfl
      | false => exact hb rfl l rfl
    cases ls with
    | nil => exact .last ⟨rfl, rfl, hbefore⟩ rfl rfl
    | cons l' ls =>
      have hrest := ih (by simp) false l'.before fun _ k hk => by cases hk; rfl
      obtain ⟨pair, pairs, hp⟩ : ∃ pair pairs, (names (l' :: ls)).zip (keyFrom l'.before after (l' :: ls)) = pair :: pairs := by
        cases ls <;> exact ⟨_, _, rfl⟩
      have hzip : (names (l :: l' :: ls)).zip (keyFrom before after (l :: l' :: ls)) =
          (l.name, ⟨before, l.text, l.after⟩) :: (names (l' :: ls)).zip (keyFrom l'.before after (l' :: ls)) := rfl
      have haround : aroundOf usual (l :: l' :: ls) = aroundOf usual (l' :: ls) := by
        rw [aroundOf, aroundOf, List.getLast?_cons_cons]
      rw [hzip, hp, Key.labels.spell, ← hp, haround]
      · exact .cons ⟨rfl, rfl, hbefore⟩ rfl hrest
      · exact fun h => by cases h

/-- The labels of a key that was written are those it was written from. -/
theorem recalls_labels (hp : IsPath path) (h : (keyOf usual path).labels = .ok labels) : Recalls usual true labels path := by
  have hlimit : ¬ Key.limit < (keyOf usual path).length := by
    rw [keyOf, length_keyFrom]
    exact Nat.not_lt.2 hp.length_le
  have hnames : (keyOf usual path).mapM Segment.name = .ok (names path) := mapM_name_keyFrom _ _ hp.spelled
  simp only [Key.labels, hnames, bind, Except.bind] at h
  rw [if_neg hlimit, keyOf, around_keyFrom hp.ne_nil] at h
  cases h
  exact recalls_spell hp.ne_nil true _ _ fun h => by cases h

end Keys

/-! ## Texts of values -/

section Texts

variable {takes : Scalar → Bool} {inside : Bool} {depth : Nat} {n m : Node} {labels : List Label}

/-- A value that is set keeps a tree sound. -/
theorem Entries.IsSound.put (hn : n.isLeaf = true) (he : e.IsSound) (hu : e.put n labels = some u) : u.IsSound ∧ u ≠ [] := by
  induction labels generalizing e u with
  | nil => cases hu
  | cons l ls ih =>
    have hset {c : Node} (hc : Sound c) : (e.set l c).IsSound ∧ e.set l c ≠ [] :=
      ⟨⟨isFunctional_set l c he.functional, forall_set he.sound (fun _ => hc) fun _ _ _ _ _ => hc⟩, set_ne_nil l c e⟩
    cases ls with
    | nil =>
      obtain ⟨-, rfl⟩ := put_last hu
      exact hset (.leaf hn)
    | cons l' ls =>
      have hdotted {s : Entries} (hs : s.IsSound ∧ s ≠ []) : Sound (.table .dotted s) :=
        .table hs.1.functional (fun _ => hs.2) (fun h => by cases h) hs.1.sound
      cases put_cons hu with
      | new _ ht => exact hset (hdotted (ih .nil ht))
      | table _ hx ht => exact hset (hdotted (ih (.of_table (he.get? hx)) ht))
      | @row init k t t' hx ht =>
        refine hset ?_
        cases he.get? hx with
        | leaf hl => cases hl
        | tables _ hin hs hord =>
          have hperm := places_put (places_of_isLeaf hn) ht
          have hmem : (k, t) ∈ init ++ [(k, t)] := by simp
          have hinit {h : Header} {s : Entries} (hm : (h, s) ∈ init) : (h, s) ∈ init ++ [(k, t)] :=
            List.mem_append_left _ hm
          have hlast : Sound (.table (.header k) t') := by
            obtain ⟨ht', -⟩ := ih (.of_table (hs k t hmem)) ht
            exact .table ht'.functional (fun h => by cases h) (fun h => by cases h) ht'.sound
          exact .tables (by simp)
            (forall_mem_concat (fun h s hm => hin h s (hinit hm)) fun q hq => hin k t hmem q (hperm.mem_iff.1 hq))
            (forall_mem_concat (fun h s hm => hs h s (hinit hm)) hlast) (pairwise_replace_last hord fun _ h => h)

theorem isSound_putAll (hi : List.Forall₂ Item.IsOf items leaves) (he : e.IsSound) (hu : putAll items e = some u) :
    u.IsSound := by
  induction hi generalizing e with
  | nil =>
    cases hu
    exact he
  | cons hit _ ih =>
    rw [putAll_cons] at hu
    obtain ⟨w, hw, hu⟩ := Option.bind_eq_some_iff.1 hu
    exact ih (he.put hit.isLeaf hw).1 hu

/-- What is read of entries, with the labels and the nodes they were written from. -/
theorem recalls_of_raws (ht : ∀ s : Scalar, s.isNarrow = true → takes s = true)
    (hp : ∀ leaf ∈ leaves, IsPath leaf.1) (hw : ∀ leaf ∈ leaves, Written inside depth leaf.2)
    (htext : ∀ leaf ∈ leaves, ∀ m, leaf.2.raw.node takes = .ok m → m.text = leaf.2.text)
    (hi : List.Forall₂ (fun leaf item : Item => (keyOf ([], [' ']) leaf.1).labels = .ok item.1 ∧
      leaf.2.raw.node takes = .ok item.2) leaves items) : List.Forall₂ Item.Recalls items leaves := by
  induction hi with
  | nil => exact .nil
  | @cons leaf item leaves items hit _ ih =>
    obtain ⟨hlabels, hnode⟩ := hit
    obtain ⟨m, hm, hleaf, hvalue⟩ := (hw leaf List.mem_cons_self).keeps ht
    cases hnode.symm.trans hm
    have hrecalls := recalls_labels (hp leaf List.mem_cons_self) hlabels
    refine .cons ⟨⟨hrecalls.names, hleaf, hvalue⟩, hrecalls, htext leaf List.mem_cons_self _ hnode⟩ ?_
    exact ih (fun leaf h => hp leaf (List.mem_cons_of_mem _ h)) (fun leaf h => hw leaf (List.mem_cons_of_mem _ h))
      fun leaf h => htext leaf (List.mem_cons_of_mem _ h)

/-- Entries without sections are written alike when they are read again. -/
theorem entryTexts_putAll (hs : e.IsSound) (hd : placesOf e = []) (hi : List.Forall₂ Item.Recalls items (leavesOf e))
    (hu : putAll items [] = some u) : entryTexts [] u = entryTexts [] e := by
  have hempty : List.Forall₂ Reading.IsOf [] (sortedSections e) := sortedSections_eq_nil hd ▸ .nil
  have hof : List.Forall₂ Item.IsOf items (leavesOf e) := hi.imp fun _ _ h => h.toIsOf
  obtain ⟨u', v, hu', hv, hp⟩ := parts_readings hs (hd ▸ List.nodup_nil) hof hempty
  cases hu.symm.trans hu'
  cases hv
  have htwins : Twins .root u e := by
    have hnothing : ∀ q ∈ placesOf e, ¬ q < 0 := fun q _ => Nat.not_lt_zero q
    have hneat : Neat (fun _ => True) e := neat_of_places hs hd
    exact fill_twins hs hneat hi (by decide) (fun h => by cases h) (fun _ _ _ => trivial) (parts_start hnothing)
      (.nil _ _) hu
  exact entryTexts_eq_of_twins htwins hp (isSound_putAll hof .nil hu) hs (.inl ⟨rfl, rfl⟩) fun h => absurd rfl h

theorem texts_nodesOf {ns ms : List Node} (htext : ∀ n ∈ ns, ∀ m, n.raw.node takes = .ok m → m.text = n.text)
    (h : nodesOf takes (rawsOf ns) = .ok ms) : textsOf ms = textsOf ns := by
  induction ns generalizing ms with
  | nil =>
    cases h
    rfl
  | cons n ns ih =>
    rw [rawsOf, nodesOf] at h
    obtain ⟨m, hm, h⟩ := exists_of_bind h
    obtain ⟨more, hmore, rfl⟩ := exists_of_map h
    rw [textsOf, textsOf, htext n List.mem_cons_self m hm, ih (fun n hn => htext n (List.mem_cons_of_mem _ hn)) hmore]

/-- A value is written as it was when it is read again. -/
theorem Written.text_of_node (ht : ∀ s : Scalar, s.isNarrow = true → takes s = true) (h : Written inside depth n)
    (hm : n.raw.node takes = .ok m) : m.text = n.text := by
  induction h generalizing m with
  | @scalar inside depth before text after s _ _ _ hs _ =>
    obtain ⟨s', -, -, rfl⟩ := exists_of_scalar hm
    rfl
  | @array inside depth before rest after items _ _ _ _ ih =>
    rw [Node.raw, Raw.node] at hm
    obtain ⟨ms, hms, rfl⟩ := exists_of_map hm
    rw [Node.text, Node.text, texts_nodesOf (fun n hn m => ih n hn) hms]
  | @inline inside depth before rest after e _ _ _ hs hd hp hw ih =>
    rw [Node.raw, Raw.node] at hm
    obtain ⟨u, hu, rfl⟩ := exists_of_map hm
    have hpath : ∀ leaf ∈ leavesOf e, IsPath leaf.1 := fun leaf hl => (hp leaf hl).1
    obtain ⟨items, -, hraws⟩ := items_of_leaves hpath fun leaf hl => (hw leaf hl).keeps ht
    have hitems := recalls_of_raws ht hpath hw (fun leaf hl m => ih leaf hl) (List.forall₂_map_left_iff.1 hraws)
    have hempty : List.Forall₂ Reading.IsOf [] (sortedSections e) := sortedSections_eq_nil hd ▸ .nil
    obtain ⟨u', v, hu', -, -⟩ := parts_readings hs (hd ▸ List.nodup_nil) (hitems.imp fun _ _ h => h.toIsOf) hempty
    rw [rawEntries_eq, fill_eq hraws hu'] at hu
    cases hu
    rw [Node.text, Node.text, entryTexts_putAll hs hd hitems hu']

end Texts

/-! ## The text of a document -/

section Run

variable {takes : Scalar → Bool} {d : Document} {bound : Nat}

/-- Lines of entries are read as the values they were written from. -/
theorem recalls_of_sets (ht : ∀ s : Scalar, s.isNarrow = true → takes s = true) (h : LeavesSpelled e)
    (hs : List.Forall₂ (Line.Sets takes) ((leavesOf e).map entryLine) items) :
    List.Forall₂ Item.Recalls items (leavesOf e) := by
  refine recalls_of_raws ht (fun leaf hl => (h leaf hl).1) (fun leaf hl => (h leaf hl).2.2)
    (fun leaf hl m => (h leaf hl).2.2.text_of_node ht) ((List.forall₂_map_left_iff.1 hs).imp fun leaf item hset => ?_)
  obtain ⟨key, raw, hline, hlabels, hnode⟩ := hset
  cases hline
  exact ⟨hlabels, hnode⟩

/-- The lines of sections, with places from a number on, are read as the sections they were written from. -/
theorem recalls_numbered (ht : ∀ s : Scalar, s.isNarrow = true → takes s = true) {readings : List Reading}
    {sections : List Section} (hs : ∀ s ∈ sections, s.IsSpelled) (hplaces : placesIn sections = List.range' i sections.length)
    (hr : List.Forall₂ (Lines.Reads takes) (sections.map Section.lines) readings) :
    List.Forall₂ Reading.Recalls (numbered i readings) sections := by
  induction sections generalizing readings i with
  | nil =>
    cases hr
    exact .nil
  | cons s sections ih =>
    cases hr with
    | @cons _ r _ readings hread hr =>
      obtain ⟨hplace, hplaces⟩ := List.cons_eq_cons.1 hplaces
      have hspelled := hs s List.mem_cons_self
      refine .cons ⟨?_, hread.repeated, recalls_labels hspelled.path hread.labels, ?_⟩
        (ih (fun s' h => hs s' (List.mem_cons_of_mem _ h)) hplaces hr)
      · have hlead : r.header.lead = s.header.lead := hread.lead
        have htail : r.header.tail = s.header.tail := hread.tail
        simp only [hlead, htail]
        rw [← hplace]
      · exact recalls_of_sets ht hspelled.leaves hread.entries

/-- The keys of the headers are those of the sections. -/
theorem headersIn_linesOf (e : Entries) :
    headersIn (linesOf e) = (sortedSections e).map fun s => keyOf ([], []) s.path := by
  have hentries (leaves : List Item) : headersIn (leaves.map entryLine) = [] :=
    List.filterMap_eq_nil_iff.2 fun line hline => by
      obtain ⟨leaf, -, rfl⟩ := List.mem_map.1 hline
      rfl
  have hlines (s : Section) : headersIn s.lines.all = [keyOf ([], []) s.path] :=
    congrArg (keyOf ([], []) s.path :: ·) (hentries (leavesOf s.entries))
  have hall (sections : List Section) : headersIn ((sections.map Section.lines).flatMap Lines.all) =
      sections.map fun s => keyOf ([], []) s.path := by
    induction sections with
    | nil => rfl
    | cons s sections ih =>
      rw [List.map_cons, List.flatMap_cons, headersIn_append, ih, hlines]
      rfl
  rw [linesOf, headersIn_append, hentries, hall, List.nil_append]

/-- The text of a tree that was read is read as a tree that is written alike. -/
theorem exists_twin (hs : e.Stands bound) (hneat : Neat (fun _ => False) e) {rest : List Char} (hr : IsEnd rest) :
    ∃ v, Document.read Scalar.isNarrow (Document.render ⟨e, rest⟩) = .ok ⟨v, rest⟩ ∧ v.Stands bound ∧
      Twins .root v e ∧ Parts (fun _ => True) (fun _ => True) v e := by
  have hspelled := hs.isSpelled hr
  have hsound := hs.fits.isSound
  have htakes : ∀ s : Scalar, s.isNarrow = true → s.isNarrow = true := fun _ h => h
  have hsections : ∀ s ∈ sortedSections e, s.IsSpelled := fun s h => hspelled.sections s (mem_sortedSections.1 h)
  obtain ⟨items, hl, -⟩ := sets_leaves htakes hspelled.leaves
  obtain ⟨readings, hreads, -⟩ := reads_sections htakes hsections
  have hlength : (sortedSections e).length = bound := by
    have h := congrArg List.length (placesIn_sortedSections hs)
    rwa [placesIn, List.length_map, List.length_range] at h
  have hplaces : placesIn (sortedSections e) = List.range' 0 (sortedSections e).length := by
    rw [placesIn_sortedSections hs, hlength, List.range_eq_range']
  have hitems := recalls_of_sets htakes hspelled.leaves hl
  have hreadings := recalls_numbered htakes hsections hplaces hreads
  have hof : List.Forall₂ Item.IsOf items (leavesOf e) := hitems.imp fun _ _ h => h.toIsOf
  obtain ⟨u, v, hu, hv, hp⟩ := parts_readings hsound hs.nodup hof (hreadings.imp fun _ _ h => h.isOf)
  have hsource := read?_render hspelled
  have hread := ofSource_readings hl hreads hu hv rest
  have hstands : v.Stands bound := by
    have h := stands_of_ofSource (reads_source hsource).1 hread
    have hheaders : (headersIn (linesOf e)).length = bound := by
      rw [headersIn_linesOf, List.length_map, hlength]
    rwa [hheaders] at h
  have hstart : Parts (· < 0) (fun _ => False) [] e := parts_start fun q _ => Nat.not_lt_zero q
  obtain ⟨u', hu', hparts⟩ := fill_parts hsound hof hstart
  cases hu.symm.trans hu'
  have hroot : Twins .root u e := fill_twins hsound hneat hitems (by decide) (fun h => by cases h)
    (fun q _ hq => absurd hq (Nat.not_lt_zero q)) hstart (.nil _ _) hu
  refine ⟨v, ?_, hstands, ?_, hp⟩
  · rw [Document.read, hsource]
    exact hread
  · exact enterAll_twins hsound hs.nodup hneat hreadings (fun s h => mem_sortedSections.1 h) hplaces hparts hroot hv

end Run

end SqlLint.Toml
