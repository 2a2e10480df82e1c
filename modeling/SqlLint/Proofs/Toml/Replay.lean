import SqlLint.Proofs.Toml.Written

/-! # Reading again what is written

The values of a tree and then its sections in their order, each read as what it is, lead stage by stage
to a tree that describes the same table. -/
namespace SqlLint.Toml
open Document.Draft (atLast)

/-- A value under a key, as it is read. -/
abbrev Item := List Label × Node

/-- Sets values one after another. -/
def putAll (items : List Item) (t : Entries) : Option Entries :=
  items.foldlM (fun t item => t.put item.2 item.1) t

/-- What is read of a value that was written. -/
structure Item.IsOf (item leaf : Item) : Prop where
  names : names item.1 = names leaf.1
  isLeaf : item.2.isLeaf = true
  value : item.2.value = leaf.2.value

variable {e t : Entries} {done : Nat → Prop} {here : List String → Prop} {items leaves : List Item}

theorem putAll_parts (hs : e.IsSound) (hi : List.Forall₂ Item.IsOf items leaves)
    (hm : ∀ leaf ∈ leaves, leaf ∈ leavesOf e) (hd : (leaves.map fun leaf => names leaf.1).Nodup)
    (hn : ∀ leaf ∈ leaves, ¬ here (names leaf.1)) (hp : Parts done here t e) :
    ∃ u, putAll items t = some u ∧
      Parts done (fun p => here p ∨ p ∈ leaves.map fun leaf => names leaf.1) u e := by
  induction hi generalizing t here with
  | nil =>
    refine ⟨t, rfl, ?_⟩
    simpa using hp
  | @cons item leaf items leaves hit _ ih =>
    obtain ⟨hl, hd⟩ := List.nodup_cons.1 hd
    have hr := reaches_of_mem_leavesOf hs (hm leaf List.mem_cons_self)
    obtain ⟨u, hu, hup⟩ := put_parts hr hp (hn leaf List.mem_cons_self) hit.names hit.isLeaf hit.value
    obtain ⟨v, hv, hvp⟩ := ih (fun leaf' h => hm leaf' (List.mem_cons_of_mem _ h)) hd (fun leaf' h => by
      rintro (hc | hc)
      · exact hn leaf' (List.mem_cons_of_mem _ h) hc
      · exact hl (List.mem_map.2 ⟨leaf', h, hc⟩)) hup
    refine ⟨v, ?_, ?_⟩
    · rw [putAll, List.foldlM_cons, hu]
      exact hv
    · simpa [or_assoc] using hvp

/-- The values of a table can be set where none of them is. -/
theorem fill_parts (hs : e.IsSound) (hi : List.Forall₂ Item.IsOf items (leavesOf e))
    (hp : Parts done (fun _ => False) t e) :
    ∃ u, putAll items t = some u ∧ Parts done (fun _ => True) u e := by
  obtain ⟨u, hu, hup⟩ := putAll_parts hs hi (fun _ h => h) (nodup_leavesOf hs) (fun _ _ h => h) hp
  refine ⟨u, hu, parts_congr hup (fun _ _ => .rfl) fun x c p hg ho => ?_⟩
  have hm := mem_leavesOf_of_owns hs hg ho
  exact ⟨fun _ => trivial, fun _ => .inr hm⟩

/-- A section as it is read. -/
structure Reading where
  header : Header
  repeated : Bool
  labels : List Label
  items : List Item

namespace Reading

def enter (t : Entries) (r : Reading) : Option Entries :=
  atLast (Toml.enter r.header r.repeated (putAll r.items)) r.labels t

/-- What is read of a section that was written. -/
structure IsOf (r : Reading) (s : Section) : Prop where
  repeated : r.repeated = s.repeated
  names : names r.labels = names s.path
  items : List.Forall₂ Item.IsOf r.items (leavesOf s.entries)

end Reading

theorem Site.isSound {h : Header} {repeated : Bool} {content : Entries} {p : List String}
    (hs : Site h repeated content e p) (he : e.IsSound) : content.IsSound := by
  induction hs with
  | table hg _ => exact .of_table (he.get? hg)
  | row hg hm _ => exact .of_row (he.get? hg) hm
  | inside hg _ ih => exact ih (.of_table (he.get? hg))
  | insideRow hg hm _ ih => exact ih (.of_row (he.get? hg) hm)

theorem Site.place_not_mem {h : Header} {repeated : Bool} {content : Entries} {p : List String}
    (hs : Site h repeated content e p) (hd : (placesOf e).Nodup) : h.place ∉ placesOf content := by
  induction hs with
  | table hg _ => exact (List.nodup_cons.1 (nodup_places hd hg)).1
  | row hg hm _ => exact (List.nodup_cons.1 (nodup_placesOf_row (nodup_places hd hg) hm)).1
  | inside hg _ ih => exact ih (nodup_placesOf_table (nodup_places hd hg))
  | insideRow hg hm _ ih => exact ih (List.nodup_cons.1 (nodup_placesOf_row (nodup_places hd hg) hm)).2

/-- The places of sections. -/
def placesIn (sections : List Section) : List Nat := sections.map (·.header.place)

/-- A section that is read leads from the stage before its header to the one behind it. -/
theorem enter_reading (hs : e.IsSound) (hd : (placesOf e).Nodup) {r : Reading} {s : Section} (hr : r.IsOf s)
    (hm : s ∈ sectionsOf [] e) (hb : ∀ q ∈ placesOf e, done q ↔ q < s.header.place)
    (hp : Parts done (fun _ => True) t e) :
    ∃ u, r.enter t = some u ∧ Parts (andPlace done s.header) (fun _ => True) u e := by
  obtain ⟨p, hpath, hroute⟩ := hs.allAt [] s hm
  have hsite := hroute.site hs
  have hnot := hsite.place_not_mem hd
  have hfills : Fills done s.header s.entries (putAll r.items) := by
    intro u hu
    obtain ⟨v, hv, hvp⟩ := fill_parts (hsite.isSound hs) hr.items hu
    refine ⟨v, hv, parts_congr hvp (fun q hq => andPlace_iff ?_) fun _ _ _ _ _ => .rfl⟩
    exact fun hc => hnot (hc ▸ hq)
  have hnames : r.labels.map Label.name = names p := by
    have hn := hr.names
    rwa [hpath, List.nil_append] at hn
  rw [Reading.enter, hr.repeated]
  exact enter_parts hsite (fun x c => hs.get?) hd hb hfills hnames _ _ hp

/-- Sections that are read in their order lead from each stage to the next. -/
theorem enterAll_parts (hs : e.IsSound) (hd : (placesOf e).Nodup) {readings : List Reading}
    {before sections : List Section} (hr : List.Forall₂ Reading.IsOf readings sections)
    (hm : ∀ s ∈ sections, s ∈ sectionsOf [] e) (ho : (placesIn (before ++ sections)).Pairwise (· < ·))
    (hall : ∀ q ∈ placesOf e, q ∈ placesIn (before ++ sections))
    (hp : Parts (· ∈ placesIn before) (fun _ => True) t e) :
    ∃ u, readings.foldlM Reading.enter t = some u ∧
      Parts (· ∈ placesIn (before ++ sections)) (fun _ => True) u e := by
  induction hr generalizing t before with
  | nil => exact ⟨t, rfl, by rwa [List.append_nil]⟩
  | @cons r s readings sections hrs _ ih =>
    have hsplit : placesIn (before ++ s :: sections) = placesIn before ++ s.header.place :: placesIn sections := by
      simp [placesIn]
    rw [hsplit] at ho hall
    obtain ⟨-, hafter, hbefore⟩ := List.pairwise_append.1 ho
    have hb : ∀ q ∈ placesOf e, q ∈ placesIn before ↔ q < s.header.place := by
      intro q hq
      refine ⟨fun h => hbefore q h _ List.mem_cons_self, fun hlt => ?_⟩
      rcases List.mem_append.1 (hall q hq) with h | h
      · exact h
      · rcases List.mem_cons.1 h with rfl | h
        · exact absurd hlt (Nat.lt_irrefl _)
        · exact absurd hlt (Nat.lt_asymm ((List.pairwise_cons.1 hafter).1 q h))
    obtain ⟨u, hu, hup⟩ := enter_reading hs hd hrs (hm s List.mem_cons_self) hb hp
    have hparts : Parts (· ∈ placesIn (before ++ [s])) (fun _ => True) u e :=
      parts_congr hup (fun q _ => by simp [placesIn, andPlace]) fun _ _ _ _ _ => .rfl
    have horder : (placesIn (before ++ [s] ++ sections)).Pairwise (· < ·) := by simpa [placesIn] using ho
    have hplaces : ∀ q ∈ placesOf e, q ∈ placesIn (before ++ [s] ++ sections) := by simpa [placesIn] using hall
    obtain ⟨v, hv, hvp⟩ := ih (fun s' h => hm s' (List.mem_cons_of_mem _ h)) horder hplaces hparts
    refine ⟨v, ?_, by simpa using hvp⟩
    rw [List.foldlM_cons, hu]
    exact hv

/-- The sections of a document in the order in which they are written. -/
def sortedSections (e : Entries) : List Section :=
  (sectionsOf [] e).mergeSort fun a b => a.header.place ≤ b.header.place

theorem mem_sortedSections {s : Section} : s ∈ sortedSections e ↔ s ∈ sectionsOf [] e :=
  (List.mergeSort_perm _ _).mem_iff

/-- Without headers there are no sections. -/
theorem sortedSections_eq_nil (hd : placesOf e = []) : sortedSections e = [] := by
  have hmap := places_sectionsOf [] e
  rw [hd, List.map_eq_nil_iff] at hmap
  rw [sortedSections, hmap, List.mergeSort_nil]

theorem pairwise_sortedSections (hd : (placesOf e).Nodup) : (placesIn (sortedSections e)).Pairwise (· < ·) := by
  have hle : (sortedSections e).Pairwise fun a b => a.header.place ≤ b.header.place := by
    have h : (sortedSections e).Pairwise fun a b => decide (a.header.place ≤ b.header.place) = true :=
      List.pairwise_mergeSort (fun a b c hab hbc => by simp only [decide_eq_true_eq] at *; omega)
        (fun a b => by simp only [Bool.or_eq_true, decide_eq_true_eq]; omega) (sectionsOf [] e)
    exact h.imp fun h => of_decide_eq_true h
  have hne : (placesIn (sortedSections e)).Nodup := by
    rw [← places_sectionsOf []] at hd
    exact ((List.mergeSort_perm _ _).map _).nodup_iff.2 hd
  rw [placesIn, List.pairwise_map]
  exact (hle.and (List.pairwise_map.1 hne)).imp fun h => Nat.lt_of_le_of_ne h.1 h.2

/-- Before anything is read, nothing is there. -/
theorem parts_start (hd : ∀ q ∈ placesOf e, ¬ done q) : Parts done (fun _ => False) [] e :=
  parts_nil fun x m hg hp => by
    rcases hp.exists with ⟨_, -, h⟩ | ⟨q, hq, h⟩
    · exact h
    · exact hd q (mem_placesOf_of_get? hg hq) h

/-- Reading what is written leads to a tree of which all is there. -/
theorem parts_readings (hs : e.IsSound) (hd : (placesOf e).Nodup) {readings : List Reading}
    (hi : List.Forall₂ Item.IsOf items (leavesOf e))
    (hr : List.Forall₂ Reading.IsOf readings (sortedSections e)) :
    ∃ u v, putAll items [] = some u ∧ readings.foldlM Reading.enter u = some v ∧
      Parts (fun _ => True) (fun _ => True) v e := by
  have h0 : Parts (· ∈ placesIn []) (fun _ => False) [] e := parts_start fun q _ h => by cases h
  obtain ⟨u, hu, hup⟩ := fill_parts hs hi h0
  have hall : ∀ q ∈ placesOf e, q ∈ placesIn (sortedSections e) := by
    intro q hq
    rw [← places_sectionsOf []] at hq
    exact ((List.mergeSort_perm _ _).map _).mem_iff.2 hq
  have horder : (placesIn ([] ++ sortedSections e)).Pairwise (· < ·) := pairwise_sortedSections hd
  obtain ⟨v, hv, hvp⟩ := enterAll_parts hs hd hr (fun s h => mem_sortedSections.1 h) horder hall hup
  exact ⟨u, v, hu, hv, parts_congr hvp (fun q hq => ⟨fun _ => trivial, fun _ => hall q hq⟩) fun _ _ _ _ _ => .rfl⟩

/-- A tree of which all is there describes the same table. -/
theorem tableOf_of_parts (hs : e.IsSound) (hp : Parts (fun _ => True) (fun _ => True) t e) : tableOf t = tableOf e := by
  have hroot : Sound (.table (.header ⟨0, [], []⟩) e) :=
    .table hs.functional (fun h => by cases h) (fun h => by cases h) hs.sound
  have hvalue := value_eq_of_part hroot (fun _ _ => trivial) (fun _ => trivial)
    (part_table_iff.2 ⟨_, .opened (h := ⟨0, [], []⟩) trivial, hp⟩)
  simpa [Node.value] using hvalue

/-- Reading what is written leads to the table that was written. -/
theorem tableOf_readings (hs : e.IsSound) (hd : (placesOf e).Nodup) {readings : List Reading}
    (hi : List.Forall₂ Item.IsOf items (leavesOf e))
    (hr : List.Forall₂ Reading.IsOf readings (sortedSections e)) :
    ∃ u v, putAll items [] = some u ∧ readings.foldlM Reading.enter u = some v ∧ tableOf v = tableOf e := by
  obtain ⟨u, v, hu, hv, hp⟩ := parts_readings hs hd hi hr
  exact ⟨u, v, hu, hv, tableOf_of_parts hs hp⟩

end SqlLint.Toml
