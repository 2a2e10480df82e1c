import SqlLint.Proofs.Toml.Replay

/-! # Drafts section by section

A draft that reads a header and the entries behind it does at once what the section is for. -/
namespace SqlLint.Toml
open Document
open Document.Draft (atLast)

namespace Entries

variable {f g : Entries → Option Entries} {e u : Entries} {path : List Label}

theorem set_get? {l : Label} {n : Node} (h : e.get? l.name = some n) : e.set l n = e := by
  induction e with
  | nil => cases h
  | cons first rest ih =>
    obtain ⟨k, m⟩ := first
    rw [get?] at h
    rw [set]
    split at h
    · next hk =>
      cases h
      rw [if_pos hk]
    · next hk => rw [if_neg hk, ih h]

theorem onLast_bind (rows : List (Header × Entries)) :
    (onLast f rows).bind (onLast g) = onLast (fun t => (f t).bind g) rows := by
  rcases List.eq_nil_or_concat rows with rfl | ⟨init, ⟨h, row⟩, hc⟩
  · rfl
  · rw [hc, List.concat_eq_append, onLast_append, onLast_append]
    cases f row with
    | none => rfl
    | some t => exact onLast_append h t init

/-- Two changes of the table under a path are one change of it. -/
theorem within_bind (path : List Label) (e : Entries) :
    (within f path e).bind (within g path) = within (fun t => (f t).bind g) path e := by
  induction path generalizing e with
  | nil => rfl
  | cons l ls ih =>
    have htable (o : Origin) (t : Entries) :
        ((within f ls t).map fun t => e.set l (.table o t)).bind (within g (l :: ls)) =
          (within (fun t => (f t).bind g) ls t).map fun t => e.set l (.table o t) := by
      rw [← ih t]
      cases within f ls t with
      | none => rfl
      | some u =>
        have hx : (e.set l (.table o u)).get? l.name = some (.table o u) := by rw [get?_set, if_pos rfl]
        rw [Option.map_some, Option.bind_some, within_of_table hx, Option.bind_some]
        simp only [set_set]
    cases hx : e.get? l.name with
    | none => rw [within_of_none hx, within_of_none hx, htable]
    | some n =>
      cases n with
      | table o t => rw [within_of_table hx, within_of_table hx, htable]
      | tables rows =>
        rw [within_of_tables hx, within_of_tables hx, ← funext fun t => ih t, ← onLast_bind]
        cases onLast (within f ls) rows with
        | none => rfl
        | some rows' =>
          have hx : (e.set l (.tables rows')).get? l.name = some (.tables rows') := by rw [get?_set, if_pos rfl]
          rw [Option.map_some, Option.bind_some, within_of_tables hx, Option.bind_some]
          simp only [set_set]
      | _ =>
        rw [within, within, hx]
        rfl

theorem within_append (path more : List Label) (e : Entries) :
    within f (path ++ more) e = within (within f more) path e := by
  induction path generalizing e with
  | nil => rfl
  | cons l ls ih =>
    have hf : within f (ls ++ more) = within (within f more) ls := funext ih
    rw [List.cons_append, within, within, hf]

/-- A change that is never possible is not possible under a path. -/
theorem within_none (path : List Label) (e : Entries) : within (fun _ => none) path e = none := by
  induction path generalizing e with
  | nil => rfl
  | cons l ls ih =>
    cases hx : e.get? l.name with
    | none => rw [within_of_none hx, ih]; rfl
    | some n =>
      cases n with
      | table o t => rw [within_of_table hx, ih]; rfl
      | tables rows =>
        rw [within_of_tables hx, funext ih]
        rcases List.eq_nil_or_concat rows with rfl | ⟨init, ⟨h, row⟩, hc⟩
        · rfl
        · rw [hc, List.concat_eq_append, onLast_append]
          rfl
      | _ => rw [within, hx]

/-- Where a change was made the path is there. -/
theorem within_some (h : within f path e = some u) : within some path u = some u := by
  have hb := within_bind (f := f) (g := some) path e
  rw [h, Option.bind_some] at hb
  rw [hb]
  simpa using h

theorem openTable_within {h : Header} {l : Label} (ho : openTable h l e = some u) :
    within some [l] u = some u := by
  obtain ⟨t, hx⟩ := get?_openTable ho
  rw [within_of_table hx, within, Option.map_some, set_get? hx]

end Entries

variable {takes : Scalar → Bool} {e u : Entries} {labels : List Label} {items : List Item} {h : Header}

theorem putAll_cons (item : Item) (items : List Item) (e : Entries) :
    putAll (item :: items) e = (e.put item.2 item.1).bind (putAll items) := by
  rw [putAll, List.foldlM_cons]
  rfl

/-- An entry with its labels and its node. -/
def Line.Sets (takes : Scalar → Bool) (line : Line) (item : Item) : Prop :=
  ∃ key raw, line = .entry key raw ∧ key.labels = .ok item.1 ∧ raw.node takes = .ok item.2

theorem add_of_sets {line : Line} {item : Item} (hs : line.Sets takes item) (d : Draft) :
    d.add takes line = d.put item.2 item.1 := by
  obtain ⟨key, raw, rfl, hk, hr⟩ := hs
  simp [Draft.add, hk, hr, bind, Except.bind]

theorem put_table {node : Node} {path : List Label} {n : Nat}
    (hu : Entries.within (Entries.put node labels) path e = some u) :
    Draft.put node labels ⟨e, .table path, n⟩ = .ok ⟨u, .table path, n⟩ := by
  simp only [Draft.put, hu]
  rfl

theorem put_row {node : Node} {path : List Label} {row : Entries} {n : Nat} (hu : row.put node labels = some u) :
    Draft.put node labels ⟨e, .row h path row, n⟩ = .ok ⟨e, .row h path u, n⟩ := by
  simp only [Draft.put, hu]
  rfl

theorem finish_row {path : List Label} {row : Entries} {n : Nat}
    (hu : atLast (Entries.addRow h row) path e = some u) :
    Draft.finish ⟨e, .row h path row, n⟩ = .ok ⟨u, .table path, n⟩ := by
  simp only [Draft.finish, hu]
  rfl

theorem add_header {d f : Draft} {lead tail : List Char} {key : Key} (hf : d.finish = .ok f)
    (hk : key.labels = .ok labels)
    (hu : atLast (Entries.openTable ⟨f.headers, lead, tail⟩) labels f.entries = some u) :
    d.add takes (.header lead false key tail) = .ok ⟨u, .table labels, f.headers + 1⟩ := by
  simp only [Draft.add, hf, hk, bind, Except.bind]
  rw [if_neg Bool.false_ne_true, hu]
  rfl

theorem add_repeated {d f : Draft} {lead tail : List Char} {key : Key} (hf : d.finish = .ok f)
    (hk : key.labels = .ok labels) : d.add takes (.header lead true key tail) =
      .ok ⟨f.entries, .row ⟨f.headers, lead, tail⟩ labels [], f.headers + 1⟩ := by
  simp only [Draft.add, hf, hk, bind, Except.bind]
  rfl

/-- Entries behind each other in an open table. -/
theorem addAll_table {lines : List Line} (hl : List.Forall₂ (Line.Sets takes) lines items) {n : Nat}
    (hp : Entries.within some labels e = some e) (hu : Entries.within (putAll items) labels e = some u) :
    lines.foldlM (Draft.add takes) ⟨e, .table labels, n⟩ = .ok ⟨u, .table labels, n⟩ := by
  induction hl generalizing e with
  | nil =>
    have he : some e = some u := hp.symm.trans hu
    cases he
    rfl
  | @cons line item lines items hs _ ih =>
    have hput : (fun t => (Entries.put item.2 item.1 t).bind (putAll items)) = putAll (item :: items) :=
      funext fun t => (putAll_cons item items t).symm
    rw [← hput, ← Entries.within_bind] at hu
    obtain ⟨t, ht, hu⟩ := Option.bind_eq_some_iff.1 hu
    rw [List.foldlM_cons, add_of_sets hs, put_table ht]
    exact ih (Entries.within_some ht) hu

/-- Entries behind each other in a table that is to be one of repeated ones. -/
theorem addAll_row {lines : List Line} (hl : List.Forall₂ (Line.Sets takes) lines items) {row : Entries} {n : Nat}
    (hu : putAll items row = some u) :
    lines.foldlM (Draft.add takes) ⟨e, .row h labels row, n⟩ = .ok ⟨e, .row h labels u, n⟩ := by
  induction hl generalizing row with
  | nil =>
    cases hu
    rfl
  | @cons line item lines items hs _ ih =>
    rw [putAll_cons] at hu
    obtain ⟨t, ht, hu⟩ := Option.bind_eq_some_iff.1 hu
    rw [List.foldlM_cons, add_of_sets hs, put_row ht]
    exact ih hu

/-- A path is that of a table and the name of the table. -/
theorem atLast_append (f : Label → Entries → Option Entries) (path : List Label) (l : Label) :
    atLast f (path ++ [l]) = Entries.within (f l) path := by
  rw [atLast_eq List.getLast?_concat, List.dropLast_concat]

theorem exists_append {f : Label → Entries → Option Entries} (hu : atLast f labels e = some u) :
    ∃ path l, labels = path ++ [l] := by
  rcases List.eq_nil_or_concat labels with rfl | ⟨path, l, hc⟩
  · cases hu
  · exact ⟨path, l, by rw [hc, List.concat_eq_append]⟩

/-- One of repeated tables is entered when it is complete. -/
theorem atLast_row (hu : atLast (enter h true (putAll items)) labels e = some u) :
    ∃ row, putAll items [] = some row ∧ atLast (Entries.addRow h row) labels e = some u := by
  obtain ⟨path, l, rfl⟩ := exists_append hu
  rw [atLast_append] at hu
  cases hrow : putAll items [] with
  | none =>
    have hnone : enter h true (putAll items) l = fun _ => none := by
      funext t
      rw [enter, if_pos rfl, hrow]
      rfl
    rw [hnone, Entries.within_none] at hu
    cases hu
  | some row =>
    have hsome : enter h true (putAll items) l = Entries.addRow h row l := by
      funext t
      rw [enter, if_pos rfl, hrow]
      rfl
    rw [hsome, ← atLast_append] at hu
    exact ⟨row, rfl, hu⟩

/-- A table is opened first, and then its values are set. -/
theorem atLast_table (hu : atLast (enter h false (putAll items)) labels e = some u) :
    ∃ t, atLast (Entries.openTable h) labels e = some t ∧ Entries.within some labels t = some t ∧
      Entries.within (putAll items) labels t = some u := by
  obtain ⟨path, l, rfl⟩ := exists_append hu
  have hsplit : enter h false (putAll items) l = fun t =>
      (Entries.openTable h l t).bind (Entries.within (putAll items) [l]) := rfl
  rw [atLast_append, hsplit, ← Entries.within_bind, ← funext (Entries.within_append path [l])] at hu
  obtain ⟨t, ht, hu⟩ := Option.bind_eq_some_iff.1 hu
  refine ⟨t, by rw [atLast_append, ht], ?_, hu⟩
  have hopen : (fun s => (Entries.openTable h l s).bind (Entries.within some [l])) = Entries.openTable h l := by
    funext s
    cases ho : Entries.openTable h l s with
    | none => rfl
    | some s' => exact Entries.openTable_within ho
  have hb := Entries.within_bind (f := Entries.openTable h l) (g := Entries.within some [l]) path e
  rwa [ht, Option.bind_some, hopen, ht, ← Entries.within_append] at hb

/-- The lines of a section: its header and the entries behind it. -/
structure Lines where
  lead : List Char
  repeated : Bool
  key : Key
  tail : List Char
  entries : List Line

def Lines.all (ls : Lines) : List Line := .header ls.lead ls.repeated ls.key ls.tail :: ls.entries

/-- What the lines of a section are read as, whatever the place of its header. -/
structure Lines.Reads (takes : Scalar → Bool) (ls : Lines) (r : Reading) : Prop where
  repeated : r.repeated = ls.repeated
  labels : ls.key.labels = .ok r.labels
  lead : r.header.lead = ls.lead
  tail : r.header.tail = ls.tail
  entries : List.Forall₂ (Line.Sets takes) ls.entries r.items

/-- Reading a section enters it into the tree, at the latest when the draft is finished. -/
theorem addAll_section {d f : Draft} {ls : Lines} {r : Reading} (hr : ls.Reads takes r) (hf : d.finish = .ok f)
    (hp : r.header.place = f.headers) (hu : r.enter f.entries = some u) :
    ∃ d' f', ls.all.foldlM (Draft.add takes) d = .ok d' ∧ d'.finish = .ok f' ∧ f'.entries = u ∧
      f'.headers = f.headers + 1 := by
  have hh : r.header = ⟨f.headers, ls.lead, ls.tail⟩ := by
    rw [← hp, ← hr.lead, ← hr.tail]
  rw [Reading.enter, hr.repeated, hh] at hu
  rw [Lines.all, List.foldlM_cons]
  cases hrep : ls.repeated with
  | true =>
    rw [hrep] at hu
    obtain ⟨row, hrow, hu⟩ := atLast_row hu
    refine ⟨_, _, ?_, finish_row hu, rfl, rfl⟩
    rw [add_repeated hf hr.labels]
    exact addAll_row hr.entries hrow
  | false =>
    rw [hrep] at hu
    obtain ⟨t, ht, hthere, hu⟩ := atLast_table hu
    refine ⟨⟨u, .table r.labels, f.headers + 1⟩, _, ?_, rfl, rfl, rfl⟩
    rw [add_header hf hr.labels ht]
    exact addAll_table hr.entries hthere hu

/-- Sections whose headers have the places from a number on. -/
def numbered : Nat → List Reading → List Reading
  | _, [] => []
  | n, r :: rs => { r with header := { r.header with place := n } } :: numbered (n + 1) rs

theorem isOf_numbered {readings : List Reading} {sections : List Section}
    (hr : List.Forall₂ Reading.IsOf readings sections) (n : Nat) :
    List.Forall₂ Reading.IsOf (numbered n readings) sections := by
  induction hr generalizing n with
  | nil => exact .nil
  | cons h _ ih => exact .cons ⟨h.repeated, h.names, h.items⟩ (ih (n + 1))

theorem addAll_sections {d f : Draft} {sections : List Lines} {readings : List Reading}
    (hr : List.Forall₂ (Lines.Reads takes) sections readings) (hf : d.finish = .ok f)
    (hu : (numbered f.headers readings).foldlM Reading.enter f.entries = some u) :
    ∃ d' f', (sections.flatMap Lines.all).foldlM (Draft.add takes) d = .ok d' ∧ d'.finish = .ok f' ∧
      f'.entries = u := by
  induction hr generalizing d f with
  | nil =>
    cases hu
    exact ⟨d, f, rfl, hf, rfl⟩
  | @cons ls r sections readings hs _ ih =>
    rw [numbered, List.foldlM_cons] at hu
    obtain ⟨t, ht, hu⟩ := Option.bind_eq_some_iff.1 hu
    have hs' : ls.Reads takes { r with header := { r.header with place := f.headers } } :=
      ⟨hs.repeated, hs.labels, hs.lead, hs.tail, hs.entries⟩
    obtain ⟨d', f', hd', hf', rfl, hn⟩ := addAll_section hs' hf rfl ht
    rw [← hn] at hu
    obtain ⟨d'', f'', hd'', hf'', he⟩ := ih hf' hu
    refine ⟨d'', f'', ?_, hf'', he⟩
    rw [List.flatMap_cons, List.foldlM_append, hd']
    exact hd''

/-- The lines of entries and of sections are read as the tree that they lead to. -/
theorem ofSource_readings {v : Entries} {lines : List Line} {sections : List Lines} {readings : List Reading}
    (hl : List.Forall₂ (Line.Sets takes) lines items) (hr : List.Forall₂ (Lines.Reads takes) sections readings)
    (hu : putAll items [] = some u) (hv : (numbered 0 readings).foldlM Reading.enter u = some v) (rest : List Char) :
    ofSource takes ⟨lines ++ sections.flatMap Lines.all, rest⟩ = .ok ⟨v, rest⟩ := by
  have hroot : lines.foldlM (Draft.add takes) ⟨[], .table [], 0⟩ = .ok ⟨u, .table [], 0⟩ := addAll_table hl rfl hu
  obtain ⟨d', f', hd', hf', rfl⟩ := addAll_sections hr (d := ⟨u, .table [], 0⟩) (f := ⟨u, .table [], 0⟩) rfl hv
  simp only [ofSource, List.foldlM_append, bind, Except.bind]
  have hstart : ({} : Draft) = ⟨[], .table [], 0⟩ := rfl
  rw [hstart, hroot]
  simp only [hd', hf']
  rfl

/-- The lines that are written of a tree are read as a document with the same table. -/
theorem ofSource_written (hs : e.IsSound) (hd : (placesOf e).Nodup) {lines : List Line} {sections : List Lines}
    {readings : List Reading} (hl : List.Forall₂ (Line.Sets takes) lines items)
    (hi : List.Forall₂ Item.IsOf items (leavesOf e)) (hr : List.Forall₂ (Lines.Reads takes) sections readings)
    (ho : List.Forall₂ Reading.IsOf readings (sortedSections e)) (rest : List Char) :
    ∃ d, ofSource takes ⟨lines ++ sections.flatMap Lines.all, rest⟩ = .ok d ∧ d.table = tableOf e := by
  obtain ⟨u, v, hu, hv, ht⟩ := tableOf_readings hs hd hi (isOf_numbered ho 0)
  exact ⟨⟨v, rest⟩, ofSource_readings hl hr hu hv rest, ht⟩

end SqlLint.Toml
