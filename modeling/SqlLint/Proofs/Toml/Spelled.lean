import SqlLint.Proofs.Toml.Meaning

/-! # Documents that are read can be written

Each line keeps the tree of a draft one that can be written: the open table has a header, and headers that
come later have later places. -/
namespace SqlLint.Toml
open Document (Draft)
open Document.Draft (atLast)
open Token (nestingLimit)

/-- Entries whose headers have the places below a bound, each of them once. -/
structure Entries.Stands (bound : Nat) (e : Entries) : Prop where
  fits : e.Fits false nestingLimit 1 1
  places : (placesOf e).Perm (List.range bound)

/-- A path of a header, with the table it leads to in some tree. -/
def Opens (path : List Label) (e : Entries) : Prop :=
  ∃ init l h t, path = init ++ [l] ∧ (tableAt init e).get? l.name = some (.table (.header h) t)

/-- What a draft has read so far can be written. -/
inductive Document.Draft.Stands : Draft → Prop
  | root {e : Entries} {headers : Nat} : e.Stands headers → Draft.Stands ⟨e, .table [], headers⟩
  | table {e : Entries} {path : List Label} {headers : Nat} : e.Stands headers → (∀ l ∈ path, l.IsOfHeader) →
    Opens path e → Draft.Stands ⟨e, .table path, headers⟩
  | row {e row : Entries} {path : List Label} {h : Header} : e.Stands h.place → IsPath path →
    (∀ l ∈ path, l.IsOfHeader) → h.IsSpelled → row.Fits false nestingLimit (path.length + 1) 1 → placesOf row = [] →
    Draft.Stands ⟨e, .row h path row, h.place + 1⟩

section Stands

variable {e u : Entries} {bound : Nat} {path : List Label} {d d' : Draft} {line : Line}

theorem Entries.Stands.nodup (h : e.Stands bound) : (placesOf e).Nodup := h.places.nodup_iff.2 List.nodup_range

theorem Entries.Stands.below (h : e.Stands bound) : ∀ q ∈ placesOf e, q < bound :=
  fun _ hq => List.mem_range.1 (h.places.mem_iff.1 hq)

theorem Entries.Stands.of_grown (h : e.Stands bound) (hg : Grown false nestingLimit 1 1 [] e u) : u.Stands bound :=
  ⟨hg.fits, hg.places.trans h.places⟩

/-- Entries with a new header, which has the next place. -/
theorem Entries.Stands.of_header (h : e.Stands bound) (hg : Grown false nestingLimit 1 1 [bound] e u) :
    u.Stands (bound + 1) := by
  refine ⟨hg.fits, hg.places.trans ?_⟩
  rw [List.range_succ]
  exact (h.places.cons bound).trans (List.perm_append_singleton bound _).symm

theorem exists_of_atLast {f : Label → Entries → Option Entries} (h : atLast f path e = some u) :
    ∃ init l, path = init ++ [l] ∧ Entries.within (f l) init e = some u := by
  rw [atLast] at h
  obtain ⟨l, hl, h⟩ := Option.bind_eq_some_iff.1 h
  obtain ⟨init, rfl⟩ := List.getLast?_eq_some_iff.1 hl
  rw [List.dropLast_concat] at h
  exact ⟨init, l, rfl, h⟩

/-- A draft whose repeated table is complete has a tree that stands. -/
theorem Document.Draft.Stands.finish (h : Draft.Stands d) (hd : d.finish = .ok d') :
    d'.entries.Stands d'.headers ∧ d'.headers = d.headers := by
  cases h with
  | root h =>
    cases hd
    exact ⟨h, rfl⟩
  | table h =>
    cases hd
    exact ⟨h, rfl⟩
  | @row e row path k h hp hl hk hr hn =>
    rw [Draft.finish] at hd
    obtain ⟨u, hu, hd⟩ := exists_of_bind hd
    cases hd
    obtain ⟨init, l, rfl, hw⟩ := exists_of_atLast (exists_of_orMalformed hu)
    have hlen := hp.length_le
    rw [List.length_append, List.length_singleton] at hr hlen
    refine ⟨h.of_header (grown_within (fun q hq => ?_) (fun l hm => ?_) (fun v j ht hb hv => ?_) h.fits
      h.below hw).1, rfl⟩
    · rw [List.mem_singleton.1 hq]
    · exact hl l (List.mem_append.2 (.inl hm))
    · refine grown_addRow (by omega) hk (hl l (by simp)) ?_ hn ht hb hv
      rwa [Nat.add_comm 1]

/-- A table that is opened stands open. -/
theorem Entries.Stands.open (h : e.Stands bound) {k : Header} (hk : k.IsSpelled) (hb : k.place = bound)
    (hp : IsPath path) (hl : ∀ l ∈ path, l.IsOfHeader) (hu : atLast (Entries.openTable k) path e = some u) :
    u.Stands (bound + 1) ∧ Opens path u := by
  subst hb
  obtain ⟨init, l, rfl, hw⟩ := exists_of_atLast hu
  have hlen := hp.length_le
  rw [List.length_append, List.length_singleton] at hlen
  refine ⟨h.of_header (grown_within (fun q hq => ?_) (fun l hm => ?_) (fun v j ht hb hv => ?_) h.fits
    h.below hw).1, ?_⟩
  · rw [List.mem_singleton.1 hq]
  · exact hl l (List.mem_append.2 (.inl hm))
  · exact grown_openTable (by omega) hk (hl l (by simp)) ht hv
  · obtain ⟨t, hx⟩ := Entries.get?_openTable (tableAt_within hw)
    exact ⟨init, l, k, t, rfl, hx⟩

/-- The table of a header stays one when something in it changes. -/
theorem get?_of_within {f : Entries → Option Entries} {h : Header} {l : Label} {t : Entries}
    (hx : e.get? l.name = some (.table (.header h) t)) (hu : Entries.within f [l] e = some u) :
    ∃ t', u.get? l.name = some (.table (.header h) t') := by
  rw [Entries.within_of_table hx] at hu
  obtain ⟨t', -, rfl⟩ := Option.map_eq_some_iff.1 hu
  exact ⟨t', by rw [Entries.get?_set, if_pos rfl]⟩

/-- A value that is set keeps the open table open. -/
theorem Document.Draft.Stands.put {n : Node} {labels : List Label} (h : Draft.Stands d) (hw : Written false nestingLimit n)
    (hp : IsPath labels) (ha : ∀ l ∈ labels, ∀ a, l.around = some a → IsAround false a)
    (hd : d.put n labels = .ok d') : Draft.Stands d' := by
  have hlen := hp.length_le
  have hl : ∀ l ∈ labels, l.IsSpelled ∧ ∀ a, l.around = some a → IsAround false a :=
    fun l hm => ⟨hp.spelled l hm, ha l hm⟩
  cases h with
  | root h =>
    rw [Draft.put] at hd
    obtain ⟨u, hu, hd⟩ := exists_of_bind hd
    cases hd
    exact .root (h.of_grown (grown_put hw hl h.fits (by omega) (exists_of_orMalformed hu)))
  | @table e path headers h hk ho =>
    rw [Draft.put] at hd
    obtain ⟨u, hu, hd⟩ := exists_of_bind hd
    cases hd
    obtain ⟨init, l, k, t, rfl, hx⟩ := ho
    have hwithin := exists_of_orMalformed hu
    rw [Entries.within_append] at hwithin
    obtain ⟨t', hx'⟩ := get?_of_within hx (tableAt_within hwithin)
    refine .table (h.of_grown (grown_within (List.forall_mem_nil _) (fun k hm => ?_)
      (fun v j ht hb hv => ?_) h.fits h.below hwithin).1) hk ⟨init, l, k, t', rfl, hx'⟩
    · exact hk _ (List.mem_append.2 (.inl hm))
    · exact grown_put_header hw hl hlen ht hx hv
  | @row e row path k h hpath hk hh hr hn =>
    rw [Draft.put] at hd
    obtain ⟨u, hu, hd⟩ := exists_of_bind hd
    cases hd
    have hg := grown_put hw hl hr (by omega) (exists_of_orMalformed hu)
    refine .row h hpath hk hh hg.fits ?_
    have hperm := hg.places
    rw [hn] at hperm
    exact hperm.eq_nil

/-- Each line that is read keeps what can be written. -/
theorem Document.Draft.Stands.add (h : Draft.Stands d) (hl : LineRead line) (ha : d.add Scalar.isNarrow line = .ok d') :
    Draft.Stands d' := by
  cases hl with
  | @entry key raw hk hr =>
    rw [Draft.add] at ha
    obtain ⟨labels, hls, ha⟩ := exists_of_bind ha
    obtain ⟨n, hn, ha⟩ := exists_of_bind ha
    obtain ⟨hp, haround⟩ := isPath_of_labels hk hls
    exact h.put (written_of_node hr hn) hp haround ha
  | @header lead tail repeated key hlead htail hk =>
    rw [Draft.add] at ha
    obtain ⟨v, hv, ha⟩ := exists_of_bind ha
    obtain ⟨labels, hls, ha⟩ := exists_of_bind ha
    obtain ⟨hp, haround⟩ := isPath_of_labels hk hls
    obtain ⟨hstands, hheaders⟩ := h.finish hv
    have hheader : Header.IsSpelled ⟨v.headers, lead, tail⟩ := ⟨hlead, htail⟩
    have hlabels : ∀ l ∈ labels, l.IsOfHeader := fun l hm => ⟨hp.spelled l hm, haround l hm⟩
    cases repeated with
    | true =>
      cases ha
      exact .row hstands hp hlabels hheader (fits_nil ..) rfl
    | false =>
      obtain ⟨u, hu, ha⟩ := exists_of_bind ha
      cases ha
      obtain ⟨hu, ho⟩ := hstands.open hheader rfl hp hlabels (exists_of_orMalformed hu)
      exact .table hu hlabels ho

theorem Document.Draft.Stands.foldlM {lines : List Line} (h : Draft.Stands d) (hl : ∀ line ∈ lines, LineRead line)
    (ha : lines.foldlM (Draft.add Scalar.isNarrow) d = .ok d') : Draft.Stands d' := by
  induction lines generalizing d with
  | nil =>
    cases ha
    exact h
  | cons line lines ih =>
    rw [List.foldlM_cons] at ha
    obtain ⟨v, hv, ha⟩ := exists_of_bind ha
    exact ih (h.add (hl line List.mem_cons_self) hv) (fun l hm => hl l (List.mem_cons_of_mem _ hm)) ha

theorem Entries.Stands.nil : Entries.Stands 0 [] := ⟨fits_nil .., .nil⟩

/-- A document that stands can be written. -/
theorem Entries.Stands.isSpelled (h : e.Stands bound) {rest : List Char} (hr : IsEnd rest) :
    Document.IsSpelled ⟨e, rest⟩ :=
  ⟨h.fits.isSound, h.nodup, h.fits.leaves, h.fits.sections, hr⟩

/-! ## Headers -/

/-- The key of a header. -/
def Line.key? : Line → Option Key
  | .header _ _ key _ => some key
  | .entry .. => none

/-- The keys of the headers among lines. -/
def headersIn (lines : List Line) : List Key := lines.filterMap Line.key?

theorem headersIn_append (lines more : List Line) : headersIn (lines ++ more) = headersIn lines ++ headersIn more :=
  List.filterMap_append

variable {takes : Scalar → Bool} {lines : List Line}

theorem headers_finish (h : d.finish = .ok d') : d'.headers = d.headers := by
  rw [Draft.finish] at h
  split at h
  · cases h
    rfl
  · obtain ⟨u, -, h⟩ := exists_of_bind h
    cases h
    rfl

theorem headers_put {n : Node} {labels : List Label} (h : d.put n labels = .ok d') : d'.headers = d.headers := by
  rw [Draft.put] at h
  split at h
  all_goals
    obtain ⟨u, -, h⟩ := exists_of_bind h
    cases h
    rfl

/-- Headers are counted line by line. -/
theorem headers_add (h : d.add takes line = .ok d') : d'.headers = d.headers + (headersIn [line]).length := by
  cases line with
  | entry key raw =>
    rw [Draft.add] at h
    obtain ⟨labels, -, h⟩ := exists_of_bind h
    obtain ⟨n, -, h⟩ := exists_of_bind h
    exact headers_put h
  | header lead repeated key tail =>
    rw [Draft.add] at h
    obtain ⟨v, hv, h⟩ := exists_of_bind h
    obtain ⟨labels, -, h⟩ := exists_of_bind h
    rw [← headers_finish hv]
    cases repeated with
    | true =>
      cases h
      rfl
    | false =>
      obtain ⟨u, -, h⟩ := exists_of_bind h
      cases h
      rfl

theorem headers_foldlM (h : lines.foldlM (Draft.add takes) d = .ok d') :
    d'.headers = d.headers + (headersIn lines).length := by
  induction lines generalizing d with
  | nil =>
    cases h
    rfl
  | cons line lines ih =>
    rw [List.foldlM_cons] at h
    obtain ⟨v, hv, h⟩ := exists_of_bind h
    have hcount : headersIn (line :: lines) = headersIn [line] ++ headersIn lines := headersIn_append [line] lines
    rw [ih h, headers_add hv, hcount, List.length_append, Nat.add_assoc]

/-- The tree of lines that are read stands, with a place for each header. -/
theorem stands_of_ofSource {s : Source} {doc : Document} (hl : ∀ line ∈ s.lines, LineRead line)
    (h : Document.ofSource Scalar.isNarrow s = .ok doc) : doc.entries.Stands (headersIn s.lines).length := by
  rw [Document.ofSource] at h
  obtain ⟨v, hv, h⟩ := exists_of_bind h
  obtain ⟨u, hu, h⟩ := exists_of_bind h
  cases h
  obtain ⟨hstands, hheaders⟩ := (Document.Draft.Stands.foldlM (.root .nil) hl hv).finish hu
  have hcount : v.headers = (headersIn s.lines).length := by
    rw [headers_foldlM hv]
    exact Nat.zero_add _
  rwa [hheaders, hcount] at hstands

/-- The tree of a document that is read stands, and its end is one that a text may have. -/
theorem stands_of_read {text : List Char} {doc : Document} (h : Document.read Scalar.isNarrow text = .ok doc) :
    (∃ bound, doc.entries.Stands bound) ∧ IsEnd doc.rest := by
  rw [Document.read] at h
  obtain ⟨s, hs, h⟩ := exists_of_bind h
  obtain ⟨hlines, hend⟩ := reads_source (exists_of_orMalformed hs)
  have hrest : doc.rest = s.rest := by
    rw [Document.ofSource] at h
    obtain ⟨v, -, h⟩ := exists_of_bind h
    obtain ⟨u, -, h⟩ := exists_of_bind h
    cases h
    rfl
  exact ⟨⟨_, stands_of_ofSource hlines h⟩, hrest ▸ hend⟩

end Stands

end SqlLint.Toml
