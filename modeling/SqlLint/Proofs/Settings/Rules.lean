import SqlLint.Proofs.Settings.Decode

/-! # Settings files with other rules

What the one reader makes of the text that the other one edits. -/
namespace SqlLint

namespace Datum

theorem ofTomlEntries_eq_map (entries : List (String × Toml.Value)) :
    ofTomlEntries entries = entries.map fun e => (e.1, ofToml e.2) := by
  induction entries with
  | nil => rfl
  | cons e entries ih =>
    obtain ⟨k, v⟩ := e
    rw [ofTomlEntries, ih]
    rfl

theorem ofTomlItems_eq_map (items : List Toml.Value) : ofTomlItems items = items.map ofToml := by
  induction items with
  | nil => rfl
  | cons v items ih =>
    rw [ofTomlItems, ih]
    rfl

theorem ofToml_listValue (rules : List String) : ofToml (Toml.listValue rules) = Layer.rulesDatum rules := by
  rw [Toml.listValue, ofToml, ofTomlItems_eq_map, List.map_map, Layer.rulesDatum]
  congr 1
  refine List.map_congr_left fun rule _ => ?_
  rw [Function.comp_apply, ofToml, String.ofList_toList]

end Datum

namespace Layer
open Toml (Document Scalar)

/-- A text that both readers take: the one for settings, and the one for edits. -/
structure IsEditable (text : String) (l : Layer) : Prop where
  layer : ofToml text = .ok l
  document : ∃ d, Document.read Scalar.isNarrow text.toList = .ok d

variable {text : String} {l l' : Layer} {rules : List String}

theorem read_nil (takes : Scalar → Bool) : Document.read takes [] = .ok {} := by
  have hs : Toml.Source.read? [] = some ⟨[], []⟩ := by
    rw [Toml.Source.read?, Toml.Source.dropMark, Toml.Token.ofText]
    · rfl
    · exact fun _ h => by cases h
  rw [Document.read, hs]
  rfl

/-- A missing file counts as an empty one. -/
theorem isEditable_empty : IsEditable "" {} := by
  have hnil : ("" : String).toList = [] := rfl
  refine ⟨?_, {}, ?_⟩
  · rw [ofToml, hnil, read_nil]
    rfl
  · rw [hnil, read_nil]

theorem decode_eq_foldlM (entries : List (String × Toml.Value)) : decode .toml (.table (Datum.ofTomlEntries entries)) =
    entries.foldlM (fun a e => set .toml a e.1 (Datum.ofToml e.2)) {} := by
  rw [decode, record, Datum.ofTomlEntries_eq_map, List.foldlM_map]

/-- Each entry of a table that is decoded has been set. -/
theorem exists_set {α : Type} {entries : List α} {f : Layer → α → Except Fault Layer}
    (h : entries.foldlM f l = .ok l') {e : α} (he : e ∈ entries) : ∃ a b, f a e = .ok b := by
  induction entries generalizing l with
  | nil => cases he
  | cons first rest ih =>
    rw [List.foldlM_cons] at h
    obtain ⟨m, hm, h⟩ := exists_of_bind h
    rcases List.mem_cons.1 he with rfl | he
    · exact ⟨l, m, hm⟩
    · exact ih h he

theorem exists_of_mapM {α β ε : Type} {items : List α} {bs : List β} {f : α → Except ε β} (h : items.mapM f = .ok bs)
    {a : α} (ha : a ∈ items) : ∃ b, f a = .ok b := by
  induction items generalizing bs with
  | nil => cases ha
  | cons first rest ih =>
    rw [List.mapM_cons] at h
    obtain ⟨b, hb, h⟩ := exists_of_bind h
    obtain ⟨cs, hc, -⟩ := exists_of_bind h
    rcases List.mem_cons.1 ha with rfl | ha
    · exact ⟨b, hb⟩
    · exact ih hc ha

theorem ofToml_ne_null (v : Toml.Value) : Datum.ofToml v ≠ .null := by
  cases v with
  | scalar s => cases s <;> exact fun h => by cases h
  | array | table => exact fun h => by cases h

/-- Only a list of texts is set as a list of rules. -/
theorem exists_items_of_set {v : Toml.Value} (h : set .toml l SettingsFiles.rulesKey (Datum.ofToml v) = .ok l') :
    ∃ items, v = .array items ∧ ∀ item ∈ items, ∃ s, Datum.ofToml item = .text s := by
  have hset : set .toml l SettingsFiles.rulesKey (Datum.ofToml v) =
      (optional (texts .toml) (Datum.ofToml v)).map fun v => { l with excludeRules := v } := rfl
  rw [hset] at h
  obtain ⟨o, ho, -⟩ := exists_of_map h
  have htexts : ∃ rules, texts .toml (Datum.ofToml v) = .ok rules := by
    rw [optional] at ho
    · obtain ⟨rules, hr, -⟩ := exists_of_map ho
      exact ⟨rules, hr⟩
    · exact ofToml_ne_null v
  obtain ⟨rules, hr⟩ := htexts
  cases v with
  | scalar s => cases s <;> cases hr
  | table entries => cases hr
  | array items =>
    refine ⟨items, rfl, fun item hm => ?_⟩
    rw [Datum.ofToml, texts, Datum.ofTomlItems_eq_map] at hr
    obtain ⟨rule, hrule⟩ := exists_of_mapM hr (List.mem_map.2 ⟨item, hm, rfl⟩)
    cases hd : Datum.ofToml item with
    | text s => exact ⟨s, rfl⟩
    | int n =>
      rw [hd] at hrule
      cases hrule
    | _ =>
      rw [hd] at hrule
      cases hrule

/-- The list takes the place of a value as it is written, not of a table. -/
theorem isLeaf_of_set {n : Toml.Node} (hn : Toml.Fit false Toml.Token.nestingLimit 1 1 n)
    (h : set .toml l SettingsFiles.rulesKey (Datum.ofToml n.value) = .ok l') : n.isLeaf = true := by
  obtain ⟨items, hv, hitems⟩ := exists_items_of_set h
  cases n with
  | scalar | array | inline => rfl
  | table o t => cases hv
  | tables rows =>
    cases hn with
    | leaf hw _ => cases hw
    | tables _ _ hne =>
      obtain ⟨⟨k, row⟩, rest, rfl⟩ := List.exists_cons_of_ne_nil hne
      rw [Toml.Node.value, Toml.rowsOf] at hv
      cases hv
      obtain ⟨s, hs⟩ := hitems _ List.mem_cons_self
      cases hs

theorem isSpelled_rulesKey : (Toml.nameLabel SettingsFiles.rulesKey).IsSpelled := by
  refine ⟨rfl, .inl ⟨'e', "xcludeRules".toList, rfl, rfl, fun c hc => ?_⟩, Toml.isBlanks_nil, Toml.isBlanks_nil⟩
  have hall : SettingsFiles.rulesKey.toList.all (fun c => !Toml.Token.endsWord c) = true := rfl
  simpa using List.all_eq_true.1 hall c hc

/-- The settings are those of the table that both readers find. -/
theorem foldlM_of_ofToml {d : Document} (hl : ofToml text = .ok l)
    (hd : Document.read Scalar.isNarrow text.toList = .ok d) :
    d.table.foldlM (fun a e => set .toml a e.1 (Datum.ofToml e.2)) {} = .ok l := by
  have htrue : Document.read (fun _ => true) text.toList = .ok d := Toml.read_mono (fun _ _ => rfl) hd
  rw [ofToml, htrue] at hl
  exact (decode_eq_foldlM d.table).symm.trans hl

theorem isLeaf_of_ofToml {d : Document} {n : Toml.Node} (hl : ofToml text = .ok l)
    (hd : Document.read Scalar.isNarrow text.toList = .ok d) (hn : d.entries.get? SettingsFiles.rulesKey = some n) :
    n.isLeaf = true := by
  obtain ⟨⟨bound, hstands⟩, -⟩ := Toml.stands_of_read hd
  have hlookup : d.table.lookup SettingsFiles.rulesKey = some n.value := by
    rw [Document.table, Toml.lookup_tableOf, hn]
    rfl
  have hmem : (SettingsFiles.rulesKey, n.value) ∈ d.table := by
    obtain ⟨front, back, he, -⟩ := List.lookup_eq_some_iff.1 hlookup
    rw [he]
    exact List.mem_append_right _ List.mem_cons_self
  obtain ⟨a, b, hset⟩ := exists_set (foldlM_of_ofToml hl hd) hmem
  exact isLeaf_of_set (Toml.fit_of_get? hstands.fits hn) hset

/-- The text with other rules can be edited again, and it is that of the layer with these rules. -/
theorem IsEditable.exists_written (h : IsEditable text l) (rules : List String) : ∃ written,
    Toml.writeList SettingsFiles.rulesKey rules text.toList = .ok written ∧
      IsEditable (String.ofList written) (l.withRules rules) := by
  obtain ⟨hl, d, hd⟩ := h
  have hok : ∃ written, Toml.writeList SettingsFiles.rulesKey rules text.toList = .ok written ∧ _ :=
    Toml.writeList_ok hd isSpelled_rulesKey fun n hn => isLeaf_of_ofToml hl hd hn
  obtain ⟨written, hw, hread⟩ := hok
  refine ⟨written, hw, ?_, ?_⟩
  · obtain ⟨d', hd', htable⟩ := hread (fun _ => true) fun _ _ => rfl
    rw [ofToml, String.toList_ofList, hd']
    refine (decode_eq_foldlM d'.table).trans ?_
    rw [htable]
    exact decode_insert (Toml.isSorted_tableOf d.entries) (Datum.ofToml_listValue rules) (foldlM_of_ofToml hl hd)
  · obtain ⟨d', hd', -⟩ := hread Scalar.isNarrow fun _ hs => hs
    exact ⟨d', by rwa [String.toList_ofList]⟩

theorem isEditable_of_writeList {written : List Char} (hl : ofToml text = .ok l)
    (hw : Toml.writeList SettingsFiles.rulesKey rules text.toList = .ok written) :
    IsEditable (String.ofList written) (l.withRules rules) := by
  have editable : IsEditable text l := ⟨hl, Toml.read_of_writeList hw⟩
  obtain ⟨written', hw', edited⟩ := editable.exists_written rules
  obtain rfl : written = written' := Except.ok.inj (hw.symm.trans hw')
  exact edited

end Layer
end SqlLint
