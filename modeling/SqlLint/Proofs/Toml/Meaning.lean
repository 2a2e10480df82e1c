import SqlLint.Proofs.Toml.Growth
import SqlLint.Proofs.Toml.Reading

/-! # What has a meaning is spelled well

Of what is read only names, keys and values that mean something become part of a tree. Each value that
does is one that can be written. -/
namespace SqlLint.Toml
open Token

/-! ## Names and scalars -/

section Scalars

variable {s : Segment} {name : String} {t : List Char}

theorem isName_of_named (ht : IsWord t ∨ IsQuoted t) (h : Segment.name.named t = .ok name) : IsName t := by
  rcases ht with ht | ht
  · exact .inl ht
  · have hq : t.head?.any isQuote = true := by
      obtain ⟨c, cs, hq, rfl⟩ := ht
      exact hq
    rw [Segment.name.named, if_pos hq] at h
    obtain ⟨v, hv, -⟩ := exists_of_map h
    exact .inr (isClosed_of_string ht hv)

/-- A segment with a name is a word or a closed string. -/
theorem isName_of_name (ht : IsPiece s.text) (h : s.name = .ok name) : IsName s.text := by
  rw [Segment.name] at h
  split at h
  · cases h
  · next he =>
    split at h
    · cases h
    · rw [he] at ht ⊢
      exact isName_of_named (ht.resolve_left (List.cons_ne_nil _ _)) h
  · next hne _ => exact isName_of_named (ht.resolve_left hne) h

theorem isScalar_of_scalarOf {v : Scalar} (ht : IsDatum t) (h : scalarOf t = .ok v) : IsScalar t := by
  rcases ht with ⟨hp, ha⟩ | hq
  · refine .phrase hp ?_ ha
    rintro rfl
    have hnil : scalarOf [] = .error .malformed := rfl
    rw [hnil] at h
    cases h
  · have hhead : t.head?.any isQuote = true := by
      obtain ⟨c, cs, hc, rfl⟩ := hq
      exact hc
    rw [scalarOf, if_pos hhead] at h
    obtain ⟨v, hv, -⟩ := exists_of_map h
    exact .string (isClosed_of_string hq hv)

end Scalars

/-! ## Keys -/

section Keys

variable {P Q : List Char → Prop} {key : Key} {names : List String}

theorem mapM_name_cons {s : Segment} (h : (s :: key).mapM Segment.name = .ok names) :
    ∃ name more, s.name = .ok name ∧ key.mapM Segment.name = .ok more ∧ names = name :: more := by
  rw [List.mapM_cons] at h
  obtain ⟨name, hn, h⟩ := exists_of_bind h
  obtain ⟨more, hm, h⟩ := exists_of_bind h
  cases h
  exact ⟨name, more, hn, hm, rfl⟩

theorem length_of_mapM (h : key.mapM Segment.name = .ok names) : names.length = key.length := by
  induction key generalizing names with
  | nil =>
    cases h
    rfl
  | cons s key ih =>
    obtain ⟨name, more, -, hm, rfl⟩ := mapM_name_cons h
    rw [List.length_cons, List.length_cons, ih hm]

theorem length_spell (around : List Char × List Char) (first : Bool) (pairs : List (String × Segment)) :
    (Key.labels.spell around first pairs).length = pairs.length := by
  have h := congrArg List.length (names_spell around first pairs)
  rwa [SqlLint.Toml.names, List.length_map, List.length_map] at h

/-- The labels of a key that is read. -/
theorem isSpelled_spell (around : List Char × List Char) (hk : KeyRead Q P key) (first : Bool) (hf : first = false → ∀ w, P w → IsBlanks w)
    (hn : key.mapM Segment.name = .ok names) :
    ∀ l ∈ Key.labels.spell around first (names.zip key), l.IsSpelled ∧ ∀ a, l.around = some a → a = around := by
  have hblanks {P : List Char → Prop} {w : List Char} {first : Bool} (hf : first = false → ∀ w, P w → IsBlanks w)
      (hw : P w) : IsBlanks (if first then [] else w) := by
    cases first with
    | true => exact isBlanks_nil
    | false => exact hf rfl w hw
  induction hk generalizing first names with
  | @last P s hb ht ha =>
    obtain ⟨name, more, hname, hm, rfl⟩ := mapM_name_cons hn
    have hnil : more = [] := List.length_eq_zero_iff.1 (length_of_mapM hm)
    subst hnil
    intro l hl
    rw [List.zip_cons_cons, List.zip_nil_left, Key.labels.spell, List.mem_singleton] at hl
    rw [hl]
    exact ⟨⟨hname, isName_of_name ht hname, hblanks hf hb, isBlanks_nil⟩, fun a h => (Option.some.inj h).symm⟩
  | @cons P s key hb ht ha hk ih =>
    obtain ⟨name, more, hname, hm, rfl⟩ := mapM_name_cons hn
    have hlen := length_of_mapM hm
    obtain ⟨pair, pairs, hp⟩ : ∃ pair pairs, more.zip key = pair :: pairs := by
      cases hk <;> obtain ⟨n, ns, -, -, rfl⟩ := mapM_name_cons hm <;> exact ⟨_, _, rfl⟩
    intro l hl
    rw [List.zip_cons_cons, hp, Key.labels.spell, ← hp] at hl
    · rcases List.mem_cons.1 hl with rfl | hl
      · exact ⟨⟨hname, isName_of_name ht hname, hblanks hf hb, ha⟩, fun a h => (by cases h)⟩
      · exact ih false (fun _ w hw => hw) hm l hl
    · exact fun h => by cases h

/-- What stands in front of a whole key and behind it. -/
def Key.around (key : Key) : List Char × List Char :=
  ((key.head?.map Segment.before).getD [], (key.getLast?.map Segment.after).getD [])

theorem KeyRead.around (hk : KeyRead Q P key) : P (Key.around key).1 ∧ Q (Key.around key).2 := by
  induction hk with
  | last hb _ ha => exact ⟨hb, ha⟩
  | @cons P s key hb _ _ hk ih =>
    refine ⟨hb, ?_⟩
    cases hk with
    | last => exact ih.2
    | cons => exact ih.2

/-- A key with labels has names for all its segments, and not too many of them. -/
theorem exists_of_labels {ls : List Label} (h : key.labels = .ok ls) : ∃ names, key.mapM Segment.name = .ok names ∧
    (names.zip key).length = key.length ∧ key.length ≤ Key.limit ∧
      ls = Key.labels.spell (Key.around key) true (names.zip key) := by
  rw [Key.labels] at h
  obtain ⟨names, hn, h⟩ := exists_of_bind h
  have hlen : (names.zip key).length = key.length := by
    rw [List.length_zip, length_of_mapM hn, Nat.min_self]
  by_cases hlimit : Key.limit < key.length
  · rw [if_pos hlimit] at h
    cases h
  · rw [if_neg hlimit] at h
    cases h
    exact ⟨names, hn, hlen, Nat.le_of_not_lt hlimit, rfl⟩

/-- The labels of a key that is read are a path. -/
theorem isPath_of_labels {ls : List Label} (hk : KeyRead Q P key) (h : key.labels = .ok ls) :
    IsPath ls ∧ ∀ l ∈ ls, ∀ a, l.around = some a → P a.1 ∧ Q a.2 := by
  obtain ⟨names, hn, hlen, hlimit, rfl⟩ := exists_of_labels h
  have hs := isSpelled_spell (Key.around key) hk true (fun h => (by cases h)) hn
  refine ⟨⟨?_, ?_, fun l hl => (hs l hl).1⟩, fun l hl a ha => ?_⟩
  · intro hnil
    have hzero := length_spell (Key.around key) true (names.zip key)
    rw [hnil, hlen] at hzero
    cases hk <;> cases hzero
  · rwa [length_spell, hlen]
  · rw [(hs l hl).2 a ha]
    exact hk.around

end Keys

/-! ## Values -/

section Values

variable {inside : Bool} {depth : Nat} {raw : Raw} {n : Node} {e u : Entries} {takes : Scalar → Bool}

/-- Only a scalar that is taken has a node. -/
theorem exists_of_scalar {before text after : List Char} (h : (Raw.scalar before text after).node takes = .ok n) :
    ∃ s, scalarOf text = .ok s ∧ takes s = true ∧ n = .scalar before text after s := by
  rw [Raw.node] at h
  obtain ⟨s, hs, h⟩ := exists_of_bind h
  split at h
  · next ht =>
    cases h
    exact ⟨s, hs, ht, rfl⟩
  · cases h

/-- The first of several entries is set before the others are. -/
theorem exists_of_fill {key : Key} {entries : List (Key × Raw)} (h : fill takes ((key, raw) :: entries) e = .ok u) :
    ∃ labels n t, key.labels = .ok labels ∧ raw.node takes = .ok n ∧ e.put n labels = some t ∧
      fill takes entries t = .ok u := by
  rw [fill] at h
  obtain ⟨labels, hl, h⟩ := exists_of_bind h
  obtain ⟨n, hn, h⟩ := exists_of_bind h
  obtain ⟨t, ht, h⟩ := exists_of_bind h
  exact ⟨labels, n, t, hl, hn, exists_of_orMalformed ht, h⟩

theorem isRest_congr {α β : Type} {items : List α} {more : List β} {w : List Char} (h : items = [] ↔ more = [])
    (hw : IsRest items w) : IsRest more w := by
  have hempty : more.isEmpty = items.isEmpty := by
    rw [Bool.eq_iff_iff, List.isEmpty_iff, List.isEmpty_iff, h]
  rwa [IsRest, hempty, ← IsRest]

theorem written_nodesOf {items : List Raw} {ns : List Node}
    (hw : ∀ r ∈ items, ∀ n, r.node Scalar.isNarrow = .ok n → Written inside depth n)
    (h : nodesOf Scalar.isNarrow items = .ok ns) : (∀ n ∈ ns, Written inside depth n) ∧ (items = [] ↔ ns = []) := by
  induction items generalizing ns with
  | nil =>
    cases h
    exact ⟨List.forall_mem_nil _, by simp⟩
  | cons r items ih =>
    rw [nodesOf] at h
    obtain ⟨n, hn, h⟩ := exists_of_bind h
    obtain ⟨more, hm, rfl⟩ := exists_of_map h
    obtain ⟨hmore, -⟩ := ih (fun r hr => hw r (List.mem_cons_of_mem _ hr)) hm
    exact ⟨List.forall_mem_cons.2 ⟨hw r List.mem_cons_self n hn, hmore⟩, by simp⟩

/-- The entries in brackets fit, one after the other. -/
theorem fits_fill {entries : List (Key × Raw)} (hk : ∀ key r, (key, r) ∈ entries → KeyRead IsSpace IsSpace key)
    (hw : ∀ key r, (key, r) ∈ entries → ∀ n, r.node Scalar.isNarrow = .ok n → Written true depth n)
    (he : e.Fits true depth 1 1) (h : fill Scalar.isNarrow entries e = .ok u) :
    u.Fits true depth 1 1 ∧ (u = [] ↔ e = [] ∧ entries = []) := by
  induction entries generalizing e with
  | nil =>
    cases h
    exact ⟨he, by simp⟩
  | cons entry entries ih =>
    obtain ⟨key, r⟩ := entry
    obtain ⟨labels, n, t, hl, hn, ht, h⟩ := exists_of_fill h
    obtain ⟨hp, ha⟩ := isPath_of_labels (hk key r List.mem_cons_self) hl
    have hg : Grown true depth 1 1 [] e t := by
      refine grown_put (hw key r List.mem_cons_self n hn) (fun l hl => ⟨hp.spelled l hl, ha l hl⟩) he ?_ ht
      have hlen := hp.length_le
      omega
    obtain ⟨hu, hnil⟩ := ih (fun key r hm => hk key r (List.mem_cons_of_mem _ hm))
      (fun key r hm => hw key r (List.mem_cons_of_mem _ hm)) hg.fits h
    exact ⟨hu, by simp [hnil, hg.ne_nil]⟩

/-- A value with a meaning can be written. -/
theorem written_of_node (hr : RawRead inside depth raw) (h : raw.node Scalar.isNarrow = .ok n) :
    Written inside depth n := by
  induction hr generalizing n with
  | @scalar inside depth before text after hb ha ht =>
    obtain ⟨s, hs, hn, rfl⟩ := exists_of_scalar h
    exact .scalar hb ha (isScalar_of_scalarOf ht hs) hs hn
  | @array inside depth before rest after items hb ha hrest _ ih =>
    rw [Raw.node] at h
    obtain ⟨ns, hns, rfl⟩ := exists_of_map h
    obtain ⟨hw, hnil⟩ := written_nodesOf (fun r hr n hn => ih r hr hn) hns
    exact .array hb ha (isRest_congr hnil hrest) hw
  | @table inside depth before rest after entries hb ha hrest hk _ ih =>
    rw [Raw.node] at h
    obtain ⟨e, he, rfl⟩ := exists_of_map h
    obtain ⟨hfits, hnil⟩ := fits_fill hk (fun key r hm n hn => ih key r hm hn) (fits_nil ..) he
    obtain ⟨hplaces, hleaves⟩ := hfits.of_inside
    refine .inline hb ha (isRest_congr ⟨fun h => ?_, fun h => (hnil.1 (hleaves h)).2⟩ hrest) hfits.isSound hplaces
      (fun leaf hm => ?_) fun leaf hm => ?_
    · rw [hnil.2 ⟨rfl, h⟩]
      rfl
    · obtain ⟨hp, ha, -⟩ := hfits.leaves leaf hm
      exact ⟨hp, ha⟩
    · exact (hfits.leaves leaf hm).2.2

end Values

end SqlLint.Toml
