import SqlLint.Proofs.Toml.Reparse

/-! # Values are read as written

The induction is on the value: what brackets hold is read item by item, and each item takes as much fuel
as it has tokens. -/
namespace SqlLint.Toml
open Token

theorem textsOf_eq_map (items : List Node) : textsOf items = items.map Node.text := by
  induction items with
  | nil => rw [textsOf]; rfl
  | cons n items ih => rw [textsOf, ih, List.map_cons]

theorem commas_singleton (t : List Char) : commas [t] = t := by
  simp [commas]

theorem commas_cons (t t' : List Char) (ts : List (List Char)) :
    commas (t :: t' :: ts) = t ++ ',' :: commas (t' :: ts) := by
  simp [commas]

section Lexes

variable {inside : Bool} {depth : Nat} {n : Node} {w r : List Char} {close : Char}

theorem ofText_follows (h : endsItem close = true) (r : List Char) : ofText (close :: r) = .mark close :: ofText r := by
  rcases endsItem_iff.1 h with rfl | rfl | rfl <;> exact ofText_mark rfl r

/-- Items and what stands behind them lead to the closing bracket. -/
theorem lexes_commas {α : Type} {items : List α} {text : α → List Char} (hc : endsItem close = true)
    (h : ∀ a ∈ items, ∀ r, Follows true r → Lexes (text a ++ r) r) (hw : IsRest items w) :
    Lexes (commas (items.map text) ++ (w ++ close :: r)) r := by
  have hclose : Lexes (close :: r) r := .of_token (ofText_follows hc r) (isClean_mark _)
  induction items generalizing w with
  | nil => exact .trans (lexes_space hw _) hclose
  | cons a items ih =>
    have ha := h a List.mem_cons_self
    have hitems := fun b hb => h b (List.mem_cons_of_mem a hb)
    have hcomma (x : List Char) : Lexes (text a ++ ',' :: x) x :=
      .trans (ha _ (ahead_cons.2 rfl)) (.of_token (ofText_mark rfl x) (isClean_mark _))
    cases items with
    | nil =>
      rw [List.map_singleton, commas_singleton]
      rcases hw with rfl | ⟨s, rfl, hs⟩
      · exact .trans (ha _ (ahead_cons.2 hc)) hclose
      · exact .trans (hcomma _) (.trans (lexes_space hs _) hclose)
    | cons b items =>
      rw [List.map_cons, List.map_cons, commas_cons, List.append_assoc]
      exact .trans (hcomma _) (ih hitems hw)

/-- A key and what stands around it lead to the equals sign. -/
theorem lexes_key {path : List Label} {around : List Char × List Char} (hp : IsPath path)
    (ha : IsAround inside around) (r : List Char) :
    Lexes (around.1 ++ (pathText path ++ (around.2 ++ '=' :: r))) r := by
  have hafter : IsSpace around.2 := by
    cases inside with
    | true => exact ha.2
    | false => exact IsBlanks.isSpace ha.2
  refine .trans (lexes_space ha.1 _) (.trans (lexes_pathText hp.ne_nil hp.spelled ?_) (.trans (lexes_space hafter _) ?_))
  · obtain ⟨b, s, he, hb, hs, hh⟩ := hafter.split
    rw [he, List.append_assoc]
    refine ahead_endsWord hb (ahead_append ((hs.ahead hh).mono fun c hc => ?_) fun _ => ahead_cons.2 rfl)
    rcases (by simpa using hc : c = '\n' ∨ c = '#') with rfl | rfl <;> rfl
  · exact .of_token (ofText_mark rfl r) (isClean_mark _)

theorem entryText_append (leaf : Item) (r : List Char) : entryText [] leaf ++ r =
    (aroundOf ([], [' ']) leaf.1).1 ++ (pathText leaf.1 ++ ((aroundOf ([], [' ']) leaf.1).2 ++ '=' :: (leaf.2.text ++ r))) := by
  rw [entryText, List.nil_append, keyText, ← aroundOf]
  simp

theorem Written.lexes (h : Written inside depth n) (hr : Follows inside r) : Lexes (n.text ++ r) r := by
  induction h generalizing r with
  | @scalar inside depth before text after s hb ha ht _ _ =>
    have htext : (Node.scalar before text after s).text ++ r = before ++ (text ++ (after ++ r)) := by simp [Node.text]
    rw [htext]
    exact .trans (lexes_before hb _) (.trans (lexes_scalar ht (ahead_endsWord_after ha hr)) (lexes_after ha hr))
  | @array inside depth before rest after items hb ha hw _ ih =>
    have htext : (Node.array before items rest after).text ++ r =
        before ++ '[' :: (commas (items.map Node.text) ++ (rest ++ ']' :: (after ++ r))) := by
      simp [Node.text, textsOf_eq_map]
    rw [htext]
    refine .trans (lexes_before hb _) (.trans (.of_token (ofText_mark rfl _) (isClean_mark _)) ?_)
    exact .trans (lexes_commas rfl (fun n hn r hr => ih n hn hr) hw) (lexes_after ha hr)
  | @inline inside depth before rest after e hb ha hw _ _ hp _ ih =>
    have htext : (Node.inline before e rest after).text ++ r =
        before ++ '\x7b' :: (commas ((leavesOf e).map (entryText [])) ++ (rest ++ '\x7d' :: (after ++ r))) := by
      simp [Node.text, entryTexts_eq]
    rw [htext]
    refine .trans (lexes_before hb _) (.trans (.of_token (ofText_mark rfl _) (isClean_mark _)) ?_)
    refine .trans (lexes_commas rfl (fun leaf hl r hr => ?_) hw) (lexes_after ha hr)
    obtain ⟨hpath, haround⟩ := hp leaf hl
    rw [entryText_append]
    exact .trans (lexes_key hpath haround _) (ih leaf hl hr)

end Lexes

section Reads

variable {inside : Bool} {depth : Nat} {n : Node} {w r : List Char}

/-- With fuel enough a value is read as what it is. -/
def Node.Rereads (inside : Bool) (depth : Nat) (n : Node) : Prop :=
  ∀ r fuel, Follows inside r → 2 * (ofText (n.text ++ r)).length + 2 ≤ fuel →
    takeValue inside fuel depth (ofText (n.text ++ r)) = some (n.raw, ofText r)

/-- A value does not start with the closing bracket of an array. -/
theorem Written.not_closing (h : Written true depth n) (r : List Char) :
    ∀ space us, takeSpace (ofText (n.text ++ r)) ≠ (space, .mark ']' :: us) := by
  obtain ⟨before, core, htext, hb, hcore⟩ := h.text_eq
  intro space us hs
  rw [htext, List.append_assoc, takeSpace_text hb ((hcore r).mono fun c => opens_of_startsValue)] at hs
  have hu := (Prod.mk.inj hs).2
  cases hx : core ++ r with
  | nil =>
    rw [hx, ofText] at hu
    cases hu
  | cons c x =>
    have hc := ahead_cons.1 (hx ▸ hcore r)
    rw [hx, ofText_cons] at hu
    rcases next_of_opens (opens_of_startsValue hc) x with ⟨t, h⟩ | ⟨t, h⟩ | h <;> rw [h] at hu
    · cases hu
    · cases hu
    · obtain ⟨hu, -⟩ := List.cons.inj hu
      cases hu
      cases hc

/-- Behind an item and a comma there are fewer tokens. -/
theorem length_comma {t : List Char} (h : ∀ r, Follows true r → Lexes (t ++ r) r) (x : List Char) :
    (ofText x).length + 1 ≤ (ofText (t ++ ',' :: x)).length := by
  have hl := (h (',' :: x) (ahead_cons.2 rfl)).length_le
  rw [ofText_mark (c := ',') rfl x] at hl
  exact hl

theorem takeItems_text {items : List Node} (hw : ∀ n ∈ items, Written true depth n)
    (h : ∀ n ∈ items, n.Rereads true depth) (hr : IsRest items w) (r : List Char) {fuel : Nat}
    (hf : 2 * (ofText (commas (items.map Node.text) ++ (w ++ ']' :: r))).length + 3 ≤ fuel) :
    takeItems fuel depth (ofText (commas (items.map Node.text) ++ (w ++ ']' :: r))) =
      some (rawsOf items, w, ofText r) := by
  have hmark : ofText (']' :: r) = .mark ']' :: ofText r := ofText_mark rfl r
  induction items generalizing w fuel with
  | nil =>
    obtain ⟨fuel, rfl⟩ : ∃ k, fuel = k + 1 := ⟨fuel - 1, by omega⟩
    refine takeItems_nil ?_
    have hs : IsSpace w := hr
    rw [List.map_nil, commas, List.intercalate_nil, List.nil_append, takeSpace_text hs (ahead_cons.2 rfl), hmark]
  | cons n items ih =>
    have hn := hw n List.mem_cons_self
    have hread := h n List.mem_cons_self
    have hlex : ∀ r, Follows true r → Lexes (n.text ++ r) r := fun r hr => hn.lexes hr
    have hitems := fun m hm => hw m (List.mem_cons_of_mem n hm)
    have hreads := fun m hm => h m (List.mem_cons_of_mem n hm)
    obtain ⟨fuel, rfl⟩ : ∃ k, fuel = k + 1 := ⟨fuel - 1, by omega⟩
    -- what follows the comma takes less fuel
    have hcons {x : List Char} {raws : List Raw} {left : List Char}
        (hx : 2 * (ofText (n.text ++ ',' :: x)).length + 3 ≤ fuel + 1)
        (hi : 2 * (ofText x).length + 3 ≤ fuel → takeItems fuel depth (ofText x) = some (raws, left, ofText r)) :
        takeItems (fuel + 1) depth (ofText (n.text ++ ',' :: x)) = some (n.raw :: raws, restOf raws left, ofText r) := by
      have hlen := length_comma hlex x
      have hv := hread (',' :: x) fuel (ahead_cons.2 rfl) (by omega)
      rw [ofText_mark (c := ',') rfl x] at hv
      exact takeItems_cons (hn.not_closing _) hv (hi (by omega))
    cases items with
    | nil =>
      rw [List.map_singleton, commas_singleton] at hf ⊢
      rcases hr with rfl | ⟨s, rfl, hs⟩
      · rw [List.nil_append] at hf ⊢
        refine takeItems_last (hn.not_closing _) ?_
        rw [hread _ fuel (ahead_cons.2 rfl) (by omega), hmark]
      · exact hcons hf fun hx => ih hitems hreads hs hx
    | cons m items =>
      rw [List.map_cons, List.map_cons, commas_cons, List.append_assoc] at hf ⊢
      exact hcons hf fun hx => ih hitems hreads hr hx

/-- A key, the equals sign and what stands around them are read up to the value. -/
theorem takeKey_text {path : List Label} {around : List Char × List Char} (hp : IsPath path) (ha : IsAround true around)
    (r : List Char) :
    ∃ ks es key after, takeSpace (ofText (around.1 ++ (pathText path ++ (around.2 ++ '=' :: r)))) = (around.1, ks) ∧
      (∀ us, ks ≠ .mark '\x7d' :: us) ∧ takeKey around.1 ks = (key, es) ∧
      takeSpace es = (after, .mark '=' :: ofText r) ∧ extend after key = keyFrom around.1 around.2 path := by
  have hstart := ahead_pathText hp (around.2 ++ '=' :: r)
  obtain ⟨b, s, he, hb, hs, hh⟩ := IsSpace.split ha.2
  have hend : Ahead endsKey (s ++ '=' :: r) := by
    refine ahead_append ((hs.ahead hh).mono fun c hc => ?_) fun _ => ahead_cons.2 rfl
    rcases (by simpa using hc : c = '\n' ∨ c = '#') with rfl | rfl <;> rfl
  have hk := takeSegments_path hp.ne_nil hp.spelled isBlanks_nil hb hend around.1
  refine ⟨ofText (pathText path ++ (around.2 ++ '=' :: r)), ofText (s ++ '=' :: r), keyFrom around.1 b path, s,
    takeSpace_text ha.1 (hstart.mono fun c => opens_of_startsName), ?_, ?_, ?_, ?_⟩
  · intro us hu
    cases hx : pathText path ++ (around.2 ++ '=' :: r) with
    | nil =>
      rw [hx, ofText] at hu
      cases hu
    | cons c x =>
      have hc := ahead_cons.1 (hx ▸ hstart)
      rw [hx, ofText_cons] at hu
      rcases next_of_opens (opens_of_startsName hc) x with ⟨t, h⟩ | ⟨t, h⟩ | h <;> rw [h] at hu
      · cases hu
      · cases hu
      · obtain ⟨hu, -⟩ := List.cons.inj hu
        cases hu
        cases hc
  · rw [takeKey, he, List.append_assoc]
    rw [List.nil_append, List.append_nil] at hk
    exact hk
  · rw [takeSpace_text hs (ahead_cons.2 rfl), ofText_mark rfl]
  · rw [extend_keyFrom hp.ne_nil, ← he]

theorem takeEntries_text {leaves : List Item}
    (hp : ∀ leaf ∈ leaves, IsPath leaf.1 ∧ IsAround true (aroundOf ([], [' ']) leaf.1))
    (hw : ∀ leaf ∈ leaves, Written true depth leaf.2) (h : ∀ leaf ∈ leaves, leaf.2.Rereads true depth)
    (hr : IsRest leaves w) (r : List Char) {fuel : Nat}
    (hf : 2 * (ofText (commas (leaves.map (entryText [])) ++ (w ++ '\x7d' :: r))).length + 3 ≤ fuel) :
    takeEntries fuel depth (ofText (commas (leaves.map (entryText [])) ++ (w ++ '\x7d' :: r))) =
      some (leaves.map (rawEntry []), w, ofText r) := by
  have hmark : ofText ('\x7d' :: r) = .mark '\x7d' :: ofText r := ofText_mark rfl r
  induction leaves generalizing w fuel with
  | nil =>
    obtain ⟨fuel, rfl⟩ : ∃ k, fuel = k + 1 := ⟨fuel - 1, by omega⟩
    refine takeEntries_nil ?_
    have hs : IsSpace w := hr
    rw [List.map_nil, commas, List.intercalate_nil, List.nil_append, takeSpace_text hs (ahead_cons.2 rfl), hmark]
  | cons leaf leaves ih =>
    obtain ⟨hpath, haround⟩ := hp leaf List.mem_cons_self
    have hn := hw leaf List.mem_cons_self
    have hread := h leaf List.mem_cons_self
    have hlex : ∀ r, Follows true r → Lexes (leaf.2.text ++ r) r := fun r hr => hn.lexes hr
    have hps := fun l hl => hp l (List.mem_cons_of_mem leaf hl)
    have hws := fun l hl => hw l (List.mem_cons_of_mem leaf hl)
    have hreads := fun l hl => h l (List.mem_cons_of_mem leaf hl)
    obtain ⟨fuel, rfl⟩ : ∃ k, fuel = k + 1 := ⟨fuel - 1, by omega⟩
    have hentry (x : List Char) : (ofText (leaf.2.text ++ x)).length ≤ (ofText (entryText [] leaf ++ x)).length := by
      rw [entryText_append]
      exact (lexes_key hpath haround _).length_le
    have hraw : rawEntry [] leaf = (keyFrom (aroundOf ([], [' ']) leaf.1).1 (aroundOf ([], [' ']) leaf.1).2 leaf.1,
        leaf.2.raw) := rfl
    have hcons {x : List Char} {raws : List (Key × Raw)} {left : List Char}
        (hx : 2 * (ofText (entryText [] leaf ++ ',' :: x)).length + 3 ≤ fuel + 1)
        (hi : 2 * (ofText x).length + 3 ≤ fuel → takeEntries fuel depth (ofText x) = some (raws, left, ofText r)) :
        takeEntries (fuel + 1) depth (ofText (entryText [] leaf ++ ',' :: x)) =
          some (rawEntry [] leaf :: raws, restOf raws left, ofText r) := by
      have hlen := length_comma hlex x
      have hle := hentry (',' :: x)
      obtain ⟨ks, es, key, after, hs, hc, hk, he, hext⟩ := takeKey_text hpath haround (leaf.2.text ++ ',' :: x)
      have hv := hread (',' :: x) fuel (ahead_cons.2 rfl) (by omega)
      rw [ofText_mark (c := ',') rfl x] at hv
      rw [entryText_append, takeEntries_cons hs hc hk he hv (hi (by omega)), hext, hraw]
    cases leaves with
    | nil =>
      rw [List.map_singleton, commas_singleton] at hf ⊢
      rcases hr with rfl | ⟨s, rfl, hs⟩
      · rw [List.nil_append] at hf ⊢
        have hle := hentry ('\x7d' :: r)
        obtain ⟨ks, es, key, after, hs, hc, hk, he, hext⟩ := takeKey_text hpath haround (leaf.2.text ++ '\x7d' :: r)
        have hv := hread ('\x7d' :: r) fuel (ahead_cons.2 rfl) (by omega)
        rw [hmark] at hv
        rw [entryText_append, takeEntries_last hs hc hk he hv, hext, List.map_singleton, hraw]
      · exact hcons hf fun hx => ih hps hws hreads hs hx
    | cons m leaves =>
      rw [List.map_cons, List.map_cons, commas_cons, List.append_assoc] at hf ⊢
      exact hcons hf fun hx => ih hps hws hreads hr hx

/-- Every value is read as it is written. -/
theorem Written.rereads (h : Written inside depth n) : n.Rereads inside depth := by
  induction h with
  | @scalar inside depth before text after s hb ha ht _ _ =>
    intro r fuel hr hf
    obtain ⟨fuel, rfl⟩ : ∃ k, fuel = k + 1 := ⟨fuel - 1, by omega⟩
    have htext : (Node.scalar before text after s).text ++ r = before ++ (text ++ (after ++ r)) := by simp [Node.text]
    have hend := ahead_endsWord_after ha hr
    have hopen := opening_text hb ((ht.ahead (after ++ r)).mono fun c => opens_of_startsValue)
    have hclose := closing_text ha hr
    rw [htext, Node.raw]
    cases ht with
    | phrase ht hn hh =>
      rw [takeValue_words hopen (ofText_phrase ht hn hh hend) (takeScalar_text ht hend (takeScalar_after ha hr)), hclose]
    | string ht =>
      rw [ofText_closed ht hend] at hopen
      rw [takeValue_string hopen, hclose]
  | @array inside depth before rest after items hb ha hw hi ih =>
    intro r fuel hr hf
    obtain ⟨fuel, rfl⟩ : ∃ k, fuel = k + 1 := ⟨fuel - 1, by omega⟩
    have htext : (Node.array before items rest after).text ++ r =
        before ++ '[' :: (commas (items.map Node.text) ++ (rest ++ ']' :: (after ++ r))) := by
      simp [Node.text, textsOf_eq_map]
    have hmark := ofText_mark (c := '[') rfl (commas (items.map Node.text) ++ (rest ++ ']' :: (after ++ r)))
    have hlen := (lexes_before hb ('[' :: (commas (items.map Node.text) ++ (rest ++ ']' :: (after ++ r))))).length_le
    have hopen := opening_text hb (r := '[' :: (commas (items.map Node.text) ++ (rest ++ ']' :: (after ++ r))))
      (ahead_cons.2 rfl)
    rw [hmark] at hlen hopen
    rw [htext] at hf ⊢
    rw [List.length_cons] at hlen
    have hitems : takeItems fuel _ _ = _ := takeItems_text hi ih hw (after ++ r) (by omega)
    rw [takeValue_array hopen hitems, closing_text ha hr, Node.raw]
  | @inline inside depth before rest after e hb ha hw _ _ hp hi ih =>
    intro r fuel hr hf
    obtain ⟨fuel, rfl⟩ : ∃ k, fuel = k + 1 := ⟨fuel - 1, by omega⟩
    have htext : (Node.inline before e rest after).text ++ r =
        before ++ '\x7b' :: (commas ((leavesOf e).map (entryText [])) ++ (rest ++ '\x7d' :: (after ++ r))) := by
      simp [Node.text, entryTexts_eq]
    have hmark := ofText_mark (c := '\x7b') rfl
      (commas ((leavesOf e).map (entryText [])) ++ (rest ++ '\x7d' :: (after ++ r)))
    have hlen := (lexes_before hb
      ('\x7b' :: (commas ((leavesOf e).map (entryText [])) ++ (rest ++ '\x7d' :: (after ++ r))))).length_le
    have hopen := opening_text hb
      (r := '\x7b' :: (commas ((leavesOf e).map (entryText [])) ++ (rest ++ '\x7d' :: (after ++ r))))
      (ahead_cons.2 rfl)
    rw [hmark] at hlen hopen
    rw [htext] at hf ⊢
    rw [List.length_cons] at hlen
    have hentries : takeEntries fuel _ _ = _ := takeEntries_text hp hi ih hw (after ++ r) (by omega)
    rw [takeValue_table hopen hentries, closing_text ha hr, Node.raw, rawEntries_eq]

end Reads

end SqlLint.Toml
