import SqlLint.Proofs.Toml.Quoting
import SqlLint.Proofs.Toml.Spelled
import SqlLint.Toml.Edit

/-! # Setting a list of strings

A document whose list is set is read back with that list under its key and with all other entries as they
were. -/
namespace SqlLint.Toml
open Token (nestingLimit)

/-! ## Readers that take more -/

section Takes

variable {takes more : Scalar → Bool}

mutual
/-- A value with a meaning has it for each reader that takes more scalars. -/
theorem node_mono (hm : ∀ s, takes s = true → more s = true) : ∀ {raw : Raw} {n : Node},
    raw.node takes = .ok n → raw.node more = .ok n
  | .scalar before text after, n, h => by
    obtain ⟨s, hs, ht, rfl⟩ := exists_of_scalar h
    rw [Raw.node, hs]
    simp only [bind, Except.bind]
    rw [if_pos (hm s ht)]
    rfl
  | .array before items rest after, n, h => by
    rw [Raw.node] at h ⊢
    obtain ⟨ns, hns, rfl⟩ := exists_of_map h
    rw [nodesOf_mono hm hns]
    rfl
  | .table before entries rest after, n, h => by
    rw [Raw.node] at h ⊢
    obtain ⟨es, hes, rfl⟩ := exists_of_map h
    rw [fill_mono hm hes]
    rfl

theorem nodesOf_mono (hm : ∀ s, takes s = true → more s = true) : ∀ {items : List Raw} {ns : List Node},
    nodesOf takes items = .ok ns → nodesOf more items = .ok ns
  | [], ns, h => h
  | raw :: items, ns, h => by
    rw [nodesOf] at h ⊢
    obtain ⟨n, hn, h⟩ := exists_of_bind h
    obtain ⟨ns, hns, rfl⟩ := exists_of_map h
    rw [node_mono hm hn, nodesOf_mono hm hns]
    rfl

theorem fill_mono (hm : ∀ s, takes s = true → more s = true) : ∀ {entries : List (Key × Raw)} {e u : Entries},
    fill takes entries e = .ok u → fill more entries e = .ok u
  | [], e, u, h => h
  | (key, raw) :: entries, e, u, h => by
    obtain ⟨labels, n, t, hl, hn, ht, h⟩ := exists_of_fill h
    rw [fill, hl, node_mono hm hn]
    simp only [bind, Except.bind]
    rw [ht]
    exact fill_mono hm h
end

theorem add_mono (hm : ∀ s, takes s = true → more s = true) {d u : Document.Draft} {line : Line}
    (h : d.add takes line = .ok u) : d.add more line = .ok u := by
  cases line with
  | header lead repeated key tail => exact h
  | entry key raw =>
    rw [Document.Draft.add] at h ⊢
    obtain ⟨labels, hl, h⟩ := exists_of_bind h
    obtain ⟨n, hn, h⟩ := exists_of_bind h
    rw [hl, node_mono hm hn]
    exact h

theorem foldlM_add_mono (hm : ∀ s, takes s = true → more s = true) {d u : Document.Draft} {lines : List Line}
    (h : lines.foldlM (Document.Draft.add takes) d = .ok u) : lines.foldlM (Document.Draft.add more) d = .ok u := by
  induction lines generalizing d with
  | nil => exact h
  | cons line lines ih =>
    rw [List.foldlM_cons] at h ⊢
    obtain ⟨v, hv, h⟩ := exists_of_bind h
    rw [add_mono hm hv]
    exact ih h

/-- A document is the same one for each reader that takes more scalars. -/
theorem read_mono (hm : ∀ s, takes s = true → more s = true) {text : List Char} {d : Document}
    (h : Document.read takes text = .ok d) : Document.read more text = .ok d := by
  rw [Document.read] at h ⊢
  obtain ⟨s, hs, h⟩ := exists_of_bind h
  rw [hs]
  rw [Document.ofSource] at h
  obtain ⟨v, hv, h⟩ := exists_of_bind h
  simp only [bind, Except.bind]
  rw [Document.ofSource, foldlM_add_mono hm hv]
  exact h

end Takes

/-! ## The list -/

/-- A quoted string means what it quotes. -/
theorem scalarOf_encode (cs : List Char) : scalarOf (Quoted.encode cs) = .ok (.string cs) := by
  obtain ⟨hs, c, rest, he, hq, -⟩ := string_encode cs
  have hhead : (Quoted.encode cs).head?.any Token.isQuote = true := by
    rw [he]
    exact hq
  rw [scalarOf, if_pos hhead, hs]
  rfl

section ListNode

variable (values : List String) (first : Bool)

theorem written_listItems {depth : Nat} : ∀ n ∈ listNode.items first values, Written true depth n := by
  induction values generalizing first with
  | nil => exact List.forall_mem_nil _
  | cons v vs ih =>
    rw [listNode.items]
    refine List.forall_mem_cons.2 ⟨?_, ih false⟩
    have hbefore : IsSpace (if first then [] else [' ']) := by
      cases first with
      | true => exact .nil
      | false => exact .blank rfl .nil
    exact .scalar hbefore .nil (.string (string_encode v.toList).2) (scalarOf_encode v.toList) rfl

/-- A list on one line can be written. -/
theorem written_listNode : Written false nestingLimit (listNode values) := by
  refine .array (fun c hc => ?_) (.blanks isBlanks_nil) ?_ (written_listItems values true)
  · rw [List.mem_singleton.1 hc]
    rfl
  · cases values with
    | nil => exact .nil
    | cons v vs => exact .inl rfl

/-- The value that a list of strings is. -/
def listValue : Value := .array (values.map fun v => .scalar (.string v.toList))

theorem valuesOf_listItems : valuesOf (listNode.items first values) = values.map fun v => .scalar (.string v.toList) := by
  induction values generalizing first with
  | nil => rfl
  | cons v vs ih =>
    rw [listNode.items, valuesOf, ih]
    rfl

theorem value_listNode : (listNode values).value = listValue values := by
  rw [listNode, Node.value, valuesOf_listItems]
  rfl

end ListNode

/-! ## The document -/

variable {name : String} {values : List String} {d : Document} {text : List Char}

theorem tableOf_set (l : Label) (n : Node) (e : Entries) : tableOf (e.set l n) = Assoc.insert l.name n.value (tableOf e) := by
  refine Assoc.ext_of_lookup (isSorted_tableOf _) (Assoc.isSorted_insert _ _ (isSorted_tableOf e)) fun x => ?_
  rw [lookup_tableOf, Entries.get?_set]
  split
  · next h =>
    subst h
    rw [Assoc.lookup_insert_self]
    rfl
  · next h => rw [Assoc.lookup_insert_of_ne (Ne.symm h), lookup_tableOf]

/-- A name that is its own text. -/
def nameLabel (name : String) : Label := { name := name, text := name.toList }

/-- A document stays one that can be written when a list takes the place of a value, or of none. -/
theorem stands_setList {bound : Nat} (h : d.entries.Stands bound) (hname : (nameLabel name).IsSpelled)
    (hx : ∀ n, d.entries.get? name = some n → n.isLeaf = true) :
    (d.setList name values).entries.Stands bound := by
  have hfit : Fit false nestingLimit 1 1 (listNode values) := .leaf (written_listNode values) (by decide)
  have hlabel : (nameLabel name).Fits false (listNode values) :=
    ⟨hname, fun _ _ ha => (by cases ha), fun _ _ ha => (by cases ha)⟩
  refine h.of_grown ?_
  cases hg : d.entries.get? name with
  | none => exact grown_set_of_none (l := nameLabel name) h.fits hg hfit hlabel rfl
  | some n =>
    have hleaf := hx n hg
    refine grown_set_of_some (l := nameLabel name) h.fits hg hfit (fun _ => hleaf) (fun h => (by cases h)) ?_
    rw [places_of_isLeaf hleaf]
    exact List.Perm.refl _

/-- A text with a list under a key is read with that list, whatever scalars the reader takes. -/
theorem writeList_ok (hd : Document.read Scalar.isNarrow text = .ok d) (hname : (nameLabel name).IsSpelled)
    (hx : ∀ n, d.entries.get? name = some n → n.isLeaf = true) :
    ∃ written, writeList name values text = .ok written ∧ ∀ takes : Scalar → Bool,
      (∀ s, s.isNarrow = true → takes s = true) → ∃ d', Document.read takes written = .ok d' ∧
        d'.table = Assoc.insert name (listValue values) d.table := by
  obtain ⟨⟨bound, hs⟩, hend⟩ := stands_of_read hd
  have hstands : (d.setList name values).entries.Stands bound := stands_setList hs hname hx
  refine ⟨(d.setList name values).render, ?_, fun takes ht => ?_⟩
  · rw [writeList, hd]
    rfl
  · obtain ⟨d', hd', htable⟩ := read_render ht (hstands.isSpelled hend)
    refine ⟨d', hd', ?_⟩
    rw [htable, ← value_listNode]
    exact tableOf_set (nameLabel name) (listNode values) d.entries

/-- A text that can be edited is one that can be read for edits. -/
theorem read_of_writeList {written : List Char}
    (h : writeList name values text = .ok written) : ∃ d, Document.read Scalar.isNarrow text = .ok d := by
  obtain ⟨d, hd, -⟩ := exists_of_bind h
  exact ⟨d, hd⟩

end SqlLint.Toml
