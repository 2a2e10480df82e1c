import SqlLint.Rule

/-! # Rules in order

Rules of one key, and all rules without a key, are tied. Sorting puts the keys in order and keeps the order of tied
rules, and by these two facts a sorted list is determined. So two lists have the same sorted list exactly if their
tied rules agree, which makes it enough to follow the tied rules through a run of exclusions. -/
namespace SqlLint.Rule

/-- The rules of one key, or those without a key. -/
def tied (key : Option Nat) (rules : List String) : List String := rules.filter (sortKey · = key)

/-- A list in the order of keys, in which tied rules stand as in another list. -/
structure IsStableSort (rules sorted : List String) : Prop where
  ordered : sorted.Pairwise (le · ·)
  tied_eq : ∀ key, tied key sorted = tied key rules

variable {rules other sorted : List String} {rule a b : String} {key : Option Nat}

theorem mem_tied : rule ∈ tied key rules ↔ rule ∈ rules ∧ sortKey rule = key := by simp [tied]

@[simp] theorem tied_append (key : Option Nat) (rules other : List String) :
    tied key (rules ++ other) = tied key rules ++ tied key other := List.filter_append ..

theorem tied_cons_self (rule : String) (rules : List String) :
    tied (sortKey rule) (rule :: rules) = rule :: tied (sortKey rule) rules := by simp [tied]

theorem tied_cons_of_ne (h : sortKey rule ≠ key) (rules : List String) : tied key (rule :: rules) = tied key rules := by
  simp [tied, h]

theorem keyLe_antisymm {m n : Option Nat} (hmn : keyLe m n) (hnm : keyLe n m) : m = n := by
  cases m <;> cases n <;> simp_all [keyLe]
  omega

theorem le_of_sortKey_eq (h : sortKey a = sortKey b) : le a b := by
  rw [le, h]
  simpa using keyLe_total (sortKey b) (sortKey b)

/-- Lists with the same tied rules have the same rules, each as often. -/
theorem count_eq_of_tied (h : ∀ key, tied key rules = tied key other) (rule : String) :
    rules.count rule = other.count rule := by
  have one (list : List String) : list.count rule = (tied (sortKey rule) list).count rule :=
    (List.count_filter (by simp)).symm
  rw [one rules, h, ← one other]

theorem mem_iff_of_tied (h : ∀ key, tied key rules = tied key other) (rule : String) : rule ∈ rules ↔ rule ∈ other := by
  rw [← List.count_pos_iff, count_eq_of_tied h, List.count_pos_iff]

/-! ## Sorting -/

/-- Tied rules are in order as they stand, and what is in order stays as it stands. -/
theorem tied_sort (key : Option Nat) (rules : List String) : tied key (sort rules) = tied key rules := by
  have ordered : (tied key rules).Pairwise (le · ·) := by
    apply List.pairwise_of_forall_mem_list
    intro a ha b hb
    apply le_of_sortKey_eq
    rw [(mem_tied.1 ha).2, (mem_tied.1 hb).2]
  have kept : (tied key rules).Sublist (sort rules) :=
    List.sublist_mergeSort le_trans le_total ordered List.filter_sublist
  have inner : (tied key rules).Sublist (tied key (sort rules)) := by
    simpa [tied] using kept.filter (sortKey · = key)
  exact (inner.eq_of_length ((sort_perm rules).filter _).length_eq.symm).symm

theorem isStableSort_sort (rules : List String) : IsStableSort rules (sort rules) :=
  ⟨pairwise_sort rules, fun key => tied_sort key rules⟩

/-- Two lists in order that agree on tied rules start with the same rule. -/
theorem head_eq_of_tied (ha : (a :: rules).Pairwise (le · ·)) (hb : (b :: other).Pairwise (le · ·))
    (h : ∀ key, tied key (a :: rules) = tied key (b :: other)) : a = b := by
  have first (x y : String) {xs : List String} (hx : (x :: xs).Pairwise (le · ·)) (hy : y ∈ x :: xs) : le x y := by
    rcases List.mem_cons.1 hy with rfl | hy
    · exact le_of_sortKey_eq rfl
    · exact List.rel_of_pairwise_cons hx hy
  have hab := first a b ha ((mem_iff_of_tied h b).2 List.mem_cons_self)
  have hba := first b a hb ((mem_iff_of_tied h a).1 List.mem_cons_self)
  have keys : sortKey a = sortKey b := keyLe_antisymm hab hba
  have heads := h (sortKey a)
  rw [tied_cons_self, keys, tied_cons_self] at heads
  exact (List.cons.inj heads).1

/-- There is one way to sort a list. -/
theorem eq_of_tied (ha : rules.Pairwise (le · ·)) (hb : other.Pairwise (le · ·))
    (h : ∀ key, tied key rules = tied key other) : rules = other := by
  induction rules generalizing other with
  | nil =>
    cases other with
    | nil => rfl
    | cons b other => simpa using mem_iff_of_tied h b
  | cons a rules ih =>
    cases other with
    | nil => simpa using mem_iff_of_tied h a
    | cons b other =>
      obtain rfl := head_eq_of_tied ha hb h
      congr 1
      refine ih ha.of_cons hb.of_cons fun key => ?_
      have here := h key
      by_cases hk : sortKey a = key
      · subst hk
        rw [tied_cons_self, tied_cons_self] at here
        exact (List.cons.inj here).2
      · rwa [tied_cons_of_ne hk, tied_cons_of_ne hk] at here

theorem IsStableSort.eq_sort (h : IsStableSort rules sorted) : sorted = sort rules :=
  eq_of_tied h.ordered (pairwise_sort rules) fun key => (h.tied_eq key).trans (tied_sort key rules).symm

theorem sort_eq_sort_iff : sort rules = sort other ↔ ∀ key, tied key rules = tied key other := by
  constructor
  · intro h key
    rw [← tied_sort key rules, h, tied_sort]
  · intro h
    refine IsStableSort.eq_sort ⟨pairwise_sort rules, fun key => ?_⟩
    rw [tied_sort, h]

/-! ## Adding rules one after the other -/

/-- A list with a rule that is put at the end unless it is there. -/
def add (rules : List String) (rule : String) : List String := if rule ∈ rules then rules else rules ++ [rule]

/-- A list, and behind it each rule that is new, where it comes first. -/
def history (rules added : List String) : List String := rules ++ (added.removeAll rules).eraseDups

theorem exclude_eq (rules : List String) (rule : String) : exclude rules rule = sort (add rules rule) := rfl

theorem add_of_mem (h : rule ∈ rules) : add rules rule = rules := if_pos h

theorem add_of_not_mem (h : rule ∉ rules) : add rules rule = rules ++ [rule] := if_neg h

@[simp] theorem mem_add : a ∈ add rules rule ↔ a ∈ rules ∨ a = rule := by
  by_cases h : rule ∈ rules
  · rw [add_of_mem h]
    constructor
    · exact .inl
    · rintro (ha | rfl)
      · exact ha
      · exact h
  · simp [add_of_not_mem h]

theorem tied_add (h : ∀ key, tied key rules = tied key other) (rule : String) (key : Option Nat) :
    tied key (add rules rule) = tied key (add other rule) := by
  by_cases mem : rule ∈ rules
  · rw [add_of_mem mem, add_of_mem ((mem_iff_of_tied h rule).1 mem), h]
  · rw [add_of_not_mem mem, add_of_not_mem (mt (mem_iff_of_tied h rule).2 mem), tied_append, tied_append, h]

/-- Sorting in between makes no difference to tied rules. -/
theorem tied_foldl_exclude (h : ∀ key, tied key rules = tied key other) (added : List String) (key : Option Nat) :
    tied key (added.foldl exclude rules) = tied key (added.foldl add other) := by
  induction added generalizing rules other with
  | nil => exact h key
  | cons rule added ih =>
    rw [List.foldl_cons, List.foldl_cons]
    refine ih fun key => ?_
    rw [exclude_eq, tied_sort, tied_add h]

theorem removeAll_concat (added rules : List String) (rule : String) :
    added.removeAll (rules ++ [rule]) = (added.removeAll rules).filter fun other => !other == rule := by
  simp only [List.removeAll, List.filter_filter]
  refine List.filter_congr fun other _ => ?_
  by_cases h : other = rule <;> simp [h]

theorem foldl_add (rules added : List String) : added.foldl add rules = history rules added := by
  induction added generalizing rules with
  | nil => simp [history]
  | cons rule added ih =>
    rw [List.foldl_cons, ih, history, history, List.cons_removeAll]
    by_cases h : rule ∈ rules
    · simp [add_of_mem h, h]
    · rw [add_of_not_mem h, removeAll_concat]
      simp [h, List.eraseDups_cons]

/-- Adding rules leaves those that were there as often as they were, and puts each other one in once. -/
theorem count_foldl_add (rules added : List String) (rule : String) : (added.foldl add rules).count rule =
    if rule ∈ rules then rules.count rule else if rule ∈ added then 1 else 0 := by
  induction added generalizing rules with
  | nil =>
    by_cases h : rule ∈ rules
    · simp [h]
    · simp [h, List.count_eq_zero.2 h]
  | cons first added ih =>
    rw [List.foldl_cons, ih]
    by_cases h : rule ∈ rules
    · by_cases mem : first ∈ rules
      · simp [add_of_mem mem, h]
      · have other : first ≠ rule := fun same => mem (same ▸ h)
        simp [add_of_not_mem mem, h, other]
    · by_cases same : rule = first
      · subst same
        simp [add_of_not_mem h, List.count_eq_zero.2 h, h]
      · by_cases mem : first ∈ rules
        · simp [add_of_mem mem, h, same]
        · simp [add_of_not_mem mem, h, same]

theorem count_exclude (rules : List String) (rule other : String) : (exclude rules rule).count other =
    if other ∈ rules then rules.count other else if other = rule then 1 else 0 := by
  have single := count_foldl_add rules [rule] other
  rw [exclude_eq, (sort_perm _).count_eq]
  simpa using single

/-- A list holds a rule twice if it did before. -/
theorem nodup_exclude_iff (rules : List String) (rule : String) : (exclude rules rule).Nodup ↔ rules.Nodup := by
  rw [List.nodup_iff_count, List.nodup_iff_count]
  apply forall_congr'
  intro other
  rw [count_exclude]
  split
  · rfl
  · next new =>
    rw [List.count_eq_zero.2 new]
    split <;> simp

/-- Of a list in order a rule that is there changes nothing. -/
theorem exclude_of_mem (ordered : rules.Pairwise (le · ·)) (h : rule ∈ rules) : exclude rules rule = rules := by
  rw [exclude_eq, add_of_mem h]
  exact List.mergeSort_of_pairwise ordered

/-- What becomes of a list when rules are added to it. -/
theorem isStableSort_foldl_exclude (rules : List String) {added : List String} (nonempty : added ≠ []) :
    IsStableSort (history rules added) (added.foldl exclude rules) := by
  constructor
  · rcases List.eq_nil_or_concat added with rfl | ⟨front, rule, rfl⟩
    · exact absurd rfl nonempty
    · rw [List.concat_eq_append, List.foldl_append]
      exact pairwise_sort _
  · intro key
    rw [← foldl_add]
    exact tied_foldl_exclude (fun _ => rfl) added key

/-! ## Two rules in either order -/

theorem tied_pair_comm_iff : (∀ key, tied key [a, b] = tied key [b, a]) ↔ a = b ∨ sortKey a ≠ sortKey b := by
  constructor
  · intro h
    by_cases keys : sortKey a = sortKey b
    · have second : tied (sortKey a) [b, a] = b :: tied (sortKey b) [a] := by rw [keys, tied_cons_self]
      have heads := h (sortKey a)
      rw [tied_cons_self, second] at heads
      exact .inl (List.cons.inj heads).1
    · exact .inr keys
  · rintro (rfl | keys) key
    · rfl
    · by_cases ha : sortKey a = key
      · have hb : sortKey b ≠ key := fun hb => keys (ha.trans hb.symm)
        simp [tied, ha, hb]
      · simp [tied, List.filter_cons, ha]

theorem add_add_of_mem (h : a ∈ rules) (b : String) : add (add rules a) b = add (add rules b) a := by
  have later : a ∈ add rules b := mem_add.2 (.inl h)
  rw [add_of_mem h, add_of_mem later]

/-- Whether rules that are new stand in the order in which they come is to be seen of tied rules only. -/
theorem exclude_comm_iff : exclude (exclude rules a) b = exclude (exclude rules b) a ↔
    a = b ∨ a ∈ rules ∨ b ∈ rules ∨ sortKey a ≠ sortKey b := by
  have sorted (x y : String) (key : Option Nat) : tied key (add (sort (add rules x)) y) = tied key (add (add rules x) y) :=
    tied_add (fun key => tied_sort key _) y key
  simp only [exclude_eq, sort_eq_sort_iff, sorted]
  by_cases ha : a ∈ rules
  · simp [ha, add_add_of_mem ha]
  by_cases hb : b ∈ rules
  · simp [hb, add_add_of_mem hb]
  by_cases same : a = b
  · simp [same]
  have both : add (add rules a) b = rules ++ [a, b] := by
    rw [add_of_not_mem ha, add_of_not_mem (by simp [hb, Ne.symm same]), List.append_assoc, List.singleton_append]
  have swapped : add (add rules b) a = rules ++ [b, a] := by
    rw [add_of_not_mem hb, add_of_not_mem (by simp [ha, same]), List.append_assoc, List.singleton_append]
  simp only [both, swapped, tied_append, List.append_cancel_left_eq, tied_pair_comm_iff, same, ha, hb, false_or]

end SqlLint.Rule
