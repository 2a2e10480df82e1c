/-! # Entries in the order of their keys -/
namespace SqlLint.Assoc

/-- Puts an entry at its place, instead of one with the same key. -/
def insert {α : Type} (key : String) (value : α) : List (String × α) → List (String × α)
  | [] => [(key, value)]
  | (k, v) :: rest =>
    if key = k then (key, value) :: rest
    else if key < k then (key, value) :: (k, v) :: rest
    else (k, v) :: insert key value rest

/-- Entries written in any order; of a repeated key the last one counts. -/
def ofList {α : Type} (entries : List (String × α)) : List (String × α) :=
  entries.foldl (fun sorted entry => insert entry.1 entry.2 sorted) []

variable {α : Type}

@[simp] theorem lookup_insert_self (key : String) (value : α) (entries : List (String × α)) :
    (insert key value entries).lookup key = some value := by
  induction entries with
  | nil => simp [insert]
  | cons entry rest ih =>
    obtain ⟨k, v⟩ := entry
    rw [insert]
    split
    · simp
    · split
      · simp
      · next h _ => simp [List.lookup_cons, beq_false_of_ne h, ih]

theorem lookup_insert_of_ne {key other : String} (h : other ≠ key) (value : α)
    (entries : List (String × α)) : (insert key value entries).lookup other = entries.lookup other := by
  induction entries with
  | nil => simp [insert, List.lookup_cons, beq_false_of_ne h]
  | cons entry rest ih =>
    obtain ⟨k, v⟩ := entry
    rw [insert]
    split
    · next hk => subst hk; simp [List.lookup_cons, beq_false_of_ne h]
    · split
      · simp [List.lookup_cons, beq_false_of_ne h]
      · simp [List.lookup_cons, ih]

/-- An entry whose key is that of no other entry is found. -/
theorem lookup_of_mem {entries : List (String × α)} {d : String × α} (once : (entries.map Prod.fst).count d.1 ≤ 1)
    (h : d ∈ entries) : entries.lookup d.1 = some d.2 := by
  induction entries with
  | nil => cases h
  | cons first rest ih =>
    rw [List.map_cons, List.count_cons] at once
    rcases List.mem_cons.1 h with rfl | later
    · exact List.lookup_cons_self
    · have one : 0 < (rest.map Prod.fst).count d.1 := List.count_pos_iff.2 (List.mem_map_of_mem later)
      have other : d.1 ≠ first.1 := by
        intro same
        rw [if_pos (beq_iff_eq.2 same.symm)] at once
        omega
      rw [List.lookup_cons, beq_false_of_ne other]
      exact ih (by omega) later

theorem lookup_foldl_insert (key : String) (entries sorted : List (String × α)) :
    (entries.foldl (fun sorted e => insert e.1 e.2 sorted) sorted).lookup key =
      (entries.reverse.lookup key).or (sorted.lookup key) := by
  induction entries generalizing sorted with
  | nil => rfl
  | cons e entries ih =>
    rw [List.foldl_cons, ih, List.reverse_cons, List.lookup_append, Option.or_assoc]
    congr 1
    by_cases same : key = e.1
    · subst same
      rw [lookup_insert_self, List.lookup_cons_self]
      rfl
    · rw [lookup_insert_of_ne same, List.lookup_cons, beq_false_of_ne same]
      rfl

/-- Of several entries with one key the last one is found. -/
theorem lookup_ofList (key : String) (entries : List (String × α)) :
    (ofList entries).lookup key = entries.reverse.lookup key := by
  rw [ofList, lookup_foldl_insert, List.lookup_nil, Option.or_none]

theorem insert_perm {key : String} {entries : List (String × α)} (h : key ∉ entries.map Prod.fst) (value : α) :
    (insert key value entries).Perm ((key, value) :: entries) := by
  induction entries with
  | nil => exact .refl _
  | cons entry rest ih =>
    obtain ⟨k, v⟩ := entry
    obtain ⟨other, later⟩ : key ≠ k ∧ key ∉ rest.map Prod.fst := by simpa using h
    rw [insert, if_neg other]
    split
    · exact .refl _
    · exact ((ih later).cons _).trans (.swap ..)

theorem foldl_insert_perm {entries sorted : List (String × α)} (h : (entries.map Prod.fst).Nodup)
    (apart : ∀ e ∈ entries, e.1 ∉ sorted.map Prod.fst) :
    (entries.foldl (fun sorted e => insert e.1 e.2 sorted) sorted).Perm (sorted ++ entries) := by
  induction entries generalizing sorted with
  | nil => simp
  | cons e entries ih =>
    obtain ⟨once, rest⟩ := List.nodup_cons.1 h
    have put := insert_perm (apart e List.mem_cons_self) e.2
    rw [List.foldl_cons]
    refine (ih rest fun e' he' mem => ?_).trans ((put.append_right entries).trans List.perm_middle.symm)
    rw [(put.map Prod.fst).mem_iff, List.map_cons, List.mem_cons] at mem
    rcases mem with same | before
    · exact once (same ▸ List.mem_map_of_mem he')
    · exact apart e' (List.mem_cons_of_mem _ he') before

/-- Entries with different keys are all kept. -/
theorem ofList_perm {entries : List (String × α)} (h : (entries.map Prod.fst).Nodup) : (ofList entries).Perm entries :=
  foldl_insert_perm h fun _ _ => List.not_mem_nil

end SqlLint.Assoc
