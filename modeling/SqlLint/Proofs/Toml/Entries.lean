import SqlLint.Toml.Node
import Mathlib.Data.String.Basic

/-! # Entries as maps

What the operations on entries make of each name, and why the table that entries describe depends on
nothing but the value under each name. -/
namespace SqlLint

namespace Assoc

variable {α : Type} {entries more : List (String × α)}

/-- The keys are in order, so none is repeated. -/
def IsSorted (entries : List (String × α)) : Prop := entries.Pairwise fun a b => a.1 < b.1

theorem mem_insert {key : String} {value : α} {entry : String × α}
    (h : entry ∈ insert key value entries) : entry = (key, value) ∨ entry ∈ entries := by
  induction entries with
  | nil => exact .inl (List.mem_singleton.1 h)
  | cons first rest ih =>
    obtain ⟨k, v⟩ := first
    rw [insert] at h
    split at h
    · rcases List.mem_cons.1 h with h | h
      · exact .inl h
      · exact .inr (List.mem_cons_of_mem _ h)
    · split at h
      · exact (List.mem_cons.1 h).imp_right id
      · rcases List.mem_cons.1 h with h | h
        · exact .inr (List.mem_cons.2 (.inl h))
        · exact (ih h).imp_right (List.mem_cons_of_mem _)

theorem isSorted_insert (key : String) (value : α) (h : IsSorted entries) :
    IsSorted (insert key value entries) := by
  induction entries with
  | nil => exact List.pairwise_singleton _ _
  | cons first rest ih =>
    obtain ⟨k, v⟩ := first
    obtain ⟨hk, hr⟩ := List.pairwise_cons.1 h
    rw [insert]
    split
    · next he =>
      subst he
      exact List.pairwise_cons.2 ⟨hk, hr⟩
    · next hne =>
      split
      · next hlt =>
        refine List.pairwise_cons.2 ⟨fun e he => ?_, h⟩
        rcases List.mem_cons.1 he with rfl | he
        · exact hlt
        · exact hlt.trans (hk e he)
      · next hnl =>
        refine List.pairwise_cons.2 ⟨fun e he => ?_, ih hr⟩
        rcases mem_insert he with rfl | he
        · exact lt_of_le_of_ne (not_lt.1 hnl) (Ne.symm hne)
        · exact hk e he

theorem lookup_eq_none {key : String} (h : ∀ e ∈ entries, key < e.1) : entries.lookup key = none := by
  rw [List.lookup_eq_none_iff]
  intro e he
  exact bne_iff_ne.2 (h e he).ne

/-- Entries in order are known by what each key has. -/
theorem ext_of_lookup (h : IsSorted entries) (h' : IsSorted more)
    (hl : ∀ key, entries.lookup key = more.lookup key) : entries = more := by
  induction entries generalizing more with
  | nil =>
    cases more with
    | nil => rfl
    | cons e more =>
      have he := hl e.1
      rw [List.lookup_cons_self] at he
      cases he
  | cons e entries ih =>
    cases more with
    | nil =>
      have he := hl e.1
      rw [List.lookup_cons_self] at he
      cases he
    | cons e' more =>
      obtain ⟨k, v⟩ := e
      obtain ⟨k', v'⟩ := e'
      obtain ⟨hk, hr⟩ := List.pairwise_cons.1 h
      obtain ⟨hk', hr'⟩ := List.pairwise_cons.1 h'
      have hkk : k = k' := by
        rcases lt_trichotomy k k' with hlt | he | hlt
        · have hn : ((k', v') :: more).lookup k = none := lookup_eq_none (by
            intro e he
            rcases List.mem_cons.1 he with rfl | he
            · exact hlt
            · exact hlt.trans (hk' e he))
          simpa [hn] using hl k
        · exact he
        · have hn : ((k, v) :: entries).lookup k' = none := lookup_eq_none (by
            intro e he
            rcases List.mem_cons.1 he with rfl | he
            · exact hlt
            · exact hlt.trans (hk e he))
          simpa [hn] using (hl k').symm
      subst hkk
      have hv : v = v' := by simpa using hl k
      subst hv
      rw [ih hr hr' fun key => ?_]
      by_cases hkey : key = k
      · subst hkey
        rw [lookup_eq_none hk, lookup_eq_none hk']
      · simpa [List.lookup_cons, beq_false_of_ne hkey] using hl key

end Assoc

namespace Toml

section Concat

variable {α β : Type}

/-- What holds of all pairs, and of one more, holds of all with that one behind them. -/
theorem forall_mem_concat {Q : α → β → Prop} {pairs : List (α × β)} {a : α} {b : β}
    (h : ∀ x y, (x, y) ∈ pairs → Q x y) (hab : Q a b) : ∀ x y, (x, y) ∈ pairs ++ [(a, b)] → Q x y := by
  intro x y hm
  rcases List.mem_append.1 hm with hm | hm
  · exact h x y hm
  · obtain ⟨rfl, rfl⟩ := Prod.mk.inj (List.mem_singleton.1 hm)
    exact hab

theorem pairwise_concat {R : α → α → Prop} {xs : List α} {x : α} (h : xs.Pairwise R) (hx : ∀ y ∈ xs, R y x) :
    (xs ++ [x]).Pairwise R := by
  refine List.pairwise_append.2 ⟨h, List.pairwise_singleton _ _, fun y hy z hz => ?_⟩
  rw [List.mem_singleton.1 hz]
  exact hx y hy

/-- The last of a list may become another one that comes after the others just as well. -/
theorem pairwise_replace_last {R : α → α → Prop} {xs : List α} {x y : α} (h : (xs ++ [x]).Pairwise R)
    (hy : ∀ z, R z x → R z y) : (xs ++ [y]).Pairwise R := by
  obtain ⟨hinit, -, hlast⟩ := List.pairwise_append.1 h
  exact pairwise_concat hinit fun z hz => hy z (hlast z hz x (List.mem_singleton_self x))

end Concat

/-- Whether a node is a value as it is written. -/
def Node.isLeaf : Node → Bool
  | .scalar .. | .array .. | .inline .. => true
  | _ => false

def Origin.header? : Origin → Option Header
  | .header h => some h
  | _ => none

namespace Entries

variable {e : Entries} {x : String}

theorem get?_set (l : Label) (n : Node) (e : Entries) (x : String) :
    (e.set l n).get? x = if l.name = x then some n else e.get? x := by
  induction e with
  | nil => rfl
  | cons first rest ih =>
    obtain ⟨k, m⟩ := first
    rw [set]
    split
    · next h =>
      rw [get?, get?, h]
      split <;> rfl
    · next h =>
      rw [get?, get?, ih]
      split
      · next hx => rw [if_neg (fun hl => h (hx.trans hl.symm))]
      · rfl

theorem set_set (l : Label) (n n' : Node) (e : Entries) : (e.set l n).set l n' = e.set l n' := by
  induction e with
  | nil => simp [set]
  | cons first rest ih =>
    obtain ⟨k, m⟩ := first
    simp only [set]
    split
    · next h => simp [set, h]
    · next h => simp [set, h, ih]

theorem get?_remove (x y : String) (e : Entries) :
    (e.remove x).get? y = if y = x then none else e.get? y := by
  induction e with
  | nil => simp [remove, get?]
  | cons first rest ih =>
    obtain ⟨k, m⟩ := first
    rw [remove, List.filter_cons]
    split
    · next h =>
      have hk : k.name ≠ x := by simpa using h
      rw [get?, get?]
      split
      · next hy => rw [if_neg (fun hx => hk (hy.trans hx))]
      · exact ih
    · next h =>
      have hk : k.name = x := by simpa using h
      rw [get?, ← remove, ih]
      split
      · rfl
      · next hy => rw [if_neg (fun hn => hy (hn.symm.trans hk))]

theorem get?_append (e e' : Entries) (x : String) :
    get? x (e ++ e') = (e.get? x).or (get? x e') := by
  induction e with
  | nil => rfl
  | cons first rest ih =>
    obtain ⟨k, m⟩ := first
    rw [List.cons_append, get?, get?, ih]
    split <;> rfl

/-- What is under a name is one of the entries. -/
theorem mem_of_get? {n : Node} (h : e.get? x = some n) : ∃ l, l.name = x ∧ (l, n) ∈ e := by
  induction e with
  | nil => cases h
  | cons first rest ih =>
    obtain ⟨k, m⟩ := first
    rw [get?] at h
    split at h
    · next hk =>
      cases h
      exact ⟨k, hk, List.mem_cons_self⟩
    · obtain ⟨l, hl, hm⟩ := ih h
      exact ⟨l, hl, List.mem_cons_of_mem _ hm⟩

/-- No name has two entries. -/
def IsFunctional (e : Entries) : Prop := (e.map fun entry => entry.1.name).Nodup

theorem get?_of_mem (hf : IsFunctional e) {l : Label} {n : Node} (h : (l, n) ∈ e) :
    e.get? l.name = some n := by
  induction e with
  | nil => cases h
  | cons first rest ih =>
    obtain ⟨k, m⟩ := first
    obtain ⟨hk, hr⟩ := List.nodup_cons.1 hf
    rw [get?]
    rcases List.mem_cons.1 h with h | h
    · cases h
      rw [if_pos rfl]
    · have hn : k.name ≠ l.name := by
        intro hn
        exact hk (List.mem_map.2 ⟨(l, n), h, hn.symm⟩)
      rw [if_neg hn]
      exact ih hr h

theorem names_set (l : Label) (n : Node) (e : Entries) :
    (e.set l n).map (fun entry => entry.1.name) = if (e.get? l.name).isSome
      then e.map fun entry => entry.1.name else e.map (fun entry => entry.1.name) ++ [l.name] := by
  induction e with
  | nil => rfl
  | cons first rest ih =>
    obtain ⟨k, m⟩ := first
    rw [set, get?]
    split
    · rfl
    · rw [List.map_cons, ih]
      split <;> rfl

theorem get?_eq_none_iff : e.get? x = none ↔ x ∉ e.map fun entry => entry.1.name := by
  induction e with
  | nil => simp [get?]
  | cons first rest ih =>
    obtain ⟨k, m⟩ := first
    rw [get?, List.map_cons, List.mem_cons, not_or, ← ih]
    split
    · next h => simp [h]
    · next h => simp [Ne.symm h]

theorem isFunctional_set (l : Label) (n : Node) (hf : IsFunctional e) : IsFunctional (e.set l n) := by
  rw [IsFunctional, names_set]
  split
  · exact hf
  · next h =>
    have hn := get?_eq_none_iff.1 (Option.not_isSome_iff_eq_none.1 h)
    refine List.nodup_append.2 ⟨hf, List.pairwise_singleton _ _, fun y hy z hz hyz => ?_⟩
    have hz : z = l.name := List.mem_singleton.1 hz
    rw [hyz, hz] at hy
    exact hn hy

theorem isFunctional_remove (x : String) (hf : IsFunctional e) : IsFunctional (e.remove x) :=
  hf.sublist (List.filter_sublist.map _)

theorem isFunctional_remove_append (l : Label) (n : Node) (hf : IsFunctional e) :
    IsFunctional (e.remove l.name ++ [(l, n)]) := by
  have hn : l.name ∉ (e.remove l.name).map fun entry => entry.1.name := by
    rw [← get?_eq_none_iff, get?_remove, if_pos rfl]
  rw [IsFunctional, List.map_append]
  refine List.nodup_append.2 ⟨isFunctional_remove _ hf, List.pairwise_singleton _ _, fun y hy z hz hyz => ?_⟩
  have hz : z = l.name := List.mem_singleton.1 hz
  rw [hyz, hz] at hy
  exact hn hy

theorem remove_of_none (h : e.get? x = none) : e.remove x = e := by
  rw [ get?_eq_none_iff] at h
  refine List.filter_eq_self.2 fun entry he => ?_
  rw [bne_iff_ne]
  intro hx
  exact h (List.mem_map.2 ⟨entry, he, hx⟩)

theorem set_of_none {l : Label} (h : e.get? l.name = none) (n : Node) : e.set l n = e ++ [(l, n)] := by
  induction e with
  | nil => rfl
  | cons first rest ih =>
    obtain ⟨k, c⟩ := first
    rw [ get?] at h
    split at h
    · cases h
    · next hk => rw [set, if_neg hk, ih h, List.cons_append]

/-- A name that is there stands between the names in front of it and those behind it. -/
theorem exists_split {l : Label} {m : Node} (h : e.get? l.name = some m) : ∃ front k back, e = front ++ (k, m) :: back ∧
    (∀ n, e.set l n = front ++ (k, n) :: back) ∧ (e.IsFunctional → e.remove l.name = front ++ back) := by
  induction e with
  | nil => cases h
  | cons first rest ih =>
    obtain ⟨k, c⟩ := first
    rw [ get?] at h
    split at h
    · next hk =>
      cases h
      refine ⟨[], k, rest, rfl, fun n => by rw [set, if_pos hk]; rfl, fun hf => ?_⟩
      have hrest : get? l.name rest = none := by
        rw [ get?_eq_none_iff, ← hk]
        exact (List.nodup_cons.1 hf).1
      rw [remove, List.filter_cons, if_neg (by simp [hk])]
      exact remove_of_none hrest
    · next hk =>
      obtain ⟨front, k', back, rfl, hset, hremove⟩ := ih h
      refine ⟨(k, c) :: front, k', back, rfl, fun n => ?_, fun hf => ?_⟩
      · rw [set, if_neg hk, hset, List.cons_append]
      · rw [remove, List.filter_cons, if_pos (by simpa using hk), ← remove,
          hremove (List.nodup_cons.1 hf).2, List.cons_append]

/-- What holds of all entries holds after a name is set, if it holds of the entry that was set. -/
theorem forall_set {Q : Label → Node → Prop} {l : Label} {n : Node} (h : ∀ k m, (k, m) ∈ e → Q k m)
    (hnew : e.get? l.name = none → Q l n)
    (hold : ∀ k m, (k, m) ∈ e → e.get? l.name = some m → k.name = l.name → Q k n) :
    ∀ k m, (k, m) ∈ e.set l n → Q k m := by
  induction e with
  | nil =>
    intro k m hm
    cases List.mem_singleton.1 hm
    exact hnew rfl
  | cons first rest ih =>
    obtain ⟨k', m'⟩ := first
    intro k m hm
    rw [set] at hm
    split at hm
    · next hk =>
      rcases List.mem_cons.1 hm with hm | hm
      · cases hm
        exact hold _ _ List.mem_cons_self (by rw [get?, if_pos hk]) hk
      · exact h k m (List.mem_cons_of_mem _ hm)
    · next hk =>
      rcases List.mem_cons.1 hm with hm | hm
      · cases hm
        exact h _ _ List.mem_cons_self
      · rw [get?, if_neg hk] at hnew hold
        exact ih (fun k m hm => h k m (List.mem_cons_of_mem _ hm)) hnew
          (fun k m hm => hold k m (List.mem_cons_of_mem _ hm)) k m hm

/-- What holds of all entries, and of one more, holds after that one was put behind the others. -/
theorem forall_remove_append {Q : Label → Node → Prop} {l : Label} {n : Node} (h : ∀ k m, (k, m) ∈ e → Q k m)
    (hl : Q l n) : ∀ k m, (k, m) ∈ e.remove x ++ [(l, n)] → Q k m :=
  forall_mem_concat (fun k m hm => h k m (List.mem_filter.1 hm).1) hl

/-- A name that was there keeps its label when it is set. -/
theorem mem_set_of_some {l k : Label} {m n c : Node} (hf : e.IsFunctional) (hx : e.get? l.name = some m)
    (h : (k, c) ∈ e.set l n) : (k.name = l.name ∧ c = n ∧ (k, m) ∈ e) ∨ (k.name ≠ l.name ∧ (k, c) ∈ e) := by
  obtain ⟨c', hc⟩ : ∃ c', (k, c') ∈ e := by
    refine forall_set (l := l) (n := n) (Q := fun k _ => ∃ c', (k, c') ∈ e) (fun k c hm => ⟨c, hm⟩)
      (fun hnone => ?_) (fun k c hm _ _ => ⟨c, hm⟩) k c h
    rw [hx] at hnone
    cases hnone
  have hg := get?_of_mem (isFunctional_set l n hf) h
  have hg' := get?_of_mem hf hc
  rw [get?_set] at hg
  by_cases hname : l.name = k.name
  · rw [if_pos hname] at hg
    rw [← hname, hx] at hg'
    cases hg
    cases hg'
    exact .inl ⟨hname.symm, rfl, hc⟩
  · rw [if_neg hname, hg'] at hg
    cases hg
    exact .inr ⟨Ne.symm hname, hc⟩

section Operations

variable {l l' : Label} {ls : List Label} {n : Node} {t u : Entries} {f : Entries → Option Entries}
  {rows rows' : List (Header × Entries)}

theorem put_singleton (h : e.get? l.name = none) : put n [l] e = some (e.set l n) := by
  rw [put, h]
  rfl

theorem put_of_none (h : e.get? l.name = none) :
    put n (l :: l' :: ls) e = (put n (l' :: ls) []).map fun t => e.set l (.table .dotted t) := by
  rw [put, h]

theorem put_of_table {o : Origin} (ho : o.header? = none) (h : e.get? l.name = some (.table o t)) :
    put n (l :: l' :: ls) e = (put n (l' :: ls) t).map fun t => e.set l (.table .dotted t) := by
  rw [put, h]
  cases o with
  | header h' => cases ho
  | _ => rfl

theorem within_of_none (h : e.get? l.name = none) :
    within f (l :: ls) e = (within f ls []).map fun t => e.set l (.table .implicit t) := by
  rw [within, h]

theorem within_of_table {o : Origin} (h : e.get? l.name = some (.table o t)) :
    within f (l :: ls) e = (within f ls t).map fun t => e.set l (.table o t) := by
  rw [within, h]

theorem within_of_tables (h : e.get? l.name = some (.tables rows)) :
    within f (l :: ls) e = (onLast (within f ls) rows).map fun rows => e.set l (.tables rows) := by
  rw [within, h]

theorem onLast_append (h : Header) (row : Entries) (init : List (Header × Entries)) :
    onLast f (init ++ [(h, row)]) = (f row).map fun row => init ++ [(h, row)] := by
  induction init with
  | nil => rfl
  | cons first rest ih =>
    obtain ⟨second, more, hr⟩ : ∃ second more, rest ++ [(h, row)] = second :: more := by
      cases rest with
      | nil => exact ⟨_, _, rfl⟩
      | cons second more => exact ⟨second, _, rfl⟩
    rw [List.cons_append, hr, onLast.eq_3 _ _ _ (by simp), ← hr, ih, Option.map_map]
    rfl

theorem openTable_of_none {h : Header} (hx : e.get? l.name = none) :
    openTable h l e = some (e.set l (.table (.header h) [])) := by
  rw [openTable, hx]

theorem openTable_of_implicit {h : Header} (hx : e.get? l.name = some (.table .implicit t)) :
    openTable h l e = some (e.remove l.name ++ [(l, .table (.header h) t)]) := by
  rw [openTable, hx]

theorem addRow_of_none {h : Header} {row : Entries} (hx : e.get? l.name = none) :
    addRow h row l e = some (e.set l (.tables [(h, row)])) := by
  rw [addRow, hx]

theorem addRow_of_tables {h : Header} {row : Entries} (hx : e.get? l.name = some (.tables rows)) :
    addRow h row l e = some (e.set l (.tables (rows ++ [(h, row)]))) := by
  rw [addRow, hx]

/-- What is changed of repeated tables is the last one. -/
theorem onLast_eq_some (h : onLast f rows = some rows') :
    ∃ init k t u, rows = init ++ [(k, t)] ∧ f t = some u ∧ rows' = init ++ [(k, u)] := by
  rcases List.eq_nil_or_concat rows with rfl | ⟨init, ⟨k, t⟩, hc⟩
  · cases h
  · rw [List.concat_eq_append] at hc
    subst hc
    rw [onLast_append] at h
    obtain ⟨u, hu, rfl⟩ := Option.map_eq_some_iff.1 h
    exact ⟨init, k, t, u, rfl, hu, rfl⟩

/-- What a change in a table that a path leads to is under the first name of the path: there is a new table,
or the one that is there, or the last one of them, is changed. -/
inductive Within (f : Entries → Option Entries) (ls : List Label) (l : Label) (e : Entries) : Entries → Prop
  | new {t : Entries} : e.get? l.name = none → within f ls [] = some t →
    Within f ls l e (e.set l (.table .implicit t))
  | table {o : Origin} {t t' : Entries} : e.get? l.name = some (.table o t) → within f ls t = some t' →
    Within f ls l e (e.set l (.table o t'))
  | row {init : List (Header × Entries)} {k : Header} {t t' : Entries} :
    e.get? l.name = some (.tables (init ++ [(k, t)])) → within f ls t = some t' →
    Within f ls l e (e.set l (.tables (init ++ [(k, t')])))

theorem within_cons (h : within f (l :: ls) e = some u) : Within f ls l e u := by
  rw [within] at h
  split at h
  · next hx =>
    obtain ⟨t, ht, rfl⟩ := Option.map_eq_some_iff.1 h
    exact .new hx ht
  · next o t hx =>
    obtain ⟨t', ht, rfl⟩ := Option.map_eq_some_iff.1 h
    exact .table hx ht
  · next rows hx =>
    obtain ⟨rows', hr, rfl⟩ := Option.map_eq_some_iff.1 h
    obtain ⟨init, k, t, t', rfl, ht, rfl⟩ := onLast_eq_some hr
    exact .row hx ht
  · cases h

/-- The same of a value that is set by a dotted key. -/
inductive Puts (n : Node) (ls : List Label) (l : Label) (e : Entries) : Entries → Prop
  | new {t : Entries} : e.get? l.name = none → put n ls [] = some t → Puts n ls l e (e.set l (.table .dotted t))
  | table {o : Origin} {t t' : Entries} : o.header? = none → e.get? l.name = some (.table o t) →
    put n ls t = some t' → Puts n ls l e (e.set l (.table .dotted t'))
  | row {init : List (Header × Entries)} {k : Header} {t t' : Entries} :
    e.get? l.name = some (.tables (init ++ [(k, t)])) → put n ls t = some t' →
    Puts n ls l e (e.set l (.tables (init ++ [(k, t')])))

theorem put_cons (h : put n (l :: l' :: ls) e = some u) : Puts n (l' :: ls) l e u := by
  rw [put] at h
  split at h
  · next hx =>
    obtain ⟨t, ht, rfl⟩ := Option.map_eq_some_iff.1 h
    exact .new hx ht
  · cases h
  · next o t hheader hx =>
    obtain ⟨t', ht, rfl⟩ := Option.map_eq_some_iff.1 h
    refine .table ?_ hx ht
    cases o with
    | header k => exact absurd rfl (hheader k)
    | _ => rfl
  · next rows hx =>
    split at h
    · cases h
    · obtain ⟨rows', hr, rfl⟩ := Option.map_eq_some_iff.1 h
      obtain ⟨init, k, t, t', rfl, ht, rfl⟩ := onLast_eq_some hr
      exact .row hx ht
  · cases h

theorem put_last (h : put n [l] e = some u) : e.get? l.name = none ∧ u = e.set l n := by
  rw [put] at h
  split at h
  · cases h
  · next hx => exact ⟨Option.not_isSome_iff_eq_none.1 hx, (Option.some.inj h).symm⟩

/-- A table is opened where there is none, or where it was only named. -/
theorem openTable_cases {h : Header} (ho : openTable h l e = some u) :
    (e.get? l.name = none ∧ u = e.set l (.table (.header h) [])) ∨
      ∃ t, e.get? l.name = some (.table .implicit t) ∧ u = e.remove l.name ++ [(l, .table (.header h) t)] := by
  rw [openTable] at ho
  split at ho
  · next hx => exact .inl ⟨hx, (Option.some.inj ho).symm⟩
  · next t hx => exact .inr ⟨t, hx, (Option.some.inj ho).symm⟩
  · cases ho

theorem get?_openTable {h : Header} (ho : openTable h l e = some u) :
    ∃ t, u.get? l.name = some (.table (.header h) t) := by
  rcases openTable_cases ho with ⟨hx, rfl⟩ | ⟨t, hx, rfl⟩
  · exact ⟨[], by rw [get?_set, if_pos rfl]⟩
  · exact ⟨t, by rw [get?_append, get?_remove, if_pos rfl, Option.none_or, get?, if_pos rfl]⟩

/-- A repeated table is the first one, or it follows others. -/
theorem addRow_cases {h : Header} {row : Entries} (ha : addRow h row l e = some u) :
    (e.get? l.name = none ∧ u = e.set l (.tables [(h, row)])) ∨
      ∃ rows, e.get? l.name = some (.tables rows) ∧ u = e.set l (.tables (rows ++ [(h, row)])) := by
  rw [addRow] at ha
  split at ha
  · next hx => exact .inl ⟨hx, (Option.some.inj ha).symm⟩
  · next rows hx => exact .inr ⟨rows, hx, (Option.some.inj ha).symm⟩
  · cases ha

end Operations

end Entries

theorem lookup_tableOf (e : Entries) (x : String) :
    (tableOf e).lookup x = (e.get? x).map Node.value := by
  induction e with
  | nil => rfl
  | cons first rest ih =>
    obtain ⟨k, m⟩ := first
    rw [tableOf, Entries.get?]
    split
    · next h =>
      subst h
      rw [Assoc.lookup_insert_self]
      rfl
    · next h => rw [Assoc.lookup_insert_of_ne (Ne.symm h), ih]

theorem mem_tableOf {e : Entries} {x : String} {v : Value} (h : (x, v) ∈ tableOf e) :
    ∃ l n, (l, n) ∈ e ∧ l.name = x ∧ n.value = v := by
  induction e with
  | nil => cases h
  | cons first rest ih =>
    obtain ⟨k, m⟩ := first
    rw [tableOf] at h
    rcases Assoc.mem_insert h with same | later
    · cases same
      exact ⟨k, m, List.mem_cons_self, rfl, rfl⟩
    · obtain ⟨l, n, hm, found⟩ := ih later
      exact ⟨l, n, List.mem_cons_of_mem _ hm, found⟩

theorem name_mem_tableOf {e : Entries} {l : Label} {n : Node} (h : (l, n) ∈ e) : l.name ∈ (tableOf e).map Prod.fst := by
  have named : l.name ∈ e.map fun entry => entry.1.name := List.mem_map_of_mem h
  cases found : e.get? l.name with
  | none => exact absurd named (Entries.get?_eq_none_iff.1 found)
  | some m =>
    have value := lookup_tableOf e l.name
    rw [found, Option.map_some] at value
    obtain ⟨front, back, split, -⟩ := List.lookup_eq_some_iff.1 value
    rw [split]
    simp

theorem isSorted_tableOf (e : Entries) : Assoc.IsSorted (tableOf e) := by
  induction e with
  | nil => exact List.Pairwise.nil
  | cons first rest ih =>
    obtain ⟨k, m⟩ := first
    rw [tableOf]
    exact Assoc.isSorted_insert _ _ ih

/-- The table that entries describe depends on the value under each name. -/
theorem tableOf_congr {e e' : Entries} (h : ∀ x, (e.get? x).map Node.value = (e'.get? x).map Node.value) :
    tableOf e = tableOf e' := by
  refine Assoc.ext_of_lookup (isSorted_tableOf e) (isSorted_tableOf e') fun x => ?_
  rw [lookup_tableOf, lookup_tableOf, h]

end Toml
end SqlLint
