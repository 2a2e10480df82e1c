import SqlLint.Proofs.Toml.Rewrite
import SqlLint.Settings.Store

/-! # Decoding settings with other rules

Of all keys only one has a say about the list of excluded rules, and it says nothing else. So a table with
another list under that key is decoded as the layer with that list. -/
namespace SqlLint

/-- The layer with another list of excluded rules. -/
def Layer.withRules (rules : List String) (l : Layer) : Layer := { l with excludeRules := some rules }

namespace Layer
open Datum (found)

variable {l l' : Layer} {rules : List String} {key : String} {d : Datum}

/-- Fields that are set one by one next to the list are set without regard to it. -/
theorem foldlM_withRules {entries : List (String × Datum)} {f : Layer → String → Datum → Except Fault Layer}
    (hf : ∀ e ∈ entries, ∀ l, f (l.withRules rules) e.1 e.2 = (f l e.1 e.2).map (withRules rules)) (l : Layer) :
    entries.foldlM (fun a e => f a e.1 e.2) (l.withRules rules) =
      (entries.foldlM (fun a e => f a e.1 e.2) l).map (withRules rules) := by
  induction entries generalizing l with
  | nil => rfl
  | cons e entries ih =>
    rw [List.foldlM_cons, List.foldlM_cons, hf e List.mem_cons_self]
    cases f l e.1 e.2 with
    | error => rfl
    | ok l' => exact ih (fun e he => hf e (List.mem_cons_of_mem _ he)) l'

theorem record_withRules {name : String} {fields : List String} {f : Layer → String → Datum → Except Fault Layer}
    (hf : ∀ l key d, f (l.withRules rules) key d = (f l key d).map (withRules rules)) (l : Layer) (d : Datum) :
    record .toml name fields f (l.withRules rules) d = (record .toml name fields f l d).map (withRules rules) := by
  cases d with
  | table entries => exact foldlM_withRules (fun e _ l => hf l e.1 e.2) l
  | list items =>
    have h : (fields.zip items).foldlM (fun a e => f a e.1 e.2) (l.withRules rules) = _ :=
      foldlM_withRules (fun e _ l => hf l e.1 e.2) l
    simp only [record]
    rw [h]
    cases (fields.zip items).foldlM (fun a e => f a e.1 e.2) l <;> rfl
  | date => rfl
  | int n => rfl
  | _ => rfl

theorem map_withRules {α : Type} (x : Except Fault α) {f g : α → Layer} (h : ∀ v, g v = (f v).withRules rules) :
    x.map g = (x.map f).map (withRules rules) := by
  cases x with
  | error => rfl
  | ok v => exact congrArg Except.ok (h v)

theorem setLinter_withRules (l : Layer) (key : String) (d : Datum) :
    setLinter .toml (l.withRules rules) key d = (setLinter .toml l key d).map (withRules rules) := by
  unfold setLinter
  split <;> exact map_withRules _ fun _ => rfl

theorem setFormat_withRules (l : Layer) (key : String) (d : Datum) :
    setFormat .toml (l.withRules rules) key d = (setFormat .toml l key d).map (withRules rules) := by
  unfold setFormat
  split <;> exact map_withRules _ fun _ => rfl

theorem setOsmosis_withRules (l : Layer) (key : String) (d : Datum) :
    setOsmosis .toml (l.withRules rules) key d = (setOsmosis .toml l key d).map (withRules rules) := by
  unfold setOsmosis
  split <;> exact map_withRules _ fun _ => rfl

/-- Each other key is set without regard to the list. -/
theorem set_withRules (hkey : key ≠ SettingsFiles.rulesKey) (l : Layer) (d : Datum) :
    set .toml (l.withRules rules) key d = (set .toml l key d).map (withRules rules) := by
  unfold set
  split
  case h_4 => exact absurd rfl hkey
  case h_9 => exact record_withRules setLinter_withRules l d
  case h_10 => exact record_withRules setFormat_withRules l d
  case h_11 => exact record_withRules setOsmosis_withRules l d
  all_goals exact map_withRules _ fun _ => rfl

/-! ## The list itself -/

/-- The list as a settings file gives it. -/
def rulesDatum (rules : List String) : Datum := .list (rules.map .text)

theorem mapM_text {format : Format} (rules : List String) :
    (rules.map Datum.text).mapM (text format .text) = .ok rules := by
  induction rules with
  | nil => rfl
  | cons rule rules ih =>
    rw [List.map_cons, List.mapM_cons, ih]
    rfl

theorem set_rulesDatum (l : Layer) (rules : List String) :
    set .toml l SettingsFiles.rulesKey (rulesDatum rules) = .ok (l.withRules rules) := by
  have h : set .toml l SettingsFiles.rulesKey (rulesDatum rules) =
      (optional (texts .toml) (rulesDatum rules)).map fun v => { l with excludeRules := v } := rfl
  rw [h, optional, rulesDatum, texts, mapM_text]
  · rfl
  · exact fun h => by cases h

/-- What the key is set to before does not matter. -/
theorem withRules_of_set (h : set .toml l SettingsFiles.rulesKey d = .ok l') : l'.withRules rules = l.withRules rules := by
  have hset : set .toml l SettingsFiles.rulesKey d =
      (optional (texts .toml) d).map fun v => { l with excludeRules := v } := rfl
  rw [hset] at h
  obtain ⟨v, -, rfl⟩ := exists_of_map h
  rfl

/-- Behind the key of the list there are other keys only, which are set without regard to it. -/
theorem foldlM_set_withRules {α : Type} {rest : List (String × α)} {datum : α → Datum}
    (hk : ∀ e ∈ rest, e.1 ≠ SettingsFiles.rulesKey)
    (h : rest.foldlM (fun a e => set .toml a e.1 (datum e.2)) l = .ok l') :
    rest.foldlM (fun a e => set .toml a e.1 (datum e.2)) (l.withRules rules) = .ok (l'.withRules rules) := by
  induction rest generalizing l with
  | nil =>
    cases h
    rfl
  | cons e rest ih =>
    obtain ⟨hkey, hk⟩ := List.forall_mem_cons.1 hk
    rw [List.foldlM_cons] at h ⊢
    obtain ⟨m, hm, h⟩ := exists_of_bind h
    rw [set_withRules hkey, hm]
    exact ih hk h

/-- The layer of a table with another list. -/
theorem decode_insert {α : Type} {entries : List (String × α)} {datum : α → Datum} {value : α}
    (hs : Assoc.IsSorted entries) (hv : datum value = rulesDatum rules)
    (h : entries.foldlM (fun a e => set .toml a e.1 (datum e.2)) l = .ok l') :
    (Assoc.insert SettingsFiles.rulesKey value entries).foldlM (fun a e => set .toml a e.1 (datum e.2)) l =
      .ok (l'.withRules rules) := by
  have hput (l : Layer) : set .toml l SettingsFiles.rulesKey (datum value) = .ok (l.withRules rules) := by
    rw [hv, set_rulesDatum]
  induction entries generalizing l with
  | nil =>
    cases h
    rw [Assoc.insert, List.foldlM_cons, hput]
    rfl
  | cons first rest ih =>
    obtain ⟨k, v⟩ := first
    obtain ⟨hk, hr⟩ := List.pairwise_cons.1 hs
    rw [Assoc.insert]
    split
    · next he =>
      subst he
      rw [List.foldlM_cons] at h ⊢
      obtain ⟨m, hm, h⟩ := exists_of_bind h
      rw [hput, ← withRules_of_set hm]
      exact foldlM_set_withRules (fun e he => (hk e he).ne') h
    · next hne =>
      split
      · next hlt =>
        rw [List.foldlM_cons, hput]
        refine foldlM_set_withRules (fun e he => ?_) h
        rcases List.mem_cons.1 he with rfl | he
        · exact Ne.symm hne
        · exact (hlt.trans (hk e he)).ne'
      · rw [List.foldlM_cons] at h ⊢
        obtain ⟨m, hm, h⟩ := exists_of_bind h
        rw [hm]
        exact ih hr h

end Layer
end SqlLint
