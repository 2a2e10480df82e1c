import SqlLint.Proofs.Rule.Sorting
import SqlLint.Proofs.Settings.Rewriting

/-! # Repeated rules

A list that somebody has written into a settings file may hold a rule twice. Adding a rule to it puts no rule in that
is there, but it takes no repeated rule away. -/
namespace SqlLint.SettingsFiles

variable {t t' : Tree} {files : SettingsFiles} {scope : Scope} {rule : String} {list : List String}

/-- A list to which a rule was added is the one that is stored. It holds each old rule as often as before and a new
rule once, so it holds a rule twice exactly if the old list did. -/
theorem nodup_of_exclude_iff (h : files.store.exclude scope rule t = (.ok list, t')) :
    ∃ path l l', files.path? scope = some path ∧ Layer.ofFile t path = .ok l ∧ Layer.ofFile t' path = .ok l' ∧
      l'.excludeRules = some list ∧
      (∀ other, list.count other = if other ∈ l.excludeRules.getD [] then (l.excludeRules.getD []).count other
        else if other = rule then 1 else 0) ∧
      (list.Nodup ↔ (l.excludeRules.getD []).Nodup) := by
  obtain ⟨rules, u, hrules, rfl, hset⟩ := Store.exists_of_exclude h
  obtain ⟨path, l, hp, hl, rfl, rfl⟩ := exists_of_rules hrules
  obtain ⟨-, -, -, -, -, -, hlist⟩ := exists_of_setRules hp hl hset
  exact ⟨path, l, _, hp, hl, hlist, rfl, Rule.count_exclude _ rule, Rule.nodup_exclude_iff _ rule⟩

/-- A settings file with a rule that is written twice. -/
def repeatedFile : Tree := (Tree.empty ["w"]).add ["c", "config.toml"]
  (.file (.text "excludeRules = [\"L001\", \"L001\"]\n"))

theorem layer_repeatedFile :
    Layer.ofFile repeatedFile "/c/config.toml" = .ok { excludeRules := some ["L001", "L001"] } := by
  decide +kernel

theorem exclude_repeatedFile : ∃ t',
    (⟨some "/c/config.toml", none⟩ : SettingsFiles).store.exclude .global "L001" repeatedFile =
      (.ok ["L001", "L001"], t') := by
  have same : Rule.exclude ["L001", "L001"] "L001" = ["L001", "L001"] := Rule.exclude_of_mem (by decide +kernel) (by simp)
  have hrules : (⟨some "/c/config.toml", none⟩ : SettingsFiles).store.rules .global repeatedFile =
      (.ok ["L001", "L001"], repeatedFile) := by
    rw [rules_apply rfl, layer_repeatedFile]
    rfl
  have hset : ((⟨some "/c/config.toml", none⟩ : SettingsFiles).store.setRules .global ["L001", "L001"]
      repeatedFile).1 = .ok () := by
    decide +kernel
  have answered := Store.exclude_eq_ok hrules (Prod.ext (same ▸ hset) rfl)
  exact ⟨_, same ▸ answered⟩

/-- The file holds a rule twice, and so does the list that is stored. -/
theorem nodup_of_exclude_iff_repeated : ∃ t' l',
    (⟨some "/c/config.toml", none⟩ : SettingsFiles).store.exclude .global "L001" repeatedFile =
      (.ok ["L001", "L001"], t') ∧
    Layer.ofFile t' "/c/config.toml" = .ok l' ∧ l'.excludeRules = some ["L001", "L001"] := by
  obtain ⟨t', answered⟩ := exclude_repeatedFile
  obtain ⟨path, l, l', hp, -, stored, list, -⟩ := nodup_of_exclude_iff answered
  obtain rfl : "/c/config.toml" = path := Option.some.inj hp
  exact ⟨t', l', answered, stored, list⟩

/-- A list may hold a rule twice after a rule was added to it. -/
theorem not_nodup_of_exclude : ¬ ∀ (files : SettingsFiles) (scope : Scope) (rule path : String) (t t' : Tree)
    (l : Layer) (list : List String), files.path? scope = some path → Layer.ofFile t path = .ok l →
      files.store.exclude scope rule t = (.ok list, t') → list.Nodup := by
  intro unique
  obtain ⟨t', answered⟩ := exclude_repeatedFile
  have nodup := unique _ _ _ "/c/config.toml" _ _ _ _ rfl layer_repeatedFile answered
  exact absurd nodup (by decide)

end SqlLint.SettingsFiles
