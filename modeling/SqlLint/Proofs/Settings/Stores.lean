import SqlLint.Proofs.Settings.Writing

/-! # Files keep rules as memory does

As long as two files can be written, the store that keeps its lists in them answers what the store in memory
answers. -/
namespace SqlLint

/-- What may be asked of a store. -/
inductive Store.Request
  | get (scope : Scope)
  | set (scope : Scope) (rules : List String)
  | exclude (scope : Scope) (rule : String)

namespace Store

variable {σ : Type}

/-- A request and its answer: a list, unless one is set. -/
def perform (store : Store σ) : Request → StoreM σ (Option (List String))
  | .get scope => return some (← store.rules scope)
  | .set scope rules => do
    store.setRules scope rules
    return none
  | .exclude scope rule => return some (← store.exclude scope rule)

/-- The answers to requests, one after the other. -/
def answers (store : Store σ) : List Request → σ → List (Except SettingsError (Option (List String)))
  | [], _ => []
  | request :: requests, s => (store.perform request s).1 :: answers store requests (store.perform request s).2

end Store

namespace SettingsFiles

/-- The path of each scope. -/
def pathOf (global workspace : String) : Scope → String
  | .global => global
  | .workspace => workspace

/-- Two paths that lead to different files, neither of them through the other file. -/
structure Apart (here : List String) (path other : String) : Prop where
  place_ne : Path.place here path ≠ Path.place here other
  not_mem_way : Path.place here path ∉ Path.wayTo here other
  other_not_mem_way : Path.place here other ∉ Path.wayTo here path

/-- The files of a tree that hold the lists of a store in memory. -/
structure Backs (paths : Scope → String) (t : Tree) (lists : RuleLists) : Prop where
  canWrite : ∀ scope, t.CanWrite (paths scope)
  apart : ∀ scope other, scope ≠ other → Apart t.here (paths scope) (paths other)
  holds : ∀ scope, ∃ l : Layer, Holds t (paths scope) l ∧ l.excludeRules.getD [] = lists.get scope

section Store

variable {files : SettingsFiles} {paths : Scope → String} {t : Tree} {lists : RuleLists}

/-- The list of a scope is read. -/
theorem Backs.rules (h : Backs paths t lists) (hp : ∀ scope, files.path? scope = some (paths scope)) (scope : Scope) :
    files.store.rules scope t = (.ok (lists.get scope), t) := by
  obtain ⟨l, hl, hrules⟩ := h.holds scope
  rw [rules_apply (hp scope), ofFile_of_holds hl (h.canWrite scope), ← hrules]
  rfl

/-- The list of a scope is set, and that of the other scope stays. -/
theorem Backs.setRules (h : Backs paths t lists) (hp : ∀ scope, files.path? scope = some (paths scope)) (scope : Scope)
    (rules : List String) : ∃ t', files.store.setRules scope rules t = (.ok (), t') ∧
      Backs paths t' (lists.set rules scope) := by
  obtain ⟨l, hl, -⟩ := h.holds scope
  have hw := h.canWrite scope
  obtain ⟨text, htext, hedit⟩ := textAt_of_holds hl hw
  obtain ⟨written, hwritten, hedit'⟩ := hedit.exists_written rules
  obtain ⟨u, runs, hsave, hadds, hlocate, htarget⟩ := save_ok hw (String.ofList written)
  have hset : files.store.setRules scope rules t =
      (.ok (), u.put (Path.place t.here (paths scope)) (.file (.text (String.ofList written)) .free runs)) := by
    rw [setRules_apply (hp scope), writeRules_apply, htext]
    dsimp only
    rw [hwritten]
    exact hsave
  have hhere : (u.put (Path.place t.here (paths scope)) (.file (.text (String.ofList written)) .free runs)).here = t.here :=
    hadds.here
  refine ⟨_, hset, fun other => ?_, fun a b hab => ?_, fun other => ?_⟩
  · by_cases ho : other = scope
    · subst ho
      exact canWrite_put hw hadds htarget hw.not_mem_way hw.not_mem_way _
    · obtain ⟨-, hne, hne'⟩ := h.apart other scope ho
      exact canWrite_put (h.canWrite other) hadds htarget hne hne' _
  · rw [hhere]
    exact h.apart a b hab
  · by_cases ho : other = scope
    · subst ho
      refine ⟨l.withRules rules, .text ?_ hedit', ?_⟩
      · rw [← hadds.here] at hlocate htarget ⊢
        exact readText_put hlocate htarget _
      · rw [RuleLists.get_set_self]
        rfl
    · obtain ⟨l', hl', hrules⟩ := h.holds other
      obtain ⟨hplace, hne, -⟩ := h.apart other scope ho
      exact ⟨l', hl'.put hadds (Tree.not_isPassable_of_target? htarget) hplace hne _, by rw [RuleLists.get_set_of_ne _ _ ho, hrules]⟩

/-- One request has the same answer from files as from memory, and the files hold the lists of memory again. -/
theorem Backs.perform (h : Backs paths t lists) (hp : ∀ scope, files.path? scope = some (paths scope))
    (request : Store.Request) : (files.store.perform request t).1 = (memoryStore.perform request lists).1 ∧
      (∃ v, (memoryStore.perform request lists).1 = .ok v) ∧
      Backs paths (files.store.perform request t).2 (memoryStore.perform request lists).2 := by
  cases request with
  | get scope =>
    rw [Store.perform, fallible_bind, h.rules hp scope]
    exact ⟨rfl, ⟨_, rfl⟩, h⟩
  | set scope rules =>
    obtain ⟨t', ht', hb⟩ := h.setRules hp scope rules
    rw [Store.perform, fallible_bind, ht']
    exact ⟨rfl, ⟨_, rfl⟩, hb⟩
  | exclude scope rule =>
    obtain ⟨t', ht', hb⟩ := h.setRules hp scope (Rule.exclude (lists.get scope) rule)
    rw [Store.perform, fallible_bind, Store.exclude_eq_ok (h.rules hp scope) ht']
    exact ⟨rfl, ⟨_, rfl⟩, hb⟩

theorem Backs.answers (h : Backs paths t lists) (hp : ∀ scope, files.path? scope = some (paths scope))
    (requests : List Store.Request) : files.store.answers requests t = memoryStore.answers requests lists ∧
      ∀ answer ∈ files.store.answers requests t, ∃ v, answer = .ok v := by
  induction requests generalizing t lists with
  | nil => exact ⟨rfl, List.forall_mem_nil _⟩
  | cons request requests ih =>
    obtain ⟨hfirst, hok, hb⟩ := h.perform hp request
    obtain ⟨hrest, hall⟩ := ih hb
    rw [Store.answers, Store.answers, hfirst, hrest]
    exact ⟨rfl, List.forall_mem_cons.2 ⟨hok, hrest ▸ hall⟩⟩

end Store

/-- A file is missing, or both readers take its text. -/
def IsAccepted (t : Tree) (path : String) : Prop :=
  t.node? (Path.place t.here path) = none ∨ ∃ text l, t.readText path = .ok text ∧ Layer.IsEditable text l

theorem IsAccepted.holds {t : Tree} {path : String} (h : IsAccepted t path) : ∃ l, Holds t path l := by
  rcases h with hn | ⟨text, l, hr, he⟩
  · exact ⟨{}, .missing hn⟩
  · exact ⟨l, .text hr he⟩

/-- Two files that can be written answer all requests as memory does that starts with the lists in them. -/
theorem answers_eq_memory {t : Tree} {global workspace : String} (hg : t.CanWrite global) (hw : t.CanWrite workspace)
    (ha : Apart t.here global workspace) (hag : IsAccepted t global) (haw : IsAccepted t workspace) :
    ∃ lists : RuleLists,
      (∀ scope, (store ⟨global, workspace⟩).rules scope t = (.ok (lists.get scope), t)) ∧
      ∀ requests, (store ⟨global, workspace⟩).answers requests t = memoryStore.answers requests lists ∧
        ∀ answer ∈ (store ⟨global, workspace⟩).answers requests t, ∃ v, answer = .ok v := by
  obtain ⟨lg, hlg⟩ := hag.holds
  obtain ⟨lw, hlw⟩ := haw.holds
  have hp : ∀ scope, (⟨global, workspace⟩ : SettingsFiles).path? scope = some (pathOf global workspace scope) := by
    intro scope
    cases scope <;> rfl
  have hb : Backs (pathOf global workspace) t ⟨lg.excludeRules.getD [], lw.excludeRules.getD []⟩ := by
    refine ⟨fun scope => ?_, fun scope other hne => ?_, fun scope => ?_⟩
    · cases scope
      · exact hg
      · exact hw
    · cases scope <;> cases other
      · exact absurd rfl hne
      · exact ha
      · exact ⟨Ne.symm ha.place_ne, ha.other_not_mem_way, ha.not_mem_way⟩
      · exact absurd rfl hne
    · cases scope
      · exact ⟨lg, hlg, rfl⟩
      · exact ⟨lw, hlw, rfl⟩
  exact ⟨_, fun scope => hb.rules hp scope, fun requests => hb.answers hp requests⟩

/-- A global file over several lines, and no workspace file yet. -/
theorem answers_eq_memory_of_lines :
    let t := (Tree.empty ["w"]).add ["c", "config.toml"]
      (.file (.text "excludeRules = [ # not these\n  'L001',\n]\n\n[linter]\nrun = \"off\"\n"))
    ∃ lists : RuleLists, (∀ scope, (store ⟨"/c/config.toml", ".sqlfluff-lsp.toml"⟩).rules scope t =
        (.ok (lists.get scope), t)) ∧
      ∀ requests, (store ⟨"/c/config.toml", ".sqlfluff-lsp.toml"⟩).answers requests t =
          memoryStore.answers requests lists ∧
        ∀ answer ∈ (store ⟨"/c/config.toml", ".sqlfluff-lsp.toml"⟩).answers requests t, ∃ v, answer = .ok v := by
  intro t
  have hdocument : (Toml.Document.read Toml.Scalar.isNarrow
      "excludeRules = [ # not these\n  'L001',\n]\n\n[linter]\nrun = \"off\"\n".toList).toOption.isSome = true := by
    decide +kernel
  have hlayer : Layer.ofToml "excludeRules = [ # not these\n  'L001',\n]\n\n[linter]\nrun = \"off\"\n" =
      .ok { excludeRules := some ["L001"], run := some .off } := by
    decide +kernel
  have hg : t.CanWrite "/c/config.toml" :=
    ⟨⟨by decide, by decide, by decide, by decide⟩, by decide, by decide, by decide, false, by decide⟩
  have hw : t.CanWrite ".sqlfluff-lsp.toml" :=
    ⟨⟨by decide, by decide, by decide, by decide⟩, by decide, by decide, by decide, false, by decide⟩
  obtain ⟨d, hd⟩ := Option.isSome_iff_exists.1 hdocument
  refine answers_eq_memory hg hw ⟨by decide, by decide, by decide⟩ (.inr ⟨_, _, rfl, hlayer, d, ?_⟩) (.inl rfl)
  cases hr : Toml.Document.read Toml.Scalar.isNarrow
      "excludeRules = [ # not these\n  'L001',\n]\n\n[linter]\nrun = \"off\"\n".toList with
  | error f =>
    rw [hr] at hd
    cases hd
  | ok d' =>
    rw [hr] at hd
    cases hd
    rfl

end SettingsFiles
end SqlLint
