import SqlLint.Proofs.Rule.Sorting
import SqlLint.Proofs.Settings.Stores

/-! # Exclusions one after the other

A store recalls a scope if it reads back what was written there last, whatever is asked for other scopes. Rules that
are added to the list of such a scope leave one stable sort of their history, so the order in which they came is to
be seen of tied rules only. -/
namespace SqlLint

namespace Store

namespace Request

def scope : Request → Scope
  | .get scope => scope
  | .set scope _ => scope
  | .exclude scope _ => scope

/-- What a request makes of the list of its scope. -/
def update : Request → List String → List String
  | .get _, list => list
  | .set _ rules, _ => rules
  | .exclude _ rule, list => Rule.exclude list rule

end Request

variable {σ : Type} {store : Store σ} {scope other : Scope} {holds : σ → List String → Prop} {s : σ}
  {list rules : List String} {request : Request} {rule : String}

/-- The state behind requests, one after the other. -/
def after (store : Store σ) (requests : List Request) (s : σ) : σ :=
  requests.foldl (fun s request => (store.perform request s).2) s

/-- A store that reads back for a scope what was written there last. Which list a state holds is up to the store; what
it answers for other scopes, and whether it does, makes no difference. -/
structure Recalls (store : Store σ) (scope : Scope) (holds : σ → List String → Prop) : Prop where
  read : ∀ {s list}, holds s list → ∃ s', store.rules scope s = (.ok list, s') ∧ holds s' list
  write : ∀ {s list} rules, holds s list → ∃ s', store.setRules scope rules s = (.ok (), s') ∧ holds s' rules
  read_other : ∀ {s list other}, other ≠ scope → holds s list → holds (store.rules other s).2 list
  write_other : ∀ {s list other} rules, other ≠ scope → holds s list → holds (store.setRules other rules s).2 list

theorem after_cons (request : Request) (requests : List Request) (s : σ) :
    store.after (request :: requests) s = store.after requests (store.perform request s).2 := rfl

theorem snd_bind_pure {α β : Type} (m : StoreM σ α) (f : α → β) (s : σ) :
    ((m >>= fun a => pure (f a)) s).2 = (m s).2 := by
  rw [fallible_bind]
  generalize m s = outcome
  obtain ⟨e | a, s'⟩ := outcome
  · rfl
  · rfl

/-- A request leaves the state that the store leaves. -/
theorem perform_get (scope : Scope) (s : σ) : (store.perform (.get scope) s).2 = (store.rules scope s).2 :=
  snd_bind_pure ..

theorem perform_set (scope : Scope) (rules : List String) (s : σ) :
    (store.perform (.set scope rules) s).2 = (store.setRules scope rules s).2 := snd_bind_pure ..

theorem perform_exclude (scope : Scope) (rule : String) (s : σ) :
    (store.perform (.exclude scope rule) s).2 = (store.exclude scope rule s).2 := snd_bind_pure ..

namespace Recalls

theorem exclude (recalls : store.Recalls scope holds) (h : holds s list) (rule : String) :
    ∃ s', store.exclude scope rule s = (.ok (Rule.exclude list rule), s') ∧ holds s' (Rule.exclude list rule) := by
  obtain ⟨s₁, read, h₁⟩ := recalls.read h
  obtain ⟨s₂, written, h₂⟩ := recalls.write (Rule.exclude list rule) h₁
  exact ⟨s₂, exclude_eq_ok read written, h₂⟩

theorem exclude_other (recalls : store.Recalls scope holds) (h : holds s list) (there : other ≠ scope) (rule : String) :
    holds (store.exclude other rule s).2 list := by
  have h₁ := recalls.read_other there h
  rw [exclude_apply]
  generalize store.rules other s = outcome at h₁
  obtain ⟨e | rules, s₁⟩ := outcome
  · exact h₁
  · exact recalls.write_other (Rule.exclude rules rule) there h₁

/-- A request for the scope has its effect on the list. -/
theorem perform (recalls : store.Recalls scope holds) (h : holds s list) (here : request.scope = scope) :
    holds (store.perform request s).2 (request.update list) := by
  cases request with
  | get here' =>
    obtain rfl : here' = scope := here
    obtain ⟨s', read, h'⟩ := recalls.read h
    rwa [perform_get, read]
  | set here' rules =>
    obtain rfl : here' = scope := here
    obtain ⟨s', written, h'⟩ := recalls.write rules h
    rwa [perform_set, written]
  | exclude here' rule =>
    obtain rfl : here' = scope := here
    obtain ⟨s', excluded, h'⟩ := recalls.exclude h rule
    rwa [perform_exclude, excluded]

/-- A request for another scope has no effect on it. -/
theorem perform_other (recalls : store.Recalls scope holds) (h : holds s list) (there : request.scope ≠ scope) :
    holds (store.perform request s).2 list := by
  cases request with
  | get other =>
    rw [perform_get]
    exact recalls.read_other there h
  | set other rules =>
    rw [perform_set]
    exact recalls.write_other rules there h
  | exclude other rule =>
    rw [perform_exclude]
    exact recalls.exclude_other h there rule

/-- Behind any requests the list of a scope is what the requests for this scope make of it. -/
theorem after (recalls : store.Recalls scope holds) (h : holds s list) (requests : List Request) :
    holds (store.after requests s)
      ((requests.filter (·.scope = scope)).foldl (fun list request => request.update list) list) := by
  induction requests generalizing s list with
  | nil => exact h
  | cons request requests ih =>
    rw [after_cons]
    by_cases here : request.scope = scope
    · rw [List.filter_cons_of_pos (by simpa using here), List.foldl_cons]
      exact ih (recalls.perform h here)
    · rw [List.filter_cons_of_neg (by simpa using here)]
      exact ih (recalls.perform_other h here)

theorem after_exclusions (recalls : store.Recalls scope holds) (h : holds s list) {requests : List Request}
    {added : List String} (own : requests.filter (·.scope = scope) = added.map (.exclude scope)) :
    holds (store.after requests s) (added.foldl Rule.exclude list) := by
  have h' := recalls.after h requests
  rwa [own, List.foldl_map] at h'

theorem answer (recalls : store.Recalls scope holds) (h : holds s list) : (store.rules scope s).1 = .ok list := by
  obtain ⟨s', read, -⟩ := recalls.read h
  rw [read]

end Recalls

/-- The list that a run of exclusions leaves for a scope. It is stored and it is the last answer, and it is the stable sort
of its history: what was there is there as often as before, what was added is there once, and neither can be added
again. -/
structure Leaves (store : Store σ) (scope : Scope) (requests : List Request) (s : σ) (initial added list : List String) :
    Prop where
  stored : (store.rules scope (store.after requests s)).1 = .ok list
  answered : ∀ {before rule behind}, requests = before ++ .exclude scope rule :: behind →
    (∀ request ∈ behind, request.scope ≠ scope) → (store.exclude scope rule (store.after before s)).1 = .ok list
  sorted : Rule.IsStableSort (Rule.history initial added) list
  count_eq : ∀ rule, list.count rule =
    if rule ∈ initial then initial.count rule else if rule ∈ added then 1 else 0
  again : ∀ {rule}, rule ∈ initial ∨ rule ∈ added → (store.exclude scope rule (store.after requests s)).1 = .ok list ∧
    (store.rules scope (store.exclude scope rule (store.after requests s)).2).1 = .ok list

theorem Recalls.leaves (recalls : store.Recalls scope holds) {initial : List String} (start : holds s initial)
    {requests : List Request} {added : List String} (nonempty : added ≠ [])
    (own : requests.filter (·.scope = scope) = added.map (.exclude scope)) :
    store.Leaves scope requests s initial added (added.foldl Rule.exclude initial) := by
  have stands := recalls.after_exclusions start own
  have sorted := Rule.isStableSort_foldl_exclude initial nonempty
  have count_eq (rule : String) : (added.foldl Rule.exclude initial).count rule =
      if rule ∈ initial then initial.count rule else if rule ∈ added then 1 else 0 := by
    rw [Rule.count_eq_of_tied sorted.tied_eq, ← Rule.foldl_add, Rule.count_foldl_add]
  refine ⟨recalls.answer stands, fun {before rule behind} cut others => ?_, sorted, count_eq, fun {rule} mem => ?_⟩
  · have none : behind.filter (·.scope = scope) = [] := by simpa using others
    have here : (Request.exclude scope rule).scope = scope := rfl
    rw [cut, List.filter_append, List.filter_cons_of_pos (by simpa using here), none] at own
    obtain ⟨front, back, rfl, ownBefore, ownLast⟩ := List.map_eq_append_iff.1 own.symm
    obtain ⟨last, rfl, same⟩ := List.map_eq_singleton_iff.1 ownLast
    obtain rfl : last = rule := by injection same
    obtain ⟨s', excluded, -⟩ := recalls.exclude (recalls.after_exclusions start ownBefore.symm) last
    rw [excluded, List.foldl_append]
    rfl
  · have mem' : rule ∈ added.foldl Rule.exclude initial := by
      rw [← List.count_pos_iff, count_eq]
      split
      · next old => exact List.count_pos_iff.2 old
      · next new => simp [mem.resolve_left new]
    obtain ⟨s', excluded, h'⟩ := recalls.exclude stands rule
    rw [Rule.exclude_of_mem sorted.ordered mem'] at excluded h'
    rw [excluded]
    exact ⟨rfl, recalls.answer h'⟩

theorem recalls_memoryStore (scope : Scope) : memoryStore.Recalls scope fun lists list => lists.get scope = list where
  read h := ⟨_, by rw [← h]; rfl, h⟩
  write rules _ := ⟨_, rfl, RuleLists.get_set_self ..⟩
  read_other _ h := h
  write_other rules there h := by
    rw [← h]
    exact RuleLists.get_set_of_ne _ _ there.symm

/-- Files that can be written recall each scope. -/
theorem recalls_files {files : SettingsFiles} {paths : Scope → String}
    (hp : ∀ scope, files.path? scope = some (paths scope)) (scope : Scope) :
    files.store.Recalls scope fun t list => ∃ lists : RuleLists, SettingsFiles.Backs paths t lists ∧ lists.get scope = list := by
  constructor
  · rintro t list ⟨lists, backs, rfl⟩
    exact ⟨t, backs.rules hp scope, lists, backs, rfl⟩
  · rintro t list rules ⟨lists, backs, rfl⟩
    obtain ⟨t', written, backs'⟩ := backs.setRules hp scope rules
    exact ⟨t', written, _, backs', RuleLists.get_set_self ..⟩
  · rintro t list other there ⟨lists, backs, rfl⟩
    rw [backs.rules hp other]
    exact ⟨lists, backs, rfl⟩
  · rintro t list other rules there ⟨lists, backs, rfl⟩
    obtain ⟨t', written, backs'⟩ := backs.setRules hp other rules
    rw [written]
    exact ⟨_, backs', RuleLists.get_set_of_ne _ _ there.symm⟩

/-- The store in memory recalls each scope. In every store that recalls a scope, the list of the scope depends on what is
asked for this scope only, whatever is asked for others in between, and rules that are added to it one after the other
leave the stable sort of the old list with the new rules behind it. -/
theorem leaves_of_exclusions : (∀ scope, memoryStore.Recalls scope fun lists list => lists.get scope = list) ∧
    ∀ {σ : Type} {store : Store σ} {scope : Scope} {holds : σ → List String → Prop}, store.Recalls scope holds →
      ∀ {s : σ} {initial : List String}, holds s initial → ∀ requests : List Request,
        (∀ {t : σ} {others : List Request}, holds t initial →
          others.filter (·.scope = scope) = requests.filter (·.scope = scope) →
          (store.rules scope (store.after others t)).1 = (store.rules scope (store.after requests s)).1) ∧
        ∀ {added : List String}, added ≠ [] → requests.filter (·.scope = scope) = added.map (.exclude scope) →
          ∃ list, store.Leaves scope requests s initial added list := by
  refine ⟨recalls_memoryStore, fun {σ store scope holds} recalls {s initial} start requests =>
    ⟨fun {t others} start' same => ?_, fun nonempty own => ⟨_, recalls.leaves start nonempty own⟩⟩⟩
  rw [recalls.answer (recalls.after start' others), same, recalls.answer (recalls.after start requests)]

/-- Requests for two scopes, with a rule that is added twice. -/
def mixedRequests : List Request :=
  [.exclude .workspace "LT02", .exclude .global "L003", .set .workspace [], .exclude .global "AL05",
    .exclude .global "L003"]

/-- Added to a list that is out of order and has a repeated rule. -/
theorem leaves_of_exclusions_mixed : ∃ list, memoryStore.Leaves .global mixedRequests ⟨["LT01", "L010", "L010"], []⟩
      ["LT01", "L010", "L010"] ["L003", "AL05", "L003"] list ∧
    Rule.tied none list = ["LT01", "AL05"] ∧ list.count "L010" = 2 ∧ list.count "L003" = 1 := by
  obtain ⟨memory, stores⟩ := leaves_of_exclusions
  obtain ⟨-, runs⟩ := stores (memory .global) (s := ⟨["LT01", "L010", "L010"], []⟩) rfl mixedRequests
  have nonempty : ["L003", "AL05", "L003"] ≠ [] := by decide
  obtain ⟨list, leaves⟩ := runs nonempty rfl
  refine ⟨list, leaves, (leaves.sorted.tied_eq none).trans ?_, (leaves.count_eq "L010").trans ?_,
    (leaves.count_eq "L003").trans ?_⟩
  · decide +kernel
  · decide
  · decide

/-- Of two rules that are added to a list, the order is to be seen exactly if both are new, and different, and tied. -/
theorem exclusions_commute_iff (recalls : store.Recalls scope holds) (start : holds s list) (a b : String) :
    ∃ x y, (store.rules scope (store.after [.exclude scope a, .exclude scope b] s)).1 = .ok x ∧
      (store.rules scope (store.after [.exclude scope b, .exclude scope a] s)).1 = .ok y ∧
      (x = y ↔ a = b ∨ a ∈ list ∨ b ∈ list ∨ Rule.sortKey a ≠ Rule.sortKey b) := by
  have there (x y : String) : (store.rules scope (store.after [.exclude scope x, .exclude scope y] s)).1 =
      .ok (Rule.exclude (Rule.exclude list x) y) := by
    have own : [Request.exclude scope x, .exclude scope y].filter (·.scope = scope) = [x, y].map (.exclude scope) := by
      simp [Request.scope]
    exact recalls.answer (recalls.after_exclusions start own)
  exact ⟨_, _, there a b, there b a, Rule.exclude_comm_iff⟩

/-- Two spellings of one number, and a number beside no number. -/
theorem exclusions_commute_iff_tied :
    (∃ x y, (memoryStore.rules .global
        (memoryStore.after [.exclude .global "L10", .exclude .global "M010"] ⟨["L003"], []⟩)).1 = .ok x ∧
      (memoryStore.rules .global
        (memoryStore.after [.exclude .global "M010", .exclude .global "L10"] ⟨["L003"], []⟩)).1 = .ok y ∧ x ≠ y) ∧
    ∃ x y, (memoryStore.rules .global
        (memoryStore.after [.exclude .global "LT01", .exclude .global "L10"] ⟨["L003"], []⟩)).1 = .ok x ∧
      (memoryStore.rules .global
        (memoryStore.after [.exclude .global "L10", .exclude .global "LT01"] ⟨["L003"], []⟩)).1 = .ok y ∧ x = y := by
  constructor
  · obtain ⟨x, y, hx, hy, same⟩ := exclusions_commute_iff (recalls_memoryStore .global)
      (s := ⟨["L003"], []⟩) rfl "L10" "M010"
    refine ⟨x, y, hx, hy, fun h => absurd (same.1 h) ?_⟩
    decide +kernel
  · obtain ⟨x, y, hx, hy, same⟩ := exclusions_commute_iff (recalls_memoryStore .global)
      (s := ⟨["L003"], []⟩) rfl "LT01" "L10"
    refine ⟨x, y, hx, hy, same.2 ?_⟩
    decide +kernel

end Store
end SqlLint
