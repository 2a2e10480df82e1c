import SqlLint.Proofs.Settings.Rewriting
import Mathlib.Logic.Function.Basic

/-! # Exclusions at the same time

Adding a rule takes two steps: the list is read, and it is written with the rule. Other calls may take steps in between.
What a call writes is what it has read with its rule, so it undoes what others have written since. Calls that share a
list in files or in memory race as calls for a single list do, and of that the outcome is computed from the schedule. -/
namespace SqlLint.Store

/-- How far a call has come that adds a rule. -/
inductive Stage
  | waiting
  | holding (list : List String)
  | answered (answer : Except SettingsError (List String))

/-- Calls that share a state. -/
structure Race (σ ι : Type) where
  state : σ
  stage : ι → Stage

variable {σ ι : Type} {scope : Scope}

/-- The next step of a call: it reads the list, or it writes the list with its rule. -/
def advance (store : Store σ) (scope : Scope) (rule : String) : Stage → σ → Stage × σ
  | .waiting, s =>
    match store.rules scope s with
    | (.ok list, s') => (.holding list, s')
    | (.error e, s') => (.answered (.error e), s')
  | .holding list, s =>
    match store.setRules scope (Rule.exclude list rule) s with
    | (.ok _, s') => (.answered (.ok (Rule.exclude list rule)), s')
    | (.error e, s') => (.answered (.error e), s')
  | .answered answer, s => (.answered answer, s)

/-- A call that nothing disturbs adds its rule. -/
theorem advance_advance (store : Store σ) (scope : Scope) (rule : String) (s : σ) :
    store.advance scope rule (store.advance scope rule .waiting s).1 (store.advance scope rule .waiting s).2 =
      (.answered (store.exclude scope rule s).1, (store.exclude scope rule s).2) := by
  rw [exclude_apply, advance]
  generalize store.rules scope s = read
  obtain ⟨e | list, s'⟩ := read
  · rfl
  · dsimp only
    rw [advance]
    generalize store.setRules scope (Rule.exclude list rule) s' = written
    obtain ⟨e | u, s''⟩ := written <;> rfl

namespace Race

/-- No call has begun. -/
def start (s : σ) : Race σ ι := ⟨s, fun _ => .waiting⟩

variable [DecidableEq ι] {stores : ι → Store σ} {rule : ι → String} {r : Race σ ι} {i j : ι} {schedule : List ι}

/-- One call takes its next step. -/
def step (stores : ι → Store σ) (scope : Scope) (rule : ι → String) (r : Race σ ι) (i : ι) : Race σ ι where
  state := ((stores i).advance scope (rule i) (r.stage i) r.state).2
  stage := Function.update r.stage i ((stores i).advance scope (rule i) (r.stage i) r.state).1

/-- The calls take their steps in the order of a schedule. -/
def run (stores : ι → Store σ) (scope : Scope) (rule : ι → String) (schedule : List ι) (r : Race σ ι) : Race σ ι :=
  schedule.foldl (step stores scope rule) r

theorem run_cons (i : ι) (schedule : List ι) (r : Race σ ι) :
    run stores scope rule (i :: schedule) r = run stores scope rule schedule (step stores scope rule r i) := rfl

theorem run_append (first second : List ι) (r : Race σ ι) :
    run stores scope rule (first ++ second) r = run stores scope rule second (run stores scope rule first r) :=
  List.foldl_append ..

theorem stage_step_self (r : Race σ ι) (i : ι) : (step stores scope rule r i).stage i =
    ((stores i).advance scope (rule i) (r.stage i) r.state).1 := Function.update_self ..

theorem stage_step_of_ne (h : i ≠ j) : (step stores scope rule r j).stage i = r.stage i := Function.update_of_ne h ..

theorem stage_run_of_not_mem (h : i ∉ schedule) (r : Race σ ι) :
    (run stores scope rule schedule r).stage i = r.stage i := by
  induction schedule generalizing r with
  | nil => rfl
  | cons j schedule ih =>
    obtain ⟨hj, hs⟩ : i ≠ j ∧ i ∉ schedule := by simpa using h
    rw [run_cons, ih hs, stage_step_of_ne hj]

/-- A call that has its answer does nothing. -/
theorem step_of_answered {answer : Except SettingsError (List String)} (h : r.stage i = .answered answer) :
    step stores scope rule r i = r := by
  obtain ⟨s, stage⟩ := r
  have same : (stores i).advance scope (rule i) (stage i) s = (stage i, s) := by
    have h : stage i = .answered answer := h
    rw [h]
    rfl
  rw [step, same, Function.update_eq_self]

theorem run_of_answered (h : ∀ i ∈ schedule, ∃ answer, r.stage i = .answered answer) :
    run stores scope rule schedule r = r := by
  induction schedule with
  | nil => rfl
  | cons i schedule ih =>
    obtain ⟨⟨answer, first⟩, rest⟩ := List.forall_mem_cons.1 h
    rw [run_cons, step_of_answered first, ih rest]

/-- An answer stays. -/
theorem stage_run_of_answered {answer : Except SettingsError (List String)} (h : r.stage i = .answered answer)
    (schedule : List ι) : (run stores scope rule schedule r).stage i = .answered answer := by
  induction schedule generalizing r with
  | nil => exact h
  | cons j schedule ih =>
    rw [run_cons]
    by_cases hj : i = j
    · subst hj
      rw [step_of_answered h]
      exact ih h
    · exact ih ((stage_step_of_ne hj).trans h)

end Race

/-! ## A single list -/

/-- A list as a store. -/
def listStore : Store (List String) where
  rules _ := get
  setRules _ rules := set rules

/-- Stores that share the list of a scope: each of them reads it, which changes nothing, and what one of them writes is
the list. -/
structure Shared (stores : ι → Store σ) (scope : Scope) (holds : σ → List String → Prop) : Prop where
  read : ∀ {i s s' list}, (stores i).rules scope s = (.ok list, s') ↔ holds s list ∧ s' = s
  write : ∀ {i s s' list rules}, holds s list → (stores i).setRules scope rules s = (.ok (), s') → holds s' rules

/-- Stores with one path for a scope share the list in its file. -/
theorem shared_files {files : ι → SettingsFiles} {path : String} (hp : ∀ i, (files i).path? scope = some path) :
    Shared (fun i => (files i).store) scope fun t list =>
      ∃ l, Layer.ofFile t path = .ok l ∧ l.excludeRules.getD [] = list where
  read {i t t' list} := by
    rw [SettingsFiles.rules_apply (hp i), Prod.mk.injEq, eq_comm (a := t)]
    refine and_congr_left fun _ => ?_
    cases Layer.ofFile t path with
    | error e => simp [Except.map]
    | ok l => simp [Except.map]
  write {i t t' list rules} := by
    rintro ⟨l, hl, -⟩ written
    obtain ⟨-, -, -, -, -, -, hlist⟩ := SettingsFiles.exists_of_setRules (hp i) hl written
    exact ⟨_, hlist, rfl⟩

theorem shared_memory (scope : Scope) : Shared (fun _ : ι => memoryStore) scope fun lists list => lists.get scope = list where
  read {i s s' list} := by
    have h : memoryStore.rules scope s = (.ok (s.get scope), s) := rfl
    rw [h, Prod.mk.injEq, Except.ok.injEq, eq_comm (a := s)]
  write {i s s' list rules} := by
    rintro - written
    have h : memoryStore.setRules scope rules s = (.ok (), s.set rules scope) := rfl
    rw [h, Prod.mk.injEq] at written
    obtain ⟨-, rfl⟩ := written
    exact RuleLists.get_set_self ..

namespace Race

variable [DecidableEq ι] {stores : ι → Store σ} {rule : ι → String} {r : Race σ ι} {v : Race (List String) ι} {i : ι}
  {schedule : List ι} {holds : σ → List String → Prop}

/-- Calls are as far as calls for a single list, and share this list. -/
structure Follows (holds : σ → List String → Prop) (r : Race σ ι) (v : Race (List String) ι) : Prop where
  state : holds r.state v.state
  stage : r.stage = v.stage

theorem Follows.step (follows : Follows holds r v) (shared : Shared stores scope holds)
    (unfailed : ∀ e, (step stores scope rule r i).stage i ≠ .answered (.error e)) :
    Follows holds (step stores scope rule r i) (step (fun _ => listStore) scope rule v i) := by
  obtain ⟨s, stage⟩ := r
  obtain ⟨list, _⟩ := v
  obtain ⟨here, rfl⟩ : holds s list ∧ stage = _ := ⟨follows.state, follows.stage⟩
  rw [stage_step_self] at unfailed
  dsimp only at unfailed
  rw [Race.step, Race.step]
  dsimp only
  cases at' : stage i with
  | waiting =>
    have found := (shared.read (i := i)).2 ⟨here, rfl⟩
    rw [advance, found]
    exact ⟨here, rfl⟩
  | holding held =>
    rw [at', advance] at unfailed
    rw [advance]
    cases written : (stores i).setRules scope (Rule.exclude held (rule i)) s with
    | mk outcome s' =>
      rw [written] at unfailed
      cases outcome with
      | error e => exact absurd rfl (unfailed e)
      | ok u => exact ⟨shared.write here written, rfl⟩
  | answered answer => exact ⟨here, rfl⟩

/-- As long as no call fails, calls that share a list run as calls for a single list do. -/
theorem Follows.run (follows : Follows holds r v) (shared : Shared stores scope holds)
    (unfailed : ∀ i e, (run stores scope rule schedule r).stage i ≠ .answered (.error e)) :
    Follows holds (run stores scope rule schedule r) (run (fun _ => listStore) scope rule schedule v) := by
  induction schedule generalizing r v with
  | nil => exact follows
  | cons i schedule ih =>
    refine ih (follows.step shared fun e failed => ?_) unfailed
    exact unfailed i e (stage_run_of_answered failed schedule)

end Race

/-! ## Calls for a single list -/

/-- The steps that a call has taken. -/
def Stage.steps : Stage → Nat
  | .waiting => 0
  | .holding _ => 1
  | .answered _ => 2

theorem Stage.steps_le (stage : Stage) : stage.steps ≤ 2 := by cases stage <;> simp [steps]

theorem Stage.steps_eq_two {stage : Stage} (h : stage.steps = 2) : ∃ answer, stage = .answered answer := by
  cases stage with
  | answered answer => exact ⟨answer, rfl⟩
  | _ => cases h

theorem steps_advance (scope : Scope) (rule : String) (stage : Stage) (list : List String) :
    (listStore.advance scope rule stage list).1.steps = min 2 (stage.steps + 1) := by
  cases stage <;> rfl

namespace Race

section List

variable [DecidableEq ι] {rule : ι → String} {list : List String}

theorem steps_run (scope : Scope) (rule : ι → String) (schedule : List ι) (v : Race (List String) ι) (i : ι) :
    ((run (fun _ => listStore) scope rule schedule v).stage i).steps =
      min 2 ((v.stage i).steps + schedule.count i) := by
  induction schedule generalizing v with
  | nil => exact (Nat.min_eq_right (v.stage i).steps_le).symm
  | cons j schedule ih =>
    rw [run_cons, ih]
    by_cases hj : i = j
    · subst hj
      rw [stage_step_self, steps_advance, List.count_cons_self]
      omega
    · rw [stage_step_of_ne hj, List.count_cons_of_ne (Ne.symm hj)]

theorem step_of_waiting (scope : Scope) (rule : ι → String) {v : Race (List String) ι} {i : ι}
    (h : v.stage i = .waiting) : (step (fun _ => listStore) scope rule v i).state = v.state ∧
      (step (fun _ => listStore) scope rule v i).stage i = .holding v.state := by
  rw [stage_step_self, step, h]
  exact ⟨rfl, rfl⟩

theorem step_of_holding (scope : Scope) (rule : ι → String) {v : Race (List String) ι} {i : ι}
    (h : v.stage i = .holding list) : (step (fun _ => listStore) scope rule v i).state = Rule.exclude list (rule i) ∧
      (step (fun _ => listStore) scope rule v i).stage i = .answered (.ok (Rule.exclude list (rule i))) := by
  rw [stage_step_self, step, h]
  exact ⟨rfl, rfl⟩

/-- What a call makes of a list that runs alone. -/
theorem state_run_replicate (n : Nat) (i : ι) (list : List String) :
    (run (fun _ => listStore) scope rule (List.replicate n i) (start list)).state =
      if 2 ≤ n then Rule.exclude list (rule i) else list := by
  match n with
  | 0 | 1 => rfl
  | n + 2 =>
    have begins : (start list : Race (List String) ι).stage i = .waiting := rfl
    obtain ⟨-, reads⟩ := step_of_waiting scope rule begins
    obtain ⟨written, answered⟩ := step_of_holding scope rule reads
    rw [List.replicate_succ, List.replicate_succ, run_cons, run_cons, run_of_answered, written, if_pos (by omega)]
    · rfl
    · intro j hj
      rw [List.eq_of_mem_replicate hj]
      exact ⟨_, answered⟩

end List

/-! ## Two calls -/

section Two

variable {rule : Bool → String} {list : List String} {schedule : List Bool} {p : Bool} {n : Nat}

/-- A step of a call, counted from zero, comes behind both steps of the other call. -/
def Behind (schedule : List Bool) (p : Bool) (n : Nat) : Prop :=
  ∃ front back, schedule = front ++ p :: back ∧ front.count p = n ∧ 2 ≤ front.count (!p)

theorem exists_of_lt_count (h : n < schedule.count p) :
    ∃ front back, schedule = front ++ p :: back ∧ front.count p = n := by
  induction schedule generalizing n with
  | nil => simp at h
  | cons q schedule ih =>
    by_cases hq : q = p
    · subst hq
      cases n with
      | zero => exact ⟨[], schedule, rfl, rfl⟩
      | succ n =>
        rw [List.count_cons_self] at h
        obtain ⟨front, back, rfl, count⟩ := ih (Nat.lt_of_succ_lt_succ h)
        exact ⟨q :: front, back, rfl, by rw [List.count_cons_self, count]⟩
    · rw [List.count_cons_of_ne hq] at h
      obtain ⟨front, back, rfl, count⟩ := ih h
      exact ⟨q :: front, back, rfl, by rw [List.count_cons_of_ne hq, count]⟩

/-- Two steps of a schedule are one, or one of them comes behind the other. -/
theorem eq_or_behind {front back front' back' : List Bool} {q : Bool} (h : front ++ p :: back = front' ++ q :: back') :
    (front = front' ∧ p = q) ∨ (∃ more, front' = front ++ p :: more) ∨ ∃ more, front = front' ++ q :: more := by
  rcases List.append_eq_append_iff.1 h with ⟨more, rfl, same⟩ | ⟨more, rfl, same⟩
  · cases more with
    | nil => exact .inl ⟨(List.append_nil _).symm, (List.cons.inj same).1⟩
    | cons r more =>
      obtain ⟨rfl, -⟩ := List.cons.inj same
      exact .inr (.inl ⟨more, rfl⟩)
  · cases more with
    | nil => exact .inl ⟨List.append_nil _, (List.cons.inj same).1.symm⟩
    | cons r more =>
      obtain ⟨rfl, -⟩ := List.cons.inj same
      exact .inr (.inr ⟨more, rfl⟩)

/-- One of two calls writes behind the other. -/
theorem exists_behind (h : ∀ p, 2 ≤ schedule.count p) : ∃ p, Behind schedule p 1 := by
  obtain ⟨front, back, here, one⟩ := exists_of_lt_count (h true)
  obtain ⟨front', back', there, one'⟩ := exists_of_lt_count (h false)
  rcases eq_or_behind (here.symm.trans there) with ⟨-, same⟩ | ⟨more, rfl⟩ | ⟨more, rfl⟩
  · cases same
  · refine ⟨false, _, back', there, one', ?_⟩
    rw [Bool.not_false, List.count_append, one, List.count_cons_self]
    omega
  · refine ⟨true, _, back, here, one, ?_⟩
    rw [Bool.not_true, List.count_append, one', List.count_cons_self]
    omega

theorem behind_zero_iff {front back : List Bool} (h : p ∉ front) :
    Behind (front ++ p :: back) p 0 ↔ 2 ≤ front.count (!p) := by
  constructor
  · rintro ⟨front', back', same, unbegun, both⟩
    rcases eq_or_behind same with ⟨rfl, -⟩ | ⟨more, rfl⟩ | ⟨more, rfl⟩
    · exact both
    · exact absurd (List.mem_append_right front List.mem_cons_self) (List.count_eq_zero.1 unbegun)
    · exact absurd (List.mem_append_right front' List.mem_cons_self) h
  · exact fun both => ⟨front, back, rfl, List.count_eq_zero.2 h, both⟩

/-- What the other call makes of a list before a call begins. -/
theorem state_run_of_not_mem {front : List Bool} (h : p ∉ front) (list : List String) :
    (run (fun _ => listStore) scope rule front (start list)).state =
      if 2 ≤ front.count (!p) then Rule.exclude list (rule !p) else list := by
  have alone : front = List.replicate front.length (!p) := by
    refine List.eq_replicate_of_mem fun q hq => ?_
    have other : q ≠ p := fun same => h (same ▸ hq)
    exact Bool.eq_not_of_ne other
  have count : front.count (!p) = front.length := by
    rw [alone, List.count_replicate_self, List.length_replicate]
  rw [count, alone, state_run_replicate, List.length_replicate]

/-- The call that writes last leaves what it has read with its rule. -/
theorem state_run_of_behind (scope : Scope) (rule : Bool → String) (last : Behind schedule p 1) (list : List String) :
    ∃ held, (run (fun _ => listStore) scope rule schedule (start list)).state = Rule.exclude held (rule p) ∧
      ((Behind schedule p 0 ∧ held = Rule.exclude list (rule !p)) ∨ (¬ Behind schedule p 0 ∧ held = list)) := by
  -- the schedule is cut where the call writes, and in front of that where it reads
  obtain ⟨front, back, rfl, one, both⟩ := last
  have reading : 0 < front.count p := by omega
  obtain ⟨first, second, rfl, unbegun⟩ := exists_of_lt_count reading
  have begins : p ∉ first := List.count_eq_zero.1 unbegun
  have holds : p ∉ second := by
    rw [List.count_append, unbegun, List.count_cons_self] at one
    exact List.count_eq_zero.1 (by omega)
  have waits : (run (fun _ => listStore) scope rule first (start list)).stage p = .waiting :=
    stage_run_of_not_mem begins (start list)
  obtain ⟨-, reads⟩ := step_of_waiting scope rule waits
  obtain ⟨written, answered⟩ := step_of_holding scope rule ((stage_run_of_not_mem holds _).trans reads)
  rw [← run_cons, ← run_append] at written answered
  refine ⟨(run (fun _ => listStore) scope rule first (start list)).state, ?_, ?_⟩
  · rw [run_append, run_cons, run_of_answered, written]
    -- the other call is done by then, so nothing changes behind the last write
    intro q _
    by_cases hq : q = p
    · subst hq
      exact ⟨_, answered⟩
    · obtain rfl : q = !p := Bool.eq_not_of_ne hq
      apply Stage.steps_eq_two
      rw [stage_step_of_ne hq, steps_run]
      exact Nat.min_eq_left (Nat.le_trans both (Nat.le_add_left _ _))
  · rw [List.append_assoc, List.cons_append, behind_zero_iff begins, state_run_of_not_mem begins]
    by_cases behind : 2 ≤ first.count (!p)
    · exact .inl ⟨behind, if_pos behind⟩
    · exact .inr ⟨behind, if_neg behind⟩

/-- What two calls leave of a list: the rules of the list and that of the call that writes last. The other rule is there
exactly if the other call was done before the last one began, unless it was there anyway. -/
structure LastWins (list : List String) (rule : Bool → String) (schedule : List Bool) (p : Bool) (stored : List String) :
    Prop where
  last : Behind schedule p 1
  kept : ∀ other ∈ list, other ∈ stored
  own : rule p ∈ stored
  other_iff : rule (!p) ∈ stored ↔ Behind schedule p 0 ∨ rule (!p) ∈ list ∨ rule (!p) = rule p

theorem lastWins_state_run (scope : Scope) (rule : Bool → String) (last : Behind schedule p 1) (list : List String) :
    LastWins list rule schedule p (run (fun _ => listStore) scope rule schedule (start list)).state := by
  obtain ⟨held, written, ⟨behind, rfl⟩ | ⟨overlapping, rfl⟩⟩ := state_run_of_behind scope rule last list
  · rw [written]
    refine ⟨last, fun other mem => ?_, Rule.mem_exclude.2 (.inr rfl), fun _ => .inl behind, fun _ => ?_⟩
    · exact Rule.mem_exclude.2 (.inl (Rule.mem_exclude.2 (.inl mem)))
    · exact Rule.mem_exclude.2 (.inl (Rule.mem_exclude.2 (.inr rfl)))
  · rw [written]
    refine ⟨last, fun other mem => Rule.mem_exclude.2 (.inl mem), Rule.mem_exclude.2 (.inr rfl), ?_⟩
    rw [Rule.mem_exclude]
    exact (or_iff_right overlapping).symm

/-- Two calls that share a list in memory, or in a settings file that both have for a scope, in whatever order their
reads and writes come. Once both have succeeded, the last one wins. -/
theorem exists_lastWins :
    (∀ scope, Shared (fun _ : Bool => memoryStore) scope fun lists list => lists.get scope = list) ∧
    (∀ {files : Bool → SettingsFiles} {scope : Scope} {path : String}, (∀ p, (files p).path? scope = some path) →
      Shared (fun p => (files p).store) scope fun t list =>
        ∃ l, Layer.ofFile t path = .ok l ∧ l.excludeRules.getD [] = list) ∧
    ∀ {σ : Type} {stores : Bool → Store σ} {scope : Scope} {holds : σ → List String → Prop},
      Shared stores scope holds → ∀ {s : σ} {list : List String}, holds s list →
      ∀ (rule : Bool → String) (schedule : List Bool),
        (∀ p, ∃ answer, (run stores scope rule schedule (start s)).stage p = .answered (.ok answer)) →
        ∃ p stored, holds (run stores scope rule schedule (start s)).state stored ∧
          LastWins list rule schedule p stored := by
  refine ⟨shared_memory, shared_files, fun {σ stores scope holds} shared {s list} here rule schedule answered => ?_⟩
  have together : Follows holds (start s) (start list : Race (List String) Bool) := ⟨here, rfl⟩
  have follows := together.run shared fun p e failed => by
    obtain ⟨answer, ok⟩ := answered p
    cases ok.symm.trans failed
  have twice (p : Bool) : 2 ≤ schedule.count p := by
    obtain ⟨answer, ok⟩ := answered p
    have steps := steps_run scope rule schedule (start list) p
    rw [← follows.stage, ok] at steps
    simp only [start, Stage.steps] at steps
    omega
  obtain ⟨p, last⟩ := exists_behind twice
  exact ⟨p, _, follows.state, lastWins_state_run scope rule last list⟩

/-- Two rules that are new, for a list in memory. -/
def twoRules (p : Bool) : String := if p then "L003" else "L005"

/-- One call reads, the other one reads and writes, and the first one writes. -/
theorem answered_overlapping (p : Bool) : ∃ answer, (run (fun _ => memoryStore) .global twoRules
    [true, false, false, true] (start ⟨["L001"], []⟩)).stage p = .answered (.ok answer) := by
  cases p
  · exact ⟨Rule.exclude ["L001"] "L005", rfl⟩
  · exact ⟨Rule.exclude ["L001"] "L003", rfl⟩

/-- The calls overlap, and beside the old rule one of the two is stored. The processes share one path. -/
theorem exists_lastWins_overlapping :
    (∃ p stored, LastWins ["L001"] twoRules [true, false, false, true] p stored ∧
      (run (fun _ => memoryStore) .global twoRules [true, false, false, true] (start ⟨["L001"], []⟩)).state.get .global =
        stored) ∧
    Shared (fun p : Bool => (⟨some "/c/config.toml", if p then some "/w/.sqlfluff-lsp.toml" else none⟩ : SettingsFiles).store)
      .global fun t list => ∃ l, Layer.ofFile t "/c/config.toml" = .ok l ∧ l.excludeRules.getD [] = list := by
  obtain ⟨memory, files, race⟩ := exists_lastWins
  obtain ⟨p, stored, holds, wins⟩ := race (memory .global) (s := ⟨["L001"], []⟩) rfl twoRules _ answered_overlapping
  exact ⟨⟨p, stored, wins, holds⟩, files fun _ => rfl⟩

/-- Both calls have succeeded, and the rule of one of them is not stored. -/
theorem not_mem_of_overlapping : ¬ ∀ (lists : RuleLists) (rule : Bool → String) (schedule : List Bool),
    (∀ p, ∃ answer, (run (fun _ => memoryStore) .global rule schedule (start lists)).stage p = .answered (.ok answer)) →
    ∀ p, rule p ∈ (run (fun _ => memoryStore) .global rule schedule (start lists)).state.get .global := by
  intro kept
  have lost : "L005" ∈ Rule.exclude ["L001"] "L003" := kept _ _ _ answered_overlapping false
  rw [Rule.mem_exclude] at lost
  exact absurd lost (by decide)

end Two

end Race

end SqlLint.Store
