import SqlLint.Proofs.Linter.Arguments
import SqlLint.Proofs.Server.Run
import SqlLint.Proofs.Settings.Exclusions

/-! # Excluded rules stay excluded

Once a rule was excluded by a command, one of the settings files leaves it out. Nothing that the server does
changes that, so the linter is told to leave the rule out whenever it is called. -/
namespace SqlLint
open Relation Server

/-- Every invocation leaves out what the settings leave out. -/
theorem Invocation.Under.excludes {s : Settings} {i : Invocation} (under : i.Under s) {rule : String}
    (hr : rule ∈ s.excludeRules) (hn : ',' ∉ rule.toList) : Linter.Excludes i.arguments rule := by
  cases under with
  | lint text file directory => exact Linter.excludes_filters hr hn Linter.report (Linter.fromInput file)
  | fix text file directory => exact Linter.excludes_filters hr hn ["fix"] (Linter.fromInput file)
  | path path directory => exact Linter.excludes_filters hr hn Linter.report [path]

namespace Session

variable {rule : String} {s s' : Session} {e : Environment}

/-- A rule is excluded for good: one of the settings files leaves it out, by whichever of the paths the file is
reached. The session has started, so that the paths are settled. -/
structure IsExcluded (rule : String) (s : Session) : Prop where
  started : s.server.phase ≠ .waiting
  file : ∃ path ∈ settingsPaths s.server, SettingsFiles.Excludes s.tree path rule ∧
    ∀ other ∈ settingsPaths s.server, Path.place s.tree.here path = Path.place s.tree.here other →
      Path.IsTaken other → SettingsFiles.Excludes s.tree other rule

theorem mem_settingsPaths {s : Server} {path : String} :
    path ∈ settingsPaths s ↔ ∃ scope, (settingsFiles s).path? scope = some path := by
  have h : path ∈ settingsPaths s ↔ s.globalFile = some path ∨ s.root.map Settings.workspacePath = some path := by
    simp [settingsPaths]
  rw [h]
  constructor
  · rintro (hg | hw)
    · exact ⟨.global, hg⟩
    · exact ⟨.workspace, hw⟩
  · rintro ⟨scope, hs⟩
    cases scope with
    | global => exact .inl hs
    | workspace => exact .inr hs

/-- What is excluded for good is left out by the settings in force. -/
theorem IsExcluded.settings (h : IsExcluded rule s) : rule ∈ (Server.settings s.server s.tree).excludeRules := by
  obtain ⟨path, hp, hf, -⟩ := h.file
  obtain ⟨l, hl, hm⟩ := hf.ofFile
  refine Settings.mem_resolve.2 ⟨l, List.mem_append_left _ ?_, hm⟩
  refine List.mem_filterMap.2 ⟨Layer.ofFile s.tree path, List.mem_map.2 ⟨path, hp, rfl⟩, ?_⟩
  rw [hl]
  rfl

theorem IsExcluded.of_same (h : IsExcluded rule s) (phase : s'.server.phase ≠ .waiting)
    (paths : settingsPaths s'.server = settingsPaths s.server) (tree : s'.tree = s.tree) : IsExcluded rule s' := by
  refine ⟨phase, ?_⟩
  rw [paths, tree]
  exact h.file

/-- Adding another rule to one of the lists takes none away. -/
theorem IsExcluded.exclude (h : IsExcluded rule s) (scope : Scope) (added : String) :
    IsExcluded rule { s with tree := (((settingsFiles s.server).store.exclude scope added).run s.tree).2 } := by
  have adding := SettingsFiles.adding_exclude (settingsFiles s.server) scope added s.tree
  have here := SettingsFiles.here_adding adding
  obtain ⟨path, hp, hf, shared⟩ := h.file
  refine ⟨h.started, path, hp, ?_, fun other ho same taken => ?_⟩
  · exact hf.adding (fun target ht => shared target (mem_settingsPaths.2 ⟨scope, ht⟩)) adding
  · have same' : Path.place s.tree.here path = Path.place s.tree.here other := here ▸ same
    exact (shared other ho same' taken).adding
      (fun target ht hs => shared target (mem_settingsPaths.2 ⟨scope, ht⟩) (same'.trans hs)) adding

theorem IsExcluded.turn (h : IsExcluded rule s) (ht : Turn e s s') : IsExcluded rule s' := by
  cases ht with
  | sync => exact h.of_same h.started rfl rfl
  | release => exact h.of_same h.started rfl rfl
  | move hm =>
    cases hm with
    | exclude scope added => exact h.exclude scope added
    | _ => exact h.of_same h.started rfl rfl

theorem IsExcluded.turns (h : IsExcluded rule s) (ht : ReflTransGen (Turn e) s s') : IsExcluded rule s' := by
  induction ht with
  | refl => exact h
  | tail _ ht ih => exact ih.turn ht

/-- Others leave the settings files as they are, and do not take the room for them away. -/
structure Leaves (s : Session) (t : Tree) : Prop where
  here : t.here = s.tree.here
  texts : ∀ path ∈ settingsPaths s.server, t.readText path = s.tree.readText path
  room : ∀ path ∈ settingsPaths s.server, s.tree.HasRoom path → t.HasRoom path

/-- Nobody but the server writes the settings files. -/
def Undisturbed : Session → List Input → Prop
  | _, [] => True
  | s, .files t :: inputs => s.Leaves t ∧ Undisturbed (s.step (.files t)) inputs
  | s, i :: inputs => Undisturbed (s.step i) inputs

theorem Leaves.excludes {t : Tree} (leaves : s.Leaves t) {path : String} (hp : path ∈ settingsPaths s.server)
    (h : SettingsFiles.Excludes s.tree path rule) : SettingsFiles.Excludes t path rule := by
  obtain ⟨⟨text, l, hr, hl, hm⟩, room⟩ := h
  exact ⟨⟨text, l, (leaves.texts path hp).trans hr, hl, hm⟩, leaves.room path hp room⟩

theorem IsExcluded.files {t : Tree} (h : IsExcluded rule s) (leaves : s.Leaves t) :
    IsExcluded rule { s with tree := t } := by
  obtain ⟨path, hp, hf, shared⟩ := h.file
  exact ⟨h.started, path, hp, leaves.excludes hp hf, fun other ho hs taken =>
    leaves.excludes ho (shared other ho (leaves.here ▸ hs) taken)⟩

theorem IsExcluded.heard (h : IsExcluded rule s) {i : Input} (leaves : ∀ t, i = .files t → s.Leaves t) :
    IsExcluded rule (s.heard i) := by
  cases i with
  | files t => exact h.files (leaves t rfl)
  | request r e =>
    rw [heard_request]
    cases r with
    | start p => exact (if_neg h.started).symm ▸ h
    | stop =>
      simp only [Request.starts, Bool.false_eq_true, if_false]
      split
      · exact h.of_same (by simp [Request.deed]) rfl rfl
      · exact h
    | _ =>
      simp only [Request.starts, Bool.false_eq_true, if_false]
      split <;> exact h
  | notification n e =>
    by_cases last : n = .exit
    · subst last
      exact h.of_same (by simp [Session.heard]) rfl rfl
    · rw [heard_notification last]
      split
      · obtain ⟨documents, active, client, phase, hp, hd⟩ := deed_eq n s.server
        rw [hd]
        refine h.of_same ?_ rfl rfl
        rcases hp with rfl | rfl
        · exact h.started
        · exact Phase.noConfusion
      · exact h

theorem IsExcluded.step (h : IsExcluded rule s) {i : Input} (leaves : ∀ t, i = .files t → s.Leaves t) :
    IsExcluded rule (s.step i) := by
  rcases step_turn s i with hs | ⟨e, -, ht⟩
  · exact hs.symm ▸ h.heard leaves
  · exact (h.heard leaves).turns ht

theorem IsExcluded.run (h : IsExcluded rule s) {inputs : List Input} (undisturbed : s.Undisturbed inputs) :
    IsExcluded rule (s.run inputs) := by
  induction inputs generalizing s with
  | nil => exact h
  | cons i inputs ih =>
    cases i with
    | files t => exact ih (h.step fun t' ht => by cases ht; exact undisturbed.1) undisturbed.2
    | request r e => exact ih (h.step (by intro t ht; cases ht)) undisturbed
    | notification n e => exact ih (h.step (by intro t ht; cases ht)) undisturbed

/-- Whenever the linter is called, it is told to leave out what is excluded for good. -/
theorem IsExcluded.sent (h : IsExcluded rule s) (hn : ',' ∉ rule.toList) {i : Input} {inv : Invocation}
    {started : Bool} (hs : .run inv started ∈ s.sent i) : Linter.Excludes inv.arguments rule := by
  obtain ⟨e, m, answers, ht, under⟩ := under_of_mem_sent hs
  have leaves : ∀ t, i = .files t → s.Leaves t := by
    rintro t rfl
    cases answers
  exact under.excludes ((h.heard leaves).turns ht).settings hn

end Session

namespace Server
open Session

variable {rule : String} {scope : Scope} {s : Session} {e : Environment} {more : List Json}

theorem parse_excludeRule (scope : Scope) (more : List Json) (hr : rule.isEmpty = false) :
    Command.parse (Command.id (.excludeRule rule scope)) (.string rule :: more) = .ok (.excludeRule rule scope) := by
  cases scope <;> simp [Command.id, Command.parse, Command.ruleArgument, hr, Except.map]

theorem parse_excludeRule_empty (scope : Scope) (more : List Json) (hr : rule.isEmpty = true) :
    ∃ f, Command.parse (Command.id (.excludeRule rule scope)) (.string rule :: more) = .error f := by
  cases scope <;> simp [Command.id, Command.parse, Command.ruleArgument, hr, Except.map]

theorem exclude_apply (e : Environment) {t : Tree} {r : Except SettingsError (List String)}
    (hx : ((settingsFiles s.server).store.exclude scope rule).run s.tree = (r, t)) :
    (exclude scope rule).run e s = (r.mapError .settings, { s with tree := t }) := by
  unfold Server.exclude
  change (Except.mapError CommandError.settings (((settingsFiles s.server).store.exclude scope rule).run s.tree).1,
    { s with tree := (((settingsFiles s.server).store.exclude scope rule).run s.tree).2 }) = _
  rw [hx]

theorem dispatch_excludeRule (e : Environment) {t : Tree} {r : Except SettingsError (List String)}
    (hx : ((settingsFiles s.server).store.exclude scope rule).run s.tree = (r, t)) :
    (workbench.dispatch exclude (.excludeRule rule scope)).run e s =
      ((r.mapError .settings).map some, { s with tree := t }) := by
  rw [Workbench.dispatch, ExceptT.run_map, Handler.map_apply, exclude_apply e hx]

theorem executeCommand_refused {name : String} {arguments : List Json} {f : CommandError}
    (hp : Command.parse name arguments = .error f) (e : Environment) (s : Session) :
    executeCommand name arguments e s = (.error (rpcError f), s) := by
  rw [executeCommand, hp]
  rfl

/-- A command that fails leaves behind what was done till then and a message. -/
theorem executeCommand_failed {name : String} {arguments : List Json} {command : Command} {f : CommandError}
    {s' : Session} (hp : Command.parse name arguments = .ok command)
    (run : (workbench.dispatch exclude command).run e s = (.error f, s')) :
    executeCommand name arguments e s = (.error (rpcError f),
      s'.emit [.log .error ("Command " ++ name ++ " failed: " ++ f.message)]) := by
  rw [executeCommand, hp]
  dsimp only
  rw [Handler.bind_apply, run]
  rfl

/-- After an exclusion all open documents are linted again. -/
theorem executeCommand_excluded {name : String} {arguments : List Json} {command : Command}
    {answer : Option (List String)} {s' : Session} (hp : Command.parse name arguments = .ok command)
    (excludes : Command.excludes command = true)
    (run : (workbench.dispatch exclude command).run e s = (.ok answer, s')) :
    executeCommand name arguments e s = (.ok answer, (lintOpenDocuments e s').2) := by
  rw [executeCommand, hp]
  dsimp only
  rw [Handler.bind_apply, run]
  dsimp only
  rw [if_pos excludes]
  rfl

/-- A command that excludes a rule and is answered without an error excludes it for good. -/
theorem isExcluded_of_executeCommand (started : s.server.phase ≠ .waiting)
    (shows : ∀ path, (settingsFiles s.server).path? scope = some path → ∀ other ∈ settingsPaths s.server,
      s.tree.Shows path other) {answer : Option (List String)}
    (ok : (executeCommand (Command.id (.excludeRule rule scope)) (.string rule :: more) e s).1 = .ok answer) :
    IsExcluded rule (executeCommand (Command.id (.excludeRule rule scope)) (.string rule :: more) e s).2 := by
  cases hr : rule.isEmpty with
  | true =>
    obtain ⟨f, hf⟩ := parse_excludeRule_empty scope more hr
    rw [executeCommand_refused hf] at ok
    cases ok
  | false =>
    have adding := SettingsFiles.adding_exclude (settingsFiles s.server) scope rule s.tree
    have dispatched (r t) := @dispatch_excludeRule rule scope s e t r
    generalize ((settingsFiles s.server).store.exclude scope rule).run s.tree = outcome at adding dispatched
    obtain ⟨r, t⟩ := outcome
    have parsed := parse_excludeRule scope more hr
    cases r with
    | error f =>
      rw [executeCommand_failed parsed (dispatched (.error f) t rfl)] at ok
      cases ok
    | ok list =>
      have excluded : IsExcluded rule { s with tree := t } := by
        obtain ⟨path, hp, hf⟩ := SettingsFiles.excludes_of_adding adding
        have here : t.here = s.tree.here := SettingsFiles.here_adding adding
        refine ⟨started, path, mem_settingsPaths.2 ⟨scope, hp⟩, hf, fun other ho same taken => ?_⟩
        have same' : Path.place s.tree.here path = Path.place s.tree.here other := by
          rw [← here]
          exact same
        exact adding.shown hf (shows path hp other ho) same' taken
      rw [executeCommand_excluded parsed rfl (dispatched (.ok list) t rfl)]
      exact excluded.turns (Turn.of_moves (e := e) (tasks_lintOpenDocuments.moves e _))

/-- Requests other than the first one are answered only while the session runs. -/
theorem answer_of_ok {r : Request} (ok : (request r e s).1.isOk = true) :
    refusal? s.server.phase (Request.starts r) = none ∧ request r e s = answer r e s := by
  rw [request_apply] at ok ⊢
  cases hr : refusal? s.server.phase (Request.starts r) with
  | some refusal =>
    rw [hr] at ok
    cases ok
  | none => exact ⟨rfl, rfl⟩

/-- The request of the editor to leave a rule out. -/
def excluding (rule : String) (scope : Scope) (more : List Json) : Request :=
  .executeCommand (Command.id (.excludeRule rule scope)) (.string rule :: more)

/-- From the answer to the command on, the rule is left out whenever the linter is called, whatever else
happens. -/
theorem excludes_of_command (s : Session) (e : Environment) (rule : String) (scope : Scope) (more : List Json)
    (ok : (request (excluding rule scope more) e s).1.isOk = true)
    (comma : ',' ∉ rule.toList)
    (shows : ∀ path, (settingsFiles s.server).path? scope = some path → ∀ other ∈ settingsPaths s.server,
      s.tree.Shows path other)
    {after : List Input} (undisturbed : (s.step (.request (excluding rule scope more) e)).Undisturbed after)
    {i : Input} {inv : Invocation} {started : Bool}
    (calls : .run inv started ∈ ((s.step (.request (excluding rule scope more) e)).run after).sent i) :
    Linter.Excludes inv.arguments rule := by
  obtain ⟨heard, answered⟩ := answer_of_ok ok
  have running : s.server.phase ≠ .waiting := by
    intro h
    rw [h] at heard
    cases heard
  have excluded : IsExcluded rule (s.step (.request (excluding rule scope more) e)) := by
    rw [answered, excluding, answer, Handler.bind_apply] at ok
    rw [step, answered, excluding, answer, Handler.bind_apply]
    cases hx : (executeCommand (Command.id (.excludeRule rule scope)) (.string rule :: more) e s).1 with
    | ok list => exact isExcluded_of_executeCommand running shows hx
    | error f =>
      rw [hx] at ok
      cases ok
  exact (excluded.run undisturbed).sent comma calls

/-- A session that has started in a workspace, where the file of all sessions is `/w/.sqlfluff-lsp.toml`. -/
def startedIn (root : String) : Session :=
  (Session.fresh (some "/w/.sqlfluff-lsp.toml") (.empty ["w"])).run
    [.request (.start ⟨[], some ⟨"file://" ++ root, root.toList⟩, none, false⟩) (.granting "[]")]

/-- Another rule is excluded in the workspace. -/
def excludedNext : List Input := [.request (excluding "LT02" .workspace []) (.granting "[]")]

def opening : Input := .notification (.opened ⟨"untitled:a", []⟩ "sql" []) (.granting "[]")

def lintedWithout (rules : String) (root : String) : Invocation where
  executable := "sqlfluff"
  arguments := ["lint", "--format", "json", "--exclude-rules", rules, "-"]
  directory := some root
  input := some ""
  limit := some 30

theorem excludes_of_command_workspace :
    Linter.Excludes (lintedWithout "LT01,LT02" "/w/sub").arguments "LT01" := by
  have calls : .run (lintedWithout "LT01,LT02" "/w/sub") true ∈ (((startedIn "/w/sub").step
      (.request (excluding "LT01" .global []) (.granting "[]"))).run excludedNext).sent opening := by
    decide +kernel
  refine excludes_of_command (startedIn "/w/sub") (.granting "[]") "LT01" .global [] (by decide +kernel)
    (by decide) ?_ ?_ calls
  · have all : settingsFiles (startedIn "/w/sub").server =
        ⟨some "/w/.sqlfluff-lsp.toml", some "/w/sub/.sqlfluff-lsp.toml"⟩ := by decide +kernel
    intro path hp
    rw [all] at hp
    obtain rfl := Option.some.inj hp
    decide +kernel
  · exact trivial

/-- A rule is lost where the workspace's path leads to the file of all sessions through a directory that is made
only when the workspace's list is written: until then no file is found there. -/
theorem not_excludes_of_command :
    ¬ ∀ (globalFile : Option String) (t : Tree) (before after : List Input) (s : Session) (e : Environment)
      (rule : String) (scope : Scope) (more : List Json) (i : Input) (inv : Invocation) (started : Bool),
        s = (Session.fresh globalFile t).run before →
        (request (excluding rule scope more) e s).1.isOk = true → ',' ∉ rule.toList →
        (s.step (.request (excluding rule scope more) e)).Undisturbed after →
        .run inv started ∈ ((s.step (.request (excluding rule scope more) e)).run after).sent i →
          Linter.Excludes inv.arguments rule := by
  intro h
  have lost : .run (lintedWithout "LT02" "/w/gone/..") true ∈ (((startedIn "/w/gone/..").step
      (.request (excluding "LT01" .global []) (.granting "[]"))).run excludedNext).sent opening := by
    decide +kernel
  have kept := h _ _ _ excludedNext (startedIn "/w/gone/..") (.granting "[]") "LT01" .global [] opening _
    true rfl (by decide +kernel) (by decide) trivial lost
  revert kept
  decide

end Server
end SqlLint
