import SqlLint.CommandLine
import SqlLint.Proofs.Server.Failures

/-! # Exclusions that fail

Whatever keeps a rule from being added to a list, no file is touched: everything is read and understood before
anything is done, and of what is done only the last step concerns a file. Up to that step directories may have been
made. Only if the last step itself is broken off, because there is no room, the file has been opened to be written
and is left without a text. -/
namespace SqlLint

namespace CommandLine

variable {vars : Variables} {here : String} {r : Request} {t : Tree}

/-- The scope that a rule is added to. -/
def scopeOf (inWorkspace : Bool) : Scope := if inWorkspace then .workspace else .global

/-- On the command line an exclusion succeeds with the list, or it fails without a word. -/
theorem perform_excludeRule (vars : Variables) (here rule : String) (inWorkspace : Bool) (root config : Option String)
    (t : Tree) : perform vars here ⟨.excludeRule rule inWorkspace root, config⟩ t =
      match (excludeFiles vars ⟨.excludeRule rule inWorkspace root, config⟩ here inWorkspace root).store.exclude
        (scopeOf inWorkspace) rule t with
      | (.ok rules, t') => (⟨0, lines rules⟩, t')
      | (.error _, t') => (⟨1, ""⟩, t') := by
  rw [perform, scopeOf]
  dsimp only
  generalize (excludeFiles vars _ here inWorkspace root).store.exclude _ rule = exclusion
  change (StateT.bind exclusion _ : StateM Tree Outcome) t = _
  rw [StateT.bind]
  obtain ⟨e | rules, u⟩ := exclusion t <;> rfl

/-- A command that does not exit with success leaves nothing behind but directories, or the file of a list without
its text. -/
theorem cases_of_perform (h : (perform vars here r t).1.exit ≠ 0) :
    Tree.Adds (fun _ => True) t (perform vars here r t).2 ∨
      ∃ rule inWorkspace root path, r.action = .excludeRule rule inWorkspace root ∧
        (excludeFiles vars r here inWorkspace root).path? (scopeOf inWorkspace) = some path ∧
        t.Empties path (perform vars here r t).2 := by
  obtain ⟨action, config⟩ := r
  cases action with
  | serve => exact .inl (.refl _ t)
  | showDocumentation rule => exact .inl (.refl _ t)
  | excludeRule rule inWorkspace root =>
    rw [perform_excludeRule] at h ⊢
    have adding := SettingsFiles.adding_exclude
      (excludeFiles vars ⟨.excludeRule rule inWorkspace root, config⟩ here inWorkspace root) (scopeOf inWorkspace) rule t
    change SettingsFiles.Adding _ _ _ t (Store.exclude _ _ _ t) at adding
    generalize Store.exclude _ _ _ t = answer at h adding ⊢
    obtain ⟨e | rules, t'⟩ := answer
    · rcases adding.cases_of_error with made | ⟨path, found, -, empties⟩
      · exact .inl made
      · exact .inr ⟨rule, inWorkspace, root, path, rfl, found, empties⟩
    · exact absurd rfl h

end CommandLine

/-- A failed exclusion changes no file, whatever it fails for, unless the write of the file is broken off. That is so
for each list of each pair of settings files, and so for the command line, where failure is an exit code, and for the
server, where it is an error that the command is answered with. What is there stays, and what is new is a directory.
If there is no room for the file, the write leaves this one file without a text. -/
theorem sameFiles_of_failed_exclusion :
    (∀ (files : SettingsFiles) (scope : Scope) (rule : String) (t t' : Tree) (e : SettingsError),
      files.store.exclude scope rule t = (.error e, t') →
        (t.SameFiles t' ∧ t.Adds (fun _ => True) t') ∨
          ∃ path, files.path? scope = some path ∧ e = .io IoError.noSpace.message ∧ t.Empties path t') ∧
    (∀ (vars : CommandLine.Variables) (here : String) (r : CommandLine.Request) (t : Tree),
      (CommandLine.perform vars here r t).1.exit ≠ 0 →
        t.SameFiles (CommandLine.perform vars here r t).2 ∨
          ∃ rule inWorkspace root path, r.action = .excludeRule rule inWorkspace root ∧
            (CommandLine.excludeFiles vars r here inWorkspace root).path? (CommandLine.scopeOf inWorkspace) = some path ∧
            t.Empties path (CommandLine.perform vars here r t).2) ∧
    ∀ (scope : Scope) (rule : String) (e : Environment) (s : Session) (failure : CommandError),
      ((Server.exclude scope rule).run e s).1 = .error failure →
        s.tree.SameFiles ((Server.exclude scope rule).run e s).2.tree ∨
          ∃ path, (Server.settingsFiles s.server).path? scope = some path ∧
            failure = .settings (.io IoError.noSpace.message) ∧
            s.tree.Empties path ((Server.exclude scope rule).run e s).2.tree := by
  refine ⟨fun files scope rule t t' e h => ?_, fun vars here r t h => ?_, fun scope rule e s failure h => ?_⟩
  · have adding := SettingsFiles.adding_exclude files scope rule t
    change SettingsFiles.Adding files scope rule t (files.store.exclude scope rule t) at adding
    rw [h] at adding
    exact adding.cases_of_error.imp_left fun made => ⟨made.sameFiles, made⟩
  · exact (CommandLine.cases_of_perform h).imp_left Tree.Adds.sameFiles
  · obtain ⟨r, t', hx⟩ : ∃ r t', ((Server.settingsFiles s.server).store.exclude scope rule).run s.tree = (r, t') :=
      ⟨_, _, rfl⟩
    rw [Server.exclude_apply e hx] at h ⊢
    have adding := SettingsFiles.adding_exclude (Server.settingsFiles s.server) scope rule s.tree
    rw [hx] at adding
    cases r with
    | ok list => cases h
    | error f =>
      cases h
      rcases adding.cases_of_error with made | ⟨path, found, rfl, empties⟩
      · exact .inl made.sameFiles
      · exact .inr ⟨path, found, rfl, empties⟩

/-- A tree with a file that is not written. -/
def lonelyFile : Tree := (Tree.empty []).put ["f"] (.file (.text "dialect = 'ansi'\n") .fixed)

/-- A settings file whose directories cannot all be made: on its way, behind one that can be made, there is a file. -/
def behindFile : String := "new/../f/x.toml"

def excludeBehindFile : CommandLine.Request := ⟨.excludeRule "A" false none, some behindFile⟩

def sessionBehindFile : Session := ⟨{ globalFile := some behindFile }, lonelyFile, []⟩

/-- A directory is made, and then there is no way on. And where the way leads to the file, this is not written. -/
theorem sameFiles_of_failed_exclusion_behind_file :
    (∃ t', (⟨some behindFile, none⟩ : SettingsFiles).store.exclude .global "A" lonelyFile =
      (.error (.io IoError.alreadyExists.message), t') ∧
      lonelyFile.SameFiles t' ∧ lonelyFile.node? ["new"] = none ∧ t'.node? ["new"] = some .directory) ∧
    (∃ t', (⟨some "f", none⟩ : SettingsFiles).store.exclude .global "A" lonelyFile =
      (.error (.io IoError.permissionDenied.message), t') ∧ lonelyFile.SameFiles t') ∧
    (CommandLine.perform ⟨none, none⟩ "/" excludeBehindFile lonelyFile).1.exit = 1 ∧
    lonelyFile.SameFiles (CommandLine.perform ⟨none, none⟩ "/" excludeBehindFile lonelyFile).2 ∧
    ∃ failure, ((Server.exclude .global "A").run (.granting "") sessionBehindFile).1 = .error failure ∧
      lonelyFile.SameFiles ((Server.exclude .global "A").run (.granting "") sessionBehindFile).2.tree := by
  obtain ⟨stores, line, server⟩ := sameFiles_of_failed_exclusion
  have unfilled {t' : Tree} (h : ∀ runs, t'.node? (Path.place [] behindFile) ≠ some (.file (.text "") .full runs)) :
      ¬ lonelyFile.Empties behindFile t' := by
    intro empties
    obtain ⟨runs, full⟩ := empties.node?_eq
    exact h runs full
  have behind : ((⟨some behindFile, none⟩ : SettingsFiles).store.exclude .global "A" lonelyFile).1 =
      .error (.io IoError.alreadyExists.message) := by
    decide +kernel
  have refused : ((⟨some "f", none⟩ : SettingsFiles).store.exclude .global "A" lonelyFile).1 =
      .error (.io IoError.permissionDenied.message) := by
    decide +kernel
  have exit : (CommandLine.perform ⟨none, none⟩ "/" excludeBehindFile lonelyFile).1.exit = 1 := by decide +kernel
  have answered : ((Server.exclude .global "A").run (.granting "") sessionBehindFile).1 =
      .error (.settings (.io IoError.alreadyExists.message)) := by
    change ((⟨some behindFile, none⟩ : SettingsFiles).store.exclude .global "A" lonelyFile).1.mapError _ = _
    rw [behind]
    rfl
  refine ⟨⟨_, Prod.ext behind rfl, ?_, by decide +kernel, by decide +kernel⟩, ⟨_, Prod.ext refused rfl, ?_⟩, exit, ?_,
    _, answered, ?_⟩
  · rcases stores _ _ _ _ _ _ (Prod.ext behind rfl) with same | ⟨path, -, full, -⟩
    · exact same.1
    · exact absurd full (by decide)
  · rcases stores _ _ _ _ _ _ (Prod.ext refused rfl) with same | ⟨path, -, full, -⟩
    · exact same.1
    · exact absurd full (by decide)
  · rcases line _ _ _ _ (by rw [exit]; decide) with same | ⟨rule, inWorkspace, root, path, action, found, empties⟩
    · exact same
    · cases action
      obtain rfl : behindFile = path := Option.some.inj found
      exact absurd empties (unfilled (by decide +kernel))
  · rcases server _ _ _ _ _ answered with same | ⟨path, -, full, -⟩
    · exact same
    · exact absurd full (by decide)

end SqlLint
