import SqlLint.Proofs.Server.Moves

/-! # Tasks of the server

The moves of the server are told more closely here, by what they are for. An errand leaves everything as it
is: the server tells the editor something, asks it for something or calls the linter. A task is an errand, or
the linter is called and the findings of its report are published, or a rule is added to a settings file. -/
namespace SqlLint
open Relation

/-- What the server does without any change of its own state or of the files. -/
inductive Errand (e : Environment) (s : Session) : Session → Prop
  | log (kind : LogKind) (message : String) : Errand e s (s.emit [.log kind message])
  | ask (r : EditorRequest) (other : r.isRegistration = false) : Errand e s (s.emit [.request r])
  | run (i : Invocation) (under : i.Under (Server.settings s.server s.tree)) :
    Errand e s (s.emit [.run i (i.obstacle? e.programs s.tree).isNone])

/-- The server keeps findings and publishes them. The findings of an open document are placed in its text. -/
inductive Publication (s : Session) : Session → Prop
  | publish (uri : String) (violations : List Violation) (text : List Char)
    (placed : ∀ d, s.server.document? uri = some d → text = d.text) :
    Publication s (({ s with server := Server.setViolations uri violations s.server }).emit
      [.publish uri (Server.diagnostics violations text)])

/-- What the server does on its own for one purpose. -/
inductive Task (e : Environment) (s : Session) : Session → Prop
  | errand {s' : Session} (h : Errand e s s') : Task e s s'
  | report {s' : Session} {i : Invocation} {reports : List FileReport}
    (under : i.Under (Server.settings s.server s.tree))
    (valid : (Linter.run e.programs s.tree i).bind Linter.reports = .ok reports)
    (published : ReflTransGen Publication (s.emit [.run i (i.obstacle? e.programs s.tree).isNone]) s') :
    Task e s s'
  | exclude (scope : Scope) (rule : String) :
    Task e s { s with tree := (((Server.settingsFiles s.server).store.exclude scope rule).run s.tree).2 }

/-- What the server does on its turn: tasks and the bookkeeping of its providers. -/
inductive Act (e : Environment) (s : Session) : Session → Prop
  | task {s' : Session} (h : Task e s s') : Act e s s'
  | sync : Act e s (Server.synced e s)
  | release : Act e s (Server.released s)

section Moves

variable {e : Environment} {s s' : Session}

theorem Errand.move (h : Errand e s s') : Move s s' := by
  cases h with
  | log kind message => exact .log s kind message
  | ask r other => exact .ask s r other
  | run i under => exact .run s i _ under

theorem Publication.move (h : Publication s s') : Move s s' := by
  cases h with
  | publish uri violations text placed => exact .publish s uri violations text

theorem Task.moves (h : Task e s s') : ReflTransGen Move s s' := by
  cases h with
  | errand h => exact .single h.move
  | report under valid published =>
    exact .head (.run s _ _ under) (ReflTransGen.mono (fun _ _ => Publication.move) _ _ published)
  | exclude scope rule => exact .single (.exclude s scope rule)

theorem Act.turns (h : Act e s s') : ReflTransGen (Turn e) s s' := by
  cases h with
  | task h => exact Turn.of_moves h.moves
  | sync => exact .single (.sync s)
  | release => exact .single (.release s)

theorem moves_of_tasks (h : ReflTransGen (Task e) s s') : ReflTransGen Move s s' :=
  h.lift' id fun _ _ => Task.moves

theorem turns_of_acts (h : ReflTransGen (Act e) s s') : ReflTransGen (Turn e) s s' :=
  h.lift' id fun _ _ => Act.turns

theorem acts_of_tasks (h : ReflTransGen (Task e) s s') : ReflTransGen (Act e) s s' :=
  ReflTransGen.mono (fun _ _ => Act.task) s s' h

theorem tasks_of_errands (h : ReflTransGen (Errand e) s s') : ReflTransGen (Task e) s s' :=
  ReflTransGen.mono (fun _ _ => Task.errand) s s' h

/-- The server has only talked to the editor, and the documents are what they were. -/
structure Session.Calm (s s' : Session) : Prop where
  documents : s'.server.documents = s.server.documents
  events : ∃ sent, s'.events = s.events ++ sent ∧ ∀ event ∈ sent, event.isTalk = true

/-- In an act the server talks to the editor, or it calls the linter and no more, or it calls the linter and
publishes what a valid report holds. -/
theorem Act.cases (h : Act e s s') :
    s.Calm s' ∨
    (∃ i : Invocation, s' = s.emit [.run i (i.obstacle? e.programs s.tree).isNone]) ∨
    ∃ (i : Invocation) (reports : List FileReport),
      (Linter.run e.programs s.tree i).bind Linter.reports = .ok reports ∧
      ReflTransGen Publication (s.emit [.run i (i.obstacle? e.programs s.tree).isNone]) s' := by
  cases h with
  | sync => exact .inl ⟨rfl, _, rfl, Server.isTalk_syncEvents e s⟩
  | release => exact .inl ⟨rfl, _, rfl, Server.isTalk_requestFor _ _⟩
  | task h =>
    cases h with
    | exclude scope rule => exact .inl ⟨rfl, [], (List.append_nil _).symm, nofun⟩
    | report under valid published => exact .inr (.inr ⟨_, _, valid, published⟩)
    | errand h =>
      cases h with
      | log kind message => exact .inl ⟨rfl, _, rfl, by simp [Event.isTalk]⟩
      | ask r other => exact .inl ⟨rfl, _, rfl, by simp [Event.isTalk]⟩
      | run i under => exact .inr (.inl ⟨i, rfl⟩)

end Moves

namespace Handler

variable {α β : Type} {r : Environment → Session → Session → Prop}

/-- A handler that only takes steps of some kind. -/
def Steps (r : Environment → Session → Session → Prop) (h : Handler α) : Prop :=
  ∀ e s, ReflTransGen (r e) s (h e s).2

theorem Steps.tasks {h : Handler α} (hh : Steps Errand h) : Steps Task h := fun e s => tasks_of_errands (hh e s)

theorem Steps.moves {h : Handler α} (hh : Steps Task h) (e : Environment) (s : Session) :
    ReflTransGen Move s (h e s).2 := moves_of_tasks (hh e s)

theorem steps_pure (a : α) : Steps r (pure a : Handler α) := fun _ _ => .refl

theorem steps_bind {h : Handler α} {f : α → Handler β} (hh : Steps r h) (hf : ∀ a, Steps r (f a)) :
    Steps r (h >>= f) := by
  intro e s
  rw [bind_apply]
  exact (hh e s).trans (hf _ e _)

theorem steps_server : Steps r Handler.server := fun _ _ => .refl

theorem steps_forM {as : List α} {f : α → Handler Unit} (hf : ∀ a, Steps r (f a)) : Steps r (as.forM f) := by
  induction as with
  | nil => exact steps_pure ()
  | cons a as ih => exact steps_bind (hf a) fun _ => ih

theorem steps_log (kind : LogKind) (message : String) : Steps Errand (log kind message) :=
  fun _ _ => .single (.log kind message)

theorem steps_ask {r : EditorRequest} (other : r.isRegistration = false) : Steps Errand (ask r) :=
  fun _ _ => .single (.ask r other)

/-- A command is a handler that may fail on its way. -/
def Tries (r : Environment → Session → Session → Prop) (c : CommandM Handler α) : Prop := Steps r c.run

theorem tries_pure (a : α) : Tries r (pure a : CommandM Handler α) := steps_pure _

theorem tries_throw (e : CommandError) : Tries r (throw e : CommandM Handler α) := steps_pure _

theorem tries_lift {h : Handler α} (hh : Steps r h) : Tries r (h : CommandM Handler α) := hh

theorem tries_bind {c : CommandM Handler α} {f : α → CommandM Handler β} (hc : Tries r c)
    (hf : ∀ a, Tries r (f a)) : Tries r (c >>= f) := by
  have h : Steps r (c.run >>= ExceptT.bindCont f) := by
    refine steps_bind hc fun outcome => ?_
    cases outcome with
    | ok a => exact hf a
    | error e => exact steps_pure _
  exact h

end Handler

namespace Server
open Handler

variable {e : Environment} {s s' : Session}

/-- The warnings about settings files are nothing but messages. -/
theorem errands_settingsWarnings (e : Environment) (s : Session) :
    ReflTransGen (Errand e) s (s.emit (settingsWarnings s)) := by
  unfold settingsWarnings
  generalize (fileLayers s.tree (settingsPaths s.server)).2 = faults
  induction faults generalizing s with
  | nil => simp [ReflTransGen.refl]
  | cons f faults ih =>
    have h := (ReflTransGen.single (Errand.log .warning _)).trans
      (ih (s.emit [.log .warning ("Failed to load settings: " ++ f.message)]))
    simpa using h

theorem steps_loadSettings : Steps Errand loadSettings := by
  intro e s
  rw [loadSettings_apply]
  exact errands_settingsWarnings e s

/-! ## Linting -/

/-- What linting comes to: errands and nothing else, or a report that is published in the end. -/
inductive Linted (e : Environment) (s : Session) : Except LinterError Unit × Session → Prop
  | errands {r : Except LinterError Unit} {s' : Session} (h : ReflTransGen (Errand e) s s') : Linted e s (r, s')
  | report {m s' : Session} (h : ReflTransGen (Errand e) s m) (task : Task e m s') : Linted e s (.ok (), s')

theorem Linted.tasks {outcome : Except LinterError Unit × Session} (h : Linted e s outcome) :
    ReflTransGen (Task e) s outcome.2 := by
  cases h with
  | errands h => exact tasks_of_errands h
  | report h task => exact (tasks_of_errands h).tail task

/-- There are findings where the report is valid, and only there. -/
theorem violations_eq (output : Except LinterError String) : output.bind Linter.violations =
    (output.bind Linter.reports).map fun files => files.flatMap FileReport.violations := by
  cases output <;> rfl

theorem linted_lintDocument (uri : Uri) (e : Environment) (s : Session) : Linted e s (lintDocument uri e s) := by
  rw [lintDocument, bind_apply, server_apply]
  dsimp only
  cases hd : s.server.document? uri.text with
  | none => exact .errands (.single (.log _ _))
  | some d =>
    have warned := errands_settingsWarnings e s
    have under : (Linter.lintInvocation (settings s.server s.tree) (String.ofList d.text) uri.filePath? none).Under
        (settings s.server s.tree) := .lint ..
    simp only [bind_apply, loadSettings_apply, run_apply, violations_eq]
    generalize Linter.lintInvocation _ _ _ _ = i at under ⊢
    cases valid : (Linter.run e.programs (s.emit (settingsWarnings s)).tree i).bind Linter.reports with
    | error failure => exact .errands (warned.tail (.run i under))
    | ok reports =>
      refine .report warned (.report under valid (.single (.publish uri.text _ d.text fun other ho => ?_)))
      rw [Session.emit_server, Session.emit_server, hd] at ho
      cases ho
      rfl

/-- The findings of a file are placed in the text of its document, if that one is open. -/
theorem publications_publishReport (directory : String) (report : FileReport) :
    Steps (fun _ => Publication) (publishReport directory report) := by
  refine fun e s => ?_
  rw [publishReport, bind_apply, get_apply]
  dsimp only
  cases uriOf? s.tree (Path.join directory report.path) with
  | none => exact .refl
  | some uri =>
    refine .single (.publish uri.text _ _ fun d hd => ?_)
    rw [reportedText, hd]

theorem linted_lintProject (root : String) (e : Environment) (s : Session) : Linted e s (lintProject root e s) := by
  have told := (errands_settingsWarnings e s).tail (.log .info ("Linting project at " ++ root))
  rw [lintProject]
  simp only [bind_apply, loadSettings_apply, log_apply, run_apply]
  have under := Invocation.Under.path (s := settings s.server s.tree) root
    (some ((settings s.server s.tree).workingDirectory.getD root))
  generalize Linter.pathInvocation _ _ _ = i at under ⊢
  cases valid : (Linter.run e.programs
      ((s.emit (settingsWarnings s)).emit [.log .info ("Linting project at " ++ root)]).tree i).bind Linter.reports with
  | error failure => exact .errands (told.tail (.run i under))
  | ok reports => exact .report told (.report under valid (steps_forM (publications_publishReport _) e _))

theorem tasks_lintAndReport (uri : Uri) : Steps Task (lintAndReport uri) := by
  refine steps_bind (fun e s => (linted_lintDocument uri e s).tasks) fun r => ?_
  cases r with
  | ok _ => exact steps_pure _
  | error e => exact (steps_log _ _).tasks

theorem tasks_lintAll (uris : List String) : Steps Task (lintAll uris) := by
  refine steps_forM fun uri => ?_
  cases Uri.parse? uri with
  | some uri => exact tasks_lintAndReport uri
  | none => exact steps_pure _

theorem tasks_lintOpenDocuments : Steps Task lintOpenDocuments := by
  refine steps_bind steps_loadSettings.tasks fun settings => ?_
  split
  · exact steps_bind steps_server fun s => tasks_lintAll _
  · exact steps_pure _

theorem tasks_lintIf (wanted : Trigger → Bool) (uri : Uri) : Steps Task (lintIf wanted uri) := by
  refine steps_bind steps_loadSettings.tasks fun settings => ?_
  split
  · exact tasks_lintAndReport uri
  · exact steps_pure _

/-! ## Fixing, formatting and code actions -/

theorem errands_fixEdits (uri : Uri) : Steps Errand (fixEdits uri) := by
  intro e s
  rw [fixEdits, bind_apply, server_apply]
  dsimp only
  cases s.server.document? uri.text with
  | none => exact .single (.log _ _)
  | some d =>
    have warned := errands_settingsWarnings e s
    simp only [bind_apply, loadSettings_apply]
    split
    · exact warned.tail (.run _ (.fix ..))
    · exact warned

theorem errands_formatting (uri : Uri) : Steps Errand (formatting uri) := by
  refine steps_bind (steps_log _ _) fun _ => steps_bind (errands_fixEdits uri) fun r => ?_
  cases r with
  | ok edits => exact steps_pure _
  | error e => exact steps_bind (steps_log _ _) fun _ => steps_pure _

theorem errands_codeActions (uri : Uri) (diagnostics : List SentDiagnostic) :
    Steps Errand (codeActions uri diagnostics) := by
  refine steps_bind steps_server fun s => ?_
  split
  · exact steps_pure _
  · refine steps_bind steps_loadSettings fun settings => ?_
    split <;> exact steps_pure _

/-! ## Commands -/

section Commands

variable {r : Environment → Session → Session → Prop}

theorem errands_askFor {r : EditorRequest} (other : r.isRegistration = false) (shape : Shape)
    (taken : Json → Except String Unit) (failed declined : String → String) :
    Tries Errand (askFor r shape taken failed declined) := by
  refine tries_bind (tries_lift (steps_ask other)) fun answer => ?_
  cases answer with
  | error e => exact tries_throw _
  | ok answer =>
    dsimp only
    cases (shape .plain answer).map taken with
    | error f => exact tries_throw _
    | ok result =>
      cases result with
      | error reason => exact tries_throw _
      | ok _ => exact tries_pure _

theorem tries_parseUri (text : String) : Tries r (parseUri text) := by
  unfold parseUri
  cases Uri.parse? text with
  | some uri => exact tries_pure _
  | none => exact tries_throw _

theorem tries_onLinter {α : Type} (what : String) (outcome : Except LinterError α) :
    Tries r (onLinter what outcome) := by
  cases outcome with
  | ok a => exact tries_pure a
  | error e => exact tries_throw _

theorem errands_openPage (url : String) : Tries Errand (openPage url) :=
  tries_bind (tries_parseUri url) fun _ => errands_askFor rfl _ _ _ _

theorem errands_fixDocument (text : String) : Tries Errand (fixDocument text) := by
  refine tries_bind (tries_parseUri text) fun uri => ?_
  refine tries_bind (tries_lift (errands_fixEdits uri)) fun outcome => ?_
  refine tries_bind (tries_onLinter _ outcome) fun edits => ?_
  cases edits with
  | none => exact tries_pure _
  | some edits => exact errands_askFor rfl _ _ _ _

theorem tries_activeDocument : Tries r workbench.activeDocument :=
  tries_bind (tries_lift steps_server) fun _ => tries_pure _

theorem tasks_lintDocument (text : String) : Tries Task (workbench.lintDocument text) := by
  refine tries_bind (tries_parseUri text) fun uri => ?_
  exact tries_bind (tries_lift fun e s => (linted_lintDocument uri e s).tasks) fun outcome => tries_onLinter _ outcome

theorem tasks_lintProject : Tries Task workbench.lintProject := by
  refine tries_bind (tries_lift steps_server) fun s => ?_
  cases s.root with
  | none => exact tries_throw _
  | some root =>
    exact tries_bind (tries_lift fun e s => (linted_lintProject root e s).tasks) fun outcome => tries_onLinter _ outcome

theorem tasks_exclude (scope : Scope) (rule : String) : Tries Task (exclude scope rule) :=
  fun _ _ => .single (.exclude scope rule)

/-- Runs on a document if there is one. -/
def onTarget (run : String → CommandM Handler Unit) : Option String → CommandM Handler Unit
  | some uri => run uri
  | none => pure ()

theorem tries_onDocument {run : String → CommandM Handler Unit} (hr : ∀ uri, Tries r (run uri))
    (document : Option String) : Tries r (workbench.onDocument run document) := by
  have htarget (target : Option String) : Tries r (onTarget run target) := by
    cases target with
    | none => exact tries_pure _
    | some uri => exact hr uri
  cases document with
  | none => exact tries_bind tries_activeDocument htarget
  | some uri => exact tries_bind (tries_pure _) htarget

theorem tasks_dispatch (command : Command) : Tries Task (workbench.dispatch exclude command) := by
  cases command with
  | excludeRule rule scope => exact tries_bind (tasks_exclude scope rule) fun _ => tries_pure _
  | viewDocumentation rule =>
    exact tries_bind (Steps.tasks (errands_openPage _)) fun _ => tries_pure _
  | lint document => exact tries_bind (tries_onDocument tasks_lintDocument document) fun _ => tries_pure _
  | lintProject =>
    refine tries_bind tries_activeDocument fun active => ?_
    split
    · exact tries_bind tasks_lintProject fun _ => tries_pure _
    · exact tries_pure _
  | fix document =>
    exact tries_bind (tries_onDocument (fun uri => Steps.tasks (errands_fixDocument uri)) document) fun _ =>
      tries_pure _

end Commands

theorem tasks_executeCommand (name : String) (arguments : List Json) :
    Steps Task (executeCommand name arguments) := by
  unfold executeCommand
  cases Command.parse name arguments with
  | error e => exact steps_pure _
  | ok command =>
    refine steps_bind (tasks_dispatch command) fun outcome => ?_
    cases outcome with
    | error e => exact steps_bind (steps_log _ _).tasks fun _ => steps_pure _
    | ok answer =>
      dsimp only
      split
      · exact steps_bind tasks_lintOpenDocuments fun _ => steps_pure _
      · exact steps_pure _

/-- The requests that neither start nor stop the session are answered in tasks. -/
theorem tasks_answer {r : Request} (hs : ∀ p, r ≠ .start p) (ht : r ≠ .stop) : Steps Task (answer r) := by
  cases r with
  | start p => exact absurd rfl (hs p)
  | stop => exact absurd rfl ht
  | formatting uri => exact steps_bind (errands_formatting uri).tasks fun _ => steps_pure _
  | hover uri position => exact steps_bind steps_server fun _ => steps_pure _
  | codeAction uri ds => exact steps_bind (errands_codeActions uri ds).tasks fun _ => steps_pure _
  | executeCommand name arguments =>
    exact steps_bind (tasks_executeCommand name arguments) fun _ => steps_pure _

end Server
end SqlLint
