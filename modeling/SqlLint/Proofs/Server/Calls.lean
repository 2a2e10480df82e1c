import SqlLint.Proofs.Server.Exclusions
import SqlLint.Proofs.Server.Lifecycle

/-! # What handlers call the linter on

A handler calls the linter on the text of a document that is tracked, with the settings that are in force, or it
calls it on a directory, or not at all. -/
namespace SqlLint
open Relation

/-- The invocation of the linter that an event is, if it is one. -/
def Event.call? : Event → Option Invocation
  | .run i _ => some i
  | _ => none

/-- An identifier as it is read from its text. -/
def Uri.IsRead (uri : Uri) : Prop := Uri.parse? uri.text = some uri

theorem Uri.text_of_parse? {text : String} {uri : Uri} (h : Uri.parse? text = some uri) : uri.text = text := by
  unfold Uri.parse? Uri.parse at h
  split at h
  · obtain rfl := Option.some.inj h
    rfl
  · cases h

theorem Uri.isRead_of_parse? {text : String} {uri : Uri} (h : Uri.parse? text = some uri) : uri.IsRead := by
  rw [Uri.IsRead, Uri.text_of_parse? h, h]

namespace Session

/-- The settings in force. -/
def settings (s : Session) : Settings := Server.settings s.server s.tree

/-- The calls of the linter so far, whether the program could be started or not. -/
def calls (s : Session) : List Invocation := s.events.filterMap Event.call?

/-- A call on the text of a document, if the document is tracked. -/
def onText (s : Session) (call : Settings → String → Option String → Option String → Invocation)
    (key : String) : List Invocation :=
  match s.server.text? key with
  | some text => [call s.settings (String.ofList text) ((Uri.parse? key).bind Uri.filePath?) none]
  | none => []

/-- The call that lints a document, if it is tracked. -/
def lints (s : Session) (key : String) : List Invocation := s.onText Linter.lintInvocation key

/-- The call that fixes a document, if it is tracked and formatting is enabled. -/
def fixes (s : Session) (key : String) : List Invocation :=
  if s.settings.format = true then s.onText Linter.fixInvocation key else []

/-- The calls that lint the tracked documents, one for each, unless linting is off. -/
def lintsAll (s : Session) : List Invocation :=
  if s.settings.run ≠ .off then
    s.server.documents.map fun d =>
      Linter.lintInvocation s.settings (String.ofList d.2.text) ((Uri.parse? d.1).bind Uri.filePath?) none
  else []

/-- The call that lints the workspace, if there is one and some document is active. -/
def lintsProject (s : Session) : List Invocation :=
  if s.server.active.isSome then
    s.server.root.toList.map fun root =>
      Linter.pathInvocation s.settings root (some (s.settings.workingDirectory.getD root))
  else []

/-- The linter was called so, and no file was written. -/
structure Called (s : Session) (cs : List Invocation) (s' : Session) : Prop where
  calls : s'.calls = s.calls ++ cs
  tree : s'.tree = s.tree

namespace Called

variable {s s' s'' : Session} {cs ds : List Invocation}

theorem refl (s : Session) : Called s [] s := ⟨(List.append_nil _).symm, rfl⟩

theorem trans (h : Called s cs s') (h' : Called s' ds s'') : Called s (cs ++ ds) s'' :=
  ⟨by rw [h'.calls, h.calls, List.append_assoc], h'.tree.trans h.tree⟩

theorem emit (s : Session) (events : List Event) : Called s (events.filterMap Event.call?) (s.emit events) :=
  ⟨List.filterMap_append, rfl⟩

end Called

theorem calls_emit (s : Session) (events : List Event) :
    (s.emit events).calls = s.calls ++ events.filterMap Event.call? := List.filterMap_append

end Session

namespace Handler
open Session

variable {α β : Type} {e : Environment} {s : Session} {cs : List Invocation}

/-- A handler that neither calls the linter nor writes a file. -/
def Silent (h : Handler α) : Prop := ∀ e s, Called s [] (h e s).2

theorem silent_pure (a : α) : Silent (pure a : Handler α) := fun _ s => .refl s

theorem called_bind {h : Handler α} {f : α → Handler β} (hh : Called s cs (h e s).2)
    (hf : ∀ a, Silent (f a)) : Called s cs ((h >>= f) e s).2 := by
  have both := hh.trans (hf (h e s).1 e (h e s).2)
  rwa [List.append_nil] at both

theorem silent_bind {h : Handler α} {f : α → Handler β} (hh : Silent h) (hf : ∀ a, Silent (f a)) :
    Silent (h >>= f) := fun e s => called_bind (hh e s) hf

theorem silent_server : Silent Handler.server := fun _ s => .refl s

theorem silent_get : Silent (get : Handler Session) := fun _ s => .refl s

theorem silent_modifyServer (f : Server → Server) : Silent (modifyServer f) :=
  fun _ s => ⟨(List.append_nil s.calls).symm, rfl⟩

theorem silent_log (kind : LogKind) (message : String) : Silent (log kind message) :=
  fun _ s => .emit s [.log kind message]

theorem silent_publish (uri : String) (ds : List Diagnostic) : Silent (publish uri ds) :=
  fun _ s => .emit s [.publish uri ds]

theorem silent_ask (r : EditorRequest) : Silent (ask r) := fun _ s => .emit s [.request r]

theorem silent_forM {as : List α} {f : α → Handler Unit} (hf : ∀ a, Silent (f a)) : Silent (as.forM f) := by
  induction as with
  | nil => exact silent_pure ()
  | cons a as ih => exact silent_bind (hf a) fun _ => ih

/-- A command that neither calls the linter nor writes a file. -/
abbrev Mute (c : CommandM Handler α) : Prop := Silent c.run

theorem mute_pure (a : α) : Mute (pure a : CommandM Handler α) := silent_pure _

theorem mute_throw (e : CommandError) : Mute (throw e : CommandM Handler α) := silent_pure _

theorem silent_bindCont {f : α → CommandM Handler β} (hf : ∀ a, Mute (f a)) (r : Except CommandError α) :
    Silent (ExceptT.bindCont f r) := by
  cases r with
  | ok a => exact hf a
  | error e => exact silent_pure _

theorem called_commandBind {c : CommandM Handler α} {f : α → CommandM Handler β}
    (hc : Called s cs (c.run e s).2) (hf : ∀ a, Mute (f a)) : Called s cs ((c >>= f).run e s).2 :=
  called_bind hc (silent_bindCont hf)

/-- What a command has a handler do is what the handler does. -/
theorem called_lift {h : Handler α} (hh : Called s cs (h e s).2) :
    Called s cs ((liftM h : CommandM Handler α).run e s).2 := hh

theorem mute_bind {c : CommandM Handler α} {f : α → CommandM Handler β} (hc : Mute c) (hf : ∀ a, Mute (f a)) :
    Mute (c >>= f) := fun e s => called_commandBind (hc e s) hf

end Handler

namespace Server
open Session Handler

variable {e : Environment} {s s' : Session}

theorem call?_settingsWarnings (s : Session) : (settingsWarnings s).filterMap Event.call? = [] :=
  filterMap_settingsWarnings (fun _ _ => rfl) s

theorem silent_loadSettings : Silent loadSettings := by
  intro e s
  rw [loadSettings_apply]
  exact call?_settingsWarnings s ▸ Called.emit s (settingsWarnings s)

theorem silent_publishFindings (uri : String) (violations : List Violation) (text : List Char) :
    Silent (publishFindings uri violations text) :=
  silent_bind (silent_modifyServer _) fun _ => silent_publish _ _

theorem silent_publishReport (directory : String) (report : FileReport) :
    Silent (publishReport directory report) := by
  refine silent_bind silent_get fun s => ?_
  dsimp only
  cases uriOf? s.tree (Path.join directory report.path) with
  | some uri => exact silent_publishFindings _ _ _
  | none => exact silent_pure _

theorem silent_codeActions (uri : Uri) (diagnostics : List SentDiagnostic) :
    Silent (codeActions uri diagnostics) := by
  refine silent_bind silent_server fun s => ?_
  split
  · exact silent_pure _
  · refine silent_bind silent_loadSettings fun settings => ?_
    split <;> exact silent_pure _

theorem mute_askFor (r : EditorRequest) (shape : Shape) (taken : Json → Except String Unit)
    (failed declined : String → String) : Mute (askFor r shape taken failed declined) := by
  refine mute_bind (silent_bind (silent_ask r) fun _ => silent_pure _) fun answer => ?_
  cases answer with
  | error e => exact mute_throw _
  | ok answer =>
    dsimp only
    cases (shape .plain answer).map taken with
    | error f => exact mute_throw _
    | ok result =>
      cases result with
      | error reason => exact mute_throw _
      | ok _ => exact mute_pure _

theorem mute_parseUri (text : String) : Mute (parseUri text) := by
  unfold parseUri
  cases Uri.parse? text with
  | some uri => exact mute_pure _
  | none => exact mute_throw _

theorem mute_onLinter {α : Type} (what : String) (r : Except LinterError α) : Mute (onLinter what r) := by
  cases r with
  | ok a => exact mute_pure a
  | error e => exact mute_throw _

theorem mute_openPage (url : String) : Mute (openPage url) :=
  mute_bind (mute_parseUri url) fun _ => mute_askFor _ _ _ _ _

/-- The settings come from the files, the workspace and the editor. -/
theorem settings_of_same (globalFile : s'.server.globalFile = s.server.globalFile)
    (root : s'.server.root = s.server.root) (client : s'.server.client = s.server.client)
    (tree : s'.tree = s.tree) : s'.settings = s.settings := by
  rw [Session.settings, Session.settings, Server.settings, Server.settings, settingsPaths, settingsPaths,
    globalFile, root, client, tree]

/-- Moves that write no file leave the settings and the texts alone, and so what is called on them. -/
theorem onText_of_moves (h : ReflTransGen Move s s') (tree : s'.tree = s.tree) : s'.onText = s.onText := by
  have same : s'.settings = s.settings := settings_of_same
    (Move.keeps (f := fun s => s.server.globalFile) (fun _ _ => Move.globalFile) h)
    (Move.keeps (f := fun s => s.server.root) (fun _ _ => Move.root) h)
    (Move.keeps (f := fun s => s.server.client) (fun _ _ => Move.client) h) tree
  funext call key
  rw [onText, onText, same, Move.keeps (f := fun s => s.server.text?) (fun _ _ => Move.text?) h]

theorem onText_of_closed {key : String} (h : s.server.document? key = none)
    (call : Settings → String → Option String → Option String → Invocation) : s.onText call key = [] := by
  rw [onText, text?, h, Option.map_none]

theorem onText_of_open {uri : Uri} {d : Document} (read : uri.IsRead)
    (h : s.server.document? uri.text = some d)
    (call : Settings → String → Option String → Option String → Invocation) :
    s.onText call uri.text = [call s.settings (String.ofList d.text) uri.filePath? none] := by
  rw [onText, text?, h, Option.map_some, show Uri.parse? uri.text = some uri from read]
  rfl

/-- Looking up the settings calls nobody. -/
theorem called_loadSettings {α : Type} {cs : List Invocation} {f : Settings → Handler α}
    (hf : Called (s.emit (settingsWarnings s)) cs (f s.settings e (s.emit (settingsWarnings s))).2) :
    Called s cs ((loadSettings >>= f) e s).2 := by
  have quiet := silent_loadSettings e s
  rw [loadSettings_apply] at quiet
  rw [bind_apply, loadSettings_apply]
  exact quiet.trans hf

theorem called_lintDocument {uri : Uri} (read : uri.IsRead) (e : Environment) (s : Session) :
    Called s (s.lints uri.text) (lintDocument uri e s).2 := by
  rw [lintDocument, bind_apply, server_apply, lints]
  dsimp only
  cases hd : s.server.document? uri.text with
  | none =>
    rw [onText_of_closed hd]
    exact silent_bind (silent_log _ _) (fun _ => silent_pure _) e s
  | some d =>
    rw [onText_of_open read hd]
    refine called_loadSettings (called_bind (.emit _ [.run _ _]) fun r => ?_)
    cases r.bind Linter.violations with
    | ok violations => exact silent_bind (silent_publishFindings _ _ _) fun _ => silent_pure _
    | error e => exact silent_pure _

theorem called_lintAndReport {uri : Uri} (read : uri.IsRead) (e : Environment) (s : Session) :
    Called s (s.lints uri.text) (lintAndReport uri e s).2 := by
  refine called_bind (called_lintDocument read e s) fun r => ?_
  cases r with
  | ok _ => exact silent_pure _
  | error e => exact silent_log _ _

theorem called_lintIf {uri : Uri} (read : uri.IsRead) (wanted : Trigger → Bool) (e : Environment) (s : Session) :
    Called s (if wanted s.settings.run = true then s.lints uri.text else []) (lintIf wanted uri e s).2 := by
  refine called_loadSettings ?_
  split
  · exact called_lintAndReport read e _
  · exact .refl _

/-- Each document is linted in the state that the ones before it have left, which has the same texts. -/
theorem called_lintAll {uris : List String} (read : ∀ key ∈ uris, (Uri.parse? key).isSome = true)
    (e : Environment) (s : Session) : Called s (uris.flatMap s.lints) (lintAll uris e s).2 := by
  induction uris generalizing s with
  | nil => exact .refl s
  | cons key uris ih =>
    obtain ⟨uri, hu⟩ := Option.isSome_iff_exists.1 (read key List.mem_cons_self)
    obtain rfl := Uri.text_of_parse? hu
    have first := called_lintAndReport (Uri.isRead_of_parse? hu) e s
    have same : (lintAndReport uri e s).2.lints = s.lints :=
      congrFun (onText_of_moves ((tasks_lintAndReport uri).moves e s) first.tree) _
    have rest := ih (fun key h => read key (List.mem_cons_of_mem _ h)) (lintAndReport uri e s).2
    have step : lintAll (uri.text :: uris) e s = lintAll uris e (lintAndReport uri e s).2 := by
      rw [lintAll, List.forM_eq_forM, List.forM_cons, hu]
      rfl
    rw [step, List.flatMap_cons]
    exact first.trans (same ▸ rest)

/-- The names of the tracked documents. -/
def tracked (s : Server) : List String := s.documents.map Prod.fst

/-- Each document is tracked under a name of its own, which can be read. -/
structure Filed (s : Server) : Prop where
  nodup : s.tracked.Nodup
  read : ∀ key ∈ s.tracked, (Uri.parse? key).isSome = true

theorem Filed.document? {s : Server} (filed : s.Filed) {d : String × Document} (h : d ∈ s.documents) :
    s.document? d.1 = some d.2 :=
  Assoc.lookup_of_mem (List.nodup_iff_count_le_one.1 filed.nodup d.1) h

theorem Filed.lints (filed : s.server.Filed) : s.server.tracked.flatMap s.lints =
    s.server.documents.map fun d =>
      Linter.lintInvocation s.settings (String.ofList d.2.text) ((Uri.parse? d.1).bind Uri.filePath?) none := by
  rw [tracked, List.flatMap_map, List.map_eq_flatMap]
  refine List.flatMap_congr fun d hd => ?_
  have found := filed.document? hd
  rw [Session.lints, onText, text?, found]
  rfl

/-- What is not tracked under a name that can be read is not tracked at all. -/
theorem Filed.document?_of_unread (filed : s.server.Filed) {key : String} (h : Uri.parse? key = none) :
    s.server.document? key = none := by
  refine List.lookup_eq_none_iff.2 fun d hd => ?_
  rw [bne_iff_ne]
  rintro rfl
  have read := filed.read d.1 (List.mem_map_of_mem hd)
  rw [h] at read
  cases read

theorem called_lintOpenDocuments (filed : s.server.Filed) (e : Environment) :
    Called s s.lintsAll (lintOpenDocuments e s).2 := by
  refine called_loadSettings ?_
  rw [lintsAll, ← filed.lints]
  split
  · rw [bind_apply, server_apply]
    exact called_lintAll filed.read e _
  · exact .refl _

theorem called_fixEdits {uri : Uri} (read : uri.IsRead) (e : Environment) (s : Session) :
    Called s (s.fixes uri.text) (fixEdits uri e s).2 := by
  rw [fixEdits, bind_apply, server_apply, fixes]
  dsimp only
  cases hd : s.server.document? uri.text with
  | none =>
    rw [onText_of_closed hd, ite_self]
    exact silent_bind (silent_log _ _) (fun _ => silent_pure _) e s
  | some d =>
    rw [onText_of_open read hd]
    refine called_loadSettings ?_
    split
    · exact called_bind (.emit _ [.run _ _]) fun _ => silent_pure _
    · exact .refl _

theorem called_formatting {uri : Uri} (read : uri.IsRead) (e : Environment) (s : Session) :
    Called s (s.fixes uri.text) (formatting uri e s).2 := by
  rw [formatting, bind_apply, log_apply]
  refine (Called.emit s [.log .info _]).trans (called_bind (called_fixEdits read e _) fun r => ?_)
  cases r with
  | ok edits => exact silent_pure _
  | error e => exact silent_bind (silent_log _ _) fun _ => silent_pure _

theorem called_lintProject (root : String) (e : Environment) (s : Session) :
    Called s [Linter.pathInvocation s.settings root (some (s.settings.workingDirectory.getD root))]
      (lintProject root e s).2 := by
  refine called_loadSettings ?_
  rw [bind_apply, log_apply]
  refine (Called.emit _ [.log .info _]).trans (called_bind (.emit _ [.run _ _]) fun r => ?_)
  cases r.bind Linter.reports with
  | ok reports => exact silent_bind (silent_forM (silent_publishReport _)) fun _ => silent_pure _
  | error e => exact silent_pure _

variable {command : Command} {cs : List Invocation}

/-- A command on a document reads its identifier first. One that cannot be read is that of no document. -/
theorem called_onUri (filed : s.server.Filed) {run : Uri → CommandM Handler Unit} {on : String → List Invocation}
    (called : ∀ uri, uri.IsRead → Called s (on uri.text) ((run uri).run e s).2)
    (unread : ∀ text, s.server.document? text = none → on text = []) (text : String) :
    Called s (on text) ((parseUri text >>= run).run e s).2 := by
  unfold parseUri
  cases hu : Uri.parse? text with
  | some uri =>
    obtain rfl := Uri.text_of_parse? hu
    exact called uri (Uri.isRead_of_parse? hu)
  | none =>
    rw [unread text (filed.document?_of_unread hu)]
    exact .refl s

theorem called_onDocument {run : String → CommandM Handler Unit} {on : String → List Invocation}
    (called : ∀ text, Called s (on text) ((run text).run e s).2) (document : Option String) :
    Called s ((document <|> s.server.active).toList.flatMap on) ((workbench.onDocument run document).run e s).2 := by
  have target (target : Option String) :
      Called s (target.toList.flatMap on) ((onTarget run target).run e s).2 := by
    cases target with
    | none => exact .refl s
    | some text =>
      rw [Option.toList_some, List.flatMap_singleton]
      exact called text
  cases document with
  | some text => exact target (some text)
  | none => exact target s.server.active

theorem called_lintCommand (filed : s.server.Filed) (e : Environment) (document : Option String) :
    Called s ((document <|> s.server.active).toList.flatMap s.lints)
      ((workbench.dispatch exclude (.lint document)).run e s).2 := by
  have linted (uri : Uri) (read : uri.IsRead) : Called s (s.lints uri.text)
      ((do onLinter "Linting" (← (lintDocument uri : Handler _)) : CommandM Handler Unit).run e s).2 :=
    called_commandBind (called_lift (called_lintDocument read e s)) fun r => mute_onLinter _ r
  exact called_commandBind (called_onDocument (called_onUri filed linted fun _ closed => onText_of_closed closed _)
    document) fun _ => mute_pure _

theorem called_fixCommand (filed : s.server.Filed) (e : Environment) (document : Option String) :
    Called s ((document <|> s.server.active).toList.flatMap s.fixes)
      ((workbench.dispatch exclude (.fix document)).run e s).2 := by
  have closed (text : String) (h : s.server.document? text = none) : s.fixes text = [] := by
    rw [fixes, onText_of_closed h, ite_self]
  refine called_commandBind (called_onDocument (called_onUri filed (fun uri read => ?_) closed) document)
    fun _ => mute_pure _
  refine called_commandBind (called_lift (called_fixEdits read e s)) fun r => mute_bind (mute_onLinter _ r) fun edits => ?_
  cases edits with
  | none => exact mute_pure _
  | some edits => exact mute_askFor _ _ _ _ _

/-- Looking at the server calls nobody. -/
theorem called_commandServer {α : Type} {f : Server → CommandM Handler α}
    (hf : Called s cs ((f s.server).run e s).2) :
    Called s cs ((liftM Handler.server >>= f : CommandM Handler α).run e s).2 := hf

theorem called_activeDocument {α : Type} {f : Option String → CommandM Handler α}
    (hf : Called s cs ((f s.server.active).run e s).2) :
    Called s cs ((workbench.activeDocument >>= f).run e s).2 := hf

theorem called_lintProjectCommand (e : Environment) (s : Session) :
    Called s s.lintsProject ((workbench.dispatch exclude .lintProject).run e s).2 := by
  have project : Called s (s.server.root.toList.map fun root =>
      Linter.pathInvocation s.settings root (some (s.settings.workingDirectory.getD root)))
      (workbench.lintProject.run e s).2 := by
    refine called_commandServer ?_
    cases s.server.root with
    | none => exact .refl s
    | some root => exact called_commandBind (called_lift (called_lintProject root e s)) fun r => mute_onLinter _ r
  refine called_activeDocument ?_
  rw [lintsProject]
  split
  · exact called_commandBind project fun _ => mute_pure _
  · exact .refl s

theorem called_documentationCommand (rule : String) (e : Environment) (s : Session) :
    Called s [] ((workbench.dispatch exclude (.viewDocumentation rule)).run e s).2 :=
  mute_bind (mute_openPage _) (fun _ => mute_pure _) e s

/-- Only an exclusion calls the linter once more when it is done. -/
theorem called_executeCommand {name : String} {arguments : List Json} {command : Command} {cs : List Invocation}
    (parsed : Command.parse name arguments = .ok command) (other : Command.excludes command = false)
    (called : Called s cs ((workbench.dispatch exclude command).run e s).2) :
    Called s cs (executeCommand name arguments e s).2 := by
  rw [executeCommand, parsed]
  refine called_bind called fun r => ?_
  cases r with
  | ok answer =>
    dsimp only
    rw [other]
    exact silent_pure _
  | error f => exact silent_bind (silent_log _ _) fun _ => silent_pure _

/-- An exclusion that succeeds has all documents linted under the settings that it has written. -/
theorem calls_excludeCommand (filed : s.server.Filed) {name : String} {arguments : List Json} {rule : String}
    {scope : Scope} (parsed : Command.parse name arguments = .ok (.excludeRule rule scope)) (e : Environment) :
    (executeCommand name arguments e s).2.calls = s.calls ++
      if (executeCommand name arguments e s).1.isOk = true then
        lintsAll { s with tree := (executeCommand name arguments e s).2.tree }
      else [] := by
  have dispatched (r t) := @dispatch_excludeRule rule scope s e t r
  generalize ((settingsFiles s.server).store.exclude scope rule).run s.tree = outcome at dispatched
  obtain ⟨r, t⟩ := outcome
  cases r with
  | error f =>
    rw [executeCommand_failed parsed (dispatched (.error f) t rfl)]
    exact calls_emit { s with tree := t } [.log .error _]
  | ok list =>
    rw [executeCommand_excluded parsed rfl (dispatched (.ok list) t rfl)]
    have linted : Called { s with tree := t } _ _ := called_lintOpenDocuments (s := { s with tree := t }) filed e
    rw [linted.tree]
    exact linted.calls

end Server
end SqlLint
