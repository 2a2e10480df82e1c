import SqlLint.Proofs.Server.Calls
import SqlLint.Proofs.Server.Findings
import SqlLint.Proofs.Uri.FilePaths

/-! # Linting the workspace

The linter reports on files by their paths, and documents are tracked under the identifiers that the editor chose. A
report finds the document of its file where both have the same spelling. -/
namespace SqlLint.Server
open Handler Session Event Uri

variable {e : Environment} {s s' : Session} {directory key : String} {r : FileReport} {reports : List FileReport}

/-- The file that a report is on. Its path is seen from the directory of the run; one that is still relative must be
that of an existing file. -/
def reportedFile? (t : Tree) (directory : String) (r : FileReport) : Option String :=
  if Path.isAbsolute (Path.join directory r.path) then some (Path.join directory r.path)
  else t.canonical? (Path.join directory r.path)

theorem uriOf?_eq (t : Tree) (directory : String) (r : FileReport) :
    uriOf? t (Path.join directory r.path) = (reportedFile? t directory r).map ofFilePath := by
  rw [uriOf?, reportedFile?]
  split <;> rfl

theorem isAbsolute_reportedFile {t : Tree} {file : String} (h : reportedFile? t directory r = some file) :
    Path.isAbsolute file = true := by
  unfold reportedFile? at h
  split at h
  · next absolute => exact Option.some.inj h ▸ absolute
  · unfold Tree.canonical? at h
    split at h
    · split at h
      · rw [← Option.some.inj h, Path.isAbsolute, String.toList_append]
        rfl
      · cases h
    · cases h

/-- The reports on a file. -/
def reportsOn (t : Tree) (directory file : String) (reports : List FileReport) : List FileReport :=
  reports.filter fun r => reportedFile? t directory r = some file

/-- The name under which a report is delivered. -/
def address? (t : Tree) (directory : String) (r : FileReport) : Option String :=
  (reportedFile? t directory r).map fun file => (ofFilePath file).text

/-- The reports that are delivered under a name. -/
def reportsUnder (t : Tree) (directory key : String) (reports : List FileReport) : List FileReport :=
  reports.filter fun r => address? t directory r = some key

/-- A document with the findings of the last report, if there is one. -/
def lastFindings (reports : List FileReport) (d : Document) : Document :=
  { d with violations := (reports.getLast?.map FileReport.violations).getD d.violations }

theorem lastFindings_cons (r : FileReport) (reports : List FileReport) (d : Document) :
    lastFindings (r :: reports) d = lastFindings reports { d with violations := r.violations } := by
  cases reports with
  | nil => rfl
  | cons next rest =>
    rw [lastFindings, List.getLast?_cons_cons]
    rfl

theorem reportedText_eq (s : Session) (key path : String) : reportedText s key path =
    (s.server.text? key).getD (match s.tree.readText path with
      | .ok text => text.toList
      | .error _ => []) := by
  rw [reportedText, text?]
  cases s.server.document? key <;> rfl

/-- What reports leave behind: each document has the findings of the last report under its name, and for each name
the diagnostics of its reports are published, in the text of the document or else in that of the file. -/
structure Delivery (directory : String) (reports : List FileReport) (s s' : Session) : Prop where
  document? : ∀ key, s'.server.document? key =
    (s.server.document? key).map (lastFindings (reportsUnder s.tree directory key reports))
  sent : ∃ sent, s'.events = s.events ++ sent ∧ ∀ key, sent.filterMap (published? key) =
    (reportsUnder s.tree directory key reports).map fun r =>
      diagnostics r.violations (reportedText s key (Path.join directory r.path))

theorem Delivery.nil (directory : String) (s : Session) : Delivery directory [] s s where
  document? key := by
    have same : lastFindings (reportsUnder s.tree directory key []) = id := rfl
    rw [same, Option.map_id]
    rfl
  sent := ⟨[], (List.append_nil _).symm, fun _ => rfl⟩

/-- The session in which a report is delivered under a name. -/
def delivered (directory key : String) (r : FileReport) (s : Session) : Session :=
  ({ s with server := setViolations key r.violations s.server }).emit
    [.publish key (diagnostics r.violations (reportedText s key (Path.join directory r.path)))]

theorem publishReport_apply (directory : String) (r : FileReport) (e : Environment) (s : Session) :
    (publishReport directory r e s).2 = match address? s.tree directory r with
      | some key => delivered directory key r s
      | none => s := by
  rw [publishReport, bind_apply, get_apply, address?]
  dsimp only
  rw [uriOf?_eq]
  cases reportedFile? s.tree directory r <;> rfl

theorem document?_delivered (other : String) : (delivered directory key r s).server.document? other =
    if other = key then (s.server.document? other).map fun d => { d with violations := r.violations }
    else s.server.document? other :=
  document?_update s.server key other _

theorem text?_delivered : (delivered directory key r s).server.text? = s.server.text? :=
  map_document?_update s.server key fun _ => rfl

/-- The delivery of a report changes no text. -/
theorem reportedText_delivered : reportedText (delivered directory key r s) = reportedText s := by
  funext other path
  rw [reportedText_eq, reportedText_eq, text?_delivered]
  rfl

/-- A report that is delivered nowhere counts nowhere. -/
theorem Delivery.skip (h : Delivery directory reports s s') (nowhere : address? s.tree directory r = none) :
    Delivery directory (r :: reports) s s' := by
  have under (key : String) : reportsUnder s.tree directory key (r :: reports) =
      reportsUnder s.tree directory key reports := List.filter_cons_of_neg (by simp [nowhere])
  refine ⟨fun key => ?_, ?_⟩
  · rw [under]
    exact h.document? key
  · simp only [under]
    exact h.sent

/-- A report that is delivered first counts before the others. -/
theorem Delivery.cons (h : Delivery directory reports (delivered directory key r s) s')
    (named : address? s.tree directory r = some key) : Delivery directory (r :: reports) s s' := by
  obtain ⟨documents, sent, events, published⟩ := h
  have mine : reportsUnder s.tree directory key (r :: reports) = r :: reportsUnder s.tree directory key reports :=
    List.filter_cons_of_pos (by simp [named])
  have theirs {other : String} (ho : other ≠ key) : reportsUnder s.tree directory other (r :: reports) =
      reportsUnder s.tree directory other reports := List.filter_cons_of_neg (by simp [named, ho.symm])
  refine ⟨fun other => ?_, _ :: sent, events.trans (List.append_assoc ..), fun other => ?_⟩
  · rw [documents, document?_delivered]
    by_cases ho : other = key
    · rw [if_pos ho, ho, mine, Option.map_map]
      exact congrFun (congrArg _ (funext fun d => (lastFindings_cons r _ d).symm)) _
    · rw [if_neg ho, theirs ho]
      rfl
  · rw [List.filterMap_cons, published, reportedText_delivered]
    by_cases ho : other = key
    · subst ho
      rw [mine, published?, if_pos rfl]
      rfl
    · rw [theirs ho, published?, if_neg (Ne.symm ho)]
      rfl

/-- Reports are delivered one after another, all of them by the files and the texts that the first one finds. -/
theorem delivery_forM (directory : String) (reports : List FileReport) (e : Environment) (s : Session) :
    Delivery directory reports s (reports.forM (publishReport directory) e s).2 := by
  induction reports generalizing s with
  | nil => exact .nil directory s
  | cons r reports ih =>
    have step : ((r :: reports).forM (publishReport directory) e s).2 =
        (reports.forM (publishReport directory) e (publishReport directory r e s).2).2 := rfl
    rw [step, publishReport_apply]
    cases named : address? s.tree directory r with
    | none => exact (ih s).skip named
    | some key => exact (ih _).cons named

/-- The directory in which the linter runs on the workspace. -/
def projectDirectory (s : Session) : String := s.settings.workingDirectory.getD (s.server.root.getD "")

/-- The run of the linter on a workspace. -/
def projectCall (s : Session) (root : String) : Invocation :=
  Linter.pathInvocation s.settings root (some (projectDirectory s))

/-- The reports that linting the workspace comes to. Without an active document nothing is run and there are none. -/
def projectReports (e : Environment) (s : Session) : Except CommandError (List FileReport) :=
  match s.server.active, s.server.root with
  | none, _ => .ok []
  | some _, none => .error (.host "No workspace folder is open")
  | some _, some root => ((Linter.run e.programs s.tree (projectCall s root)).bind Linter.reports).mapError fun f =>
      .host ("Linting failed: " ++ f.message)

/-- What is sent and run until the reports are there. -/
def projectEvents (e : Environment) (s : Session) : List Event :=
  match s.server.active, s.server.root with
  | some _, some root => settingsWarnings s ++ [.log .info ("Linting project at " ++ root),
      .run (projectCall s root) ((projectCall s root).obstacle? e.programs s.tree).isNone]
  | _, _ => []

theorem published?_projectEvents (e : Environment) (s : Session) (key : String) :
    (projectEvents e s).filterMap (published? key) = [] := by
  rw [projectEvents]
  split
  · rw [List.filterMap_append, filterMap_settingsWarnings (fun _ _ => rfl), List.nil_append]
    rfl
  · rfl

/-- The session after all reports have been delivered. A failure leaves none. -/
def projectEnd (e : Environment) (s : Session) : Session :=
  (((projectReports e s).toOption.getD []).forM (publishReport (projectDirectory s)) e (s.emit (projectEvents e s))).2

theorem lintProject_apply {root document : String} (opened : s.server.root = some root)
    (active : s.server.active = some document) (e : Environment) :
    (((lintProject root e s).1.mapError fun f => CommandError.host ("Linting failed: " ++ f.message)) =
      (projectReports e s).map fun _ => ()) ∧ (lintProject root e s).2 = projectEnd e s := by
  have directory : (settings s.server s.tree).workingDirectory.getD root = projectDirectory s := by
    rw [projectDirectory, opened]
    rfl
  have call : Linter.pathInvocation (settings s.server s.tree) root (some (projectDirectory s)) = projectCall s root :=
    rfl
  have told : projectEvents e s = settingsWarnings s ++ [.log .info ("Linting project at " ++ root),
      .run (projectCall s root) ((projectCall s root).obstacle? e.programs s.tree).isNone] := by
    rw [projectEvents, opened, active]
  rw [lintProject, projectEnd, projectReports, active, opened]
  simp only [bind_apply, loadSettings_apply, log_apply, run_apply, directory, call, emit_tree, emit_emit,
    List.append_assoc, List.singleton_append, ← told]
  cases (Linter.run e.programs s.tree (projectCall s root)).bind Linter.reports <;> exact ⟨rfl, rfl⟩

theorem run_onLinter {α : Type} (what : String) (r : Except LinterError α) (e : Environment) (s : Session) :
    (onLinter what r).run e s = (r.mapError fun f => .host (what ++ " failed: " ++ f.message), s) := by
  cases r <;> rfl

theorem run_lintProject {document : String} (active : s.server.active = some document) (e : Environment) :
    workbench.lintProject.run e s = ((projectReports e s).map fun _ => (), projectEnd e s) := by
  have seen : (liftM Handler.server : CommandM Handler Server).run e s = (.ok s.server, s) := rfl
  unfold workbench
  dsimp only
  rw [ExceptT.run_bind, bind_apply, seen]
  dsimp only
  cases opened : s.server.root with
  | none =>
    have told : projectEvents e s = [] := by rw [projectEvents, active, opened]
    rw [projectEnd, projectReports, active, opened, told, emit_nil]
    rfl
  | some root =>
    obtain ⟨answer, ends⟩ := lintProject_apply opened active e
    have ran : (liftM (lintProject root) : CommandM Handler (Except LinterError Unit)).run e s =
        (.ok (lintProject root e s).1, (lintProject root e s).2) := rfl
    dsimp only
    rw [ExceptT.run_bind, bind_apply, ran]
    dsimp only
    rw [run_onLinter, ← answer, ends]
    rfl

/-- A command that ends without an answer of its own. -/
theorem run_unanswered {c : CommandM Handler Unit} {r : Except CommandError Unit} (ran : c.run e s = (r, s')) :
    ((do
      c
      return none : CommandM Handler (Option (List String))).run e s) = (r.map fun _ => none, s') := by
  rw [ExceptT.run_bind, bind_apply, ran]
  cases r <;> rfl

theorem dispatch_lintProject (e : Environment) (s : Session) :
    (workbench.dispatch exclude .lintProject).run e s = ((projectReports e s).map fun _ => none, projectEnd e s) := by
  have start : (workbench.dispatch exclude .lintProject).run e s = ((do
      if s.server.active.isSome then workbench.lintProject
      return none : CommandM Handler (Option (List String))).run e s) := rfl
  rw [start]
  cases active : s.server.active with
  | none =>
    have told : projectEvents e s = [] := by rw [projectEvents, active]
    rw [projectEnd, projectReports, active, told, emit_nil]
    rfl
  | some document =>
    refine (run_unanswered (run_lintProject active e)).trans ?_
    cases projectReports e s <;> rfl

/-- Linting the workspace succeeds exactly where the linter's reports can be had. -/
theorem executeCommand_lintProject (arguments : List Json) (e : Environment) (s : Session) :
    executeCommand "sqlfluff.lintProject" arguments e s = match projectReports e s with
      | .ok _ => (.ok none, projectEnd e s)
      | .error f => (.error (rpcError f), (projectEnd e s).emit
          [.log .error ("Command sqlfluff.lintProject failed: " ++ f.message)]) := by
  have parsed : Command.parse "sqlfluff.lintProject" arguments = .ok .lintProject := rfl
  have run := dispatch_lintProject e s
  cases reported : projectReports e s with
  | error f =>
    rw [reported] at run
    exact executeCommand_failed parsed run
  | ok reports =>
    rw [reported] at run
    rw [executeCommand, parsed]
    dsimp only
    rw [bind_apply, run]
    rfl

/-- The file that a name denotes, with its percent codes decoded. -/
def denoted? (key : String) : Option String := (Uri.parse? key).bind filePath?

/-- The server's own spelling denotes the file that is reported. -/
theorem denoted?_of_address (h : address? s.tree directory r = some key) :
    ∃ file, reportedFile? s.tree directory r = some file ∧ denoted? key = some file ∧ key = (ofFilePath file).text := by
  obtain ⟨file, hf, rfl⟩ := Option.map_eq_some_iff.1 h
  have absolute := isAbsolute_reportedFile hf
  refine ⟨file, hf, ?_, rfl⟩
  rw [denoted?, parse?_ofFilePath absolute, Option.bind_some, filePath?_ofFilePath absolute]

theorem reportsUnder_ofFilePath (t : Tree) (directory file : String) (reports : List FileReport) :
    reportsUnder t directory (ofFilePath file).text reports = reportsOn t directory file reports := by
  refine List.filter_congr fun r _ => decide_eq_decide.2 ?_
  rw [address?, Option.map_eq_some_iff]
  exact ⟨fun ⟨_, hf, same⟩ => text_ofFilePath_inj.1 same ▸ hf, fun hf => ⟨file, hf, rfl⟩⟩

/-- Where a name is spelled in another way no report is delivered. -/
theorem reportsUnder_of_spelled (other : ∀ file, denoted? key = some file → key ≠ (ofFilePath file).text) :
    reportsUnder s.tree directory key reports = [] := by
  refine List.filter_eq_nil_iff.2 fun r _ h => ?_
  obtain ⟨file, -, denoted, same⟩ := denoted?_of_address (of_decide_eq_true h)
  exact other file denoted same

theorem reportsUnder_of_unreported
    (unreported : ∀ file, denoted? key = some file → reportsOn s.tree directory file reports = []) :
    reportsUnder s.tree directory key reports = [] := by
  refine List.filter_eq_nil_iff.2 fun r hr h => ?_
  obtain ⟨file, hf, denoted, -⟩ := denoted?_of_address (of_decide_eq_true h)
  exact List.filter_eq_nil_iff.1 (unreported file denoted) r hr (decide_eq_true hf)

theorem Delivery.text? (h : Delivery directory reports s s') : s'.server.text? = s.server.text? := by
  funext key
  rw [Server.text?, Server.text?, h.document? key, Option.map_map]
  rfl

/-- A tracked document under whose name nothing is delivered stays as it is. -/
theorem Delivery.document?_of_nil (h : Delivery directory reports s s') {d : Document}
    (tracked : s.server.document? key = some d) (nothing : reportsUnder s.tree directory key reports = []) :
    s'.server.document? key = some d := by
  rw [h.document? key, tracked, nothing]
  rfl

/-- When the workspace is linted successfully no text changes, and a tracked document whose file is not reported is
left alone. Where the editor spells the identifier of a file as the server does, its document has the findings of the
last report on the file, and all diagnostics that are published for the file are placed in the text of the document.
A document under another spelling keeps its old findings, and the diagnostics of its file are placed in the text of
the file, or of a document under the server's spelling. -/
theorem lintProject_reaches_spelled (e : Environment) (s : Session) (arguments : List Json)
    (answer : Option (List String)) (ok : (executeCommand "sqlfluff.lintProject" arguments e s).1 = .ok answer) :
    ∃ reports sent s', projectReports e s = .ok reports ∧
      executeCommand "sqlfluff.lintProject" arguments e s = (.ok none, s') ∧ s'.events = s.events ++ sent ∧
      s'.server.text? = s.server.text? ∧ ∀ key d, s.server.document? key = some d →
        ((∀ file, denoted? key = some file → reportsOn s.tree (projectDirectory s) file reports = []) →
          s'.server.document? key = some d) ∧
        ∀ file, denoted? key = some file →
          (key = (ofFilePath file).text →
            s'.server.document? key =
              some (lastFindings (reportsOn s.tree (projectDirectory s) file reports) d) ∧
            sent.filterMap (published? (ofFilePath file).text) =
              (reportsOn s.tree (projectDirectory s) file reports).map fun r =>
                r.violations.map (Diagnostic.ofViolation d.text)) ∧
          (key ≠ (ofFilePath file).text →
            s'.server.document? key = some d ∧
            sent.filterMap (published? (ofFilePath file).text) =
              (reportsOn s.tree (projectDirectory s) file reports).map fun r =>
                r.violations.map (Diagnostic.ofViolation
                  (reportedText s (ofFilePath file).text (Path.join (projectDirectory s) r.path)))) := by
  rw [executeCommand_lintProject] at ok ⊢
  cases reported : projectReports e s with
  | error f =>
    rw [reported] at ok
    cases ok
  | ok reports =>
    have delivery : Delivery (projectDirectory s) reports (s.emit (projectEvents e s)) (projectEnd e s) := by
      rw [projectEnd, reported]
      exact delivery_forM (projectDirectory s) reports e _
    obtain ⟨sent, events, published⟩ := delivery.sent
    have told (file : String) : (projectEvents e s ++ sent).filterMap (published? (ofFilePath file).text) =
        (reportsOn s.tree (projectDirectory s) file reports).map fun r =>
          r.violations.map (Diagnostic.ofViolation
            (reportedText s (ofFilePath file).text (Path.join (projectDirectory s) r.path))) := by
      rw [List.filterMap_append, published?_projectEvents, List.nil_append, published, ← reportsUnder_ofFilePath]
      rfl
    refine ⟨reports, projectEvents e s ++ sent, _, rfl, rfl, events.trans (List.append_assoc ..), delivery.text?,
      fun key d tracked => ⟨fun unreported => ?_, fun file denoted => ⟨fun spelled => ?_, fun other => ?_⟩⟩⟩
    · exact delivery.document?_of_nil tracked (reportsUnder_of_unreported unreported)
    · subst spelled
      refine ⟨?_, ?_⟩
      · rw [delivery.document?, ← reportsUnder_ofFilePath]
        exact congrArg _ tracked
      · rw [told]
        refine List.map_congr_left fun r _ => ?_
        rw [reportedText, tracked]
    · refine ⟨delivery.document?_of_nil tracked (reportsUnder_of_spelled fun file' denoted' => ?_), told file⟩
      obtain rfl := Option.some.inj (denoted.symm.trans denoted')
      exact other

/-- A linter that reports one finding on a file. -/
def reportingOn (path : String) : Environment := .granting <|
  "[\x7b\"filepath\": \"" ++ path ++ "\", \"violations\": [\x7b\"code\": \"LT01\", \"description\": \"spaces\", " ++
    "\"start_line_no\": 1, \"start_line_pos\": 1\x7d]\x7d]"

/-- A session in a workspace with one document. -/
def editingIn (root key : String) (text : List Char) : Session :=
  Session.installed
    ⟨{ phase := .running, root := some root, active := some key, documents := [(key, ⟨text, "sql", []⟩)] },
      .empty ((Path.names root).drop 1), []⟩

/-- The document of a file, under the name that the server gives it. -/
def spelledAlike : Session := editingIn "/w" "file:///w/a%2Bb" ['a']

theorem lintProject_reaches_spelled_alike :
    (executeCommand "sqlfluff.lintProject" [] (reportingOn "a+b") spelledAlike).2.server.document? "file:///w/a%2Bb" =
      some ⟨['a'], "sql", [spaces]⟩ := by
  have printed : projectReports (reportingOn "a+b") spelledAlike = .ok [⟨"a+b", [spaces]⟩] := by decide +kernel
  have ok : (executeCommand "sqlfluff.lintProject" [] (reportingOn "a+b") spelledAlike).1 = .ok none := by
    rw [executeCommand_lintProject, printed]
  obtain ⟨reports, sent, s', reported, ran, -, -, documents⟩ := lintProject_reaches_spelled _ _ _ _ ok
  obtain rfl := Except.ok.inj (printed.symm.trans reported)
  obtain ⟨-, reached⟩ := documents "file:///w/a%2Bb" ⟨['a'], "sql", []⟩ rfl
  rw [ran, ((reached "/w/a+b" (by decide +kernel)).1 (by decide +kernel)).1]
  decide +kernel

/-- The same document under a name that denotes the same file. -/
def spelledOtherwise : Session := editingIn "/w" "file:///w/a+b" ['a']

/-- A document is not always reached by the reports on the file that it denotes. -/
theorem not_lintProject_reaches_denoted : ¬ ∀ (e : Environment) (s : Session) (arguments : List Json)
    (answer : Option (List String)) (reports : List FileReport) (key : String) (d : Document) (file : String),
    (executeCommand "sqlfluff.lintProject" arguments e s).1 = .ok answer → projectReports e s = .ok reports →
      s.server.document? key = some d → denoted? key = some file →
        (executeCommand "sqlfluff.lintProject" arguments e s).2.server.document? key =
          some (lastFindings (reportsOn s.tree (projectDirectory s) file reports) d) := by
  intro reaches
  have printed : projectReports (reportingOn "a+b") spelledOtherwise = .ok [⟨"a+b", [spaces]⟩] := by decide +kernel
  have ok : (executeCommand "sqlfluff.lintProject" [] (reportingOn "a+b") spelledOtherwise).1 = .ok none := by
    rw [executeCommand_lintProject, printed]
  have reached := reaches _ spelledOtherwise [] none _ "file:///w/a+b" ⟨['a'], "sql", []⟩ "/w/a+b" ok printed rfl
    (by decide +kernel)
  have kept : (executeCommand "sqlfluff.lintProject" [] (reportingOn "a+b") spelledOtherwise).2.server.document?
      "file:///w/a+b" = some ⟨['a'], "sql", []⟩ := by decide +kernel
  have found : lastFindings (reportsOn spelledOtherwise.tree (projectDirectory spelledOtherwise) "/w/a+b"
      [⟨"a+b", [spaces]⟩]) ⟨['a'], "sql", []⟩ = ⟨['a'], "sql", [spaces]⟩ := by decide +kernel
  rw [kept, found] at reached
  cases reached

end SqlLint.Server
