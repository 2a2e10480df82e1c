import SqlLint.Proofs.Server.Calls
import SqlLint.Server.Message

/-! # When the linter is called, and on what

While the session runs, the linter is called when a message asks for it and only then: to lint or to fix the
text that a document has after the message, or to lint a whole directory. -/
namespace SqlLint
open Relation

/-- The identifiers of a message are read from their texts. -/
def Notification.IsRead : Notification → Prop
  | .opened uri _ _ | .changed uri _ | .saved uri _ | .closed uri => uri.IsRead
  | _ => True

def Request.IsRead : Request → Prop
  | .formatting uri | .hover uri _ | .codeAction uri _ => uri.IsRead
  | _ => True

def Input.IsRead : Input → Prop
  | .request r _ => r.IsRead
  | .notification n _ => n.IsRead
  | .files _ => True

namespace Message

theorem isRead_of_uri? {j : Json} {uri : Uri} (h : uri? j = some uri) : uri.IsRead := by
  obtain ⟨text, -, hu⟩ := Option.bind_eq_some_iff.1 h
  exact Uri.isRead_of_parse? hu

theorem isRead_of_member? {key : String} {j : Json} {uri : Uri} (h : member? uri? key j = some uri) :
    uri.IsRead := by
  obtain ⟨value, -, hu⟩ := Option.bind_eq_some_iff.1 h
  exact isRead_of_uri? hu

theorem isRead_of_document? {j : Json} {uri : Uri} (h : document? j = some uri) : uri.IsRead := by
  obtain ⟨item, -, hu⟩ := Option.bind_eq_some_iff.1 h
  exact isRead_of_member? hu

/-- Messages only have identifiers that were read. -/
theorem isRead_of_notification? {method : String} {j : Json} {n : Notification}
    (h : notification? method j = some n) : n.IsRead := by
  unfold notification? at h
  split at h
  · cases h
    trivial
  · obtain ⟨item, -, h⟩ := Option.bind_eq_some_iff.1 h
    obtain ⟨uri, hu, h⟩ := Option.bind_eq_some_iff.1 h
    obtain ⟨language, -, h⟩ := Option.bind_eq_some_iff.1 h
    obtain ⟨text, -, h⟩ := Option.bind_eq_some_iff.1 h
    cases h
    exact isRead_of_member? hu
  · obtain ⟨uri, hu, h⟩ := Option.bind_eq_some_iff.1 h
    obtain ⟨changes, -, h⟩ := Option.bind_eq_some_iff.1 h
    cases h
    exact isRead_of_document? hu
  · obtain ⟨uri, hu, rfl⟩ := Option.map_eq_some_iff.1 h
    exact isRead_of_document? hu
  · obtain ⟨uri, hu, rfl⟩ := Option.map_eq_some_iff.1 h
    exact isRead_of_document? hu
  · obtain ⟨settings, -, rfl⟩ := Option.map_eq_some_iff.1 h
    trivial
  · cases h

theorem isRead_of_request? {method : String} {j : Json} {r : Request} (h : request? method j = some r) :
    r.IsRead := by
  unfold request? at h
  split at h
  · cases h
    trivial
  · cases h
    trivial
  · obtain ⟨uri, hu, rfl⟩ := Option.map_eq_some_iff.1 h
    exact isRead_of_document? hu
  · obtain ⟨uri, hu, h⟩ := Option.bind_eq_some_iff.1 h
    obtain ⟨position, -, h⟩ := Option.bind_eq_some_iff.1 h
    cases h
    exact isRead_of_document? hu
  · obtain ⟨sent, -, h⟩ := Option.bind_eq_some_iff.1 h
    obtain ⟨uri, hu, h⟩ := Option.bind_eq_some_iff.1 h
    cases h
    exact isRead_of_document? hu
  · obtain ⟨name, -, rfl⟩ := Option.map_eq_some_iff.1 h
    trivial
  · cases h

end Message

namespace Server

variable {e : Environment} {s : Server} {n : Notification}

theorem tracked_update (s : Server) (uri : String) (f : Document → Document) :
    (s.update uri f).tracked = s.tracked := by
  rw [tracked, update, List.map_map, tracked]
  refine List.map_congr_left fun d _ => ?_
  rw [Function.comp_apply]
  split <;> rfl

theorem tracked_of_turn {s s' : Session} (h : ReflTransGen (Turn e) s s') :
    s'.server.tracked = s.server.tracked := by
  refine Turn.keeps (f := fun s => s.server.tracked) (fun s s' hm => ?_) (fun _ => rfl) (fun _ => rfl) h
  cases hm with
  | publish uri violations text => exact tracked_update s.server uri _
  | _ => rfl

theorem Filed.of_tracked {s' : Server} (filed : s.Filed) (h : s'.tracked = s.tracked) : s'.Filed := by
  refine ⟨?_, ?_⟩ <;> rw [h]
  · exact filed.nodup
  · exact filed.read

theorem filed_openDocument (filed : s.Filed) {uri : Uri} (read : uri.IsRead) (d : Document) :
    (s.openDocument uri.text d).Filed := by
  unfold openDocument
  split
  · exact filed.of_tracked (tracked_update s uri.text _)
  · next closed =>
    have new : uri.text ∉ s.tracked := by
      intro h
      obtain ⟨d, hd, same⟩ := List.mem_map.1 h
      have found := filed.document? hd
      rw [same] at found
      exact closed (by rw [isOpen, found, Option.isSome_some])
    have names : Server.tracked { s with documents := s.documents ++ [(uri.text, d)] } = s.tracked ++ [uri.text] :=
      List.map_append
    refine ⟨?_, fun key hk => ?_⟩
    · rw [names, ← List.concat_eq_append]
      exact filed.nodup.concat new
    · rw [names, List.mem_append, List.mem_singleton] at hk
      rcases hk with hk | rfl
      · exact filed.read key hk
      · exact Option.isSome_iff_exists.2 ⟨uri, read⟩

theorem filed_closeDocument (filed : s.Filed) (uri : String) : (s.closeDocument uri).Filed where
  nodup := filed.nodup.sublist (List.filter_sublist.map _)
  read key hk := filed.read key ((List.filter_sublist.map _).subset hk)

theorem filed_deed (filed : s.Filed) (read : n.IsRead) : (deed n s).Filed := by
  have amended (uri : String) (f : List Char → List Char) : (deed.amend uri f s).Filed := by
    unfold deed.amend
    split
    · exact (filed.of_tracked (tracked_update s uri fun d => { d with text := f d.text })).of_tracked rfl
    · exact filed
  cases n with
  | opened uri language text =>
    rw [deed]
    split
    · exact (filed_openDocument filed read _).of_tracked rfl
    · exact filed
  | changed uri changes => exact amended uri.text (Change.applyAll · changes)
  | saved uri text => exact amended uri.text (text.getD ·)
  | closed uri => exact filed_closeDocument filed uri.text
  | configured sent => exact filed.of_tracked rfl
  | stop => exact filed.of_tracked rfl
  | _ => exact filed

/-- A document that is opened has the text and the language with which it came. -/
theorem document?_deed_opened {uri : Uri} {language : String} {text : List Char}
    (supported : Provider.isSupported language = true) :
    (deed (.opened uri language text) s).document? uri.text = some ⟨text, language, []⟩ := by
  rw [deed, if_pos supported, document?_activate, document?_openDocument, if_pos rfl]

end Server

namespace Session
open Server

variable {s : Session} {i : Input}

theorem filed_heard (filed : s.server.Filed) (read : i.IsRead) : (s.heard i).server.Filed := by
  cases i with
  | files t => exact filed
  | request r e =>
    have asked : (Request.deed r s.server).tracked = s.server.tracked := by
      cases r with
      | start p =>
        rw [Request.deed]
        cases p.options <;> rfl
      | _ => rfl
    rw [heard_request]
    generalize (if Request.starts r then Phase.waiting else Phase.running) = turn
    split
    · exact filed.of_tracked asked
    · exact filed
  | notification n e =>
    by_cases last : n = .exit
    · subst last
      exact filed.of_tracked rfl
    · rw [heard_notification last]
      split
      · exact filed_deed filed read
      · exact filed

theorem filed_step (filed : s.server.Filed) (read : i.IsRead) : (s.step i).server.Filed := by
  have heard := filed_heard filed read
  rcases step_turn s i with hs | ⟨e, -, ht⟩
  · exact hs.symm ▸ heard
  · exact heard.of_tracked (tracked_of_turn ht)

theorem filed_run {inputs : List Input} (filed : s.server.Filed) (read : ∀ j ∈ inputs, j.IsRead) :
    (s.run inputs).server.Filed := by
  induction inputs generalizing s with
  | nil => exact filed
  | cons i inputs ih =>
    exact ih (filed_step filed (read i List.mem_cons_self)) fun j hj => read j (List.mem_cons_of_mem i hj)

theorem filed_fresh (globalFile : Option String) (t : Tree) : (fresh globalFile t).server.Filed :=
  ⟨List.nodup_nil, nofun⟩

/-- The calls of the linter while the server works on an input. -/
def callsOf (s : Session) (i : Input) : List Invocation := (s.sent i).filterMap Event.call?

/-- What was called for an input is what was called after it and not before. -/
theorem callsOf_eq {cs : List Invocation} (h : (s.step i).calls = s.calls ++ cs) : s.callsOf i = cs := by
  have events : ∃ sent, (s.step i).events = s.events ++ sent := by
    rcases step_turn s i with hs | ⟨e, -, ht⟩
    · exact ⟨[], by rw [hs, events_heard, List.append_nil]⟩
    · obtain ⟨sent, hs, -⟩ := Turn.runs_under ht
      exact ⟨sent, by rw [hs, events_heard]⟩
  obtain ⟨sent, hs⟩ := events
  rw [callsOf, sent_eq hs]
  rw [calls, hs, List.filterMap_append] at h
  exact List.append_cancel_left h

/-- The calls that a session makes for an input while it runs. The texts are those that the input itself has
left, and the settings are those that are in force then; an exclusion is in force once it is written. -/
def asks (s : Session) (i : Input) : List Invocation :=
  match i with
  | .notification (.opened uri language text) _ =>
    if Provider.isSupported language = true ∧ (s.heard i).settings.run ≠ .off then
      [Linter.lintInvocation (s.heard i).settings (String.ofList text) uri.filePath? none]
    else []
  | .notification (.changed uri _) _ =>
    if (s.heard i).settings.run = .onType then (s.heard i).lints uri.text else []
  | .notification (.saved uri _) _ =>
    if (s.heard i).settings.run = .onSave then (s.heard i).lints uri.text else []
  | .notification (.closed _) _ => []
  | .notification (.configured _) _ => (s.heard i).lintsAll
  | .request (.formatting uri) _ => s.fixes uri.text
  | .request (.hover ..) _ | .request (.codeAction ..) _ => []
  | .request (.executeCommand name arguments) e =>
    match Command.parse name arguments with
    | .ok (.lint document) => (document <|> s.server.active).toList.flatMap s.lints
    | .ok (.fix document) => (document <|> s.server.active).toList.flatMap s.fixes
    | .ok .lintProject => s.lintsProject
    | .ok (.excludeRule ..) =>
      if (Server.request (.executeCommand name arguments) e s).1.isOk = true then
        lintsAll { s with tree := (s.step i).tree }
      else []
    | .ok (.viewDocumentation _) | .error _ => []
  | .request (.start _) _ | .request .stop _ => []
  | .notification .started _ | .notification .stop _ | .notification .exit _ => []
  | .files _ => []

theorem called_edit {uri : Uri} (read : uri.IsRead) (f : List Char → List Char) (wanted : Trigger → Bool)
    (e : Environment) (s : Session) :
    let heard := { s with server := deed.amend uri.text f s.server }
    (edit uri f wanted e s).2.calls =
      s.calls ++ if wanted heard.settings.run = true then heard.lints uri.text else [] := by
  rw [edit, Handler.bind_apply, Handler.server_apply, deed.amend]
  split
  · rw [Handler.bind_apply, Handler.modifyServer_apply]
    exact (called_lintIf read wanted e _).calls
  · next closed =>
    have untracked : s.lints uri.text = [] := onText_of_closed (Option.not_isSome_iff_eq_none.1 closed) _
    change s.calls = s.calls ++ if wanted s.settings.run = true then s.lints uri.text else []
    rw [untracked, ite_self, List.append_nil]

theorem call?_requestFor {r : List Provider → EditorRequest} (providers : List Provider) :
    (requestFor r providers).filterMap Event.call? = [] := by
  rw [requestFor]
  split <;> rfl

theorem calls_released (s : Session) : (released s).calls = s.calls := by
  rw [released, calls_emit, call?_requestFor, List.append_nil]
  rfl

theorem call?_syncEvents (e : Environment) (s : Session) : (syncEvents e s).filterMap Event.call? = [] := by
  have refusals (refused : Option RpcError) : (refusalEvents refused).filterMap Event.call? = [] := by
    cases refused <;> rfl
  simp only [syncEvents, List.filterMap_append, call?_settingsWarnings, call?_requestFor, refusals, List.append_nil]

theorem call?_faultEvents (sent : Json) : (faultEvents sent).filterMap Event.call? = [] := by
  rw [faultEvents]
  split <;> rfl

/-- Bringing providers in line has nothing to do with what is linted. -/
theorem syncProviders_quiet (e : Environment) (s : Session) :
    (syncProviders e s).2.calls = s.calls ∧ (syncProviders e s).2.lintsAll = s.lintsAll ∧
      (syncProviders e s).2.server.documents = s.server.documents := by
  rw [syncProviders_apply]
  split
  · refine ⟨?_, rfl, rfl⟩
    rw [synced, calls_emit, call?_syncEvents, List.append_nil]
    rfl
  · exact ⟨rfl, rfl, rfl⟩

theorem calls_didOpen {uri : Uri} (read : uri.IsRead) (language : String) (text : List Char) (e : Environment)
    (s : Session) :
    let heard := { s with server := deed (.opened uri language text) s.server }
    (didOpen uri language text e s).2.calls = s.calls ++
      if Provider.isSupported language = true ∧ heard.settings.run ≠ .off then
        [Linter.lintInvocation heard.settings (String.ofList text) uri.filePath? none]
      else [] := by
  intro heard
  by_cases supported : Provider.isSupported language = true
  · have opened : deed (.opened uri language text) s.server =
        activate uri.text (s.server.openDocument uri.text ⟨text, language, []⟩) := if_pos supported
    have found : heard.server.document? uri.text = some ⟨text, language, []⟩ :=
      document?_deed_opened supported
    have once : heard.lints uri.text =
        [Linter.lintInvocation heard.settings (String.ofList text) uri.filePath? none] :=
      onText_of_open read found _
    have linted := called_lintIf read (· ≠ .off) e (heard.emit [.log .info ("Opened document: " ++ uri.text)])
    have calls : (heard.emit [.log .info ("Opened document: " ++ uri.text)]).calls = s.calls := by
      rw [calls_emit]
      exact List.append_nil _
    have run : didOpen uri language text e s =
        lintIf (· ≠ .off) uri e (heard.emit [.log .info ("Opened document: " ++ uri.text)]) := by
      rw [show heard = { s with server := deed (.opened uri language text) s.server } from rfl, opened, didOpen,
        if_pos supported]
      rfl
    rw [run, linted.calls, calls, ← once]
    simp only [decide_eq_true_eq, supported, true_and]
    rfl
  · rw [didOpen, if_neg supported, if_neg fun h => supported h.1, List.append_nil]
    rfl

theorem calls_receive (filed : s.server.Filed) (running : s.server.phase = .running) {n : Notification}
    (read : n.IsRead) (e : Environment) : (receive n e s).2.calls = s.calls ++ s.asks (.notification n e) := by
  have heard (last : n ≠ .exit) : s.heard (.notification n e) = { s with server := deed n s.server } := by
    rw [heard_notification last, if_pos running]
  cases n with
  | opened uri language text =>
    rw [asks, heard nofun]
    exact calls_didOpen read language text e s
  | changed uri changes =>
    have edited := called_edit read (Change.applyAll · changes) (· = .onType) e s
    simp only [decide_eq_true_eq] at edited
    rw [asks, heard nofun]
    exact edited
  | saved uri text =>
    have edited := called_edit read (text.getD ·) (· = .onSave) e s
    simp only [decide_eq_true_eq] at edited
    rw [asks, heard nofun]
    exact edited
  | configured sent =>
    have taken : (deed (.configured sent) s.server).Filed := filed_deed filed read
    rw [receive_configured, asks, heard nofun]
    obtain ⟨calls, lints, documents⟩ := syncProviders_quiet e
      ({ s with server := taking sent s.server }.emit (faultEvents sent))
    have linted := called_lintOpenDocuments (taken.of_tracked (congrArg (List.map Prod.fst) documents)) e
    rw [linted.calls, calls, lints, calls_emit, call?_faultEvents, List.append_nil]
    rfl
  | started =>
    have synced := (syncProviders_quiet e s).1
    exact (calls_emit _ [.log .info _]).trans (synced ▸ rfl)
  | closed uri => exact calls_emit _ [.publish uri.text []]
  | stop => exact (List.append_nil _).symm
  | exit => exact (List.append_nil _).symm

theorem silent_configure (sent : Json) : Handler.Silent (configure sent) := by
  intro e s
  rw [configure_apply]
  refine ⟨?_, rfl⟩
  rw [calls_emit, call?_faultEvents]
  rfl

theorem silent_start (p : StartParams) : Handler.Silent (start p) := by
  have greeted : Handler.Silent (do
      Handler.modifyServer fun s => { s with dynamic := p.dynamic }
      if p.dynamic then return greeting [] else return greeting (Provider.wanted (← loadSettings))) := by
    refine Handler.silent_bind (Handler.silent_modifyServer _) fun _ => ?_
    split
    · exact Handler.silent_pure _
    · exact Handler.silent_bind silent_loadSettings fun _ => Handler.silent_pure _
  refine Handler.silent_bind (Handler.silent_modifyServer _) fun _ => ?_
  cases p.options with
  | none => exact greeted
  | some sent => exact Handler.silent_bind (silent_configure sent) fun _ => greeted

theorem calls_command (filed : s.server.Filed) (running : s.server.phase = .running) (name : String)
    (arguments : List Json) (e : Environment) : (answer (.executeCommand name arguments) e s).2.calls =
      s.calls ++ s.asks (.request (.executeCommand name arguments) e) := by
  have answered : (answer (.executeCommand name arguments) e s).2 = (executeCommand name arguments e s).2 := rfl
  have heard : (request (.executeCommand name arguments) e s) = answer (.executeCommand name arguments) e s := by
    rw [request_apply, running]
    rfl
  rw [answered, asks]
  cases parsed : Command.parse name arguments with
  | error f =>
    rw [executeCommand_refused parsed]
    exact (List.append_nil _).symm
  | ok command =>
    cases command with
    | excludeRule rule scope =>
      have succeeds : (answer (.executeCommand name arguments) e s).1.isOk =
          (executeCommand name arguments e s).1.isOk := by
        rw [answer, Handler.bind_apply]
        cases (executeCommand name arguments e s).1 <;> rfl
      rw [calls_excludeCommand filed parsed e, step, heard, succeeds]
      rfl
    | viewDocumentation rule => exact (called_executeCommand parsed rfl (called_documentationCommand rule e s)).calls
    | lint document => exact (called_executeCommand parsed rfl (called_lintCommand filed e document)).calls
    | lintProject => exact (called_executeCommand parsed rfl (called_lintProjectCommand e s)).calls
    | fix document => exact (called_executeCommand parsed rfl (called_fixCommand filed e document)).calls

theorem calls_answer (filed : s.server.Filed) (running : s.server.phase = .running) {r : Request}
    (read : r.IsRead) (other : ∀ p, r ≠ .start p) (e : Environment) :
    (answer r e s).2.calls = s.calls ++ s.asks (.request r e) := by
  cases r with
  | start p => exact absurd rfl (other p)
  | stop =>
    rw [answer_stop]
    exact (calls_released _).trans (List.append_nil _).symm
  | formatting uri => exact (Handler.called_bind (called_formatting read e s) fun _ => Handler.silent_pure _).calls
  | hover uri position => exact (Handler.silent_bind Handler.silent_server (fun _ => Handler.silent_pure _) e s).calls
  | codeAction uri ds =>
    exact (Handler.silent_bind (silent_codeActions uri ds) (fun _ => Handler.silent_pure _) e s).calls
  | executeCommand name arguments =>
    exact calls_command filed running name arguments e

theorem silent_request_start (p : StartParams) : Handler.Silent (request (.start p)) := by
  refine Handler.silent_bind Handler.silent_server fun s => ?_
  split
  · exact Handler.silent_pure _
  · exact Handler.silent_bind (silent_start p) fun _ =>
      Handler.silent_bind (Handler.silent_modifyServer _) fun _ => Handler.silent_pure _

theorem calls_request (filed : s.server.Filed) {r : Request} (read : r.IsRead) (other : ∀ p, r ≠ .start p)
    (e : Environment) : (request r e s).2.calls =
      s.calls ++ if s.server.phase = .running then s.asks (.request r e) else [] := by
  split
  · next running =>
    have answered : request r e s = answer r e s := by
      rw [request_apply, running]
      cases r with
      | start p => exact absurd rfl (other p)
      | _ => rfl
    rw [answered]
    exact calls_answer filed running read other e
  · next halted =>
    rw [List.append_nil]
    rcases request_cases r e s with same | ⟨p, hp, -⟩ | ⟨-, running, -⟩
    · rw [same]
    · exact absurd hp (other p)
    · exact absurd running halted

/-- Whatever an input is, the linter is called as the input asks, and not while the session is not running. -/
theorem calls_step (filed : s.server.Filed) (read : i.IsRead) :
    (s.step i).calls = s.calls ++ if s.server.phase = .running then s.asks i else [] := by
  cases i with
  | files t => simp [step, asks, calls]
  | request r e =>
    by_cases first : ∃ p, r = .start p
    · obtain ⟨p, rfl⟩ := first
      rw [asks, ite_self]
      exact (silent_request_start p e s).calls
    · exact calls_request filed (show r.IsRead from read) (fun p hp => first ⟨p, hp⟩) e
  | notification n e =>
    by_cases last : n = .exit
    · subst last
      rw [asks, ite_self, List.append_nil]
      rfl
    · rw [step, notify_apply last]
      split
      · next running => exact calls_receive filed running read e
      · exact (List.append_nil _).symm

theorem text?_step_heard (s : Session) (i : Input) : (s.step i).server.text? = (s.heard i).server.text? := by
  rcases step_turn s i with hs | ⟨e, -, ht⟩
  · rw [hs]
  · exact text?_of_turn ht

theorem root_step_heard (s : Session) (i : Input) : (s.step i).server.root = (s.heard i).server.root := by
  rcases step_turn s i with hs | ⟨e, -, ht⟩
  · rw [hs]
  · exact Turn.keeps (f := fun s => s.server.root) (fun _ _ => Move.root) (fun _ => rfl) (fun _ => rfl) ht

/-- A call gets the text of a tracked document. Only one that lints the workspace by its path gets none. -/
inductive GetsText (s : Session) : Invocation → Prop
  | document {call : Invocation} {uri : String} {text : List Char} (tracked : s.server.text? uri = some text)
    (given : call.input = some (String.ofList text)) : GetsText s call
  | workspace {root : String} (settings : Settings) (directory : Option String) (known : s.server.root = some root) :
    GetsText s (Linter.pathInvocation settings root directory)

variable {s' : Session} {call : Invocation}

theorem GetsText.of_same (gets : s.GetsText call) (texts : s'.server.text? = s.server.text?)
    (root : s'.server.root = s.server.root) : s'.GetsText call := by
  cases gets with
  | document tracked given => exact .document (texts ▸ tracked) given
  | workspace settings directory known => exact .workspace settings directory (root.trans known)

theorem getsText_onText {key : String} {on : Settings → String → Option String → Option String → Invocation}
    (input : ∀ settings text file directory, (on settings text file directory).input = some text)
    (h : call ∈ s.onText on key) : s.GetsText call := by
  unfold onText at h
  split at h
  · next text found =>
    rw [List.mem_singleton.1 h]
    exact .document found (input ..)
  · cases h

theorem getsText_lints {key : String} (h : call ∈ s.lints key) : s.GetsText call :=
  getsText_onText (fun _ _ _ _ => rfl) h

theorem getsText_fixes {key : String} (h : call ∈ s.fixes key) : s.GetsText call := by
  unfold fixes at h
  split at h
  · exact getsText_onText (fun _ _ _ _ => rfl) h
  · cases h

theorem getsText_lintsAll (filed : s.server.Filed) (h : call ∈ s.lintsAll) : s.GetsText call := by
  unfold lintsAll at h
  split at h
  · rw [← filed.lints] at h
    obtain ⟨key, -, hk⟩ := List.mem_flatMap.1 h
    exact getsText_lints hk
  · cases h

theorem getsText_lintsProject (h : call ∈ s.lintsProject) : s.GetsText call := by
  unfold lintsProject at h
  split at h
  · obtain ⟨root, known, rfl⟩ := List.mem_map.1 h
    exact .workspace _ _ (Option.mem_toList.1 known)
  · cases h

/-- A command leaves the texts as they are, and the linter gets these. -/
theorem getsText_command (filed : s.server.Filed) {name : String} {arguments : List Json} {e : Environment}
    (h : call ∈ s.asks (.request (.executeCommand name arguments) e)) : s.GetsText call := by
  rw [asks] at h
  split at h
  · obtain ⟨key, -, hk⟩ := List.mem_flatMap.1 h
    exact getsText_lints hk
  · obtain ⟨key, -, hk⟩ := List.mem_flatMap.1 h
    exact getsText_fixes hk
  · exact getsText_lintsProject h
  · have all := (List.mem_ite_nil_right.1 h).2
    generalize (s.step (.request (.executeCommand name arguments) e)).tree = t at all
    have gets : GetsText { s with tree := t } call := getsText_lintsAll filed all
    exact gets.of_same rfl rfl
  · cases h
  · cases h

/-- Whatever an input asks for, the linter gets the text that the input leaves. -/
theorem getsText_asks (filed : s.server.Filed) (running : s.server.phase = .running) (read : i.IsRead)
    (h : call ∈ s.asks i) : (s.heard i).GetsText call := by
  have heard := filed_heard filed read
  cases i with
  | files t => cases h
  | notification n e =>
    cases n with
    | opened uri language text =>
      obtain ⟨⟨supported, -⟩, one⟩ := List.mem_ite_nil_right.1 h
      have goesOn : Notification.opened uri language text ≠ .exit := nofun
      have found : (s.heard (.notification (.opened uri language text) e)).server.text? uri.text = some text := by
        rw [heard_notification goesOn, if_pos running, text?, document?_deed_opened supported, Option.map_some]
      rw [List.mem_singleton.1 one]
      exact .document found rfl
    | changed uri changes => exact getsText_lints (List.mem_ite_nil_right.1 h).2
    | saved uri text => exact getsText_lints (List.mem_ite_nil_right.1 h).2
    | configured sent => exact getsText_lintsAll heard h
    | _ => cases h
  | request r e =>
    cases r with
    | formatting uri =>
      have same : s.heard (.request (.formatting uri) e) = s := by
        rw [heard_request, running]
        rfl
      rw [same]
      exact getsText_fixes h
    | executeCommand name arguments =>
      have same : s.heard (.request (.executeCommand name arguments) e) = s := by
        rw [heard_request, running]
        rfl
      rw [same]
      exact getsText_command filed h
    | _ => cases h

/-- After every run, an input has the linter called as it asks if the session runs, and else not at all. Each
document that the linter is called on has the very text that it has when the input is done with. -/
theorem calls_of_run (globalFile : Option String) (t : Tree) (inputs : List Input) (i : Input)
    (read : ∀ j ∈ inputs ++ [i], j.IsRead) :
    ((fresh globalFile t).run inputs).callsOf i =
        (if (History.of inputs).phase = .running then ((fresh globalFile t).run inputs).asks i else []) ∧
      ∀ call ∈ ((fresh globalFile t).run inputs).callsOf i,
        (((fresh globalFile t).run inputs).step i).GetsText call := by
  have earlier : ∀ j ∈ inputs, j.IsRead := fun j hj => read j (List.mem_append_left _ hj)
  have last : i.IsRead := read i (List.mem_append_right _ List.mem_cons_self)
  have filed := filed_run (filed_fresh globalFile t) earlier
  have phase := (follows_run (follows_fresh globalFile t) inputs).phase
  have calls := callsOf_eq (calls_step filed last)
  rw [phase] at calls
  refine ⟨calls, fun call hc => ?_⟩
  rw [calls] at hc
  obtain ⟨running, asked⟩ := List.mem_ite_nil_right.1 hc
  exact (getsText_asks filed (phase.trans running) last asked).of_same (text?_step_heard _ _) (root_step_heard _ _)

def newDocument : Uri := ⟨"untitled:a", ['a']⟩

/-- A session that starts and opens a document, where the linter always prints an empty report. -/
def startedWithDocument : List Input :=
  [.request (.start ⟨[], none, none, false⟩) (.granting "[]"),
    .notification (.opened newDocument "sql" ['a']) (.granting "[]")]

def changedNext : Input := .notification (.changed newDocument [⟨none, ['b']⟩]) (.granting "[]")

theorem calls_of_run_typed : ((fresh none (.empty [])).run startedWithDocument).callsOf changedNext =
    [⟨⟨"sqlfluff", ["lint", "--format", "json", "--stdin-filename", "a", "-"], none, some "b"⟩, some 30⟩] := by
  have read : ∀ j ∈ startedWithDocument ++ [changedNext], j.IsRead :=
    List.forall_mem_cons.2 ⟨trivial, List.forall_mem_cons.2 ⟨rfl, List.forall_mem_singleton.2 rfl⟩⟩
  rw [(calls_of_run none (.empty []) startedWithDocument changedNext read).1]
  decide +kernel

/-- A document that is opened after the server was told to stop is not linted. -/
theorem calls_of_run_after_stop :
    ¬ ∀ (globalFile : Option String) (t : Tree) (inputs : List Input) (uri : Uri) (language : String)
      (text : List Char) (e : Environment), uri.IsRead → Provider.isSupported language = true →
      ((((fresh globalFile t).run inputs).callsOf (.notification (.opened uri language text) e)).length = 1 ↔
        ((fresh globalFile t).run inputs).settings.run ≠ .off) := by
  intro h
  have once := (h none (.empty []) [.request (.start ⟨[], none, none, false⟩) (.granting "[]"),
    .request .stop (.granting "[]")] newDocument "sql" ['a'] (.granting "[]") rfl rfl).2 nofun
  cases once

end Session
end SqlLint
