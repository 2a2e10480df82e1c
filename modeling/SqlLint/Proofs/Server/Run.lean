import SqlLint.Proofs.Server.Tasks

/-! # Runs of a session

A run takes what reaches the server one input after another: requests and notifications, each with how
the editor and the linter answer meanwhile, and what others do to the files. -/
namespace SqlLint
open Relation

/-- Whether a notification has the server bring its providers in line. -/
def Notification.isAdjusting : Notification → Bool
  | .started | .configured _ => true
  | _ => false

inductive Input
  | request (r : Request) (e : Environment)
  | notification (n : Notification) (e : Environment)
  | files (t : Tree)

/-- How the editor and the linter answer while an input is worked on. -/
def Input.environment? : Input → Option Environment
  | .request _ e | .notification _ e => some e
  | .files _ => none

/-- Whether the server's providers may change with an input. -/
def Input.isAdjusting : Input → Bool
  | .request .stop _ => true
  | .notification n _ => n.isAdjusting
  | _ => false

namespace Session

/-- The session of a server that has heard nothing yet. -/
def fresh (globalFile : Option String) (t : Tree) : Session := ⟨{ globalFile := globalFile }, t, []⟩

def step (s : Session) : Input → Session
  | .request r e => (Server.request r e s).2
  | .notification n e => (Server.notify n e s).2
  | .files t => { s with tree := t }

def run (s : Session) (inputs : List Input) : Session := inputs.foldl step s

@[simp] theorem run_nil (s : Session) : s.run [] = s := rfl

@[simp] theorem run_cons (s : Session) (i : Input) (inputs : List Input) :
    s.run (i :: inputs) = (s.step i).run inputs := rfl

theorem run_append (s : Session) (as bs : List Input) : s.run (as ++ bs) = (s.run as).run bs := by
  simp [run]

/-- Whether the session has come to its end: nothing but the last notification is heard any more. -/
def isOver (s : Session) : Prop := s.server.phase = .stopped ∨ s.server.phase = .exited

end Session

namespace Server
open Handler

variable {e : Environment} {s : Session}

@[simp] theorem setPhase_apply (phase : Phase) (e : Environment) (s : Session) :
    setPhase phase e s = ((), { s with server := { s.server with phase := phase } }) := rfl

theorem request_apply (r : Request) (e : Environment) (s : Session) :
    request r e s = match refusal? s.server.phase (Request.starts r) with
      | some refusal => (.error refusal, s)
      | none => answer r e s := by
  rw [request, bind_apply, server_apply]
  dsimp only
  cases refusal? s.server.phase (Request.starts r) <;> rfl

/-- Nothing of a request is heard but the one that starts the session before it runs, and the others
while it runs. -/
theorem request_cases (r : Request) (e : Environment) (s : Session) :
    (request r e s).2 = s ∨
    (∃ p, r = .start p ∧ s.server.phase = .waiting ∧ request r e s = answer r e s) ∨
    ((∀ p, r ≠ .start p) ∧ s.server.phase = .running ∧ request r e s = answer r e s) := by
  rw [request_apply]
  cases hr : refusal? s.server.phase (Request.starts r) with
  | some refusal => exact .inl rfl
  | none =>
    right
    cases r with
    | start p =>
      left
      refine ⟨p, rfl, ?_, rfl⟩
      generalize s.server.phase = phase at hr
      cases phase <;> first | rfl | cases hr
    | _ =>
      right
      refine ⟨nofun, ?_, rfl⟩
      generalize s.server.phase = phase at hr
      cases phase <;> first | rfl | cases hr

/-- The editor's settings after it has sent some: faulty ones change nothing. -/
def taking (sent : Json) (s : Server) : Server :=
  { s with client := (Layer.ofJson sent).toOption.getD s.client }

/-- The warning about faulty settings from the editor. -/
def faultEvents (sent : Json) : List Event :=
  match Layer.ofJson sent with
  | .ok _ => []
  | .error f => [.log .warning ("Ignoring invalid client settings: " ++ f.message)]

theorem configure_apply (sent : Json) (e : Environment) (s : Session) :
    configure sent e s = ((), { s with server := taking sent s.server }.emit (faultEvents sent)) := by
  rw [configure, taking, faultEvents]
  cases Layer.ofJson sent with
  | ok layer => exact congrArg (Prod.mk ()) (Session.emit_nil _).symm
  | error f => rfl

theorem errands_faultEvents (sent : Json) (e : Environment) (s : Session) :
    ReflTransGen (Errand e) s (s.emit (faultEvents sent)) := by
  rw [faultEvents]
  cases Layer.ofJson sent with
  | ok layer => exact (Session.emit_nil s).symm ▸ .refl
  | error f => exact .single (.log .warning _)

/-- What a request does to the server at once, before it moves. -/
def Request.deed (r : Request) (s : Server) : Server :=
  match r with
  | .start p =>
    (p.options.elim id taking) { s with root := rootOf p <|> s.root, dynamic := p.dynamic, phase := .running }
  | .stop => { s with phase := .stopped }
  | _ => s

/-- What a notification does to the server at once, before it moves. -/
def deed (n : Notification) (s : Server) : Server :=
  match n with
  | .opened uri language text =>
    if Provider.isSupported language then activate uri.text (s.openDocument uri.text ⟨text, language, []⟩) else s
  | .changed uri changes => amend uri.text (Change.applyAll · changes) s
  | .saved uri text => amend uri.text (text.getD ·) s
  | .closed uri => s.closeDocument uri.text
  | .configured sent => taking sent s
  | .stop => { s with phase := .stopped }
  | _ => s
where
  amend (uri : String) (f : List Char → List Char) (s : Server) : Server :=
    if s.isOpen uri then activate uri (s.update uri fun d => { d with text := f d.text }) else s

/-- A notification is about documents, the editor's settings and the end of the session, and nothing else. -/
theorem deed_eq (n : Notification) (s : Server) : ∃ documents active client phase,
    (phase = s.phase ∨ phase = .stopped) ∧
      deed n s = { s with documents := documents, active := active, client := client, phase := phase } := by
  have amend (uri : String) (f : List Char → List Char) : ∃ documents active, deed.amend uri f s =
      { s with documents := documents, active := active } := by
    unfold deed.amend
    split <;> exact ⟨_, _, rfl⟩
  cases n with
  | opened uri language text =>
    rw [deed]
    split
    · unfold openDocument
      split <;> exact ⟨_, _, _, _, .inl rfl, rfl⟩
    · exact ⟨_, _, _, _, .inl rfl, rfl⟩
  | changed uri changes =>
    obtain ⟨documents, active, h⟩ := amend uri.text (Change.applyAll · changes)
    exact ⟨documents, active, s.client, s.phase, .inl rfl, h⟩
  | saved uri text =>
    obtain ⟨documents, active, h⟩ := amend uri.text (text.getD ·)
    exact ⟨documents, active, s.client, s.phase, .inl rfl, h⟩
  | stop => exact ⟨_, _, _, _, .inr rfl, rfl⟩
  | _ => exact ⟨_, _, _, _, .inl rfl, rfl⟩

theorem edit_tasks (uri : Uri) (f : List Char → List Char) (wanted : Trigger → Bool) (e : Environment)
    (s : Session) :
    ReflTransGen (Task e) { s with server := deed.amend uri.text f s.server } (edit uri f wanted e s).2 := by
  rw [edit, bind_apply, server_apply, deed.amend]
  split
  · rw [bind_apply, modifyServer_apply]
    exact tasks_lintIf wanted uri e _
  · exact .refl

theorem document?_closeDocument (s : Server) (uri other : String) :
    (s.closeDocument uri).document? other = if other = uri then none else s.document? other := by
  simp only [document?, closeDocument]
  induction s.documents with
  | nil => simp
  | cons d documents ih =>
    obtain ⟨k, v⟩ := d
    by_cases hk : k = uri
    · subst hk
      by_cases ho : other = k
      · subst ho
        simpa using ih
      · simpa [ho, List.lookup_cons, beq_false_of_ne ho] using ih
    · by_cases ho : other = k
      · subst ho
        simp [hk]
      · simpa [hk, List.lookup_cons, beq_false_of_ne ho] using ih

/-- A document that is closed has no findings to change. -/
theorem setViolations_closeDocument (uri : String) (violations : List Violation) (s : Server) :
    setViolations uri violations (s.closeDocument uri) = s.closeDocument uri := by
  have h (d : String × Document) (hd : d ∈ (s.closeDocument uri).documents) :
      (if d.1 = uri then (d.1, { d.2 with violations := violations }) else d) = id d := by
    have hu : d.1 ≠ uri := by simpa using (List.mem_filter.1 hd).2
    exact if_neg hu
  rw [setViolations, update, List.map_congr_left h, List.map_id]

/-- Of a document that was closed no findings are kept, and the editor is told that there are none. -/
theorem receive_closed (uri : Uri) (e : Environment) (s : Session) :
    Publication { s with server := deed (.closed uri) s.server } (receive (.closed uri) e s).2 := by
  have h := Publication.publish (s := { s with server := s.server.closeDocument uri.text }) uri.text [] []
  rw [setViolations_closeDocument] at h
  refine h fun d hd => ?_
  rw [document?_closeDocument, if_pos rfl] at hd
  cases hd

/-- A notification that has nothing to do with providers does its deed, then the server is at its tasks. -/
theorem receive_tasks {n : Notification} (hn : n.isAdjusting = false) (hc : ∀ uri, n ≠ .closed uri)
    (e : Environment) (s : Session) :
    ReflTransGen (Task e) { s with server := deed n s.server } (receive n e s).2 := by
  cases n with
  | opened uri language text =>
    rw [receive, didOpen, deed]
    split
    · rw [bind_apply, modifyServer_apply]
      exact steps_bind (steps_log _ _).tasks (fun _ => tasks_lintIf _ uri) e _
    · exact .refl
  | changed uri changes =>
    have h := edit_tasks uri (Change.applyAll · changes) (· = .onType) e s
    exact h
  | saved uri text =>
    have h := edit_tasks uri (text.getD ·) (· = .onSave) e s
    exact h
  | closed uri => exact absurd rfl (hc uri)
  | started => cases hn
  | configured sent => cases hn
  | stop => exact .refl
  | exit => exact .refl

theorem syncProviders_acts (e : Environment) (s : Session) :
    ReflTransGen (Act e) s (syncProviders e s).2 := by
  rw [syncProviders_apply]
  dsimp only
  split
  · exact .single .sync
  · exact .refl

/-- The state in which new settings from the editor were taken, but nothing was done yet. -/
theorem receive_configured (sent : Json) (e : Environment) (s : Session) :
    receive (.configured sent) e s = lintOpenDocuments e (syncProviders e
      ({ s with server := taking sent s.server }.emit (faultEvents sent))).2 := by
  rw [receive, didChangeConfiguration, bind_apply, configure_apply, bind_apply]

/-- A notification does its deed, then the server acts. -/
theorem receive_acts {n : Notification} (hc : ∀ uri, n ≠ .closed uri) (e : Environment) (s : Session) :
    ReflTransGen (Act e) { s with server := deed n s.server } (receive n e s).2 := by
  cases hn : n.isAdjusting with
  | false => exact acts_of_tasks (receive_tasks hn hc e s)
  | true =>
    cases n with
    | started => exact (syncProviders_acts e s).trans (acts_of_tasks ((steps_log _ _).tasks e _))
    | configured sent =>
      rw [receive_configured]
      exact (acts_of_tasks (tasks_of_errands (errands_faultEvents sent e _))).trans
        ((syncProviders_acts e _).trans (acts_of_tasks (tasks_lintOpenDocuments e _)))
    | _ => cases hn

/-- A notification does its deed, then the server has its turn. -/
theorem receive_turn (n : Notification) (e : Environment) (s : Session) :
    ReflTransGen (Turn e) { s with server := deed n s.server } (receive n e s).2 := by
  by_cases hc : ∃ uri, n = .closed uri
  · obtain ⟨uri, rfl⟩ := hc
    exact .single (.move (receive_closed uri e s).move)
  · exact turns_of_acts (receive_acts (not_exists.1 hc) e s)

/-- Any notification but the last one is heard while the session runs. -/
theorem notify_apply {n : Notification} (h : n ≠ .exit) (e : Environment) (s : Session) :
    (notify n e s).2 = if s.server.phase = .running then (receive n e s).2 else s := by
  have hn : notify n = Handler.server >>= fun server =>
      if server.phase = .running then receive n else pure () := by
    cases n with
    | exit => exact absurd rfl h
    | _ => rfl
  rw [hn, bind_apply, server_apply]
  split <;> rfl

/-- What the editor sends with the start is taken together with the rest, then the server tells of faults. -/
theorem start_errands (p : StartParams) (e : Environment) (s : Session) :
    ReflTransGen (Errand e) { s with server := Request.deed (.start p) s.server } (answer (.start p) e s).2 := by
  rw [answer, bind_apply, start, Request.deed]
  cases p.options with
  | none =>
    simp only [bind_apply, modifyServer_apply, pure_apply]
    split
    · exact .refl
    · rw [bind_apply, loadSettings_apply]
      exact errands_settingsWarnings e { s with server := { s.server with
        root := rootOf p <|> s.server.root, dynamic := p.dynamic, phase := .running } }
  | some sent =>
    have faults := errands_faultEvents sent e { s with server := taking sent { s.server with
      root := rootOf p <|> s.server.root, dynamic := p.dynamic, phase := .running } }
    simp only [bind_apply, modifyServer_apply, configure_apply, pure_apply]
    split
    · exact faults
    · rw [bind_apply, loadSettings_apply]
      exact faults.trans (errands_settingsWarnings e _)

/-- A request that is answered does its deed, then the server is at its tasks, unless it is the last one. -/
theorem answer_tasks {r : Request} (hr : r ≠ .stop) (e : Environment) (s : Session) :
    ReflTransGen (Task e) { s with server := Request.deed r s.server } (answer r e s).2 := by
  cases r with
  | start p => exact tasks_of_errands (start_errands p e s)
  | stop => exact absurd rfl hr
  | _ => exact tasks_answer (by intro p h; cases h) (by intro h; cases h) e s

theorem answer_stop (e : Environment) (s : Session) :
    answer .stop e s = (.ok .null, released { s with server := { s.server with phase := .stopped } }) := by
  rw [answer, bind_apply, setPhase_apply, bind_apply, releaseProviders_apply]
  rfl

/-- A request that is answered does its deed, then the server acts. -/
theorem answer_acts (r : Request) (e : Environment) (s : Session) :
    ReflTransGen (Act e) { s with server := Request.deed r s.server } (answer r e s).2 := by
  by_cases hr : r = .stop
  · subst hr
    rw [answer_stop]
    exact .single .release
  · exact acts_of_tasks (answer_tasks hr e s)

/-- A request that is answered does its deed, then the server has its turn. -/
theorem answer_turn (r : Request) (e : Environment) (s : Session) :
    ReflTransGen (Turn e) { s with server := Request.deed r s.server } (answer r e s).2 :=
  turns_of_acts (answer_acts r e s)

end Server

namespace Session
open Server

/-- What a session makes of an input at once, before the server moves. -/
def heard (s : Session) : Input → Session
  | .request r _ =>
    if refusal? s.server.phase (Request.starts r) = none then { s with server := Request.deed r s.server } else s
  | .notification .exit _ => { s with server := { s.server with phase := .exited } }
  | .notification n _ => if s.server.phase = .running then { s with server := deed n s.server } else s
  | .files t => { s with tree := t }

theorem heard_request (r : Request) (e : Environment) (s : Session) :
    s.heard (.request r e) = if s.server.phase = if Request.starts r then .waiting else .running
      then { s with server := Request.deed r s.server } else s := by
  have hr : refusal? s.server.phase (Request.starts r) = none ↔
      s.server.phase = if Request.starts r then .waiting else .running := by
    cases s.server.phase <;> cases Request.starts r <;> decide
  rw [heard]
  simp only [hr]

theorem heard_notification {n : Notification} (hn : n ≠ .exit) (e : Environment) (s : Session) :
    s.heard (.notification n e) =
      if s.server.phase = .running then { s with server := deed n s.server } else s := by
  cases n with
  | exit => exact absurd rfl hn
  | _ => rfl

theorem events_heard (s : Session) (i : Input) : (s.heard i).events = s.events := by
  cases i with
  | request r e =>
    rw [heard]
    split <;> rfl
  | notification n e =>
    by_cases hn : n = .exit
    · subst hn
      rfl
    · rw [heard_notification hn]
      split <;> rfl
  | files t => rfl

/-- What the server sends and runs while it works on an input. -/
def sent (s : Session) (i : Input) : List Event := (s.step i).events.drop s.events.length

theorem sent_eq {s : Session} {i : Input} {events : List Event} (h : (s.step i).events = s.events ++ events) :
    s.sent i = events := by
  rw [sent, h, List.drop_left]

/-- All that happens to an input after it was heard is that the server acts, or that it publishes that a
closed document has no findings. -/
theorem step_acts (s : Session) (i : Input) :
    s.step i = s.heard i ∨ (∃ uri e, i = .notification (.closed uri) e ∧ Publication (s.heard i) (s.step i)) ∨
    ∃ e, i.environment? = some e ∧ ReflTransGen (Act e) (s.heard i) (s.step i) := by
  cases i with
  | request r e =>
    rw [step, heard, request_apply]
    cases refusal? s.server.phase (Request.starts r) with
    | none => exact .inr (.inr ⟨e, rfl, answer_acts r e s⟩)
    | some refusal => exact .inl rfl
  | notification n e =>
    by_cases hn : n = .exit
    · subst hn
      exact .inl rfl
    · rw [step, heard_notification hn, notify_apply hn]
      split
      · by_cases hc : ∃ uri, n = .closed uri
        · obtain ⟨uri, rfl⟩ := hc
          exact .inr (.inl ⟨uri, e, rfl, receive_closed uri e s⟩)
        · exact .inr (.inr ⟨e, rfl, receive_acts (not_exists.1 hc) e s⟩)
      · exact .inl rfl
  | files t => exact .inl rfl

/-- All that happens to an input after it was heard is the server's turn. -/
theorem step_turn (s : Session) (i : Input) :
    s.step i = s.heard i ∨ ∃ e, i.environment? = some e ∧ ReflTransGen (Turn e) (s.heard i) (s.step i) := by
  rcases step_acts s i with h | ⟨uri, e, rfl, h⟩ | ⟨e, answers, h⟩
  · exact .inl h
  · exact .inr ⟨e, rfl, .single (.move h.move)⟩
  · exact .inr ⟨e, answers, turns_of_acts h⟩

/-- The linter is only called with the settings that are in force when it is called. -/
theorem under_of_mem_sent {s : Session} {i : Input} {inv : Invocation} {started : Bool}
    (h : .run inv started ∈ s.sent i) :
    ∃ e m, i.environment? = some e ∧ ReflTransGen (Turn e) (s.heard i) m ∧
      inv.Under (settings m.server m.tree) := by
  rcases step_turn s i with hs | ⟨e, answers, ht⟩
  · have none : s.sent i = [] := sent_eq (by rw [hs, events_heard, List.append_nil])
    rw [none] at h
    cases h
  · obtain ⟨sent, he, hr⟩ := Turn.runs_under ht
    rw [events_heard] at he
    rw [sent_eq he] at h
    obtain ⟨m, hm, under⟩ := hr inv started h
    exact ⟨e, m, answers, hm, under⟩

/-- Where providers have nothing to do with an input, the server only moves. -/
theorem step_moves {i : Input} (hi : i.isAdjusting = false) (s : Session) :
    ReflTransGen Move (s.heard i) (s.step i) := by
  cases i with
  | request r e =>
    have hr : r ≠ .stop := by
      rintro rfl
      cases hi
    rw [step, heard, request_apply]
    cases refusal? s.server.phase (Request.starts r) with
    | none => exact moves_of_tasks (answer_tasks hr e s)
    | some refusal => exact .refl
  | notification n e =>
    by_cases hn : n = .exit
    · subst hn
      exact .refl
    · rw [step, heard_notification hn, notify_apply hn]
      split
      · by_cases hc : ∃ uri, n = .closed uri
        · obtain ⟨uri, rfl⟩ := hc
          exact .single (receive_closed uri e s).move
        · exact moves_of_tasks (receive_tasks hi (not_exists.1 hc) e s)
      · exact .refl
  | files t => exact .refl

end Session
end SqlLint
