import SqlLint.Proofs.Server.Handler
import SqlLint.Server.Session
import Mathlib.Logic.Relation

/-! # The moves of a session

What a message says of the session itself is taken at once. Whatever the server does then, it does in
moves of a few kinds, and what every move leaves alone is left alone by all handlers. -/
namespace SqlLint
open Relation

/-- The text of an open document. -/
def Server.text? (s : Server) (uri : String) : Option (List Char) := (s.document? uri).map Document.text

/-- The language of an open document. -/
def Server.language? (s : Server) (uri : String) : Option String := (s.document? uri).map Document.language

/-- What an update leaves of a document it leaves of all documents. -/
theorem Server.map_document?_update {α : Type} (s : Server) (uri : String) {f : Document → Document} {g : Document → α}
    (keeps : ∀ d, g (f d) = g d) :
    (fun other => ((s.update uri f).document? other).map g) = fun other => (s.document? other).map g := by
  funext other
  rw [document?_update]
  split
  · rw [Option.map_map]
    exact congrArg (Option.map · _) (funext keeps)
  · rfl

/-- An invocation of the linter under some settings. -/
inductive Invocation.Under (s : Settings) : Invocation → Prop
  | lint (text : String) (file directory : Option String) : Under s (Linter.lintInvocation s text file directory)
  | fix (text : String) (file directory : Option String) : Under s (Linter.fixInvocation s text file directory)
  | path (path : String) (directory : Option String) : Under s (Linter.pathInvocation s path directory)

/-- Whether the editor is asked about providers. -/
def EditorRequest.isRegistration : EditorRequest → Bool
  | .register _ | .unregister _ => true
  | _ => false

namespace Event

/-- What is said to the editor: nothing is published and the linter is not called. -/
def isTalk : Event → Bool
  | .log .. | .request _ => true
  | .publish .. | .run .. => false

variable {event : Event}

theorem ne_publish_of_isTalk (h : event.isTalk = true) (uri : String) (ds : List Diagnostic) :
    event ≠ .publish uri ds := by
  rintro rfl
  cases h

theorem ne_run_of_isTalk (h : event.isTalk = true) (i : Invocation) (started : Bool) :
    event ≠ .run i started := by
  rintro rfl
  cases h

end Event

/-- Why the editor does not do what it is asked for. If it does it, it answers nothing. -/
def Environment.refusal? (e : Environment) (r : EditorRequest) : Option RpcError :=
  match e.editor r with
  | .error refusal => some refusal
  | .ok answer =>
    match Shape.nothing .plain answer with
    | .ok _ => none
    | .error f => some (.unreadable f.message)

/-- The session that takes the editor to have some providers. -/
def Session.record (s : Session) (providers : List Provider) : Session :=
  { s with server := { s.server with registered := providers } }

theorem Session.record_emit (s : Session) (events : List Event) (providers : List Provider) :
    (s.emit events).record providers = (s.record providers).emit events := rfl

/-- What is true of all that one step sends or runs is true of all that a path does. -/
theorem Session.events_of_path {r : Session → Session → Prop} {p : Event → Prop} {s s' : Session}
    (step : ∀ s s', r s s' → ∃ sent, s'.events = s.events ++ sent ∧ ∀ event ∈ sent, p event)
    (h : ReflTransGen r s s') : ∃ sent, s'.events = s.events ++ sent ∧ ∀ event ∈ sent, p event := by
  induction h with
  | refl => exact ⟨[], (List.append_nil _).symm, by simp⟩
  | tail _ last ih =>
    obtain ⟨sent, he, hs⟩ := ih
    obtain ⟨more, he', hm⟩ := step _ _ last
    exact ⟨sent ++ more, by rw [he', he, List.append_assoc], List.forall_mem_append.2 ⟨hs, hm⟩⟩

namespace Server

/-- The providers that the editor has although they are not wanted any more. -/
def stale (s : Session) : List Provider :=
  s.server.registered.filter (· ∉ Provider.wanted (settings s.server s.tree))

/-- The providers that are wanted and that the editor does not have yet. -/
def missing (s : Session) : List Provider :=
  (Provider.wanted (settings s.server s.tree)).filter (· ∉ s.server.registered)

/-- Why the editor does not take some providers, if there are any. -/
def offered? (e : Environment) (providers : List Provider) : Option RpcError :=
  if providers.isEmpty then none else e.refusal? (.register providers)

/-- What the server takes the editor to have after it has asked for the missing providers. -/
def kept (e : Environment) (s : Session) : List Provider :=
  if (offered? e (missing s)).isSome then
    s.server.registered.filter (· ∈ Provider.wanted (settings s.server s.tree))
  else Provider.wanted (settings s.server s.tree)

/-- The request about some providers, if there are any. -/
def requestFor (r : List Provider → EditorRequest) (providers : List Provider) : List Event :=
  if providers.isEmpty then [] else [.request (r providers)]

def refusalEvents (refused : Option RpcError) : List Event :=
  refused.toList.map fun refusal => .log .error ("Failed to register providers: " ++ refusal.text)

/-- What the server sends to bring the editor's providers in line with the settings. -/
def syncEvents (e : Environment) (s : Session) : List Event :=
  settingsWarnings s ++ requestFor .unregister (stale s) ++ requestFor .register (missing s) ++
    refusalEvents (offered? e (missing s))

/-- The session whose providers are in line with the settings. -/
def synced (e : Environment) (s : Session) : Session :=
  (s.record (kept e s)).emit (syncEvents e s)

/-- The session that has taken back its providers. -/
def released (s : Session) : Session :=
  (s.record []).emit (requestFor .unregister s.server.registered)

theorem isTalk_requestFor (r : List Provider → EditorRequest) (providers : List Provider) :
    ∀ event ∈ requestFor r providers, event.isTalk = true := by
  rw [requestFor]
  split <;> simp [Event.isTalk]

theorem isTalk_syncEvents (e : Environment) (s : Session) : ∀ event ∈ syncEvents e s, event.isTalk = true := by
  have warnings : ∀ event ∈ settingsWarnings s, event.isTalk = true := List.forall_mem_map.2 fun _ _ => rfl
  have refusals : ∀ event ∈ refusalEvents (offered? e (missing s)), event.isTalk = true :=
    List.forall_mem_map.2 fun _ _ => rfl
  rw [syncEvents]
  simp only [List.forall_mem_append]
  exact ⟨⟨⟨warnings, isTalk_requestFor _ _⟩, isTalk_requestFor _ _⟩, refusals⟩

end Server

/-- What the server does at once. -/
inductive Move : Session → Session → Prop
  | log (s : Session) (kind : LogKind) (message : String) : Move s (s.emit [.log kind message])
  | ask (s : Session) (r : EditorRequest) (other : r.isRegistration = false) : Move s (s.emit [.request r])
  | run (s : Session) (i : Invocation) (started : Bool) (under : i.Under (Server.settings s.server s.tree)) :
    Move s (s.emit [.run i started])
  | publish (s : Session) (uri : String) (violations : List Violation) (text : List Char) :
    Move s (({ s with server := Server.setViolations uri violations s.server }).emit
      [.publish uri (Server.diagnostics violations text)])
  | exclude (s : Session) (scope : Scope) (rule : String) :
    Move s { s with tree := (((Server.settingsFiles s.server).store.exclude scope rule).run s.tree).2 }

namespace Move

variable {s s' : Session}

/-- What each move leaves alone is left alone by all of them. -/
theorem keeps {α : Type} {f : Session → α} (hf : ∀ s s', Move s s' → f s' = f s)
    (h : ReflTransGen Move s s') : f s' = f s := by
  induction h with
  | refl => rfl
  | tail _ hm ih => exact (hf _ _ hm).trans ih

theorem phase (h : Move s s') : s'.server.phase = s.server.phase := by cases h <;> rfl

theorem root (h : Move s s') : s'.server.root = s.server.root := by cases h <;> rfl

theorem globalFile (h : Move s s') : s'.server.globalFile = s.server.globalFile := by cases h <;> rfl

theorem client (h : Move s s') : s'.server.client = s.server.client := by cases h <;> rfl

theorem dynamic (h : Move s s') : s'.server.dynamic = s.server.dynamic := by cases h <;> rfl

/-- A move changes no text of a document. -/
theorem text? (h : Move s s') : s'.server.text? = s.server.text? := by
  cases h with
  | publish uri violations text => exact Server.map_document?_update s.server uri fun _ => rfl
  | _ => rfl

theorem registered (h : Move s s') : s'.server.registered = s.server.registered := by cases h <;> rfl

theorem active (h : Move s s') : s'.server.active = s.server.active := by cases h <;> rfl

/-- A move changes no language of a document. -/
theorem language? (h : Move s s') : s'.server.language? = s.server.language? := by
  cases h with
  | publish uri violations text => exact Server.map_document?_update s.server uri fun _ => rfl
  | _ => rfl

end Move

/-- What the server does on its turn: it moves, brings its providers in line or takes them back. -/
inductive Turn (e : Environment) : Session → Session → Prop
  | move {s s' : Session} (h : Move s s') : Turn e s s'
  | sync (s : Session) : Turn e s (Server.synced e s)
  | release (s : Session) : Turn e s (Server.released s)

namespace Turn

variable {e : Environment} {s s' : Session}

theorem of_moves (h : ReflTransGen Move s s') : ReflTransGen (Turn e) s s' :=
  ReflTransGen.mono (fun _ _ hm => Turn.move hm) s s' h

/-- What moves and the bookkeeping of providers leave alone is left alone by a whole turn. -/
theorem keeps {α : Type} {f : Session → α} (hf : ∀ s s', Move s s' → f s' = f s)
    (hs : ∀ s, f (Server.synced e s) = f s) (hr : ∀ s, f (Server.released s) = f s)
    (h : ReflTransGen (Turn e) s s') : f s' = f s := by
  induction h with
  | refl => rfl
  | tail _ ht ih =>
    refine Eq.trans ?_ ih
    cases ht with
    | move hm => exact hf _ _ hm
    | sync => exact hs _
    | release => exact hr _

/-- The linter is only called with the settings that are in force when it is called. -/
theorem runs_under (h : ReflTransGen (Turn e) s s') :
    ∃ sent, s'.events = s.events ++ sent ∧ ∀ i started, .run i started ∈ sent →
      ∃ m, ReflTransGen (Turn e) s m ∧ i.Under (Server.settings m.server m.tree) := by
  induction h with
  | refl => exact ⟨[], (List.append_nil _).symm, by simp⟩
  | @tail s₁ s₂ path ht ih =>
    obtain ⟨sent, he, hs⟩ := ih
    have last : ∃ sent, s₂.events = s₁.events ++ sent ∧ ∀ i started, .run i started ∈ sent →
        i.Under (Server.settings s₁.server s₁.tree) := by
      cases ht with
      | sync =>
        exact ⟨_, rfl, fun i started h =>
          absurd rfl (Event.ne_run_of_isTalk (Server.isTalk_syncEvents e s₁ _ h) i started)⟩
      | release =>
        exact ⟨_, rfl, fun i started h =>
          absurd rfl (Event.ne_run_of_isTalk (Server.isTalk_requestFor _ _ _ h) i started)⟩
      | move hm =>
        cases hm with
        | run i started under => exact ⟨[.run i started], rfl, by simpa using under⟩
        | exclude scope rule => exact ⟨[], (List.append_nil _).symm, by simp⟩
        | _ => exact ⟨[_], rfl, by simp⟩
    obtain ⟨more, he', hm⟩ := last
    refine ⟨sent ++ more, by rw [he', he, List.append_assoc], fun i started h => ?_⟩
    rcases List.mem_append.1 h with h | h
    · exact hs i started h
    · exact ⟨s₁, path, hm i started h⟩

end Turn

namespace Server
open Handler

/-- Asks the editor to take the missing providers, and records what it then has. -/
def offer (kept wanted missing : List Provider) : Handler Unit := do
  let refused ← if missing.isEmpty then pure none else do
    match ← Handler.ask (.register missing) with
    | .ok answer =>
      match Shape.nothing .plain answer with
      | .ok _ => pure none
      | .error f => pure (some (.unreadable f.message))
    | .error e => pure (some e)
  match refused with
  | some (e : RpcError) =>
    Handler.log .error ("Failed to register providers: " ++ e.text)
    Handler.modifyServer fun s => { s with registered := kept }
  | none => Handler.modifyServer fun s => { s with registered := wanted }

theorem offer_apply (kept wanted missing : List Provider) (e : Environment) (s : Session) :
    offer kept wanted missing e s = ((), (s.record (if (offered? e missing).isSome then kept else wanted)).emit
      (requestFor .register missing ++ refusalEvents (offered? e missing))) := by
  rw [offer, offered?, requestFor]
  split
  · exact congrArg (Prod.mk ()) (Session.emit_nil _).symm
  · rw [bind_apply, ask_apply, Environment.refusal?]
    dsimp only
    cases e.editor (.register missing) with
    | error refusal => exact congrArg (Prod.mk ()) (Session.emit_emit (s.record kept) ..)
    | ok answer =>
      cases answer with
      | null => rfl
      | _ => exact congrArg (Prod.mk ()) (Session.emit_emit (s.record kept) ..)

theorem syncProviders_apply (e : Environment) (s : Session) :
    syncProviders e s = ((), if s.server.dynamic then synced e s else s) := by
  rw [syncProviders, bind_apply, server_apply]
  by_cases hd : s.server.dynamic
  · rw [if_pos hd, if_pos hd]
    simp only [bind_apply, loadSettings_apply, server_apply, Session.emit_server]
    change (if (stale s).isEmpty then offer _ _ (missing s)
      else ask (.unregister (stale s)) >>= fun _ => offer _ _ (missing s) : Handler Unit) e _ = _
    rw [synced, syncEvents, kept, requestFor]
    split
    · rw [offer_apply, List.append_nil, List.append_assoc, Session.record_emit, Session.emit_emit]
    · rw [bind_apply, ask_apply, offer_apply, List.append_assoc, Session.record_emit, Session.record_emit,
        Session.emit_emit, Session.emit_emit]
      simp only [List.append_assoc]
  · rw [if_neg hd, if_neg hd]
    rfl

theorem releaseProviders_apply (e : Environment) (s : Session) : releaseProviders e s = ((), released s) := by
  rw [releaseProviders, bind_apply, server_apply, bind_apply, modifyServer_apply, released, requestFor]
  dsimp only
  split
  · rw [Session.emit_nil]
    rfl
  · rfl

end Server
end SqlLint
