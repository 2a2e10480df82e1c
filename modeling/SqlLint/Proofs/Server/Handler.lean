import SqlLint.Server.Formatting
import SqlLint.Server.Linting

/-! # What handlers do to a session

Each handler is a function of an environment and a session. The equations say what the small ones
answer and leave behind, so that the larger ones are computed by rewriting. -/
namespace SqlLint

/-- A session that sent or ran something more. -/
def Session.emit (s : Session) (events : List Event) : Session := { s with events := s.events ++ events }

/-- An editor that grants whatever it is asked for, and a linter that always prints the same. -/
def Environment.granting (output : String) : Environment where
  editor r := .ok r.granted
  programs := ⟨["sqlfluff"], fun _ => { stdout := .text output }⟩

/-- A session with a linter that is called by its path. -/
def Session.installed (s : Session) : Session where
  server := { s.server with client.executablePath := some "/opt/sqlfluff" }
  tree := s.tree.add ["opt", "sqlfluff"] (.file (.binary []) .fixed true)
  events := s.events

namespace Session

@[simp] theorem emit_server (s : Session) (es : List Event) : (s.emit es).server = s.server := rfl

@[simp] theorem emit_tree (s : Session) (es : List Event) : (s.emit es).tree = s.tree := rfl

@[simp] theorem emit_events (s : Session) (es : List Event) : (s.emit es).events = s.events ++ es := rfl

@[simp] theorem emit_nil (s : Session) : s.emit [] = s := by simp [emit]

@[simp] theorem emit_emit (s : Session) (es fs : List Event) : (s.emit es).emit fs = s.emit (es ++ fs) := by
  simp [emit]

end Session

namespace Handler

variable {α β : Type} (e : Environment) (s : Session)

@[simp] theorem pure_apply (a : α) : (pure a : Handler α) e s = (a, s) := rfl

@[simp] theorem bind_apply (h : Handler α) (f : α → Handler β) :
    (h >>= f) e s = f (h e s).1 e (h e s).2 := rfl

@[simp] theorem map_apply (h : Handler α) (f : α → β) : (f <$> h) e s = (f (h e s).1, (h e s).2) := rfl

@[simp] theorem get_apply : (get : Handler Session) e s = (s, s) := rfl

@[simp] theorem server_apply : Handler.server e s = (s.server, s) := rfl

@[simp] theorem modifyServer_apply (f : Server → Server) :
    modifyServer f e s = ((), { s with server := f s.server }) := rfl

@[simp] theorem record_apply (event : Event) : record event e s = ((), s.emit [event]) := rfl

@[simp] theorem log_apply (kind : LogKind) (message : String) :
    log kind message e s = ((), s.emit [.log kind message]) := rfl

@[simp] theorem publish_apply (uri : String) (ds : List Diagnostic) :
    publish uri ds e s = ((), s.emit [.publish uri ds]) := rfl

@[simp] theorem ask_apply (r : EditorRequest) : ask r e s = (e.editor r, s.emit [.request r]) := rfl

@[simp] theorem run_apply (i : Invocation) :
    Handler.run i e s =
      (Linter.run e.programs s.tree i, s.emit [.run i (i.obstacle? e.programs s.tree).isNone]) := rfl

end Handler

namespace Server

/-- The warnings about settings files that are left out. -/
def settingsWarnings (s : Session) : List Event :=
  (fileLayers s.tree (settingsPaths s.server)).2.map fun f =>
    .log .warning ("Failed to load settings: " ++ f.message)

theorem filterMap_settingsWarnings {α : Type} {f : Event → Option α}
    (quiet : ∀ kind message, f (.log kind message) = none) (s : Session) : (settingsWarnings s).filterMap f = [] := by
  rw [settingsWarnings, List.filterMap_map]
  exact List.filterMap_eq_nil_iff.2 fun _ _ => quiet _ _

private theorem logAll_apply (faults : List SettingsError) (e : Environment) (s : Session) :
    (forIn faults PUnit.unit fun f _ => do
      Handler.log .warning ("Failed to load settings: " ++ f.message)
      pure (ForInStep.yield PUnit.unit) : Handler PUnit) e s =
      (PUnit.unit, s.emit (faults.map fun f => .log .warning ("Failed to load settings: " ++ f.message))) := by
  induction faults generalizing s with
  | nil => simp
  | cons f faults ih =>
    rw [List.forIn_cons]
    simp only [Handler.bind_apply, Handler.log_apply, Handler.pure_apply]
    rw [ih]
    simp

@[simp] theorem loadSettings_apply (e : Environment) (s : Session) :
    loadSettings e s = (settings s.server s.tree, s.emit (settingsWarnings s)) := by
  simp only [loadSettings, Handler.bind_apply, Handler.get_apply]
  rw [logAll_apply]
  rfl

end Server
end SqlLint
