import SqlLint.Proofs.Server.Documents

/-! # Settings in force during a session

The settings that handlers work with are resolved from the two settings files and from what the editor has
sent. Of the latter only the last layer counts that could be decoded. -/
namespace SqlLint
open Relation

/-- The settings by some files and by the layer of the editor. The linter runs in the workspace unless it is
told otherwise. -/
def Settings.inForce (t : Tree) (global root : Option String) (client : Layer) : Settings :=
  let files := (global.toList ++ (root.map workspacePath).toList).filterMap fun path =>
    (Layer.ofFile t path).toOption
  let resolved := resolve (files ++ [client])
  { resolved with workingDirectory := resolved.workingDirectory <|> root }

/-- Where the editor has sent nothing that counts, the settings are those of the files. -/
theorem Settings.inForce_empty (t : Tree) (global root : Option String) :
    Settings.inForce t global root {} =
      { Settings.load t global (root.map Settings.workspacePath) with
        workingDirectory := (Settings.load t global (root.map Settings.workspacePath)).workingDirectory <|> root } := by
  rw [Settings.inForce, Settings.resolve_append]
  rfl

/-- What counts of the settings that the editor has sent: the last that could be decoded. -/
def Layer.last (pushes : List Json) : Layer :=
  (pushes.filterMap fun sent => (Layer.ofJson sent).toOption).getLast?.getD {}

/-- What has been said to a server: where it is in its life, which root it was given and which settings it was
sent while they were heard. -/
structure History where
  phase : Phase := .waiting
  root : Option String := none
  pushes : List Json := []

namespace History

/-- The settings that an input brings. They are heard with the request that starts the session and while it
runs. -/
def push? (h : History) : Input → Option Json
  | .request (.start p) _ => if h.phase = .waiting then p.options else none
  | .notification (.configured sent) _ => if h.phase = .running then some sent else none
  | _ => none

def phaseAfter (h : History) : Input → Phase
  | .request (.start _) _ => if h.phase = .waiting then .running else h.phase
  | .request .stop _ | .notification .stop _ => if h.phase = .running then .stopped else h.phase
  | .notification .exit _ => .exited
  | _ => h.phase

def rootAfter (h : History) : Input → Option String
  | .request (.start p) _ => if h.phase = .waiting then Server.rootOf p <|> h.root else h.root
  | _ => h.root

def after (h : History) (i : Input) : History :=
  ⟨h.phaseAfter i, h.rootAfter i, h.pushes ++ (h.push? i).toList⟩

def of (inputs : List Input) : History := inputs.foldl after {}

theorem of_append (inputs : List Input) (i : Input) : of (inputs ++ [i]) = (of inputs).after i := by
  rw [of, List.foldl_append]
  rfl

end History

namespace Layer

variable {pushes : List Json} {sent : Json}

theorem last_append_ok {layer : Layer} (h : ofJson sent = .ok layer) : last (pushes ++ [sent]) = layer := by
  simp [last, h, Except.toOption]

theorem last_append_error {f : Fault} (h : ofJson sent = .error f) : last (pushes ++ [sent]) = last pushes := by
  simp [last, h, Except.toOption]

/-- What is sent takes the place of what counted before if it can be decoded. -/
theorem last_append (pushes : List Json) (sent : Json) :
    last (pushes ++ [sent]) = (ofJson sent).toOption.getD (last pushes) := by
  cases h : ofJson sent with
  | ok layer => exact last_append_ok h
  | error f => exact last_append_error h

end Layer

namespace Session
open Server

/-- The sessions that the server passes through while it works on an input. It says that it runs only when
it is done with starting, and others may write files meanwhile. -/
inductive During (s : Session) (i : Input) : Session → Prop
  | heard : During s i (s.heard i)
  | turn {m m' : Session} {e : Environment} (h : During s i m) (answers : i.environment? = some e)
    (ht : Turn e m m') : During s i m'
  | starting {m : Session} (h : During s i m) :
    During s i { m with server := { m.server with phase := s.server.phase } }
  | files {m : Session} (h : During s i m) (t : Tree) : During s i { m with tree := t }

theorem during_of_turn {s m m' : Session} {i : Input} {e : Environment} (answers : i.environment? = some e)
    (h : During s i m) (ht : ReflTransGen (Turn e) m m') : During s i m' := by
  induction ht with
  | refl => exact h
  | tail _ ht ih => exact ih.turn answers ht

theorem during_step (s : Session) (i : Input) : During s i (s.step i) := by
  rcases step_turn s i with h | ⟨e, answers, h⟩
  · exact h ▸ .heard
  · exact during_of_turn answers .heard h

/-- What the server knows of its settings is what it was told. -/
structure Told (globalFile : Option String) (h : History) (s : Session) : Prop where
  globalFile : s.server.globalFile = globalFile
  root : s.server.root = h.root
  client : s.server.client = Layer.last h.pushes

/-- And it is where it was told to be in its life. -/
structure Follows (globalFile : Option String) (h : History) (s : Session) : Prop extends
    Told globalFile h s where
  phase : s.server.phase = h.phase

variable {globalFile : Option String} {h : History} {s s' : Session}

theorem fileLayers_fst (t : Tree) (paths : List String) :
    (fileLayers t paths).1 = paths.filterMap fun path => (Layer.ofFile t path).toOption := List.filterMap_map

theorem Told.settings (told : Told globalFile h s) (t : Tree) :
    Server.settings s.server t = Settings.inForce t globalFile h.root (Layer.last h.pushes) := by
  rw [← told.globalFile, ← told.root, ← told.client, Server.settings, fileLayers_fst]
  rfl

theorem Told.turn {e : Environment} (told : Told globalFile h s) (ht : Turn e s s') :
    Told globalFile h s' := by
  cases ht with
  | move hm => exact ⟨hm.globalFile.trans told.globalFile, hm.root.trans told.root, hm.client.trans told.client⟩
  | sync => exact ⟨told.globalFile, told.root, told.client⟩
  | release => exact ⟨told.globalFile, told.root, told.client⟩

theorem Told.turns {e : Environment} (told : Told globalFile h s) (ht : ReflTransGen (Turn e) s s') :
    Told globalFile h s' := by
  induction ht with
  | refl => exact told
  | tail _ ht ih => exact ih.turn ht

theorem client_taking (told : Told globalFile h s) (sent : Json) :
    (taking sent s.server).client = Layer.last (h.pushes ++ [sent]) := by
  rw [Layer.last_append, ← told.client]
  rfl

/-- What the server does with an input that brings no settings and does not move the session on. -/
theorem follows_of_eq (follows : Follows globalFile h s) {i : Input} (phase : h.phaseAfter i = s'.server.phase)
    (root : h.rootAfter i = h.root) (push : h.push? i = none) (file : s'.server.globalFile = s.server.globalFile)
    (same : s'.server.root = s.server.root) (client : s'.server.client = s.server.client) :
    Follows globalFile (h.after i) s' := by
  refine ⟨⟨file.trans follows.globalFile, (same.trans follows.root).trans root.symm, ?_⟩, phase.symm⟩
  rw [client, follows.client, History.after, push, Option.toList_none, List.append_nil]

theorem follows_request (follows : Follows globalFile h s) (r : Request) (e : Environment) :
    Follows globalFile (h.after (.request r e)) (s.heard (.request r e)) := by
  rw [heard_request, follows.phase]
  cases r with
  | start p =>
    simp only [Request.starts, if_true]
    split
    · next waiting =>
      have root : (rootOf p <|> s.server.root) = h.rootAfter (.request (.start p) e) := by
        rw [follows.root, History.rootAfter, if_pos waiting]
      have push : h.push? (.request (.start p) e) = p.options := if_pos waiting
      have phase : Phase.running = h.phaseAfter (.request (.start p) e) := (if_pos waiting).symm
      rw [Request.deed, History.after, push]
      cases p.options with
      | none => exact ⟨⟨follows.globalFile, root, by simpa using follows.client⟩, phase⟩
      | some sent => exact ⟨⟨follows.globalFile, root, client_taking follows.toTold sent⟩, phase⟩
    · next other =>
      exact follows_of_eq follows ((if_neg other).trans follows.phase.symm) (if_neg other) (if_neg other) rfl rfl rfl
  | stop =>
    simp only [Request.starts, Bool.false_eq_true, if_false]
    split
    · next running => exact follows_of_eq follows (if_pos running) rfl rfl rfl rfl rfl
    · next other => exact follows_of_eq follows ((if_neg other).trans follows.phase.symm) rfl rfl rfl rfl rfl
  | _ =>
    simp only [Request.starts, Bool.false_eq_true, if_false]
    split <;> exact follows_of_eq follows follows.phase.symm rfl rfl rfl rfl rfl

theorem follows_deed (follows : Follows globalFile h s) (running : h.phase = .running) {n : Notification}
    (last : n ≠ .exit) (e : Environment) :
    Follows globalFile (h.after (.notification n e)) { s with server := deed n s.server } := by
  cases n with
  | configured sent =>
    have push : h.push? (.notification (.configured sent) e) = some sent := if_pos running
    refine ⟨⟨follows.globalFile, follows.root, ?_⟩, follows.phase⟩
    rw [History.after, push]
    exact client_taking follows.toTold sent
  | opened uri language text =>
    rw [deed]
    split
    · unfold openDocument
      split <;> exact follows_of_eq follows follows.phase.symm rfl rfl rfl rfl rfl
    · exact follows_of_eq follows follows.phase.symm rfl rfl rfl rfl rfl
  | changed uri changes =>
    rw [deed, deed.amend]
    split <;> exact follows_of_eq follows follows.phase.symm rfl rfl rfl rfl rfl
  | saved uri text =>
    rw [deed, deed.amend]
    split <;> exact follows_of_eq follows follows.phase.symm rfl rfl rfl rfl rfl
  | stop => exact follows_of_eq follows (if_pos running) rfl rfl rfl rfl rfl
  | exit => exact absurd rfl last
  | _ => exact follows_of_eq follows follows.phase.symm rfl rfl rfl rfl rfl

/-- The server hears what it is told. -/
theorem follows_heard (follows : Follows globalFile h s) (i : Input) :
    Follows globalFile (h.after i) (s.heard i) := by
  cases i with
  | files t => exact follows_of_eq follows follows.phase.symm rfl rfl rfl rfl rfl
  | request r e => exact follows_request follows r e
  | notification n e =>
    by_cases last : n = .exit
    · subst last
      exact follows_of_eq follows rfl rfl rfl rfl rfl rfl
    · rw [heard_notification last, follows.phase]
      split
      · next running => exact follows_deed follows running last e
      · next other =>
        cases n with
        | exit => exact absurd rfl last
        | configured sent => exact follows_of_eq follows follows.phase.symm rfl (if_neg other) rfl rfl rfl
        | stop => exact follows_of_eq follows ((if_neg other).trans follows.phase.symm) rfl rfl rfl rfl rfl
        | _ => exact follows_of_eq follows follows.phase.symm rfl rfl rfl rfl rfl

theorem follows_step (follows : Follows globalFile h s) (i : Input) :
    Follows globalFile (h.after i) (s.step i) := by
  have heard := follows_heard follows i
  rcases step_turn s i with hs | ⟨e, -, ht⟩
  · exact hs ▸ heard
  · exact ⟨heard.toTold.turns ht, (phase_of_turn ht).trans heard.phase⟩

theorem follows_run (follows : Follows globalFile h s) (inputs : List Input) :
    Follows globalFile (inputs.foldl History.after h) (s.run inputs) := by
  induction inputs generalizing h s with
  | nil => exact follows
  | cons i inputs ih => exact ih (follows_step follows i)

theorem follows_fresh (globalFile : Option String) (t : Tree) : Follows globalFile {} (fresh globalFile t) :=
  ⟨⟨rfl, rfl, rfl⟩, rfl⟩

/-- Whatever the server does while it works on an input, it keeps to what it was told. -/
theorem told_during (follows : Follows globalFile h s) {i : Input} {m : Session} (during : During s i m) :
    Told globalFile (h.after i) m := by
  induction during with
  | heard => exact (follows_heard follows i).toTold
  | turn _ _ ht ih => exact ih.turn ht
  | starting _ ih => exact ⟨ih.globalFile, ih.root, ih.client⟩
  | files _ t ih => exact ⟨ih.globalFile, ih.root, ih.client⟩

/-- Whenever the server resolves its settings, it does so from the files as they are then and from the last
layer that the editor sent and that could be decoded. Where there is none, they are what is loaded from the
files alone, but for the directory of the linter. What the editor sends takes the place of all that it sent
before, or, if it cannot be decoded, changes nothing. -/
theorem loadSettings_of_run (globalFile : Option String) (t : Tree) (inputs : List Input) (i : Input)
    (m : Session) (during : During ((fresh globalFile t).run inputs) i m) (e : Environment) :
    (loadSettings e m).1 = Settings.inForce m.tree globalFile (History.of (inputs ++ [i])).root
        (Layer.last (History.of (inputs ++ [i])).pushes) ∧
      (Layer.last (History.of (inputs ++ [i])).pushes = {} → ∀ loaded,
        loaded = Settings.load m.tree globalFile ((History.of (inputs ++ [i])).root.map Settings.workspacePath) →
        (loadSettings e m).1 = { loaded with
          workingDirectory := loaded.workingDirectory <|> (History.of (inputs ++ [i])).root }) ∧
      ∀ sent, (History.of inputs).push? i = some sent →
        (∀ layer, Layer.ofJson sent = .ok layer → (loadSettings e m).1 =
          Settings.inForce m.tree globalFile (History.of (inputs ++ [i])).root layer) ∧
        ∀ f, Layer.ofJson sent = .error f → (loadSettings e m).1 =
          Settings.inForce m.tree globalFile (History.of (inputs ++ [i])).root
            (Layer.last (History.of inputs).pushes) := by
  have told := told_during (follows_run (follows_fresh globalFile t) inputs) during
  rw [← History.of, ← History.of_append] at told
  have settings : (loadSettings e m).1 = _ := (congrArg Prod.fst (loadSettings_apply e m)).trans (told.settings _)
  refine ⟨settings, fun none loaded hl => ?_, fun sent push => ?_⟩
  · rw [settings, none, hl, Settings.inForce_empty]
  · have pushes : (History.of (inputs ++ [i])).pushes = (History.of inputs).pushes ++ [sent] := by
      rw [History.of_append, History.after, push]
      rfl
    rw [settings, pushes]
    exact ⟨fun layer h => by rw [Layer.last_append_ok h], fun f h => by rw [Layer.last_append_error h]⟩

/-- A file of all sessions that can be decoded, and one of the workspace that cannot. -/
def oneFaulty : Tree :=
  ((Tree.empty []).add ["g.toml"] (.file (.text "excludeRules = [\"LT01\"]\ndialect = \"mysql\"\n"))).add
    ["w", ".sqlfluff-lsp.toml"] (.file (.text "excludeRules = [\"LT02\"]\ndialect = 1\n"))

/-- An editor that sends a dialect when the session starts. -/
def dialectSent : List Input :=
  [.request (.start ⟨[], some ⟨"file:///w", "/w".toList⟩, some (.mk [("dialect", .string "ansi")]), false⟩)
    (.granting "")]

/-- Settings that cannot be decoded. -/
def faulty : Input := .notification (.configured (.mk [("dialect", .bool true)])) (.granting "")

/-- The file of the workspace counts for nothing, and what is sent last changes nothing. -/
theorem loadSettings_of_run_faulty :
    (Layer.ofFile oneFaulty "/w/.sqlfluff-lsp.toml").isOk = false ∧
      (loadSettings (.granting "") (((fresh (some "/g.toml") oneFaulty).run dialectSent).step faulty)).1 =
        { dialect := some "ansi", excludeRules := ["LT01"], workingDirectory := some "/w" } := by
  have heard : (History.of dialectSent).push? faulty = some (.mk [("dialect", .bool true)]) := rfl
  obtain ⟨f, undecoded⟩ : ∃ f, Layer.ofJson (.mk [("dialect", .bool true)]) = .error f := ⟨_, rfl⟩
  obtain ⟨-, -, pushed⟩ := loadSettings_of_run (some "/g.toml") oneFaulty dialectSent faulty _ (during_step _ _)
    (.granting "")
  refine ⟨by decide +kernel, ((pushed _ heard).2 f undecoded).trans ?_⟩
  decide +kernel

/-- The linter is only called with settings that are in force. -/
theorem run_under_inForce (globalFile : Option String) (t : Tree) (inputs : List Input) (i : Input)
    {inv : Invocation} {started : Bool} (h : .run inv started ∈ ((fresh globalFile t).run inputs).sent i) :
    ∃ m, During ((fresh globalFile t).run inputs) i m ∧
      inv.Under (Settings.inForce m.tree globalFile (History.of (inputs ++ [i])).root
        (Layer.last (History.of (inputs ++ [i])).pushes)) := by
  obtain ⟨e, m, answers, ht, under⟩ := under_of_mem_sent h
  have during := during_of_turn answers .heard ht
  have told := told_during (follows_run (follows_fresh globalFile t) inputs) during
  rw [← History.of, ← History.of_append] at told
  exact ⟨m, during, told.settings _ ▸ under⟩

end Session
end SqlLint
