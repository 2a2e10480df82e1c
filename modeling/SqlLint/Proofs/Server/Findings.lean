import SqlLint.Proofs.Server.Lifecycle

/-! # Findings that are kept and findings that are published

The server keeps the findings of each open document for itself and publishes diagnostics, which the editor shows
until it gets others. What is kept changes only together with what is published, so that the two agree after
every message, whatever became of the runs of the linter. -/
namespace SqlLint
open Relation

namespace Event

/-- The diagnostics that are published for a document. -/
def published? (uri : String) : Event → Option (List Diagnostic)
  | .publish other ds => if other = uri then some ds else none
  | _ => none

/-- The diagnostics that were published last for a document. -/
def lastPublished? (uri : String) (events : List Event) : Option (List Diagnostic) :=
  (events.filterMap (published? uri)).getLast?

variable {uri : String} {events : List Event}

theorem lastPublished?_append (uri : String) (before events : List Event) :
    lastPublished? uri (before ++ events) = (lastPublished? uri events).or (lastPublished? uri before) := by
  rw [lastPublished?, List.filterMap_append, List.getLast?_append]
  rfl

theorem lastPublished?_eq_none (h : ∀ event ∈ events, ∀ ds, event ≠ .publish uri ds) :
    lastPublished? uri events = none := by
  rw [lastPublished?, List.getLast?_eq_none_iff, List.filterMap_eq_nil_iff]
  intro event he
  cases event with
  | publish other ds =>
    refine if_neg fun same => ?_
    subst same
    exact h _ he ds rfl
  | _ => rfl

theorem lastPublished?_publish (uri other : String) (ds : List Diagnostic) :
    lastPublished? uri [.publish other ds] = if other = uri then some ds else none := by
  by_cases same : other = uri <;> simp [lastPublished?, published?, same]

end Event

namespace Session

variable {e : Environment} {s s' u : Session} {uri : String}

/-- All that was kept anew since was published with it: the last diagnostics that were published for a document
are those of its findings, and without any its findings are the old ones. No text has changed. -/
structure Agrees (s s' : Session) : Prop where
  intro ::
  agree : ∃ sent, s'.events = s.events ++ sent ∧ ∀ uri d', s'.server.document? uri = some d' →
    ∃ d, s.server.document? uri = some d ∧ d'.text = d.text ∧
      (∀ ds, Event.lastPublished? uri sent = some ds → ds = d'.violations.map (Diagnostic.ofViolation d'.text)) ∧
      (Event.lastPublished? uri sent = none → d'.violations = d.violations)

theorem Agrees.refl (s : Session) : Agrees s s :=
  ⟨[], (List.append_nil _).symm, fun _ d hd =>
    ⟨d, hd, rfl, fun _ hp => absurd hp.symm (Option.some_ne_none _), fun _ => rfl⟩⟩

theorem Agrees.trans (h : Agrees s s') (h' : Agrees s' u) : Agrees s u := by
  obtain ⟨first, he, hd⟩ := h
  obtain ⟨later, he', hd'⟩ := h'
  refine ⟨first ++ later, by rw [he', he, List.append_assoc], fun uri d'' hu => ?_⟩
  obtain ⟨d', hm, text', published', kept'⟩ := hd' uri d'' hu
  obtain ⟨d, hs, text, published, kept⟩ := hd uri d' hm
  rw [Event.lastPublished?_append]
  refine ⟨d, hs, text'.trans text, fun ds hp => ?_, fun hp => ?_⟩
  · rcases Option.or_eq_some_iff.1 hp with hl | ⟨none, hf⟩
    · exact published' ds hl
    · rw [text', kept' none]
      exact published ds hf
  · obtain ⟨hl, hf⟩ := Option.or_eq_none_iff.1 hp
    exact (kept' hl).trans (kept hf)

/-- Where nothing is published and nothing is kept anew, both agree. -/
theorem agrees_of_documents (documents : s'.server.documents = s.server.documents) {sent : List Event}
    (events : s'.events = s.events ++ sent) (quiet : ∀ event ∈ sent, ∀ uri ds, event ≠ .publish uri ds) :
    Agrees s s' := by
  refine ⟨sent, events, fun uri d hd => ⟨d, ?_, rfl, fun ds hp => ?_, fun _ => rfl⟩⟩
  · rwa [Server.document?, ← documents]
  · rw [Event.lastPublished?_eq_none fun event he => quiet event he uri] at hp
    cases hp

theorem Calm.agrees (h : Calm s s') : Agrees s s' := by
  obtain ⟨sent, events, talk⟩ := h.events
  exact agrees_of_documents h.documents events fun event he => Event.ne_publish_of_isTalk (talk event he)

end Session

open Session

/-- Findings that are published are kept, and those of other documents stay. -/
theorem Publication.agrees {s s' : Session} (h : Publication s s') : Agrees s s' := by
  cases h with
  | publish uri violations text placed =>
    refine ⟨[.publish uri (Server.diagnostics violations text)], rfl, fun other d' kept => ?_⟩
    rw [Session.emit_server, Server.setViolations, Server.document?_update] at kept
    rw [Event.lastPublished?_publish]
    by_cases same : uri = other
    · subst same
      rw [if_pos rfl] at kept
      obtain ⟨d, hd, rfl⟩ := Option.map_eq_some_iff.1 kept
      refine ⟨d, hd, rfl, fun ds hp => ?_, fun hp => ?_⟩
      · rw [if_pos rfl, placed d hd] at hp
        exact (Option.some.inj hp).symm
      · rw [if_pos rfl] at hp
        cases hp
    · rw [if_neg (Ne.symm same)] at kept
      rw [if_neg same]
      exact ⟨d', kept, rfl, fun _ hp => absurd hp.symm (Option.some_ne_none _), fun _ => rfl⟩

theorem Session.agrees_of_publications {s s' : Session} (h : ReflTransGen Publication s s') : Agrees s s' := by
  induction h with
  | refl => exact .refl _
  | tail _ h ih => exact ih.trans h.agrees

theorem Act.agrees {e : Environment} {s s' : Session} (h : Act e s s') : Agrees s s' := by
  have called (i : Invocation) (started : Bool) : Agrees s (s.emit [.run i started]) :=
    agrees_of_documents rfl rfl (by simp)
  rcases h.cases with calm | ⟨i, rfl⟩ | ⟨i, reports, -, published⟩
  · exact calm.agrees
  · exact called i _
  · exact (called i _).trans (agrees_of_publications published)

namespace Server

variable {s : Server} {n : Notification} {uri : String} {d : Document}

theorem document?_requestDeed (r : Request) (s : Server) : (Request.deed r s).document? uri = s.document? uri := by
  cases r with
  | start p =>
    rw [Request.deed]
    cases p.options <;> rfl
  | _ => rfl

/-- A document that is changed or saved keeps its findings. -/
theorem violations_amend {key : String} {f : List Char → List Char}
    (hd : (deed.amend key f s).document? uri = some d) :
    ∃ old, s.document? uri = some old ∧ d.violations = old.violations := by
  unfold deed.amend at hd
  split at hd
  · rw [document?_activate, document?_update] at hd
    split at hd
    · obtain ⟨old, ho, rfl⟩ := Option.map_eq_some_iff.1 hd
      exact ⟨old, ho, rfl⟩
    · exact ⟨d, hd, rfl⟩
  · exact ⟨d, hd, rfl⟩

/-- A document that is opened has no findings yet, and the others keep theirs. -/
theorem violations_deed (hd : (deed n s).document? uri = some d) :
    (n.opened? = some uri ∧ d.violations = []) ∨
    (n.opened? ≠ some uri ∧ ∃ old, s.document? uri = some old ∧ d.violations = old.violations) := by
  have unopened : none ≠ some uri := (Option.some_ne_none uri).symm
  cases n with
  | opened key language text =>
    rw [Notification.opened?]
    rw [deed] at hd
    split at hd
    · next supported =>
      rw [if_pos supported]
      rw [document?_activate, document?_openDocument] at hd
      split at hd
      · next same =>
        obtain rfl := Option.some.inj hd
        exact .inl ⟨congrArg some same.symm, rfl⟩
      · next other => exact .inr ⟨fun h => other (Option.some.inj h).symm, d, hd, rfl⟩
    · next unsupported =>
      rw [if_neg unsupported]
      exact .inr ⟨unopened, d, hd, rfl⟩
  | changed key changes => exact .inr ⟨unopened, violations_amend hd⟩
  | saved key text => exact .inr ⟨unopened, violations_amend hd⟩
  | closed key =>
    rw [deed, document?_closeDocument] at hd
    split at hd
    · cases hd
    · exact .inr ⟨unopened, d, hd, rfl⟩
  | _ => exact .inr ⟨unopened, d, hd, rfl⟩

end Server

namespace Session
open Server

variable {s s' : Session} {i : Input} {uri : String}

theorem agrees_of_acts {e : Environment} (h : ReflTransGen (Act e) s s') : Agrees s s' := by
  induction h with
  | refl => exact .refl _
  | tail _ h ih => exact ih.trans h.agrees

theorem agrees_step (s : Session) (i : Input) : Agrees (s.heard i) (s.step i) := by
  rcases step_acts s i with h | ⟨uri, e, -, h⟩ | ⟨e, -, h⟩
  · exact h ▸ .refl _
  · exact h.agrees
  · exact agrees_of_acts h

/-- The document that an input opens, if the input is heard. -/
def opened? (s : Session) (i : Input) : Option String :=
  if s.server.phase = .running then i.notification?.bind Notification.opened? else none

/-- What an input makes of findings at once: a document that it opens has none, and the others keep theirs. -/
theorem violations_heard {d : Document} (hd : (s.heard i).server.document? uri = some d) :
    (s.opened? i = some uri ∧ d.violations = []) ∨
    (s.opened? i ≠ some uri ∧ ∃ old, s.server.document? uri = some old ∧ d.violations = old.violations) := by
  have unopened (said : i.notification?.bind Notification.opened? = none) : s.opened? i ≠ some uri := by
    rw [opened?, said, ite_self]
    exact (Option.some_ne_none uri).symm
  cases i with
  | files t => exact .inr ⟨unopened rfl, d, hd, rfl⟩
  | request r e =>
    refine .inr ⟨unopened rfl, d, ?_, rfl⟩
    rw [heard] at hd
    split at hd
    · rwa [document?_requestDeed] at hd
    · exact hd
  | notification n e =>
    by_cases last : n = .exit
    · subst last
      exact .inr ⟨unopened rfl, d, hd, rfl⟩
    · rw [heard_notification last] at hd
      rw [opened?]
      split at hd
      · next running =>
        rw [if_pos running]
        exact violations_deed hd
      · next idle =>
        rw [if_neg idle]
        exact .inr ⟨(Option.some_ne_none uri).symm, d, hd, rfl⟩

/-- Diagnostics that the editor was sent for a document, and the text that the document had then. -/
structure Display where
  diagnostics : List Diagnostic
  text : Option (List Char)
  deriving DecidableEq, Repr

/-- What the editor has of a document after one more input: the last diagnostics if some were sent, nothing if the
document was opened, or else what it had. An input changes the text before anything is sent. -/
def displayAfter (opened : Session → Input → Option String) (uri : String) (s : Session) (i : Input)
    (before : Option Display) : Option Display :=
  match Event.lastPublished? uri (s.sent i) with
  | some ds => some ⟨ds, (s.step i).server.text? uri⟩
  | none => if opened s i = some uri then none else before

/-- What the editor has of a document after a run: the diagnostics that it was sent last, if it was sent any since
the document was last opened. -/
def display (opened : Session → Input → Option String) (uri : String) :
    Session → Option Display → List Input → Option Display
  | _, before, [] => before
  | s, before, i :: inputs => display opened uri (s.step i) (s.displayAfter opened uri i before) inputs

/-- The findings of an open document are those of the diagnostics that were sent last, or there are none if none
were sent. -/
structure InStep (uri : String) (s : Session) (shown : Option Display) : Prop where
  sent : ∀ d display, s.server.document? uri = some d → shown = some display →
    ∃ text, display.text = some text ∧ display.diagnostics = d.violations.map (Diagnostic.ofViolation text)
  unsent : ∀ d, s.server.document? uri = some d → shown = none → d.violations = []

theorem inStep_step {shown : Option Display} (h : InStep uri s shown) (i : Input) :
    InStep uri (s.step i) (s.displayAfter opened? uri i shown) := by
  obtain ⟨sent, he, agree⟩ := agrees_step s i
  rw [events_heard] at he
  rw [displayAfter, sent_eq he]
  cases last : Event.lastPublished? uri sent with
  | some ds =>
    refine ⟨fun d display hd shown => ?_, fun _ _ unshown => absurd unshown (Option.some_ne_none _)⟩
    obtain ⟨-, -, -, published, -⟩ := agree uri d hd
    obtain rfl := Option.some.inj shown
    exact ⟨d.text, by rw [text?, hd, Option.map_some], published ds last⟩
  | none =>
    have kept {d : Document} (hd : (s.step i).server.document? uri = some d) :
        (s.opened? i = some uri ∧ d.violations = []) ∨
        (s.opened? i ≠ some uri ∧ ∃ old, s.server.document? uri = some old ∧ d.violations = old.violations) := by
      obtain ⟨m, hm, -, -, same⟩ := agree uri d hd
      rw [same last]
      exact violations_heard hm
    dsimp only
    split
    · next opens =>
      refine ⟨fun _ _ _ shown => absurd shown.symm (Option.some_ne_none _), fun d hd _ => ?_⟩
      rcases kept hd with ⟨-, none⟩ | ⟨other, -⟩
      · exact none
      · exact absurd opens other
    · next other =>
      refine ⟨fun d display hd shown => ?_, fun d hd unshown => ?_⟩
      · rcases kept hd with ⟨opens, -⟩ | ⟨-, old, ho, same⟩
        · exact absurd opens other
        · rw [same]
          exact h.sent old display ho shown
      · rcases kept hd with ⟨-, none⟩ | ⟨-, old, ho, same⟩
        · exact none
        · exact same.trans (h.unsent old ho unshown)

theorem inStep_run {shown : Option Display} (h : InStep uri s shown) (inputs : List Input) :
    InStep uri (s.run inputs) (display opened? uri s shown inputs) := by
  induction inputs generalizing s shown with
  | nil => exact h
  | cons i inputs ih => exact ih (inStep_step h i)

/-- After every run the diagnostics that were sent last for an open document are exactly those of the findings that
the server keeps of it, in the text that it had when they were sent. If none were sent since it was last opened,
none are kept. What counts as opening is what comes while the session runs. -/
theorem findings_of_run (globalFile : Option String) (t : Tree) (inputs : List Input) (uri : String) (d : Document)
    (tracked : ((fresh globalFile t).run inputs).server.document? uri = some d) :
    (∀ shown, display opened? uri (fresh globalFile t) none inputs = some shown →
      ∃ text, shown.text = some text ∧ shown.diagnostics = d.violations.map (Diagnostic.ofViolation text)) ∧
    (display opened? uri (fresh globalFile t) none inputs = none → d.violations = []) := by
  have untracked (d : Document) : (fresh globalFile t).server.document? uri ≠ some d := (Option.some_ne_none d).symm
  have start : InStep uri (fresh globalFile t) none :=
    ⟨fun d _ hd => absurd hd (untracked d), fun d hd => absurd hd (untracked d)⟩
  have inStep := inStep_run start inputs
  exact ⟨fun shown => inStep.sent d shown tracked, inStep.unsent d tracked⟩

/-- A linter that reports one finding, whatever it is given. -/
def reporting : Environment := .granting <|
  "[\x7b\"filepath\": \"a\", \"violations\": [\x7b\"code\": \"LT01\", \"description\": \"spaces\", " ++
    "\"start_line_no\": 1, \"start_line_pos\": 1\x7d]\x7d]"

def spaces : Violation := ⟨"LT01", "spaces", none, 1, 1, none, false⟩

/-- A document is opened and linted. When it is changed the linter prints what is no report. -/
def changedSince : List Input :=
  [.request (.start ⟨[], none, none, false⟩) reporting,
    .notification (.opened ⟨"untitled:", []⟩ "sql" ['a']) reporting,
    .notification (.changed ⟨"untitled:", []⟩ [⟨none, []⟩]) (.granting "x")]

/-- The finding as the editor shows it in the first text of the document. -/
def marked : Diagnostic where
  range := ⟨⟨0, 0⟩, ⟨0, 1⟩⟩
  severity := .error
  code := "LT01"
  link := some "https://docs.sqlfluff.com/en/stable/rules.html#sqlfluff.rules.Rule_LT01"
  message := "spaces"

theorem findings_of_run_changed :
    ((fresh none (.empty [])).run changedSince).server.document? "untitled:" = some ⟨[], "sql", [spaces]⟩ ∧
    display opened? "untitled:" (fresh none (.empty [])) none changedSince = some ⟨[marked], some ['a']⟩ ∧
    [marked] = [spaces].map (Diagnostic.ofViolation ['a']) := by
  have tracked : ((fresh none (.empty [])).run changedSince).server.document? "untitled:" =
      some ⟨[], "sql", [spaces]⟩ := by decide +kernel
  have shown : display opened? "untitled:" (fresh none (.empty [])) none changedSince =
      some ⟨[marked], some ['a']⟩ := by decide +kernel
  obtain ⟨text, ht, hs⟩ := (findings_of_run none (.empty []) changedSince "untitled:" _ tracked).1 _ shown
  obtain rfl := Option.some.inj ht
  exact ⟨tracked, shown, hs⟩

/-- A document is opened, and opened again after the server was told to stop. -/
def openedLate : List Input :=
  [.request (.start ⟨[], none, none, false⟩) reporting,
    .notification (.opened ⟨"untitled:", []⟩ "sql" ['a']) reporting, .request .stop reporting,
    .notification (.opened ⟨"untitled:", []⟩ "sql" ['a']) reporting]

/-- A document that is opened again after the server was told to stop keeps its findings, although nothing is
published for it any more. -/
theorem findings_of_run_after_stop :
    ¬ ∀ (globalFile : Option String) (t : Tree) (inputs : List Input) (uri : String) (d : Document),
      ((fresh globalFile t).run inputs).server.document? uri = some d →
      display (fun _ i => i.notification?.bind Notification.opened?) uri (fresh globalFile t) none inputs = none →
        d.violations = [] := by
  intro h
  have tracked : ((fresh none (.empty [])).run openedLate).server.document? "untitled:" =
      some ⟨['a'], "sql", [spaces]⟩ := by decide +kernel
  have unshown : display (fun _ i => i.notification?.bind Notification.opened?) "untitled:" (fresh none (.empty []))
      none openedLate = none := by decide +kernel
  have kept := h none (.empty []) openedLate "untitled:" _ tracked unshown
  cases kept

end Session
end SqlLint
