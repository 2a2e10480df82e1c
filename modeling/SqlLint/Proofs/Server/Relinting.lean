import SqlLint.Proofs.Server.Findings
import SqlLint.Proofs.Server.Occasions

/-! # Documents are linted in any order

Tracked documents are kept by their names, so that nothing says in which order they are linted again. What linting
one document comes to depends on the settings, the files and its own text, and changes nothing but its findings. So
every order leaves the same behind and tells the editor the same of each document. -/
namespace SqlLint

namespace Event

/-- The invocation of the linter that an event is, if the program was started. -/
def started? : Event → Option Invocation
  | .run i true => some i
  | _ => none

end Event

namespace Server
open Handler Session Event

variable {e : Environment} {s : Session} {key uri : String} {d : Document} {order other : List String}

/-- The invocation that lints a text under the name of a document. -/
def lintCall (s : Session) (key : String) (text : List Char) : Invocation :=
  Linter.lintInvocation s.settings (String.ofList text) ((Uri.parse? key).bind Uri.filePath?) none

/-- The findings of that invocation. -/
def lintOutcome (e : Environment) (s : Session) (key : String) (text : List Char) :
    Except LinterError (List Violation) :=
  (Linter.run e.programs s.tree (lintCall s key text)).bind Linter.violations

/-- What the editor is told of the findings. -/
def outcomeEvents (key : String) (text : List Char) : Except LinterError (List Violation) → List Event
  | .ok violations => [.publish key (diagnostics violations text)]
  | .error f => [.log .error ("Linting failed: " ++ f.message)]

/-- All that is sent and run when a text is linted under the name of a document. -/
def lintEvents (e : Environment) (s : Session) (key : String) (text : List Char) : List Event :=
  settingsWarnings s ++ .run (lintCall s key text) ((lintCall s key text).obstacle? e.programs s.tree).isNone ::
    outcomeEvents key text (lintOutcome e s key text)

/-- Takes findings instead of the ones that a document has. After a failure it keeps them. -/
def keepFindings (outcome : Except LinterError (List Violation)) (d : Document) : Document :=
  { d with violations := outcome.toOption.getD d.violations }

theorem update_self (s : Server) (key : String) : (s.update key fun d => d) = s := by
  rw [update]
  simp

theorem lintAndReport_apply {uri : Uri} (read : uri.IsRead) (hd : s.server.document? uri.text = some d)
    (e : Environment) : lintAndReport uri e s =
      ((), ({ s with server := s.server.update uri.text (keepFindings (lintOutcome e s uri.text d.text)) }).emit
        (lintEvents e s uri.text d.text)) := by
  have call : Linter.lintInvocation (settings s.server s.tree) (String.ofList d.text) uri.filePath? none =
      lintCall s uri.text d.text := by
    rw [lintCall, show Uri.parse? uri.text = some uri from read]
    rfl
  rw [lintAndReport, bind_apply, lintDocument, bind_apply, server_apply]
  dsimp only
  rw [hd]
  simp only [bind_apply, loadSettings_apply, run_apply, call, lintEvents, lintOutcome, emit_tree]
  generalize (Linter.run e.programs s.tree (lintCall s uri.text d.text)).bind Linter.violations = outcome
  cases outcome with
  | ok violations =>
    have kept : keepFindings (.ok violations) = fun d => { d with violations := violations } := rfl
    simp [publishFindings, setViolations, outcomeEvents, kept, emit]
  | error f =>
    have kept : keepFindings (.error f) = fun d => d := rfl
    simp [outcomeEvents, kept, update_self, emit]

/-- What is sent and run for a tracked document. -/
def visitEvents (e : Environment) (s : Session) (key : String) : List Event :=
  ((s.server.text? key).map (lintEvents e s key)).getD []

/-- The session in which the documents of some names have their new findings. -/
def relinted (e : Environment) (s : Session) (order : List String) : Session :=
  { s with server := { s.server with documents := s.server.documents.map fun d =>
      if d.1 ∈ order then (d.1, keepFindings (lintOutcome e s d.1 d.2.text) d.2) else d } }

/-- The session in which one document has its new findings. -/
def visited (e : Environment) (s : Session) (key : String) (text : List Char) : Session :=
  ({ s with server := s.server.update key (keepFindings (lintOutcome e s key text)) }).emit (lintEvents e s key text)

/-- A visit leaves the settings and the files as they are, and so what linting any text comes to. -/
theorem lintOutcome_visited (text : List Char) : lintOutcome e (visited e s key text) = lintOutcome e s := rfl

theorem lintEvents_visited (text : List Char) : lintEvents e (visited e s key text) = lintEvents e s := rfl

theorem text?_visited (text : List Char) : (visited e s key text).server.text? = s.server.text? :=
  map_document?_update s.server key fun _ => rfl

theorem visitEvents_visited (text : List Char) : visitEvents e (visited e s key text) = visitEvents e s := by
  funext name
  rw [visitEvents, text?_visited, lintEvents_visited, visitEvents]

theorem tracked_visited (text : List Char) : (visited e s key text).server.tracked = s.server.tracked :=
  tracked_update s.server key _

/-- A document that is visited is not changed by later visits to others. -/
theorem relinted_visited {text : List Char} (new : key ∉ order)
    (found : ∀ d ∈ s.server.documents, d.1 = key → d.2.text = text) :
    relinted e (visited e s key text) order = (relinted e s (key :: order)).emit (lintEvents e s key text) := by
  have documents : (relinted e (visited e s key text) order).server.documents =
      (relinted e s (key :: order)).server.documents := by
    rw [relinted, relinted, lintOutcome_visited]
    dsimp only [visited, emit_server, update]
    rw [List.map_map]
    refine List.map_congr_left fun d hd => ?_
    rw [Function.comp_apply]
    by_cases same : d.1 = key
    · rw [if_pos same, if_neg (same ▸ new), if_pos (same ▸ List.mem_cons_self), found d hd same, same]
    · rw [if_neg same]
      by_cases later : d.1 ∈ order
      · rw [if_pos later, if_pos (List.mem_cons_of_mem _ later)]
      · rw [if_neg later, if_neg (List.not_mem_cons_of_ne_of_not_mem same later)]
  exact congrArg (fun documents : List (String × Document) =>
    ({ s with server := { s.server with documents := documents } } : Session).emit (lintEvents e s key text)) documents

theorem lintAll_cons {text : List Char} (filed : s.server.Filed) (tracked : s.server.text? key = some text)
    (e : Environment) : lintAll (key :: order) e s = lintAll order e (visited e s key text) := by
  obtain ⟨d, hd, rfl⟩ := Option.map_eq_some_iff.1 tracked
  obtain ⟨uri, hu⟩ : ∃ uri, Uri.parse? key = some uri := by
    cases hu : Uri.parse? key with
    | some uri => exact ⟨uri, rfl⟩
    | none => exact absurd (hd.symm.trans (filed.document?_of_unread hu)) (Option.some_ne_none d)
  obtain rfl := Uri.text_of_parse? hu
  rw [lintAll, List.forM_eq_forM, List.forM_cons, hu, bind_apply]
  dsimp only
  rw [lintAndReport_apply (Uri.isRead_of_parse? hu) hd e]
  rfl

theorem Filed.text? {s : Server} (filed : s.Filed) {d : String × Document} (h : d ∈ s.documents) :
    s.text? d.1 = some d.2.text := by
  rw [Server.text?, filed.document? h]
  rfl

/-- Every visit in an order has the settings, the files and the text that the first one has. -/
theorem lintAll_apply (filed : s.server.Filed) (nodup : order.Nodup) (known : order ⊆ s.server.tracked)
    (e : Environment) :
    lintAll order e s = ((), (relinted e s order).emit (order.flatMap (visitEvents e s))) := by
  induction order generalizing s with
  | nil =>
    have same : relinted e s [] = s := by simp [relinted]
    rw [same, List.flatMap_nil, emit_nil]
    rfl
  | cons key order ih =>
    obtain ⟨new, once⟩ := List.nodup_cons.1 nodup
    obtain ⟨⟨name, d⟩, hd, same⟩ := List.mem_map.1 (known List.mem_cons_self)
    obtain rfl : name = key := same
    have text := filed.text? hd
    have found (d' : String × Document) (hd' : d' ∈ s.server.documents) (same : d'.1 = name) : d'.2.text = d.text :=
      Option.some.inj ((filed.text? hd').symm.trans (same ▸ text))
    have events : visitEvents e s name = lintEvents e s name d.text := by
      rw [visitEvents, text]
      rfl
    have names : (visited e s name d.text).server.tracked = s.server.tracked := tracked_visited d.text
    have rest := ih (filed.of_tracked names) once (names ▸ fun _ h => known (List.mem_cons_of_mem _ h))
    rw [lintAll_cons filed text, rest, relinted_visited new found, visitEvents_visited, emit_emit, List.flatMap_cons,
      events]

/-- Lints the tracked documents in an order, unless linting is off. -/
def lintOpenDocumentsIn (order : List String) : Handler Unit := do
  if (← loadSettings).run ≠ .off then lintAll order

theorem lintOpenDocuments_eq (e : Environment) (s : Session) :
    lintOpenDocuments e s = lintOpenDocumentsIn s.server.tracked e s := by
  rw [lintOpenDocuments, lintOpenDocumentsIn, bind_apply, bind_apply, loadSettings_apply]
  dsimp only
  split <;> rfl

theorem lintOpenDocumentsIn_apply (filed : s.server.Filed) (on : s.settings.run ≠ .off)
    (visits : order.Perm s.server.tracked) (e : Environment) :
    lintOpenDocumentsIn order e s =
      ((), (relinted e s order).emit (settingsWarnings s ++ order.flatMap (visitEvents e s))) := by
  have nodup : order.Nodup := visits.nodup_iff.2 filed.nodup
  have all := lintAll_apply (s := s.emit (settingsWarnings s)) filed nodup visits.subset e
  have wanted : (settings s.server s.tree).run ≠ .off := on
  rw [lintOpenDocumentsIn, bind_apply, loadSettings_apply]
  dsimp only
  rw [if_pos wanted, all, ← emit_emit]
  rfl

/-- For the findings it only matters which names an order has. -/
theorem relinted_perm (h : order.Perm other) : relinted e s order = relinted e s other := by
  have same (d : String × Document) : (d.1 ∈ order) = (d.1 ∈ other) := propext h.mem_iff
  simp only [relinted, same]

/-- Whether an invocation can be started. -/
def isStartable (e : Environment) (s : Session) (i : Invocation) : Bool := (i.obstacle? e.programs s.tree).isNone

theorem started?_lintEvents (text : List Char) :
    (lintEvents e s key text).filterMap started? = [lintCall s key text].filter (isStartable e s) := by
  have told : (outcomeEvents key text (lintOutcome e s key text)).filterMap started? = [] := by
    cases lintOutcome e s key text <;> rfl
  have quiet := filterMap_settingsWarnings (f := started?) (fun _ _ => rfl) s
  rw [lintEvents, List.filterMap_append, quiet, List.nil_append, List.filterMap_cons, told, List.filter_singleton,
    ← isStartable]
  cases isStartable e s (lintCall s key text) <;> rfl

/-- A visit to a tracked document starts the linter once on its text, if it can be started. -/
theorem started?_visitEvents (e : Environment) (s : Session) (key : String) :
    (visitEvents e s key).filterMap started? = (s.lints key).filter (isStartable e s) := by
  rw [visitEvents, lints, onText]
  cases s.server.text? key with
  | none => rfl
  | some text => exact started?_lintEvents text

/-- What is published on a visit is published for the document that is visited. -/
theorem published?_visitEvents (h : key ≠ uri) : (visitEvents e s key).filterMap (published? uri) = [] := by
  have quiet := filterMap_settingsWarnings (f := published? uri) (fun _ _ => rfl) s
  have told (text : List Char) :
      (outcomeEvents key text (lintOutcome e s key text)).filterMap (published? uri) = [] := by
    cases lintOutcome e s key text with
    | ok violations => simp [outcomeEvents, published?, h]
    | error f => rfl
  rw [visitEvents]
  cases s.server.text? key with
  | none => rfl
  | some text =>
    rw [Option.map_some, Option.getD_some, lintEvents, List.filterMap_append, quiet, List.nil_append,
      List.filterMap_cons, told]
    rfl

/-- Where only one name counts, it counts as often as it comes up. -/
theorem flatMap_eq_replicate {α : Type} {f : String → List α} (silent : ∀ key, key ≠ uri → f key = [])
    (names : List String) : names.flatMap f = (List.replicate (names.count uri) uri).flatMap f := by
  induction names with
  | nil => rfl
  | cons key names ih =>
    rw [List.flatMap_cons, List.count_cons, ih]
    by_cases same : key = uri
    · rw [if_pos (beq_iff_eq.2 same), same, List.replicate_succ, List.flatMap_cons]
    · rw [if_neg (mt beq_iff_eq.1 same), silent key same, List.nil_append, Nat.add_zero]

/-- It counts so in whatever order. -/
theorem flatMap_perm_of_one {α : Type} {f : String → List α} (silent : ∀ key, key ≠ uri → f key = [])
    (h : order.Perm other) : order.flatMap f = other.flatMap f := by
  rw [flatMap_eq_replicate silent order, h.count_eq, ← flatMap_eq_replicate silent other]

/-- In each order the linter is started on each tracked document once, if it can be started. -/
theorem started?_visits (filed : s.server.Filed) (on : s.settings.run ≠ .off) (visits : order.Perm s.server.tracked) :
    ((settingsWarnings s ++ order.flatMap (visitEvents e s)).filterMap started?).Perm
      (s.lintsAll.filter (isStartable e s)) := by
  have quiet := filterMap_settingsWarnings (f := started?) (fun _ _ => rfl) s
  rw [lintsAll, if_pos on, ← filed.lints, List.filter_flatMap, List.filterMap_append, quiet, List.nil_append,
    List.filterMap_flatMap]
  simp only [started?_visitEvents]
  exact visits.flatMap_right _

/-- Each tracked document has its new findings, if its name belongs to an order. -/
theorem relinted_documents (visits : order.Perm s.server.tracked) : (relinted e s order).server.documents =
    s.server.documents.map fun d => (d.1, keepFindings (lintOutcome e s d.1 d.2.text) d.2) :=
  List.map_congr_left fun _ hd => if_pos (visits.mem_iff.2 (List.mem_map_of_mem hd))

/-- When all tracked documents are linted, the order does not matter. In each order the linter is started once for
each document, if it can be started. Each order leaves the same server behind: a document has the findings of its own
text, or its old ones if linting it failed, and the active document and the files are not touched. And for each
document all orders publish the same. The documents are linted in an order of this kind. That they are filed holds in
all runs. -/
theorem relinted_in_any_order (e : Environment) (s : Session) (order other : List String) (filed : s.server.Filed)
    (on : s.settings.run ≠ .off) (visits : order.Perm s.server.tracked) (revisits : other.Perm s.server.tracked) :
    lintOpenDocuments e s = lintOpenDocumentsIn s.server.tracked e s ∧
    (lintOpenDocumentsIn order e s).2.server = (lintOpenDocumentsIn other e s).2.server ∧
    (lintOpenDocumentsIn order e s).2.server.documents =
      s.server.documents.map (fun d => (d.1, keepFindings (lintOutcome e s d.1 d.2.text) d.2)) ∧
    (lintOpenDocumentsIn order e s).2.server.active = s.server.active ∧
    (lintOpenDocumentsIn order e s).2.tree = s.tree ∧ (lintOpenDocumentsIn other e s).2.tree = s.tree ∧
    ∃ sent sent', (lintOpenDocumentsIn order e s).2.events = s.events ++ sent ∧
      (lintOpenDocumentsIn other e s).2.events = s.events ++ sent' ∧
      (sent.filterMap started?).Perm (s.lintsAll.filter (isStartable e s)) ∧
      (sent'.filterMap started?).Perm (s.lintsAll.filter (isStartable e s)) ∧
      ∀ uri, sent.filterMap (published? uri) = sent'.filterMap (published? uri) := by
  have same : order.Perm other := visits.trans revisits.symm
  rw [lintOpenDocumentsIn_apply filed on visits, lintOpenDocumentsIn_apply filed on revisits, ← relinted_perm same]
  refine ⟨lintOpenDocuments_eq e s, rfl, relinted_documents visits, rfl, rfl, rfl, _, _, rfl, rfl,
    started?_visits filed on visits, started?_visits filed on revisits, fun uri => ?_⟩
  rw [List.filterMap_append, List.filterMap_append, List.filterMap_flatMap, List.filterMap_flatMap,
    flatMap_perm_of_one (fun _ => published?_visitEvents) same]

/-- A linter that takes too long for one text and reports one finding on all others. -/
def failingOn (text : String) : Environment :=
  { reporting with programs := ⟨[], fun call =>
      if call.input = some text then { milliseconds := 60000 } else reporting.programs.reply call⟩ }

/-- A session with two documents, of which the second one has a finding. -/
def editingTwo : Session :=
  installed ⟨{ phase := .running, active := some "a:",
               documents := [("a:", ⟨['a'], "sql", []⟩), ("b:", ⟨['b'], "sql", [spaces, spaces]⟩)] }, .empty [], []⟩

theorem relinted_in_any_order_backwards :
    (lintOpenDocumentsIn ["b:", "a:"] (failingOn "b") editingTwo).2.server =
      (lintOpenDocumentsIn ["a:", "b:"] (failingOn "b") editingTwo).2.server ∧
    (lintOpenDocumentsIn ["b:", "a:"] (failingOn "b") editingTwo).2.server.documents =
      [("a:", ⟨['a'], "sql", [spaces]⟩), ("b:", ⟨['b'], "sql", [spaces, spaces]⟩)] ∧
    ((lintOpenDocumentsIn ["b:", "a:"] (failingOn "b") editingTwo).2.events.filterMap started?).length = 2 := by
  have filed : editingTwo.server.Filed := ⟨by decide, by decide +kernel⟩
  obtain ⟨-, same, documents, -, -, -, sent, -, events, -, started, -⟩ :=
    relinted_in_any_order (failingOn "b") editingTwo ["b:", "a:"] ["a:", "b:"] filed (by decide +kernel) (.swap ..) (.refl _)
  refine ⟨same, documents.trans (by decide +kernel), ?_⟩
  rw [events]
  exact started.length_eq.trans (by decide +kernel)

end Server
end SqlLint
