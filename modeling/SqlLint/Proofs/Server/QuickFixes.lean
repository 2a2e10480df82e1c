import SqlLint.Proofs.Server.Calls
import SqlLint.Proofs.Server.Formatting
import SqlLint.Server.Message

/-! # Quick fixes

For each rule that the linter's diagnostics are about the editor is offered three commands. What it sends back of an
action, the name of a command and its arguments, is read by another part of the server, which understands it as the
command that was meant, unless the code of the diagnostic is the empty text. -/
namespace SqlLint

namespace Command

/-- The rule that a command is about. -/
def rule? : Command → Option String
  | .excludeRule rule _ => some rule
  | .viewDocumentation rule => some rule
  | _ => none

theorem map_ruleArgument (command rule : String) (f : String → Command) :
    (ruleArgument command [.string rule]).map f =
      if some rule = some "" then .error (.invalidArguments command "expected a rule identifier string")
      else .ok (f rule) := by
  rw [ruleArgument]
  by_cases unnamed : rule = ""
  · rw [if_pos (String.isEmpty_iff.2 unnamed), if_pos (congrArg some unnamed)]
    rfl
  · rw [if_neg (mt String.isEmpty_iff.1 unnamed), if_neg (mt Option.some.inj unnamed)]
    rfl

/-- Each command is read back from its name and its arguments, but no command is about a rule without a name. -/
theorem parse_argument (c : Command) : parse c.id (CodeAction.argument c) =
    if c.rule? = some "" then .error (.invalidArguments c.id "expected a rule identifier string") else .ok c := by
  cases c with
  | excludeRule rule scope => cases scope <;> exact map_ruleArgument _ rule _
  | viewDocumentation rule => exact map_ruleArgument _ rule _
  | lint document => cases document <;> rfl
  | lintProject => rfl
  | fix document => cases document <;> rfl

end Command

namespace CodeAction

/-- The commands that are offered for a rule, in their order. -/
def commandsFor (rule : String) : List Command :=
  [.excludeRule rule .global, .excludeRule rule .workspace, .viewDocumentation rule]

/-- The rule that a diagnostic is about, as the editor sends it: the linter's diagnostics have a code, which is a
text or a number. -/
def ruleOf? (j : Json) : Option String := rule? (Message.diagnostic j)

/-- The rules that diagnostics are about, in the order in which they come up. -/
def rulesOf (items : List Json) : List String := (items.filterMap ruleOf?).eraseDups

/-- How an action's command is understood when the editor sends it back. -/
def understood? (action : Json) : Option (Except CommandError Command) := do
  let command ← action.get? "command"
  let name ← (command.get? "command").bind Json.string?
  let arguments ← command.get? "arguments"
  return Command.parse name arguments.items

theorem understood?_toJson (a : CodeAction) :
    understood? a.toJson = some (Command.parse a.command.id (argument a.command)) := by
  have sent : a.toJson.get? "command" = some (.mk [("title", .string a.title), ("command", .string a.command.id),
      ("arguments", .array (argument a.command))]) := by
    rw [toJson, Json.get?_mk]
    rfl
  simp only [understood?, sent, Option.bind_eq_bind, Option.bind_some, Json.get?_mk]
  rfl

theorem diagnostics_toJson (a : CodeAction) : a.toJson.get? "diagnostics" = some (.array [a.diagnostic]) := by
  rw [toJson, Json.get?_mk]
  rfl

/-- The actions for a rule, with the first diagnostic that is about it. -/
def actionsFor (ds : List SentDiagnostic) (rule : String) : List CodeAction :=
  (ds.find? fun d => rule? d = some rule).toList.flatMap fun d => ofRule rule d.body

theorem actionsFor_cons_self {d : SentDiagnostic} {rule : String} (named : rule? d = some rule)
    (ds : List SentDiagnostic) : actionsFor (d :: ds) rule = ofRule rule d.body := by
  rw [actionsFor, List.find?_cons_of_pos (by simpa using named), Option.toList_some, List.flatMap_singleton]

/-- A diagnostic in front is the first one for its own rule alone. -/
theorem flatMap_actionsFor_cons {d : SentDiagnostic} {rules : List String} (other : ∀ rule ∈ rules, rule? d ≠ some rule)
    (ds : List SentDiagnostic) : rules.flatMap (actionsFor (d :: ds)) = rules.flatMap (actionsFor ds) := by
  refine List.flatMap_congr fun rule h => ?_
  rw [actionsFor, actionsFor, List.find?_cons_of_neg (by simpa using other rule h)]

/-- Each rule that was not seen before gets its actions once. -/
theorem ofDiagnostics_eq (seen : List String) (ds : List SentDiagnostic) :
    ofDiagnostics seen ds = ((ds.filterMap rule?).filter (· ∉ seen)).eraseDups.flatMap (actionsFor ds) := by
  induction ds generalizing seen with
  | nil => rfl
  | cons d ds ih =>
    rw [ofDiagnostics, List.filterMap_cons]
    cases named : rule? d with
    | none =>
      dsimp only
      rw [ih, flatMap_actionsFor_cons fun _ _ => named ▸ (Option.some_ne_none _).symm]
    | some rule =>
      dsimp only
      by_cases old : rule ∈ seen
      · have others : ∀ other ∈ ((ds.filterMap rule?).filter (· ∉ seen)).eraseDups, rule? d ≠ some other := by
          intro other ho same
          obtain rfl := Option.some.inj (named.symm.trans same)
          simpa [old] using List.mem_eraseDups.1 ho
        rw [if_pos old, List.filter_cons_of_neg (by simp [old]), ih, flatMap_actionsFor_cons others]
      · have rest : (((ds.filterMap rule?).filter (· ∉ seen)).filter fun other => !other == rule) =
            (ds.filterMap rule?).filter (· ∉ rule :: seen) := by
          rw [List.filter_filter]
          exact List.filter_congr fun other _ => by simp [Bool.beq_eq_decide_eq]
        have others : ∀ other ∈ ((ds.filterMap rule?).filter (· ∉ rule :: seen)).eraseDups, rule? d ≠ some other := by
          intro other ho same
          obtain rfl := Option.some.inj (named.symm.trans same)
          simpa using List.mem_eraseDups.1 ho
        rw [if_neg old, List.filter_cons_of_pos (by simp [old]), List.eraseDups_cons, List.flatMap_cons,
          actionsFor_cons_self named, rest, flatMap_actionsFor_cons others, ih]

theorem actionsFor_diagnostics {items : List Json} {rule : String} {j : Json}
    (first : items.find? (fun j => ruleOf? j = some rule) = some j) :
    actionsFor (items.map Message.diagnostic) rule = ofRule rule j := by
  have found : (items.map Message.diagnostic).find? (fun d => rule? d = some rule) = some (Message.diagnostic j) := by
    rw [List.find?_map]
    exact congrArg (Option.map Message.diagnostic) first
  rw [actionsFor, found, Option.toList_some, List.flatMap_singleton]
  rfl

/-- Each rule that comes up does so for a first time. -/
theorem exists_first {items : List Json} {rule : String} (h : rule ∈ rulesOf items) :
    ∃ j, items.find? (fun j => ruleOf? j = some rule) = some j := by
  obtain ⟨j, hj, named⟩ := List.mem_filterMap.1 (List.mem_eraseDups.1 h)
  exact Option.isSome_iff_exists.1 (List.find?_isSome.2 ⟨j, hj, decide_eq_true named⟩)

/-- The commands of a rule's actions are understood as they were meant, unless the rule has no name. -/
theorem understood?_ofRule (rule : String) (j : Json) : (ofRule rule j).map (fun a => understood? a.toJson) =
    (commandsFor rule).map fun c =>
      some (if rule = "" then .error (.invalidArguments c.id "expected a rule identifier string") else .ok c) := by
  have named : (some rule = some "") = (rule = "") := propext Option.some_inj
  simp only [ofRule, commandsFor, List.map_cons, List.map_nil, understood?_toJson, Command.parse_argument,
    Command.rule?, named]

end CodeAction

namespace Server
open CodeAction Handler

variable {e : Environment} {s : Session} {uri : Uri}

theorem answer_codeAction (e : Environment) (tracked : s.server.isOpen uri.text = true)
    (native : s.settings.osmosis = false) (ds : List SentDiagnostic) :
    (answer (.codeAction uri ds) e s).1 = .ok (.array ((ofDiagnostics [] ds).map toJson)) := by
  have actions : (codeActions uri ds e s).1 = some (ofDiagnostics [] ds) := by
    have same : settings s.server s.tree = s.settings := rfl
    rw [codeActions, bind_apply, server_apply]
    dsimp only
    rw [tracked, if_neg (by decide), bind_apply, loadSettings_apply]
    dsimp only
    rw [same, native, if_neg (by decide)]
    rfl
  rw [answer, bind_apply, actions]
  rfl

/-- For a document that is tracked the editor is offered three actions for each rule that the linter's diagnostics
are about, in the order in which the rules come up, and each action has the first diagnostic that is about its rule.
When the editor sends the commands of the three actions back, they are understood as the exclusion of just this rule
for all workspaces, its exclusion for this one, and the display of its documentation, if and only if the rule has a
name. The actions for an empty code are offered and then refused. -/
theorem understood_of_codeAction (e : Environment) (s : Session) (uri : Uri) (items : List Json)
    (tracked : s.server.isOpen uri.text = true) (native : s.settings.osmosis = false) :
    ∃ first : String → Json,
      (∀ rule ∈ rulesOf items, items.find? (fun j => ruleOf? j = some rule) = some (first rule)) ∧
      (answer (.codeAction uri (items.map Message.diagnostic)) e s).1 =
        .ok (.array ((rulesOf items).flatMap fun rule => (ofRule rule (first rule)).map toJson)) ∧
      ∀ rule ∈ rulesOf items,
        (ofRule rule (first rule)).map (fun a => a.toJson.get? "diagnostics") =
          List.replicate 3 (some (.array [first rule])) ∧
        (ofRule rule (first rule)).map (fun a => understood? a.toJson) =
          [Command.excludeRule rule .global, .excludeRule rule .workspace, .viewDocumentation rule].map fun c =>
            some (if rule = "" then .error (.invalidArguments c.id "expected a rule identifier string") else .ok c) := by
  have found (rule : String) (h : rule ∈ rulesOf items) :
      items.find? (fun j => ruleOf? j = some rule) =
        some ((items.find? fun j => ruleOf? j = some rule).getD .null) := by
    obtain ⟨j, hj⟩ := exists_first h
    rw [hj]
    rfl
  refine ⟨fun rule => (items.find? fun j => ruleOf? j = some rule).getD .null, found, ?_, fun rule _ => ⟨?_, ?_⟩⟩
  · have rules : (((items.map Message.diagnostic).filterMap rule?).filter (· ∉ ([] : List String))).eraseDups =
        rulesOf items := by
      rw [List.filterMap_map, List.filter_eq_self.2 (by simp)]
      rfl
    rw [answer_codeAction e tracked native, ofDiagnostics_eq, rules, List.map_flatMap]
    congr 2
    exact List.flatMap_congr fun rule h => congrArg _ (actionsFor_diagnostics (found rule h))
  · simp only [ofRule, List.map_cons, List.map_nil, diagnostics_toJson, List.replicate]
  · exact understood?_ofRule rule _

/-- A diagnostic with an empty code. -/
def unnamed : Json := .object [("code", .string ""), ("source", .string "sqlfluff")]

/-- Diagnostics of two linters. Two have the same code, one as a number and one as a text, one has no code, and one has
an empty one. -/
def mixedDiagnostics : List Json :=
  [.object [("code", .number (.int 7)), ("source", .string "sqlfluff")],
    .object [("code", .string "E501"), ("source", .string "other-linter")],
    .object [("code", .string "7"), ("message", .string "again"), ("source", .string "sqlfluff")],
    .object [("message", .string "no code"), ("source", .string "sqlfluff")], unnamed]

/-- A session with one document that has no text yet. -/
def editingEmpty : Session := editing ⟨"untitled:", []⟩ ⟨[], "sql", []⟩

theorem understood_of_codeAction_mixed :
    ∃ actions, (answer (.codeAction ⟨"untitled:", []⟩ (mixedDiagnostics.map Message.diagnostic)) (.granting "")
        editingEmpty).1 = .ok (.array actions) ∧
      actions.map understood? = (commandsFor "7").map (fun c => some (.ok c)) ++
        (commandsFor "").map fun c => some (.error (.invalidArguments c.id "expected a rule identifier string")) := by
  obtain ⟨first, -, answered, actions⟩ :=
    understood_of_codeAction (.granting "") editingEmpty ⟨"untitled:", []⟩ mixedDiagnostics rfl rfl
  have rules : rulesOf mixedDiagnostics = ["7", ""] := by decide +kernel
  rw [rules] at answered actions
  refine ⟨_, answered, ?_⟩
  rw [List.flatMap_cons, List.flatMap_singleton, List.map_append, List.map_map, List.map_map]
  exact congrArg₂ _ (actions "7" (by decide)).2 (actions "" (by decide)).2

/-- Not every action that is offered has a command that can be run. -/
theorem not_understood_of_empty_code : ¬ ∀ (e : Environment) (s : Session) (uri : Uri) (items actions : List Json),
    s.server.isOpen uri.text = true → s.settings.osmosis = false →
      (answer (.codeAction uri (items.map Message.diagnostic)) e s).1 = .ok (.array actions) →
        ∀ action ∈ actions, ∃ c, understood? action = some (.ok c) := by
  intro works
  have answered : (answer (.codeAction ⟨"untitled:", []⟩ ([unnamed].map Message.diagnostic)) (.granting "")
      editingEmpty).1 = .ok (.array ((ofRule "" unnamed).map toJson)) := by
    rw [answer_codeAction (.granting "") rfl rfl]
    rfl
  obtain ⟨refused, -⟩ := List.cons.inj (understood?_ofRule "" unnamed)
  obtain ⟨c, understood⟩ := works _ editingEmpty _ [unnamed] _ rfl rfl answered _ List.mem_cons_self
  cases refused.symm.trans understood

end Server
end SqlLint
