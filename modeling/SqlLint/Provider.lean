import SqlLint.Json.Value
import SqlLint.Settings.Layer

/-! # Providers

What the server offers for each language. Code actions are left out where another backend brings
its own fixes. -/
namespace SqlLint

inductive ProviderKind | formatting | hover | codeAction deriving DecidableEq, Repr

structure Provider where
  language : String
  kind : ProviderKind
  deriving DecidableEq, Repr

namespace ProviderKind

def method : ProviderKind → String
  | .formatting => "textDocument/formatting"
  | .hover => "textDocument/hover"
  | .codeAction => "textDocument/codeAction"

def name : ProviderKind → String
  | .formatting => "formatting"
  | .hover => "hover"
  | .codeAction => "code-action"

end ProviderKind

namespace Provider

def languages : List String := ["sql", "sql-bigquery", "jinja-sql"]

def isSupported (language : String) : Bool := languages.contains language

def id (p : Provider) : String := "sqlfluff-" ++ p.kind.name ++ "-" ++ p.language

def kinds (s : Settings) : List ProviderKind :=
  [.formatting, .hover] ++ if s.osmosis then [] else [.codeAction]

def wanted (s : Settings) : List Provider := languages.flatMap fun l => (kinds s).map fun k => ⟨l, k⟩

def provides (providers : List Provider) (kind : ProviderKind) : Bool :=
  providers.any fun p => p.kind == kind

def options (p : Provider) : Json :=
  .mk <| ("documentSelector", .array [.mk [("language", .string p.language)]]) ::
    if p.kind = .codeAction then [("codeActionKinds", .strings ["quickfix"])] else []

def registration (p : Provider) : Json :=
  .mk [("id", .string p.id), ("method", .string p.kind.method), ("registerOptions", p.options)]

def unregistration (p : Provider) : Json :=
  .mk [("id", .string p.id), ("method", .string p.kind.method)]

/-- Whether the editor takes registrations of one feature at any time. -/
def isDynamic (capabilities : Json) (feature : String) : Bool :=
  let flag := do (← (← capabilities.get? "textDocument").get? feature).get? "dynamicRegistration"
  (flag.bind Json.bool?).getD false

/-- Whether the editor takes registrations of every kind of provider. -/
def dynamic (capabilities : Json) : Bool :=
  ["formatting", "hover", "codeAction"].all (isDynamic capabilities)

theorem id_injective_kind {language : String} {a b : ProviderKind}
    (h : id ⟨language, a⟩ = id ⟨language, b⟩) : a = b := by
  have h' := congrArg String.toList h
  cases a <;> cases b <;> simp_all [id, ProviderKind.name, String.toList_append]

end Provider
end SqlLint
