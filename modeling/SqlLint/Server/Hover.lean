import SqlLint.Server.State

/-! # Findings under the cursor -/
namespace SqlLint

namespace Violation

/-- The rule in bold type and its name as code. -/
def heading (v : Violation) : String :=
  match v.name with
  | some name => "**" ++ v.code ++ "** `" ++ name ++ "`"
  | none => "**" ++ v.code ++ "**"

def markdown (v : Violation) : String :=
  v.heading ++ ": " ++ v.description ++ "\n\n[Documentation](" ++ Rule.documentation v.code ++ ")"

end Violation

namespace Server

/-- The findings of a document at a position of its text. -/
def findingsAt (d : Document) (p : Position) : List Violation :=
  d.violations.filter fun v => v.contains p.line (Text.charColumn d.text p.line p.character)

/-- What the editor shows for a position, if anything. -/
def hover? (s : Server) (uri : String) (p : Position) : Option String :=
  (s.document? uri).bind fun d =>
    match findingsAt d p with
    | [] => none
    | found => some ("\n\n---\n\n".intercalate (found.map Violation.markdown))

end Server
end SqlLint
