import SqlLint.Settings.Layer

/-! # Arguments of the linter -/
namespace SqlLint.Linter

def optionOf (flag : String) : Option String → List String
  | some value => [flag, value]
  | none => []

def listOf (flag : String) (values : List String) : List String :=
  if values.isEmpty then [] else [flag, ",".intercalate values]

def ignored (s : Settings) : List String :=
  (if s.ignoreParsing then ["parsing"] else []) ++ (if s.ignoreTemplating then ["templating"] else [])

/-- The selection of rules and what to leave out. -/
def filters (s : Settings) : List String :=
  optionOf "--dialect" s.dialect ++ optionOf "--config" s.config ++ listOf "--rules" s.rules ++
    listOf "--exclude-rules" s.excludeRules ++ listOf "--ignore" (ignored s)

/-- The text comes from standard input; the file name tells where its configuration is. -/
def fromInput (file : Option String) : List String := optionOf "--stdin-filename" file ++ ["-"]

def report : List String := ["lint", "--format", "json"]

def lintArguments (s : Settings) (file : Option String) : List String :=
  report ++ filters s ++ fromInput file

def fixArguments (s : Settings) (file : Option String) : List String :=
  "fix" :: filters s ++ fromInput file

def pathArguments (s : Settings) (path : String) : List String := report ++ filters s ++ [path]

end SqlLint.Linter
