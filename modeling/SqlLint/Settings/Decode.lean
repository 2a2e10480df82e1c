import SqlLint.Settings.Datum
import SqlLint.Settings.Layer
import SqlLint.Word

/-! # Layers of settings sources

A record may also be given as the list of its fields, in the order in which they are declared.
Keys without a meaning are skipped, and an editor's `null` leaves a key unset. -/
namespace SqlLint.Layer
open Datum (found)

variable (format : Format)

abbrev Decoder (α : Type) := Datum → Except Fault α

/-- Whether an integer has 64 bits, with or without sign. -/
def fits (n : Int) : Bool := Word.isSigned 64 n || Word.isUnsigned 64 n

/-- Whether an integer can be passed over, which takes 128 bits. -/
def isKnown (n : Int) : Bool := Word.isSigned 128 n || Word.isUnsigned 128 n

/-- The fault of an integer where something else is expected. -/
def intFault (n : Int) (expected : Expected) : Fault :=
  if fits n then .wrongType (.int n) expected
  else if Word.isSigned 128 n then .wrongType (.wide n true) expected
  else if Word.isUnsigned 128 n then .wrongType (.wide n false) expected
  else .malformed

/-- The fault of a value that does not have its expected shape. -/
def expect {α : Type} (expected : Expected) : Datum → Except Fault α
  | .beyond => .error .malformed
  | .int n => .error (intFault n expected)
  | d => .error (.wrongType (found format d) expected)

mutual
/-- A value without a meaning; its numbers must be within bounds nevertheless. -/
def skip : Datum → Except Fault Unit
  | .int n => if isKnown n then .ok () else .error .malformed
  | .beyond => .error .malformed
  | .list items => skipItems items
  | .table entries => skipEntries entries
  | _ => .ok ()

def skipItems : List Datum → Except Fault Unit
  | [] => .ok ()
  | d :: rest => do
    skip d
    skipItems rest

def skipEntries : List (String × Datum) → Except Fault Unit
  | [] => .ok ()
  | (_, d) :: rest => do
    skip d
    skipEntries rest
end

def optional {α : Type} (decode : Decoder α) : Decoder (Option α)
  | .null => .ok none
  | d => (decode d).map some

def text (expected : Expected) : Decoder String
  | .text s => .ok s
  | d => expect format expected d

def boolean : Decoder Bool
  | .bool b => .ok b
  | d => expect format .boolean d

def seconds : Decoder Nat
  | .int n =>
    if fits n ∧ n < 0 then .error (.outOfRange n .seconds)
    else if fits n then .ok n.toNat
    else expect format .seconds (.int n)
  | d => expect format .seconds d

def texts : Decoder (List String)
  | .list items => items.mapM (text format .text)
  | d => expect format .sequence d

def triggerNamed (name : String) : Except Fault Trigger :=
  match Trigger.ofName? name with
  | some t => .ok t
  | none => .error (.unknownVariant name Trigger.names)

/-- The value beside the one key of a table that names a trigger holds nothing. -/
def noContent : Datum → Except Fault Unit
  | .null => .ok ()
  | .list [] => if format = .toml then .ok () else expect format .unit (.list [])
  | .table [] => if format = .toml then .ok () else expect format .unit (.table [])
  | d => if format = .toml then .error .malformed else expect format .unit d

def trigger : Decoder Trigger
  | .text name => triggerNamed name
  | .table [(name, content)] => do
    let t ← triggerNamed name
    noContent format content
    .ok t
  | .table _ => .error (if format = .toml then .malformed else .notOneKey)
  | d => if format = .toml then .error .malformed else expect format .variant d

/-- Sets the fields of a record, by name in the order of the keys or by position. -/
def record {α : Type} (name : String) (fields : List String)
    (set : α → String → Datum → Except Fault α) (start : α) : Decoder α
  | .table entries => entries.foldlM (fun a entry => set a entry.1 entry.2) start
  | .list items => do
    let a ← (fields.zip items).foldlM (fun a entry => set a entry.1 entry.2) start
    if format = .json ∧ fields.length < items.length then .error (.tooManyItems items.length)
    else .ok a
  | .date => .ok start
  | d => expect format (.record name) d

def setLinter (l : Layer) (key : String) (d : Datum) : Except Fault Layer :=
  match key with
  | "run" => (optional (trigger format) d).map fun v => { l with run := v }
  | "timeout" => (optional (seconds format) d).map fun v => { l with timeout := v }
  | _ => (skip d).map fun _ => l

def setFormat (l : Layer) (key : String) (d : Datum) : Except Fault Layer :=
  match key with
  | "enabled" => (optional (boolean format) d).map fun v => { l with format := v }
  | _ => (skip d).map fun _ => l

def setOsmosis (l : Layer) (key : String) (d : Datum) : Except Fault Layer :=
  match key with
  | "enabled" => (optional (boolean format) d).map fun v => { l with osmosis := v }
  | _ => (skip d).map fun _ => l

def set (l : Layer) (key : String) (d : Datum) : Except Fault Layer :=
  match key with
  | "executablePath" => (optional (text format .text) d).map fun v => { l with executablePath := v }
  | "config" => (optional (text format .path) d).map fun v => { l with config := v }
  | "dialect" => (optional (text format .text) d).map fun v => { l with dialect := v }
  | "excludeRules" => (optional (texts format) d).map fun v => { l with excludeRules := v }
  | "rules" => (optional (texts format) d).map fun v => { l with rules := v }
  | "ignoreParsing" => (optional (boolean format) d).map fun v => { l with ignoreParsing := v }
  | "ignoreTemplating" => (optional (boolean format) d).map fun v => { l with ignoreTemplating := v }
  | "workingDirectory" =>
    (optional (text format .path) d).map fun v => { l with workingDirectory := v }
  | "linter" => record format "LinterLayer" ["run", "timeout"] (setLinter format) l d
  | "format" => record format "FormatLayer" ["enabled"] (setFormat format) l d
  | "osmosis" => record format "OsmosisLayer" ["enabled"] (setOsmosis format) l d
  | _ => (skip d).map fun _ => l

def fields : List String :=
  ["executablePath", "config", "dialect", "excludeRules", "rules", "ignoreParsing",
    "ignoreTemplating", "workingDirectory", "linter", "format", "osmosis"]

/-- The layer that a settings source describes. -/
def decode (d : Datum) : Except Fault Layer :=
  record format "SettingsLayer" fields (set format) {} d

/-- The layer that the editor sends, as such or as the member `sqlfluff` of an object. -/
def ofJson (j : Json) : Except Fault Layer :=
  decode .json (Datum.ofJson ((j.get? "sqlfluff").getD j))

end SqlLint.Layer
