import SqlLint.Json.Reader
import SqlLint.Report.Violation
import SqlLint.Fault
import SqlLint.Text.Blank
import SqlLint.Json.Printer

/-! # Reading the linter's report

The report is read from left to right, and the first fault in that order counts: a wrong shape, or
a place where the text stops being JSON. Members without a meaning are skipped. A position is given
by its start and end or, by older linters, as a line and a column alone. -/
namespace SqlLint.Report
open Json

/-- What stands where something else was expected, as far as it can be told before its items. -/
def found? : Outline → Option Found
  | .broken => none
  | .null => some .null
  | .bool b => some (.bool b)
  | .number text =>
    text.value?.map fun
      | .int n => .int n
      | .float x => .float (String.ofList (x.write floatStyle))
  | .string pieces => (Piece.text? pieces).map .string
  | .array _ => some .sequence
  | .object _ => some .map

def expect {α : Type} (expected : Expected) (o : Outline) : Except Fault α :=
  match found? o with
  | some found => .error (.wrongType found expected)
  | none => .error .malformed

def text : Outline → Except Fault String
  | .string pieces =>
    match Piece.text? pieces with
    | some s => .ok s
    | none => .error .malformed
  | o => expect .text o

def boolean : Outline → Except Fault Bool
  | .bool b => .ok b
  | o => expect .boolean o

def place (o : Outline) : Except Fault Nat :=
  match o with
  | .number text =>
    match text.value? with
    | some (.int n) => if n < 0 then .error (.outOfRange n .place) else .ok n.toNat
    | _ => expect .place o
  | _ => expect .place o

def optional {α : Type} (read : Outline → Except Fault α) : Outline → Except Fault (Option α)
  | .null => .ok none
  | o => (read o).map some

def skip (o : Outline) : Except Fault Unit := if o.complete then .ok () else .error .malformed

/-- A record under construction: each field is none until its member is met. -/
structure ViolationFields where
  code : Option String := none
  description : Option String := none
  name : Option (Option String) := none
  line : Option (Option Nat) := none
  column : Option (Option Nat) := none
  startLine : Option (Option Nat) := none
  startColumn : Option (Option Nat) := none
  stopLine : Option (Option Nat) := none
  stopColumn : Option (Option Nat) := none
  warning : Option Bool := none

structure FileFields where
  path : Option String := none
  violations : Option (List Violation) := none

/-- A field may be given once. -/
def once {α β : Type} (key : String) (field : Option α) (read : Outline → Except Fault α)
    (o : Outline) (put : α → β) : Except Fault β :=
  if field.isSome then .error (.duplicateField key) else (read o).map put

namespace ViolationFields

def fields : List String :=
  ["code", "description", "name", "line_no", "line_pos", "start_line_no", "start_line_pos",
    "end_line_no", "end_line_pos", "warning"]

def set (r : ViolationFields) (key : String) (o : Outline) : Except Fault ViolationFields :=
  match key with
  | "code" => once key r.code text o fun v => { r with code := some v }
  | "description" => once key r.description text o fun v => { r with description := some v }
  | "name" => once key r.name (optional text) o fun v => { r with name := some v }
  | "line_no" => once key r.line (optional place) o fun v => { r with line := some v }
  | "line_pos" => once key r.column (optional place) o fun v => { r with column := some v }
  | "start_line_no" => once key r.startLine (optional place) o fun v => { r with startLine := some v }
  | "start_line_pos" =>
    once key r.startColumn (optional place) o fun v => { r with startColumn := some v }
  | "end_line_no" => once key r.stopLine (optional place) o fun v => { r with stopLine := some v }
  | "end_line_pos" => once key r.stopColumn (optional place) o fun v => { r with stopColumn := some v }
  | "warning" => once key r.warning boolean o fun v => { r with warning := some v }
  | _ => (skip o).map fun _ => r

/-- Lines and columns start from one, and an empty name is none. -/
def finish (r : ViolationFields) : Except Fault Violation :=
  match r.code, r.description with
  | none, _ => .error (.missingField "code")
  | _, none => .error (.missingField "description")
  | some code, some description => .ok {
      code := code
      description := description
      name := r.name.join.filter (· ≠ "")
      line := max ((r.startLine.join <|> r.line.join).getD 1) 1
      column := max ((r.startColumn.join <|> r.column.join).getD 1) 1
      stop := do some ((← r.stopLine.join), (← r.stopColumn.join))
      warning := r.warning.getD false }

end ViolationFields

/-- Reads the members of a record. A repeated field is a fault before its value is looked at. -/
def readMembers {α : Type} (set : α → String → Outline → Except Fault α) :
    Members → α → Except Fault α
  | .broken, _ => .error .malformed
  | .closed, a => .ok a
  | .more key value rest, a =>
    match Piece.text? key with
    | none => .error .malformed
    | some key => do readMembers set rest (← set a key value)

/-- Reads a record that is given as the list of its fields; the first `required` ones must be
there. -/
def readFields {α : Type} (record : String) (fields : List String) (required : Nat)
    (set : α → String → Outline → Except Fault α) : List String → Items → α → Except Fault α
  | _, .broken, _ => .error .malformed
  | [], .closed, a => .ok a
  | [], .more .., _ => .error .malformed
  | rest, .closed, a =>
    let count := fields.length - rest.length
    if count < required then .error (.tooFewItems count record fields.length) else .ok a
  | key :: keys, .more item rest, a => do
    readFields record fields required set keys rest (← set a key item)

def readRecord {α : Type} (record : String) (fields : List String) (required : Nat)
    (set : α → String → Outline → Except Fault α) (start : α) : Outline → Except Fault α
  | .object members => readMembers set members start
  | .array items => readFields record fields required set fields items start
  | o => expect (.record record) o

def violation (o : Outline) : Except Fault Violation := do
  (← readRecord "RawViolation" ViolationFields.fields 2 ViolationFields.set {} o).finish

def readList {α : Type} (read : Outline → Except Fault α) : Items → Except Fault (List α)
  | .broken => .error .malformed
  | .closed => .ok []
  | .more item rest => do
    let a ← read item
    let more ← readList read rest
    .ok (a :: more)

def list {α : Type} (read : Outline → Except Fault α) : Outline → Except Fault (List α)
  | .array items => readList read items
  | o => expect .sequence o

namespace FileFields

def fields : List String := ["filepath", "violations"]

def set (r : FileFields) (key : String) (o : Outline) : Except Fault FileFields :=
  match key with
  | "filepath" => once key r.path text o fun v => { r with path := some v }
  | "violations" => once key r.violations (list violation) o fun v => { r with violations := some v }
  | _ => (skip o).map fun _ => r

def finish (r : FileFields) : Except Fault FileReport :=
  match r.path with
  | none => .error (.missingField "filepath")
  | some path => .ok ⟨path, r.violations.getD []⟩

end FileFields

def file (o : Outline) : Except Fault FileReport := do
  (← readRecord "RawFileReport" FileFields.fields 1 FileFields.set {} o).finish

/-- The findings of each file. A text of white space alone reports nothing. -/
def parse (text : String) : Except Fault (List FileReport) :=
  let cs := Text.trim text.toList
  if cs.isEmpty then .ok [] else do
    let (value, ended) := outline cs
    let files ← list file value
    if ended then .ok files else .error .malformed

end SqlLint.Report
