import SqlLint.Settings.Datum
import SqlLint.Uri
import SqlLint.Word

/-! # Shapes of messages

What the editor sends has a shape. A value that has its shape is answered in standard form, in which
every record is an object of the members that are there. Of a value that does not have it, the first
thing amiss is the fault: the members of an object are looked at in the order of their keys, and then
the first one that is missing counts. -/
namespace SqlLint

/-- Some values are members of a part that is embedded in a greater record. -/
inductive Nesting | plain | embedded deriving DecidableEq, Repr

abbrev Shape := Nesting → Json → Except Fault Json

namespace Shape

/-- A required member must be there and an optional one may be missing or null. One with a default
may be missing but not null. -/
inductive Presence | required | optional | defaulted deriving DecidableEq, Repr

structure Member where
  key : String
  presence : Presence
  shape : Shape

def required (key : String) (shape : Shape) : Member := ⟨key, .required, shape⟩

def optional (key : String) (shape : Shape) : Member := ⟨key, .optional, shape⟩

def defaulted (key : String) (shape : Shape) : Member := ⟨key, .defaulted, shape⟩

def wrong (expected : Expected) (j : Json) : Except Fault Json :=
  .error (.wrongType (Datum.found .json (Datum.ofJson j)) expected)

def anything : Shape := fun _ j => .ok j

/-- No value. -/
def nothing : Shape
  | _, .null => .ok .null
  | _, j => wrong .unit j

def boolean : Shape
  | _, .bool b => .ok (.bool b)
  | _, j => wrong .boolean j

def text : Shape
  | _, .string s => .ok (.string s)
  | _, j => wrong .text j

/-- A whole number within bounds. -/
def number (fits : Int → Bool) (expected : Expected) : Shape
  | _, .number (.int n) => if fits n then .ok (.int n) else .error (.outOfRange n expected)
  | _, j => wrong expected j

def natural : Shape := number (Word.isUnsigned 32) .word

def integer : Shape := number (Word.isSigned 32) .signedWord

def decimal : Shape
  | _, .number n => .ok (.number n)
  | _, j => wrong .decimal j

def uri : Shape
  | _, .string s => ((Uri.parse s).mapError Fault.noUri).map fun _ => .string s
  | _, j => wrong .text j

/-- One of some names, or an object of nothing under one of them. -/
def choice (names : List String) : Shape
  | _, .string name => named name
  | _, .object [(name, content)] => do
    let name ← named name
    let _ ← nothing .plain content
    return name
  | _, .object _ => .error .notOneKey
  | _, j => wrong .variant j
where
  named (name : String) : Except Fault Json :=
    if names.contains name then .ok (.string name) else .error (.unknownVariant name names)

/-- The name of one kind of several, or its place among them. -/
def tag (place : Nat) (name : String) : Shape
  | _, .string given => if given = name then .ok (.string name) else .error (.unknownVariant given [name])
  | _, .number (.int n) => if n = place then .ok (.string name) else wrong .variant (.int n)
  | _, j => wrong .variant j

/-- The first shape that a value has, of some. -/
def either (name : String) (shapes : List Shape) : Shape := fun _ j =>
  match shapes.findSome? fun shape => (shape .embedded j).toOption with
  | some j => .ok j
  | none => .error (.noVariant name)

def list (item : Shape) : Shape
  | nesting, .array items => (items.mapM (item nesting)).map .array
  | _, j => wrong .sequence j

/-- A list of so many items, each of a shape of its own. -/
def items (shapes : List Shape) : Shape
  | nesting, .array items =>
    if items.length = shapes.length then
      ((shapes.zip items).mapM fun (p : Shape × Json) => p.1 nesting p.2).map .array
    else wrong .sequence (.array items)
  | _, j => wrong .sequence j

/-- What may be null. -/
def nullable (shape : Shape) : Shape
  | _, .null => .ok .null
  | nesting, j => shape nesting j

/-- Keys of one shape, with values of another. A key is looked at before its value. -/
def dictionary (key value : Shape) : Shape
  | nesting, .object members => do
    let read ← members.mapM fun m => do
      let _ ← key nesting (.string m.1)
      return (m.1, ← value nesting m.2)
    return .object read
  | _, j => wrong .dictionary j

/-- Reads one member; what is optional and null is left out. -/
def Member.read (m : Member) (nesting : Nesting) (j : Json) : Except Fault (Option (String × Json)) :=
  if m.presence = .optional ∧ j == .null then .ok none
  else (m.shape nesting j).map fun v => some (m.key, v)

/-- Reads what an object has of some members. -/
def readMembers (members : List Member) (nesting : Nesting) (given : List (String × Json)) :
    Except Fault (List (String × Json)) := do
  let read ← given.filterMapM fun (key, value) =>
    match members.find? fun m => m.key == key with
    | some m => m.read nesting value
    | none => .ok none
  match members.find? fun m => m.presence = .required ∧ (given.lookup m.key).isNone with
  | some m => .error (.missingField m.key)
  | none => return read

/-- Reads members from values in their order, the first of which has a given place. -/
def readItems (name : String) (count : Nat) (nesting : Nesting) :
    Nat → List Member → List Json → Except Fault (List (String × Json))
  | _, [], [] => .ok []
  | place, [], surplus =>
    .error (match nesting with
      | .plain => .tooManyItems (place + surplus.length)
      | .embedded => .surplusItems (place + surplus.length) count)
  | place, m :: members, [] =>
    if m.presence = .defaulted then readItems name count nesting (place + 1) members []
    else .error (.tooFewItems place name count)
  | place, m :: members, item :: items => do
    let read ← m.read nesting item
    return read.toList ++ (← readItems name count nesting (place + 1) members items)

/-- A record, as an object or as an array of its members in their order. -/
def record (name : String) (members : List Member) : Shape
  | nesting, .object given => (readMembers members nesting given).map Json.mk
  | nesting, .array items => (readItems name members.length nesting 0 members items).map Json.mk
  | _, j => wrong (.record name) j

/-- What a record embeds reads the members that the record itself does not have. -/
abbrev Part := List (String × Json) → Except Fault (List (String × Json))

def part (members : List Member) : Part := readMembers members .embedded

/-- A part that takes everything, with values of one shape. -/
def remainder (value : Shape) : Part := fun given =>
  given.mapM fun m => (value .embedded m.2).map fun v => (m.1, v)

/-- A record with embedded parts, which only an object can give. -/
def compound (name : String) (members : List Member) (parts : List Part) : Shape
  | nesting, .object given => do
    let own ← readMembers members nesting given
    let others := given.filter fun m => members.all fun member => member.key ≠ m.1
    return .mk (own ++ (← parts.mapM fun part => part others).flatten)
  | _, j => wrong (.record name) j

/-- A record, in whose place an older editor says yes or no. -/
def orFlag (shape : Shape) (yes : Json) : Shape
  | _, .bool true => .ok yes
  | _, .bool false | _, .null => .ok .null
  | _, j => shape .plain j

end Shape
end SqlLint
