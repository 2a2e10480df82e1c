import SqlLint.Text.Quoted
import SqlLint.Uri

/-! # Faults of data

What is wrong with the first value that does not have its expected shape. -/
namespace SqlLint

/-- What was found; a float comes with its text, and an integer of more than 64 bits is wide. -/
inductive Found
  | null
  | bool (value : Bool)
  | int (value : Int)
  | wide (value : Int) (signed : Bool)
  | float (text : String)
  | string (value : String)
  | sequence
  | map
  deriving DecidableEq, Repr

inductive Expected
  | text
  | boolean
  | sequence
  | path
  | seconds
  | place
  | word
  | signedWord
  | decimal
  | dictionary
  | record (name : String)
  | variant
  | unit
  deriving DecidableEq, Repr

inductive Fault
  | malformed
  | noScalarValue
  | noUri (error : Uri.Error)
  | wrongType (found : Found) (expected : Expected)
  | outOfRange (value : Int) (expected : Expected)
  | notOneKey
  | unknownVariant (name : String) (known : List String)
  | noVariant (choice : String)
  | missingField (name : String)
  | duplicateField (name : String)
  | tooManyItems (count : Nat)
  | tooFewItems (count : Nat) (record : String) (fields : Nat)
  | surplusItems (count : Nat) (fields : Nat)
  deriving DecidableEq, Repr

def Found.text : Found → String
  | .null => "null"
  | .bool true => "boolean `true`"
  | .bool false => "boolean `false`"
  | .int value => "integer `" ++ toString value ++ "`"
  | .wide value true => "integer `" ++ toString value ++ "` as i128"
  | .wide value false => "integer `" ++ toString value ++ "` as u128"
  | .float text => "floating point `" ++ text ++ "`"
  | .string value => "string " ++ Text.quote value
  | .sequence => "sequence"
  | .map => "map"

def Expected.message : Expected → String
  | .text => "a string"
  | .boolean => "a boolean"
  | .sequence => "a sequence"
  | .path => "path string"
  | .seconds => "u64"
  | .place => "usize"
  | .word => "u32"
  | .signedWord => "i32"
  | .decimal => "f32"
  | .dictionary => "a map"
  | .record name => "struct " ++ name
  | .variant => "string or map"
  | .unit => "unit"

def counted (count : Nat) : String :=
  toString count ++ if count = 1 then " element" else " elements"

/-- The names that would have been known, where there are any. -/
def alternatives : List String → String
  | [name] => "`" ++ name ++ "`"
  | [first, second] => "`" ++ first ++ "` or `" ++ second ++ "`"
  | names => "one of " ++ ", ".intercalate (names.map fun name => "`" ++ name ++ "`")

def Fault.message : Fault → String
  | .malformed => "not valid"
  | .noScalarValue => "invalid value, expected unicode hexadecimal value"
  | .noUri error => error.message
  | .wrongType found expected => "invalid type: " ++ found.text ++ ", expected " ++ expected.message
  | .outOfRange value expected =>
    "invalid value: integer `" ++ toString value ++ "`, expected " ++ expected.message
  | .notOneKey => "invalid value: map, expected map with a single key"
  | .unknownVariant name known => "unknown variant `" ++ name ++ "`, expected " ++ alternatives known
  | .noVariant choice => "data did not match any variant of untagged enum " ++ choice
  | .missingField name => "missing field `" ++ name ++ "`"
  | .duplicateField name => "duplicate field `" ++ name ++ "`"
  | .tooManyItems count => "invalid length " ++ toString count ++ ", expected fewer elements in array"
  | .tooFewItems count record fields =>
    "invalid length " ++ toString count ++ ", expected struct " ++ record ++ " with " ++ counted fields
  | .surplusItems count fields =>
    "invalid length " ++ toString count ++ ", expected " ++ counted fields ++ " in sequence"

/-- A result that was gone on with was one. -/
theorem exists_of_bind {α β ε : Type} {f : α → Except ε β} {x : Except ε α} {b : β} (h : (x >>= f) = .ok b) :
    ∃ a, x = .ok a ∧ f a = .ok b := by
  cases x with
  | error => cases h
  | ok a => exact ⟨a, rfl, h⟩

theorem exists_of_map {α β ε : Type} {f : α → β} {x : Except ε α} {b : β} (h : x.map f = .ok b) :
    ∃ a, x = .ok a ∧ f a = b := by
  cases x with
  | error e => cases h
  | ok a => exact ⟨a, rfl, Except.ok.inj h⟩

end SqlLint
