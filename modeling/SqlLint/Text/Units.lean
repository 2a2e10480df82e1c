/-! # Measures of a text: bytes and 16-bit units -/
namespace SqlLint.Text

/-- The length in bytes of UTF-8. -/
def bytes : List Char → Nat
  | [] => 0
  | c :: cs => c.utf8Size + bytes cs

/-- The 16-bit units of a character: two for one beyond the basic plane. -/
def width (c : Char) : Nat := if c.toNat < 0x10000 then 1 else 2

/-- The length in 16-bit units of UTF-16. -/
def units : List Char → Nat
  | [] => 0
  | c :: cs => width c + units cs

/-- The shortest beginning of at least so many units, or all. -/
def takeUnits : Nat → List Char → List Char
  | _, [] => []
  | n, c :: cs => if n = 0 then [] else c :: takeUnits (n - width c) cs

/-- The beginning of at most so many bytes; none if it would end inside a character. -/
def takeBytes? : Nat → List Char → Option (List Char)
  | _, [] => some []
  | n, c :: cs =>
    if n = 0 then some []
    else if n < c.utf8Size then none
    else (takeBytes? (n - c.utf8Size) cs).map (c :: ·)

@[simp] theorem bytes_nil : bytes [] = 0 := rfl

@[simp] theorem bytes_cons (c : Char) (cs : List Char) : bytes (c :: cs) = c.utf8Size + bytes cs := rfl

@[simp] theorem bytes_append (a b : List Char) : bytes (a ++ b) = bytes a + bytes b := by
  induction a with
  | nil => simp
  | cons c a ih => simp [ih, Nat.add_assoc]

@[simp] theorem units_nil : units [] = 0 := rfl

@[simp] theorem units_cons (c : Char) (cs : List Char) :
    units (c :: cs) = width c + units cs := rfl

@[simp] theorem units_append (a b : List Char) : units (a ++ b) = units a + units b := by
  induction a with
  | nil => simp
  | cons c a ih => simp [ih, Nat.add_assoc]

theorem takeUnits_append_drop (n : Nat) (cs : List Char) :
    takeUnits n cs ++ cs.drop (takeUnits n cs).length = cs := by
  induction cs generalizing n with
  | nil => rfl
  | cons c cs ih =>
    rw [takeUnits]
    split
    · rfl
    · simp [ih]

end SqlLint.Text
