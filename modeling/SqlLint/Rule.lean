import SqlLint.Word

/-! # Rule identifiers

A rule is named by a letter or a group of letters and mostly a number, as in `L010` or `LT01`.
Rules are ordered by the number that follows the first character. -/
namespace SqlLint.Rule

def digitsValue (ds : List Char) : Nat := ds.foldl (fun n c => n * 10 + (c.toNat - '0'.toNat)) 0

/-- The number after the first character of an identifier, if there is one of at most 64 bits. -/
def sortKey (rule : String) : Option Nat :=
  match rule.toList with
  | [] => none
  | _ :: rest =>
    let ds := rest.takeWhile Char.isDigit
    if ds.isEmpty then none
    else if digitsValue ds < Word.size 64 then some (digitsValue ds) else none

/-- Identifiers with a key come in its order, then all those without one. -/
def keyLe : Option Nat → Option Nat → Bool
  | some m, some n => m ≤ n
  | none, some _ => false
  | _, none => true

def le (a b : String) : Bool := keyLe (sortKey a) (sortKey b)

/-- Rules of equal rank keep their order. -/
def sort (rules : List String) : List String := rules.mergeSort le

/-- Adds a rule to a list that is kept in order. -/
def exclude (rules : List String) (rule : String) : List String :=
  sort (if rule ∈ rules then rules else rules ++ [rule])

def documentation (rule : String) : String :=
  "https://docs.sqlfluff.com/en/stable/rules.html#sqlfluff.rules.Rule_" ++ rule

theorem keyLe_total (a b : Option Nat) : keyLe a b || keyLe b a := by
  cases a <;> cases b <;> simp [keyLe, Nat.le_total]

theorem keyLe_trans (a b c : Option Nat) (hab : keyLe a b) (hbc : keyLe b c) : keyLe a c := by
  cases a <;> cases b <;> cases c <;> simp_all [keyLe]
  omega

theorem le_total (a b : String) : le a b || le b a := keyLe_total _ _

theorem le_trans (a b c : String) (hab : le a b) (hbc : le b c) : le a c :=
  keyLe_trans _ _ _ hab hbc

theorem sort_perm (rules : List String) : (sort rules).Perm rules := List.mergeSort_perm _ _

theorem mem_sort {rule : String} {rules : List String} : rule ∈ sort rules ↔ rule ∈ rules :=
  (sort_perm rules).mem_iff

theorem pairwise_sort (rules : List String) : (sort rules).Pairwise (le · ·) :=
  List.pairwise_mergeSort le_trans le_total rules

theorem mem_exclude {other rule : String} {rules : List String} :
    other ∈ exclude rules rule ↔ other ∈ rules ∨ other = rule := by
  unfold exclude
  split <;> simp_all [mem_sort]

end SqlLint.Rule
