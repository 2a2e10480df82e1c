import SqlLint.Linter.Arguments
import SqlLint.Proofs.Files.Steps

/-! # Rules that the linter is told to leave out

Of the settings layers each adds its rules, none takes any away, and all of them are put into one argument. -/
namespace SqlLint

namespace Text

variable {mark : Char} {part : List Char} {parts : List (List Char)}

/-- What is put between marks is found there again, whatever stands before and behind. -/
theorem mem_splitOn_intercalate (hn : mark ∉ part) (hp : part ∈ parts) :
    part ∈ splitOn mark ([mark].intercalate parts) := by
  induction parts with
  | nil => cases hp
  | cons first rest ih =>
    cases rest with
    | nil =>
      obtain rfl := List.mem_singleton.1 hp
      rw [List.intercalate_singleton, splitOn_of_not_mem hn]
      exact List.mem_singleton_self _
    | cons second rest =>
      have hi : [mark].intercalate (first :: second :: rest) =
          first ++ mark :: [mark].intercalate (second :: rest) := by
        simp [List.intercalate]
      rw [hi, splitOn_append_mark, List.mem_append]
      rcases List.mem_cons.1 hp with rfl | hp
      · rw [splitOn_of_not_mem hn]
        exact .inl (List.mem_singleton_self _)
      · exact .inr (ih hp)

end Text

namespace Settings

variable {rule : String} {rules more : List String} {layers : List Layer}

theorem mem_joinRules : rule ∈ joinRules rules more ↔ rule ∈ rules ∨ rule ∈ more := by
  unfold joinRules
  induction more generalizing rules with
  | nil => simp
  | cons first more ih =>
    rw [List.foldl_cons, ih]
    split
    · next hf =>
      constructor
      · exact fun h => h.imp_right (List.mem_cons_of_mem _)
      · rintro (h | h)
        · exact .inl h
        · rcases List.mem_cons.1 h with rfl | h
          · exact .inl hf
          · exact .inr h
    · simp [or_assoc]

/-- Each layer adds the rules that it leaves out to those that are left out already. -/
theorem mem_foldl_apply (s : Settings) : rule ∈ (layers.foldl apply s).excludeRules ↔
    rule ∈ s.excludeRules ∨ ∃ layer ∈ layers, rule ∈ layer.excludeRules.getD [] := by
  induction layers generalizing s with
  | nil => simp
  | cons layer layers ih =>
    rw [List.foldl_cons, ih]
    simp only [apply, mem_joinRules, List.mem_cons, exists_eq_or_imp, or_assoc]

/-- A rule is left out as soon as one layer leaves it out. -/
theorem mem_resolve : rule ∈ (resolve layers).excludeRules ↔
    ∃ layer ∈ layers, rule ∈ layer.excludeRules.getD [] := by
  rw [resolve, mem_foldl_apply]
  simp

end Settings

namespace Linter

def excludeFlag : String := "--exclude-rules"

/-- The parts between the commas of the arguments that follow the flag for rules to leave out. -/
def excludedParts : List String → List (List Char)
  | flag :: value :: rest =>
    (if flag = excludeFlag then Text.splitOn ',' value.toList else []) ++ excludedParts (value :: rest)
  | _ => []

/-- Whether the linter is told to leave a rule out. -/
def Excludes (arguments : List String) (rule : String) : Prop := rule.toList ∈ excludedParts arguments

instance (arguments : List String) (rule : String) : Decidable (Excludes arguments rule) :=
  inferInstanceAs (Decidable (_ ∈ _))

variable {rule : String} {s : Settings}

theorem excludes_append (front back : List String) {value : String} (h : rule.toList ∈ Text.splitOn ',' value.toList) :
    Excludes (front ++ excludeFlag :: value :: back) rule := by
  rw [Excludes]
  induction front with
  | nil =>
    rw [List.nil_append, excludedParts, if_pos rfl]
    exact List.mem_append_left _ h
  | cons first front ih =>
    obtain ⟨second, rest, hr⟩ := List.exists_cons_of_ne_nil
      (List.append_ne_nil_of_right_ne_nil front (List.cons_ne_nil excludeFlag (value :: back)))
    rw [List.cons_append, hr, excludedParts, ← hr]
    exact List.mem_append_right _ ih

/-- The settings' rules are among the parts of the argument. -/
theorem excludes_filters (hr : rule ∈ s.excludeRules) (hn : ',' ∉ rule.toList) (front back : List String) :
    Excludes (front ++ filters s ++ back) rule := by
  have hne : s.excludeRules.isEmpty = false := by
    cases hs : s.excludeRules with
    | nil => rw [hs] at hr; cases hr
    | cons => rfl
  have hf : front ++ filters s ++ back = (front ++ (optionOf "--dialect" s.dialect ++ optionOf "--config" s.config ++
      listOf "--rules" s.rules)) ++ excludeFlag :: ",".intercalate s.excludeRules ::
        (listOf "--ignore" (ignored s) ++ back) := by
    have hl : listOf "--exclude-rules" s.excludeRules = [excludeFlag, ",".intercalate s.excludeRules] := by
      rw [listOf, hne]
      rfl
    rw [filters, hl]
    simp
  rw [hf]
  refine excludes_append _ _ ?_
  rw [String.toList_intercalate]
  exact Text.mem_splitOn_intercalate hn (List.mem_map.2 ⟨rule, hr, rfl⟩)

end Linter
end SqlLint
