import SqlLint.Proofs.Linter.Arguments

/-! # What arguments tell

The arguments of a run are groups of a flag and a value, any of which may be missing, and one last argument. They
are read from left to right: in front there is the flag of the next group, or that group is missing. A value may
look like a flag or be empty, as it is never read where a flag is looked for. -/
namespace SqlLint

namespace Settings

/-- Settings that say the same about what the linter looks for. -/
structure Alike (s t : Settings) : Prop where
  dialect : s.dialect = t.dialect
  config : s.config = t.config
  rules : s.rules = t.rules
  excludeRules : s.excludeRules = t.excludeRules
  ignoreParsing : s.ignoreParsing = t.ignoreParsing
  ignoreTemplating : s.ignoreTemplating = t.ignoreTemplating

/-- No rule holds a comma, which stands between the rules of an argument. -/
structure Separable (s : Settings) : Prop where
  rules : ∀ rule ∈ s.rules, ',' ∉ rule.toList
  excludeRules : ∀ rule ∈ s.excludeRules, ',' ∉ rule.toList

end Settings

namespace Linter

/-- The value that stands for a list; the empty list has none. -/
def joined (values : List String) : Option String :=
  if values.isEmpty then none else some (",".intercalate values)

/-- The arguments of groups, each of a flag and the value that it may have. -/
def written (groups : List (String × Option String)) : List String := groups.flatMap fun g => optionOf g.1 g.2

/-- The groups for the selection of rules and what to leave out. -/
def groups (s : Settings) : List (String × Option String) :=
  [("--dialect", s.dialect), ("--config", s.config), ("--rules", joined s.rules),
    (excludeFlag, joined s.excludeRules), ("--ignore", joined (ignored s))]

/-- The groups of a run that gets its text from standard input. -/
def inputGroups (s : Settings) (file : Option String) : List (String × Option String) :=
  groups s ++ [("--stdin-filename", file)]

section Written

variable {gs hs : List (String × Option String)} {flag last last' : String}

/-- In front of the last argument there is no flag but those of the groups. -/
theorem nil_of_written_eq_cons {more : List String} (other : flag ∉ gs.map Prod.fst)
    (h : written gs ++ [last] = flag :: more) : more = [] := by
  induction gs with
  | nil => exact (List.cons.inj h).2.symm
  | cons g gs ih =>
    obtain ⟨first, value⟩ := g
    rw [List.map_cons, List.mem_cons, not_or] at other
    cases value with
    | none => exact ih other.2 h
    | some value => exact absurd (List.cons.inj h).1.symm other.1

/-- Groups of the same flags are told by their arguments, and so is the last argument. -/
theorem eq_of_written_eq (once : (gs.map Prod.fst).Nodup) (flags : gs.map Prod.fst = hs.map Prod.fst)
    (h : written gs ++ [last] = written hs ++ [last']) : gs = hs ∧ last = last' := by
  induction gs generalizing hs with
  | nil =>
    obtain rfl := List.map_eq_nil_iff.1 flags.symm
    exact ⟨rfl, (List.cons.inj h).1⟩
  | cons g gs ih =>
    obtain ⟨flag, v⟩ := g
    obtain ⟨⟨other, w⟩, hs, rfl⟩ : ∃ g' hs', hs = g' :: hs' := by
      cases hs with
      | nil => cases flags
      | cons g' hs' => exact ⟨g', hs', rfl⟩
    obtain ⟨rfl, same⟩ : flag = other ∧ gs.map Prod.fst = hs.map Prod.fst := List.cons.inj flags
    obtain ⟨new, rest⟩ : flag ∉ gs.map Prod.fst ∧ (gs.map Prod.fst).Nodup := List.nodup_cons.1 once
    cases v with
    | none =>
      cases w with
      | none =>
        obtain ⟨rfl, ends⟩ := ih rest same h
        exact ⟨rfl, ends⟩
      | some w => exact absurd (nil_of_written_eq_cons new h) (List.cons_ne_nil _ _)
    | some v =>
      cases w with
      | none =>
        rw [same] at new
        exact absurd (nil_of_written_eq_cons new h.symm) (List.cons_ne_nil _ _)
      | some w =>
        obtain ⟨rfl, behind⟩ := List.cons.inj (List.cons.inj h).2
        obtain ⟨rfl, ends⟩ := ih rest same behind
        exact ⟨rfl, ends⟩

end Written

section Lists

variable {values others : List String}

theorem listOf_eq (flag : String) (values : List String) : listOf flag values = optionOf flag (joined values) := by
  rw [listOf, joined]
  split <;> rfl

/-- Lists of values without commas are told by what stands for them. -/
theorem joined_eq_iff (h : ∀ value ∈ values, ',' ∉ value.toList) (h' : ∀ value ∈ others, ',' ∉ value.toList) :
    joined values = joined others ↔ values = others := by
  refine ⟨fun same => ?_, congrArg joined⟩
  rw [joined, joined] at same
  cases values with
  | nil =>
    cases others with
    | nil => rfl
    | cons => cases same
  | cons value values =>
    cases others with
    | nil => cases same
    | cons other others =>
      have parts := congrArg (fun text => Text.splitOn ',' text.toList) (Option.some.inj same)
      rw [Text.splitOn_toList_intercalate rfl (List.cons_ne_nil _ _) h,
        Text.splitOn_toList_intercalate rfl (List.cons_ne_nil _ _) h'] at parts
      exact List.map_injective_iff.2 (fun _ _ => String.toList_injective) parts

theorem comma_not_mem_ignored (s : Settings) : ∀ value ∈ ignored s, ',' ∉ value.toList := by
  rw [ignored]
  cases s.ignoreParsing <;> cases s.ignoreTemplating <;> decide

theorem ignored_eq_iff (s t : Settings) :
    ignored s = ignored t ↔ s.ignoreParsing = t.ignoreParsing ∧ s.ignoreTemplating = t.ignoreTemplating := by
  rw [ignored, ignored]
  cases s.ignoreParsing <;> cases s.ignoreTemplating <;> cases t.ignoreParsing <;> cases t.ignoreTemplating <;> decide

end Lists

variable {s t : Settings}

theorem groups_eq_iff (hs : s.Separable) (ht : t.Separable) : groups s = groups t ↔ s.Alike t := by
  simp only [groups, List.cons.injEq, Prod.mk.injEq, true_and, and_true, joined_eq_iff hs.rules ht.rules,
    joined_eq_iff hs.excludeRules ht.excludeRules,
    joined_eq_iff (comma_not_mem_ignored s) (comma_not_mem_ignored t), ignored_eq_iff]
  constructor
  · rintro ⟨dialect, config, rules, excludeRules, parsing, templating⟩
    exact ⟨dialect, config, rules, excludeRules, parsing, templating⟩
  · rintro ⟨dialect, config, rules, excludeRules, parsing, templating⟩
    exact ⟨dialect, config, rules, excludeRules, parsing, templating⟩

theorem nodup_groups (s : Settings) : ((groups s).map Prod.fst).Nodup := by
  have flags : (groups s).map Prod.fst = ["--dialect", "--config", "--rules", "--exclude-rules", "--ignore"] := rfl
  rw [flags]
  decide

theorem nodup_inputGroups (s : Settings) (file : Option String) : ((inputGroups s file).map Prod.fst).Nodup := by
  have flags : (inputGroups s file).map Prod.fst =
      ["--dialect", "--config", "--rules", "--exclude-rules", "--ignore", "--stdin-filename"] := rfl
  rw [flags]
  decide

theorem filters_eq (s : Settings) : filters s = written (groups s) := by
  simp only [filters, written, groups, listOf_eq, excludeFlag, List.flatMap_cons, List.flatMap_nil, List.append_nil,
    List.append_assoc]

theorem lintArguments_eq (s : Settings) (file : Option String) :
    lintArguments s file = report ++ (written (inputGroups s file) ++ ["-"]) := by
  rw [lintArguments, filters_eq, fromInput, inputGroups, written, written, List.flatMap_append, List.flatMap_singleton,
    List.append_assoc, List.append_assoc]

theorem fixArguments_eq (s : Settings) (file : Option String) :
    fixArguments s file = "fix" :: (written (inputGroups s file) ++ ["-"]) := by
  rw [fixArguments, filters_eq, fromInput, inputGroups, written, written, List.flatMap_append, List.flatMap_singleton,
    List.cons_append, List.append_assoc]

theorem pathArguments_eq (s : Settings) (path : String) :
    pathArguments s path = report ++ (written (groups s) ++ [path]) := by
  rw [pathArguments, filters_eq, List.append_assoc]

theorem written_groups_eq_iff (hs : s.Separable) (ht : t.Separable) (path path' : String) :
    written (groups s) ++ [path] = written (groups t) ++ [path'] ↔ s.Alike t ∧ path = path' := by
  rw [← groups_eq_iff hs ht]
  refine ⟨fun h => eq_of_written_eq (nodup_groups s) rfl h, ?_⟩
  rintro ⟨same, rfl⟩
  rw [same]

theorem written_inputGroups_eq_iff (hs : s.Separable) (ht : t.Separable) (file file' : Option String) :
    written (inputGroups s file) ++ ["-"] = written (inputGroups t file') ++ ["-"] ↔ s.Alike t ∧ file = file' := by
  rw [← groups_eq_iff hs ht]
  constructor
  · intro h
    obtain ⟨same, -⟩ : inputGroups s file = inputGroups t file' ∧ "-" = "-" :=
      eq_of_written_eq (nodup_inputGroups s file) rfl h
    obtain ⟨front, name⟩ := List.append_inj same rfl
    exact ⟨front, (Prod.mk.inj (List.cons.inj name).1).2⟩
  · rintro ⟨same, rfl⟩
    rw [inputGroups, inputGroups, same]

/-- The arguments of a run tell what they were made of. Those for a text tell the settings that the linter is given
and the name of the file, if there is one, whether the text is linted or fixed, and those for a path tell the
settings and the path. -/
theorem arguments_eq_iff (hs : s.Separable) (ht : t.Separable) :
    (∀ file file', lintArguments s file = lintArguments t file' ↔ s.Alike t ∧ file = file') ∧
    (∀ file file', fixArguments s file = fixArguments t file' ↔ s.Alike t ∧ file = file') ∧
    ∀ path path', pathArguments s path = pathArguments t path' ↔ s.Alike t ∧ path = path' := by
  refine ⟨fun file file' => ?_, fun file file' => ?_, fun path path' => ?_⟩
  · rw [lintArguments_eq, lintArguments_eq, List.append_cancel_left_eq, written_inputGroups_eq_iff hs ht]
  · rw [fixArguments_eq, fixArguments_eq, List.cons.injEq, written_inputGroups_eq_iff hs ht, eq_self, true_and]
  · rw [pathArguments_eq, pathArguments_eq, List.append_cancel_left_eq, written_groups_eq_iff hs ht]

/-- Settings whose values look like flags, with a list of one empty rule. -/
def flagged : Settings where
  dialect := some "--config"
  rules := [""]
  excludeRules := ["--ignore", "", "-"]
  ignoreTemplating := true

/-- The same, but without a dialect and with that text for a configuration, and with no rules. -/
def reflagged : Settings := { flagged with dialect := none, config := some "--config", rules := [] }

/-- What differs is told apart, even where the last argument is a flag. -/
theorem arguments_eq_iff_flagged :
    flagged.Separable ∧ reflagged.Separable ∧ ¬ flagged.Alike reflagged ∧
    lintArguments flagged (some "-") ≠ lintArguments reflagged (some "-") ∧
    fixArguments flagged none ≠ fixArguments flagged (some "-") ∧
    pathArguments flagged "--dialect" ≠ pathArguments reflagged "--dialect" := by
  have front : flagged.Separable := ⟨by decide, by decide⟩
  have back : reflagged.Separable := ⟨by decide, by decide⟩
  have other : ¬ flagged.Alike reflagged := fun h => absurd h.dialect (by decide)
  refine ⟨front, back, other, fun h => ?_, fun h => ?_, fun h => ?_⟩
  · exact other (((arguments_eq_iff front back).1 _ _).1 h).1
  · exact absurd (((arguments_eq_iff front front).2.1 _ _).1 h).2 (by decide)
  · exact other (((arguments_eq_iff front back).2.2 _ _).1 h).1

end Linter
end SqlLint
