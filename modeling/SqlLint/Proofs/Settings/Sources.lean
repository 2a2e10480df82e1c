import SqlLint.Proofs.Settings.Rules

/-! # Sources that describe a layer

A source describes a layer if it has an entry for each setting of the layer and no entry for another value of
it. It may be in any order, may have keys without a meaning and, where the language has one, a null for what the
layer does not set. Whatever the language, such a source is decoded as the layer. -/
namespace SqlLint

/-- What a layer sets a key to. -/
inductive Setting
  | text (value : String)
  | texts (values : List String)
  | bool (value : Bool)
  | number (value : Nat)
  deriving DecidableEq, Repr

abbrev Fields := List (String × Option Setting)

/-- What is read under a key. -/
def Setting.datum : Option Setting → Datum
  | none => .null
  | some (.text s) => .text s
  | some (.texts ss) => .list (ss.map .text)
  | some (.bool b) => .bool b
  | some (.number n) => .int n

namespace Layer

/-- The keys of the root table. -/
def root (l : Layer) : Fields :=
  [("executablePath", l.executablePath.map .text), ("config", l.config.map .text), ("dialect", l.dialect.map .text),
    ("excludeRules", l.excludeRules.map .texts), ("rules", l.rules.map .texts),
    ("ignoreParsing", l.ignoreParsing.map .bool), ("ignoreTemplating", l.ignoreTemplating.map .bool),
    ("workingDirectory", l.workingDirectory.map .text)]

/-- The tables with their keys. -/
def tables (l : Layer) : List (String × Fields) :=
  [("linter", [("run", l.run.map fun t => .text t.name), ("timeout", l.timeout.map .number)]),
    ("format", [("enabled", l.format.map .bool)]), ("osmosis", [("enabled", l.osmosis.map .bool)])]

theorem fields_eq (l : Layer) : l.root.map Prod.fst ++ l.tables.map Prod.fst = fields := rfl

/-- An entry with one of the keys gives it its value; another entry can be passed over. -/
inductive Tells (fields : Fields) (e : String × Datum) : Prop
  | field (o : Option Setting) : (e.1, o) ∈ fields → e.2 = Setting.datum o → Tells fields e
  | beside : e.1 ∉ fields.map Prod.fst → skip e.2 = .ok () → Tells fields e

/-- Each key with a value is among the keys of the entries. -/
def Complete (fields : Fields) (entries : List (String × Datum)) : Prop :=
  ∀ key s, (key, some s) ∈ fields → key ∈ entries.map Prod.fst

/-- An entry of a whole source. -/
inductive Describes (l : Layer) (e : String × Datum) : Prop
  | field (o : Option Setting) : (e.1, o) ∈ l.root → e.2 = Setting.datum o → Describes l e
  | table (fields : Fields) (entries : List (String × Datum)) : (e.1, fields) ∈ l.tables → e.2 = .table entries →
    (∀ e ∈ entries, Tells fields e) → Complete fields entries → Describes l e
  | beside : e.1 ∉ Layer.fields → skip e.2 = .ok () → Describes l e

/-- The entries of a source that says all that a layer sets, and nothing else about its keys. -/
structure IsDescribed (l : Layer) (entries : List (String × Datum)) : Prop where
  each : ∀ e ∈ entries, Describes l e
  root : Complete l.root entries
  tables : ∀ name fields, (name, fields) ∈ l.tables → name ∈ entries.map Prod.fst ∨ ∀ f ∈ fields, f.2 = none

/-! ## A layer as far as it has been read -/

section Seen

variable {α : Type} {seen : List (List String)} {path : List String} {o : Option α} {l : Layer}

/-- What has been seen of a setting. -/
def keep (seen : List (List String)) (path : List String) (o : Option α) : Option α :=
  if path ∈ seen then o else none

theorem keep_eq (h : ∀ a, o = some a → path ∈ seen) : keep seen path o = o := by
  cases o with
  | none => simp [keep]
  | some a => exact if_pos (h a rfl)

/-- The settings of a layer whose keys have been seen. -/
def only (seen : List (List String)) (l : Layer) : Layer where
  executablePath := keep seen ["executablePath"] l.executablePath
  config := keep seen ["config"] l.config
  dialect := keep seen ["dialect"] l.dialect
  excludeRules := keep seen ["excludeRules"] l.excludeRules
  rules := keep seen ["rules"] l.rules
  ignoreParsing := keep seen ["ignoreParsing"] l.ignoreParsing
  ignoreTemplating := keep seen ["ignoreTemplating"] l.ignoreTemplating
  workingDirectory := keep seen ["workingDirectory"] l.workingDirectory
  run := keep seen ["linter", "run"] l.run
  timeout := keep seen ["linter", "timeout"] l.timeout
  format := keep seen ["format", "enabled"] l.format
  osmosis := keep seen ["osmosis", "enabled"] l.osmosis

end Seen

section Steps

variable {format : Format} {l : Layer} {seen : List (List String)} {key : String} {o : Option Setting}
  {e : String × Datum} {fields : Fields} {entries : List (String × Datum)}

theorem optional_text (o : Option String) (expected : Expected) :
    optional (text format expected) (Setting.datum (o.map .text)) = .ok o := by cases o <;> rfl

theorem optional_texts (o : Option (List String)) :
    optional (texts format) (Setting.datum (o.map .texts)) = .ok o := by
  cases o with
  | none => rfl
  | some ss =>
    have items : texts format (.list (ss.map .text)) = .ok ss := mapM_text ss
    have whole : optional (texts format) (.list (ss.map .text)) = (texts format (.list (ss.map .text))).map some := rfl
    rw [Option.map_some, Setting.datum, whole, items]
    rfl

theorem optional_boolean (o : Option Bool) :
    optional (boolean format) (Setting.datum (o.map .bool)) = .ok o := by cases o <;> rfl

theorem optional_trigger (o : Option Trigger) :
    optional (trigger format) (Setting.datum (o.map fun t => .text t.name)) = .ok o := by
  cases o with
  | none => rfl
  | some t => cases t <;> rfl

theorem optional_seconds {o : Option Nat} (h : ∀ n, o = some n → n < 2 ^ 63) :
    optional (seconds format) (Setting.datum (o.map .number)) = .ok o := by
  cases o with
  | none => rfl
  | some n =>
    have small := h n rfl
    have fit : fits (n : Int) = true := by
      rw [fits, Word.isUnsigned_ofNat, Bool.or_eq_true, decide_eq_true_eq]
      exact .inr (Nat.lt_trans small (by decide))
    have whole : optional (seconds format) (.int n) = (seconds format (.int n)).map some := rfl
    rw [Option.map_some, Setting.datum, whole, seconds, if_neg (by omega), if_pos fit]
    rfl

/-- An entry with a key of the root table adds the setting of this key. -/
theorem set_root (field : (key, o) ∈ l.root) :
    set format (l.only seen) key (Setting.datum o) = .ok (l.only ([key] :: seen)) := by
  simp only [root, List.mem_cons, Prod.mk.injEq, List.not_mem_nil, or_false] at field
  rcases field with ⟨rfl, rfl⟩ | ⟨rfl, rfl⟩ | ⟨rfl, rfl⟩ | ⟨rfl, rfl⟩ | ⟨rfl, rfl⟩ | ⟨rfl, rfl⟩ | ⟨rfl, rfl⟩ | ⟨rfl, rfl⟩
  all_goals
    simp only [set, optional_text, optional_texts, optional_boolean]
    simp [Except.map, only, keep]

theorem set_beside (other : key ∉ Layer.fields) {d : Datum} (passed : skip d = .ok ()) (l : Layer) :
    set format l key d = .ok l := by
  simp only [Layer.fields, List.mem_cons, List.not_mem_nil, or_false, not_or] at other
  unfold set
  split
  case h_12 => rw [passed]; rfl
  all_goals simp at other

/-- The fields of a table are set one after the other. -/
theorem foldlM_only {name : String} {f : Layer → String → Datum → Except Fault Layer}
    (step : ∀ seen, ∀ e ∈ entries, f (l.only seen) e.1 e.2 = .ok (l.only ([name, e.1] :: seen)))
    (seen : List (List String)) : ∃ more, entries.foldlM (fun a e => f a e.1 e.2) (l.only seen) =
      .ok (l.only (more ++ seen)) ∧ ∀ key ∈ entries.map Prod.fst, [name, key] ∈ more := by
  induction entries generalizing seen with
  | nil => exact ⟨[], rfl, by simp⟩
  | cons e entries ih =>
    obtain ⟨more, done, there⟩ := ih (fun seen e he => step seen e (List.mem_cons_of_mem _ he)) ([name, e.1] :: seen)
    refine ⟨more ++ [[name, e.1]], ?_, fun key hk => ?_⟩
    · rw [List.foldlM_cons, step seen e List.mem_cons_self, List.append_assoc]
      exact done
    · rcases List.mem_cons.1 hk with rfl | hk
      · simp
      · exact List.mem_append_left _ (there key hk)

/-- An entry of a table adds the setting of its key, if its key is one of the table. -/
theorem Tells.set {name : String} {f : Layer → String → Datum → Except Fault Layer} (told : Tells fields e)
    (field : ∀ key o, (key, o) ∈ fields → f (l.only seen) key (Setting.datum o) = .ok (l.only ([name, key] :: seen)))
    (beside : ∀ key d, key ∉ fields.map Prod.fst → skip d = .ok () →
      f (l.only seen) key d = .ok (l.only ([name, key] :: seen))) :
    f (l.only seen) e.1 e.2 = .ok (l.only ([name, e.1] :: seen)) := by
  obtain ⟨key, d⟩ := e
  cases told with
  | field o mem value =>
    obtain rfl := value
    exact field key o mem
  | beside other passed => exact beside key d other passed

theorem setLinter_only (timeout : ∀ n, l.timeout = some n → n < 2 ^ 63)
    (told : Tells [("run", l.run.map fun t => .text t.name), ("timeout", l.timeout.map .number)] e) :
    setLinter format (l.only seen) e.1 e.2 = .ok (l.only (["linter", e.1] :: seen)) := by
  refine told.set (fun key o field => ?_) fun key d other passed => ?_
  · simp only [List.mem_cons, Prod.mk.injEq, List.not_mem_nil, or_false] at field
    rcases field with ⟨rfl, rfl⟩ | ⟨rfl, rfl⟩
    all_goals
      simp only [setLinter, optional_trigger, optional_seconds timeout]
      simp [Except.map, only, keep]
  · obtain ⟨run, timeout⟩ : key ≠ "run" ∧ key ≠ "timeout" := by simpa using other
    have same : l.only (["linter", key] :: seen) = l.only seen := by simp [only, keep, run.symm, timeout.symm]
    rw [same, setLinter, passed]
    · rfl
    · exact run
    · exact timeout

theorem setFormat_only (told : Tells [("enabled", l.format.map .bool)] e) :
    setFormat format (l.only seen) e.1 e.2 = .ok (l.only (["format", e.1] :: seen)) := by
  refine told.set (fun key o field => ?_) fun key d other passed => ?_
  · obtain ⟨rfl, rfl⟩ : key = "enabled" ∧ o = l.format.map .bool := by simpa using field
    simp only [setFormat, optional_boolean]
    simp [Except.map, only, keep]
  · have enabled : key ≠ "enabled" := by simpa using other
    have same : l.only (["format", key] :: seen) = l.only seen := by simp [only, keep, enabled.symm]
    rw [same, setFormat, passed]
    · rfl
    · exact enabled

theorem setOsmosis_only (told : Tells [("enabled", l.osmosis.map .bool)] e) :
    setOsmosis format (l.only seen) e.1 e.2 = .ok (l.only (["osmosis", e.1] :: seen)) := by
  refine told.set (fun key o field => ?_) fun key d other passed => ?_
  · obtain ⟨rfl, rfl⟩ : key = "enabled" ∧ o = l.osmosis.map .bool := by simpa using field
    simp only [setOsmosis, optional_boolean]
    simp [Except.map, only, keep]
  · have enabled : key ≠ "enabled" := by simpa using other
    have same : l.only (["osmosis", key] :: seen) = l.only seen := by simp [only, keep, enabled.symm]
    rw [same, setOsmosis, passed]
    · rfl
    · exact enabled

/-- A table adds the settings of its keys. -/
theorem set_table {name : String} (timeout : ∀ n, l.timeout = some n → n < 2 ^ 63)
    (table : (name, fields) ∈ l.tables) (told : ∀ e ∈ entries, Tells fields e) (seen : List (List String)) :
    ∃ more, set format (l.only seen) name (.table entries) = .ok (l.only (more ++ seen)) ∧
      ∀ key ∈ entries.map Prod.fst, [name, key] ∈ more := by
  simp only [tables, List.mem_cons, Prod.mk.injEq, List.not_mem_nil, or_false] at table
  rcases table with ⟨rfl, rfl⟩ | ⟨rfl, rfl⟩ | ⟨rfl, rfl⟩
  · exact foldlM_only (fun seen e he => setLinter_only timeout (told e he)) seen
  · exact foldlM_only (fun seen e he => setFormat_only (told e he)) seen
  · exact foldlM_only (fun seen e he => setOsmosis_only (told e he)) seen

/-- A key of a layer that is set, with the first name that leads to it. -/
inductive Sets (l : Layer) : String → List String → Prop
  | root {key : String} {s : Setting} : (key, some s) ∈ l.root → Sets l key [key]
  | table {name key : String} {fields : Fields} {s : Setting} : (name, fields) ∈ l.tables → (key, some s) ∈ fields →
    Sets l name [name, key]

theorem mem_fields_of_root (field : (key, o) ∈ l.root) : key ∈ Layer.fields := by
  rw [← fields_eq l]
  exact List.mem_append_left _ (List.mem_map_of_mem field)

theorem mem_fields_of_table {name : String} (table : (name, fields) ∈ l.tables) : name ∈ Layer.fields := by
  rw [← fields_eq l]
  exact List.mem_append_right _ (List.mem_map_of_mem table)

theorem not_root_of_table {name : String} (table : (name, fields) ∈ l.tables) (o : Option Setting) :
    (name, o) ∉ l.root := by
  intro field
  have names : ∀ name ∈ l.tables.map Prod.fst, name ∉ l.root.map Prod.fst := by
    simp [tables, root]
  exact names name (List.mem_map_of_mem table) (List.mem_map_of_mem field)

theorem fields_of_table {name : String} {fields' : Fields} (table : (name, fields) ∈ l.tables)
    (table' : (name, fields') ∈ l.tables) : fields = fields' := by
  simp only [tables, List.mem_cons, Prod.mk.injEq, List.not_mem_nil, or_false] at table table'
  rcases table with ⟨rfl, rfl⟩ | ⟨rfl, rfl⟩ | ⟨rfl, rfl⟩ <;> simpa [eq_comm] using table'

/-- An entry of a source adds the settings that it is about. -/
theorem Describes.set (format : Format) (timeout : ∀ n, l.timeout = some n → n < 2 ^ 63) (h : Describes l e) (seen : List (List String)) :
    ∃ more, set format (l.only seen) e.1 e.2 = .ok (l.only (more ++ seen)) ∧
      ∀ path, Sets l e.1 path → path ∈ more := by
  obtain ⟨key, d⟩ := e
  cases h with
  | field o field value =>
    obtain rfl := value
    refine ⟨[[key]], set_root field, fun path sets => ?_⟩
    cases sets with
    | root => exact List.mem_singleton_self _
    | table table => exact absurd field (not_root_of_table table o)
  | table fields entries table value told complete =>
    obtain rfl := value
    obtain ⟨more, done, there⟩ := set_table timeout table told seen
    refine ⟨more, done, fun path sets => ?_⟩
    cases sets with
    | root field => exact absurd field (not_root_of_table table _)
    | table table' field =>
      obtain rfl := fields_of_table table table'
      exact there _ (complete _ _ field)
  | beside other passed =>
    refine ⟨[], set_beside other passed _, fun path sets => ?_⟩
    cases sets with
    | root field => exact absurd (mem_fields_of_root field) other
    | table table => exact absurd (mem_fields_of_table table) other

theorem only_of_sets (h : ∀ name path, Sets l name path → path ∈ seen) : l.only seen = l := by
  have here {key : String} {s : Setting} (field : (key, some s) ∈ l.root) : [key] ∈ seen := h _ _ (.root field)
  have inside {name key : String} {fields : Fields} {s : Setting} (table : (name, fields) ∈ l.tables)
      (field : (key, some s) ∈ fields) : [name, key] ∈ seen := h _ _ (.table table field)
  refine (Layer.mk.injEq ..).mpr ⟨keep_eq fun a ha => here (s := .text a) (by simp [root, ha]),
    keep_eq fun a ha => here (s := .text a) (by simp [root, ha]),
    keep_eq fun a ha => here (s := .text a) (by simp [root, ha]),
    keep_eq fun a ha => here (s := .texts a) (by simp [root, ha]),
    keep_eq fun a ha => here (s := .texts a) (by simp [root, ha]),
    keep_eq fun a ha => here (s := .bool a) (by simp [root, ha]),
    keep_eq fun a ha => here (s := .bool a) (by simp [root, ha]),
    keep_eq fun a ha => here (s := .text a) (by simp [root, ha]),
    keep_eq fun a ha => inside (s := .text a.name) (.head _) (by simp [ha]),
    keep_eq fun a ha => inside (s := .number a) (.head _) (by simp [ha]),
    keep_eq fun a ha => inside (s := .bool a) (.tail _ (.head _)) (by simp [ha]),
    keep_eq fun a ha => inside (s := .bool a) (.tail _ (.tail _ (.head _))) (by simp [ha])⟩

/-- Entries add the settings that they are about, in whatever order they come. -/
theorem foldlM_set (format : Format) (timeout : ∀ n, l.timeout = some n → n < 2 ^ 63) (each : ∀ e ∈ entries, Describes l e)
    (seen : List (List String)) : ∃ more,
      entries.foldlM (fun a e => Layer.set format a e.1 e.2) (l.only seen) = .ok (l.only (more ++ seen)) ∧
      ∀ name ∈ entries.map Prod.fst, ∀ path, Sets l name path → path ∈ more := by
  induction entries generalizing seen with
  | nil => exact ⟨[], rfl, by simp⟩
  | cons e entries ih =>
    obtain ⟨first, step, found⟩ := (each e List.mem_cons_self).set format timeout seen
    obtain ⟨more, done, there⟩ := ih (fun e he => each e (List.mem_cons_of_mem _ he)) (first ++ seen)
    refine ⟨more ++ first, ?_, fun name hn path sets => ?_⟩
    · rw [List.foldlM_cons, step, List.append_assoc]
      exact done
    · rcases List.mem_cons.1 hn with rfl | hn
      · exact List.mem_append_right _ (found path sets)
      · exact List.mem_append_left _ (there name hn path sets)

/-- A source that describes a layer is decoded as this layer. -/
theorem decode_of_isDescribed (timeout : ∀ n, l.timeout = some n → n < 2 ^ 63) (h : IsDescribed l entries) :
    decode format (.table entries) = .ok l := by
  obtain ⟨seen, done, there⟩ := foldlM_set format timeout h.each []
  have all : ∀ name path, Sets l name path → path ∈ seen ++ [] := by
    intro name path sets
    refine List.mem_append_left _ (there name ?_ path sets)
    cases sets with
    | root field => exact h.root _ _ field
    | table table field =>
      rcases h.tables _ _ table with named | unset
      · exact named
      · cases unset _ field
  rw [only_of_sets all] at done
  exact done

end Steps

end Layer
end SqlLint
