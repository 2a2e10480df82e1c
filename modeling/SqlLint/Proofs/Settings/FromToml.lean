import SqlLint.Proofs.Settings.FromJson
import SqlLint.Proofs.Toml.Plain
import SqlLint.Proofs.Toml.Words

/-! # Layers written to settings files

A settings file for a layer has a line for each key that the layer sets, first those of the root table. -/
namespace SqlLint
open Toml (IsRow IsBareName IsPlainTree Written Document Scalar Node)
open Toml.Token (nestingLimit)

namespace Setting

/-- A setting as it is written behind the equals sign. -/
def toml : Setting → List Char
  | text s => Toml.Quoted.encode s.toList
  | texts ss => '[' :: [',', ' '].intercalate (ss.map fun s => Toml.Quoted.encode s.toList) ++ [']']
  | bool b => Toml.boolText b
  | number n => Nat.toDigits 10 n

def node : Setting → Toml.Node
  | text s => .scalar [' '] (Toml.Quoted.encode s.toList) [] (.string s.toList)
  | texts ss => Toml.listNode ss
  | bool b => .scalar [' '] (Toml.boolText b) [] (.bool b)
  | number n => .scalar [' '] (Nat.toDigits 10 n) [] (.int n)

variable {s : Setting}

theorem commas_items (ss : List String) (first : Bool) (hn : ss ≠ []) :
    Toml.commas (Toml.textsOf (Toml.listNode.items first ss)) =
      (if first then [] else [' ']) ++ [',', ' '].intercalate (ss.map fun s => Toml.Quoted.encode s.toList) := by
  induction ss generalizing first with
  | nil => exact absurd rfl hn
  | cons s ss ih =>
    have item : Toml.textsOf (Toml.listNode.items first (s :: ss)) =
        ((if first then [] else [' ']) ++ Toml.Quoted.encode s.toList) ::
          Toml.textsOf (Toml.listNode.items false ss) := by
      rw [Toml.listNode.items, Toml.textsOf, Node.text, List.append_nil]
    rw [item]
    cases ss with
    | nil => simp [Toml.listNode.items, Toml.textsOf, Toml.commas]
    | cons s' ss =>
      have more := ih false (List.cons_ne_nil s' ss)
      rw [Toml.listNode.items, Toml.textsOf] at more ⊢
      rw [Toml.commas_cons, more]
      simp [List.intercalate_cons_cons]

/-- What stands behind the equals sign. -/
theorem text_node (s : Setting) : s.node.text = ' ' :: s.toml := by
  cases s with
  | texts ss =>
    rw [node, Toml.listNode, Node.text, toml]
    cases ss with
    | nil => rfl
    | cons s ss => simp [commas_items (s :: ss) true (List.cons_ne_nil s ss)]
  | _ => simp [node, toml, Toml.Node.text]

theorem written_node (small : ∀ n, s = .number n → n < 2 ^ 63) : Written false nestingLimit s.node := by
  have blank : Toml.IsBlanks [' '] := by
    intro c hc
    rw [List.mem_singleton.1 hc]
    rfl
  have tail : Toml.IsTail [] := .blanks Toml.isBlanks_nil
  cases s with
  | text s => exact .scalar blank tail (.string (Toml.string_encode s.toList).2) (Toml.scalarOf_encode s.toList) rfl
  | texts ss => exact Toml.written_listNode ss
  | bool b => exact .scalar blank tail (Toml.isScalar_boolText b) (Toml.scalarOf_boolText b) rfl
  | number n =>
    have scalar := Toml.isScalar_of_isDigits (Toml.isDigits_toDigits n) Nat.toDigits_ne_nil
    refine .scalar blank tail scalar (Toml.scalarOf_toDigits n) ?_
    have bound := small n rfl
    have size : Word.size (64 - 1) = 2 ^ 63 := rfl
    simp only [Scalar.isNarrow, Word.isSigned, Bool.and_eq_true, decide_eq_true_eq, size]
    omega

theorem datum_node (s : Setting) : Datum.ofToml s.node.value = datum (some s) := by
  cases s with
  | texts ss => rw [node, Toml.value_listNode, Datum.ofToml_listValue]; rfl
  | text s => rw [node, Node.value, Datum.ofToml, String.ofList_toList]; rfl
  | _ => rfl

end Setting

namespace Layer

/-- The lines of the keys that are set. -/
def lines (fields : Fields) : List Char :=
  fields.flatMap fun f =>
    match f.2 with
    | some s => f.1.toList ++ [' ', '=', ' '] ++ s.toml ++ ['\n']
    | none => []

/-- The settings file of a layer. -/
def toToml (l : Layer) : String :=
  String.ofList <| lines l.root ++ l.tables.flatMap fun t => ['['] ++ t.1.toList ++ [']', '\n'] ++ lines t.2

/-- The values of the keys that are set. -/
def nodes (fields : Fields) : List (String × Node) := fields.filterMap fun f => f.2.map fun s => (f.1, s.node)

def tableNodes (l : Layer) : List (String × List (String × Node)) := l.tables.map fun t => (t.1, nodes t.2)

variable {l : Layer} {fields : Fields}

theorem rowText_nodes (fields : Fields) : Toml.rowText (nodes fields) = lines fields := by
  induction fields with
  | nil => rfl
  | cons f fields ih =>
    obtain ⟨key, o⟩ := f
    cases o with
    | none => exact ih
    | some s =>
      have written : Toml.rowText (nodes ((key, some s) :: fields)) =
          key.toList ++ ' ' :: '=' :: s.node.text ++ ['\n'] ++ Toml.rowText (nodes fields) := rfl
      have expected : lines ((key, some s) :: fields) =
          key.toList ++ [' ', '=', ' '] ++ s.toml ++ ['\n'] ++ lines fields := rfl
      rw [written, expected, ih, Setting.text_node]
      simp

theorem toToml_eq (l : Layer) : l.toToml.toList = Toml.plainText (nodes l.root) l.tableNodes := by
  rw [toToml, String.toList_ofList, Toml.plainText, rowText_nodes, tableNodes, List.flatMap_map]
  congr 1
  refine List.flatMap_congr fun t _ => ?_
  simp [rowText_nodes]

theorem mem_nodes {key : String} {n : Node} : (key, n) ∈ nodes fields ↔ ∃ s, (key, some s) ∈ fields ∧ n = s.node := by
  simp only [nodes, List.mem_filterMap, Option.map_eq_some_iff, Prod.mk.injEq]
  constructor
  · rintro ⟨⟨key, o⟩, field, s, rfl, rfl, rfl⟩
    exact ⟨s, field, rfl⟩
  · rintro ⟨s, field, rfl⟩
    exact ⟨(key, some s), field, s, rfl, rfl, rfl⟩

theorem keys_nodes_sublist (fields : Fields) : ((nodes fields).map Prod.fst).Sublist (fields.map Prod.fst) := by
  induction fields with
  | nil => exact .slnil
  | cons f fields ih =>
    obtain ⟨key, o⟩ := f
    cases o with
    | none => exact ih.cons key
    | some s => exact ih.cons_cons key

/-- Every name of a settings source is written without quotes. -/
theorem isBareName {name : String} (h : name ∈ Layer.fields ++ ["run", "timeout", "enabled"]) : IsBareName name := by
  have bare : (Layer.fields ++ ["run", "timeout", "enabled"]).all
      (fun name => !name.toList.isEmpty && name.toList.all Toml.isBare) = true := rfl
  have both := List.all_eq_true.1 bare name h
  rw [Bool.and_eq_true, List.all_eq_true, Bool.not_eq_true', List.isEmpty_eq_false_iff] at both
  exact ⟨both.1, both.2⟩

theorem isRow_nodes (small : ∀ key n, (key, some (.number n)) ∈ fields → n < 2 ^ 63)
    (names : ∀ key ∈ fields.map Prod.fst, key ∈ Layer.fields ++ ["run", "timeout", "enabled"])
    (nodup : (fields.map Prod.fst).Nodup) : IsRow (nodes fields) where
  nodup := (keys_nodes_sublist fields).nodup nodup
  name f hf := isBareName (names f.1 ((keys_nodes_sublist fields).subset (List.mem_map_of_mem hf)))
  written f hf := by
    obtain ⟨s, field, same⟩ := mem_nodes.1 hf
    rw [same]
    exact Setting.written_node fun n number => small f.1 n (number ▸ field)

/-- The timeout is the one number of a layer. -/
theorem timeout_of_number {name key : String} {n : Nat} (table : (name, fields) ∈ l.tables)
    (field : (key, some (.number n)) ∈ fields) : l.timeout = some n := by
  simp only [tables, List.mem_cons, Prod.mk.injEq, List.not_mem_nil, or_false] at table
  rcases table with ⟨-, rfl⟩ | ⟨-, rfl⟩ | ⟨-, rfl⟩
  · have found : key = "timeout" ∧ l.timeout = some n := by simpa [@eq_comm _ (some _)] using field
    exact found.2
  all_goals simp [@eq_comm _ (some _)] at field

theorem number_not_mem_root (key : String) (n : Nat) : (key, some (.number n)) ∉ l.root := by
  simp [Layer.root, @eq_comm _ (some _)]

theorem keys_of_table {name key : String} (table : (name, fields) ∈ l.tables) (hk : key ∈ fields.map Prod.fst) :
    key ∈ ["run", "timeout", "enabled"] := by
  simp only [tables, List.mem_cons, Prod.mk.injEq, List.not_mem_nil, or_false] at table
  rcases table with ⟨-, rfl⟩ | ⟨-, rfl⟩ | ⟨-, rfl⟩
  · rcases List.mem_cons.1 hk with rfl | hk
    · exact .head _
    · exact List.mem_singleton.1 hk ▸ .tail _ (.head _)
  all_goals exact List.mem_singleton.1 hk ▸ .tail _ (.tail _ (.head _))

theorem isPlainTree (timeout : ∀ n, l.timeout = some n → n < 2 ^ 63) : IsPlainTree (nodes l.root) l.tableNodes where
  nodup := by
    have names : l.tableNodes.map Prod.fst = l.tables.map Prod.fst := by
      rw [tableNodes, List.map_map]
      rfl
    have all : (l.root.map Prod.fst ++ l.tables.map Prod.fst).Nodup := by
      rw [fields_eq]
      decide
    rw [names]
    exact ((keys_nodes_sublist l.root).append_right _).nodup all
  root := by
    refine isRow_nodes (fun key n field => absurd field (number_not_mem_root key n)) (fun key hk => ?_) ?_
    · rw [← fields_eq l]
      exact List.mem_append_left _ (List.mem_append_left _ hk)
    · simp [Layer.root]
  rows t ht := by
    obtain ⟨⟨name, fields⟩, table, rfl⟩ := List.mem_map.1 ht
    exact isRow_nodes (fun key n field => timeout n (timeout_of_number table field))
      (fun key hk => List.mem_append_right _ (keys_of_table table hk)) (nodup_of_table table)
  name t ht := by
    obtain ⟨⟨name, fields⟩, table, rfl⟩ := List.mem_map.1 ht
    exact isBareName (List.mem_append_left _ (mem_fields_of_table table))

theorem mem_ofTomlEntries {e : String × Datum} {entries : Toml.Entries}
    (h : e ∈ Datum.ofTomlEntries (Toml.tableOf entries)) :
    ∃ label n, (label, n) ∈ entries ∧ label.name = e.1 ∧ e.2 = Datum.ofToml n.value := by
  rw [Datum.ofTomlEntries_eq_map] at h
  obtain ⟨⟨x, v⟩, mem, rfl⟩ := List.mem_map.1 h
  obtain ⟨label, n, mem, name, value⟩ := Toml.mem_tableOf mem
  exact ⟨label, n, mem, name, value ▸ rfl⟩

theorem key_mem_ofTomlEntries {entries : Toml.Entries} {label : Toml.Label} {n : Node} (h : (label, n) ∈ entries) :
    label.name ∈ (Datum.ofTomlEntries (Toml.tableOf entries)).map Prod.fst := by
  rw [Datum.ofTomlEntries_eq_map, List.map_map]
  exact Toml.name_mem_tableOf h

theorem mem_row {key : String} {s : Setting} (field : (key, some s) ∈ fields) :
    (Toml.nameLabel key, s.node) ∈ Toml.row (nodes fields) :=
  List.mem_map_of_mem (mem_nodes.2 ⟨s, field, rfl⟩)

theorem exists_of_mem_row {label : Toml.Label} {n : Node} (h : (label, n) ∈ Toml.row (nodes fields)) :
    ∃ s, (label.name, some s) ∈ fields ∧ n = s.node := by
  obtain ⟨f, hf, same⟩ := List.mem_map.1 h
  cases same
  exact mem_nodes.1 hf

/-- A table of a settings file tells what its fields are set to. -/
theorem tells_of_row (fields : Fields) :
    (∀ e ∈ Datum.ofTomlEntries (Toml.tableOf (Toml.row (nodes fields))), Tells fields e) ∧
      Complete fields (Datum.ofTomlEntries (Toml.tableOf (Toml.row (nodes fields)))) := by
  refine ⟨fun e mem => ?_, fun key s field => key_mem_ofTomlEntries (mem_row field)⟩
  obtain ⟨label, n, mem, name, value⟩ := mem_ofTomlEntries mem
  obtain ⟨s, field, rfl⟩ := exists_of_mem_row mem
  exact .field (some s) (name ▸ field) (value.trans (Setting.datum_node s))

theorem isDescribed_plain (l : Layer) :
    IsDescribed l (Datum.ofTomlEntries (Toml.tableOf (Toml.plain (nodes l.root) l.tableNodes))) where
  each e mem := by
    obtain ⟨label, n, mem, name, value⟩ := mem_ofTomlEntries mem
    rcases List.mem_append.1 mem with mem | mem
    · obtain ⟨s, field, rfl⟩ := exists_of_mem_row mem
      exact .field (some s) (name ▸ field) (value.trans (Setting.datum_node s))
    · obtain ⟨t, ht, header, rfl, rfl, -⟩ := Toml.mem_headed mem
      obtain ⟨⟨key, fields⟩, table, rfl⟩ := List.mem_map.1 ht
      obtain ⟨told, complete⟩ := tells_of_row fields
      exact .table fields _ (name ▸ table) value told complete
  root key s field := key_mem_ofTomlEntries (List.mem_append_left _ (mem_row field))
  tables name fields table := by
    have mem : name ∈ l.tableNodes.map Prod.fst := List.mem_map.2 ⟨_, List.mem_map_of_mem table, rfl⟩
    have named : name ∈ (Toml.plain (nodes l.root) l.tableNodes).map fun e => e.1.name := by
      rw [Toml.names_plain]
      exact List.mem_append_right _ mem
    obtain ⟨⟨label, n⟩, entry, rfl⟩ := List.mem_map.1 named
    exact .inl (key_mem_ofTomlEntries entry)

theorem ofToml_toToml (timeout : ∀ n, l.timeout = some n → n < 2 ^ 63) : ofToml l.toToml = .ok l := by
  obtain ⟨d, read, table⟩ := Toml.read_plainText (fun _ => true) (fun _ _ => rfl) (isPlainTree timeout)
  rw [ofToml, toToml_eq, read]
  have decoded : decode .toml (.table (Datum.ofTomlEntries d.table)) = .ok l := by
    rw [table]
    exact decode_of_isDescribed timeout (isDescribed_plain l)
  exact decoded

/-- For every layer: the settings file of the layer and each object that covers what the editor would send for it
mean this layer, the object as such or as the member `sqlfluff` of another one. -/
theorem ofToml_ofJson_of_layer (l : Layer) (timeout : ∀ n, l.timeout = some n → n < 2 ^ 63) :
    ofToml l.toToml = .ok l ∧ ∀ given : Json, l.toJson.Covered given →
      (given.get? "sqlfluff" = none → ofJson given = .ok l) ∧
        ∀ outer : Json, outer.get? "sqlfluff" = some given → ofJson outer = .ok l :=
  ⟨ofToml_toToml timeout, fun _ covered => ofJson_of_covered timeout covered⟩

/-- A dialect and a limit of time. -/
def limited : Layer := { dialect := some "ansi", timeout := some 30 }

/-- What an editor may send for them. -/
def limitedPush : Json :=
  .object [("dialect", .string "ansi"), ("linter", .object [("timeout", .nat 30)]), ("theme", .object [])]

theorem covered_limitedPush : limited.toJson.Covered limitedPush := by
  have all : limited.toJson = .object [("config", .null), ("dialect", .string "ansi"), ("excludeRules", .null),
      ("executablePath", .null), ("format", .object [("enabled", .null)]), ("ignoreParsing", .null),
      ("ignoreTemplating", .null), ("linter", .object [("run", .null), ("timeout", .nat 30)]),
      ("osmosis", .object [("enabled", .null)]), ("rules", .null), ("workingDirectory", .null)] := rfl
  have unset : (Json.object [("enabled", .null)]).IsSilent := .object _ (by simp [Json.IsSilent.null])
  have linter : (Json.object [("run", .null), ("timeout", .nat 30)]).Covered (.object [("timeout", .nat 30)]) :=
    .object (by simp [Json.IsSilent.null]) (by simp [Json.Covered.same]) (by simp)
  have theme : (Json.object []).IsSound := .object _ (by simp)
  rw [all]
  exact .object (by simp [Json.IsSilent.null, unset]) (by simp [Json.Covered.same, linter]) (by simp [theme])

theorem ofToml_ofJson_of_layer_limited :
    ofToml "dialect = \"ansi\"\n[linter]\ntimeout = 30\n[format]\n[osmosis]\n" = .ok limited ∧
      ofJson limitedPush = .ok limited ∧ ofJson (.object [("editor", .null), ("sqlfluff", limitedPush)]) = .ok limited := by
  have text : limited.toToml = "dialect = \"ansi\"\n[linter]\ntimeout = 30\n[format]\n[osmosis]\n" := rfl
  have small : ∀ n, limited.timeout = some n → n < 2 ^ 63 := by
    rintro n ⟨⟩
    decide
  obtain ⟨file, push⟩ := ofToml_ofJson_of_layer limited small
  obtain ⟨bare, nested⟩ := push limitedPush covered_limitedPush
  exact ⟨text ▸ file, bare rfl, nested _ rfl⟩

end Layer
end SqlLint
