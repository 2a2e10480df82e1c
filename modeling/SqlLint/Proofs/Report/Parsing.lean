import SqlLint.Proofs.Report.Reading

/-! # Reading a report undoes writing it

A report in the linter's format is read as what it was written of, and nothing is ever read but lines and columns
that start from one and names that are not empty. -/
namespace SqlLint.Report
open Json Outline

section Keeping

variable {α : Type} {P : α → Prop} {set : α → String → Outline → Except Fault α}

/-- What every member keeps of a record is kept by all of them. -/
theorem readMembers_keeps (keeps : ∀ a key o b, P a → set a key o = .ok b → P b) :
    ∀ (members : Members) {a b : α}, P a → Report.readMembers set members a = .ok b → P b
  | .broken, _, _, _, h => nomatch h
  | .closed, _, _, ha, h => Except.ok.inj h ▸ ha
  | .more key value rest, a, b, ha, h => by
    rw [Report.readMembers] at h
    split at h
    · cases h
    · next name _ =>
      obtain ⟨next, hs, h⟩ := exists_of_bind h
      exact readMembers_keeps keeps rest (keeps a name value next ha hs) h

theorem readFields_keeps (keeps : ∀ a key o b, P a → set a key o = .ok b → P b) (record : String)
    (fields : List String) (required : Nat) : ∀ (keys : List String) (items : Items) {a b : α}, P a →
    readFields record fields required set keys items a = .ok b → P b
  | _, .broken, _, _, _, h => by
    rw [readFields] at h
    cases h
  | [], .closed, _, _, ha, h => Except.ok.inj h ▸ ha
  | [], .more .., _, _, _, h => nomatch h
  | key :: keys, .closed, a, b, ha, h => by
    simp only [readFields] at h
    split at h
    · cases h
    · exact Except.ok.inj h ▸ ha
  | key :: keys, .more item rest, a, b, ha, h => by
    rw [readFields] at h
    obtain ⟨next, hs, h⟩ := exists_of_bind h
    exact readFields_keeps keeps record fields required keys rest (keeps a key item next ha hs) h

theorem expect_ne_ok {expected : Expected} {o : Outline} {a : α} : expect expected o ≠ .ok a := by
  intro h
  unfold expect at h
  split at h <;> cases h

theorem readRecord_keeps (keeps : ∀ a key o b, P a → set a key o = .ok b → P b) {record : String}
    {fields : List String} {required : Nat} {start b : α} {o : Outline} (hs : P start)
    (h : readRecord record fields required set start o = .ok b) : P b := by
  unfold readRecord at h
  split at h
  · exact readMembers_keeps keeps _ hs h
  · exact readFields_keeps keeps record fields required _ _ hs h
  · exact absurd h expect_ne_ok

theorem forall_of_readList {read : Outline → Except Fault α} (each : ∀ o a, read o = .ok a → P a) :
    ∀ (items : Items) {as : List α}, readList read items = .ok as → ∀ a ∈ as, P a
  | .broken, _, h => nomatch h
  | .closed, _, h => Except.ok.inj h ▸ nofun
  | .more item rest, as, h => by
    rw [readList] at h
    obtain ⟨a, hi, h⟩ := exists_of_bind h
    obtain ⟨more, hr, h⟩ := exists_of_bind h
    rw [← Except.ok.inj h]
    exact List.forall_mem_cons.2 ⟨each item a hi, forall_of_readList each rest hr⟩

theorem forall_of_list {read : Outline → Except Fault α} (each : ∀ o a, read o = .ok a → P a) {o : Outline}
    {as : List α} (h : list read o = .ok as) : ∀ a ∈ as, P a := by
  unfold list at h
  split at h
  · exact forall_of_readList each _ h
  · exact absurd h expect_ne_ok

end Keeping

/-- Whatever was found of a finding, its lines and columns are counted from one and its name is not empty. -/
theorem isProper_of_finish {r : ViolationFields} {v : Violation} (h : r.finish = .ok v) : v.IsProper := by
  unfold ViolationFields.finish at h
  split at h
  · cases h
  · cases h
  · rw [← Except.ok.inj h]
    exact ⟨Nat.le_max_right _ 1, Nat.le_max_right _ 1, by simp [Option.filter_eq_some_iff]⟩

theorem isProper_of_violation (o : Outline) (v : Violation) (h : violation o = .ok v) : v.IsProper := by
  obtain ⟨r, -, hf⟩ := exists_of_bind h
  exact isProper_of_finish hf

/-- The findings that a record of a file has taken are proper. -/
def FileFields.IsProper (r : FileFields) : Prop := ∀ vs ∈ r.violations, ∀ v ∈ vs, Violation.IsProper v

theorem isProper_set (r : FileFields) (key : String) (o : Outline) (r' : FileFields) (proper : r.IsProper)
    (h : r.set key o = .ok r') : r'.IsProper := by
  unfold FileFields.set at h
  split at h
  · unfold once at h
    split at h
    · cases h
    · obtain ⟨s, -, rfl⟩ := exists_of_map h
      exact proper
  · unfold once at h
    split at h
    · cases h
    · obtain ⟨vs, hv, rfl⟩ := exists_of_map h
      intro found hf
      rw [← Option.some.inj hf]
      exact forall_of_list isProper_of_violation hv
  · obtain ⟨_, -, rfl⟩ := exists_of_map h
    exact proper

theorem isProper_of_file (o : Outline) (f : FileReport) (h : file o = .ok f) : ∀ v ∈ f.violations, v.IsProper := by
  obtain ⟨r, hr, hf⟩ := exists_of_bind h
  have proper : r.IsProper := readRecord_keeps isProper_set (nofun : FileFields.IsProper {}) hr
  unfold FileFields.finish at hf
  split at hf
  · cases hf
  · rw [← Except.ok.inj hf]
    dsimp only
    cases hv : r.violations with
    | none => nofun
    | some vs => exact proper vs hv

theorem isProper_of_parse {text : String} {files : List FileReport} (h : parse text = .ok files) :
    ∀ f ∈ files, ∀ v ∈ f.violations, v.IsProper := by
  rw [parse] at h
  dsimp only at h
  split at h
  · rw [← Except.ok.inj h]
    exact List.forall_mem_nil _
  · obtain ⟨found, hl, h⟩ := exists_of_bind h
    split at h
    · rw [← Except.ok.inj h]
      exact forall_of_list isProper_of_file hl
    · cases h

/-- A text that is written of files in the linter's format is read as these files, in their order, and whatever
text is read, its findings are proper. -/
theorem parse_written :
    (∀ (files : List FileReport) (text : List Char), (∀ f ∈ files, ∀ v ∈ f.violations, v.IsProper ∧ v.IsNarrow) →
      IsWritten files text → parse (String.ofList text) = .ok files) ∧
    ∀ (text : String) (files : List FileReport), parse text = .ok files →
      ∀ f ∈ files, ∀ v ∈ f.violations, v.IsProper :=
  ⟨fun _ _ fit written => parse_of_isWritten fit written, fun _ _ read => isProper_of_parse read⟩

/-! ## A report with findings of both kinds -/

/-- The pieces of a text without escapes. -/
def plain (s : String) : List Piece := s.toList.map .char

/-- Whether a text needs no escapes. -/
def isPlain (s : String) : Bool := s.toList.all fun c => ' ' ≤ c && c ≠ '"' && c ≠ '\\'

theorem spelled_plain {s : String} (h : isPlain s = true) : Piece.Spelled (plain s) s.toList := by
  rw [isPlain] at h
  rw [plain]
  generalize s.toList = cs at h ⊢
  induction cs with
  | nil => exact .nil
  | cons c cs ih =>
    simp only [List.all_cons, Bool.and_eq_true, decide_eq_true_eq] at h
    obtain ⟨⟨⟨shown, quote⟩, slash⟩, rest⟩ := h
    exact .plain shown quote slash (ih rest)

theorem denotes_plain (s : String) : Piece.Denotes (plain s) s.toList := by
  rw [plain]
  induction s.toList with
  | nil => exact .nil
  | cons c cs ih => exact .char c ih

theorem blanks_nil : Blanks [] := nofun

theorem spelled_string {s : String} (h : isPlain s = true) :
    (Outline.string (plain s)).Spelled ('"' :: (s.toList ++ ['"'])) := .string (spelled_plain h)

def digit (n : Nat) : Outline := .number ⟨false, [n], [], none⟩

theorem spelled_digit {n : Nat} (h : n < 10) : (digit n).Spelled [n.digitChar] := by
  have number : NumberText.Spelled ⟨false, [n], [], none⟩ ([] ++ (written [n] ++ ([] ++ []))) :=
    .mk (by decide) ⟨nofun, List.forall_mem_singleton.2 h⟩ (fun zero => congrArg (fun d => [d]) (Option.some.inj zero))
      .none .none
  exact .number number

theorem spelled_more {key : String} {value : Outline} {rest : Members} {cs tail : List Char}
    (h : isPlain key = true) (hv : value.Spelled cs) (hr : rest.Spelled tail) :
    Members.Spelled (.more (plain key) value rest) ('"' :: (key.toList ++ '"' :: ':' :: (cs ++ ',' :: tail))) :=
  .more blanks_nil (spelled_plain h) blanks_nil blanks_nil hv blanks_nil hr

theorem spelled_last {key : String} {value : Outline} {cs : List Char}
    (h : isPlain key = true) (hv : value.Spelled cs) :
    Members.Spelled (.more (plain key) value .closed) ('"' :: (key.toList ++ '"' :: ':' :: (cs ++ []))) :=
  .last blanks_nil (spelled_plain h) blanks_nil blanks_nil hv blanks_nil

/-- The members of an object whose keys need no escapes. -/
def membersOf (entries : List (String × Outline)) : Members :=
  entries.foldr (fun d rest => .more (plain d.1) d.2 rest) .closed

theorem hold_membersOf (entries : List (String × Outline)) : (membersOf entries).Hold entries := by
  induction entries with
  | nil => exact .closed
  | cons d entries ih => exact .more (denotes_plain d.1) ih

/-- A finding with a start and an end, and one with a line and a column alone. -/
def ranged : List (String × Outline) :=
  [("start_line_no", digit 2), ("start_line_pos", digit 1), ("end_line_no", digit 2), ("end_line_pos", digit 3),
    ("code", .string (plain "A")), ("description", .string (plain ""))]

def placed : List (String × Outline) :=
  [("x", .array .closed), ("description", .string (plain "")), ("code", .string (plain "B")), ("warning", .bool false),
    ("line_pos", digit 4), ("line_no", digit 1), ("name", .null)]

/-- A file whose path is spelled by an escape. -/
def mixed : List (String × Outline) :=
  [("filepath", .string [.unit 0x61]),
    ("violations", .array (.more (.object (membersOf ranged)) (.more (.object (membersOf placed)) .closed)))]

def rangedFinding : Violation := ⟨"A", "", none, 2, 1, some (2, 3), false⟩

def placedFinding : Violation := ⟨"B", "", none, 1, 4, none, false⟩

theorem written_ranged : rangedFinding.Written ranged where
  once := by decide
  code := ⟨_, rfl, _, rfl, denotes_plain "A"⟩
  description := ⟨_, rfl, _, rfl, denotes_plain ""⟩
  name := .inl rfl
  place := .inl ⟨⟨_, rfl, [2], rfl, rfl⟩, ⟨_, rfl, [1], rfl, rfl⟩, ⟨_, rfl, [2], rfl, rfl⟩, ⟨_, rfl, [3], rfl, rfl⟩,
    .inl rfl, .inl rfl⟩
  warning := .inr ⟨rfl, rfl⟩

theorem written_placed : placedFinding.Written placed where
  once := by decide
  code := ⟨_, rfl, _, rfl, denotes_plain "B"⟩
  description := ⟨_, rfl, _, rfl, denotes_plain ""⟩
  name := .inr rfl
  place := .inr ⟨rfl, .inl rfl, .inl rfl, .inl rfl, .inl rfl, ⟨_, rfl, [1], rfl, rfl⟩, ⟨_, rfl, [4], rfl, rfl⟩⟩
  warning := .inl rfl

theorem written_mixed : FileReport.Written ⟨"a", [rangedFinding, placedFinding]⟩ mixed where
  once := by decide
  path := ⟨_, rfl, _, rfl, .units 'a' .nil⟩
  violations := ⟨_, rfl, _, rfl, .more ⟨_, _, rfl, hold_membersOf ranged, written_ranged⟩
    (.more ⟨_, _, rfl, hold_membersOf placed, written_placed⟩ .closed)⟩

def mixedText : List Char :=
  (["[\x7b\"filepath\":", "\"\\u0061\",", "\"violations\":[", "\x7b\"start_line_no\":2,", "\"start_line_pos\":1,",
    "\"end_line_no\":2,", "\"end_line_pos\":3,", "\"code\":\"A\",", "\"description\":\"\"\x7d,", "\n\x7b\"x\":[],",
    "\"description\":\"\",", "\"code\":\"B\",", "\"warning\":false,", "\"line_pos\":4,", "\"line_no\":1,",
    "\"name\":null\x7d]\x7d]\n"].map String.toList).flatten

theorem spelled_mixed : (Outline.array (.more (.object (membersOf mixed)) .closed)).SpelledText mixedText := by
  have line : Blanks ['\n'] := List.forall_mem_singleton.2 (by decide)
  have digits (c : Char) (n : Nat) (h : "0123456789abcdef".toList[n]? = some c) : Hexadecimal c n := .inl h
  have path : Piece.Spelled [.unit 0x61] _ :=
    .code (digits '0' 0 rfl) (digits '0' 0 rfl) (digits '6' 6 rfl) (digits '1' 1 rfl) .nil
  have ranged : Members.Spelled (membersOf ranged) _ :=
    spelled_more rfl (spelled_digit (by decide)) (spelled_more rfl (spelled_digit (by decide))
      (spelled_more rfl (spelled_digit (by decide)) (spelled_more rfl (spelled_digit (by decide))
        (spelled_more rfl (spelled_string rfl) (spelled_last rfl (spelled_string rfl))))))
  have placed : Members.Spelled (membersOf placed) _ :=
    spelled_more rfl (.emptyArray blanks_nil) (spelled_more rfl (spelled_string rfl)
      (spelled_more rfl (spelled_string rfl) (spelled_more rfl .isFalse
        (spelled_more rfl (spelled_digit (by decide)) (spelled_more rfl (spelled_digit (by decide))
          (spelled_last rfl .null))))))
  have findings : Outline.Spelled (.array _) _ :=
    .array (.more blanks_nil (.object ranged) blanks_nil (.last line (.object placed) blanks_nil))
  have file : Members.Spelled (membersOf mixed) _ :=
    spelled_more rfl (.string path) (spelled_last rfl findings)
  exact ⟨[], _, ['\n'], blanks_nil, .array (.last blanks_nil (.object file) blanks_nil), line, by decide +kernel⟩

/-- A report is read whose findings have an end or have none, with escapes, with members in any order and with one
that is of no use. -/
theorem parse_written_mixed : parse (String.ofList mixedText) =
    .ok [⟨"a", [rangedFinding, placedFinding]⟩] := by
  refine parse_written.1 _ _ ?_
    ⟨_, spelled_mixed, _, rfl, .more ⟨_, _, rfl, hold_membersOf mixed, written_mixed⟩ .closed⟩
  simp only [List.mem_cons, List.not_mem_nil, or_false, forall_eq, forall_eq_or_imp]
  exact ⟨⟨⟨by decide, by decide, nofun⟩, ⟨by decide, by decide, by decide⟩⟩,
    ⟨⟨by decide, by decide, nofun⟩, ⟨by decide, by decide, nofun⟩⟩⟩

end SqlLint.Report
