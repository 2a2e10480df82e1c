import SqlLint.Proofs.Json.Meaning
import SqlLint.Proofs.Json.Reading
import SqlLint.Proofs.Report.Format
import Mathlib.Logic.Function.Basic

/-! # The linter's report is read as it was written -/
namespace SqlLint.Report
open Json Outline

section Values

variable {o : Outline}

theorem text_of_isText {s : String} (h : o.IsText s) : text o = .ok s := by
  obtain ⟨ps, rfl, denotes⟩ := h
  rw [text, Piece.text?_of_denotes denotes]

theorem place_of_isNatural {n : Nat} (h : o.IsNatural n) (fits : n < Word.size 64) : place o = .ok n := by
  obtain ⟨ds, rfl, value⟩ := h
  rw [place, NumberText.value?_of_ofDigits value fits]
  rfl

theorem readList_of_hold {α : Type} {stands : Outline → α → Prop} {read : Outline → Except Fault α} {items : Items}
    {as : List α} (h : items.Hold stands as) (complete : items.complete = true)
    (reads : ∀ o, o.complete = true → ∀ a ∈ as, stands o a → read o = .ok a) : readList read items = .ok as := by
  induction h with
  | closed => rfl
  | @more item rest a as first _ ih =>
    rw [Items.complete, Bool.and_eq_true] at complete
    rw [readList, reads item complete.1 a List.mem_cons_self first,
      ih complete.2 fun o ho b hb => reads o ho b (List.mem_cons_of_mem a hb)]
    rfl

/-- What stands for something or for nothing is read as an optional value. -/
theorem optional_of_stands {α : Type} {stands : Outline → α → Prop} {read : Outline → Except Fault α} {a : Option α}
    {found : Option Outline} (h : Stands stands found a)
    (reads : ∀ o, ∀ b ∈ a, stands o b → o ≠ .null ∧ read o = .ok b) :
    (found.bind fun o => (optional read o).toOption).join = a ∧
      ∀ o, found = some o → (optional read o).isOk = true := by
  cases a with
  | none =>
    rcases h with rfl | rfl
    · exact ⟨rfl, nofun⟩
    · exact ⟨rfl, fun o ho => Option.some.inj ho ▸ rfl⟩
  | some b =>
    obtain ⟨o, rfl, ho⟩ := h
    obtain ⟨given, value⟩ := reads o b rfl ho
    have ok : optional read o = .ok (some b) := by
      unfold optional
      split
      · exact absurd rfl given
      · rw [value]
        rfl
    refine ⟨?_, fun o' ho' => ?_⟩
    · rw [Option.bind_some, ok]
      rfl
    · rw [← Option.some.inj ho', ok]
      rfl

theorem text_of_stands {s : String} {found : Option Outline} (h : Stands IsText found (some s)) :
    (found.bind fun o => (text o).toOption) = some s ∧ ∀ o, found = some o → (text o).isOk = true := by
  obtain ⟨o, rfl, ho⟩ := h
  have value := text_of_isText ho
  refine ⟨?_, fun o' ho' => ?_⟩
  · rw [Option.bind_some, value]
    rfl
  · rw [← Option.some.inj ho', value]
    rfl

theorem texts_of_stands {s : Option String} {found : Option Outline} (h : Stands IsText found s) :
    (found.bind fun o => (optional text o).toOption).join = s ∧
      ∀ o, found = some o → (optional text o).isOk = true := by
  refine optional_of_stands h fun o s _ ho => ⟨?_, text_of_isText ho⟩
  obtain ⟨ps, rfl, -⟩ := ho
  nofun

theorem places_of_stands {n : Option Nat} {found : Option Outline} (h : Stands IsNatural found n)
    (fits : ∀ m ∈ n, m < Word.size 64) : (found.bind fun o => (optional place o).toOption).join = n ∧
      ∀ o, found = some o → (optional place o).isOk = true := by
  refine optional_of_stands h fun o m hm ho => ⟨?_, place_of_isNatural ho (fits m hm)⟩
  obtain ⟨ds, rfl, -⟩ := ho
  nofun

/-- Whether a field can be filled depends on what is read only. -/
theorem isOk_once {β γ : Type} (key : String) {read : Outline → Except Fault β} {o : Outline} (put : β → γ)
    (h : (read o).isOk = true) : (once key (none : Option β) read o put).isOk = true := by
  rw [once, if_neg (by simp)]
  cases hr : read o with
  | ok b => rfl
  | error f =>
    rw [hr] at h
    cases h

theorem exists_of_once {β γ : Type} {key : String} {read : Outline → Except Fault β} {put : β → γ}
    (h : (once key (none : Option β) read o put).isOk = true) : ∃ b, read o = .ok b := by
  rw [once, if_neg (by simp)] at h
  cases hr : read o with
  | ok b => exact ⟨b, rfl⟩
  | error f =>
    rw [hr] at h
    cases h

end Values

section Members

variable {α : Type} {set : α → String → Outline → Except Fault α} {of : (String → Option Outline) → α}
  {known : List String}

/-- A record is built of the members with known names, whatever else is found. -/
structure Collects (set : α → String → Outline → Except Fault α) (of : (String → Option Outline) → α)
    (known : List String) : Prop where
  set : ∀ find key o, (set (of fun _ => none) key o).isOk = true → (key ∈ known → find key = none) →
    set (of find) key o = .ok (of (Function.update find key (some o)))
  agree : ∀ find find' : String → Option Outline, (∀ key ∈ known, find key = find' key) → of find = of find'

/-- A member of another name is skipped, which changes nothing. -/
theorem set_unknown (agree : ∀ find find' : String → Option Outline, (∀ key ∈ known, find key = find' key) →
      of find = of find') {find : String → Option Outline} {key : String} {o : Outline} {a : α}
    (unknown : key ∉ known) (readable : ((skip o).map fun _ => a).isOk = true) :
    ((skip o).map fun _ => of find) = .ok (of (Function.update find key (some o))) := by
  have same : of (Function.update find key (some o)) = of find := agree _ _ fun k hk => by
    refine Function.update_of_ne ?_ _ _
    rintro rfl
    exact unknown hk
  cases hs : skip o with
  | error f =>
    rw [hs] at readable
    cases readable
  | ok _ => exact congrArg Except.ok same.symm

theorem readMembers_of_hold (collects : Collects set of known) {members : Members} {entries : List (String × Outline)}
    (h : members.Hold entries) (once : ∀ key ∈ known, (entries.map Prod.fst).count key ≤ 1)
    (readable : ∀ d ∈ entries, (set (of fun _ => none) d.1 d.2).isOk = true) (find : String → Option Outline)
    (fresh : ∀ key ∈ known, key ∈ entries.map Prod.fst → find key = none) :
    readMembers set members (of find) = .ok (of fun key => entries.lookup key <|> find key) := by
  induction h generalizing find with
  | closed => rfl
  | @more key value rest name entries named _ ih =>
    have later : ∀ k ∈ known, (entries.map Prod.fst).count k ≤ 1 := fun k hk =>
      (List.count_le_count_cons).trans (once k hk)
    have only : name ∈ known → name ∉ entries.map Prod.fst := by
      intro hk hm
      have two := once name hk
      rw [List.map_cons, List.count_cons_self] at two
      have one := List.count_pos_iff.2 hm
      omega
    have step := collects.set find name value (readable (name, value) List.mem_cons_self) fun hk =>
      fresh name hk List.mem_cons_self
    rw [readMembers, Piece.text?_of_denotes named]
    dsimp only
    rw [step]
    change readMembers set rest (of (Function.update find name (some value))) = _
    rw [ih later (fun d hd => readable d (List.mem_cons_of_mem _ hd))]
    · refine congrArg Except.ok (collects.agree _ _ fun k hk => ?_)
      by_cases same : k = name
      · subst same
        have absent : entries.lookup k = none :=
          List.lookup_eq_none_iff.2 fun d hd => bne_iff_ne.2 fun h => only hk (h ▸ List.mem_map_of_mem hd)
        rw [absent, Function.update_self, List.lookup_cons_self]
        rfl
      · rw [Function.update_of_ne same, List.lookup_cons, beq_false_of_ne same]
    · intro k hk hm
      have other : k ≠ name := by
        rintro rfl
        exact only hk hm
      rw [Function.update_of_ne other]
      exact fresh k hk (List.mem_cons_of_mem _ hm)

theorem readMembers_lookup (collects : Collects set of known) {members : Members} {entries : List (String × Outline)}
    (h : members.Hold entries) (once : ∀ key ∈ known, (entries.map Prod.fst).count key ≤ 1)
    (readable : ∀ d ∈ entries, (set (of fun _ => none) d.1 d.2).isOk = true) :
    readMembers set members (of fun _ => none) = .ok (of fun key => entries.lookup key) := by
  rw [readMembers_of_hold collects h once readable _ fun _ _ _ => rfl]
  refine congrArg (fun find => Except.ok (of find)) (funext fun key => ?_)
  cases entries.lookup key <;> rfl

end Members

namespace ViolationFields

/-- What a record of a finding holds of the members that were found. -/
def of (find : String → Option Outline) : ViolationFields where
  code := (find "code").bind fun o => (text o).toOption
  description := (find "description").bind fun o => (text o).toOption
  name := (find "name").bind fun o => (optional text o).toOption
  line := (find "line_no").bind fun o => (optional place o).toOption
  column := (find "line_pos").bind fun o => (optional place o).toOption
  startLine := (find "start_line_no").bind fun o => (optional place o).toOption
  startColumn := (find "start_line_pos").bind fun o => (optional place o).toOption
  stopLine := (find "end_line_no").bind fun o => (optional place o).toOption
  stopColumn := (find "end_line_pos").bind fun o => (optional place o).toOption
  warning := (find "warning").bind fun o => (boolean o).toOption

theorem of_congr {find find' : String → Option Outline} (same : ∀ key ∈ fields, find key = find' key) :
    of find = of find' := by
  simp only [fields, List.mem_cons, List.not_mem_nil, or_false] at same
  simp only [of, same, or_true, true_or]

theorem collects : Collects set of fields where
  set find key o readable fresh := by
    unfold ViolationFields.set at readable ⊢
    split at readable
    -- A field whose member is met is filled with what is read, and the other fields stay as they are.
    all_goals first
      | obtain ⟨b, hb⟩ := exists_of_once readable
        simp [once, of, fresh (by decide), hb, Except.map, Except.toOption]
      | skip
    · next code description name line column startLine startColumn stopLine stopColumn warning =>
      refine set_unknown (fun _ _ => of_congr) ?_ readable
      simp only [fields, List.mem_cons, List.not_mem_nil, or_false, not_or]
      exact ⟨code, description, name, line, column, startLine, startColumn, stopLine, stopColumn, warning⟩
  agree _ _ := of_congr

variable {v : Violation} {entries : List (String × Outline)}

/-- However the place of a finding is written, its start and its end are found. -/
theorem exists_placed (written : v.Written entries) (narrow : v.IsNarrow) :
    ∃ startLine startColumn stopLine stopColumn line column,
      Violation.Placed startLine startColumn stopLine stopColumn line column entries ∧
        (∀ place ∈ [startLine, startColumn, stopLine, stopColumn, line, column], ∀ n ∈ place, n < Word.size 64) ∧
        (startLine <|> line) = some v.line ∧ (startColumn <|> column) = some v.column ∧
        (do some ((← stopLine), (← stopColumn))) = v.stop := by
  obtain ⟨narrowLine, narrowColumn, narrowStop⟩ := narrow
  rcases written.place with placed | ⟨endless, placed⟩
  · refine ⟨_, _, _, _, _, _, placed, ?_, rfl, rfl, ?_⟩
    · cases hs : v.stop with
      | none => simp [narrowLine, narrowColumn]
      | some stop => simp [narrowLine, narrowColumn, narrowStop stop hs]
    · cases v.stop <;> rfl
  · refine ⟨_, _, _, _, _, _, placed, ?_, rfl, rfl, endless.symm⟩
    simp [narrowLine, narrowColumn]

/-- The members of a finding can all be read. -/
theorem readable_of_written (written : v.Written entries) (narrow : v.IsNarrow)
    (complete : ∀ d ∈ entries, d.2.complete = true) {d : String × Outline} (hd : d ∈ entries) :
    (set (of fun _ => none) d.1 d.2).isOk = true := by
  obtain ⟨key, o⟩ := d
  obtain ⟨_, _, _, _, _, _, placed, fits, -⟩ := exists_placed written narrow
  have found (hk : key ∈ fields) : entries.lookup key = some o := Assoc.lookup_of_mem (written.once key hk) hd
  dsimp only
  unfold set
  split
  · exact isOk_once _ _ ((text_of_stands written.code).2 o (found (by decide)))
  · exact isOk_once _ _ ((text_of_stands written.description).2 o (found (by decide)))
  · exact isOk_once _ _ ((texts_of_stands written.name).2 o (found (by decide)))
  · exact isOk_once _ _ ((places_of_stands placed.line (fits _ (by simp))).2 o (found (by decide)))
  · exact isOk_once _ _ ((places_of_stands placed.column (fits _ (by simp))).2 o (found (by decide)))
  · exact isOk_once _ _ ((places_of_stands placed.startLine (fits _ (by simp))).2 o (found (by decide)))
  · exact isOk_once _ _ ((places_of_stands placed.startColumn (fits _ (by simp))).2 o (found (by decide)))
  · exact isOk_once _ _ ((places_of_stands placed.stopLine (fits _ (by simp))).2 o (found (by decide)))
  · exact isOk_once _ _ ((places_of_stands placed.stopColumn (fits _ (by simp))).2 o (found (by decide)))
  · refine isOk_once _ _ ?_
    rcases written.warning with given | ⟨absent, -⟩
    · rw [found (by decide)] at given
      rw [Option.some.inj given]
      rfl
    · rw [found (by decide)] at absent
      cases absent
  · rw [skip, if_pos (complete _ hd)]
    rfl

/-- What was found of a finding makes it up. -/
theorem finish_of_written (written : v.Written entries) (proper : v.IsProper) (narrow : v.IsNarrow) :
    (of fun key => entries.lookup key).finish = .ok v := by
  obtain ⟨_, _, _, _, _, _, placed, fits, line, column, stop⟩ := exists_placed written narrow
  have code := (text_of_stands written.code).1
  have description := (text_of_stands written.description).1
  have name := (texts_of_stands written.name).1
  have startLine := (places_of_stands placed.startLine (fits _ (by simp))).1
  have startColumn := (places_of_stands placed.startColumn (fits _ (by simp))).1
  have stopLine := (places_of_stands placed.stopLine (fits _ (by simp))).1
  have stopColumn := (places_of_stands placed.stopColumn (fits _ (by simp))).1
  have oldLine := (places_of_stands placed.line (fits _ (by simp))).1
  have oldColumn := (places_of_stands placed.column (fits _ (by simp))).1
  have named : v.name.filter (· ≠ "") = v.name := by
    have other := proper.name
    cases hs : v.name with
    | none => rfl
    | some s =>
      rw [hs] at other
      exact Option.filter_some_pos (decide_eq_true fun empty => other (congrArg some empty))
  have warning : ((entries.lookup "warning").bind fun o => (boolean o).toOption).getD false = v.warning := by
    rcases written.warning with given | ⟨absent, no⟩
    · rw [given]
      rfl
    · rw [absent, no]
      rfl
  simp only [of, finish, code, description, name, startLine, startColumn, stopLine, stopColumn, oldLine, oldColumn,
    line, column, stop, named, warning, Option.getD_some, Nat.max_eq_left proper.line, Nat.max_eq_left proper.column]

end ViolationFields

theorem complete_of_hold {members : Members} {entries : List (String × Outline)} (h : members.Hold entries)
    (complete : members.complete = true) : ∀ d ∈ entries, d.2.complete = true := by
  induction h with
  | closed => nofun
  | more _ _ ih =>
    rw [Members.complete, Bool.and_eq_true] at complete
    exact List.forall_mem_cons.2 ⟨complete.1, ih complete.2⟩

theorem violation_of_written {v : Violation} (proper : v.IsProper) (narrow : v.IsNarrow) {o : Outline}
    (complete : o.complete = true) (h : o.IsObject v.Written) : violation o = .ok v := by
  obtain ⟨members, entries, rfl, hold, written⟩ := h
  have readable := fun d hd =>
    ViolationFields.readable_of_written written narrow (complete_of_hold hold complete) (d := d) hd
  have fields : readRecord "RawViolation" ViolationFields.fields 2 ViolationFields.set {} (.object members) =
      .ok (ViolationFields.of fun key => entries.lookup key) :=
    readMembers_lookup ViolationFields.collects hold written.once readable
  rw [violation, fields]
  exact ViolationFields.finish_of_written written proper narrow

namespace FileFields

/-- What a record of a file holds of the members that were found. -/
def of (find : String → Option Outline) : FileFields where
  path := (find "filepath").bind fun o => (text o).toOption
  violations := (find "violations").bind fun o => (list violation o).toOption

theorem of_congr {find find' : String → Option Outline} (same : ∀ key ∈ fields, find key = find' key) :
    of find = of find' := by
  simp only [fields, List.mem_cons, List.not_mem_nil, or_false] at same
  simp only [of, same, or_true, true_or]

theorem collects : Collects set of fields where
  set find key o readable fresh := by
    unfold FileFields.set at readable ⊢
    split at readable
    all_goals first
      | obtain ⟨b, hb⟩ := exists_of_once readable
        simp [once, of, fresh (by decide), hb, Except.map, Except.toOption]
      | skip
    · next path violations =>
      refine set_unknown (fun _ _ => of_congr) ?_ readable
      simp only [fields, List.mem_cons, List.not_mem_nil, or_false, not_or]
      exact ⟨path, violations⟩
  agree _ _ := of_congr

end FileFields

theorem file_of_written {f : FileReport} (fit : ∀ v ∈ f.violations, v.IsProper ∧ v.IsNarrow) {o : Outline}
    (complete : o.complete = true) (h : o.IsObject f.Written) : file o = .ok f := by
  obtain ⟨members, entries, rfl, hold, written⟩ := h
  have parts := complete_of_hold hold complete
  obtain ⟨value, found, items, rfl, findings⟩ := written.violations
  have violations : list violation (.array items) = .ok f.violations := by
    obtain ⟨before, after, rfl, -⟩ := List.lookup_eq_some_iff.1 found
    have whole : items.complete = true :=
      parts ("violations", .array items) (List.mem_append_right _ List.mem_cons_self)
    exact readList_of_hold findings whole fun o ho v hv hw => violation_of_written (fit v hv).1 (fit v hv).2 ho hw
  have path := text_of_stands written.path
  have readable (d : String × Outline) (hd : d ∈ entries) :
      (FileFields.set (FileFields.of fun _ => none) d.1 d.2).isOk = true := by
    obtain ⟨key, o⟩ := d
    have only (hk : key ∈ FileFields.fields) : entries.lookup key = some o :=
      Assoc.lookup_of_mem (written.once key hk) hd
    dsimp only
    unfold FileFields.set
    split
    · exact isOk_once _ _ (path.2 o (only (by decide)))
    · refine isOk_once _ _ ?_
      rw [only (by decide)] at found
      rw [Option.some.inj found, violations]
      rfl
    · rw [skip, if_pos (parts _ hd)]
      rfl
  have fields : readRecord "RawFileReport" FileFields.fields 1 FileFields.set {} (.object members) =
      .ok (FileFields.of fun key => entries.lookup key) :=
    readMembers_lookup FileFields.collects hold written.once readable
  have listed : ((entries.lookup "violations").bind fun o => (list violation o).toOption) = some f.violations := by
    rw [found, Option.bind_some, violations]
    rfl
  rw [file, fields]
  change (FileFields.of fun key => entries.lookup key).finish = .ok f
  simp only [FileFields.of, FileFields.finish, path.1, listed, Option.getD_some]

section Texts

theorem isBlank_of_blank {c : Char} (h : c ∈ [' ', '\t', '\n', '\r']) : Text.isBlank c = true := by
  simp only [List.mem_cons, List.not_mem_nil, or_false] at h
  rcases h with rfl | rfl | rfl | rfl <;> rfl

theorem trimLeft_append {blank : List Char} (h : Blanks blank) {c : Char} (shown : Text.isBlank c = false)
    (rest : List Char) : Text.trimLeft (blank ++ c :: rest) = c :: rest := by
  rw [Text.trimLeft, List.dropWhile_append_of_pos fun d hd => isBlank_of_blank (h d hd),
    List.dropWhile_cons_of_neg (by simp [shown])]

/-- What is trimmed is the blanks around a text, if the text begins and ends with none. -/
theorem trim_append {before after body : List Char} {c d : Char} (hb : Blanks before) (ha : Blanks after)
    (first : Text.isBlank c = false) (last : Text.isBlank d = false) :
    Text.trim (before ++ (c :: (body ++ [d]) ++ after)) = c :: (body ++ [d]) := by
  have back : Blanks after.reverse := fun e he => ha e (List.mem_reverse.1 he)
  have turned : (c :: (body ++ [d]) ++ after).reverse = after.reverse ++ d :: (body.reverse ++ [c]) := by simp
  rw [Text.trim, List.cons_append, trimLeft_append hb first, ← List.cons_append, turned, trimLeft_append back last]
  simp

/-- An array is spelled in brackets. -/
theorem exists_of_spelled {items : Items} {cs : List Char} (h : (Outline.array items).Spelled cs) :
    ∃ inner, cs = '[' :: (inner ++ [']']) := by
  cases h with
  | emptyArray _ => exact ⟨_, rfl⟩
  | array _ => exact ⟨_, rfl⟩

end Texts

/-- A report in the linter's format is read as the files that it was written of. -/
theorem parse_of_isWritten {files : List FileReport} {text : List Char}
    (fit : ∀ f ∈ files, ∀ v ∈ f.violations, v.IsProper ∧ v.IsNarrow) (h : IsWritten files text) :
    parse (String.ofList text) = .ok files := by
  obtain ⟨_, ⟨before, body, after, hb, spelled, ha, rfl⟩, items, rfl, hold⟩ := h
  have read : list file (.array items) = .ok files :=
    readList_of_hold hold spelled.complete fun o ho f hf written => file_of_written (fit f hf) ho written
  have whole := outline_spelled ⟨[], body, [], nofun, spelled, nofun, (List.append_nil body).symm⟩
  obtain ⟨inner, rfl⟩ := exists_of_spelled spelled
  rw [parse, String.toList_ofList, trim_append hb ha rfl rfl, if_neg (by simp), whole]
  dsimp only
  rw [read]
  rfl

end SqlLint.Report
