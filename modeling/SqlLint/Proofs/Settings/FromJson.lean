import SqlLint.Proofs.Settings.Sources

/-! # Layers sent by the editor

An object covers a layer if it says what the object of all keys of the layer says. Where that object has a null
or a table of nulls, the member may be missing, and it may have members of other names. -/
namespace SqlLint

namespace Json

/-- A value whose integers all have 64 bits, as a message can have them. -/
inductive IsSound : Json → Prop
  | null : IsSound .null
  | bool (b : Bool) : IsSound (.bool b)
  | int (n : Int) : Word.isSigned 64 n = true ∨ Word.isUnsigned 64 n = true → IsSound (.number (.int n))
  | float (x : Double) : IsSound (.number (.float x))
  | string (s : String) : IsSound (.string s)
  | array (items : List Json) : (∀ j ∈ items, IsSound j) → IsSound (.array items)
  | object (members : List (String × Json)) : (∀ m ∈ members, IsSound m.2) → IsSound (.object members)

/-- Nothing, or nothing under any name. -/
inductive IsSilent : Json → Prop
  | null : IsSilent .null
  | object (members : List (String × Json)) : (∀ m ∈ members, IsSilent m.2) → IsSilent (.object members)

/-- The second value says what the first one says. -/
inductive Covered : Json → Json → Prop
  | same (j : Json) : Covered j j
  | object {known members : List (String × Json)} :
    (∀ k ∈ known, IsSilent k.2 ∨ k.1 ∈ members.map Prod.fst) →
    (∀ k ∈ known, ∀ m ∈ members, m.1 = k.1 → Covered k.2 m.2) →
    (∀ m ∈ members, m.1 ∉ known.map Prod.fst → IsSound m.2) → Covered (.object known) (.object members)

variable {known members : List (String × Json)} {j j' : Json}

/-- What covers an object is an object with these members. -/
theorem Covered.exists_members (once : (known.map Prod.fst).Nodup) (h : Covered (.object known) j) :
    ∃ members, j = .object members ∧ (∀ k ∈ known, IsSilent k.2 ∨ k.1 ∈ members.map Prod.fst) ∧
      (∀ k ∈ known, ∀ m ∈ members, m.1 = k.1 → Covered k.2 m.2) ∧
      ∀ m ∈ members, m.1 ∉ known.map Prod.fst → IsSound m.2 := by
  cases h with
  | object there agree beside => exact ⟨_, rfl, there, agree, beside⟩
  | same =>
    refine ⟨known, rfl, fun k hk => .inr (List.mem_map_of_mem hk), fun k hk m hm same => ?_,
      fun m hm other => absurd (List.mem_map_of_mem hm) other⟩
    obtain rfl := List.inj_on_of_nodup_map once hm hk same
    exact .same m.2

theorem Covered.eq (h : Covered j j') (plain : ∀ members, j ≠ .object members) : j' = j := by
  cases h with
  | same => rfl
  | object => exact absurd rfl (plain _)

end Json

namespace Setting

def json : Option Setting → Json
  | none => .null
  | some (.text s) => .string s
  | some (.texts ss) => .strings ss
  | some (.bool b) => .bool b
  | some (.number n) => .nat n

end Setting

namespace Datum

theorem ofJsonMembers_eq_map (members : List (String × Json)) :
    ofJsonMembers members = members.map fun m => (m.1, ofJson m.2) := by
  induction members with
  | nil => rfl
  | cons m members ih =>
    obtain ⟨k, v⟩ := m
    rw [ofJsonMembers, ih]
    rfl

theorem ofJsonItems_eq_map (items : List Json) : ofJsonItems items = items.map ofJson := by
  induction items with
  | nil => rfl
  | cons j items ih =>
    rw [ofJsonItems, ih]
    rfl

theorem ofJson_json (o : Option Setting) : ofJson (Setting.json o) = Setting.datum o := by
  cases o with
  | none => rfl
  | some s =>
    cases s with
    | texts ss =>
      rw [Setting.json, Json.strings, ofJson, ofJsonItems_eq_map, List.map_map]
      rfl
    | _ => rfl

end Datum

namespace Layer

theorem skipItems_of_forall {items : List Json} (h : ∀ j ∈ items, skip (Datum.ofJson j) = .ok ()) :
    skipItems (Datum.ofJsonItems items) = .ok () := by
  induction items with
  | nil => rfl
  | cons j items ih =>
    rw [Datum.ofJsonItems, skipItems, h j List.mem_cons_self]
    exact ih fun j hj => h j (List.mem_cons_of_mem _ hj)

theorem skipEntries_of_forall {members : List (String × Json)} (h : ∀ m ∈ members, skip (Datum.ofJson m.2) = .ok ()) :
    skipEntries (Datum.ofJsonMembers members) = .ok () := by
  induction members with
  | nil => rfl
  | cons m members ih =>
    rw [Datum.ofJsonMembers, skipEntries, h m List.mem_cons_self]
    exact ih fun m hm => h m (List.mem_cons_of_mem _ hm)

/-- A value that a message can have can be passed over. -/
theorem skip_of_isSound {j : Json} (h : j.IsSound) : skip (Datum.ofJson j) = .ok () := by
  induction h with
  | null | bool | float | string => rfl
  | int n fit =>
    have signed : Word.size (64 - 1) ≤ Word.size (128 - 1) := by decide
    have unsigned : Word.size 64 ≤ Word.size 128 := by decide
    have known : isKnown n = true := by
      simp only [isKnown, Word.isSigned, Word.isUnsigned, Bool.or_eq_true, Bool.and_eq_true, decide_eq_true_eq] at fit ⊢
      omega
    rw [Datum.ofJson, skip, if_pos known]
  | array items _ ih =>
    rw [Datum.ofJson, skip]
    exact skipItems_of_forall ih
  | object members _ ih =>
    rw [Datum.ofJson, skip]
    exact skipEntries_of_forall ih

def fieldsJson (fields : Fields) : List (String × Json) := fields.map fun f => (f.1, Setting.json f.2)

def tablesJson (tables : List (String × Fields)) : List (String × Json) :=
  tables.map fun t => (t.1, .mk (fieldsJson t.2))

/-- The object of all keys, with null for what is not set. -/
def toJson (l : Layer) : Json := .mk (fieldsJson l.root ++ tablesJson l.tables)

section Decoding

variable {l : Layer} {fields : Fields} {members : List (String × Json)}

theorem keys_fieldsJson (fields : Fields) : (fieldsJson fields).map Prod.fst = fields.map Prod.fst := by
  rw [fieldsJson, List.map_map]
  rfl

theorem keys_toJson (l : Layer) : (fieldsJson l.root ++ tablesJson l.tables).map Prod.fst = Layer.fields := by
  rw [List.map_append, keys_fieldsJson, tablesJson, List.map_map]
  rfl

theorem json_ne_object (o : Option Setting) (members : List (String × Json)) : Setting.json o ≠ .object members := by
  rcases o with _ | _ | _ | _ | _ <;> nofun

theorem ne_silent_json (s : Setting) : ¬ (Setting.json (some s)).IsSilent := by
  intro silent
  cases s <;> cases silent

/-- A member with a key is what the editor says of the key. -/
theorem datum_of_covered {o : Option Setting} {j : Json} (h : (Setting.json o).Covered j) :
    Datum.ofJson j = Setting.datum o := by
  rw [h.eq (json_ne_object o), Datum.ofJson_json]

theorem mem_ofJsonMembers {e : String × Datum} (h : e ∈ Datum.ofJsonMembers members) :
    ∃ j, (e.1, j) ∈ members ∧ e.2 = Datum.ofJson j := by
  rw [Datum.ofJsonMembers_eq_map] at h
  obtain ⟨m, mem, rfl⟩ := List.mem_map.1 h
  exact ⟨m.2, mem, rfl⟩

theorem keys_ofJsonMembers (members : List (String × Json)) :
    (Datum.ofJsonMembers members).map Prod.fst = members.map Prod.fst := by
  rw [Datum.ofJsonMembers_eq_map, List.map_map]
  rfl

/-- An object that covers a table tells what its fields are set to. -/
theorem tells_of_covered (once : (fields.map Prod.fst).Nodup) {j : Json} (h : (Json.mk (fieldsJson fields)).Covered j) :
    ∃ entries, Datum.ofJson j = .table entries ∧ (∀ e ∈ entries, Tells fields e) ∧ Complete fields entries := by
  have perm : (Assoc.ofList (fieldsJson fields)).Perm (fieldsJson fields) :=
    Assoc.ofList_perm (by rwa [keys_fieldsJson])
  have keys := perm.map Prod.fst
  rw [keys_fieldsJson] at keys
  obtain ⟨members, rfl, there, agree, beside⟩ := h.exists_members (keys.nodup_iff.2 once)
  refine ⟨Datum.ofJsonMembers members, rfl, fun e mem => ?_, fun key s field => ?_⟩
  · obtain ⟨j, mem, value⟩ := mem_ofJsonMembers mem
    by_cases named : e.1 ∈ fields.map Prod.fst
    · obtain ⟨f, field, same⟩ := List.mem_map.1 named
      have known : (e.1, Setting.json f.2) ∈ fieldsJson fields := by
        rw [← same]
        exact List.mem_map_of_mem field
      refine .field f.2 (same ▸ field) ?_
      rw [value, datum_of_covered (agree _ (perm.mem_iff.2 known) _ mem rfl)]
    · refine .beside named ?_
      rw [value]
      exact skip_of_isSound (beside _ mem fun known => named (keys.mem_iff.1 known))
  · have known : (key, Setting.json (some s)) ∈ fieldsJson fields := List.mem_map_of_mem field
    rw [keys_ofJsonMembers]
    exact (there _ (perm.mem_iff.2 known)).resolve_left (ne_silent_json s)

theorem nodup_of_table {name : String} (table : (name, fields) ∈ l.tables) : (fields.map Prod.fst).Nodup := by
  simp only [tables, List.mem_cons, Prod.mk.injEq, List.not_mem_nil, or_false] at table
  rcases table with ⟨rfl, rfl⟩ | ⟨rfl, rfl⟩ | ⟨rfl, rfl⟩ <;> simp

theorem unset_of_isSilent (once : (fields.map Prod.fst).Nodup) (silent : (Json.mk (fieldsJson fields)).IsSilent) :
    ∀ f ∈ fields, f.2 = none := by
  intro f field
  have perm : (Assoc.ofList (fieldsJson fields)).Perm (fieldsJson fields) :=
    Assoc.ofList_perm (by rwa [keys_fieldsJson])
  have known : (f.1, Setting.json f.2) ∈ fieldsJson fields := List.mem_map_of_mem field
  cases silent with
  | object _ each =>
    have nothing := each _ (perm.mem_iff.2 known)
    cases value : f.2 with
    | none => rfl
    | some s =>
      rw [value] at nothing
      exact absurd nothing (ne_silent_json s)

/-- An object that covers a layer describes it. -/
theorem isDescribed_of_covered {given : Json} (h : l.toJson.Covered given) :
    ∃ entries, Datum.ofJson given = .table entries ∧ IsDescribed l entries := by
  have nodup : Layer.fields.Nodup := by decide
  have perm : (Assoc.ofList (fieldsJson l.root ++ tablesJson l.tables)).Perm (fieldsJson l.root ++ tablesJson l.tables) :=
    Assoc.ofList_perm (by rwa [keys_toJson])
  have keys := perm.map Prod.fst
  rw [keys_toJson] at keys
  obtain ⟨members, rfl, there, agree, beside⟩ := h.exists_members (keys.nodup_iff.2 nodup)
  have at_root {key : String} {o : Option Setting} (field : (key, o) ∈ l.root) :
      (key, Setting.json o) ∈ Assoc.ofList (fieldsJson l.root ++ tablesJson l.tables) :=
    perm.mem_iff.2 (List.mem_append_left _ (List.mem_map_of_mem field))
  have at_table {name : String} {fields : Fields} (table : (name, fields) ∈ l.tables) :
      (name, Json.mk (fieldsJson fields)) ∈ Assoc.ofList (fieldsJson l.root ++ tablesJson l.tables) :=
    perm.mem_iff.2 (List.mem_append_right _ (List.mem_map_of_mem table))
  refine ⟨Datum.ofJsonMembers members, rfl, fun e mem => ?_, fun key s field => ?_, fun name fields table => ?_⟩
  · obtain ⟨j, mem, value⟩ := mem_ofJsonMembers mem
    by_cases named : e.1 ∈ Layer.fields
    · rw [← fields_eq l, List.mem_append, List.mem_map, List.mem_map] at named
      rcases named with ⟨⟨key, o⟩, field, rfl⟩ | ⟨⟨name, fields⟩, table, rfl⟩
      · exact .field o field (value.trans (datum_of_covered (agree _ (at_root field) _ mem rfl)))
      · obtain ⟨entries, same, told, complete⟩ :=
          tells_of_covered (nodup_of_table table) (agree _ (at_table table) _ mem rfl)
        exact .table fields entries table (value.trans same) told complete
    · refine .beside named (value ▸ skip_of_isSound (beside _ mem fun known => named (keys.mem_iff.1 known)))
  · rw [keys_ofJsonMembers]
    exact (there _ (at_root field)).resolve_left (ne_silent_json s)
  · rw [keys_ofJsonMembers]
    exact (there _ (at_table table)).symm.imp_right (unset_of_isSilent (nodup_of_table table))

/-- What covers a layer is decoded as this layer, as such or beside other members of an object. -/
theorem ofJson_of_covered (timeout : ∀ n, l.timeout = some n → n < 2 ^ 63) {given : Json} (h : l.toJson.Covered given) :
    (given.get? "sqlfluff" = none → ofJson given = .ok l) ∧
      ∀ outer : Json, outer.get? "sqlfluff" = some given → ofJson outer = .ok l := by
  obtain ⟨entries, same, described⟩ := isDescribed_of_covered h
  have decoded : decode .json (Datum.ofJson given) = .ok l := same ▸ decode_of_isDescribed timeout described
  refine ⟨fun bare => ?_, fun outer nested => ?_⟩
  · rwa [ofJson, bare]
  · rwa [ofJson, nested]

end Decoding

end Layer
end SqlLint
