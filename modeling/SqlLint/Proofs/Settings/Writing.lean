import SqlLint.Proofs.Files.Saving
import SqlLint.Proofs.Settings.Rules

/-! # Writing settings files

What a write does to the tree, whether it succeeds or not, and that it succeeds where a file can be
written. -/
namespace SqlLint

/-- A rule is added to the list that is read, and nothing is written if none is read. -/
theorem Store.exclude_apply {σ : Type} (store : Store σ) (scope : Scope) (rule : String) (s : σ) :
    store.exclude scope rule s =
      match store.rules scope s with
      | (.error e, s') => (.error e, s')
      | (.ok rules, s') =>
        ((store.setRules scope (Rule.exclude rules rule) s').1.map fun _ => Rule.exclude rules rule,
          (store.setRules scope (Rule.exclude rules rule) s').2) := by
  rw [Store.exclude, fallible_bind]
  generalize store.rules scope s = read
  obtain ⟨e | rules, s'⟩ := read
  · rfl
  · dsimp only
    rw [fallible_bind]
    generalize store.setRules scope (Rule.exclude rules rule) s' = written
    obtain ⟨e | u, s''⟩ := written <;> rfl

/-- A list that can be read and set is answered with the rule. -/
theorem Store.exclude_eq_ok {σ : Type} {store : Store σ} {scope : Scope} {rule : String} {rules : List String}
    {s s' s'' : σ} (read : store.rules scope s = (.ok rules, s'))
    (written : store.setRules scope (Rule.exclude rules rule) s' = (.ok (), s'')) :
    store.exclude scope rule s = (.ok (Rule.exclude rules rule), s'') := by
  rw [Store.exclude_apply, read]
  dsimp only
  rw [written]
  rfl

/-- A list that is answered was read and set. -/
theorem Store.exists_of_exclude {σ : Type} {store : Store σ} {scope : Scope} {rule : String} {list : List String}
    {s s'' : σ} (h : store.exclude scope rule s = (.ok list, s'')) :
    ∃ rules s', store.rules scope s = (.ok rules, s') ∧ list = Rule.exclude rules rule ∧
      store.setRules scope list s' = (.ok (), s'') := by
  obtain ⟨rules, s', read, h⟩ := exists_of_fallible_bind h
  obtain ⟨_, s₂, written, h⟩ := exists_of_fallible_bind h
  cases h
  exact ⟨rules, s', read, rfl, written⟩

namespace SettingsFiles

variable {t t' : Tree} {files : SettingsFiles} {scope : Scope} {path : String} {rules : List String} {l : Layer}

theorem onFiles_apply {α : Type} (action : Tree.Action α) (t : Tree) : onFiles action t =
    match action t with
    | (.ok a, t') => (.ok a, t')
    | (.error e, t') => (.error (.io e.message), t') := by
  have h : onFiles action t = ((action t).1.mapError fun e => SettingsError.io e.message, (action t).2) := rfl
  rw [h]
  generalize action t = p
  obtain ⟨_ | _, t'⟩ := p <;> rfl

/-- Puts a text into a file, and makes the directories above it. -/
def save (path : String) (text : String) : StoreM Tree Unit := do
  if let some parent := Path.parent? path then
    onFiles (Tree.makeDirectories (parent.length + 1) parent)
  onFiles (Tree.write path (.text text))

/-- The text that is edited: none if it cannot be read. -/
def textAt (t : Tree) (path : String) : Except IoError String :=
  match t.readText path with
  | .error .notFound => .ok ""
  | r => r

theorem writeRules_apply (path : String) (rules : List String) (t : Tree) : writeRules path rules t =
    match textAt t path with
    | .error e => (.error (.io e.message), t)
    | .ok text =>
      match Toml.writeList rulesKey rules text.toList with
      | .error f => (.error (.parse path f.message), t)
      | .ok written => save path (String.ofList written) t := by
  unfold writeRules
  rw [fallible_bind, fallible_get, textAt]
  dsimp only
  have hedit (text : String) : ((match Toml.writeList rulesKey rules text.toList with
      | .error f => throw (.parse path f.message)
      | .ok written => save path (String.ofList written)) : StoreM Tree Unit) t =
      match Toml.writeList rulesKey rules text.toList with
      | .error f => (.error (.parse path f.message), t)
      | .ok written => save path (String.ofList written) t := by
    cases Toml.writeList rulesKey rules text.toList <;> rfl
  cases t.readText path with
  | ok text => exact hedit text
  | error e =>
    cases e with
    | notFound => exact hedit ""
    | _ => rfl

theorem path_none (h : files.path? scope = none) (t : Tree) :
    files.path scope t = (.error (.scopeUnavailable scope), t) := by
  rw [SettingsFiles.path, h]
  rfl

theorem path_some (h : files.path? scope = some path) (t : Tree) : files.path scope t = (.ok path, t) := by
  rw [SettingsFiles.path, h]
  rfl

theorem rules_apply (hp : files.path? scope = some path) (t : Tree) : files.store.rules scope t =
    ((Layer.ofFile t path).map fun l => l.excludeRules.getD [], t) := by
  rw [store]
  dsimp only
  rw [fallible_bind, path_some hp]
  dsimp only
  rw [fallible_bind, fallible_get]
  dsimp only
  cases Layer.ofFile t path <;> rfl

theorem rules_none (hp : files.path? scope = none) (t : Tree) :
    files.store.rules scope t = (.error (.scopeUnavailable scope), t) := by
  rw [store]
  dsimp only
  rw [fallible_bind, path_none hp]

/-- Reading a list leaves the tree as it is. -/
theorem exists_of_rules (h : files.store.rules scope t = (.ok rules, t')) :
    ∃ path l, files.path? scope = some path ∧ Layer.ofFile t path = .ok l ∧ rules = l.excludeRules.getD [] ∧ t' = t := by
  cases hp : files.path? scope with
  | none =>
    rw [rules_none hp] at h
    cases h
  | some path =>
    rw [rules_apply hp] at h
    obtain ⟨answered, rfl⟩ := Prod.mk.inj h
    obtain ⟨l, read, rfl⟩ := exists_of_map answered
    exact ⟨path, l, rfl, read, rfl, rfl⟩

theorem setRules_apply (hp : files.path? scope = some path) (rules : List String) (t : Tree) :
    files.store.setRules scope rules t = writeRules path rules t := by
  rw [store]
  dsimp only
  rw [fallible_bind, path_some hp]

/-- What a tree becomes when a text is to be saved: directories are added, and the file is written or not. A file
for which there is no room is emptied. -/
inductive Saved (path text : String) (t : Tree) : Except SettingsError Unit × Tree → Prop
  | done {u : Tree} {runs : Bool} : Tree.Adds (fun _ => True) t u → u.locate path = .ok (Path.place t.here path) →
    u.target? (Path.place t.here path) = some (.free, runs) →
    Saved path text t (.ok (), u.put (Path.place t.here path) (.file (.text text) .free runs))
  | failed {u : Tree} {e : SettingsError} : Tree.Adds (fun _ => True) t u → Saved path text t (.error e, u)
  | emptied {t' : Tree} : t.Empties path t' → Saved path text t (.error (.io IoError.noSpace.message), t')

theorem saved_write {u : Tree} (path text : String) (hu : Tree.Adds (fun _ => True) t u) :
    Saved path text t (onFiles (Tree.write path (.text text)) u) := by
  rw [onFiles_apply]
  cases hw : Tree.write path (.text text) u with
  | mk r v =>
    cases r with
    | ok x =>
      obtain ⟨hl, runs, ht, rfl⟩ := Tree.write_ok hw
      rw [hu.here] at hl ht ⊢
      exact .done hu hl ht
    | error e =>
      rcases Tree.write_error hw with rfl | ⟨rfl, runs, hl, ht, rfl⟩
      · exact .failed hu
      · rw [hu.here] at hl ht ⊢
        exact .emptied ⟨hu, hl, ht⟩

theorem saved_save (path text : String) (t : Tree) : Saved path text t (save path text t) := by
  rw [save]
  cases Path.parent? path with
  | none => exact saved_write path text (.refl _ t)
  | some parent =>
    have hadds := Tree.adds_makeDirectories (parent.length + 1) parent t
    dsimp only
    rw [fallible_bind, onFiles_apply]
    generalize Tree.makeDirectories (parent.length + 1) parent t = p at hadds ⊢
    obtain ⟨_ | _, u⟩ := p
    · exact .failed hadds
    · exact saved_write path text hadds

/-- A text is saved where a file can be written. -/
theorem save_ok (h : t.CanWrite path) (text : String) : ∃ u runs, save path text t =
    (.ok (), u.put (Path.place t.here path) (.file (.text text) .free runs)) ∧
      Tree.Adds (· ∈ Path.wayTo t.here path) t u ∧ u.locate path = .ok (Path.place t.here path) ∧
      u.target? (Path.place t.here path) = some (.free, runs) := by
  obtain ⟨parent, u, hp, hm, hadds, hl⟩ := h.makeDirectories
  obtain ⟨runs, ht, hw⟩ := h.write hadds hl (.text text)
  refine ⟨u, runs, ?_, hadds, hl, ht⟩
  rw [save, hp]
  dsimp only
  rw [fallible_bind, onFiles_apply, hm]
  dsimp only
  rw [onFiles_apply, hw]

/-! ## What stands at a path -/

/-- There is no file, or a text that both readers take. -/
inductive Holds (t : Tree) (path : String) : Layer → Prop
  | missing : t.node? (Path.place t.here path) = none → Holds t path {}
  | text {text : String} {l : Layer} : t.readText path = .ok text → Layer.IsEditable text l → Holds t path l

theorem readText_of_canWrite (hw : t.CanWrite path) (hn : t.node? (Path.place t.here path) = none) :
    t.readText path = .error .notFound := by
  refine Tree.readText_of_missing (p := Path.place t.here path) ?_ hn
  rw [Tree.locate, Tree.follow_of_isTaken hw.taken]
  exact Tree.walk_eq_or (fun q hq => (hw.way q hq).imp_right And.left) hw.taken.names_le

theorem textAt_of_holds (h : Holds t path l) (hw : t.CanWrite path) :
    ∃ text, textAt t path = .ok text ∧ Layer.IsEditable text l := by
  cases h with
  | missing hn => exact ⟨"", by rw [textAt, readText_of_canWrite hw hn], Layer.isEditable_empty⟩
  | @text text l hr he => exact ⟨text, by rw [textAt, hr], he⟩

/-- The text that is read for the list is the one that is read for the edit. -/
theorem exists_textAt (h : Layer.ofFile t path = .ok l) :
    ∃ text, textAt t path = .ok text ∧ Layer.ofToml text = .ok l := by
  rw [Layer.ofFile] at h
  rw [textAt]
  cases hr : t.readText path with
  | ok text =>
    rw [hr] at h
    dsimp only at h
    cases hl : Layer.ofToml text with
    | ok l' =>
      rw [hl] at h
      cases h
      exact ⟨text, rfl, hl⟩
    | error f =>
      rw [hl] at h
      cases h
  | error e =>
    rw [hr] at h
    cases e with
    | notFound =>
      cases h
      exact ⟨"", rfl, Layer.isEditable_empty.layer⟩
    | _ => cases h

theorem ofFile_of_holds (h : Holds t path l) (hw : t.CanWrite path) : Layer.ofFile t path = .ok l := by
  cases h with
  | missing hn => rw [Layer.ofFile, readText_of_canWrite hw hn]
  | @text text l hr he =>
    rw [Layer.ofFile, hr]
    dsimp only
    rw [he.layer]

section Put

variable {u : Tree} {other : String} {runs : Bool}

/-- A text that was saved can be read. -/
theorem readText_put (hl : u.locate path = .ok (Path.place u.here path))
    (ht : u.target? (Path.place u.here path) = some (.free, runs)) (text : String) :
    (u.put (Path.place u.here path) (.file (.text text) .free runs)).readText path = .ok text := by
  have hn := Tree.not_isPassable_of_target? ht
  rw [Tree.readText_eq_ok_iff]
  refine ⟨Tree.locate_mono (t := u) rfl (fun q hq => Tree.isPassable_put hn hq) hl, ?_⟩
  have hself := Tree.node?_put_self u (Tree.ne_nil_of_target? ht) (.file (.text text) .free runs)
  exact congrArg (Option.map Tree.Node.read) hself

/-- What stands at another path stays. -/
theorem Holds.put (h : Holds t other l) (hadds : Tree.Adds (· ∈ Path.wayTo t.here path) t u)
    (hn : u.isPassable (Path.place t.here path) = false) (hne : Path.place t.here other ≠ Path.place t.here path)
    (hway : Path.place t.here other ∉ Path.wayTo t.here path) (node : Tree.Node) :
    Holds (u.put (Path.place t.here path) node) other l := by
  have hnode : (u.put (Path.place t.here path) node).node? (Path.place t.here other) =
      t.node? (Path.place t.here other) := by
    rw [Tree.node?_put_of_ne u hne, hadds.node?_eq hway]
  have hhere : (u.put (Path.place t.here path) node).here = t.here := hadds.here
  cases h with
  | missing hm =>
    refine .missing ?_
    rw [hhere, hnode, hm]
  | @text text l hr he =>
    exact .text (Tree.readText_mono hhere (fun q hq => Tree.isPassable_put hn (hadds.isPassable hq)) hnode hr) he

/-- A path can be written as long as no file gets in the way. -/
theorem canWrite_put (h : t.CanWrite other) (hadds : Tree.Adds (· ∈ Path.wayTo t.here path) t u)
    (ht : u.target? (Path.place t.here path) = some (.free, runs))
    (hmem : Path.place t.here other ∉ Path.wayTo t.here path)
    (hway : Path.place t.here path ∉ Path.wayTo t.here other) (content : Content) :
    (u.put (Path.place t.here path) (.file content .free runs)).CanWrite other := by
  have hhere : (u.put (Path.place t.here path) (.file content .free runs)).here = t.here := hadds.here
  have hroot := Tree.ne_nil_of_target? ht
  refine ⟨h.taken, ?_, ?_, ?_, ?_⟩
  · rw [hhere]
    exact Tree.isPassable_put (Tree.not_isPassable_of_target? ht) (hadds.isPassable h.start)
  · intro q hq
    rw [hhere] at hq
    have hne : q ≠ Path.place t.here path := by
      rintro rfl
      exact hway hq
    exact Tree.canEnter_put hroot hne (hadds.canEnter (h.way q hq))
  · rw [hhere]
    exact h.not_mem_way
  · rw [hhere]
    exact Tree.target?_put hroot (hadds.target?_eq hmem ▸ h.place)

end Put

end SettingsFiles
end SqlLint
