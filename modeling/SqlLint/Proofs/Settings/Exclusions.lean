import SqlLint.Proofs.Settings.Writing

/-! # Exclusions in settings files

A rule can be added to the list in one of two settings files, and whether or not that succeeds, no rule is lost
from either of them. That takes care where two paths lead to one file by different directories: as long as a
directory on its way is missing, a path finds no file, and once the directory is made it finds the file that the
other path has found before. -/
namespace SqlLint

/-- A file that is written at a path is found by the other path, too, if that leads to it: the directories on
its way are there, or they are made for the first path. -/
def Tree.Shows (t : Tree) (path other : String) : Prop :=
  Path.place t.here path = Path.place t.here other →
    ∀ q ∈ Path.wayTo t.here other, q ∈ Path.wayTo t.here path ∨ t.isPassable q = true

instance (t : Tree) (path other : String) : Decidable (t.Shows path other) :=
  inferInstanceAs (Decidable (_ → _))

/-- A path leads to no file for which there is no room, which would be emptied if it were written. -/
def Tree.HasRoom (t : Tree) (path : String) : Prop :=
  ∀ content runs, t.node? (Path.place t.here path) ≠ some (.file content .full runs)

theorem Tree.Adds.hasRoom {P : List String → Prop} {t t' : Tree} {path : String} (h : Adds P t t')
    (room : t.HasRoom path) : t'.HasRoom path := by
  intro content runs hf
  rw [h.here] at hf
  cases hn : t.node? (Path.place t.here path) with
  | some node => exact room content runs (hn.trans ((h.keeps _ node hn).symm.trans hf))
  | none =>
    rcases h.adds _ hn with gone | ⟨-, made⟩
    · cases gone.symm.trans hf
    · cases made.symm.trans hf

namespace SettingsFiles

variable {t : Tree} {files : SettingsFiles} {path other : String} {rule added : String} {scope : Scope}

/-- The file at a path leaves a rule out. It can be written without being emptied before. -/
structure Excludes (t : Tree) (path rule : String) : Prop where
  list : ∃ text l, t.readText path = .ok text ∧ Layer.ofToml text = .ok l ∧ rule ∈ l.excludeRules.getD []
  room : t.HasRoom path

theorem Excludes.ofFile (h : Excludes t path rule) :
    ∃ l, Layer.ofFile t path = .ok l ∧ rule ∈ l.excludeRules.getD [] := by
  obtain ⟨text, l, hr, hl, hm⟩ := h.list
  refine ⟨l, ?_, hm⟩
  rw [Layer.ofFile, hr]
  dsimp only
  rw [hl]

/-- What adding a rule to a list does to the tree: nothing, or the list with the rule is saved into the file. -/
inductive Adding (files : SettingsFiles) (scope : Scope) (rule : String) (t : Tree) :
    Except SettingsError (List String) × Tree → Prop
  | untouched (e : SettingsError) : Adding files scope rule t (.error e, t)
  | saved {path text written : String} {l : Layer} {r : Except SettingsError Unit} {t' : Tree}
    (hp : files.path? scope = some path) (read : textAt t path = .ok text)
    (edited : Layer.IsEditable written (l.withRules (Rule.exclude (l.excludeRules.getD []) rule)))
    (layer : Layer.ofToml text = .ok l) (saved : Saved path written t (r, t')) :
    Adding files scope rule t (r.map fun _ => Rule.exclude (l.excludeRules.getD []) rule, t')

theorem adding_exclude (files : SettingsFiles) (scope : Scope) (rule : String) (t : Tree) :
    Adding files scope rule t ((files.store.exclude scope rule).run t) := by
  change Adding files scope rule t (files.store.exclude scope rule t)
  rw [Store.exclude_apply]
  cases hp : files.path? scope with
  | none =>
    rw [rules_none hp]
    exact .untouched _
  | some path =>
    rw [rules_apply hp]
    cases hl : Layer.ofFile t path with
    | error e => exact .untouched e
    | ok l =>
      obtain ⟨text, ht, hlayer⟩ := exists_textAt hl
      dsimp only [Except.map]
      rw [setRules_apply hp, writeRules_apply, ht]
      dsimp only
      cases hw : Toml.writeList rulesKey (Rule.exclude (l.excludeRules.getD []) rule) text.toList with
      | error f => exact .untouched _
      | ok written =>
        have edited := Layer.isEditable_of_writeList hlayer hw
        exact .saved hp ht edited hlayer (saved_save path (String.ofList written) t)

/-- A rule that is not added leaves nothing behind but directories, or the file of the list without its text. -/
theorem Adding.cases_of_error {e : SettingsError} {t' : Tree} (adding : Adding files scope rule t (.error e, t')) :
    Tree.Adds (fun _ => True) t t' ∨
      ∃ path, files.path? scope = some path ∧ e = .io IoError.noSpace.message ∧ t.Empties path t' := by
  generalize hout : (Except.error e, t') = outcome at adding
  cases adding with
  | untouched failed =>
    cases hout
    exact .inl (.refl _ t)
  | @saved path text written l r u hp read edited layer saved =>
    cases saved with
    | done hadds => cases hout
    | failed hadds =>
      cases hout
      exact .inl hadds
    | emptied empties =>
      cases hout
      exact .inr ⟨path, hp, rfl, empties⟩

theorem here_adding {outcome : Except SettingsError (List String) × Tree}
    (adding : Adding files scope added t outcome) : outcome.2.here = t.here := by
  cases adding with
  | untouched e => rfl
  | saved hp read edited layer saved =>
    cases saved with
    | failed hadds => exact hadds.here
    | done hadds => exact hadds.here
    | emptied h => exact h.here

/-- A path finds what another path finds at the same place, if there is a way. -/
theorem Excludes.found (h : Excludes t path rule) (same : Path.place t.here path = Path.place t.here other)
    (taken : Path.IsTaken other) (way : ∀ q ∈ Path.wayTo t.here other, t.isPassable q = true) :
    Excludes t other rule := by
  obtain ⟨⟨text, l, hr, hl, hm⟩, room⟩ := h
  refine ⟨⟨text, l, ?_, hl, hm⟩, ?_⟩
  · rw [Tree.readText_eq_ok_iff] at hr ⊢
    exact ⟨Tree.locate_eq_ok_iff.2 ⟨taken, rfl, way⟩, same ▸ hr.2⟩
  · rwa [Tree.HasRoom, ← same]

/-- A list that was saved holds the rule that was added and all that it held before. -/
theorem excludes_saved {u : Tree} {written : String} {l : Layer} {runs : Bool} (hadds : Tree.Adds (fun _ => True) t u)
    (hlocate : u.locate path = .ok (Path.place t.here path))
    (htarget : u.target? (Path.place t.here path) = some (.free, runs))
    (edited : Layer.IsEditable written (l.withRules (Rule.exclude (l.excludeRules.getD []) added)))
    (hm : rule ∈ l.excludeRules.getD [] ∨ rule = added) :
    Excludes (u.put (Path.place t.here path) (.file (.text written) .free runs)) path rule := by
  rw [← hadds.here] at hlocate htarget ⊢
  refine ⟨⟨written, _, readText_put hlocate htarget written, edited.layer, Rule.mem_exclude.2 hm⟩, fun content runs' hf => ?_⟩
  have hself := Tree.node?_put_self u (Tree.ne_nil_of_target? htarget) (.file (.text written) .free runs)
  cases hself.symm.trans hf

/-- A text stays where a file is put in another place. -/
theorem Excludes.put {u : Tree} {p : List String} {node : Tree.Node} (h : Excludes u path rule)
    (hp : u.isPassable p = false) (other : Path.place u.here path ≠ p) : Excludes (u.put p node) path rule := by
  obtain ⟨⟨text, l, hr, hl, hm⟩, room⟩ := h
  have kept : (u.put p node).node? (Path.place u.here path) = u.node? (Path.place u.here path) :=
    Tree.node?_put_of_ne u other node
  refine ⟨⟨text, l, ?_, hl, hm⟩, fun content runs hf => room content runs (kept.symm.trans hf)⟩
  exact Tree.readText_mono (t := u) rfl (fun q hq => Tree.isPassable_put hp hq) kept hr

theorem Excludes.adds {u : Tree} (h : Excludes t path rule) (hadds : Tree.Adds (fun _ => True) t u) :
    Excludes u path rule := by
  obtain ⟨⟨text, l, hr, hl, hm⟩, room⟩ := h
  exact ⟨⟨text, l, hadds.readText hr, hl, hm⟩, hadds.hasRoom room⟩

/-- What a file leaves out it leaves out whichever rule is added to whichever list, provided that the list is
read from this file if it is written into it. -/
theorem Excludes.adding {outcome : Except SettingsError (List String) × Tree} (h : Excludes t path rule)
    (shared : ∀ other, files.path? scope = some other → Path.place t.here path = Path.place t.here other →
      Path.IsTaken other → Excludes t other rule)
    (adding : Adding files scope added t outcome) : Excludes outcome.2 path rule := by
  cases adding with
  | untouched e => exact h
  | @saved other text' written l' r t' hp read edited layer saved =>
    cases saved with
    | failed hadds => exact h.adds hadds
    | @done u runs hadds hlocate htarget =>
      have grown := h.adds hadds
      by_cases same : Path.place t.here path = Path.place t.here other
      · obtain ⟨text'', l'', hr'', hl'', hm''⟩ :=
          (shared other hp same (Tree.locate_eq_ok_iff.1 hlocate).1).list
        have ht : textAt t other = .ok text'' := by rw [textAt, hr'']
        obtain rfl : text'' = text' := Except.ok.inj (ht.symm.trans read)
        obtain rfl : l'' = l' := Except.ok.inj (hl''.symm.trans layer)
        obtain ⟨text, l, hr, -⟩ := grown.list
        have located := (Tree.readText_eq_ok_iff.1 hr).1
        rw [← same] at htarget ⊢
        exact excludes_saved hadds (hadds.here ▸ located) htarget edited (.inl hm'')
      · exact grown.put (Tree.not_isPassable_of_target? htarget) (hadds.here ▸ same)
    | emptied empties =>
      obtain ⟨hadds, hlocate, htarget⟩ := empties
      have grown := h.adds hadds
      refine grown.put (Tree.not_isPassable_of_target? htarget) fun same => ?_
      -- the file is there, and it is not one for which there is no room
      obtain ⟨text, l, hr, -⟩ := grown.list
      obtain ⟨node, hn, -⟩ := Option.map_eq_some_iff.1 (Tree.readText_eq_ok_iff.1 hr).2
      rcases Tree.node?_of_target? htarget with missing | ⟨content, full⟩
      · rw [← same, hn] at missing
        cases missing
      · rw [← same] at full
        exact grown.room content _ full

theorem isPassable_adding {outcome : Except SettingsError (List String) × Tree}
    (adding : Adding files scope added t outcome) {q : List String} (hq : t.isPassable q = true) :
    outcome.2.isPassable q = true := by
  cases adding with
  | untouched e => exact hq
  | saved hp read edited layer saved =>
    cases saved with
    | failed hadds => exact hadds.isPassable hq
    | done hadds hlocate htarget =>
      exact Tree.isPassable_put (Tree.not_isPassable_of_target? htarget) (hadds.isPassable hq)
    | emptied empties =>
      obtain ⟨hadds, hlocate, htarget⟩ := empties
      exact Tree.isPassable_put (Tree.not_isPassable_of_target? htarget) (hadds.isPassable hq)

/-- The file of a list leaves out what was added to the list. -/
theorem excludes_of_adding {list : List String} {t' : Tree} (adding : Adding files scope rule t (.ok list, t')) :
    ∃ path, files.path? scope = some path ∧ Excludes t' path rule := by
  generalize hout : (Except.ok list, t') = outcome at adding
  cases adding with
  | untouched e => cases hout
  | @saved path text written l r u hp read edited layer saved =>
    cases saved with
    | failed hadds => cases hout
    | emptied => cases hout
    | done hadds hlocate htarget =>
      cases hout
      exact ⟨path, hp, excludes_saved hadds hlocate htarget edited (.inr rfl)⟩

/-- What was added to a list every path leaves out that leads to its file. -/
theorem Adding.shown {outcome : Except SettingsError (List String) × Tree}
    (adding : Adding files scope rule t outcome) (h : Excludes outcome.2 path rule) (shows : t.Shows path other)
    (same : Path.place t.here path = Path.place t.here other) (taken : Path.IsTaken other) :
    Excludes outcome.2 other rule := by
  have here := here_adding adding
  refine h.found (here ▸ same) taken fun q hq => ?_
  rw [here] at hq
  obtain ⟨text, l, hr, -⟩ := h.list
  obtain ⟨-, -, way⟩ := Tree.locate_eq_ok_iff.1 (Tree.readText_eq_ok_iff.1 hr).1
  rcases shows same q hq with hq' | hq'
  · exact way q (here ▸ hq')
  · exact isPassable_adding adding hq'

end SettingsFiles
end SqlLint
