import SqlLint.Files.Tree

/-! # Walks

The names of a path say where it leads, whatever is in the tree. The tree says whether the way is open: each
name but the first is looked up in the directory that the names before it lead to. -/
namespace SqlLint

namespace Path

/-- The place that a name leads to. -/
def step (place : List String) (name : String) : List String :=
  if name = "" ∨ name = "." then place else if name = ".." then place.dropLast else place ++ [name]

/-- The place that names lead to. -/
def goal (place : List String) (names : List String) : List String := names.foldl step place

/-- The places in which names are looked up. -/
def way : List String → List String → List (List String)
  | _, [] => []
  | place, name :: names => place :: way (step place name) names

/-- The places in which names are looked up, and the one that they lead to. -/
def trail (place : List String) (names : List String) : List (List String) := way place names ++ [goal place names]

/-- Where a path starts. -/
def start (here : List String) (path : String) : List String := if isAbsolute path then [] else here

/-- The place that a path leads to. -/
def place (here : List String) (path : String) : List String := goal (start here path) (names path)

/-- The places in which the names of a path are looked up. -/
def wayTo (here : List String) (path : String) : List (List String) := way (start here path) (names path)

/-- A path that a system takes: neither the path nor a name in it is too long. -/
structure IsTaken (path : String) : Prop where
  ne_empty : path.isEmpty = false
  no_nul : path.toList.contains '\x00' = false
  length_le : path.utf8ByteSize ≤ Tree.pathLimit
  names_le : ∀ name ∈ names path, name.utf8ByteSize ≤ Tree.nameLimit

variable {here : List String}

theorem goal_append (place names more : List String) : goal place (names ++ more) = goal (goal place names) more :=
  List.foldl_append

theorem way_append (place names more : List String) :
    way place (names ++ more) = way place names ++ way (goal place names) more := by
  induction names generalizing place with
  | nil => rfl
  | cons name names ih => exact congrArg (place :: ·) (ih (step place name))

theorem way_concat (place names : List String) (name : String) : way place (names ++ [name]) = trail place names :=
  way_append place names [name]

theorem trail_cons (place names : List String) (name : String) :
    trail place (name :: names) = place :: trail (step place name) names := rfl

theorem start_mem_trail (place names : List String) : place ∈ trail place names := by
  cases names with
  | nil => exact List.mem_singleton.2 rfl
  | cons name names => exact List.mem_cons_self

theorem goal_mem_trail (place names : List String) : goal place names ∈ trail place names :=
  List.mem_append_right _ (List.mem_singleton.2 rfl)

end Path

namespace Tree
open SqlLint.Path

/-- At a place there is a directory that may be entered. -/
def isPassable (t : Tree) (place : List String) : Bool :=
  match t.node? place with
  | some (.directory access) => access ≠ .hidden
  | _ => false

section Walk

variable {t t' : Tree} {place p : List String} {names : List String} {path : String}

theorem isPassable_iff : t.isPassable p = true ↔ ∃ access, access ≠ .hidden ∧ t.node? p = some (.directory access) := by
  rw [isPassable]
  cases t.node? p with
  | none => simp
  | some node => cases node <;> simp

theorem isPassable_of_directory (h : t.node? p = some .directory) : t.isPassable p = true :=
  isPassable_iff.2 ⟨.free, nofun, h⟩

/-- A walk gets where its names lead if there are directories on the way that may be entered. -/
theorem walk_eq_ok_iff : t.walk place names = .ok p ↔ p = goal place names ∧
    (∀ q ∈ way place names, t.isPassable q = true) ∧ ∀ name ∈ names, name.utf8ByteSize ≤ nameLimit := by
  induction names generalizing place with
  | nil =>
    rw [walk]
    constructor
    · intro h
      cases h
      exact ⟨rfl, List.forall_mem_nil _, List.forall_mem_nil _⟩
    · rintro ⟨rfl, -, -⟩
      rfl
  | cons name names ih =>
    rw [walk, way, List.forall_mem_cons, List.forall_mem_cons, isPassable]
    cases hn : t.node? place with
    | none => simp
    | some node =>
      cases node with
      | file content access runs => simp
      | directory access =>
        dsimp only
        by_cases hidden : access = .hidden
        · rw [if_pos hidden]
          simp [hidden]
        · rw [if_neg hidden]
          by_cases hlong : nameLimit < name.utf8ByteSize
          · rw [if_pos hlong]
            simp [Nat.not_le.2 hlong]
          · rw [if_neg hlong]
            have hstep : t.walk (step place name) names = .ok p ↔ _ := ih
            rw [step] at hstep
            rw [hstep]
            simp [goal, step, hidden, Nat.le_of_not_lt hlong]

/-- A walk that nothing bars gets where it leads, or something is missing. -/
theorem walk_eq_or (hw : ∀ q ∈ way place names, t.isPassable q = true ∨ t.node? q = none)
    (hn : ∀ name ∈ names, name.utf8ByteSize ≤ nameLimit) :
    t.walk place names = .ok (goal place names) ∨ t.walk place names = .error .notFound := by
  induction names generalizing place with
  | nil => exact .inl rfl
  | cons name names ih =>
    rw [way, List.forall_mem_cons] at hw
    rw [List.forall_mem_cons] at hn
    rw [walk]
    rcases hw.1 with enters | missing
    · obtain ⟨access, shown, hp⟩ := isPassable_iff.1 enters
      rw [hp]
      dsimp only
      rw [if_neg shown, if_neg (Nat.not_lt.2 hn.1)]
      exact ih hw.2 hn.2
    · rw [missing]
      exact .inr rfl

theorem follow_of_isTaken (h : IsTaken path) (names : List String) :
    t.follow path names = t.walk (start t.here path) names := by
  rw [follow, h.ne_empty, h.no_nul]
  simp [Nat.not_lt.2 h.length_le, start]

/-- Where a path is located, and what it takes to locate it. -/
theorem locate_eq_ok_iff : t.locate path = .ok p ↔ IsTaken path ∧ p = Path.place t.here path ∧
    ∀ q ∈ way (start t.here path) (Path.names path), t.isPassable q = true := by
  constructor
  · intro h
    rw [locate, follow] at h
    split at h
    · cases h
    · next hempty =>
      split at h
      · cases h
      · next hnul =>
        split at h
        · cases h
        · next hlen =>
          obtain ⟨hp, hw, hn⟩ := walk_eq_ok_iff.1 h
          exact ⟨⟨by simpa using hempty, by simpa using hnul, Nat.le_of_not_lt hlen, hn⟩, hp, hw⟩
  · rintro ⟨ht, hp, hw⟩
    rw [locate, follow_of_isTaken ht]
    exact walk_eq_ok_iff.2 ⟨hp, hw, ht.names_le⟩

/-- A text is read where a path is located. -/
theorem readText_eq_ok_iff {s : String} : t.readText path = .ok s ↔
    t.locate path = .ok (Path.place t.here path) ∧
      (t.node? (Path.place t.here path)).map Node.read = some (.ok (.text s)) := by
  rw [readText, read, find]
  cases hl : t.locate path with
  | error e => simp [bind, Except.bind]
  | ok p =>
    obtain ⟨-, rfl, -⟩ := locate_eq_ok_iff.1 hl
    cases hn : t.node? (Path.place t.here path) with
    | none => simp [bind, Except.bind, hn]
    | some node =>
      cases hr : node.read with
      | error e => simp [bind, Except.bind, hn, hr]
      | ok content => cases content <;> simp [bind, Except.bind, hn, hr]

/-- Nothing is found where nothing is, or where the way ends. -/
theorem readText_of_missing (h : t.locate path = .ok p ∨ t.locate path = .error .notFound)
    (hn : t.node? (Path.place t.here path) = none) : t.readText path = .error .notFound := by
  rw [readText, read, find]
  rcases h with h | h
  · obtain ⟨-, rfl, -⟩ := locate_eq_ok_iff.1 h
    rw [h]
    simp only [bind, Except.bind]
    rw [hn]
  · rw [h]
    rfl

end Walk

/-! ## Trees that grow -/

/-- All that is in a tree is in another one, which may have more directories in some places. -/
structure Adds (P : List String → Prop) (t t' : Tree) : Prop where
  here : t'.here = t.here
  keeps : ∀ q node, t.node? q = some node → t'.node? q = some node
  adds : ∀ q, t.node? q = none → t'.node? q = none ∨ (P q ∧ t'.node? q = some .directory)

/-- A directory is at a place, or can be made there. -/
def CanEnter (t : Tree) (q : List String) : Prop :=
  t.isPassable q = true ∨ (t.node? q = none ∧ t.accessAbove q = .free)

instance (t : Tree) (q : List String) : Decidable (t.CanEnter q) := inferInstanceAs (Decidable (_ ∨ _))

section Adds

variable {P : List String → Prop} {t t' u : Tree} {q : List String} {path : String}

theorem Adds.refl (P : List String → Prop) (t : Tree) : Adds P t t := ⟨rfl, fun _ _ h => h, fun _ h => .inl h⟩

theorem Adds.trans (h : Adds P t t') (h' : Adds P t' u) : Adds P t u := by
  refine ⟨h'.here.trans h.here, fun q node hq => h'.keeps q node (h.keeps q node hq), fun q hq => ?_⟩
  rcases h.adds q hq with hn | ⟨hp, hd⟩
  · exact h'.adds q hn
  · exact .inr ⟨hp, h'.keeps q _ hd⟩

theorem Adds.mono {Q : List String → Prop} (h : Adds P t t') (hpq : ∀ q, P q → Q q) : Adds Q t t' :=
  ⟨h.here, h.keeps, fun q hq => (h.adds q hq).imp_right fun hd => ⟨hpq q hd.1, hd.2⟩⟩

theorem adds_put_directory (hp : P q) (hn : t.node? q = none) : Adds P t (t.put q .directory) := by
  have hne : q ≠ [] := by
    rintro rfl
    cases hn
  refine ⟨rfl, fun r node hr => ?_, fun r hr => ?_⟩
  · have hrq : r ≠ q := by
      rintro rfl
      rw [hn] at hr
      cases hr
    rw [node?_put_of_ne t hrq, hr]
  · by_cases hrq : r = q
    · subst hrq
      exact .inr ⟨hp, node?_put_self t hne .directory⟩
    · rw [node?_put_of_ne t hrq]
      exact .inl hr

/-- Where nothing may be added everything stays as it is. -/
theorem Adds.node?_eq (h : Adds P t t') (hq : ¬ P q) : t'.node? q = t.node? q := by
  cases hn : t.node? q with
  | some node => exact h.keeps q node hn
  | none =>
    rcases h.adds q hn with hn' | ⟨hp, -⟩
    · exact hn'
    · exact absurd hp hq

theorem Adds.isPassable (h : Adds P t t') (hq : t.isPassable q = true) : t'.isPassable q = true := by
  obtain ⟨access, shown, hd⟩ := isPassable_iff.1 hq
  exact isPassable_iff.2 ⟨access, shown, h.keeps q _ hd⟩

/-- In directories that are new everything can be made, as in those that are missing. -/
theorem Adds.accessAbove_eq (h : Adds P t t') (q : List String) : t'.accessAbove q = t.accessAbove q := by
  rw [accessAbove, accessAbove]
  cases hn : t.node? q.dropLast with
  | some node => rw [h.keeps _ node hn]
  | none =>
    rcases h.adds _ hn with hn' | ⟨-, hd⟩
    · rw [hn']
    · rw [hd]
      rfl

theorem Adds.canEnter (h : Adds P t t') (hq : t.CanEnter q) : t'.CanEnter q := by
  rcases hq with enters | ⟨missing, access⟩
  · exact .inl (h.isPassable enters)
  · rcases h.adds q missing with missing' | ⟨-, hd⟩
    · exact .inr ⟨missing', (h.accessAbove_eq q).trans access⟩
    · exact .inl (isPassable_of_directory hd)

/-- A file is written as before where nothing may be added. -/
theorem Adds.target?_eq (h : Adds P t t') (hq : ¬ P q) : t'.target? q = t.target? q := by
  rw [target?, target?, h.node?_eq hq, h.accessAbove_eq]

/-- A file is written where one is, or where nothing is. -/
theorem node?_of_target? {access : Access} {runs : Bool} (h : t.target? q = some (access, runs)) :
    t.node? q = none ∨ ∃ content, t.node? q = some (.file content access runs) := by
  rw [target?] at h
  cases hn : t.node? q with
  | none => exact .inl rfl
  | some node =>
    rw [hn] at h
    cases node with
    | directory access => cases h
    | file content access runs =>
      cases h
      exact .inr ⟨content, rfl⟩

theorem not_isPassable_of_target? {access : Access} {runs : Bool} (h : t.target? q = some (access, runs)) :
    t.isPassable q = false := by
  rw [Tree.isPassable]
  rcases node?_of_target? h with hn | ⟨content, hn⟩ <;> rw [hn]

theorem ne_nil_of_target? {target : Access × Bool} (h : t.target? q = some target) : q ≠ [] := by
  rintro rfl
  cases h

/-- What takes the place of no directory leaves the directories as they are. -/
theorem isPassable_put {p : List String} {node : Node} (hp : t.isPassable p = false) (hq : t.isPassable q = true) :
    (t.put p node).isPassable q = true := by
  have hne : q ≠ p := by
    rintro rfl
    rw [hp] at hq
    cases hq
  rwa [Tree.isPassable, node?_put_of_ne t hne]

theorem locate_mono (hhere : t'.here = t.here) (hd : ∀ q, t.isPassable q = true → t'.isPassable q = true)
    (h : t.locate path = .ok q) : t'.locate path = .ok q := by
  obtain ⟨ht, rfl, hw⟩ := locate_eq_ok_iff.1 h
  rw [locate_eq_ok_iff, hhere]
  exact ⟨ht, rfl, fun r hr => hd r (hw r hr)⟩

/-- A text that can be read stays so, as long as its own place and the directories do. -/
theorem readText_mono {s : String} (hhere : t'.here = t.here)
    (hd : ∀ q, t.isPassable q = true → t'.isPassable q = true)
    (hp : t'.node? (Path.place t.here path) = t.node? (Path.place t.here path)) (h : t.readText path = .ok s) :
    t'.readText path = .ok s := by
  rw [readText_eq_ok_iff] at h ⊢
  rw [hhere, hp]
  exact ⟨locate_mono hhere hd h.1, h.2⟩

/-- What is new is no file. -/
theorem Adds.file_iff (h : Adds P t t') (content : Content) (access : Access) (runs : Bool) :
    t'.node? q = some (.file content access runs) ↔ t.node? q = some (.file content access runs) := by
  refine ⟨fun hf => ?_, h.keeps q _⟩
  cases hn : t.node? q with
  | none =>
    rcases h.adds q hn with gone | ⟨-, made⟩
    · cases gone.symm.trans hf
    · cases made.symm.trans hf
  | some node => exact (h.keeps q node hn).symm.trans hf

theorem Adds.readText (h : Adds P t t') {s : String} (hs : t.readText path = .ok s) : t'.readText path = .ok s := by
  obtain ⟨node, hn, -⟩ := Option.map_eq_some_iff.1 (readText_eq_ok_iff.1 hs).2
  refine readText_mono h.here (fun q => h.isPassable) ?_ hs
  rw [h.keeps _ _ hn, hn]

end Adds

/-- The same files are in the same places, and a text that was read at a path is read there still. -/
structure SameFiles (t t' : Tree) : Prop where
  here : t'.here = t.here
  files : ∀ place content access runs,
    t'.node? place = some (.file content access runs) ↔ t.node? place = some (.file content access runs)
  texts : ∀ path text, t.readText path = .ok text → t'.readText path = .ok text

/-- Where nothing but directories is added the files are the same. -/
theorem Adds.sameFiles {P : List String → Prop} {t t' : Tree} (h : Adds P t t') : t.SameFiles t' :=
  ⟨h.here, fun _ => h.file_iff, fun _ _ => h.readText⟩

end Tree
end SqlLint
