import SqlLint.Proofs.Files.Steps
import Mathlib.Data.List.Induction

/-! # Making directories and writing files

What the actions do to a tree, whether they succeed or not, and when a file can be written. -/
namespace SqlLint

/-! ## Steps that may fail -/

section Steps

variable {ε σ α β : Type} (s : σ)

theorem fallible_bind (m : ExceptT ε (StateM σ) α) (f : α → ExceptT ε (StateM σ) β) : (m >>= f) s =
    match m s with
    | (.ok a, s') => f a s'
    | (.error e, s') => (.error e, s') := by
  have h : (m >>= f) s = ((match (m s).1 with
      | .ok a => f a
      | .error e => throw e : ExceptT ε (StateM σ) β)) (m s).2 := rfl
  rw [h]
  obtain ⟨r, s'⟩ := m s
  cases r <;> rfl

/-- Of steps that succeeded together each one did. -/
theorem exists_of_fallible_bind {m : ExceptT ε (StateM σ) α} {f : α → ExceptT ε (StateM σ) β} {s s'' : σ} {b : β}
    (h : (m >>= f) s = (.ok b, s'')) : ∃ a s', m s = (.ok a, s') ∧ f a s' = (.ok b, s'') := by
  rw [fallible_bind] at h
  generalize m s = outcome at h
  obtain ⟨e | a, s'⟩ := outcome
  · cases h
  · exact ⟨a, s', rfl, h⟩

theorem fallible_tryCatch (m : ExceptT ε (StateM σ) α) (f : ε → ExceptT ε (StateM σ) α) : (tryCatch m f) s =
    match m s with
    | (.ok a, s') => (.ok a, s')
    | (.error e, s') => f e s' := by
  have h : (tryCatch m f) s = ((match (m s).1 with
      | .ok a => pure a
      | .error e => f e : ExceptT ε (StateM σ) α)) (m s).2 := rfl
  rw [h]
  obtain ⟨r, s'⟩ := m s
  cases r <;> rfl

theorem fallible_get : (get : ExceptT ε (StateM σ) σ) s = (.ok s, s) := rfl

end Steps

namespace Tree
open SqlLint.Path

section Effects

variable {t t' : Tree} {path : String} {content : Content} {P : List String → Prop}

/-- The path of a directory that is to be made. -/
def madePath (path : String) : String := String.ofList (dropSlashes path.toList)

theorem makeDirectory_apply (path : String) (t : Tree) : makeDirectory path t =
    match t.locate (madePath path) with
    | .error e => (.error e, t)
    | .ok place =>
      match t.node? place, (t.accessAbove place).refusal? with
      | some _, _ => (.error .alreadyExists, t)
      | none, some e => (.error e, t)
      | none, none => (.ok (), t.put place .directory) := by
  unfold makeDirectory
  rw [fallible_bind, fallible_get, madePath]
  dsimp only
  cases t.locate (String.ofList (dropSlashes path.toList)) with
  | error e => rfl
  | ok place =>
    dsimp only
    cases t.node? place with
    | some node => rfl
    | none => cases (t.accessAbove place).refusal? <;> rfl

theorem tryMakeDirectory_apply (path : String) (t : Tree) : tryMakeDirectory path t =
    match makeDirectory path t with
    | (.ok (), t') => (.ok true, t')
    | (.error e, t') =>
      if t.isDirectory path then (.ok true, t')
      else if e = .notFound then (.ok false, t') else (.error e, t') := by
  unfold tryMakeDirectory
  rw [fallible_bind, fallible_get]
  dsimp only
  rw [fallible_bind, fallible_tryCatch, fallible_bind]
  obtain ⟨r, t'⟩ := makeDirectory path t
  cases r with
  | ok u => rfl
  | error e =>
    dsimp only
    by_cases hd : t.isDirectory path = true
    · rw [if_pos hd, if_pos hd]
      rfl
    · rw [if_neg hd, if_neg hd]
      by_cases he : e = .notFound
      · rw [if_pos he, if_pos he]
        rfl
      · rw [if_neg he, if_neg he]
        rfl

theorem makeDirectories_apply (fuel : Nat) (path : String) (t : Tree) : makeDirectories (fuel + 1) path t =
    if path.isEmpty then (.ok (), t)
    else match tryMakeDirectory path t with
      | (.error e, t') => (.error e, t')
      | (.ok true, t') => (.ok (), t')
      | (.ok false, t') =>
        match Path.parent? path with
        | none => (.error .notFound, t')
        | some parent =>
          match makeDirectories fuel parent t' with
          | (.error e, u) => (.error e, u)
          | (.ok (), u) =>
            match tryMakeDirectory path u with
            | (.error e, v) => (.error e, v)
            | (.ok true, v) => (.ok (), v)
            | (.ok false, v) => (.error .notFound, v) := by
  rw [makeDirectories]
  split
  · rfl
  · rw [fallible_bind]
    obtain ⟨r, t'⟩ := tryMakeDirectory path t
    cases r with
    | error e => rfl
    | ok made =>
      cases made with
      | true => rfl
      | false =>
        dsimp only
        cases Path.parent? path with
        | none => rfl
        | some parent =>
          dsimp only
          rw [if_neg (by decide), fallible_bind]
          obtain ⟨r, u⟩ := makeDirectories fuel parent t'
          cases r with
          | error e => rfl
          | ok x =>
            dsimp only
            rw [fallible_bind]
            obtain ⟨r, v⟩ := tryMakeDirectory path u
            cases r with
            | error e => rfl
            | ok made => cases made <;> rfl

theorem write_apply (path : String) (content : Content) (t : Tree) : write path content t =
    if path.toList.getLast? = some '/' then
      match t.locateAbove path with
      | .error e => (.error e, t)
      | .ok _ => (.error .isDirectory, t)
    else match t.locate path with
      | .error e => (.error e, t)
      | .ok place =>
        match t.target? place with
        | none => (.error .isDirectory, t)
        | some (access, runs) =>
          match access.refusal? with
          | none => (.ok (), t.put place (.file content access runs))
          | some e => (.error e, if access = .full then t.put place (.file (.text "") access runs) else t) := by
  unfold write
  rw [fallible_bind, fallible_get]
  dsimp only
  split
  · cases t.locateAbove path <;> rfl
  · cases t.locate path with
    | error e => rfl
    | ok place =>
      have hlift : (liftM (Except.ok place : Except IoError (List String)) : Action (List String)) t = (.ok place, t) := rfl
      rw [fallible_bind, hlift]
      dsimp only
      cases t.target? place with
      | none => rfl
      | some target =>
        obtain ⟨access, runs⟩ := target
        cases access <;> rfl

theorem adds_makeDirectory (path : String) (t : Tree) : Adds (fun _ => True) t (makeDirectory path t).2 := by
  rw [makeDirectory_apply]
  cases t.locate (madePath path) with
  | error e => exact .refl _ t
  | ok place =>
    dsimp only
    cases hn : t.node? place with
    | some node => exact .refl _ t
    | none =>
      cases (t.accessAbove place).refusal? with
      | some e => exact .refl _ t
      | none => exact adds_put_directory trivial hn

theorem adds_tryMakeDirectory (path : String) (t : Tree) : Adds (fun _ => True) t (tryMakeDirectory path t).2 := by
  have h := adds_makeDirectory path t
  rw [tryMakeDirectory_apply]
  generalize makeDirectory path t = p at h ⊢
  obtain ⟨r, t'⟩ := p
  cases r with
  | ok u => exact h
  | error e =>
    dsimp only
    split
    · exact h
    · split <;> exact h

/-- Whether they can all be made or not, nothing but directories is added. -/
theorem adds_makeDirectories (fuel : Nat) (path : String) (t : Tree) :
    Adds (fun _ => True) t (makeDirectories fuel path t).2 := by
  induction fuel generalizing path t with
  | zero => exact .refl _ t
  | succ fuel ih =>
    rw [makeDirectories_apply]
    split
    · exact .refl _ t
    · have h := adds_tryMakeDirectory path t
      generalize tryMakeDirectory path t = p at h ⊢
      obtain ⟨_ | made, t'⟩ := p
      · exact h
      · cases made with
        | true => exact h
        | false =>
          dsimp only
          cases Path.parent? path with
          | none => exact h
          | some parent =>
            have hp := h.trans (ih parent t')
            dsimp only
            generalize makeDirectories fuel parent t' = p at hp ⊢
            obtain ⟨_ | _, u⟩ := p
            · exact hp
            · have hq := hp.trans (adds_tryMakeDirectory path u)
              dsimp only
              generalize tryMakeDirectory path u = p at hq ⊢
              obtain ⟨_ | made, v⟩ := p
              · exact hq
              · cases made <;> exact hq

theorem refusal?_eq_none_iff {access : Access} : access.refusal? = none ↔ access = .free := by
  cases access <;> simp [Access.refusal?]

theorem write_ok (h : write path content t = (.ok (), t')) :
    t.locate path = .ok (Path.place t.here path) ∧ ∃ runs, t.target? (Path.place t.here path) = some (.free, runs) ∧
      t' = t.put (Path.place t.here path) (.file content .free runs) := by
  rw [write_apply] at h
  split at h
  · split at h <;> cases h
  · cases hl : t.locate path with
    | error e =>
      rw [hl] at h
      cases h
    | ok p =>
      obtain ⟨-, rfl, -⟩ := locate_eq_ok_iff.1 hl
      rw [hl] at h
      dsimp only at h
      split at h
      · cases h
      · next access runs htarget =>
        split at h
        · next hfree =>
          obtain rfl := refusal?_eq_none_iff.1 hfree
          cases h
          exact ⟨rfl, runs, htarget, rfl⟩
        · cases h

/-- Directories are added, and then the file at a path is opened to be written. There is no room, and the file is
left without its text, or new and empty. -/
inductive Empties (t : Tree) (path : String) : Tree → Prop
  | intro {u : Tree} {runs : Bool} (made : Adds (fun _ => True) t u)
    (located : u.locate path = .ok (Path.place t.here path))
    (target : u.target? (Path.place t.here path) = some (.full, runs)) :
    Empties t path (u.put (Path.place t.here path) (.file (.text "") .full runs))

theorem Empties.here (h : t.Empties path t') : t'.here = t.here := by
  obtain ⟨made, -, -⟩ := h
  exact made.here

theorem Empties.node?_eq (h : t.Empties path t') :
    ∃ runs, t'.node? (Path.place t.here path) = some (.file (.text "") .full runs) := by
  obtain ⟨made, located, target⟩ := h
  exact ⟨_, node?_put_self _ (ne_nil_of_target? target) _⟩

/-- All other files stay as they are. -/
theorem Empties.file_iff (h : t.Empties path t') {place : List String} (other : place ≠ Path.place t.here path)
    (content : Content) (access : Access) (runs : Bool) :
    t'.node? place = some (.file content access runs) ↔ t.node? place = some (.file content access runs) := by
  obtain ⟨made, -, -⟩ := h
  rw [node?_put_of_ne _ other]
  exact made.file_iff content access runs

/-- A write that fails leaves everything as it is, unless it finds that there is no room when the file has been
emptied. -/
theorem write_error {e : IoError} (h : write path content t = (.error e, t')) :
    t' = t ∨ (e = .noSpace ∧ ∃ runs, t.locate path = .ok (Path.place t.here path) ∧
      t.target? (Path.place t.here path) = some (.full, runs) ∧
      t' = t.put (Path.place t.here path) (.file (.text "") .full runs)) := by
  rw [write_apply] at h
  split at h
  · split at h <;> cases h <;> exact .inl rfl
  · cases hl : t.locate path with
    | error e =>
      rw [hl] at h
      cases h
      exact .inl rfl
    | ok p =>
      obtain ⟨-, rfl, -⟩ := locate_eq_ok_iff.1 hl
      rw [hl] at h
      dsimp only at h
      split at h
      · cases h
        exact .inl rfl
      · next access runs htarget =>
        cases access with
        | free => cases h
        | full =>
          cases h
          exact .inr ⟨rfl, runs, rfl, htarget, rfl⟩
        | _ =>
          cases h
          exact .inl rfl

end Effects

/-! ## Directories above a file -/

section Directories

variable {t t' : Tree} {absolute : Bool} {ss : List String} {path : String} {content : Content}

/-- Where steps start. -/
def origin (absolute : Bool) (t : Tree) : List String := if absolute then [] else t.here

/-- A path ends as its last name does. -/
theorem getLast?_intercalate (init : List String) {s : String} (hne : s ≠ "") (hslash : '/' ∉ s.toList) :
    ("/".intercalate (init ++ [s])).toList.getLast? ≠ some '/' := by
  have hend : ∃ front, ("/".intercalate (init ++ [s])).toList = front ++ s.toList := by
    by_cases hinit : init = []
    · subst hinit
      exact ⟨[], by rw [List.nil_append, String.intercalate_singleton]; rfl⟩
    · rw [String.intercalate_append_of_ne_nil hinit (List.cons_ne_nil _ _), String.intercalate_singleton,
        String.toList_append]
      exact ⟨_, rfl⟩
  obtain ⟨front, hf⟩ := hend
  have hlist : s.toList ≠ [] := fun he => hne (String.toList_eq_nil_iff.1 he)
  rw [hf, List.getLast?_append_of_ne_nil _ hlist]
  intro hl
  exact hslash (List.mem_of_getLast? hl)

theorem getLast?_ofSteps (hs : AreSteps absolute ss) (hn : ss ≠ []) :
    (ofSteps absolute ss).toList.getLast? ≠ some '/' := by
  obtain ⟨init, s, rfl⟩ := (List.eq_nil_or_concat' ss).resolve_left hn
  obtain ⟨hne, hslash⟩ := hs.parts s (List.mem_append_right _ (List.mem_singleton.2 rfl))
  rw [ofSteps]
  split
  · have hroot : "/" ++ "/".intercalate (init ++ [s]) = "/".intercalate ("" :: init ++ [s]) := by
      rw [List.cons_append, String.intercalate_cons_of_ne_nil hn, String.empty_append]
    rw [hroot]
    exact getLast?_intercalate ("" :: init) hne hslash
  · exact getLast?_intercalate init hne hslash

theorem madePath_ofSteps (hs : AreSteps absolute ss) (hn : ss ≠ []) : madePath (ofSteps absolute ss) = ofSteps absolute ss := by
  have hl := getLast?_ofSteps hs hn
  rw [List.getLast?_eq_head?_reverse] at hl
  rw [madePath, dropSlashes]
  cases hr : (ofSteps absolute ss).toList.reverse with
  | nil =>
    rw [List.reverse_eq_nil_iff] at hr
    rw [← String.toList_inj, hr]
    rfl
  | cons c cs =>
    rw [hr] at hl
    have hc : (c == '/') = false := by simpa using hl
    rw [List.dropWhile_cons_of_neg (by simp [hc]), ← hr, List.reverse_reverse, String.ofList_toList]

/-- The name in front of the first slash leads nowhere. -/
theorem walk_root (t : Tree) (hn : ss ≠ []) : t.walk [] ("" :: ss) = t.walk [] ss := by
  have first (name : String) (names : List String) : t.walk [] (name :: names) =
      if t.root = .hidden then .error .permissionDenied
      else if nameLimit < name.utf8ByteSize then .error .nameTooLong
      else t.walk (step [] name) names := by
    rw [walk]
    rfl
  obtain ⟨s, ss, rfl⟩ := List.exists_cons_of_ne_nil hn
  by_cases hidden : t.root = .hidden
  · rw [first, first, if_pos hidden, if_pos hidden]
  · rw [first, if_neg hidden]
    rfl

theorem locate_ofSteps (ht : IsTaken (ofSteps absolute ss)) (hs : AreSteps absolute ss) (hn : ss ≠ []) :
    t.locate (ofSteps absolute ss) = t.walk (origin absolute t) ss := by
  rw [locate, follow_of_isTaken ht, start, isAbsolute_ofSteps hs hn, names_ofSteps hs hn]
  cases absolute with
  | false => rfl
  | true => exact walk_root t hn

/-- A directory is made, or is there, if all those above it are. -/
theorem tryMakeDirectory_ok (ht : IsTaken (ofSteps absolute ss)) (hs : AreSteps absolute ss) (hn : ss ≠ [])
    (hw : ∀ q ∈ way (origin absolute t) ss, t.isPassable q = true) (hg : t.CanEnter (goal (origin absolute t) ss)) :
    ∃ t', tryMakeDirectory (ofSteps absolute ss) t = (.ok true, t') ∧
      Adds (· = goal (origin absolute t) ss) t t' ∧ t'.isPassable (goal (origin absolute t) ss) = true := by
  have hl : t.locate (ofSteps absolute ss) = .ok (goal (origin absolute t) ss) := by
    rw [locate_ofSteps ht hs hn, walk_eq_ok_iff]
    refine ⟨rfl, hw, fun s hm => ht.names_le s ?_⟩
    rw [names_ofSteps hs hn]
    split
    · exact List.mem_cons_of_mem _ hm
    · exact hm
  rw [tryMakeDirectory_apply, makeDirectory_apply, madePath_ofSteps hs hn, hl]
  dsimp only
  rcases hg with enters | ⟨missing, access⟩
  · obtain ⟨_, -, hd⟩ := isPassable_iff.1 enters
    have there : t.isDirectory (ofSteps absolute ss) = true := by
      rw [isDirectory, find, hl]
      simp only [bind, Except.bind]
      rw [hd]
    rw [hd]
    dsimp only
    rw [if_pos there]
    exact ⟨t, rfl, .refl _ t, enters⟩
  · have hne : goal (origin absolute t) ss ≠ [] := by
      intro he
      rw [he] at missing
      cases missing
    rw [missing, access]
    exact ⟨_, rfl, adds_put_directory rfl missing, isPassable_of_directory (node?_put_self t hne .directory)⟩

/-- A directory is not made, and that is no fault, if one above it is missing. -/
theorem tryMakeDirectory_missing (ht : IsTaken (ofSteps absolute ss)) (hs : AreSteps absolute ss) (hn : ss ≠ [])
    (hw : t.walk (origin absolute t) ss = .error .notFound) : tryMakeDirectory (ofSteps absolute ss) t = (.ok false, t) := by
  have hlocate : t.locate (ofSteps absolute ss) = .error .notFound := (locate_ofSteps ht hs hn).trans hw
  have hd : t.isDirectory (ofSteps absolute ss) = false := by
    rw [isDirectory, find, hlocate]
    rfl
  rw [tryMakeDirectory_apply, makeDirectory_apply, madePath_ofSteps hs hn, hlocate]
  dsimp only
  rw [hd]
  rfl

/-- Where no step leads there is a directory. -/
theorem makeDirectories_nil (fuel : Nat) (ho : t.isPassable (origin absolute t) = true) :
    makeDirectories (fuel + 1) (ofSteps absolute []) t = (.ok (), t) := by
  rw [makeDirectories_apply]
  cases absolute with
  | false => rfl
  | true =>
    have htry : tryMakeDirectory (ofSteps true []) t = (.ok true, t) := by
      obtain ⟨here, nodes, root⟩ := t
      rw [tryMakeDirectory_apply]
      cases root with
      | hidden => cases ho
      | _ => rfl
    rw [htry]
    rfl

theorem parent?_ofSteps {s : String} (hs : AreSteps absolute (ss ++ [s])) :
    parent? (ofSteps absolute (ss ++ [s])) = some (ofSteps absolute ss) := by
  have hne : ss ++ [s] ≠ [] := by simp
  rw [parent?_eq (by rwa [steps_ofSteps hs hne]), steps_ofSteps hs hne, isAbsolute_ofSteps hs hne, List.dropLast_concat]

theorem makeDirectories_of_try {t' : Tree} {path : String} (there : path.isEmpty = false)
    (made : tryMakeDirectory path t = (.ok true, t')) (fuel : Nat) : makeDirectories (fuel + 1) path t = (.ok (), t') := by
  rw [makeDirectories_apply, there, if_neg (by decide), made]

/-- Where a directory cannot be made yet, it is made when the one above it was. -/
theorem makeDirectories_of_missing {u v : Tree} {path parent : String} {fuel : Nat} (there : path.isEmpty = false)
    (missing : tryMakeDirectory path t = (.ok false, t)) (above : parent? path = some parent)
    (parents : makeDirectories fuel parent t = (.ok (), u)) (made : tryMakeDirectory path u = (.ok true, v)) :
    makeDirectories (fuel + 1) path t = (.ok (), v) := by
  rw [makeDirectories_apply, there, if_neg (by decide), missing, above]
  dsimp only
  rw [parents]
  dsimp only
  rw [made]

/-- What is missing of the directories that steps lead through is made. -/
theorem makeDirectories_ok (hs : AreSteps (isAbsolute path) ss) (ht : IsTaken path) (hsub : ss.Sublist (names path))
    (ho : t.isPassable (start t.here path) = true) (hw : ∀ q ∈ trail (start t.here path) ss, t.CanEnter q) {fuel : Nat}
    (hf : ss.length < fuel) :
    ∃ t', makeDirectories fuel (ofSteps (isAbsolute path) ss) t = (.ok (), t') ∧
      Adds (· ∈ trail (start t.here path) ss) t t' ∧
      ∀ q ∈ trail (start t.here path) ss, t'.isPassable q = true := by
  induction ss using List.reverseRecOn generalizing fuel with
  | nil =>
    obtain ⟨fuel, rfl⟩ := Nat.exists_eq_succ_of_ne_zero (Nat.ne_of_gt hf)
    refine ⟨t, makeDirectories_nil fuel ho, .refl _ t, fun q hq => ?_⟩
    rw [List.mem_singleton.1 hq]
    exact ho
  | append_singleton ss s ih =>
    obtain ⟨fuel, rfl⟩ := Nat.exists_eq_succ_of_ne_zero (Nat.ne_of_gt (Nat.zero_lt_of_lt hf))
    have hne : ss ++ [s] ≠ [] := by simp
    have hstart : start t.here path = origin (isAbsolute path) t := rfl
    have htaken := isTaken_ofSteps ht hs hne hsub
    have hpath : (ofSteps (isAbsolute path) (ss ++ [s])).isEmpty = false := htaken.ne_empty
    have htrail : trail (start t.here path) (ss ++ [s]) =
        trail (start t.here path) ss ++ [goal (start t.here path) (ss ++ [s])] := by
      rw [trail, way_concat]
    rw [htrail] at hw ⊢
    have hinit : ∀ q ∈ trail (start t.here path) ss, t.CanEnter q :=
      fun q hq => hw q (List.mem_append_left _ hq)
    have hlast := List.mem_append_right (trail (start t.here path) ss)
      (List.mem_singleton.2 (Eq.refl (goal (start t.here path) (ss ++ [s]))))
    have hgoal := hw _ hlast
    have hdone {v : Tree} (hv : ∀ q ∈ trail (start t.here path) ss, v.isPassable q = true)
        (hg : v.isPassable (goal (start t.here path) (ss ++ [s])) = true) :
        ∀ q ∈ trail (start t.here path) ss ++ [goal (start t.here path) (ss ++ [s])], v.isPassable q = true :=
      List.forall_mem_append.2 ⟨hv, List.forall_mem_singleton.2 hg⟩
    have hway : ∀ q ∈ way (start t.here path) (ss ++ [s]), t.isPassable q = true ∨ t.node? q = none := by
      rw [way_concat]
      exact fun q hq => (hinit q hq).imp_right And.left
    rcases walk_eq_or hway fun n hn => ht.names_le n (hsub.mem hn) with hwalk | hwalk
    · obtain ⟨-, hdirs, -⟩ := walk_eq_ok_iff.1 hwalk
      obtain ⟨t', htry, hadds, hmade⟩ := tryMakeDirectory_ok htaken hs hne (hstart ▸ hdirs) (hstart ▸ hgoal)
      rw [way_concat] at hdirs
      exact ⟨t', makeDirectories_of_try hpath htry fuel, hadds.mono fun q hq => hq ▸ hlast,
        hdone (fun q hq => hadds.isPassable (hdirs q hq)) hmade⟩
    · obtain ⟨u, hu, hadds, hdirs⟩ := ih hs.init ((List.sublist_append_left ss [s]).trans hsub) hinit (by simpa using hf)
      have horigin : origin (isAbsolute path) u = start t.here path := by
        rw [hstart, origin, origin, hadds.here]
      obtain ⟨v, htry, hadds', hmade⟩ := tryMakeDirectory_ok (t := u) htaken hs hne
        (by rwa [horigin, way_concat]) (by rw [horigin]; exact hadds.canEnter hgoal)
      rw [horigin] at hadds' hmade
      have hmissing := tryMakeDirectory_missing htaken hs hne hwalk
      exact ⟨v, makeDirectories_of_missing hpath hmissing (parent?_ofSteps hs) hu htry,
        .trans (hadds.mono fun q hq => List.mem_append_left _ hq) (hadds'.mono fun q hq => hq ▸ hlast),
        hdone (fun q hq => hadds'.isPassable (hdirs q hq)) hmade⟩

theorem length_le_intercalate {ns : List String} (hn : ∀ s ∈ ns, s ≠ "") :
    ns.length ≤ ("/".intercalate ns).length := by
  induction ns with
  | nil => exact Nat.zero_le _
  | cons s ns ih =>
    obtain ⟨hs, hn⟩ := List.forall_mem_cons.1 hn
    have hpos : s.length ≠ 0 := fun he => hs (String.length_eq_zero_iff.1 he)
    cases ns with
    | nil =>
      rw [String.intercalate_singleton, List.length_singleton]
      omega
    | cons next ns =>
      have hih := ih hn
      rw [String.intercalate_cons_cons, String.length_append, String.length_append, List.length_cons]
      omega

theorem length_le_ofSteps (hs : AreSteps absolute ss) : ss.length ≤ (ofSteps absolute ss).length := by
  have h := length_le_intercalate fun s hm => (hs.parts s hm).1
  rw [ofSteps]
  split
  · rw [String.length_append]
    omega
  · exact h

end Directories

/-! ## Files that can be written -/

/-- A file can be written where a path leads: the directories on the way can be entered or made, and in its place
a file can be written or made. -/
structure CanWrite (t : Tree) (path : String) : Prop where
  taken : IsTaken path
  start : t.isPassable (start t.here path) = true
  way : ∀ q ∈ wayTo t.here path, t.CanEnter q
  not_mem_way : Path.place t.here path ∉ wayTo t.here path
  place : ∃ runs, t.target? (Path.place t.here path) = some (.free, runs)

section CanWrite

variable {t : Tree} {path : String}

/-- The last name of such a path is one of a file. -/
theorem CanWrite.name (h : t.CanWrite path) : ∃ ns name, names path = ns ++ [name] ∧ steps.moves name = true := by
  have hn : names path ≠ [] := fun he => Text.splitOn_ne_nil '/' path.toList (List.map_eq_nil_iff.1 he)
  obtain ⟨ns, name, he⟩ := (List.eq_nil_or_concat' (names path)).resolve_left hn
  refine ⟨ns, name, he, ?_⟩
  by_contra hm
  refine h.not_mem_way ?_
  have hplace : Path.place t.here path = goal (Path.start t.here path) ns := by
    rw [Path.place, he, goal_append]
    exact step_of_not_moves (by simpa using hm) _
  rw [hplace, wayTo, he, way_concat]
  exact goal_mem_trail _ _

/-- The directories above the file can be made, and the file is located then. -/
theorem CanWrite.makeDirectories (h : t.CanWrite path) : ∃ parent t', parent? path = some parent ∧
    Tree.makeDirectories (parent.length + 1) parent t = (.ok (), t') ∧ Adds (· ∈ wayTo t.here path) t t' ∧
      t'.locate path = .ok (Path.place t.here path) := by
  obtain ⟨ns, name, hn, hm⟩ := h.name
  obtain ⟨ss, hsteps, htrail⟩ := exists_steps hn hm
  have hs : AreSteps (isAbsolute path) ss := (hsteps ▸ areSteps_steps path).init
  have hsub : ss.Sublist (names path) := (List.sublist_append_left ss [name]).trans (hsteps ▸ steps_sublist path)
  have hway : wayTo t.here path = trail (Path.start t.here path) ns := by
    rw [wayTo, hn, way_concat]
  have hparent : parent? path = some (ofSteps (isAbsolute path) ss) := by
    rw [parent?_eq (by rw [hsteps]; simp), hsteps, List.dropLast_concat]
  obtain ⟨t', ht', hadds, hdirs⟩ := makeDirectories_ok hs h.taken hsub h.start
    (fun q hq => h.way q (by rwa [hway, ← htrail])) (Nat.lt_succ_of_le (length_le_ofSteps hs))
  refine ⟨_, t', hparent, ht', hadds.mono fun q hq => by rwa [hway, ← htrail], ?_⟩
  rw [locate_eq_ok_iff, hadds.here]
  refine ⟨h.taken, rfl, fun q hq => hdirs q ?_⟩
  rw [← wayTo, hway] at hq
  rwa [htrail]

/-- The file itself can be written. -/
theorem CanWrite.write {t' : Tree} (h : t.CanWrite path) (hadds : Adds (· ∈ wayTo t.here path) t t')
    (hl : t'.locate path = .ok (Path.place t.here path)) (content : Content) :
    ∃ runs, t'.target? (Path.place t.here path) = some (.free, runs) ∧
      Tree.write path content t' = (.ok (), t'.put (Path.place t.here path) (.file content .free runs)) := by
  obtain ⟨ns, name, hn, hm⟩ := h.name
  have hslash : path.toList.getLast? ≠ some '/' := by
    have hname : name ∈ names path := by
      rw [hn]
      simp
    have hne : name ≠ "" := by
      rintro rfl
      cases hm
    have he := getLast?_intercalate ns hne (not_mem_of_mem_names hname)
    rwa [← hn, intercalate_names] at he
  obtain ⟨runs, htarget⟩ := h.place
  rw [← hadds.target?_eq h.not_mem_way] at htarget
  refine ⟨runs, htarget, ?_⟩
  rw [write_apply, if_neg hslash, hl]
  dsimp only
  rw [htarget]
  rfl

end CanWrite

/-! ## Files that were written -/

section Written

variable {t : Tree} {p q : List String} {content : Content} {runs : Bool}

theorem accessAbove_put (hp : p ≠ []) (h : t.accessAbove q = .free) :
    (t.put p (.file content .free runs)).accessAbove q = .free := by
  rw [accessAbove]
  by_cases above : q.dropLast = p
  · rw [above, node?_put_self t hp]
    rfl
  · rw [node?_put_of_ne t above]
    exact h

theorem canEnter_put (hp : p ≠ []) (hne : q ≠ p) (h : t.CanEnter q) :
    (t.put p (.file content .free runs)).CanEnter q := by
  refine h.imp (fun enters => ?_) fun ⟨missing, access⟩ => ⟨?_, accessAbove_put hp access⟩
  · rwa [isPassable, node?_put_of_ne t hne]
  · rwa [node?_put_of_ne t hne]

theorem target?_put (hp : p ≠ []) (h : ∃ runs, t.target? q = some (.free, runs)) :
    ∃ runs', (t.put p (.file content .free runs)).target? q = some (.free, runs') := by
  obtain ⟨runs', h⟩ := h
  by_cases same : q = p
  · rw [target?, same, node?_put_self t hp]
    exact ⟨runs, rfl⟩
  · refine ⟨runs', ?_⟩
    rw [target?] at h ⊢
    rw [node?_put_of_ne t same]
    cases hn : t.node? q with
    | some node =>
      rw [hn] at h
      cases node <;> exact h
    | none =>
      rw [hn] at h
      obtain ⟨access, rfl⟩ := Prod.mk.inj (Option.some.inj h)
      dsimp only
      rw [accessAbove_put hp access]

end Written

end Tree
end SqlLint
