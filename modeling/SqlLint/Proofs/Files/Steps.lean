import SqlLint.Proofs.Files.Walks
import Mathlib.Algebra.GroupWithZero.Nat
import Mathlib.Data.List.Basic

/-! # Paths of steps

A path is as good as the one that its steps make: the names that are left out do not lead anywhere. -/
namespace SqlLint

namespace Text

variable {mark : Char} {a : List Char}

theorem splitOn_of_not_mem (h : mark ∉ a) : splitOn mark a = [a] := by
  induction a with
  | nil => rfl
  | cons c a ih =>
    rw [List.mem_cons, not_or] at h
    rw [splitOn, if_neg (Ne.symm h.1), ih h.2]

theorem splitOn_ne_nil (mark : Char) (cs : List Char) : splitOn mark cs ≠ [] := by
  cases cs with
  | nil => exact List.cons_ne_nil _ _
  | cons c cs =>
    rw [splitOn]
    split
    · exact List.cons_ne_nil _ _
    · split <;> exact List.cons_ne_nil _ _

/-- A mark ends the parts before it. -/
theorem splitOn_append_mark (mark : Char) (a b : List Char) :
    splitOn mark (a ++ mark :: b) = splitOn mark a ++ splitOn mark b := by
  induction a with
  | nil => simp [splitOn]
  | cons c a ih =>
    obtain ⟨first, rest, hp⟩ := List.exists_cons_of_ne_nil (splitOn_ne_nil mark a)
    rw [List.cons_append, splitOn, splitOn, ih, hp]
    split <;> rfl

theorem splitOn_append (h : mark ∉ a) (b : List Char) : splitOn mark (a ++ mark :: b) = a :: splitOn mark b := by
  rw [splitOn_append_mark, splitOn_of_not_mem h, List.singleton_append]

/-- Parts without marks are found again between the marks. -/
theorem splitOn_intercalate {parts : List (List Char)} (some : parts ≠ []) (h : ∀ part ∈ parts, mark ∉ part) :
    splitOn mark ([mark].intercalate parts) = parts := by
  induction parts with
  | nil => exact absurd rfl some
  | cons part rest ih =>
    obtain ⟨first, later⟩ := List.forall_mem_cons.1 h
    cases rest with
    | nil => rw [List.intercalate_singleton, splitOn_of_not_mem first]
    | cons next rest =>
      rw [List.intercalate_cons_cons, List.append_assoc, List.singleton_append, splitOn_append first,
        ih (List.cons_ne_nil _ _) later]

theorem splitOn_toList_intercalate {sep : String} (hs : sep.toList = [mark]) {parts : List String} (some : parts ≠ [])
    (h : ∀ part ∈ parts, mark ∉ part.toList) :
    splitOn mark (sep.intercalate parts).toList = parts.map String.toList := by
  rw [String.toList_intercalate, hs]
  exact splitOn_intercalate (mt List.map_eq_nil_iff.1 some) (List.forall_mem_map.2 h)

/-- The parts with marks between them are the text. -/
theorem intercalate_splitOn (mark : Char) (cs : List Char) : [mark].intercalate (splitOn mark cs) = cs := by
  induction cs with
  | nil => rfl
  | cons c cs ih =>
    obtain ⟨part, parts, hp⟩ := List.exists_cons_of_ne_nil (splitOn_ne_nil mark cs)
    rw [hp] at ih
    rw [splitOn, hp]
    split
    · next hc =>
      rw [List.intercalate_cons_cons, ih, hc]
      rfl
    · cases parts with
      | nil =>
        rw [List.intercalate_singleton] at ih ⊢
        rw [ih]
      | cons next parts =>
        rw [List.intercalate_cons_cons] at ih ⊢
        rw [← ih]
        rfl

theorem not_mem_of_mem_splitOn {cs part : List Char} (h : part ∈ splitOn mark cs) : mark ∉ part := by
  induction cs generalizing part with
  | nil =>
    rw [splitOn, List.mem_singleton] at h
    rw [h]
    exact List.not_mem_nil
  | cons c cs ih =>
    rw [splitOn] at h
    split at h
    · rcases List.mem_cons.1 h with rfl | h
      · exact List.not_mem_nil
      · exact ih h
    · next hc =>
      split at h
      · next first parts hs =>
        rw [hs] at ih
        rcases List.mem_cons.1 h with rfl | h
        · rw [List.mem_cons, not_or]
          exact ⟨Ne.symm hc, ih List.mem_cons_self⟩
        · exact ih (List.mem_cons_of_mem _ h)
      · rw [List.mem_singleton] at h
        rw [h, List.mem_singleton]
        exact Ne.symm hc

/-- A character that is no mark stands in some part. -/
theorem mem_splitOn_iff {c : Char} (hc : c ≠ mark) (cs : List Char) : (∃ part ∈ splitOn mark cs, c ∈ part) ↔ c ∈ cs := by
  induction cs with
  | nil => simp [splitOn]
  | cons d cs ih =>
    rw [splitOn, List.mem_cons, ← ih]
    split
    · next hd => simp [hd, hc]
    · obtain ⟨part, parts, hp⟩ := List.exists_cons_of_ne_nil (splitOn_ne_nil mark cs)
      rw [hp]
      simp [or_assoc]

end Text

namespace Path
open Text

variable {ns ss : List String} {path name : String} {absolute : Bool} {place q : List String}

theorem intercalate_names (path : String) : "/".intercalate (names path) = path := by
  rw [← String.toList_inj, String.toList_intercalate, names, List.map_map]
  have hid : String.toList ∘ String.ofList = id := by
    funext cs
    exact String.toList_ofList
  rw [hid, List.map_id]
  exact intercalate_splitOn '/' path.toList

theorem not_mem_of_mem_names (h : name ∈ names path) : '/' ∉ name.toList := by
  obtain ⟨part, hp, rfl⟩ := List.mem_map.1 h
  rw [String.toList_ofList]
  exact not_mem_of_mem_splitOn hp

/-- Names without slashes are those of the path that they make. -/
theorem names_intercalate (hn : ns ≠ []) (h : ∀ name ∈ ns, '/' ∉ name.toList) :
    names ("/".intercalate ns) = ns := by
  have same : String.ofList ∘ String.toList = id := funext fun _ => String.ofList_toList
  rw [names, splitOn_toList_intercalate rfl hn h, List.map_map, same, List.map_id]

/-- An absolute path starts with an empty name. -/
theorem exists_root (h : isAbsolute path = true) : ∃ rest, names path = "" :: rest := by
  rw [isAbsolute, beq_iff_eq] at h
  obtain ⟨cs, hc⟩ : ∃ cs, path.toList = '/' :: cs := by
    cases hp : path.toList with
    | nil =>
      rw [hp] at h
      cases h
    | cons c cs =>
      rw [hp] at h
      cases h
      exact ⟨cs, rfl⟩
  rw [names, hc, splitOn, if_pos rfl]
  exact ⟨_, rfl⟩

/-- The path of steps from the root or from the working directory. -/
def ofSteps (absolute : Bool) (ss : List String) : String :=
  if absolute then "/" ++ "/".intercalate ss else "/".intercalate ss

theorem parent?_eq (h : steps path ≠ []) : parent? path = some (ofSteps (isAbsolute path) (steps path).dropLast) := by
  rw [parent?]
  split
  · next he => exact absurd he h
  · rfl

/-- Steps as a path may have them. -/
structure AreSteps (absolute : Bool) (ss : List String) : Prop where
  parts : ∀ s ∈ ss, s ≠ "" ∧ '/' ∉ s.toList
  moves : ∀ s ∈ (if absolute then ss else ss.tail), s ≠ "."

theorem steps_sublist (path : String) : (steps path).Sublist (names path) := by
  rw [steps.eq_def]
  split
  · next rest _ he =>
    rw [he]
    exact List.filter_sublist.cons_cons "."
  · exact List.filter_sublist

theorem areSteps_steps (path : String) : AreSteps (isAbsolute path) (steps path) := by
  have hmoves {s : String} {ns : List String} (h : s ∈ ns.filter steps.moves) : s ≠ "" ∧ s ≠ "." := by
    simpa [steps.moves] using (List.mem_filter.1 h).2
  have hslash : ∀ s ∈ steps path, '/' ∉ s.toList := fun s hs => not_mem_of_mem_names ((steps_sublist path).mem hs)
  rw [steps.eq_def] at hslash ⊢
  split at hslash
  · next rest habs _ =>
    rw [habs]
    refine ⟨fun s hs => ⟨?_, hslash s hs⟩, fun s hs => (hmoves hs).2⟩
    rcases List.mem_cons.1 hs with rfl | hs
    · decide
    · exact (hmoves hs).1
  · refine ⟨fun s hs => ⟨(hmoves hs).1, hslash s hs⟩, fun s hs => ?_⟩
    split at hs
    · exact (hmoves hs).2
    · exact (hmoves (List.mem_of_mem_tail hs)).2

theorem AreSteps.init {s : String} (h : AreSteps absolute (ss ++ [s])) : AreSteps absolute ss := by
  refine ⟨fun s hs => h.parts s (List.mem_append_left _ hs), fun s hs => h.moves s ?_⟩
  cases absolute with
  | true => exact List.mem_append_left _ hs
  | false =>
    cases ss with
    | nil => cases hs
    | cons first rest => exact List.mem_append_left _ hs

theorem isAbsolute_ofSteps (h : AreSteps absolute ss) (hn : ss ≠ []) : isAbsolute (ofSteps absolute ss) = absolute := by
  cases absolute with
  | true =>
    rw [ofSteps, if_pos rfl, isAbsolute, String.toList_append]
    rfl
  | false =>
    obtain ⟨s, rest, rfl⟩ := List.exists_cons_of_ne_nil hn
    obtain ⟨hs, hslash⟩ := h.parts s List.mem_cons_self
    obtain ⟨c, cs, hc⟩ := List.exists_cons_of_ne_nil (fun he => hs (String.toList_eq_nil_iff.1 he) : s.toList ≠ [])
    have hne : c ≠ '/' := by
      rintro rfl
      exact hslash (hc ▸ List.mem_cons_self)
    have hhead : (ofSteps false (s :: rest)).toList.head? = some c := by
      rw [ofSteps, if_neg (by decide), String.toList_intercalate]
      cases rest with
      | nil => simp [hc]
      | cons next rest =>
        rw [List.map_cons, List.map_cons, List.intercalate_cons_cons, hc]
        rfl
    rw [isAbsolute, hhead]
    simp [hne]

theorem names_ofSteps (h : AreSteps absolute ss) (hn : ss ≠ []) :
    names (ofSteps absolute ss) = if absolute then "" :: ss else ss := by
  have hslash : ∀ s ∈ ss, '/' ∉ s.toList := fun s hs => (h.parts s hs).2
  cases absolute with
  | true =>
    have hroot : ofSteps true ss = "/".intercalate ("" :: ss) := by
      rw [String.intercalate_cons_of_ne_nil hn, String.empty_append]
      rfl
    rw [hroot, names_intercalate (List.cons_ne_nil _ _)]
    · rfl
    · refine List.forall_mem_cons.2 ⟨?_, hslash⟩
      decide
  | false => exact names_intercalate hn hslash

/-- The steps of such a path are the ones it is made of. -/
theorem steps_ofSteps (h : AreSteps absolute ss) (hn : ss ≠ []) : steps (ofSteps absolute ss) = ss := by
  have hfilter {ns : List String} (hp : ∀ s ∈ ns, s ≠ "") (hd : ∀ s ∈ ns, s ≠ ".") : ns.filter steps.moves = ns := by
    rw [List.filter_eq_self]
    intro s hs
    simp [steps.moves, hp s hs, hd s hs]
  have hp : ∀ s ∈ ss, s ≠ "" := fun s hs => (h.parts s hs).1
  rw [steps.eq_def, isAbsolute_ofSteps h hn, names_ofSteps h hn]
  cases absolute with
  | true =>
    have hroot : ("" :: ss).filter steps.moves = ss.filter steps.moves := rfl
    exact hroot.trans (hfilter hp h.moves)
  | false =>
    obtain ⟨s, rest, rfl⟩ := List.exists_cons_of_ne_nil hn
    have hrest : rest.filter steps.moves = rest := hfilter (fun s hs => hp s (List.mem_cons_of_mem _ hs)) h.moves
    by_cases hs : s = "."
    · subst hs
      exact congrArg _ hrest
    · have hmoves : steps.moves s = true := by simp [steps.moves, hs, hp s List.mem_cons_self]
      split
      · next he => exact absurd (List.cons.inj he).1 hs
      · rw [if_neg (by decide), List.filter_cons_of_pos hmoves, hrest]

/-! ## The way of the steps -/

theorem step_of_not_moves (h : steps.moves name = false) (place : List String) : step place name = place := by
  have hn : name = "" ∨ name = "." := by
    simpa [steps.moves, Decidable.or_iff_not_imp_left] using h
  rw [step, if_pos hn]

/-- Names that do not move lead through no other places. -/
theorem mem_trail_filter : q ∈ trail place (ns.filter steps.moves) ↔ q ∈ trail place ns := by
  induction ns generalizing place with
  | nil => rfl
  | cons name ns ih =>
    cases hm : steps.moves name with
    | true => rw [List.filter_cons_of_pos hm, trail_cons, trail_cons, List.mem_cons, List.mem_cons, ih]
    | false =>
      rw [List.filter_cons_of_neg (by simp [hm]), trail_cons, step_of_not_moves hm, List.mem_cons, ih]
      constructor
      · exact .inr
      · rintro (rfl | h)
        · exact start_mem_trail _ _
        · exact h

/-- The steps in front of a last name lead through the same places as the names do. -/
theorem exists_steps (h : names path = ns ++ [name]) (hm : steps.moves name = true) :
    ∃ ss, steps path = ss ++ [name] ∧ ∀ place q, q ∈ trail place ss ↔ q ∈ trail place ns := by
  rw [steps.eq_def]
  split
  · next rest _ he =>
    rw [he] at h
    cases ns with
    | nil =>
      obtain ⟨rfl, -⟩ := List.cons.inj h
      cases hm
    | cons first ns =>
      obtain ⟨rfl, rfl⟩ := List.cons.inj h
      refine ⟨"." :: ns.filter steps.moves, ?_, fun place q => ?_⟩
      · have happ : ns.append [name] = ns ++ [name] := rfl
        rw [happ, List.filter_append, List.filter_cons_of_pos hm]
        rfl
      · rw [trail_cons, trail_cons, List.mem_cons, List.mem_cons, mem_trail_filter]
  · refine ⟨ns.filter steps.moves, ?_, fun place q => mem_trail_filter⟩
    rw [h, List.filter_append, List.filter_cons_of_pos hm]
    rfl

/-! ## The length of a path -/

/-- The bytes of names and of a slash for each of them. -/
def weight (ns : List String) : Nat := (ns.map fun n => n.utf8ByteSize + 1).sum

theorem utf8ByteSize_intercalate (hn : ns ≠ []) : ("/".intercalate ns).utf8ByteSize + 1 = weight ns := by
  induction ns with
  | nil => exact absurd rfl hn
  | cons name ns ih =>
    cases ns with
    | nil => simp [weight]
    | cons next ns =>
      have h := ih (List.cons_ne_nil _ _)
      have hslash : ("/" : String).utf8ByteSize = 1 := rfl
      rw [String.intercalate_cons_cons, String.utf8ByteSize_append, String.utf8ByteSize_append, hslash]
      rw [weight, List.map_cons, List.sum_cons, ← weight]
      omega

theorem weight_le (h : ss.Sublist ns) : weight ss ≤ weight ns := by
  induction h with
  | slnil => exact Nat.le_refl _
  | @cons a b c _ ih =>
    rw [weight, weight, List.map_cons, List.sum_cons, ← weight, ← weight]
    omega
  | @cons_cons a b c _ ih =>
    rw [weight, weight, List.map_cons, List.sum_cons, List.map_cons, List.sum_cons, ← weight, ← weight]
    omega

theorem utf8ByteSize_ofSteps (hs : AreSteps (isAbsolute path) ss) (hn : ss ≠ []) (h : ss.Sublist (names path)) :
    (ofSteps (isAbsolute path) ss).utf8ByteSize ≤ path.utf8ByteSize := by
  have hne : names path ≠ [] := fun he => hn (List.sublist_nil.1 (he ▸ h))
  have hpath : path.utf8ByteSize + 1 = weight (names path) := by
    have hw := utf8ByteSize_intercalate hne
    rwa [intercalate_names] at hw
  have hsize : (ofSteps (isAbsolute path) ss).utf8ByteSize + 1 = weight (names (ofSteps (isAbsolute path) ss)) := by
    have hnames : names (ofSteps (isAbsolute path) ss) ≠ [] := by
      rw [names_ofSteps hs hn]
      split
      · exact List.cons_ne_nil _ _
      · exact hn
    have hw := utf8ByteSize_intercalate hnames
    rwa [intercalate_names] at hw
  have hle : weight (names (ofSteps (isAbsolute path) ss)) ≤ weight (names path) := by
    rw [names_ofSteps hs hn]
    refine weight_le ?_
    split
    · next ha =>
      obtain ⟨rest, hr⟩ := exists_root ha
      rw [hr] at h ⊢
      cases h with
      | cons _ h => exact h.cons_cons ""
      | cons_cons _ h => exact absurd rfl (hs.parts "" List.mem_cons_self).1
    · exact h
  omega

/-- What a system takes of a path it takes of its steps. -/
theorem isTaken_ofSteps (ht : IsTaken path) (hs : AreSteps (isAbsolute path) ss) (hn : ss ≠ [])
    (h : ss.Sublist (names path)) : IsTaken (ofSteps (isAbsolute path) ss) := by
  have hnames : ∀ n ∈ names (ofSteps (isAbsolute path) ss), n = "" ∨ n ∈ names path := by
    intro n hm
    rw [names_ofSteps hs hn] at hm
    split at hm
    · exact (List.mem_cons.1 hm).imp_right (h.mem ·)
    · exact .inr (h.mem hm)
  refine ⟨?_, ?_, Nat.le_trans (utf8ByteSize_ofSteps hs hn h) ht.length_le, fun n hm => ?_⟩
  · rw [Bool.eq_false_iff]
    intro he
    obtain ⟨s, rest, rfl⟩ := List.exists_cons_of_ne_nil hn
    have hempty := names_ofSteps hs hn
    rw [String.isEmpty_iff.1 he] at hempty
    have hnil : names "" = [""] := rfl
    rw [hnil] at hempty
    split at hempty
    · cases hempty
    · exact (hs.parts s List.mem_cons_self).1 (List.cons.inj hempty).1.symm
  · rw [Bool.eq_false_iff]
    intro hm
    have hc : '\x00' ≠ '/' := by decide
    obtain ⟨part, hp, hm⟩ := (mem_splitOn_iff hc _).2 (List.contains_iff_mem.1 hm)
    have hno := ht.no_nul
    rw [Bool.eq_false_iff] at hno
    rcases hnames (String.ofList part) (List.mem_map.2 ⟨part, hp, rfl⟩) with he | hname
    · have hnil : part = [] := by simpa using congrArg String.toList he
      rw [hnil] at hm
      cases hm
    · obtain ⟨part', hp', he⟩ := List.mem_map.1 hname
      have heq : part' = part := by simpa using congrArg String.toList he
      exact hno (List.contains_iff_mem.2 ((mem_splitOn_iff hc _).1 ⟨part', hp', heq ▸ hm⟩))
  · rcases hnames n hm with rfl | hm
    · exact Nat.zero_le _
    · exact ht.names_le n hm

end Path
end SqlLint
