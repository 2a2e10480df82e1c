import Mathlib.Data.List.Induction
import Mathlib.Data.List.Nodup
import SqlLint.Proofs.Linter.Arguments

/-! # Settings of many layers

Of a stack of layers each key has the value of the last layer that sets it, whatever that layer does with the
other keys. Only the lists of rules to leave out are joined: the first occurrence of a rule stays where it is,
and a further layer, wherever it is put, takes no rule away. -/
namespace SqlLint.Settings

/-- The value of the last layer that sets a key. -/
def lastSet {α : Type} (key : Layer → Option α) (layers : List Layer) : Option α :=
  (layers.filterMap key).getLast?

/-- The rules to leave out, layer by layer. -/
def listedRules (layers : List Layer) : List String := layers.flatMap fun layer => layer.excludeRules.getD []

/-- Every key by itself: what the last layer that sets it says, or the default, and of the listed rules those that
are not listed before. -/
def keyByKey (layers : List Layer) : Settings where
  executablePath := (lastSet Layer.executablePath layers).getD "sqlfluff"
  config := lastSet Layer.config layers
  dialect := lastSet Layer.dialect layers
  excludeRules := (listedRules layers).eraseDups
  rules := (lastSet Layer.rules layers).getD []
  ignoreParsing := (lastSet Layer.ignoreParsing layers).getD false
  ignoreTemplating := (lastSet Layer.ignoreTemplating layers).getD false
  workingDirectory := lastSet Layer.workingDirectory layers
  run := (lastSet Layer.run layers).getD .onType
  timeout := (lastSet Layer.timeout layers).getD 30
  format := (lastSet Layer.format layers).getD true
  osmosis := (lastSet Layer.osmosis layers).getD false

theorem lastSet_concat {α : Type} (key : Layer → Option α) (layers : List Layer) (last : Layer) :
    lastSet key (layers ++ [last]) = (key last <|> lastSet key layers) := by
  rw [lastSet, List.filterMap_append, List.getLast?_append, lastSet]
  cases hk : key last with
  | none => simp only [List.filterMap_cons_none hk, List.filterMap_nil]; rfl
  | some value => simp only [List.filterMap_cons_some hk, List.filterMap_nil]; rfl

section Rules

variable {rules more : List String}

theorem joinRules_cons (rules more : List String) (rule : String) :
    joinRules rules (rule :: more) = joinRules (if rule ∈ rules then rules else rules ++ [rule]) more := rfl

/-- Rules are joined by dropping each one that stands further to the front already. -/
theorem joinRules_eraseDups (rules more : List String) :
    joinRules rules.eraseDups more = (rules ++ more).eraseDups := by
  induction more generalizing rules with
  | nil => rw [List.append_nil]; rfl
  | cons rule more ih =>
    have hstep : (if rule ∈ rules.eraseDups then rules.eraseDups else rules.eraseDups ++ [rule]) =
        (rules ++ [rule]).eraseDups := by
      rw [List.eraseDups_append]
      by_cases hr : rule ∈ rules
      · simp [hr, List.removeAll]
      · simp [hr, List.removeAll, List.eraseDups_cons]
    rw [joinRules_cons, hstep, ih, List.append_assoc, List.singleton_append]

theorem nodup_joinRules (h : rules.Nodup) : (joinRules rules more).Nodup := by
  induction more generalizing rules with
  | nil => exact h
  | cons rule more ih =>
    rw [joinRules_cons]
    refine ih ?_
    split
    · exact h
    · next hr => exact h.append (List.nodup_singleton rule) (List.disjoint_singleton.2 hr)

theorem joinRules_of_subset (h : more ⊆ rules) : joinRules rules more = rules := by
  induction more with
  | nil => rfl
  | cons rule more ih =>
    obtain ⟨hr, hm⟩ := List.cons_subset.1 h
    rw [joinRules_cons, if_pos hr, ih hm]

end Rules

theorem resolve_concat (layers : List Layer) (last : Layer) :
    resolve (layers ++ [last]) = (resolve layers).apply last := resolve_append layers [last]

theorem resolve_eq_keyByKey (layers : List Layer) : resolve layers = keyByKey layers := by
  induction layers using List.reverseRecOn with
  | nil => rfl
  | append_singleton layers last ih =>
    have hl : listedRules (layers ++ [last]) = listedRules layers ++ last.excludeRules.getD [] := by
      simp [listedRules]
    -- the last layer is asked first, and the default only if no layer answers
    have hd {α : Type} (o x : Option α) (default : α) : (o <|> x).getD default = o.getD (x.getD default) := by
      cases o <;> rfl
    rw [resolve_concat, ih]
    simp only [apply, keyByKey, lastSet_concat, hd, hl, joinRules_eraseDups]

theorem nodup_resolve (layers : List Layer) : (resolve layers).excludeRules.Nodup := by
  induction layers using List.reverseRecOn with
  | nil => exact List.nodup_nil
  | append_singleton layers last ih =>
    rw [resolve_concat]
    exact nodup_joinRules ih

theorem resolve_subset_insert (front back : List Layer) (layer : Layer) :
    (resolve (front ++ back)).excludeRules ⊆ (resolve (front ++ layer :: back)).excludeRules := by
  intro rule h
  obtain ⟨source, hs, hr⟩ := mem_resolve.1 h
  refine mem_resolve.2 ⟨source, ?_, hr⟩
  rw [List.mem_append] at hs ⊢
  exact hs.imp_right (List.mem_cons_of_mem layer)

/-- A layer that lies on top already adds nothing. -/
theorem apply_apply (s : Settings) (layer : Layer) : (s.apply layer).apply layer = s.apply layer := by
  have hd {α : Type} (o : Option α) (x : α) : o.getD (o.getD x) = o.getD x := by cases o <;> rfl
  have ho {α : Type} (o x : Option α) : (o <|> (o <|> x)) = (o <|> x) := by cases o <;> rfl
  have hr : joinRules (joinRules s.excludeRules (layer.excludeRules.getD [])) (layer.excludeRules.getD []) =
      joinRules s.excludeRules (layer.excludeRules.getD []) :=
    joinRules_of_subset fun _ h => mem_joinRules.2 (.inr h)
  simp only [apply, hd, ho, hr]

/-- What a stack of layers comes to, and what a further layer can do to the rules that are left out. -/
theorem resolve_layers (layers : List Layer) :
    resolve layers = keyByKey layers ∧
      (resolve layers).excludeRules.Nodup ∧
      (∀ front back layer,
        (resolve (front ++ back)).excludeRules ⊆ (resolve (front ++ layer :: back)).excludeRules) ∧
      ∀ front last, (resolve (front ++ [last])).apply last = resolve (front ++ [last]) := by
  refine ⟨resolve_eq_keyByKey layers, nodup_resolve layers, resolve_subset_insert, fun front last => ?_⟩
  rw [resolve_concat, apply_apply]

end SqlLint.Settings
