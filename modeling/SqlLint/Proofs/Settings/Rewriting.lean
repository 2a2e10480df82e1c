import SqlLint.Proofs.Settings.Writing
import SqlLint.Proofs.Toml.Retaining

/-! # What stays in a settings file

A list of rules that is written into a settings file takes the place of the old one. Everything else in the file
keeps its meaning, and the comments beside the old list stay. -/
namespace SqlLint

namespace SettingsFiles
open Toml (Document Scalar)

/-- Two documents of which the second one has a list in place of what the first one has under the key. -/
structure Relisted (rules : List String) (text written : String) (d d' : Document) : Prop where
  read : ∀ takes : Scalar → Bool, (∀ s, s.isNarrow = true → takes s = true) →
    Document.read takes text.toList = .ok d ∧ Document.read takes written.toList = .ok d'
  table : d'.table = Assoc.insert rulesKey (Toml.listValue rules) d.table
  comments : Toml.comments (Toml.Source.dropMark text.toList) =
    Toml.comments (Toml.Source.dropMark written.toList) + d.commentsAt rulesKey

variable {t t' : Tree} {files : SettingsFiles} {scope : Scope} {path text : String} {rules : List String} {l : Layer}

theorem exists_relisted {written : List Char} (hl : Layer.ofToml text = .ok l)
    (hw : Toml.writeList rulesKey rules text.toList = .ok written) :
    ∃ d d', Relisted rules text (String.ofList written) d d' := by
  obtain ⟨d, hd⟩ := Toml.read_of_writeList hw
  have hleaf : ∀ n, d.entries.get? rulesKey = some n → n.isLeaf = true :=
    fun n hn => Layer.isLeaf_of_ofToml hl hd hn
  have hok : ∃ written, Toml.writeList rulesKey rules text.toList = .ok written ∧ _ :=
    Toml.writeList_ok hd Layer.isSpelled_rulesKey hleaf
  obtain ⟨written', hw', hread⟩ := hok
  obtain rfl : written = written' := Except.ok.inj (hw.symm.trans hw')
  obtain ⟨d', hd', htable⟩ := hread Scalar.isNarrow fun _ hs => hs
  refine ⟨d, d', fun takes ht => ?_, htable, ?_⟩
  · rw [String.toList_ofList]
    exact ⟨Toml.read_mono ht hd, Toml.read_mono ht hd'⟩
  · rw [String.toList_ofList]
    exact Toml.comments_writeList hd Layer.isSpelled_rulesKey hleaf hw

/-- What was saved is what is read next. -/
theorem readText_of_save (h : save path text t = (.ok (), t')) : t'.readText path = .ok text := by
  have saved := saved_save path text t
  rw [h] at saved
  cases saved with
  | done hadds hlocate hnode =>
    rw [← hadds.here] at hlocate hnode ⊢
    exact readText_put hlocate hnode text

/-- A write that succeeds has saved an edited text. -/
theorem exists_of_writeRules (h : writeRules path rules t = (.ok (), t')) : ∃ text written, textAt t path = .ok text ∧
    Toml.writeList rulesKey rules text.toList = .ok written ∧ t'.readText path = .ok (String.ofList written) := by
  rw [writeRules_apply] at h
  cases ht : textAt t path with
  | error e =>
    rw [ht] at h
    cases h
  | ok text =>
    rw [ht] at h
    dsimp only at h
    cases hw : Toml.writeList rulesKey rules text.toList with
    | error f =>
      rw [hw] at h
      cases h
    | ok written =>
      rw [hw] at h
      exact ⟨text, written, rfl, hw, readText_of_save h⟩

/-- A list that was set is in the settings, and the other settings stay. -/
theorem exists_of_setRules (hp : files.path? scope = some path) (hl : Layer.ofFile t path = .ok l)
    (hset : files.store.setRules scope rules t = (.ok (), t')) :
    ∃ text written, textAt t path = .ok text ∧ Layer.ofToml text = .ok l ∧
      Toml.writeList rulesKey rules text.toList = .ok written ∧ t'.readText path = .ok (String.ofList written) ∧
      Layer.ofFile t' path = .ok (l.withRules rules) := by
  rw [setRules_apply hp] at hset
  obtain ⟨text, written, htext, hw, hread⟩ := exists_of_writeRules hset
  obtain ⟨text', htext', hlayer⟩ := exists_textAt hl
  obtain rfl : text = text' := Except.ok.inj (htext.symm.trans htext')
  have edited := Layer.isEditable_of_writeList hlayer hw
  refine ⟨text, written, htext, hlayer, hw, hread, ?_⟩
  rw [Layer.ofFile, hread]
  dsimp only
  rw [edited.layer]

/-- A list that is written into a settings file, or into a new one, is all that changes in its document, and the
comments that are lost are those inside the old list and behind it. The settings are the old ones with the list. -/
theorem relisted_of_setRules (hp : files.path? scope = some path) (hl : Layer.ofFile t path = .ok l)
    (hset : files.store.setRules scope rules t = (.ok (), t')) :
    ∃ text written d d', textAt t path = .ok text ∧ t'.readText path = .ok written ∧
      Relisted rules text written d d' ∧ Layer.ofFile t' path = .ok (l.withRules rules) := by
  obtain ⟨text, written, htext, hlayer, hw, hread, hlist⟩ := exists_of_setRules hp hl hset
  obtain ⟨d, d', relisted⟩ := exists_relisted hlayer hw
  exact ⟨text, String.ofList written, d, d', htext, hread, relisted, hlist⟩

/-- A file with comments on all sides of the old list, and a table behind it. -/
def commentedFile : Tree := (Tree.empty ["w"]).add ["c", "config.toml"]
  (.file (.text "# mine\nexcludeRules = [ # old\n  'L001',\n] # gone\n\n[linter] # kept\nrun = \"off\"\n"))

theorem relisted_of_setRules_commented : ∃ t',
    (⟨some "/c/config.toml", none⟩ : SettingsFiles).store.setRules .global ["L003"] commentedFile = (.ok (), t') ∧
    ∃ text written d d', textAt commentedFile "/c/config.toml" = .ok text ∧ t'.readText "/c/config.toml" = .ok written ∧
      Relisted ["L003"] text written d d' ∧
      Layer.ofFile t' "/c/config.toml" =
        .ok (Layer.withRules ["L003"] { excludeRules := some ["L001"], run := some .off }) := by
  have hset : ((⟨some "/c/config.toml", none⟩ : SettingsFiles).store.setRules .global ["L003"] commentedFile).1 =
      .ok () := by
    decide +kernel
  have hl : Layer.ofFile commentedFile "/c/config.toml" = .ok { excludeRules := some ["L001"], run := some .off } := by
    decide +kernel
  exact ⟨_, Prod.ext hset rfl, relisted_of_setRules rfl hl (Prod.ext hset rfl)⟩

example : Toml.writeList rulesKey ["L003"] "# mine\nexcludeRules = [] # gone\n".toList =
    .ok "# mine\nexcludeRules = [\"L003\"]\n".toList := by
  decide +kernel

end SettingsFiles
end SqlLint
