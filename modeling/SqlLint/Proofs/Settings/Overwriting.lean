import SqlLint.Proofs.Settings.Recall
import SqlLint.Proofs.Settings.Rewriting
import SqlLint.Proofs.Toml.Overwriting

/-! # The last list that is written

Of lists that are written into a settings file one after the other only the last one leaves a trace in its text. The
text of the first write may differ from that of later ones in blanks in front of names that lead from one of
repeated tables both to a value and to a header, which are lost when the file is read again. -/
namespace SqlLint

/-- The requests that write the list of a scope. -/
inductive Store.Request.Writes (scope : Scope) : Store.Request → Prop
  | set (rules : List String) : Writes scope (.set scope rules)
  | exclude (rule : String) : Writes scope (.exclude scope rule)

theorem Rule.exclude_exclude (rules : List String) (rule : String) :
    Rule.exclude (Rule.exclude rules rule) rule = Rule.exclude rules rule :=
  exclude_of_mem (isStableSort_sort (add rules rule)).ordered (mem_exclude.2 (.inr rfl))

/-- Whether a file can be written does not depend on what is written. -/
theorem Tree.exists_write {path : String} {content : Content} {t t' : Tree}
    (h : Tree.write path content t = (.ok (), t')) (other : Content) : ∃ u, Tree.write path other t = (.ok (), u) := by
  obtain ⟨hlocate, runs, htarget, -⟩ := Tree.write_ok h
  rw [Tree.write_apply] at h ⊢
  split at h
  · split at h <;> cases h
  · next hslash =>
    rw [if_neg hslash, hlocate]
    dsimp only
    rw [htarget]
    exact ⟨_, rfl⟩

namespace SettingsFiles
open Toml (Document Scalar)
open Store (Request)

variable {t t' : Tree} {files : SettingsFiles} {scope : Scope} {path text : String} {rules : List String}
  {l : Layer} {d : Document} {request : Request} {requests : List Request}

/-! ## Files that are saved again -/

theorem exists_of_onFiles {α : Type} {action : Tree.Action α} {a : α} (h : onFiles action t = (.ok a, t')) :
    action t = (.ok a, t') := by
  rw [onFiles_apply] at h
  split at h
  · next ha =>
    cases h
    exact ha
  · cases h

/-- Whether a file can be saved does not depend on its text. -/
theorem exists_save (h : save path text t = (.ok (), t')) (other : String) : ∃ u, save path other t = (.ok (), u) := by
  have hwrite {t t' : Tree} (h : onFiles (Tree.write path (.text text)) t = (.ok (), t')) :
      ∃ u, onFiles (Tree.write path (.text other)) t = (.ok (), u) := by
    obtain ⟨u, hu⟩ := Tree.exists_write (exists_of_onFiles h) (.text other)
    exact ⟨u, by rw [onFiles_apply, hu]⟩
  rw [save] at h ⊢
  cases hp : Path.parent? path with
  | none =>
    rw [hp] at h
    exact hwrite h
  | some parent =>
    rw [hp] at h
    obtain ⟨_, u, hmade, h⟩ := exists_of_fallible_bind h
    dsimp only
    rw [fallible_bind, hmade]
    exact hwrite h

/-- A file that was saved can be saved again. -/
theorem canWrite_of_save (h : save path text t = (.ok (), t')) : t'.CanWrite path := by
  have saved := saved_save path text t
  rw [h] at saved
  cases saved with
  | @done u runs hadds hlocate htarget =>
    rw [← hadds.here] at hlocate htarget ⊢
    obtain ⟨taken, -, way⟩ := Tree.locate_eq_ok_iff.1 hlocate
    have hnode := Tree.not_isPassable_of_target? htarget
    have hway : ∀ q ∈ Path.wayTo u.here path,
        (u.put (Path.place u.here path) (.file (.text text) .free runs)).isPassable q = true :=
      fun q hq => Tree.isPassable_put hnode (way q hq)
    have hstart : Path.start u.here path ∈ Path.wayTo u.here path := by
      have hn : Path.names path ≠ [] := fun he => Text.splitOn_ne_nil '/' path.toList (List.map_eq_nil_iff.1 he)
      obtain ⟨name, names, hnames⟩ := List.exists_cons_of_ne_nil hn
      rw [Path.wayTo, hnames]
      exact List.mem_cons_self
    refine ⟨taken, hway _ hstart, fun q hq => .inl (hway q hq), fun hq => ?_,
      Tree.target?_put (Tree.ne_nil_of_target? htarget) ⟨runs, htarget⟩⟩
    exact Bool.false_ne_true (hnode.symm.trans (way _ hq))

/-! ## Lists one after the other -/

/-- A settings file, with its text, its layer and its document, into which lists can be written. -/
structure Opens (path : String) (t : Tree) (text : String) (l : Layer) (d : Document) : Prop where
  reads : textAt t path = .ok text
  layer : Layer.ofFile t path = .ok l
  document : Document.read Scalar.isNarrow text.toList = .ok d
  saves : ∀ other, ∃ t', save path other t = (.ok (), t')

/-- The text that is in a file behind requests, all of which were answered. -/
def Yields (files : SettingsFiles) (path : String) (requests : List Request) (t : Tree) (text : String) : Prop :=
  (∀ answer ∈ files.store.answers requests t, ∃ v, answer = .ok v) ∧
    (files.store.after requests t).readText path = .ok text

/-- A file into which one list can be written is open for lists. -/
theorem exists_opens (hp : files.path? scope = some path) (hl : Layer.ofFile t path = .ok l)
    (hset : files.store.setRules scope rules t = (.ok (), t')) : ∃ text d, Opens path t text l d := by
  obtain ⟨text, written, htext, -, hw, -, -⟩ := exists_of_setRules hp hl hset
  obtain ⟨d, hd⟩ := Toml.read_of_writeList hw
  rw [setRules_apply hp, writeRules_apply, htext] at hset
  dsimp only at hset
  rw [hw] at hset
  exact ⟨text, d, htext, hl, hd, exists_save hset⟩

/-- What a file is after a list was written: it is open for lists, its document is settled, and each other list has
the same text written over it as over the old text, if that was settled. -/
structure Rewritten (path : String) (rules : List String) (text : String) (l : Layer) (d : Document) (t' : Tree)
    (written : String) : Prop where
  edited : Toml.writeList rulesKey rules text.toList = .ok written.toList
  reads : t'.readText path = .ok written
  opens : ∃ d', Opens path t' written (l.withRules rules) d' ∧ d'.IsSettled
  again : ∀ more, Toml.writeList rulesKey more written.toList = Toml.writeList rulesKey more text.toList ↔ d.IsSettled

theorem Opens.setRules (h : Opens path t text l d) (hp : files.path? scope = some path) (rules : List String) :
    ∃ t' written, files.store.setRules scope rules t = (.ok (), t') ∧ Rewritten path rules text l d t' written := by
  obtain ⟨text', htext', hl⟩ := exists_textAt h.layer
  obtain rfl : text = text' := Except.ok.inj (h.reads.symm.trans htext')
  obtain ⟨written, d', hw, hd', hsettled, hagain⟩ := Toml.exists_overwritten h.document Layer.isSpelled_rulesKey
    (fun n hn => Layer.isLeaf_of_ofToml hl h.document hn) rules
  obtain ⟨t', hsave⟩ := h.saves (String.ofList written)
  have hset : files.store.setRules scope rules t = (.ok (), t') := by
    rw [setRules_apply hp, writeRules_apply, h.reads]
    dsimp only
    rw [hw]
    exact hsave
  have hread := readText_of_save hsave
  obtain ⟨-, -, -, -, -, -, hlayer⟩ := exists_of_setRules hp h.layer hset
  refine ⟨t', String.ofList written, hset, ?_, hread, ⟨d', ⟨?_, hlayer, ?_, fun other => ?_⟩, hsettled⟩, ?_⟩
  · rwa [String.toList_ofList]
  · rw [textAt, hread]
  · rwa [String.toList_ofList]
  · obtain ⟨u, runs, hu, -⟩ := save_ok (canWrite_of_save hsave) other
    exact ⟨_, hu⟩
  · rwa [String.toList_ofList]

/-- A request that writes a list is answered, and it writes what it makes of the old list. -/
theorem Opens.perform (h : Opens path t text l d) (hp : files.path? scope = some path) (hr : request.Writes scope) :
    ∃ v t' written, files.store.perform request t = (.ok v, t') ∧
      Rewritten path (request.update (l.excludeRules.getD [])) text l d t' written := by
  cases hr with
  | set rules =>
    obtain ⟨t', written, hset, hwritten⟩ := h.setRules hp rules
    refine ⟨none, t', written, ?_, hwritten⟩
    rw [Store.perform, fallible_bind, hset]
    rfl
  | exclude rule =>
    obtain ⟨t', written, hset, hwritten⟩ := h.setRules hp (Rule.exclude (l.excludeRules.getD []) rule)
    have hrules : files.store.rules scope t = (.ok (l.excludeRules.getD []), t) := by
      rw [rules_apply hp, h.layer]
      rfl
    refine ⟨some (Rule.exclude (l.excludeRules.getD []) rule), t', written, ?_, hwritten⟩
    rw [Store.perform, fallible_bind, Store.exclude_eq_ok hrules hset]
    rfl

theorem Yields.cons {v : Option (List String)} (hr : files.store.perform request t = (.ok v, t'))
    (h : Yields files path requests t' text) : Yields files path (request :: requests) t text := by
  obtain ⟨hall, hread⟩ := h
  rw [Yields, Store.answers, Store.after_cons, hr]
  exact ⟨List.forall_mem_cons.2 ⟨⟨v, rfl⟩, hall⟩, hread⟩

theorem yields_nil (h : t.readText path = .ok text) : Yields files path [] t text := ⟨List.forall_mem_nil _, h⟩

/-- The list that requests make of the one that a layer has. -/
def finalRules (requests : List Request) (l : Layer) : List String :=
  requests.foldl (fun list request => request.update list) (l.excludeRules.getD [])

/-- Requests leave in a settled file the text that it has with their last list alone. -/
theorem Opens.yields (h : Opens path t text l d) (hp : files.path? scope = some path) (hd : d.IsSettled)
    (hr : ∀ request ∈ requests, request.Writes scope) (hn : requests ≠ []) {written : String}
    (hw : Toml.writeList rulesKey (finalRules requests l) text.toList = .ok written.toList) :
    Yields files path requests t written := by
  induction requests generalizing t text l d with
  | nil => exact absurd rfl hn
  | cons request requests ih =>
    obtain ⟨hfirst, hrest⟩ := List.forall_mem_cons.1 hr
    obtain ⟨v, t', written', hperform, hwritten⟩ := h.perform hp hfirst
    refine .cons hperform ?_
    by_cases hmore : requests = []
    · subst hmore
      obtain rfl : written = written' := String.toList_inj.1 (Except.ok.inj (hw.symm.trans hwritten.edited))
      exact yields_nil hwritten.reads
    · obtain ⟨d', hopens, hsettled⟩ := hwritten.opens
      exact ih hopens hsettled hrest hmore (((hwritten.again _).2 hd).trans hw)

/-- A request that makes the same list whether or not another one comes before it leaves the same text, if the file
was settled. Whatever comes in between makes no difference, settled or not. -/
theorem Opens.exists_yields {first last : Request} (h : Opens path t text l d) (hp : files.path? scope = some path)
    (hfirst : first.Writes scope) (hlast : last.Writes scope)
    (hsame : finalRules [first, last] l = finalRules [last] l) :
    ∃ both alone, Yields files path [first, last] t both ∧ Yields files path [last] t alone ∧
      (both = alone ↔ d.IsSettled) ∧
      ∀ more, (∀ request ∈ more, request.Writes scope) →
        finalRules (first :: (more ++ [last])) l = finalRules [first, last] l →
        Yields files path (first :: (more ++ [last])) t both := by
  obtain ⟨v, t₁, written, hperform, hwritten⟩ := h.perform hp hfirst
  obtain ⟨d₁, hopens, hsettled⟩ := hwritten.opens
  obtain ⟨_, _, both, _, hboth⟩ := hopens.perform hp hlast
  obtain ⟨v', t₂, alone, hperform', halone⟩ := h.perform hp hlast
  have hall : ∀ request ∈ [last], request.Writes scope := List.forall_mem_singleton.2 hlast
  have hyields (more : List Request) (hmore : ∀ request ∈ more, request.Writes scope)
      (hrules : finalRules (first :: (more ++ [last])) l = finalRules [first, last] l) :
      Yields files path (first :: (more ++ [last])) t both := by
    refine .cons hperform (hopens.yields hp hsettled (List.forall_mem_append.2 ⟨hmore, hall⟩) (by simp) ?_)
    exact (congrArg (fun rules => Toml.writeList rulesKey rules written.toList) hrules).trans hboth.edited
  refine ⟨both, alone, hyields [] (List.forall_mem_nil _) rfl, .cons hperform' (yields_nil halone.reads), ?_, hyields⟩
  have hlist : Toml.writeList rulesKey (finalRules [last] l) written.toList = .ok both.toList := hsame ▸ hboth.edited
  have halone' : Toml.writeList rulesKey (finalRules [last] l) text.toList = .ok alone.toList := halone.edited
  rw [← hwritten.again (finalRules [last] l), hlist, halone', Except.ok.injEq, String.toList_inj]

theorem finalRules_concat_set (requests : List Request) (l : Layer) (rules : List String) :
    finalRules (requests ++ [.set scope rules]) l = rules := by
  rw [finalRules, List.foldl_append]
  rfl

theorem finalRules_replicate (n : Nat) (rule : String) (l : Layer) :
    finalRules (List.replicate (n + 1) (.exclude scope rule)) l = Rule.exclude (l.excludeRules.getD []) rule := by
  induction n with
  | zero => rfl
  | succ n ih =>
    rw [List.replicate_succ', finalRules, List.foldl_append, ← finalRules, ih]
    exact Rule.exclude_exclude _ rule

/-- Of lists that are written one after the other into a settings file, or into a new one, only the last one leaves a
trace in the text, if the document was settled. If it was not, that holds from the first write on. The same goes
for a rule that is added again and again. -/
theorem yields_of_setRules (hp : files.path? scope = some path) (hl : Layer.ofFile t path = .ok l)
    (hset : files.store.setRules scope rules t = (.ok (), t')) :
    ∃ text d, textAt t path = .ok text ∧ Document.read Scalar.isNarrow text.toList = .ok d ∧
      (∀ first last, ∃ both alone, Yields files path [.set scope first, .set scope last] t both ∧
        Yields files path [.set scope last] t alone ∧ (both = alone ↔ d.IsSettled) ∧
        ∀ more : List (List String),
          Yields files path (.set scope first :: (more.map (.set scope) ++ [.set scope last])) t both) ∧
      ∀ rule, ∃ twice once, Yields files path [.exclude scope rule, .exclude scope rule] t twice ∧
        Yields files path [.exclude scope rule] t once ∧ (twice = once ↔ d.IsSettled) ∧
        ∀ n, Yields files path (List.replicate (n + 2) (.exclude scope rule)) t twice := by
  obtain ⟨text, d, hopens⟩ := exists_opens hp hl hset
  refine ⟨text, d, hopens.reads, hopens.document, fun first last => ?_, fun rule => ?_⟩
  · obtain ⟨both, alone, hboth, halone, hiff, hmore⟩ := hopens.exists_yields hp (.set first) (.set last) rfl
    refine ⟨both, alone, hboth, halone, hiff, fun more => hmore _ ?_ ?_⟩
    · intro request hr
      obtain ⟨rules, -, rfl⟩ := List.mem_map.1 hr
      exact .set rules
    · rw [← List.cons_append, finalRules_concat_set]
      rfl
  · have hsame : finalRules [.exclude scope rule, .exclude scope rule] l = finalRules [.exclude scope rule] l :=
      finalRules_replicate 1 rule l
    obtain ⟨twice, once, htwice, honce, hiff, hmore⟩ := hopens.exists_yields hp (.exclude rule) (.exclude rule) hsame
    refine ⟨twice, once, htwice, honce, hiff, fun n => ?_⟩
    have hreplicate : List.replicate (n + 2) (Request.exclude scope rule) =
        .exclude scope rule :: (List.replicate n (.exclude scope rule) ++ [.exclude scope rule]) := by
      rw [← List.replicate_succ', ← List.replicate_succ]
    rw [hreplicate]
    refine hmore _ (fun request hr => ?_) ?_
    · rw [List.eq_of_mem_replicate hr]
      exact .exclude rule
    · rw [← hreplicate, finalRules_replicate]
      exact hsame.symm

/-- A file with a name that leads from one of repeated tables to a value and to a header, without a blank. -/
def settledFile : Tree := (Tree.empty ["w"]).add ["c", "config.toml"]
  (.file (.text "excludeRules = [ 'L001' ] # old\n[[t]]\na . b = 1\n[t.a.c]\n"))

theorem yields_of_setRules_settled : ∃ text text' : String,
    Yields ⟨some "/c/config.toml", none⟩ "/c/config.toml" [.set .global ["L002"], .set .global ["L003"]] settledFile text ∧
    Yields ⟨some "/c/config.toml", none⟩ "/c/config.toml" [.set .global ["L003"]] settledFile text ∧
    Yields ⟨some "/c/config.toml", none⟩ "/c/config.toml" [.exclude .global "L003", .exclude .global "L003"] settledFile text' ∧
    Yields ⟨some "/c/config.toml", none⟩ "/c/config.toml" [.exclude .global "L003"] settledFile text' := by
  have hl : Layer.ofFile settledFile "/c/config.toml" = .ok { excludeRules := some ["L001"] } := by decide +kernel
  have hset : ((⟨some "/c/config.toml", none⟩ : SettingsFiles).store.setRules .global [] settledFile).1 = .ok () := by
    decide +kernel
  have hsettled : (Document.read Scalar.isNarrow "excludeRules = [ 'L001' ] # old\n[[t]]\na . b = 1\n[t.a.c]\n".toList).map
      (fun d => decide d.IsSettled) = .ok true := by
    decide +kernel
  obtain ⟨text, d, htext, hd, hsets, hexclusions⟩ := yields_of_setRules rfl hl (Prod.ext hset rfl)
  obtain rfl : "excludeRules = [ 'L001' ] # old\n[[t]]\na . b = 1\n[t.a.c]\n" = text := Except.ok.inj htext
  rw [hd] at hsettled
  have hsettled : d.IsSettled := of_decide_eq_true (Except.ok.inj hsettled)
  obtain ⟨both, alone, hboth, halone, hiff, -⟩ := hsets ["L002"] ["L003"]
  obtain ⟨twice, once, htwice, honce, hiff', -⟩ := hexclusions "L003"
  obtain rfl := hiff.2 hsettled
  obtain rfl := hiff'.2 hsettled
  exact ⟨both, twice, hboth, halone, htwice, honce⟩

/-- A file with a name that leads there with a blank in front. -/
def spacedFile : Tree := (Tree.empty ["w"]).add ["c", "config.toml"]
  (.file (.text "[[t.a]]\n[t]\na. b.c = 1\n[t.a.b.d]\n"))

theorem opens_spacedFile : ∃ text l d, Opens "/c/config.toml" spacedFile text l d ∧ ¬ d.IsSettled := by
  have hl : Layer.ofFile spacedFile "/c/config.toml" = .ok {} := by decide +kernel
  have hset : ((⟨some "/c/config.toml", none⟩ : SettingsFiles).store.setRules .global [] spacedFile).1 = .ok () := by
    decide +kernel
  have hsettled : (Document.read Scalar.isNarrow "[[t.a]]\n[t]\na. b.c = 1\n[t.a.b.d]\n".toList).map
      (fun d => decide d.IsSettled) = .ok false := by
    decide +kernel
  obtain ⟨text, d, hopens⟩ := exists_opens rfl hl (Prod.ext hset rfl)
  obtain rfl : "[[t.a]]\n[t]\na. b.c = 1\n[t.a.b.d]\n" = text := Except.ok.inj hopens.reads
  rw [hopens.document] at hsettled
  exact ⟨_, _, d, hopens, of_decide_eq_false (Except.ok.inj hsettled)⟩

/-- A rule that is added a second time may change the text, and so may a list that is written a second time. -/
theorem exists_yields_ne : ∃ both alone twice once : String,
    Yields ⟨some "/c/config.toml", none⟩ "/c/config.toml" [.set .global ["A"], .set .global ["A"]] spacedFile both ∧
    Yields ⟨some "/c/config.toml", none⟩ "/c/config.toml" [.set .global ["A"]] spacedFile alone ∧ both ≠ alone ∧
    Yields ⟨some "/c/config.toml", none⟩ "/c/config.toml" [.exclude .global "A", .exclude .global "A"] spacedFile twice ∧
    Yields ⟨some "/c/config.toml", none⟩ "/c/config.toml" [.exclude .global "A"] spacedFile once ∧ twice ≠ once := by
  obtain ⟨text, l, d, hopens, hsettled⟩ := opens_spacedFile
  have hp : (⟨some "/c/config.toml", none⟩ : SettingsFiles).path? .global = some "/c/config.toml" := rfl
  obtain ⟨both, alone, hboth, halone, hset, -⟩ := hopens.exists_yields hp (.set ["A"]) (.set ["A"]) rfl
  obtain ⟨twice, once, htwice, honce, hexclude, -⟩ := hopens.exists_yields hp (.exclude "A") (.exclude "A")
    (finalRules_replicate 1 "A" l)
  exact ⟨both, alone, twice, once, hboth, halone, mt hset.1 hsettled, htwice, honce, mt hexclude.1 hsettled⟩

end SettingsFiles
end SqlLint
