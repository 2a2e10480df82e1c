import SqlLint.Proofs.Server.Settings
import Mathlib.Data.List.Induction

/-! # Open documents and the active one

Which documents the server tracks and which of them is the active one is told from what the editor has said
about documents while the session ran, and from nothing else. -/
namespace SqlLint
open Relation

namespace History

/-- The notification that an input brings, if it is heard: only a session that runs hears what is said about
documents. -/
def notification? (h : History) : Input → Option Notification
  | .notification n _ => if h.phase = .running then some n else none
  | _ => none

/-- The notifications of a run that are heard. -/
def notifications : History → List Input → List Notification
  | _, [] => []
  | h, i :: inputs => (h.notification? i).toList ++ (h.after i).notifications inputs

end History

/-- The notification that an input brings, whether it is heard or not. -/
def Input.notification? : Input → Option Notification
  | .notification n _ => some n
  | _ => none

namespace Notification

variable {α : Type}

/-- Whether something happened in a list of events and something else has been the case since then. Both may
depend on what was in front. -/
def Since (starts keeps : List α → α → Prop) (events : List α) : Prop :=
  ∃ before first after, events = before ++ first :: after ∧ starts before first ∧
    ∀ front e back, after = front ++ e :: back → keeps (before ++ first :: front) e

theorem since_nil (starts keeps : List α → α → Prop) : ¬ Since starts keeps [] := by
  rintro ⟨before, first, after, h, -⟩
  cases before <;> cases h

/-- One event later it has just happened, or it had happened and is still the case. -/
theorem since_concat {starts keeps : List α → α → Prop} {events : List α} {e : α} :
    Since starts keeps (events ++ [e]) ↔ starts events e ∨ (Since starts keeps events ∧ keeps events e) := by
  constructor
  · rintro ⟨before, first, after, h, hs, hk⟩
    rcases List.eq_nil_or_concat after with rfl | ⟨front, last, rfl⟩
    · obtain ⟨rfl, rest⟩ := List.append_inj' h rfl
      obtain rfl := List.singleton_inj.1 rest
      exact .inl hs
    · rw [List.concat_eq_append] at h hk
      rw [← List.cons_append, ← List.append_assoc] at h
      obtain ⟨rfl, rest⟩ := List.append_inj' h rfl
      obtain rfl := List.singleton_inj.1 rest
      refine .inr ⟨⟨before, first, front, rfl, hs, fun a m b hm => hk a m (b ++ [e]) ?_⟩, hk front e [] rfl⟩
      rw [hm, List.append_assoc, List.cons_append]
  · rintro (hs | ⟨⟨before, first, after, rfl, hs, hk⟩, he⟩)
    · refine ⟨events, e, [], rfl, hs, fun front m back h => ?_⟩
      cases front <;> cases h
    · refine ⟨before, first, after ++ [e], by simp, hs, fun front m back h => ?_⟩
      rcases List.eq_nil_or_concat back with rfl | ⟨back, last, rfl⟩
      · obtain ⟨rfl, rest⟩ := List.append_inj' h rfl
        obtain rfl := List.singleton_inj.1 rest
        exact he
      · rw [List.concat_eq_append, ← List.cons_append, ← List.append_assoc] at h
        exact hk front m back (List.append_inj' h rfl).1

/-- The document that is opened. Only supported languages count. -/
def opened? : Notification → Option String
  | .opened uri language _ => if Provider.isSupported language then some uri.text else none
  | _ => none

/-- The document that is changed or saved. -/
def edited? : Notification → Option String
  | .changed uri _ | .saved uri _ => some uri.text
  | _ => none

def closed? : Notification → Option String
  | .closed uri => some uri.text
  | _ => none

/-- A document was opened and has not been closed since. -/
def Tracked (said : List Notification) (uri : String) : Prop :=
  Since (fun _ n => n.opened? = some uri) (fun _ n => n.closed? ≠ some uri) said

/-- The editor is at work on a document: it opens it, or it changes or saves it while it is tracked. -/
def Works (said : List Notification) (n : Notification) (uri : String) : Prop :=
  n.opened? = some uri ∨ (n.edited? = some uri ∧ Tracked said uri)

/-- The editor was at work on a document. Since then it was at work on none, nor has it closed this one. -/
def Active (said : List Notification) (uri : String) : Prop :=
  Since (fun before n => Works before n uri)
    (fun before n => (∀ other, ¬ Works before n other) ∧ n.closed? ≠ some uri) said

variable {said : List Notification} {uri : String} {n : Notification}

theorem closed?_of_edited? (h : n.edited? = some uri) : n.closed? = none := by
  cases n with
  | closed u => cases h
  | _ => rfl

theorem tracked_concat :
    Tracked (said ++ [n]) uri ↔ n.opened? = some uri ∨ (Tracked said uri ∧ n.closed? ≠ some uri) := since_concat

theorem active_concat : Active (said ++ [n]) uri ↔
    Works said n uri ∨ (Active said uri ∧ (∀ other, ¬ Works said n other) ∧ n.closed? ≠ some uri) :=
  since_concat

/-- The active document is a tracked one. -/
theorem Active.tracked (h : Active said uri) : Tracked said uri := by
  induction said using List.reverseRecOn with
  | nil => exact absurd h (since_nil _ _)
  | append_singleton said n ih =>
    rw [tracked_concat]
    rcases active_concat.1 h with (opens | ⟨edits, tracked⟩) | ⟨active, -, kept⟩
    · exact .inl opens
    · exact .inr ⟨tracked, by rw [closed?_of_edited? edits]; nofun⟩
    · exact .inr ⟨ih active, kept⟩

end Notification

namespace Server
open Notification

variable {s : Server} {said : List Notification} {uri : String} {n : Notification}

theorem isOpen_eq (s : Server) (uri : String) : s.isOpen uri = (s.text? uri).isSome := by
  rw [isOpen, text?, Option.isSome_map]

/-- A document is open if it has just been opened, or if it was and has not been closed. -/
theorem isOpen_deed (n : Notification) (s : Server) (uri : String) : (deed n s).isOpen uri = true ↔
    n.opened? = some uri ∨ (s.isOpen uri = true ∧ n.closed? ≠ some uri) := by
  rw [isOpen_eq, isOpen_eq, text?_deed]
  have sameText (u : Uri) (f : List Char → List Char) :
      (Function.update s.text? u.text ((s.text? u.text).map f) uri).isSome = (s.text? uri).isSome := by
    rw [Function.update_apply]
    split
    · next hu => rw [hu, Option.isSome_map]
    · rfl
  cases n with
  | opened u language text =>
    simp only [Notification.effect, opened?, closed?]
    split
    · rw [Function.update_apply]
      by_cases hu : uri = u.text
      · simp [hu]
      · simp [hu, Ne.symm hu]
    · simp
  | closed u =>
    simp only [Notification.effect, Function.update_apply, opened?, closed?]
    by_cases hu : uri = u.text
    · simp [hu]
    · simp [hu, Ne.symm hu]
  | changed u changes => simp [Notification.effect, sameText, opened?, closed?]
  | saved u text => simp [Notification.effect, sameText, opened?, closed?]
  | _ => simp [Notification.effect, opened?, closed?]

theorem language?_amend (u : String) (f : List Char → List Char) (s : Server) :
    (deed.amend u f s).language? = s.language? := by
  unfold deed.amend
  split
  · funext other
    rw [language?, document?_activate, document?_update, language?]
    split
    · rw [Option.map_map]
      rfl
    · rfl
  · rfl

/-- A document has the language that it had, or else a supported one. -/
theorem language?_deed {language : String} (h : (deed n s).language? uri = some language) :
    s.language? uri = some language ∨ Provider.isSupported language = true := by
  cases n with
  | opened u l text =>
    rw [deed] at h
    split at h
    · next supported =>
      rw [language?, document?_activate, document?_openDocument] at h
      split at h
      · exact .inr (Option.some.inj h ▸ supported)
      · exact .inl h
    · exact .inl h
  | closed u =>
    rw [deed, language?, document?_closeDocument] at h
    split at h
    · cases h
    · exact .inl h
  | changed u changes =>
    rw [deed, language?_amend] at h
    exact .inl h
  | saved u text =>
    rw [deed, language?_amend] at h
    exact .inl h
  | _ => exact .inl h

/-- The active document is the one that the editor is at work on, or else the one that it was, unless that is
closed. -/
theorem active_deed (n : Notification) (s : Server) (uri : String) : (deed n s).active = some uri ↔
    (n.opened? = some uri ∨ (n.edited? = some uri ∧ s.isOpen uri = true)) ∨
      (s.active = some uri ∧ (∀ other, ¬ (n.opened? = some other ∨ (n.edited? = some other ∧ s.isOpen other = true))) ∧
        n.closed? ≠ some uri) := by
  have amend (u : String) (f : List Char → List Char) : (deed.amend u f s).active = some uri ↔
      (u = uri ∧ s.isOpen uri = true) ∨ (s.active = some uri ∧ ¬ s.isOpen u = true) := by
    unfold deed.amend
    by_cases hu : u = uri
    · subst hu
      split <;> simp_all [activate]
    · split <;> simp_all [activate]
  cases n with
  | opened u language text =>
    simp only [deed, opened?, edited?, closed?]
    split <;> simp [activate]
  | closed u =>
    simp only [deed, closeDocument, opened?, edited?, closed?]
    by_cases hu : s.active = some u.text
    · simp [hu]
    · simp only [hu, if_false]
      refine ⟨fun h => .inr ⟨h, by simp, fun same => hu (h.trans same.symm)⟩, fun h => ?_⟩
      exact (h.resolve_left (by simp)).1
  | changed u changes => simpa [deed, opened?, edited?, closed?] using amend u.text _
  | saved u text => simpa [deed, opened?, edited?, closed?] using amend u.text _
  | _ => simp [deed, opened?, edited?, closed?, taking]

/-- The server tracks the documents that the editor has opened, and the active one is that on which it was
at work at last. -/
structure Tracks (said : List Notification) (s : Server) : Prop where
  isOpen : ∀ uri, s.isOpen uri = true ↔ Tracked said uri
  language : ∀ uri language, s.language? uri = some language → Provider.isSupported language = true
  active : ∀ uri, s.active = some uri ↔ Active said uri

theorem tracks_nil (globalFile : Option String) : Tracks [] { globalFile := globalFile } where
  isOpen _ := ⟨nofun, fun h => absurd h (since_nil _ _)⟩
  language := nofun
  active _ := ⟨nofun, fun h => absurd h (since_nil _ _)⟩

theorem Tracks.deed (h : Tracks said s) (n : Notification) : Tracks (said ++ [n]) (Server.deed n s) where
  isOpen uri := by rw [isOpen_deed, tracked_concat, h.isOpen]
  language uri language hl := (language?_deed hl).elim (h.language uri language) id
  active uri := by
    simp only [active_deed, active_concat, Works, h.isOpen, h.active]

theorem Tracks.of_same {s' : Server} (h : Tracks said s) (text : s'.text? = s.text?)
    (language : s'.language? = s.language?) (active : s'.active = s.active) : Tracks said s' where
  isOpen uri := by rw [isOpen_eq, text, ← isOpen_eq, h.isOpen]
  language uri := by rw [language]; exact h.language uri
  active uri := by rw [active, h.active]

theorem Tracks.turns {e : Environment} {s s' : Session} (h : Tracks said s.server)
    (ht : ReflTransGen (Turn e) s s') : Tracks said s'.server :=
  h.of_same (text?_of_turn ht)
    (Turn.keeps (f := fun s => s.server.language?) (fun _ _ => Move.language?) (fun _ => rfl) (fun _ => rfl) ht)
    (Turn.keeps (f := fun s => s.server.active) (fun _ _ => Move.active) (fun _ => rfl) (fun _ => rfl) ht)

end Server

namespace Session
open Server Notification

variable {globalFile : Option String} {h : History} {s : Session} {said : List Notification}

theorem tracks_heard (follows : Follows globalFile h s) (tracks : Tracks said s.server) (i : Input) :
    Tracks (said ++ (h.notification? i).toList) (s.heard i).server := by
  cases i with
  | files t => exact (List.append_nil said).symm ▸ tracks
  | request r e =>
    have asked : Tracks said (Request.deed r s.server) := by
      cases r with
      | start p =>
        rw [Request.deed]
        cases p.options <;> exact tracks.of_same rfl rfl rfl
      | _ => exact tracks.of_same rfl rfl rfl
    have heard : s.heard (.request r e) = { s with server := Request.deed r s.server } ∨
        s.heard (.request r e) = s := by
      rw [heard_request]
      exact ite_eq_or_eq ..
    rw [History.notification?, Option.toList_none, List.append_nil]
    · rcases heard with hs | hs
      · exact hs ▸ asked
      · exact hs.symm ▸ tracks
    · intro n e h
      cases h
  | notification n e =>
    rw [History.notification?, ← follows.phase]
    by_cases last : n = .exit
    · subst last
      have ended := tracks.deed .exit
      split
      · exact ended.of_same rfl rfl rfl
      · rw [Option.toList_none, List.append_nil]
        exact tracks.of_same rfl rfl rfl
    · rw [heard_notification last]
      split
      · exact tracks.deed n
      · rwa [Option.toList_none, List.append_nil]

theorem tracks_step (follows : Follows globalFile h s) (tracks : Tracks said s.server) (i : Input) :
    Tracks (said ++ (h.notification? i).toList) (s.step i).server := by
  have heard := tracks_heard follows tracks i
  rcases step_turn s i with hs | ⟨e, -, ht⟩
  · exact hs.symm ▸ heard
  · exact heard.turns ht

theorem tracks_run (follows : Follows globalFile h s) (tracks : Tracks said s.server) (inputs : List Input) :
    Tracks (said ++ h.notifications inputs) (s.run inputs).server := by
  induction inputs generalizing h s said with
  | nil => rwa [History.notifications, List.append_nil]
  | cons i inputs ih =>
    rw [History.notifications, ← List.append_assoc]
    exact ih (follows_step follows i) (tracks_step follows tracks i)

/-- After every run the tracked documents are those that were opened in a supported language and not closed
since, each of them has a supported language, and the active document is that of the last work on one, if it has
not been closed since, and so a tracked one. What counts is what the editor says while the session runs. -/
theorem tracked_of_run (globalFile : Option String) (t : Tree) (inputs : List Input) :
    (∀ uri, ((fresh globalFile t).run inputs).server.isOpen uri = true ↔
      Tracked (History.notifications {} inputs) uri) ∧
    (∀ uri d, ((fresh globalFile t).run inputs).server.document? uri = some d →
      Provider.isSupported d.language = true) ∧
    (∀ uri, ((fresh globalFile t).run inputs).server.active = some uri ↔
      Active (History.notifications {} inputs) uri) ∧
    ∀ uri, ((fresh globalFile t).run inputs).server.active = some uri →
      ((fresh globalFile t).run inputs).server.isOpen uri = true := by
  have tracks := tracks_run (follows_fresh globalFile t) (tracks_nil globalFile) inputs
  rw [List.nil_append] at tracks
  refine ⟨tracks.isOpen, fun uri d hd => tracks.language uri d.language ?_, tracks.active, fun uri hu => ?_⟩
  · rw [language?, hd, Option.map_some]
  · exact (tracks.isOpen uri).2 ((tracks.active uri).1 hu).tracked

/-- What an editor says of a document before it has told the server to stop and afterwards. -/
def closingLate : List Input :=
  [.request (.start ⟨[], none, none, false⟩) (.granting ""),
    .notification (.opened ⟨"untitled:", []⟩ "sql" ['a']) (.granting ""), .request .stop (.granting ""),
    .notification (.closed ⟨"untitled:", []⟩) (.granting "")]

/-- A document that is closed after the server was told to stop is still tracked. -/
theorem tracked_of_run_after_stop :
    ¬ ∀ (globalFile : Option String) (t : Tree) (inputs : List Input) (uri : String),
      ((fresh globalFile t).run inputs).server.isOpen uri = true ↔
        Tracked (inputs.filterMap Input.notification?) uri := by
  intro h
  have said : closingLate.filterMap Input.notification? =
      [.opened ⟨"untitled:", []⟩ "sql" ['a']] ++ [.closed ⟨"untitled:", []⟩] := rfl
  have open_ : ((fresh none (.empty [])).run closingLate).server.isOpen "untitled:" = true := rfl
  have tracked := (h none (.empty []) closingLate "untitled:").1 open_
  rw [said, tracked_concat] at tracked
  rcases tracked with opens | ⟨-, kept⟩
  · cases opens
  · exact kept rfl

end Session
end SqlLint
