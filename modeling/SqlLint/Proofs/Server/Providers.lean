import SqlLint.Proofs.Server.Run
import Mathlib.Data.Finset.Dedup
import Mathlib.Data.Finset.Disjoint
import Mathlib.Data.Finset.Lattice.Basic
import Mathlib.Data.Finset.SDiff

/-! # Providers of the server and of the editor

The editor holds the identifiers that it has taken and not given back. A step of a session either has
nothing to do with providers, or brings them in line with the settings, or takes them back. -/
namespace SqlLint
open Relation

namespace Provider

theorem id_injective : Function.Injective id := by
  rintro ⟨l, a⟩ ⟨m, b⟩ h
  have hl := congrArg String.toList h
  simp only [id, String.toList_append] at hl
  have kinds : a = b := by cases a <;> cases b <;> simp [ProviderKind.name] at hl ⊢
  subst kinds
  rw [String.toList_injective (List.append_cancel_left hl)]

/-- The identifiers of some providers. -/
def ids (providers : List Provider) : Finset String := (providers.map id).toFinset

variable {ps qs : List Provider} {p : Provider}

theorem mem_ids {i : String} : i ∈ ids ps ↔ ∃ p ∈ ps, p.id = i := by
  simp [ids]

theorem id_mem_ids : p.id ∈ ids ps ↔ p ∈ ps := by
  rw [mem_ids]
  exact ⟨fun ⟨q, hq, h⟩ => id_injective h ▸ hq, fun h => ⟨p, h, rfl⟩⟩

theorem wanted_nodup (s : Settings) : (wanted s).Nodup := by
  unfold wanted kinds
  cases s.osmosis <;> decide

theorem ids_filter_mem (ps qs : List Provider) : ids (ps.filter (· ∈ qs)) = ids ps \ ids (ps.filter (· ∉ qs)) := by
  ext i
  simp only [Finset.mem_sdiff, mem_ids, List.mem_filter, decide_eq_true_eq]
  constructor
  · rintro ⟨p, ⟨hp, hq⟩, rfl⟩
    refine ⟨⟨p, hp, rfl⟩, ?_⟩
    rintro ⟨p', ⟨-, hn⟩, hi⟩
    exact hn (id_injective hi ▸ hq)
  · rintro ⟨⟨p, hp, rfl⟩, hn⟩
    exact ⟨p, ⟨hp, by_contra fun hq => hn ⟨p, ⟨hp, hq⟩, rfl⟩⟩, rfl⟩

/-- What is wanted is what is there of it and what is missing of it. -/
theorem ids_union_filter_not_mem (ps qs : List Provider) :
    ids (ps.filter (· ∈ qs)) ∪ ids (qs.filter (· ∉ ps)) = ids qs := by
  ext i
  simp only [Finset.mem_union, mem_ids, List.mem_filter, decide_eq_true_eq]
  constructor
  · rintro (⟨p, ⟨-, hq⟩, rfl⟩ | ⟨p, ⟨hq, -⟩, rfl⟩) <;> exact ⟨p, hq, rfl⟩
  · rintro ⟨p, hq, rfl⟩
    by_cases hp : p ∈ ps
    · exact .inl ⟨p, ⟨hp, hq⟩, rfl⟩
    · exact .inr ⟨p, ⟨hq, hp⟩, rfl⟩

theorem ids_filter_subset (ps : List Provider) (f : Provider → Bool) : ids (ps.filter f) ⊆ ids ps := by
  intro i hi
  obtain ⟨p, hp, rfl⟩ := mem_ids.1 hi
  exact id_mem_ids.2 (List.mem_filter.1 hp).1

theorem ids_filter_mem_union (ps qs : List Provider) :
    ids (ps.filter (· ∈ qs)) ∪ ids (ps.filter (· ∉ qs)) = ids ps := by
  rw [ids_filter_mem, Finset.sdiff_union_of_subset (ids_filter_subset ..)]

theorem disjoint_ids_filter_not_mem (ps qs : List Provider) : Disjoint (ids (qs.filter (· ∉ ps))) (ids ps) := by
  rw [Finset.disjoint_left]
  intro i hi hp
  obtain ⟨q, hq, rfl⟩ := mem_ids.1 hi
  exact (of_decide_eq_true (List.mem_filter.1 hq).2) (id_mem_ids.1 hp)

theorem nodup_map_id : (ps.map id).Nodup ↔ ps.Nodup := List.nodup_map_iff id_injective

theorem ids_eq_empty : ids ps = ∅ ↔ ps = [] := by simp [ids]

end Provider

open Provider (ids)

/-- Whether an event is a request about providers. -/
def Event.isRegistration : Event → Bool
  | .request r => r.isRegistration
  | _ => false

/-- A request about providers fits what the editor holds if it offers nothing that the editor holds, takes
back nothing else, and names nothing twice. -/
def Event.Fits (held : Finset String) : Event → Prop
  | .request (.register ps) => (ps.map Provider.id).Nodup ∧ Disjoint (ids ps) held
  | .request (.unregister ps) => (ps.map Provider.id).Nodup ∧ ids ps ⊆ held
  | _ => True

namespace Environment

variable (e : Environment)

/-- Whether the editor does what it is asked for. -/
def Takes (r : EditorRequest) : Prop := e.refusal? r = none

instance (r : EditorRequest) : Decidable (e.Takes r) := inferInstanceAs (Decidable (_ = _))

/-- What the editor holds after an event. -/
def hold (held : Finset String) : Event → Finset String
  | .request (.register ps) => if e.Takes (.register ps) then held ∪ ids ps else held
  | .request (.unregister ps) => if e.Takes (.unregister ps) then held \ ids ps else held
  | _ => held

/-- What the editor holds after some events. -/
def holdAll (held : Finset String) (events : List Event) : Finset String := events.foldl e.hold held

/-- Each event fits what the editor holds when it is sent. -/
def AllFit : Finset String → List Event → Prop
  | _, [] => True
  | held, event :: events => event.Fits held ∧ AllFit (e.hold held event) events

/-- The editor gives back whatever it is asked for. -/
def GivesBack : Prop := ∀ ps, e.Takes (.unregister ps)

variable {e}

theorem holdAll_append (held : Finset String) (es fs : List Event) :
    e.holdAll held (es ++ fs) = e.holdAll (e.holdAll held es) fs := List.foldl_append

theorem allFit_append {held : Finset String} {es fs : List Event} :
    e.AllFit held (es ++ fs) ↔ e.AllFit held es ∧ e.AllFit (e.holdAll held es) fs := by
  induction es generalizing held with
  | nil => exact (and_iff_right trivial).symm
  | cons event es ih => exact (and_congr_right fun _ => ih).trans and_assoc.symm

theorem hold_of_not_isRegistration {event : Event} (h : event.isRegistration = false) (held : Finset String) :
    e.hold held event = held ∧ event.Fits held := by
  cases event with
  | request r => cases r <;> first | exact ⟨rfl, trivial⟩ | cases h
  | _ => exact ⟨rfl, trivial⟩

/-- Other events change nothing of what the editor holds. -/
theorem holdAll_of_not_isRegistration {events : List Event} (h : ∀ event ∈ events, event.isRegistration = false)
    (held : Finset String) : e.holdAll held events = held ∧ e.AllFit held events := by
  induction events with
  | nil => exact ⟨rfl, trivial⟩
  | cons event events ih =>
    obtain ⟨hh, hf⟩ := hold_of_not_isRegistration (e := e) (h event List.mem_cons_self) held
    obtain ⟨ih, ihf⟩ := ih fun other ho => h other (List.mem_cons_of_mem _ ho)
    exact ⟨(congrArg (fun held => e.holdAll held events) hh).trans ih, hf, hh.symm ▸ ihf⟩

/-- Other events around some events change nothing of what those mean to the editor. -/
theorem holdAll_between {before after : List Event}
    (quiet : ∀ event ∈ before ++ after, event.isRegistration = false) (held : Finset String) (events : List Event) :
    e.holdAll held (before ++ (events ++ after)) = e.holdAll held events ∧
      (e.AllFit held (before ++ (events ++ after)) ↔ e.AllFit held events) := by
  obtain ⟨hb, fb⟩ := holdAll_of_not_isRegistration (e := e)
    (fun event h => quiet event (List.mem_append_left after h)) held
  obtain ⟨ha, fa⟩ := holdAll_of_not_isRegistration (e := e)
    (fun event h => quiet event (List.mem_append_right before h)) (e.holdAll held events)
  rw [holdAll_append, holdAll_append, hb, ha, allFit_append, allFit_append, hb]
  exact ⟨rfl, fun h => h.2.1, fun h => ⟨fb, h, fa⟩⟩

end Environment

/-- The server records what its editor holds, and nothing of it twice. -/
structure Session.Records (s : Session) (held : Finset String) : Prop where
  nodup : (s.server.registered.map Provider.id).Nodup
  ids : ids s.server.registered = held

namespace Server
open Environment

variable {e : Environment} {s : Session} {held : Finset String}

theorem settingsWarnings_not_registration {event : Event} (h : event ∈ settingsWarnings s) :
    event.isRegistration = false := by
  obtain ⟨f, -, rfl⟩ := List.mem_map.1 h
  rfl

theorem refusalEvents_not_registration {refused : Option RpcError} {event : Event}
    (h : event ∈ refusalEvents refused) : event.isRegistration = false := by
  obtain ⟨f, -, rfl⟩ := List.mem_map.1 h
  rfl

/-- What the editor holds after it was asked to give something back. -/
theorem holdAll_unregister (e : Environment) (held : Finset String) (ps : List Provider) :
    e.holdAll held (requestFor .unregister ps) = if e.Takes (.unregister ps) then held \ ids ps else held := by
  rw [requestFor]
  split
  · next hp => simp [List.isEmpty_iff.1 hp, holdAll, ids]
  · rfl

/-- What the editor holds after it was offered something. -/
theorem holdAll_register (e : Environment) (held : Finset String) (ps : List Provider) :
    e.holdAll held (requestFor .register ps) = if (offered? e ps).isSome then held else held ∪ ids ps := by
  rw [requestFor, offered?]
  split
  · next hp => simp [List.isEmpty_iff.1 hp, holdAll, ids]
  · rw [holdAll, List.foldl_cons, List.foldl_nil, hold]
    by_cases ht : e.Takes (.register ps)
    · rw [if_pos ht, show e.refusal? (.register ps) = none from ht]
      rfl
    · rw [if_neg ht, if_pos (Option.isSome_iff_ne_none.2 ht)]

theorem allFit_requestFor {r : List Provider → EditorRequest} {ps : List Provider}
    (h : (Event.request (r ps)).Fits held) : e.AllFit held (requestFor r ps) := by
  rw [requestFor]
  split
  · trivial
  · exact ⟨h, trivial⟩

/-- What the editor holds after the providers were brought in line with the settings. -/
theorem holdAll_syncEvents (e : Environment) (s : Session) (held : Finset String) :
    e.holdAll held (syncEvents e s) =
      e.holdAll (e.holdAll held (requestFor .unregister (stale s))) (requestFor .register (missing s)) := by
  rw [syncEvents, holdAll_append, holdAll_append, holdAll_append,
    (holdAll_of_not_isRegistration fun _ => settingsWarnings_not_registration (s := s)) held |>.1,
    (holdAll_of_not_isRegistration fun _ => refusalEvents_not_registration) _ |>.1]

theorem allFit_syncEvents (e : Environment) (s : Session) (held : Finset String) :
    e.AllFit held (syncEvents e s) ↔
      e.AllFit held (requestFor .unregister (stale s)) ∧
        e.AllFit (e.holdAll held (requestFor .unregister (stale s))) (requestFor .register (missing s)) := by
  rw [syncEvents, allFit_append, allFit_append, allFit_append, holdAll_append, holdAll_append,
    (holdAll_of_not_isRegistration fun _ => settingsWarnings_not_registration (s := s)) held |>.1]
  have logs (held : Finset String) : e.AllFit held (refusalEvents (offered? e (missing s))) :=
    (holdAll_of_not_isRegistration (fun _ => refusalEvents_not_registration) held).2
  have warnings := holdAll_of_not_isRegistration (e := e)
    (fun _ => settingsWarnings_not_registration (s := s)) held
  simp only [logs _, warnings.2, true_and, and_true]

/-- What the editor holds after its providers were brought in line with the settings, if the server
records what it holds before. -/
theorem holdAll_synced (h : s.Records held) :
    e.holdAll held (syncEvents e s) =
      if e.Takes (.unregister (stale s)) then ids (kept e s) else ids (kept e s) ∪ ids (stale s) := by
  have old : ids (s.server.registered.filter (· ∈ Provider.wanted (settings s.server s.tree))) ∪ ids (stale s) =
      held := (Provider.ids_filter_mem_union ..).trans h.ids
  have new := Provider.ids_union_filter_not_mem s.server.registered (Provider.wanted (settings s.server s.tree))
  have less : held \ ids (stale s) =
      ids (s.server.registered.filter (· ∈ Provider.wanted (settings s.server s.tree))) := by
    rw [← h.ids, stale, Provider.ids_filter_mem]
  rw [holdAll_syncEvents, holdAll_unregister, holdAll_register, kept]
  by_cases back : e.Takes (.unregister (stale s)) <;>
    by_cases refused : (offered? e (missing s)).isSome <;>
      simp only [back, refused, if_true, if_false, Bool.false_eq_true]
  · exact less
  · rw [less]
    exact new
  · exact old.symm
  · rw [← old, Finset.union_right_comm]
    exact congrArg (· ∪ ids (stale s)) new

theorem kept_nodup (h : s.Records held) : ((kept e s).map Provider.id).Nodup := by
  rw [Provider.nodup_map_id, kept]
  split
  · exact (Provider.nodup_map_id.1 h.nodup).filter _
  · exact Provider.wanted_nodup _

theorem stale_fits (h : s.Records held) : (Event.request (.unregister (stale s))).Fits held :=
  ⟨Provider.nodup_map_id.2 ((Provider.nodup_map_id.1 h.nodup).filter _),
    h.ids ▸ Provider.ids_filter_subset _ _⟩

theorem missing_fits (h : s.Records held) {less : Finset String} (hl : less ⊆ held) :
    (Event.request (.register (missing s))).Fits less :=
  ⟨Provider.nodup_map_id.2 ((Provider.wanted_nodup _).filter _),
    ((Provider.disjoint_ids_filter_not_mem ..).mono_right (h.ids.symm ▸ hl))⟩

/-- What is asked for to bring the providers in line fits, whether or not the editor does it. -/
theorem syncEvents_fit (h : s.Records held) : e.AllFit held (syncEvents e s) := by
  rw [allFit_syncEvents]
  refine ⟨allFit_requestFor (stale_fits h), allFit_requestFor (missing_fits h ?_)⟩
  rw [holdAll_unregister]
  split
  · exact Finset.sdiff_subset
  · exact subset_rfl

theorem registered_requestDeed (r : Request) (s : Server) : (Request.deed r s).registered = s.registered := by
  cases r with
  | start p =>
    rw [Request.deed]
    cases p.options <;> rfl
  | _ => rfl

theorem registered_deed (n : Notification) (s : Server) : (deed n s).registered = s.registered := by
  obtain ⟨_, _, _, _, -, h⟩ := deed_eq n s
  rw [h]

end Server

namespace Session
open Server

variable {e : Environment} {s s' : Session} {held : Finset String}

/-- Moves are not about providers. -/
theorem quiet_of_moves (h : ReflTransGen Move s s') :
    ∃ sent, s'.events = s.events ++ sent ∧ (∀ event ∈ sent, event.isRegistration = false) ∧
      s'.server.registered = s.server.registered := by
  have registered := Move.keeps (f := fun s => s.server.registered) (fun _ _ => Move.registered) h
  have step (s s' : Session) (hm : Move s s') : ∃ sent, s'.events = s.events ++ sent ∧
      ∀ event ∈ sent, event.isRegistration = false := by
    cases hm with
    | log kind message => exact ⟨[.log kind message], rfl, by simp [Event.isRegistration]⟩
    | ask r other => exact ⟨[.request r], rfl, by simp [Event.isRegistration, other]⟩
    | run i started under => exact ⟨[.run i started], rfl, by simp [Event.isRegistration]⟩
    | publish uri violations text => exact ⟨[_], rfl, by simp [Event.isRegistration]⟩
    | exclude scope rule => exact ⟨[], (List.append_nil _).symm, by simp⟩
  obtain ⟨sent, he, hq⟩ := events_of_path step h
  exact ⟨sent, he, hq, registered⟩

theorem registered_heard (s : Session) (i : Input) :
    (s.heard i).server.registered = s.server.registered := by
  cases i with
  | request r e =>
    rw [heard]
    split
    · exact registered_requestDeed r s.server
    · rfl
  | notification n e =>
    by_cases hn : n = .exit
    · subst hn
      rfl
    · rw [heard_notification hn]
      split
      · exact registered_deed n s.server
      · rfl
  | files t => rfl

/-- A step brings the providers in line with the settings that are then in force. -/
structure Syncs (s : Session) (i : Input) (e : Environment) : Prop where
  answers : i.environment? = some e
  sends : ∃ before after, (∀ event ∈ before ++ after, event.isRegistration = false) ∧
    s.sent i = before ++ (syncEvents e (s.heard i) ++ after)
  records : (s.step i).server.registered = kept e (s.heard i)

/-- What a step does about providers: nothing, or it brings them in line, or it takes them back. -/
inductive Adjustment (s : Session) (i : Input) : Prop
  | nothing (quiet : ∀ event ∈ s.sent i, event.isRegistration = false)
    (same : (s.step i).server.registered = s.server.registered)
  | sync (e : Environment) (syncs : s.Syncs i e)
  | release (e : Environment) (answers : i.environment? = some e)
    (sends : s.sent i = requestFor .unregister s.server.registered)
    (records : (s.step i).server.registered = [])

theorem quiet_sent {i : Input} (hi : i.isAdjusting = false) (s : Session) :
    (∀ event ∈ s.sent i, event.isRegistration = false) ∧
      (s.step i).server.registered = s.server.registered := by
  obtain ⟨sent, he, hq, hr⟩ := quiet_of_moves (step_moves hi s)
  rw [events_heard] at he
  exact ⟨sent_eq he ▸ hq, hr.trans (registered_heard s i)⟩

theorem adjustment_of_stop (e : Environment) (s : Session) : s.Adjustment (.request .stop e) := by
  have hs : s.step (.request .stop e) = if refusal? s.server.phase false = none then
      released { s with server := { s.server with phase := .stopped } } else s := by
    rw [step, request_apply, answer_stop]
    simp only [Request.starts]
    cases refusal? s.server.phase false <;> rfl
  split at hs
  · exact .release e rfl (sent_eq (congrArg Session.events hs)) (congrArg (fun s => s.server.registered) hs)
  · have he : (s.step (.request .stop e)).events = s.events ++ [] := by rw [hs, List.append_nil]
    refine .nothing (by simp [sent_eq he]) (by rw [hs])

theorem faultEvents_not_registration {j : Json} {event : Event} (h : event ∈ faultEvents j) :
    event.isRegistration = false := by
  rw [faultEvents] at h
  cases hj : Layer.ofJson j with
  | ok layer => simp [hj] at h
  | error f =>
    rw [hj] at h
    rw [List.mem_singleton.1 h]
    rfl

/-- New settings and the first notification are followed by the providers being brought in line. -/
theorem receive_adjusting {n : Notification} (hn : n.isAdjusting = true) (e : Environment) (s : Session) :
    ∃ faults : List Event, (∀ event ∈ faults, event.isRegistration = false) ∧
      ReflTransGen Move (syncProviders e ({ s with server := deed n s.server }.emit faults)).2 (receive n e s).2 := by
  cases n with
  | started =>
    refine ⟨[], by simp, ?_⟩
    rw [Session.emit_nil]
    exact (Handler.steps_log _ _).tasks.moves e _
  | configured j =>
    refine ⟨faultEvents j, fun _ => faultEvents_not_registration, ?_⟩
    rw [receive_configured]
    exact tasks_lintOpenDocuments.moves e _
  | _ => cases hn

theorem syncs_of_notification {n : Notification} (hn : n.isAdjusting = true) (e : Environment) {s : Session}
    (running : s.server.phase = .running) :
    if (s.heard (.notification n e)).server.dynamic then s.Syncs (.notification n e) e
    else (∀ event ∈ s.sent (.notification n e), event.isRegistration = false) ∧
      (s.step (.notification n e)).server.registered = s.server.registered := by
  have notLast : n ≠ .exit := by
    rintro rfl
    cases hn
  have hh : s.heard (.notification n e) = { s with server := deed n s.server } := by
    rw [heard_notification notLast, if_pos running]
  have hs : s.step (.notification n e) = (receive n e s).2 := by
    rw [step, notify_apply notLast, if_pos running]
  obtain ⟨faults, hf, moves⟩ := receive_adjusting hn e s
  obtain ⟨after, he, hq, hr⟩ := quiet_of_moves moves
  rw [← hs, ← hh, syncProviders_apply, emit_server] at he hr
  have quiet : ∀ event ∈ faults ++ after, event.isRegistration = false := fun event h =>
    (List.mem_append.1 h).elim (hf event) (hq event)
  split
  · next dynamic =>
    simp only [dynamic, if_true] at he hr
    refine ⟨rfl, ⟨faults, after, quiet, sent_eq ?_⟩, hr⟩
    rw [he, ← events_heard s (.notification n e)]
    change (s.heard _).events ++ faults ++ syncEvents e (s.heard _) ++ after = _
    simp only [List.append_assoc]
  · next still =>
    simp only [still] at he hr
    have he' : (s.step (.notification n e)).events = s.events ++ (faults ++ after) := by
      rw [he, ← events_heard s (.notification n e)]
      exact List.append_assoc ..
    exact ⟨(sent_eq he').symm ▸ quiet, hr.trans (registered_heard ..)⟩

theorem adjustment_of_notification {n : Notification} (hn : n.isAdjusting = true) (e : Environment)
    (s : Session) : s.Adjustment (.notification n e) := by
  by_cases running : s.server.phase = .running
  · have h := syncs_of_notification hn e running
    split at h
    · exact .sync e h
    · exact .nothing h.1 h.2
  · have notLast : n ≠ .exit := by
      rintro rfl
      cases hn
    have hs : s.step (.notification n e) = s := by
      rw [step, notify_apply notLast, if_neg running]
    have he : (s.step (.notification n e)).events = s.events ++ [] := by rw [hs, List.append_nil]
    exact .nothing (by simp [sent_eq he]) (by rw [hs])

theorem adjustment (s : Session) (i : Input) : s.Adjustment i := by
  cases hi : i.isAdjusting with
  | false => exact .nothing (quiet_sent hi s).1 (quiet_sent hi s).2
  | true =>
    cases i with
    | files t => cases hi
    | notification n e => exact adjustment_of_notification hi e s
    | request r e =>
      cases r with
      | stop => exact adjustment_of_stop e s
      | _ => cases hi

end Session

end SqlLint
