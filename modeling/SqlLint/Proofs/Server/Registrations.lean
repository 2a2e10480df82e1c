import SqlLint.Proofs.Server.Documents
import SqlLint.Proofs.Server.Providers
import Mathlib.Data.Finset.Lattice.Lemmas

/-! # What the editor holds and what the server records

As long as the editor gives back what it is asked for, the server records what the editor holds, whatever
else the editor refuses. Where the editor does not give something back, the server forgets that the editor
holds it. -/
namespace SqlLint
open Relation
open Provider (ids)

/-- Whether the editor gives back what it is asked for while an input is worked on. -/
def Input.GivesBack (i : Input) : Prop := ∀ e, i.environment? = some e → e.GivesBack

/-- A server and what its editor holds. -/
structure Dialogue where
  session : Session
  held : Finset String

namespace Dialogue
open Session Server Environment

def fresh (globalFile : Option String) (t : Tree) : Dialogue := ⟨.fresh globalFile t, ∅⟩

def step (d : Dialogue) (i : Input) : Dialogue where
  session := d.session.step i
  held := i.environment?.elim d.held fun e => e.holdAll d.held (d.session.sent i)

def run (d : Dialogue) (inputs : List Input) : Dialogue := inputs.foldl step d

variable {d : Dialogue} {i : Input} {e : Environment}

theorem run_append (d : Dialogue) (as bs : List Input) : d.run (as ++ bs) = (d.run as).run bs :=
  List.foldl_append

theorem held_step (h : i.environment? = some e) : (d.step i).held = e.holdAll d.held (d.session.sent i) := by
  rw [step, h, Option.elim_some]

/-- What is not about providers changes nothing of what the editor holds. -/
theorem held_step_of_quiet (quiet : ∀ event ∈ d.session.sent i, event.isRegistration = false) :
    (d.step i).held = d.held := by
  cases h : i.environment? with
  | none => rw [step, h, Option.elim_none]
  | some e => rw [held_step h, (holdAll_of_not_isRegistration quiet d.held).1]

/-- What the editor holds after its providers were brought in line with the settings. -/
theorem held_step_of_sync (h : d.session.Syncs i e) :
    (d.step i).held = e.holdAll d.held (syncEvents e (d.session.heard i)) := by
  obtain ⟨before, after, quiet, sends⟩ := h.sends
  rw [held_step h.answers, sends, (holdAll_between quiet ..).1]

theorem records_heard (h : d.session.Records d.held) : (d.session.heard i).Records d.held := by
  constructor
  · rw [registered_heard]
    exact h.nodup
  · rw [registered_heard]
    exact h.ids

/-- The server records what its editor holds after a step if it did before and the editor gives back what
it is asked for. -/
theorem records_step (h : d.session.Records d.held) (back : i.GivesBack) :
    (d.step i).session.Records (d.step i).held := by
  cases d.session.adjustment i with
  | nothing quiet same =>
    rw [held_step_of_quiet quiet]
    exact ⟨same ▸ h.nodup, same ▸ h.ids⟩
  | sync e syncs =>
    have heard := records_heard (i := i) h
    rw [held_step_of_sync syncs, holdAll_synced heard, if_pos (back e syncs.answers _)]
    exact ⟨syncs.records ▸ kept_nodup heard, congrArg ids syncs.records⟩
  | release e answers sends records =>
    rw [held_step answers, sends, holdAll_unregister, if_pos (back e answers _), h.ids, Finset.sdiff_self]
    exact ⟨records ▸ List.nodup_nil, congrArg ids records⟩

theorem records_run {inputs : List Input} (h : d.session.Records d.held) (back : ∀ i ∈ inputs, i.GivesBack) :
    (d.run inputs).session.Records (d.run inputs).held := by
  induction inputs generalizing d with
  | nil => exact h
  | cons i inputs ih =>
    exact ih (records_step h (back i List.mem_cons_self)) fun j hj => back j (List.mem_cons_of_mem _ hj)

theorem records_fresh (globalFile : Option String) (t : Tree) :
    (fresh globalFile t).session.Records (fresh globalFile t).held := ⟨List.nodup_nil, rfl⟩

/-- Whatever the server asks for about providers fits what its editor holds. -/
theorem allFit_sent (h : d.session.Records d.held) (answers : i.environment? = some e) :
    e.AllFit d.held (d.session.sent i) := by
  cases d.session.adjustment i with
  | nothing quiet same => exact (holdAll_of_not_isRegistration quiet d.held).2
  | sync e' syncs =>
    obtain rfl : e = e' := Option.some.inj (answers.symm.trans syncs.answers)
    obtain ⟨before, after, quiet, sends⟩ := syncs.sends
    rw [sends, (holdAll_between quiet ..).2]
    exact syncEvents_fit (records_heard h)
  | release e' answers' sends records =>
    rw [sends]
    exact allFit_requestFor ⟨h.nodup, h.ids.subset⟩

/-- Where providers have nothing to do with the inputs, the editor holds what it held. -/
theorem held_run_of_quiet {inputs : List Input} (quiet : ∀ i ∈ inputs, i.isAdjusting = false)
    (h : d.session.Records d.held) :
    (d.run inputs).held = d.held ∧ (d.run inputs).session.Records (d.run inputs).held := by
  induction inputs generalizing d with
  | nil => exact ⟨rfl, h⟩
  | cons i inputs ih =>
    obtain ⟨hq, same⟩ := quiet_sent (quiet i List.mem_cons_self) d.session
    have held := held_step_of_quiet hq
    have step : (d.step i).session.Records (d.step i).held := by
      rw [held]
      exact ⟨same ▸ h.nodup, same ▸ h.ids⟩
    obtain ⟨hh, hr⟩ := ih (fun j hj => quiet j (List.mem_cons_of_mem _ hj)) step
    exact ⟨hh.trans held, hr⟩

/-- The editor refuses some providers that it is offered while an input is worked on. -/
def Refuses (d : Dialogue) (i : Input) (ps : List Provider) : Prop :=
  ∃ e, i.environment? = some e ∧ .request (.register ps) ∈ d.session.sent i ∧ ¬ e.Takes (.register ps)

theorem eq_missing_of_mem_syncEvents {s : Session} {ps : List Provider}
    (h : .request (.register ps) ∈ syncEvents e s) : ps = missing s ∧ ps ≠ [] := by
  have other {r : List Provider → EditorRequest} {qs : List Provider} (hr : r qs ≠ .register ps) :
      .request (.register ps) ∉ requestFor r qs := by
    rw [requestFor]
    split
    · exact List.not_mem_nil
    · intro hm
      exact hr (Event.request.inj (List.mem_singleton.1 hm)).symm
  simp only [syncEvents, List.mem_append] at h
  rcases h with ((h | h) | h) | h
  · cases settingsWarnings_not_registration h
  · exact absurd h (other (by simp))
  · rw [requestFor] at h
    split at h
    · exact absurd h List.not_mem_nil
    · next hm =>
      obtain rfl : ps = missing s := EditorRequest.register.inj (Event.request.inj (List.mem_singleton.1 h))
      exact ⟨rfl, fun he => hm (List.isEmpty_iff.2 he)⟩
  · cases refusalEvents_not_registration h

/-- What the editor refuses it does not hold. -/
theorem not_held_of_refuses {ps : List Provider} (h : d.session.Records d.held) (refuses : d.Refuses i ps)
    {p : Provider} (hp : p ∈ ps) : p.id ∉ (d.step i).held := by
  obtain ⟨e, answers, sends, refused⟩ := refuses
  cases d.session.adjustment i with
  | nothing quiet same => cases quiet _ sends
  | sync e' syncs =>
    obtain rfl : e = e' := Option.some.inj (answers.symm.trans syncs.answers)
    obtain ⟨before, after, quiet, hs⟩ := syncs.sends
    have inside : .request (.register ps) ∈ syncEvents e (d.session.heard i) := by
      rw [hs] at sends
      rcases List.mem_append.1 sends with hb | hm
      · cases quiet _ (List.mem_append_left _ hb)
      · exact (List.mem_append.1 hm).resolve_right fun ha => by cases quiet _ (List.mem_append_right _ ha)
    obtain ⟨rfl, nonempty⟩ := eq_missing_of_mem_syncEvents inside
    have offered : (offered? e (missing (d.session.heard i))).isSome := by
      rw [offered?, if_neg fun he => nonempty (List.isEmpty_iff.1 he)]
      exact Option.isSome_iff_ne_none.2 refused
    have new := (List.mem_filter.1 hp).2
    rw [registered_heard] at new
    have fresh : p.id ∉ d.held := fun hm => of_decide_eq_true new (Provider.id_mem_ids.1 (h.ids ▸ hm))
    rw [held_step_of_sync syncs, holdAll_syncEvents, holdAll_register, if_pos offered, holdAll_unregister]
    split
    · exact fun hm => fresh (Finset.sdiff_subset hm)
    · exact fresh
  | release e' answers' hs records =>
    rw [hs, requestFor] at sends
    split at sends
    · exact absurd sends List.not_mem_nil
    · cases List.mem_singleton.1 sends

/-- With new settings the providers are brought in line where the editor takes them at any time. -/
theorem syncs_of_configured (running : d.session.server.phase = .running)
    (dynamic : d.session.server.dynamic = true) (j : Json) (e : Environment) :
    d.session.Syncs (.notification (.configured j) e) e := by
  have hh : (d.session.heard (.notification (.configured j) e)).server.dynamic = true := by
    rw [heard_notification (by intro h; cases h), if_pos running]
    exact dynamic
  have syncs := syncs_of_notification (n := .configured j) rfl e running
  rwa [if_pos hh] at syncs

/-- With new settings the editor is offered whatever they want and the server does not record. -/
theorem offers_of_configured {j : Json}
    (running : d.session.server.phase = .running) (dynamic : d.session.server.dynamic = true) {p : Provider}
    (wanted : p ∈ Provider.wanted (settings (d.session.heard (.notification (.configured j) e)).server
      (d.session.heard (.notification (.configured j) e)).tree)) (new : p ∉ d.session.server.registered) :
    ∃ ps, p ∈ ps ∧ .request (.register ps) ∈ d.session.sent (.notification (.configured j) e) := by
  obtain ⟨before, after, -, hs⟩ := (syncs_of_configured running dynamic j e).sends
  have hm : p ∈ missing (d.session.heard (.notification (.configured j) e)) := by
    refine List.mem_filter.2 ⟨wanted, decide_eq_true ?_⟩
    rw [registered_heard]
    exact new
  refine ⟨_, hm, ?_⟩
  rw [hs, syncEvents]
  have offered : .request (.register (missing (d.session.heard (.notification (.configured j) e)))) ∈
      requestFor .register (missing (d.session.heard (.notification (.configured j) e))) := by
    rw [requestFor, if_neg fun he => List.ne_nil_of_mem hm (List.isEmpty_iff.1 he)]
    exact List.mem_singleton_self _
  simp [offered]

/-- Nothing is sent any more once the session has come to its end. -/
theorem step_of_over (ended : d.session.isOver) (i : Input) :
    (d.step i).session.isOver ∧ d.session.sent i = [] ∧ (d.step i).held = d.held ∧
      (d.step i).session.server.registered = d.session.server.registered := by
  have notRunning : d.session.server.phase ≠ .running := by
    rcases ended with ho | ho <;> rw [ho] <;> decide
  have still (hs : (d.session.step i).events = d.session.events) : d.session.sent i = [] :=
    sent_eq (hs.trans (List.append_nil _).symm)
  have held (hs : d.session.sent i = []) : (d.step i).held = d.held :=
    held_step_of_quiet (by simp [hs])
  have over_of_eq (hs : d.session.step i = d.session) : (d.step i).session.isOver := by
    rw [step, hs]
    exact ended
  cases i with
  | request r e =>
    have refused : refusal? d.session.server.phase (Request.starts r) = some invalidRequest := by
      rcases ended with ho | ho <;> rw [ho] <;> cases Request.starts r <;> rfl
    have hs : d.session.step (.request r e) = d.session := by
      rw [Session.step, request_apply, refused]
    have hn := still (congrArg Session.events hs)
    exact ⟨over_of_eq hs, hn, held hn, congrArg (fun s => s.server.registered) hs⟩
  | notification n e =>
    by_cases last : n = .exit
    · subst last
      exact ⟨.inr rfl, still rfl, held (still rfl), rfl⟩
    · have hs : d.session.step (.notification n e) = d.session := by
        rw [Session.step, notify_apply last, if_neg notRunning]
      have hn := still (congrArg Session.events hs)
      exact ⟨over_of_eq hs, hn, held hn, congrArg (fun s => s.server.registered) hs⟩
  | files t => exact ⟨ended, still rfl, held (still rfl), rfl⟩

theorem run_of_over (ended : d.session.isOver) (inputs : List Input) :
    (d.run inputs).session.isOver ∧ (d.run inputs).held = d.held ∧
      (d.run inputs).session.server.registered = d.session.server.registered := by
  induction inputs generalizing d with
  | nil => exact ⟨ended, rfl, rfl⟩
  | cons i inputs ih =>
    obtain ⟨ho, -, hh, hr⟩ := step_of_over ended i
    obtain ⟨ended', held, registered⟩ := ih ho
    exact ⟨ended', held.trans hh, registered.trans hr⟩

/-- At the end of a session the editor is asked to give back what the server records. -/
theorem step_stop (running : d.session.server.phase = .running) (e : Environment) :
    (d.step (.request .stop e)).session.isOver ∧
      (d.step (.request .stop e)).session.server.registered = [] ∧
      (d.step (.request .stop e)).held =
        e.holdAll d.held (requestFor .unregister d.session.server.registered) := by
  have hs : d.session.step (.request .stop e) =
      released { d.session with server := { d.session.server with phase := .stopped } } := by
    rw [Session.step, request_apply, running, answer_stop]
    rfl
  refine ⟨?_, congrArg (fun s => s.server.registered) hs, ?_⟩
  · exact .inl (congrArg (fun s => s.server.phase) hs)
  · exact (held_step rfl).trans (congrArg (e.holdAll d.held) (sent_eq (congrArg Session.events hs)))

/-- The bookkeeping of providers is right: the server records what its editor holds, nothing that it asks
for goes against that, what was refused is offered again with the next settings that want it, and nothing
is left when the session has been told to stop. -/
structure Sound (d : Dialogue) : Prop where
  records : d.session.Records d.held
  fits : ∀ (i : Input) (e : Environment), i.environment? = some e → e.AllFit d.held (d.session.sent i)
  retries : ∀ i ps, i.GivesBack → d.Refuses i ps → ∀ others : List Input, (∀ o ∈ others, o.isAdjusting = false) →
    ∀ d', d' = d.run (i :: others) → d'.session.server.phase = .running → d'.session.server.dynamic = true →
    ∀ j e, ∀ p ∈ ps, p ∈ Provider.wanted (settings (d'.session.heard (.notification (.configured j) e)).server
      (d'.session.heard (.notification (.configured j) e)).tree) →
    ∃ qs, p ∈ qs ∧ .request (.register qs) ∈ d'.session.sent (.notification (.configured j) e)
  releases : d.session.server.phase = .running → ∀ e, e.GivesBack → ∀ (more : List Input) d',
    d' = d.run (.request .stop e :: more) → d'.held = ∅ ∧ d'.session.server.registered = [] ∧
    (∀ i, d'.session.sent i = []) ∧ ∀ e', (releaseProviders e' d'.session).2.events = d'.session.events

/-- As long as the editor gives back what it is asked for, the bookkeeping of providers is right, whatever
else the editor refuses. -/
theorem sound_of_run (globalFile : Option String) (t : Tree) (inputs : List Input)
    (back : ∀ i ∈ inputs, i.GivesBack) : ((fresh globalFile t).run inputs).Sound := by
  have records := records_run (records_fresh globalFile t) back
  generalize (fresh globalFile t).run inputs = d at records
  refine ⟨records, fun i e => allFit_sent records, ?_, ?_⟩
  · intro i ps hi refuses others quiet d' hd running dynamic j e p hp wanted
    subst hd
    obtain ⟨held, records'⟩ := held_run_of_quiet quiet (records_step records hi)
    refine offers_of_configured running dynamic wanted ?_
    intro registered
    refine not_held_of_refuses records refuses hp (held ▸ ?_)
    exact records'.ids ▸ Provider.id_mem_ids.2 registered
  · intro running e back more d' hd
    subst hd
    obtain ⟨ended, registered, held⟩ := step_stop running e
    obtain ⟨ended', held', registered'⟩ := run_of_over ended more
    rw [holdAll_unregister, if_pos (back _), records.ids, Finset.sdiff_self] at held
    have nothing := registered'.trans registered
    refine ⟨held'.trans held, nothing, fun i => (step_of_over ended' i).2.1, fun e' => ?_⟩
    rw [releaseProviders_apply]
    change ((d.step _).run more).session.events ++ requestFor .unregister ((d.step _).run more).session.server.registered = _
    rw [nothing]
    exact List.append_nil _

/-- An editor that takes no providers. -/
def reluctant : Environment where
  editor
    | .register _ => .error ⟨-32603, "busy", none⟩
    | r => .ok r.granted
  programs := ⟨[], fun _ => {}⟩

/-- A session whose providers are not taken before there are new settings. -/
def persisting : List Input :=
  [.request (.start ⟨[], none, none, true⟩) reluctant, .notification .started reluctant,
    .notification (.configured (.mk [])) (.granting "")]

theorem sound_of_run_persisting : ((fresh none (.empty [])).run persisting).held = ids (Provider.wanted {}) := by
  have back : ∀ i ∈ persisting, i.GivesBack := by
    simp only [persisting, List.forall_mem_cons]
    refine ⟨?_, ?_, ?_, by simp⟩ <;> rintro e he ps <;> cases he <;> rfl
  have sound := sound_of_run none (.empty []) persisting back
  exact sound.records.ids.symm.trans (congrArg ids rfl)

theorem step_configured (running : d.session.server.phase = .running) (j : Json) (e : Environment) :
    d.session.step (.notification (.configured j) e) = (receive (.configured j) e d.session).2 := by
  rw [Session.step, notify_apply (by intro h; cases h), if_pos running]

theorem phase_step_configured (running : d.session.server.phase = .running) (j : Json) (e : Environment) :
    (d.step (.notification (.configured j) e)).session.server.phase = .running := by
  rw [step, step_configured running]
  exact (phase_of_turn (receive_turn (.configured j) e d.session)).trans running

theorem dynamic_step_configured (running : d.session.server.phase = .running) (j : Json) (e : Environment) :
    (d.step (.notification (.configured j) e)).session.server.dynamic = d.session.server.dynamic := by
  have still := Turn.keeps (f := fun s => s.server.dynamic) (fun _ _ => Move.dynamic) (fun _ => rfl)
    (fun _ => rfl) (receive_turn (.configured j) e d.session)
  rw [step, step_configured running]
  exact still

/-- What the server records is told from what it has asked back. -/
theorem disjoint_kept_stale (e : Environment) (s : Session) : Disjoint (ids (kept e s)) (ids (stale s)) := by
  rw [Finset.disjoint_left]
  intro i hk hs
  obtain ⟨p, hp, rfl⟩ := Provider.mem_ids.1 hk
  have gone : p ∉ Provider.wanted (settings s.server s.tree) :=
    of_decide_eq_true (List.mem_filter.1 (Provider.id_mem_ids.1 hs)).2
  rw [kept] at hp
  split at hp
  · exact gone (of_decide_eq_true (List.mem_filter.1 hp).2)
  · exact gone hp

/-- What the settings that the editor sends do not want any more. -/
def unwanted (d : Dialogue) (j : Json) (e : Environment) : List Provider :=
  stale (d.session.heard (.notification (.configured j) e))

/-- What the editor does not give back it holds beside what the server records. -/
theorem held_of_kept_back (records : d.session.Records d.held) (running : d.session.server.phase = .running)
    (dynamic : d.session.server.dynamic = true) (j : Json) {e : Environment}
    (keepsBack : ∀ ps, ¬ e.Takes (.unregister ps)) {d' : Dialogue}
    (hd : d' = d.step (.notification (.configured j) e)) :
    d'.held = ids d'.session.server.registered ∪ ids (d.unwanted j e) ∧
      Disjoint (ids d'.session.server.registered) (ids (d.unwanted j e)) ∧
      (d'.session.server.registered.map Provider.id).Nodup := by
  have syncs := syncs_of_configured running dynamic j e
  have heard := records_heard (i := .notification (.configured j) e) records
  have hr : d'.session.server.registered = kept e (d.session.heard (.notification (.configured j) e)) := by
    rw [hd]
    exact syncs.records
  rw [hr]
  refine ⟨?_, disjoint_kept_stale e _, kept_nodup heard⟩
  rw [hd, held_step_of_sync syncs, holdAll_synced heard, if_neg (keepsBack _)]
  rfl

theorem records_iff_of_kept_back (records : d.session.Records d.held)
    (running : d.session.server.phase = .running) (dynamic : d.session.server.dynamic = true) (j : Json)
    {e : Environment} (keepsBack : ∀ ps, ¬ e.Takes (.unregister ps)) {d' : Dialogue}
    (hd : d' = d.step (.notification (.configured j) e)) :
    d'.session.Records d'.held ↔ d.unwanted j e = [] := by
  obtain ⟨held, disjoint, nodup⟩ := held_of_kept_back records running dynamic j keepsBack hd
  constructor
  · intro h
    have inside : ids (d.unwanted j e) ⊆ ids d'.session.server.registered := by
      rw [h.ids, held]
      exact Finset.subset_union_right
    exact Provider.ids_eq_empty.1 ((Finset.disjoint_self_iff_empty _).1 (disjoint.mono_left inside))
  · intro h
    refine ⟨nodup, ?_⟩
    rw [held, h]
    exact (Finset.union_empty _).symm

/-- Where the editor does not give back what new settings do not want any more, the server forgets it: it is
not what the server records, the editor holds it beyond the end of the session, and the next settings that
want it offer it to the editor although the editor holds it. -/
theorem forgets_of_kept_back (d : Dialogue) (records : d.session.Records d.held)
    (running : d.session.server.phase = .running) (dynamic : d.session.server.dynamic = true) (j : Json)
    (e : Environment) (keepsBack : ∀ ps, ¬ e.Takes (.unregister ps)) (d' : Dialogue)
    (hd : d' = d.step (.notification (.configured j) e)) :
    ids d'.session.server.registered = d'.held \ ids (d.unwanted j e) ∧
      ids (d.unwanted j e) ⊆ d'.held ∧
      (d'.session.Records d'.held ↔ d.unwanted j e = []) ∧
      (∀ e' : Environment, e'.GivesBack → (d'.step (.request .stop e')).held = ids (d.unwanted j e)) ∧
      ∀ j' e', ∀ p ∈ d.unwanted j e,
        p ∈ Provider.wanted (settings (d'.session.heard (.notification (.configured j') e')).server
          (d'.session.heard (.notification (.configured j') e')).tree) →
        p.id ∈ d'.held ∧ ∃ ps, p ∈ ps ∧ .request (.register ps) ∈ d'.session.sent (.notification (.configured j') e') := by
  obtain ⟨held, disjoint, nodup⟩ := held_of_kept_back records running dynamic j keepsBack hd
  have running' : d'.session.server.phase = .running := hd ▸ phase_step_configured running j e
  have dynamic' : d'.session.server.dynamic = true := hd ▸ (dynamic_step_configured running j e).trans dynamic
  refine ⟨?_, ?_, records_iff_of_kept_back records running dynamic j keepsBack hd, fun e' back => ?_,
    fun j' e' p hp wanted => ⟨?_, ?_⟩⟩
  · rw [held, Finset.union_sdiff_cancel_right disjoint]
  · exact held ▸ Finset.subset_union_right
  · rw [(step_stop running' e').2.2, holdAll_unregister, if_pos (back _), held,
      Finset.union_sdiff_cancel_left disjoint]
  · exact held ▸ Finset.mem_union_right _ (Provider.id_mem_ids.2 hp)
  · refine offers_of_configured running' dynamic' wanted fun registered => ?_
    exact Finset.disjoint_left.1 disjoint (Provider.id_mem_ids.2 registered) (Provider.id_mem_ids.2 hp)

/-- An editor that gives back no providers. -/
def greedy : Environment where
  editor
    | .unregister _ => .error ⟨-32603, "busy", none⟩
    | r => .ok r.granted
  programs := ⟨[], fun _ => {}⟩

/-- Settings of an editor that has another backend for its code actions. -/
def otherBackend : Json := .mk [("osmosis", .mk [("enabled", .bool true)])]

/-- A server whose editor has taken its providers. -/
def offered : Dialogue :=
  (fresh none (.empty [])).run
    [.request (.start ⟨[], none, none, true⟩) (.granting ""), .notification .started (.granting "")]

theorem records_offered : offered.session.Records offered.held := by
  refine records_run (records_fresh none (.empty [])) ?_
  simp only [List.forall_mem_cons]
  refine ⟨?_, ?_, by simp⟩ <;> rintro e he ps <;> cases he <;> rfl

theorem greedy_keepsBack (ps : List Provider) : ¬ greedy.Takes (.unregister ps) := by
  intro h
  cases h

theorem unwanted_offered : offered.unwanted otherBackend greedy =
    Provider.languages.map fun l => ⟨l, .codeAction⟩ := rfl

theorem forgets_of_kept_back_code_actions :
    ((offered.step (.notification (.configured otherBackend) greedy)).step (.request .stop (.granting ""))).held =
      ids (Provider.languages.map fun l => ⟨l, .codeAction⟩) :=
  (forgets_of_kept_back offered records_offered rfl rfl otherBackend greedy greedy_keepsBack _ rfl).2.2.2.1
    (.granting "") fun _ => rfl

theorem not_records_of_kept_back :
    ¬ ∀ (globalFile : Option String) (t : Tree) (inputs : List Input) (j : Json) (e : Environment) (d : Dialogue),
      d = (fresh globalFile t).run inputs → d.session.Records d.held → d.session.server.phase = .running →
        d.session.server.dynamic = true → (∀ ps, ¬ e.Takes (.unregister ps)) →
          (d.step (.notification (.configured j) e)).session.Records
            (d.step (.notification (.configured j) e)).held := by
  intro h
  have still := h none (.empty []) _ otherBackend greedy offered rfl records_offered rfl rfl greedy_keepsBack
  have none := (records_iff_of_kept_back records_offered rfl rfl otherBackend greedy_keepsBack rfl).1 still
  rw [unwanted_offered] at none
  cases none

end Dialogue
end SqlLint
