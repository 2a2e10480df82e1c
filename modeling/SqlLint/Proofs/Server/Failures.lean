import SqlLint.Proofs.Server.Exclusions

/-! # What fails changes nothing

A run of the linter that comes to nothing leaves all documents as they are, and nothing is published for it,
whatever the linter was called for. A command that fails leaves the server and the files as they were, unless it
fails because there is no room for a settings file that is being written. -/
namespace SqlLint
open Relation

/-- A run comes to nothing: the program cannot be started, or the run is broken off, or the program ends without
success and prints nothing but white space, or it is to print a report and prints none. -/
inductive Invocation.Fails (i : Invocation) (p : Programs) (t : Tree) : Prop
  | unstarted (h : (i.obstacle? p t).isSome = true)
  | brokenOff (h : (i.breakdown? (p.reply i.toCall)).isSome = true)
  | unsuccessful (exit : (p.reply i.toCall).exit ≠ .code 0)
    (blank : Linter.isBlank (p.reply i.toCall).stdout.lossy = true)
  | unreadable (lints : i.arguments.head? = some "lint") {f : Fault}
    (faulty : Report.parse (p.reply i.toCall).stdout.lossy = .error f)

/-- A run that has an output was started and not broken off. -/
theorem Linter.run_eq_ok {p : Programs} {t : Tree} {i : Invocation} {stdout : String} (h : run p t i = .ok stdout) :
    i.obstacle? p t = none ∧ i.breakdown? (p.reply i.toCall) = none ∧ output (p.reply i.toCall) = .ok stdout := by
  rw [run] at h
  cases hs : i.obstacle? p t with
  | some detail =>
    rw [hs] at h
    cases h
  | none =>
    rw [hs] at h
    dsimp only at h
    cases hb : i.breakdown? (p.reply i.toCall) with
    | some e =>
      rw [hb] at h
      cases h
    | none =>
      rw [hb] at h
      exact ⟨rfl, rfl, h⟩

/-- Whatever makes a run fail, there is no report. -/
theorem Invocation.Fails.no_report {i : Invocation} {p : Programs} {t : Tree} (h : i.Fails p t)
    (reports : List FileReport) : (Linter.run p t i).bind Linter.reports ≠ .ok reports := by
  intro valid
  cases hr : Linter.run p t i with
  | error e =>
    rw [hr] at valid
    cases valid
  | ok stdout =>
    obtain ⟨started, whole, printed⟩ := Linter.run_eq_ok hr
    rw [Linter.output] at printed
    cases h with
    | unstarted h =>
      rw [started] at h
      cases h
    | brokenOff h =>
      rw [whole] at h
      cases h
    | unsuccessful exit blank =>
      rw [if_pos ⟨exit, blank⟩] at printed
      cases printed
    | unreadable lints faulty =>
      split at printed
      · cases printed
      · cases printed
        rw [hr, Except.bind, Linter.reports, faulty] at valid
        cases valid

/-- Publications call nobody. -/
theorem events_of_publications {s s' : Session} (h : ReflTransGen Publication s s') :
    ∃ sent, s'.events = s.events ++ sent ∧ ∀ i started, .run i started ∉ sent := by
  have step (s s' : Session) (h : Publication s s') : ∃ sent, s'.events = s.events ++ sent ∧
      ∀ event ∈ sent, ∀ i started, event ≠ .run i started := by
    cases h with
    | publish uri violations text placed => exact ⟨[_], rfl, by simp⟩
  obtain ⟨sent, he, quiet⟩ := Session.events_of_path step h
  exact ⟨sent, he, fun i started mem => quiet _ mem i started rfl⟩

namespace Session

variable {e : Environment} {s s' m u : Session} {i : Invocation} {started : Bool} {before after : List Event}

/-- The linter is called once and first of all. If the run fails, nothing else is done. -/
structure Calls (e : Environment) (s : Session) (i : Invocation) (after : List Event) (s' : Session) : Prop where
  events : s'.events = s.events ++ .run i (i.obstacle? e.programs s.tree).isNone :: after
  once : ∀ next started, .run next started ∉ after
  failed : i.Fails e.programs s.tree → after = [] ∧ s'.server.documents = s.server.documents

/-- What comes of a run that fails: up to the next run, or to the end if there is none, the server only talks to
the editor and the documents stay as they are. -/
inductive Aftermath (e : Environment) (m : Session) (call : Event) (after : List Event) (last : Session) : Prop
  | intro {m' : Session} {talk rest : List Event} (split : after = talk ++ rest)
    (reached : ReflTransGen (Turn e) m m') (left : ReflTransGen (Turn e) m' last)
    (events : m'.events = m.events ++ call :: talk) (documents : m'.server.documents = m.server.documents)
    (talks : ∀ event ∈ talk, event.isTalk = true)
    (ends : (rest = [] ∧ m' = last) ∨ ∃ next ready later, rest = .run next ready :: later)

/-- What an act means for the runs of the linter. -/
theorem calm_or_calls (h : Act e s s') : s.Calm s' ∨ ∃ i after, Calls e s i after s' := by
  rcases h.cases with calm | ⟨i, rfl⟩ | ⟨i, reports, valid, published⟩
  · exact .inl calm
  · exact .inr ⟨i, [], rfl, by simp, fun _ => ⟨rfl, rfl⟩⟩
  · obtain ⟨sent, he, once⟩ := events_of_publications published
    refine .inr ⟨i, sent, ?_, once, fun fails => absurd valid (fails.no_report reports)⟩
    rw [he, emit_events, List.append_assoc, List.singleton_append]

/-- One act later the aftermath of a run has gone on, or it was over. -/
theorem Aftermath.act {call : Event} (h : Aftermath e m call after s) (act : Act e s s') {sent : List Event}
    (events : s'.events = s.events ++ sent) : Aftermath e m call (after ++ sent) s' := by
  obtain ⟨rfl, reached, left, told, documents, talks, ends⟩ := h
  rcases ends with ⟨rfl, rfl⟩ | ⟨next, ready, later, rfl⟩
  · rcases calm_or_calls act with calm | ⟨i, more, calls⟩
    · obtain ⟨more, events', talks'⟩ := calm.events
      obtain rfl := List.append_cancel_left (events.symm.trans events')
      refine .intro (by rw [List.append_nil, List.append_nil]) (reached.trans act.turns) .refl ?_
        (calm.documents.trans documents) (List.forall_mem_append.2 ⟨talks, talks'⟩) (.inl ⟨rfl, rfl⟩)
      rw [events, told, List.append_assoc, List.cons_append]
    · obtain rfl := List.append_cancel_left (events.symm.trans calls.events)
      exact .intro (by rw [List.append_nil]) reached act.turns told documents talks (.inr ⟨_, _, _, rfl⟩)
  · exact .intro (List.append_assoc ..) reached (left.trans act.turns) told documents talks
      (.inr ⟨next, ready, later ++ sent, rfl⟩)

/-- The server and the files are what they were, and nothing was published. -/
structure Idle (s s' : Session) : Prop where
  server : s'.server = s.server
  tree : s'.tree = s.tree
  quiet : ∃ sent, s'.events = s.events ++ sent ∧ ∀ uri ds, .publish uri ds ∉ sent

theorem Idle.refl (s : Session) : Idle s s := ⟨rfl, rfl, [], (List.append_nil _).symm, by simp⟩

theorem Idle.trans (h : Idle s s') (h' : Idle s' u) : Idle s u := by
  obtain ⟨sent, he, quiet⟩ := h.quiet
  obtain ⟨more, he', quiet'⟩ := h'.quiet
  refine ⟨h'.server.trans h.server, h'.tree.trans h.tree, sent ++ more, ?_, fun uri ds hm => ?_⟩
  · rw [he', he, List.append_assoc]
  · exact (List.mem_append.1 hm).elim (quiet uri ds) (quiet' uri ds)

end Session

namespace Handler
open Session

variable {α β : Type} {c : CommandM Handler α}

end Handler

namespace Server
open Handler Session

end Server

namespace Session
open Server Handler

/-- A session in a workspace with a file of all sessions. -/
def startedWith (globalFile : String) (root : String) (t : Tree) : Session :=
  (fresh (some globalFile) t).run
    [.request (.start ⟨[], some ⟨"file://" ++ root, root.toList⟩, none, false⟩) (.granting "")]

/-- A settings file behind a directory that is missing, and a workspace below a file. -/
def hidden : Session :=
  startedWith "/gone/../g.toml" "/gone/../f/x"
    (((Tree.empty []).add ["g.toml"] (.file (.text "dialect = \"ansi\"\n"))).add ["f"] (.file (.text "")))

end Session
end SqlLint
