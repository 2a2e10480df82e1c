import SqlLint.Proofs.Server.Run
import SqlLint.Proofs.Text.CodeUnits
import Mathlib.Logic.Function.Basic

/-! # Documents of the server and of the editor

The editor keeps the units of its documents and splices them as its messages say. While the session
lasts, each document that the server tracks has the text of those units, and nothing but the messages
about a document changes it. -/
namespace SqlLint
open CodeUnits Relation

/-- The units of the documents that are open in the editor. -/
abbrev Client := String → Option (List Nat)

namespace Client

/-- The editor's documents after it has sent a notification. -/
def after (c : Client) : Notification → Client
  | .opened uri _ text => Function.update c uri.text (some (encode text))
  | .changed uri changes => Function.update c uri.text ((c uri.text).map (spliceAll · changes))
  | .saved uri text => Function.update c uri.text ((c uri.text).map ((text.map encode).getD ·))
  | .closed uri => Function.update c uri.text none
  | _ => c

/-- A document is not opened again before it is closed, and every change of one is proper. -/
def MaySend (c : Client) : Notification → Prop
  | .opened uri _ _ => c uri.text = none
  | .changed uri changes => ∀ us, c uri.text = some us → AllProper us changes
  | _ => True

def step (c : Client) : Input → Client
  | .notification n _ => c.after n
  | _ => c

/-- The editor's documents after a run. -/
def run (c : Client) (inputs : List Input) : Client := inputs.foldl step c

/-- Each notification of a run may be sent. -/
def MaySendAll : Client → List Input → Prop
  | _, [] => True
  | c, .notification n _ :: inputs => c.MaySend n ∧ MaySendAll (c.after n) inputs
  | c, _ :: inputs => MaySendAll c inputs

/-- Every text that the server has is one that the editor has. -/
def Agrees (c : Client) (texts : String → Option (List Char)) : Prop :=
  ∀ uri text, texts uri = some text → c uri = some (encode text)

end Client

/-- What a notification makes of the texts that the server has. -/
def Notification.effect (texts : String → Option (List Char)) : Notification → String → Option (List Char)
  | .opened uri language text =>
    if Provider.isSupported language then Function.update texts uri.text (some text) else texts
  | .changed uri changes => Function.update texts uri.text ((texts uri.text).map (Change.applyAll · changes))
  | .saved uri text => Function.update texts uri.text ((texts uri.text).map (text.getD ·))
  | .closed uri => Function.update texts uri.text none
  | _ => texts

/-- The document that a notification is about. -/
def Notification.document? : Notification → Option String
  | .opened uri _ _ | .changed uri _ | .saved uri _ | .closed uri => some uri.text
  | _ => none

/-- The document that an input is about. -/
def Input.document? : Input → Option String
  | .notification n _ => n.document?
  | _ => none

namespace Client

variable {c : Client} {texts : String → Option (List Char)}

theorem agrees_update {uri : String} {us : Option (List Nat)} {text : Option (List Char)}
    (h : c.Agrees texts) (hu : ∀ t, text = some t → us = some (encode t)) :
    Agrees (Function.update c uri us) (Function.update texts uri text) := by
  intro other t ht
  by_cases ho : other = uri
  · subst ho
    rw [Function.update_self] at ht ⊢
    exact hu t ht
  · rw [Function.update_of_ne ho] at ht ⊢
    exact h other t ht

/-- The server follows a notification that may be sent. -/
theorem agrees_effect {n : Notification} (h : c.Agrees texts) (hn : c.MaySend n) :
    (c.after n).Agrees (n.effect texts) := by
  cases n with
  | opened uri language text =>
    simp only [Notification.effect]
    split
    · exact agrees_update h fun t ht => congrArg (fun o => o.map encode) ht
    · -- the editor opened what the server does not track
      intro other t ht
      have ho : other ≠ uri.text := by
        rintro rfl
        exact absurd (h _ t ht) (by rw [show c uri.text = none from hn]; simp)
      rw [after, Function.update_of_ne ho]
      exact h other t ht
  | changed uri changes =>
    refine agrees_update h fun t ht => ?_
    obtain ⟨old, ho, rfl⟩ := Option.map_eq_some_iff.1 ht
    have hc := h _ old ho
    rw [hc, Option.map_some, encode_applyAll (hn _ hc)]
  | saved uri text =>
    refine agrees_update h fun t ht => ?_
    obtain ⟨old, ho, rfl⟩ := Option.map_eq_some_iff.1 ht
    rw [h _ old ho]
    cases text <;> rfl
  | closed uri => exact agrees_update h nofun
  | _ => exact h

end Client

namespace Server
open Handler

theorem document?_openDocument (s : Server) (uri other : String) (d : Document) :
    (s.openDocument uri d).document? other = if other = uri then some d else s.document? other := by
  unfold openDocument
  split
  · next h =>
    rw [document?_update]
    split
    · next ho =>
      obtain ⟨d', hd⟩ := Option.isSome_iff_exists.1 h
      rw [ho, hd]
      rfl
    · rfl
  · next h =>
    have hn : s.documents.lookup uri = none := Option.not_isSome_iff_eq_none.1 h
    simp only [document?, List.lookup_append]
    by_cases ho : other = uri
    · rw [if_pos ho, ho, hn]
      simp
    · simp [ho, List.lookup_cons, beq_false_of_ne ho]

theorem text?_of_turn {e : Environment} {s s' : Session} (h : ReflTransGen (Turn e) s s') :
    s'.server.text? = s.server.text? :=
  Turn.keeps (f := fun s => s.server.text?) (fun _ _ => Move.text?) (fun _ => rfl) (fun _ => rfl) h

theorem phase_of_turn {e : Environment} {s s' : Session} (h : ReflTransGen (Turn e) s s') :
    s'.server.phase = s.server.phase :=
  Turn.keeps (f := fun s => s.server.phase) (fun _ _ => Move.phase) (fun _ => rfl) (fun _ => rfl) h

@[simp] theorem document?_activate (s : Server) (uri other : String) :
    (activate uri s).document? other = s.document? other := rfl

theorem text?_amend (uri : String) (f : List Char → List Char) (s : Server) :
    (deed.amend uri f s).text? = Function.update s.text? uri ((s.text? uri).map f) := by
  unfold deed.amend
  split
  · funext other
    rw [text?, document?_activate, document?_update, Function.update_apply]
    split
    · next h =>
      rw [h, text?, Option.map_map, Option.map_map]
      rfl
    · rfl
  · next ho =>
    have hn : s.text? uri = none := by
      rw [text?, Option.not_isSome_iff_eq_none.1 ho, Option.map_none]
    rw [hn, Option.map_none, ← hn, Function.update_eq_self]

theorem text?_deed (n : Notification) (s : Server) : (deed n s).text? = n.effect s.text? := by
  cases n with
  | opened uri language text =>
    rw [deed, Notification.effect]
    split
    · funext other
      rw [text?, document?_activate, document?_openDocument, Function.update_apply]
      split <;> rfl
    · rfl
  | changed uri changes => exact text?_amend ..
  | saved uri text => exact text?_amend ..
  | closed uri =>
    funext other
    rw [deed, text?, document?_closeDocument, Notification.effect, Function.update_apply]
    split <;> rfl
  | _ => rfl

/-- What a notification makes of the texts. -/
theorem text?_notify (n : Notification) (e : Environment) (s : Session) :
    (notify n e s).2.server.text? =
      if s.server.phase = .running then n.effect s.server.text? else s.server.text? := by
  by_cases hn : n = .exit
  · subst hn
    split <;> rfl
  · rw [notify_apply hn]
    split
    · exact (text?_of_turn (receive_turn n e s)).trans (text?_deed n s.server)
    · rfl

theorem text?_requestDeed (r : Request) (s : Server) : (Request.deed r s).text? = s.text? := by
  cases r with
  | start p =>
    rw [Request.deed]
    cases p.options <;> rfl
  | _ => rfl

theorem text?_request (r : Request) (e : Environment) (s : Session) :
    (request r e s).2.server.text? = s.server.text? := by
  have answered := (text?_of_turn (answer_turn r e s)).trans (text?_requestDeed r s.server)
  rcases request_cases r e s with h | ⟨p, -, -, h⟩ | ⟨-, -, h⟩
  · rw [h]
  · rw [h, answered]
  · rw [h, answered]

/-- A request starts a session that waits, or stops it, or leaves the phase as it is. -/
theorem phase_request (r : Request) (e : Environment) (s : Session) :
    (request r e s).2.server.phase = s.server.phase ∨
      (s.server.phase = .waiting ∧ (request r e s).2.server.phase = .running) ∨
      (request r e s).2.server.phase = .stopped := by
  have answered := phase_of_turn (answer_turn r e s)
  rcases request_cases r e s with h | ⟨p, rfl, hw, h⟩ | ⟨hp, -, h⟩
  · exact .inl (congrArg (fun s => s.server.phase) h)
  · rw [h]
    refine .inr (.inl ⟨hw, answered.trans ?_⟩)
    rw [Request.deed]
    cases p.options <;> rfl
  · rw [h]
    cases r with
    | start p => exact absurd rfl (hp p)
    | stop => exact .inr (.inr answered)
    | _ => exact .inl answered

theorem phase_deed (n : Notification) (s : Server) :
    (deed n s).phase = s.phase ∨ (deed n s).phase = .stopped := by
  obtain ⟨_, _, _, _, phase, h⟩ := deed_eq n s
  rw [h]
  exact phase

/-- A notification stops or ends the session, or leaves the phase as it is. -/
theorem phase_notify (n : Notification) (e : Environment) (s : Session) :
    (notify n e s).2.server.phase = s.server.phase ∨ (notify n e s).2.isOver := by
  by_cases hn : n = .exit
  · subst hn
    exact .inr (.inr rfl)
  · rw [notify_apply hn]
    split
    · have h := phase_of_turn (receive_turn n e s)
      exact (phase_deed n s.server).imp h.trans fun hs => .inl (h.trans hs)
    · exact .inl rfl

end Server

namespace Client
open Server

variable {c : Client} {s : Session}

/-- The server waits for its editor, or has the editor's texts, or has been told to stop. -/
def Follows (c : Client) (s : Session) : Prop :=
  (s.server.phase = .waiting ∧ s.server.text? = fun _ => none) ∨
    (s.server.phase = .running ∧ c.Agrees s.server.text?) ∨ s.isOver

theorem agrees_none (c : Client) : c.Agrees fun _ => none := nofun

theorem follows_request (h : c.Follows s) (r : Request) (e : Environment) :
    c.Follows (Server.request r e s).2 := by
  have ht := text?_request r e s
  rcases phase_request r e s with hp | ⟨hw, hp⟩ | hp
  · unfold Follows Session.isOver
    rw [hp, ht]
    exact h
  · rcases h with ⟨-, hn⟩ | ⟨hr, -⟩ | ho
    · rw [hn] at ht
      exact .inr (.inl ⟨hp, ht ▸ agrees_none c⟩)
    · exact absurd (hw.symm.trans hr) (by decide)
    · rcases ho with ho | ho <;> exact absurd (hw.symm.trans ho) (by decide)
  · exact .inr (.inr (.inl hp))

theorem follows_notify (h : c.Follows s) {n : Notification} (hn : c.MaySend n) (e : Environment) :
    (c.after n).Follows (Server.notify n e s).2 := by
  have ht := text?_notify n e s
  rcases phase_notify n e s with hp | ho
  · rcases h with ⟨hw, he⟩ | ⟨hr, ha⟩ | ho
    · rw [if_neg (by rw [hw]; decide), he] at ht
      exact .inl ⟨hp.trans hw, ht⟩
    · rw [if_pos hr] at ht
      exact .inr (.inl ⟨hp.trans hr, ht ▸ agrees_effect ha hn⟩)
    · exact .inr (.inr (ho.imp hp.trans hp.trans))
  · exact .inr (.inr ho)

theorem follows_run {inputs : List Input} (h : c.Follows s) (hs : c.MaySendAll inputs) :
    (c.run inputs).Follows (s.run inputs) := by
  induction inputs generalizing c s with
  | nil => exact h
  | cons i inputs ih =>
    cases i with
    | request r e => exact ih (follows_request h r e) hs
    | notification n e => exact ih (follows_notify h hs.1 e) hs.2
    | files t => exact ih h hs

end Client

namespace Session
open Server

/-- An input changes no text of a document that it is not about, and none at all at the end. -/
theorem text?_step {s : Session} {i : Input} {uri : String} (h : i.document? ≠ some uri ∨ s.isOver) :
    (s.step i).server.text? uri = s.server.text? uri := by
  cases i with
  | request r e => exact congrFun (text?_request r e s) uri
  | files t => rfl
  | notification n e =>
    rw [step, text?_notify]
    split
    · next hr =>
      have hd : n.document? ≠ some uri := by
        refine h.resolve_right fun ho => ?_
        rcases ho with ho | ho <;> exact absurd (hr.symm.trans ho) (by decide)
      cases n with
      | opened u language text =>
        rw [Notification.effect]
        split
        · exact Function.update_of_ne (fun hu => hd (congrArg some hu.symm)) ..
        · rfl
      | changed u changes => exact Function.update_of_ne (fun hu => hd (congrArg some hu.symm)) ..
      | saved u text => exact Function.update_of_ne (fun hu => hd (congrArg some hu.symm)) ..
      | closed u => exact Function.update_of_ne (fun hu => hd (congrArg some hu.symm)) ..
      | _ => rfl
    · rfl

/-- As long as a session has not come to its end, the text of each document that the server tracks has
the units that the editor has. Nothing but a message about a document changes its text, and once the
session has come to its end nothing does. -/
theorem units_of_documents (globalFile : Option String) (t : Tree) (inputs : List Input)
    (fair : Client.MaySendAll (fun _ => none) inputs) (lasts : ¬ ((fresh globalFile t).run inputs).isOver) :
    (∀ uri d, ((fresh globalFile t).run inputs).server.document? uri = some d →
      Client.run (fun _ => none) inputs uri = some (encode d.text)) ∧
    ∀ (s : Session) (i : Input) (uri : String), i.document? ≠ some uri ∨ s.isOver →
      (s.step i).server.text? uri = s.server.text? uri := by
  refine ⟨fun uri d hd => ?_, fun s i uri h => text?_step h⟩
  have hf : Client.Follows (fun _ => none) (fresh globalFile t) := .inl ⟨rfl, rfl⟩
  have ht : ((fresh globalFile t).run inputs).server.text? uri = some d.text := by
    rw [text?, hd, Option.map_some]
  rcases Client.follows_run hf fair with ⟨-, hn⟩ | ⟨-, ha⟩ | ho
  · rw [hn] at ht
    cases ht
  · exact ha uri d.text ht
  · exact absurd ho lasts

/-- An editor that opens a document and types into it. -/
def typing : List Input :=
  [.request (.start ⟨[], none, none, false⟩) (.granting ""),
    .notification (.opened ⟨"untitled:", []⟩ "sql" ['a', '😀']) (.granting ""),
    .notification (.changed ⟨"untitled:", []⟩ [⟨some ⟨⟨0, 3⟩, ⟨0, 9⟩⟩, ['b']⟩]) (.granting "")]

theorem units_of_documents_after_typing :
    Client.run (fun _ => none) typing "untitled:" = some (encode ['a', '😀', 'b']) := by
  have lasts : ¬ ((fresh none (.empty [])).run typing).isOver := by
    have hp : ((fresh none (.empty [])).run typing).server.phase = .running := rfl
    rintro (h | h) <;> exact absurd (hp.symm.trans h) (by decide)
  refine (units_of_documents none (.empty []) typing ?_ lasts).1 "untitled:" ⟨['a', '😀', 'b'], "sql", []⟩ rfl
  refine ⟨rfl, fun us hu => ⟨?_, trivial⟩, trivial⟩
  obtain rfl : encode ['a', '😀'] = us := Option.some.inj hu
  rintro range hr
  cases hr
  refine ⟨.inr ⟨rfl, ?_⟩, ?_, ?_⟩ <;> decide

/-- An editor that goes on after it has told the server to stop. -/
def outlasting : List Input :=
  [.request (.start ⟨[], none, none, false⟩) (.granting ""),
    .notification (.opened ⟨"untitled:", []⟩ "sql" ['a']) (.granting ""), .request .stop (.granting ""),
    .notification (.changed ⟨"untitled:", []⟩ [⟨none, ['b']⟩]) (.granting "")]

theorem units_of_documents_after_stop :
    ¬ ∀ (globalFile : Option String) (t : Tree) (inputs : List Input),
      Client.MaySendAll (fun _ => none) inputs → ∀ uri d,
        ((fresh globalFile t).run inputs).server.document? uri = some d →
          Client.run (fun _ => none) inputs uri = some (encode d.text) := by
  intro h
  have fair : Client.MaySendAll (fun _ => none) outlasting := by
    refine ⟨rfl, fun us _ => ⟨?_, trivial⟩, trivial⟩
    rintro range hr
    cases hr
  have hu := h none (.empty []) outlasting fair "untitled:" ⟨['a'], "sql", []⟩ rfl
  exact absurd hu (by decide)

end Session
end SqlLint
