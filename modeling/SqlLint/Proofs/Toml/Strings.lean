import SqlLint.Proofs.Toml.Pieces
import SqlLint.Toml.Value

/-! # Strings with a meaning are closed

A string that lacks its closing quotes may still end with quotes, if one of them follows a backslash. Then
what stands between the quotes ends with a backslash of its own and has no meaning. -/
namespace SqlLint.Toml
open Token

/-- A string as it is cut from a text, closed or not. -/
def IsQuoted (t : List Char) : Prop := ∃ c cs, isQuote c = true ∧ t = c :: (takeString c cs).1

/-! ## Results -/

theorem exists_of_orMalformed {α : Type} {x : Option α} {a : α} (h : orMalformed x = .ok a) : x = some a := by
  cases x with
  | none => cases h
  | some b =>
    cases h
    rfl

/-! ## Reading on between double quotes -/

/-- Characters that may stand between double quotes. -/
def Readable (block : Bool) (u : List Char) : Prop := ∃ skipping v, unescape block skipping u = .ok v

section Readable

variable {block : Bool} {c d : Char} {u : List Char}

theorem not_readable_slash : ¬ Readable block ['\\'] := by
  rintro ⟨skipping, v, h⟩
  cases skipping <;> cases h

/-- A character other than a backslash is skipped, or it stands for itself. -/
theorem unescape_cons (hne : c ≠ '\\') (skipping : Bool) (u : List Char) : unescape block skipping (c :: u) =
    if skipping ∧ (isBlank c ∨ c = '\n' ∨ c = '\r') then unescape block true u
    else if isShown c ∨ (block ∧ (newline? (c :: u)).isSome) then (unescape block false u).map (c :: ·)
    else .error .malformed := by
  rw [unescape.eq_def]
  split
  · next he => cases he
  · next he => exact absurd (List.cons.inj he).1 hne
  · next he => exact absurd (List.cons.inj he).1 hne
  · next he => exact absurd (List.cons.inj he).1 hne
  · next he =>
    obtain ⟨rfl, rfl⟩ := List.cons.inj he
    rw [if_neg hne]

theorem unescape_newline (u : List Char) : unescape true false ('\n' :: u) = (unescape true false u).map ('\n' :: ·) := by
  simp [unescape_cons, newline?]

theorem readable_tail (hc : c ≠ '\\') (h : Readable block (c :: u)) : Readable block u := by
  obtain ⟨skipping, v, h⟩ := h
  rw [unescape_cons hc] at h
  split at h
  · exact ⟨true, v, h⟩
  · split at h
    · obtain ⟨v', hv, -⟩ := exists_of_map h
      exact ⟨false, v', hv⟩
    · cases h

/-- Whether a backslash takes the next character along, as far as the end of the string matters. -/
theorem escapes_iff {quote : Char} : escapes quote c d = true ↔ quote = '"' ∧ c = '\\' ∧ (d = '"' ∨ d = '\\') := by
  simp [escapes, and_assoc]

/-- A character that stands for itself, also behind a backslash at the end of a line. -/
def IsPlain (c : Char) : Prop := isShown c = true ∧ c ≠ '\\' ∧ isBlank c = false

theorem unescape_plain (hc : IsPlain c) (skipping : Bool) (u : List Char) :
    unescape block skipping (c :: u) = (unescape block false u).map (c :: ·) := by
  obtain ⟨hs, hne, hb⟩ := hc
  have hn : c ≠ '\n' ∧ c ≠ '\r' := by simpa [endsLine] using not_endsLine_of_isShown hs
  simp [unescape_cons hne, hb, hn.1, hn.2, hs]

theorem readable_plain (hc : IsPlain c) (h : ∃ v, unescape block false u = .ok v) :
    ∃ v, unescape block false (c :: u) = .ok v := by
  obtain ⟨v, hv⟩ := h
  exact ⟨c :: v, by rw [unescape_plain hc, hv]; rfl⟩

theorem toNat_le_of_le {a b : Char} (h : a ≤ b) : a.toNat ≤ b.toNat := h

theorem isPlain_of_toNat (hc : 48 ≤ c.toNat) (hc' : c.toNat ≤ 122) (hne : c.toNat ≠ 92) : IsPlain c := by
  have ne_of {d : Char} (hd : c.toNat ≠ d.toNat) : c ≠ d := fun he => hd (he ▸ rfl)
  have hle : ' ' ≤ c := show (' ' : Char).toNat ≤ c.toNat from Nat.le_trans (by decide) hc
  have h92 : c ≠ '\\' := ne_of hne
  have h127 : c ≠ '\x7f' := ne_of (d := '\x7f') (by
    have h : ('\x7f' : Char).toNat = 127 := rfl
    omega)
  have h32 : c ≠ ' ' := ne_of (d := ' ') (by
    have h : (' ' : Char).toNat = 32 := rfl
    omega)
  have h9 : c ≠ '\t' := ne_of (d := '\t') (by
    have h : ('\t' : Char).toNat = 9 := rfl
    omega)
  exact ⟨by simp [isShown, hle, h127], h92, by simp [isBlank, h32, h9]⟩

theorem isPlain_of_hexValue (h : (hexValue? c).isSome = true) : IsPlain c := by
  have bounds : (48 ≤ c.toNat ∧ c.toNat ≤ 57) ∨ (97 ≤ c.toNat ∧ c.toNat ≤ 102) ∨ (65 ≤ c.toNat ∧ c.toNat ≤ 70) := by
    rw [hexValue?] at h
    split at h
    · next hd => exact .inl (Char.isDigit_iff_toNat.1 hd)
    · split at h
      · next hd => exact .inr (.inl ⟨toNat_le_of_le hd.1, toNat_le_of_le hd.2⟩)
      · split at h
        · next hd => exact .inr (.inr ⟨toNat_le_of_le hd.1, toNat_le_of_le hd.2⟩)
        · cases h
  exact isPlain_of_toNat (by omega) (by omega) (by omega)

theorem isPlain_of_number {digits : List Char} {n : Option Nat} {k : Nat}
    (h : digits.foldl (fun n c => do
      let n ← n
      let d ← hexValue? c
      if d < 16 then some (n * 16 + d) else none) n = some k) : n.isSome = true ∧ ∀ c ∈ digits, IsPlain c := by
  induction digits generalizing n with
  | nil =>
    cases h
    exact ⟨rfl, fun _ h => (by cases h)⟩
  | cons c digits ih =>
    rw [List.foldl_cons] at h
    obtain ⟨hn, hd⟩ := ih h
    cases n with
    | none => cases hn
    | some n =>
      cases hx : hexValue? c with
      | none =>
        rw [hx] at hn
        cases hn
      | some d =>
        refine ⟨rfl, fun e he => ?_⟩
        rcases List.mem_cons.1 he with rfl | he
        · exact isPlain_of_hexValue (by rw [hx]; rfl)
        · exact hd e he

/-- The digits of an escape stand for themselves. -/
theorem isPlain_of_scalar {digits : List Char} (h : scalar digits = .ok c) : ∀ d ∈ digits, IsPlain d := by
  rw [scalar] at h
  split at h
  · cases h
  · next n hn =>
    rw [number?] at hn
    split at hn
    · cases hn
    · exact (isPlain_of_number hn).2

theorem readable_digits {digits : List Char} (h : ∀ d ∈ digits, IsPlain d) (hu : ∃ v, unescape block false u = .ok v) :
    ∃ v, unescape block false (digits ++ u) = .ok v := by
  induction digits with
  | nil => exact hu
  | cons d digits ih =>
    exact readable_plain (h d List.mem_cons_self) (ih fun e he => h e (List.mem_cons_of_mem _ he))

theorem isPlain_of_escaped (hd : d ≠ '"') (hd' : d ≠ '\\') (h : escaped? d = some c) : IsPlain d := by
  rw [escaped?.eq_def] at h
  split at h
  all_goals first
    | exact absurd rfl hd
    | exact absurd rfl hd'
    | exact isPlain_of_toNat (by decide) (by decide) (by decide)
    | cases h

theorem isSpace_of_newline (h : (newline? (skipBlank (c :: u))).isSome = true) :
    isBlank c = true ∨ c = '\n' ∨ c = '\r' := by
  by_cases hb : isBlank c = true
  · exact .inl hb
  · rw [skipBlank, List.dropWhile_cons_of_neg hb, newline?.eq_def] at h
    split at h
    · next he => exact .inr (.inl (List.cons.inj he).1)
    · next he => exact .inr (.inr (List.cons.inj he).1)
    · cases h

theorem unescape_skip (hc : isBlank c = true ∨ c = '\n' ∨ c = '\r') :
    unescape block true (c :: u) = unescape block true u := by
  have hne : c ≠ '\\' := by
    rintro rfl
    rcases hc with hc | hc | hc <;> cases hc
  rw [unescape_cons hne, if_pos ⟨rfl, hc⟩]

/-- Behind a backslash that takes nothing along reading can go on at the next character. -/
theorem readable_slash (hd : d ≠ '"') (hd' : d ≠ '\\') (h : Readable block ('\\' :: d :: u)) :
    Readable block (d :: u) := by
  have digits {letter : Char} (ds : List Char) {rest v : List Char} (hl : IsPlain letter)
      (h : (do let c ← scalar ds; (unescape block false rest).map (c :: ·)) = .ok v) :
      Readable block (letter :: (ds ++ rest)) := by
    cases hs : scalar ds with
    | error f =>
      rw [hs] at h
      cases h
    | ok c =>
      rw [hs] at h
      obtain ⟨v', hv, -⟩ := exists_of_map h
      obtain ⟨v'', hv⟩ := readable_plain hl (readable_digits (isPlain_of_scalar hs) ⟨v', hv⟩)
      exact ⟨false, v'', hv⟩
  obtain ⟨skipping, v, h⟩ := h
  rw [unescape.eq_def] at h
  split at h
  · next he => cases he
  · next a b rest he =>
    cases he
    exact digits [a, b] (isPlain_of_toNat (by decide) (by decide) (by decide)) h
  · next a b c d rest he =>
    cases he
    exact digits [a, b, c, d] (isPlain_of_toNat (by decide) (by decide) (by decide)) h
  · next a b c d e f g k rest he =>
    cases he
    exact digits [a, b, c, d, e, f, g, k] (isPlain_of_toNat (by decide) (by decide) (by decide)) h
  · next he =>
    obtain ⟨rfl, rfl⟩ := List.cons.inj he
    split at h
    · next hs => rcases hs.2 with hs | hs | hs <;> cases hs
    · simp only [if_true] at h
      split at h
      · next c hc =>
        obtain ⟨v', hv, -⟩ := exists_of_map h
        obtain ⟨v'', hv⟩ := readable_plain (isPlain_of_escaped hd hd' hc) ⟨v', hv⟩
        exact ⟨false, v'', hv⟩
      · split at h
        · next hn => exact ⟨true, v, by rw [unescape_skip (isSpace_of_newline hn.2), h]⟩
        · cases h

/-- Behind a quote or a backslash that is taken along reading can go on. -/
theorem readable_pair (hd : d = '"' ∨ d = '\\') (h : Readable block ('\\' :: d :: u)) : Readable block u := by
  obtain ⟨skipping, v, h⟩ := h
  have hpair : unescape block skipping ('\\' :: d :: u) = (unescape block false u).map (d :: ·) := by
    rcases hd with rfl | rfl
    · cases skipping <;> rfl
    · cases skipping <;> rfl
  rw [hpair] at h
  obtain ⟨v', hv, -⟩ := exists_of_map h
  exact ⟨false, v', hv⟩

end Readable

/-! ## Closed strings -/

/-- The rest of a string of one line, up to its closing quote. -/
inductive ClosedLine (quote : Char) : List Char → Prop
  | close : ClosedLine quote [quote]
  | pair {c d : Char} {w : List Char} : escapes quote c d = true → c ≠ quote → ClosedLine quote w →
    ClosedLine quote (c :: d :: w)
  | plain {c : Char} {w : List Char} : c ≠ quote → c ≠ '\n' → (∀ d rest, w = d :: rest → escapes quote c d = false) →
    ClosedLine quote w → ClosedLine quote (c :: w)

/-- The rest of a block string behind a run of quotes, up to its closing ones. -/
inductive ClosedBlock (quote : Char) : Nat → List Char → Prop
  | close {run : Nat} : 3 ≤ run → ClosedBlock quote run []
  | quote {run : Nat} {w : List Char} : run < 5 → ClosedBlock quote (run + 1) w → ClosedBlock quote run (quote :: w)
  | pair {run : Nat} {c d : Char} {w : List Char} : run < 3 → escapes quote c d = true → c ≠ quote →
    ClosedBlock quote 0 w → ClosedBlock quote run (c :: d :: w)
  | plain {run : Nat} {c : Char} {w : List Char} : run < 3 → c ≠ quote →
    (∀ d rest, w = d :: rest → escapes quote c d = false) → ClosedBlock quote 0 w → ClosedBlock quote run (c :: w)

section Closed

variable {quote : Char} {w r u cs : List Char} {run : Nat}

theorem ClosedLine.ne_nil (h : ClosedLine quote w) : w ≠ [] := by cases h <;> simp

theorem ClosedBlock.ne_nil (h : ClosedBlock quote 0 w) : w ≠ [] := by
  cases h with
  | close h => cases h
  | _ => simp

theorem takeLine_closed (h : ClosedLine quote w) (r : List Char) : takeLine quote (w ++ r) = (w, r) := by
  induction h with
  | close =>
    rw [List.singleton_append, takeLine.eq_def]
    simp
  | @pair c d w he hc _ ih =>
    have hn : c ≠ '\n' := by
      rintro rfl
      cases (escapes_iff.1 he).2.1
    rw [List.cons_append, List.cons_append, takeLine.eq_def]
    simp [hc, hn, he, ih, join]
  | @plain c w hc hn he hw ih =>
    obtain ⟨d, rest, rfl⟩ := List.exists_cons_of_ne_nil hw.ne_nil
    rw [List.cons_append, List.cons_append, takeLine.eq_def]
    rw [List.cons_append] at ih
    simp [hc, hn, he d rest rfl, ih, join]

theorem takeBlock_closed (h : ClosedBlock quote run w) (hr : Ahead (· != quote) r) :
    takeBlock quote run (w ++ r) = (w, r) := by
  induction h with
  | close h =>
    cases r with
    | nil => rfl
    | cons c r =>
      have hc : c ≠ quote := by simpa using ahead_cons.1 hr
      rw [List.nil_append, takeBlock.eq_def]
      simp [hc, h]
  | quote hlt _ ih =>
    rw [List.cons_append, takeBlock.eq_def]
    simp [hlt, ih, join]
  | @pair run c d w hlt he hc _ ih =>
    rw [List.cons_append, List.cons_append, takeBlock.eq_def]
    simp [hc, Nat.not_le.2 hlt, he, ih, join]
  | @plain run c w hlt hc he hw ih =>
    obtain ⟨d, rest, rfl⟩ := List.exists_cons_of_ne_nil hw.ne_nil
    rw [List.cons_append, List.cons_append, takeBlock.eq_def]
    rw [List.cons_append] at ih
    simp [hc, Nat.not_le.2 hlt, he d rest rfl, ih, join]

/-- What is cut off as the rest of a string is in front of the text. -/
theorem head_takeLine {c d : Char} {more rest : List Char} (h : (takeLine quote (d :: more)).1 = c :: rest) : c = d := by
  have ha := takeLine_append quote (d :: more)
  rw [h] at ha
  exact (List.cons.inj ha).1

theorem head_takeBlock {c d : Char} {more rest : List Char} (h : (takeBlock quote run (d :: more)).1 = c :: rest) :
    c = d := by
  have ha := takeBlock_append quote run (d :: more)
  rw [h] at ha
  exact (List.cons.inj ha).1

/-- Where nothing is taken along reading can go on at the next character. -/
theorem readable_next {block : Bool} {c d : Char} (he : ¬ escapes '"' c d = true) (hd : ∀ b rest, u = b :: rest → b = d)
    (h : Readable block (c :: u)) : Readable block u := by
  by_cases hslash : c = '\\'
  · subst hslash
    cases u with
    | nil => exact absurd h not_readable_slash
    | cons b u =>
      cases hd b u rfl
      refine readable_slash (fun hb => he ?_) (fun hb => he ?_) h
      · exact escapes_iff.2 ⟨rfl, rfl, .inl hb⟩
      · exact escapes_iff.2 ⟨rfl, rfl, .inr hb⟩
  · exact readable_tail hslash h

/-- A string of one line that ends with its quote is closed, if its characters have a meaning. -/
theorem closedLine_of_readable (hw : (takeLine quote cs).1 = u ++ [quote]) (hu : quote = '"' → Readable false u) :
    ClosedLine quote (takeLine quote cs).1 := by
  fun_induction takeLine quote cs generalizing u with
  | case1 => simp at hw
  | case2 rest => exact .close
  | case3 => simp at hw
  | case4 c hc hn =>
    rcases List.cons_eq_append_iff.1 hw with ⟨-, h⟩ | ⟨u, -, h⟩
    · exact absurd (List.cons.inj h).1.symm hc
    · simp at h
  | case5 c hc hn d more he ih =>
    obtain ⟨hq, hslash, hd⟩ := escapes_iff.1 he
    rcases List.cons_eq_append_iff.1 hw with ⟨-, h⟩ | ⟨v, rfl, hv⟩
    · exact absurd (List.cons.inj h).1.symm hc
    · rw [hslash] at hu
      rcases List.cons_eq_append_iff.1 hv with ⟨rfl, -⟩ | ⟨v, rfl, hv'⟩
      · exact absurd (hu hq) not_readable_slash
      · exact .pair he hc (ih hv' fun _ => readable_pair hd (hu hq))
  | case6 c hc hn d more he ih =>
    rcases List.cons_eq_append_iff.1 hw with ⟨-, h⟩ | ⟨v, rfl, hv⟩
    · exact absurd (List.cons.inj h).1.symm hc
    · refine .plain hc hn (fun b rest hb => ?_) (ih hv fun hq => ?_)
      · rw [head_takeLine hb]
        simpa using he
      · refine readable_next (hq ▸ he) (fun b rest hb => ?_) (hu hq)
        subst hb
        exact head_takeLine hv

/-- A block string that ends with its quotes is closed, if its characters have a meaning. The quotes at
its end may belong to a run that began before. -/
theorem closedBlock_of_readable {k : Nat} (hw : (takeBlock quote run cs).1 = u ++ List.replicate k quote)
    (hk : if u = [] then 3 ≤ run + k else 3 ≤ k) (hu : quote = '"' → Readable true u) :
    ClosedBlock quote run (takeBlock quote run cs).1 := by
  -- a first character that is no quote is one of those that have a meaning
  have first {c : Char} {w u : List Char} {k : Nat} (hc : c ≠ quote) (hw : c :: w = u ++ List.replicate k quote) :
      ∃ u', u = c :: u' ∧ w = u' ++ List.replicate k quote := by
    rcases List.cons_eq_append_iff.1 hw with ⟨-, h⟩ | h
    · have hm : c ∈ List.replicate k quote := h ▸ List.mem_cons_self
      exact absurd (List.eq_of_mem_replicate hm) hc
    · exact h
  fun_induction takeBlock quote run cs generalizing u k with
  | case1 run =>
    obtain ⟨rfl, hk'⟩ := List.append_eq_nil_iff.1 hw.symm
    rw [List.replicate_eq_nil_iff] at hk'
    rw [if_pos rfl, hk'] at hk
    exact .close hk
  | case2 run c rest hc ih =>
    obtain ⟨rfl, hlt⟩ := hc
    refine .quote hlt ?_
    rcases List.cons_eq_append_iff.1 hw with ⟨rfl, h⟩ | ⟨v, rfl, hv⟩
    · cases k with
      | zero => cases h
      | succ k =>
        refine ih (u := []) (k := k) (List.cons.inj h).2.symm ?_ hu
        rw [if_pos rfl] at hk ⊢
        omega
    · refine ih hv ?_ fun hq => readable_tail (by rw [hq]; decide) (hu hq)
      rw [if_neg (by simp)] at hk
      split <;> omega
  | case3 run c rest hc hrun => exact .close hrun
  | case4 run c hc hrun =>
    have hne : c ≠ quote := fun h => hc ⟨h, by omega⟩
    obtain ⟨v, rfl, hv⟩ := first hne hw
    obtain ⟨rfl, hk'⟩ := List.append_eq_nil_iff.1 hv.symm
    rw [List.replicate_eq_nil_iff] at hk'
    rw [if_neg (by simp)] at hk
    omega
  | case5 run c hc hrun d more he ih =>
    have hne : c ≠ quote := fun h => hc ⟨h, by omega⟩
    obtain ⟨hq, hslash, hd⟩ := escapes_iff.1 he
    obtain ⟨v, rfl, hv⟩ := first hne hw
    rw [if_neg (by simp)] at hk
    rw [hslash] at hu
    rcases List.cons_eq_append_iff.1 hv with ⟨rfl, -⟩ | ⟨v, rfl, hv'⟩
    · exact absurd (hu hq) not_readable_slash
    · refine .pair (by omega) he hne (ih hv' ?_ fun _ => readable_pair hd (hu hq))
      split <;> omega
  | case6 run c hc hrun d more he ih =>
    have hne : c ≠ quote := fun h => hc ⟨h, by omega⟩
    obtain ⟨v, rfl, hv⟩ := first hne hw
    rw [if_neg (by simp)] at hk
    refine .plain (by omega) hne (fun b rest hb => ?_) (ih hv ?_ fun hq => ?_)
    · rw [head_takeBlock hb]
      simpa using he
    · split <;> omega
    · refine readable_next (hq ▸ he) (fun b rest hb => ?_) (hu hq)
      subst hb
      exact head_takeBlock hv

theorem takeString_line (h : ∀ a b rest, cs = a :: b :: rest → ¬ (a = quote ∧ b = quote)) :
    takeString quote cs = takeLine quote cs := by
  rw [takeString.eq_def]
  split
  · next a b rest => rw [if_neg (h a b rest rfl)]
  · rfl

/-- A string of one line that is empty or does not start like a block has one quote in front. -/
theorem isClosed_line {c : Char} (hc : isQuote c = true) (h : ClosedLine c w) : IsClosed (c :: w) := by
  refine ⟨c, w, rfl, hc, fun r hr => ?_⟩
  rw [takeString_line, takeLine_closed h]
  rintro a b rest he ⟨rfl, rfl⟩
  cases h with
  | close =>
    rw [List.singleton_append] at he
    have hb := ahead_cons.1 ((List.cons.inj he).2 ▸ hr)
    simp at hb
  | pair _ hne _ => exact hne (List.cons.inj he).1
  | plain hne _ _ _ => exact hne (List.cons.inj he).1

theorem isClosed_block {c : Char} (hc : isQuote c = true) (h : ClosedBlock c 0 w) : IsClosed (c :: c :: c :: w) := by
  refine ⟨c, c :: c :: w, rfl, hc, fun r hr => ?_⟩
  rw [List.cons_append, List.cons_append, takeString, if_pos ⟨rfl, rfl⟩, takeBlock_closed h hr]
  rfl

/-- What stands between quotes stands behind the first ones and before the last ones. -/
theorem drop_of_inner {k : Nat} {t : List Char} (h : inner? k quote t = some u) :
    t.drop k = u ++ List.replicate k quote := by
  rw [inner?] at h
  split at h
  · next hk =>
    obtain ⟨hlen, hall⟩ := hk
    cases h
    have hlast : t.drop (t.length - k) = List.replicate k quote := by
      refine List.eq_replicate_iff.2 ⟨by rw [List.length_drop]; omega, fun c hc => ?_⟩
      exact beq_iff_eq.1 (List.all_eq_true.1 hall c hc)
    have hdrop : (t.drop k).drop (t.length - 2 * k) = t.drop (t.length - k) := by
      rw [List.drop_drop]
      congr 1
      omega
    rw [← hlast, ← hdrop, List.take_append_drop]
  · cases h

theorem readable_of_dropNewline {v : List Char} (h : unescape true false (dropNewline u) = .ok v) : Readable true u := by
  have newline {rest v : List Char} (h : unescape true false rest = .ok v) :
      unescape true false ('\n' :: rest) = .ok ('\n' :: v) := by
    rw [unescape_newline, h]
    rfl
  rw [dropNewline, newline?.eq_def] at h
  split at h
  · exact ⟨false, _, newline h⟩
  · next rest =>
    have hn : unescape true false ('\n' :: rest) = .ok ('\n' :: v) := newline h
    exact ⟨false, '\r' :: '\n' :: v, by simp [unescape_cons (c := '\r'), newline?, hn, Except.map]⟩
  · exact ⟨false, v, h⟩

/-- Between block quotes, what is cut off has a meaning only if it is closed. -/
theorem isClosed_of_block {c : Char} {v : List Char} (hc : isQuote c = true)
    (h : string (c :: c :: c :: (takeBlock c 0 cs).1) = .ok v) : IsClosed (c :: c :: c :: (takeBlock c 0 cs).1) := by
  obtain ⟨u, hu, hread⟩ : ∃ u, inner? 3 c (c :: c :: c :: (takeBlock c 0 cs).1) = some u ∧
      (c = '"' → Readable true u) := by
    rcases isQuote_iff.1 hc with rfl | rfl
    · rw [string] at h
      obtain ⟨u, hi, h⟩ := exists_of_bind h
      exact ⟨u, exists_of_orMalformed hi, fun _ => readable_of_dropNewline h⟩
    · rw [string] at h
      obtain ⟨u, hi, -⟩ := exists_of_bind h
      exact ⟨u, exists_of_orMalformed hi, fun h => absurd h (by decide)⟩
  refine isClosed_block hc (closedBlock_of_readable (drop_of_inner hu) ?_ hread)
  split <;> decide

theorem isClosed_of_line {c : Char} {v : List Char} (hc : isQuote c = true)
    (h : string (c :: (takeLine c cs).1) = .ok v) : IsClosed (c :: (takeLine c cs).1) := by
  have hshort : ∀ a b rest, (takeLine c cs).1 = a :: b :: rest → a ≠ c := by
    intro a b rest hw
    rintro rfl
    cases cs with
    | nil => cases hw
    | cons d cs =>
      obtain rfl : a = d := head_takeLine hw
      rw [takeLine.eq_def] at hw
      simp at hw
  have hthree (w : List Char) (hw : ∀ a b rest, w = a :: b :: rest → a ≠ c) :
      (∀ rest, c :: w ≠ '"' :: '"' :: '"' :: rest) ∧ ∀ rest, c :: w ≠ '\x27' :: '\x27' :: '\x27' :: rest := by
    constructor <;> rintro rest he <;> obtain ⟨rfl, rfl⟩ := List.cons.inj he <;> exact hw _ _ _ rfl rfl
  obtain ⟨u, hu, hread⟩ : ∃ u, inner? 1 c (c :: (takeLine c cs).1) = some u ∧ (c = '"' → Readable false u) := by
    obtain ⟨h3, h3'⟩ := hthree _ hshort
    generalize (takeLine c cs).1 = w at h h3 h3' ⊢
    rw [string.eq_def] at h
    split at h
    · next he => exact absurd he (h3 _)
    · next he => exact absurd he (h3' _)
    · next he =>
      obtain ⟨rfl, rfl⟩ := List.cons.inj he
      obtain ⟨u, hi, h⟩ := exists_of_bind h
      exact ⟨u, exists_of_orMalformed hi, fun _ => ⟨false, v, h⟩⟩
    · next hne =>
      have hq : c = '\x27' := by
        rcases isQuote_iff.1 hc with rfl | rfl
        · exact absurd rfl (hne w)
        · rfl
      subst hq
      obtain ⟨u, hi, -⟩ := exists_of_bind h
      exact ⟨u, exists_of_orMalformed hi, fun h => absurd h (by decide)⟩
  exact isClosed_line hc (closedLine_of_readable (drop_of_inner hu) hread)

end Closed

/-- A string with a meaning is closed. -/
theorem isClosed_of_string {t v : List Char} (ht : IsQuoted t) (h : string t = .ok v) : IsClosed t := by
  obtain ⟨c, cs, hc, rfl⟩ := ht
  by_cases hb : ∃ rest, cs = c :: c :: rest
  · obtain ⟨rest, rfl⟩ := hb
    rw [takeString, if_pos ⟨rfl, rfl⟩] at h ⊢
    exact isClosed_of_block hc h
  · have hline : takeString c cs = takeLine c cs := by
      refine takeString_line fun a b rest he => ?_
      rintro ⟨rfl, rfl⟩
      exact hb ⟨rest, he⟩
    rw [hline] at h ⊢
    exact isClosed_of_line hc h

end SqlLint.Toml
