import SqlLint.Proofs.Toml.Strings
import SqlLint.Toml.Quoted

/-! # Written strings are read back

Each style puts a string between quotes that close it, and what stands between them means the string. -/
namespace SqlLint.Toml
open Token Quoted

/-! ## Escapes -/

section Escapes

variable {block : Bool} {c e : Char} {u : List Char}

theorem unescape_shown (hs : isShown c = true) (hne : c ≠ '\\') (u : List Char) :
    unescape block false (c :: u) = (unescape block false u).map (c :: ·) := by
  simp [unescape_cons hne, hs]

theorem unescape_escaped (h : escaped? e = some c) (hx : e ≠ 'x' ∧ e ≠ 'u' ∧ e ≠ 'U') (u : List Char) :
    unescape block false ('\\' :: e :: u) = (unescape block false u).map (c :: ·) := by
  obtain ⟨hx, hu, hU⟩ := hx
  rw [unescape.eq_def]
  split
  · next he => cases he
  · next he => exact absurd (List.cons.inj (List.cons.inj he).2).1 hx
  · next he => exact absurd (List.cons.inj (List.cons.inj he).2).1 hu
  · next he => exact absurd (List.cons.inj (List.cons.inj he).2).1 hU
  · next he =>
    cases he
    simp [h]

/-- A control character is the one whose number is written. -/
theorem scalar_upperHex (h : isControl c = true) :
    scalar ['0', '0', upperHex (c.toNat / 16), upperHex c.toNat] = .ok c := by
  have hlt : c.toNat < 128 := by
    rw [isControl, Bool.or_eq_true, decide_eq_true_eq, beq_iff_eq] at h
    rcases h with h | rfl
    · exact Nat.lt_trans (show c.toNat < (' ' : Char).toNat from h) (by decide)
    · decide
  have hnumber : ∀ n < 128, number? 16 ['0', '0', upperHex (n / 16), upperHex n] = some n := by decide
  rw [scalar, hnumber _ hlt]
  have hvalid : c.toNat.isValidChar := c.valid
  simp [hvalid]

theorem unescape_control (h : isControl c = true) (u : List Char) :
    unescape block false ('\\' :: 'u' :: '0' :: '0' :: upperHex (c.toNat / 16) :: upperHex c.toNat :: u) =
      (unescape block false u).map (c :: ·) := by
  rw [unescape, scalar_upperHex h]
  rfl

theorem isShown_of_not_isControl (h : isControl c = false) : isShown c = true := by
  simp only [isControl, Bool.or_eq_false_iff, decide_eq_false_iff_not, beq_eq_false_iff_ne] at h
  have hle : ' ' ≤ c := Char.not_lt.1 h.1
  simp [isShown, hle, h.2]

/-- How a character other than quotes is written. -/
inductive Escaped (c : Char) : List Char → Prop
  | letter {e : Char} : escaped? e = some c → e ≠ 'x' ∧ e ≠ 'u' ∧ e ≠ 'U' → e ≠ '"' → Escaped c ['\\', e]
  | number : isControl c = true → Escaped c ['\\', 'u', '0', '0', upperHex (c.toNat / 16), upperHex c.toNat]
  | plain : isShown c = true → c ≠ '\\' → Escaped c [c]

theorem escaped_escape (c : Char) : Escaped c (escape c) := by
  fun_cases escape c with
  | case7 _ _ _ _ _ _ hc => exact .number hc
  | case8 _ _ _ _ _ hne hc => exact .plain (isShown_of_not_isControl (by simpa using hc)) hne
  | _ => exact .letter (by subst_vars; rfl) (by decide) (by decide)

theorem unescape_escape (c : Char) (u : List Char) :
    unescape block false (escape c ++ u) = (unescape block false u).map (c :: ·) := by
  have h := escaped_escape c
  generalize escape c = w at h
  cases h with
  | letter he hx _ => exact unescape_escaped he hx u
  | number hc => exact unescape_control hc u
  | plain hs hne => exact unescape_shown hs hne u

/-- What is written of a string means the string. -/
theorem unescape_escapeAll (block : Bool) (run : Nat) (cs : List Char) :
    unescape block false (escapeAll block run cs) = .ok cs := by
  fun_induction escapeAll block run cs with
  | case1 => rw [unescape]
  | case2 run cs hb ih =>
    rw [unescape_shown rfl (by decide), ih]
    rfl
  | case3 run cs _ ih =>
    rw [unescape_escaped (c := '"') rfl (by decide), ih]
    rfl
  | case4 run c cs _ hb ih =>
    obtain ⟨rfl, rfl⟩ := hb
    rw [unescape_newline, ih]
    rfl
  | case5 run c cs hne hb ih =>
    rw [unescape_escape, ih]
    rfl

theorem verbatim_eq (h : ∀ c ∈ u, isShown c = true ∨ (block = true ∧ c = '\n')) : verbatim block u = .ok u := by
  induction u with
  | nil => rw [verbatim]
  | cons c u ih =>
    have hc : isShown c = true ∨ (block = true ∧ (newline? (c :: u)).isSome = true) := by
      rcases h c List.mem_cons_self with hs | ⟨hb, rfl⟩
      · exact .inl hs
      · exact .inr ⟨hb, rfl⟩
    rw [verbatim, if_pos hc, ih fun d hd => h d (List.mem_cons_of_mem _ hd)]
    rfl

end Escapes

/-! ## Closing quotes -/

/-- Texts in front of which characters may be written, behind so many quotes. -/
structure Carries (C : Nat → List Char → Prop) : Prop where
  plain : ∀ {run : Nat} {c : Char} {w : List Char}, run < 3 → c ≠ '"' → c ≠ '\\' → c ≠ '\n' → C 0 w → C run (c :: w)
  slash : ∀ {run : Nat} {d : Char} {w : List Char}, run < 3 → escapes '"' '\\' d = false → C 0 (d :: w) →
    C run ('\\' :: d :: w)
  pair : ∀ {run : Nat} {d : Char} {w : List Char}, run < 3 → escapes '"' '\\' d = true → C 0 w →
    C run ('\\' :: d :: w)

theorem carries_closedLine : Carries fun _ => ClosedLine '"' where
  plain _ hq hs hn hw := .plain hq hn (fun d _ _ => by simp [escapes, hs]) hw
  slash _ hd hw := by
    refine .plain (by decide) (by decide) (fun d' rest he => ?_) hw
    cases he
    exact hd
  pair _ hd hw := .pair hd (by decide) hw

theorem carries_closedBlock : Carries (ClosedBlock '"') where
  plain hr hq hs _ hw := .plain hr hq (fun d _ _ => by simp [escapes, hs]) hw
  slash hr hd hw := by
    refine .plain hr (by decide) (fun d' rest he => ?_) hw
    cases he
    exact hd
  pair hr hd hw := .pair hr hd (by decide) hw

section Closing

variable {C : Nat → List Char → Prop} {quote c : Char} {w u cs : List Char} {run : Nat}

theorem upperHex_ne (n : Nat) : upperHex n ≠ '"' ∧ upperHex n ≠ '\\' ∧ upperHex n ≠ '\n' := by
  have h : ∀ k < 16, (Nat.digitChar k).toUpper ≠ '"' ∧ (Nat.digitChar k).toUpper ≠ '\\' ∧
      (Nat.digitChar k).toUpper ≠ '\n' := by decide
  exact h _ (Nat.mod_lt n (by decide))

theorem Carries.escaped (hC : Carries C) (h : Escaped c u) (hc : c ≠ '"') (hr : run < 3) (hw : C 0 w) :
    C run (u ++ w) := by
  have plain {d : Char} {w : List Char} (hd : d ≠ '"' ∧ d ≠ '\\' ∧ d ≠ '\n') (hw : C 0 w) : C 0 (d :: w) :=
    hC.plain (by decide) hd.1 hd.2.1 hd.2.2 hw
  cases h with
  | @letter e he _ hq =>
    by_cases hs : e = '\\'
    · subst hs
      exact hC.pair hr rfl hw
    · refine hC.slash hr (by simp [escapes, hq, hs]) (plain ⟨hq, hs, ?_⟩ hw)
      rintro rfl
      cases he
  | number =>
    refine hC.slash hr rfl (plain (by decide) (plain (by decide) (plain (by decide) ?_)))
    exact plain (upperHex_ne _) (plain (upperHex_ne _) hw)
  | plain hs hne =>
    refine hC.plain hr hc hne ?_ hw
    rintro rfl
    cases hs

/-- What is written of a string goes on up to the quotes behind it. -/
theorem Carries.escapeAll {block : Bool} (hC : Carries C) (hq : block = true → ∀ run < 2, ∀ w, C (run + 1) w → C run ('"' :: w))
    (hn : block = true → ∀ run < 3, ∀ w, C 0 w → C run ('\n' :: w)) (hw : ∀ run < 3, C run w) (hr : run < 3) :
    C run (escapeAll block run cs ++ w) := by
  fun_induction Quoted.escapeAll block run cs with
  | case1 run => exact hw run hr
  | case2 run cs hb ih => exact hq hb.1 run hb.2 _ (ih (by omega))
  | case3 run cs _ ih => exact hC.pair hr rfl (ih (by decide))
  | case4 run c cs _ hb ih =>
    obtain ⟨rfl, rfl⟩ := hb
    exact hn rfl run hr _ (ih (by decide))
  | case5 run c cs hne _ ih =>
    rw [List.append_assoc]
    exact hC.escaped (escaped_escape c) hne hr (ih (by decide))

theorem closedLine_escapeAll (cs : List Char) : ClosedLine '"' (escapeAll false 0 cs ++ ['"']) :=
  carries_closedLine.escapeAll (fun h => (by cases h)) (fun h => (by cases h)) (fun _ _ => .close) (by decide)

theorem closedBlock_quotes (quote : Char) (hr : run < 3) : ClosedBlock quote run [quote, quote, quote] :=
  .quote (by omega) (.quote (by omega) (.quote (by omega) (.close (by omega))))

theorem closedBlock_escapeAll (hr : run < 3) (cs : List Char) :
    ClosedBlock '"' run (escapeAll true run cs ++ ['"', '"', '"']) := by
  refine carries_closedBlock.escapeAll (fun _ k hk w hw => .quote (by omega) hw) (fun _ k hk w hw => ?_)
    (fun k hk => closedBlock_quotes '"' hk) hr
  exact .plain hk (by decide) (fun _ _ _ => rfl) hw

theorem closedLine_verbatim (h : ∀ c ∈ cs, c ≠ '\x27' ∧ c ≠ '\n') : ClosedLine '\x27' (cs ++ ['\x27']) := by
  induction cs with
  | nil => exact .close
  | cons c cs ih =>
    obtain ⟨hq, hn⟩ := h c List.mem_cons_self
    exact .plain hq hn (fun _ _ _ => rfl) (ih fun d hd => h d (List.mem_cons_of_mem _ hd))

theorem le_longestRun (quote : Char) (run : Nat) (cs : List Char) : run ≤ longestRun quote run cs := by
  fun_induction longestRun quote run cs with
  | case1 => exact Nat.le_refl _
  | case2 run cs ih => omega
  | case3 run c cs _ ih => exact Nat.le_max_left _ _

theorem closedBlock_verbatim (h : longestRun '\x27' run cs ≤ 2) :
    ClosedBlock '\x27' run (cs ++ ['\x27', '\x27', '\x27']) := by
  fun_induction longestRun '\x27' run cs with
  | case1 run => exact closedBlock_quotes _ (by omega)
  | case2 run cs ih =>
    have hle := le_longestRun '\x27' (run + 1) cs
    exact .quote (by omega) (ih h)
  | case3 run c cs hc ih =>
    exact .plain (by omega) hc (fun _ _ _ => rfl) (ih (by omega))

end Closing

/-! ## Styles -/

section Styles

variable {quote : Char} {w cs : List Char}

theorem inner?_quotes {quotes : List Char} (h : ∀ c ∈ quotes, c = quote) (w : List Char) :
    inner? quotes.length quote (quotes ++ w ++ quotes) = some w := by
  have hlen : (quotes ++ w ++ quotes).length = quotes.length + w.length + quotes.length := by
    rw [List.length_append, List.length_append]
  have hdrop : (quotes ++ w ++ quotes).drop (quotes.length + w.length) = quotes := by
    rw [← List.length_append, List.drop_left]
  rw [inner?, if_pos]
  · rw [hlen, List.append_assoc, List.drop_left]
    have hk : quotes.length + w.length + quotes.length - 2 * quotes.length = w.length := by omega
    rw [hk, List.take_left]
  · refine ⟨by omega, ?_⟩
    rw [hlen, Nat.add_sub_cancel, hdrop, List.all_eq_true]
    intro c hc
    rw [beq_iff_eq]
    exact h c hc

theorem inner?_line (quote : Char) (w : List Char) : inner? 1 quote (quote :: (w ++ [quote])) = some w :=
  have h : ∀ c ∈ [quote], c = quote := fun _ hc => List.mem_singleton.1 hc
  inner?_quotes h w

theorem inner?_block (quote : Char) (w : List Char) :
    inner? 3 quote (quote :: quote :: quote :: (w ++ [quote, quote, quote])) = some w :=
  have h : ∀ c ∈ [quote, quote, quote], c = quote := fun c hc => by simpa using hc
  inner?_quotes h w

/-- Quotes of one line are not those of a block. -/
theorem not_block (hw : Ahead (· != quote) w) (rest : List Char) : w ++ [quote] ≠ quote :: quote :: rest := by
  intro he
  cases w with
  | nil => cases he
  | cons c w =>
    have hc := ahead_cons.1 hw
    rw [(List.cons.inj he).1] at hc
    simp at hc

theorem string_basic (hw : Ahead (· != '"') w) : string ('"' :: (w ++ ['"'])) = unescape false false w := by
  rw [string.eq_def]
  split
  · next he => exact absurd (List.cons.inj he).2 (not_block hw _)
  · next he => cases he
  · rw [inner?_line]
    rfl
  · next hne => exact absurd rfl (hne _)

theorem string_literal (hw : Ahead (· != '\x27') w) : string ('\x27' :: (w ++ ['\x27'])) = verbatim false w := by
  rw [string.eq_def]
  split
  · next he => cases he
  · next he => exact absurd (List.cons.inj he).2 (not_block hw _)
  · next he => cases he
  · rw [inner?_line]
    rfl

theorem string_basicBlock (w : List Char) :
    string ('"' :: '"' :: '"' :: (w ++ ['"', '"', '"'])) = unescape true false (dropNewline w) := by
  rw [string, inner?_block]
  rfl

theorem string_literalBlock (w : List Char) :
    string ('\x27' :: '\x27' :: '\x27' :: (w ++ ['\x27', '\x27', '\x27'])) = verbatim true (dropNewline w) := by
  rw [string, inner?_block]
  rfl

theorem ahead_escapeAll (cs : List Char) : Ahead (· != '"') (escapeAll false 0 cs) := by
  cases cs with
  | nil => exact ahead_nil _
  | cons c cs =>
    rw [escapeAll]
    split
    · exact ahead_cons.2 rfl
    · next hne =>
      have h := escaped_escape c
      generalize escape c = w at h
      cases h with
      | plain => exact ahead_cons.2 (by simpa using hne)
      | _ => exact ahead_cons.2 rfl

theorem string_encode_basic (cs : List Char) : string (basic cs) = .ok cs := by
  rw [basic, List.cons_append, string_basic (ahead_escapeAll cs), unescape_escapeAll]

theorem isClosed_basic (cs : List Char) : IsClosed (basic cs) := isClosed_line rfl (closedLine_escapeAll cs)

/-- The newline in front of a block is dropped, and there is no other one to drop. -/
theorem dropNewline_opening (h : '\n' ∉ cs → Ahead (fun c => !endsLine c) w) : dropNewline (opening cs ++ w) = w := by
  rw [opening]
  split
  · rfl
  · next hn =>
    have hw := h (by simpa using hn)
    cases w with
    | nil => rfl
    | cons c w =>
      have hc := ahead_cons.1 hw
      have hne : c ≠ '\n' ∧ c ≠ '\r' := by simpa [endsLine] using hc
      rw [List.nil_append, dropNewline, newline?.eq_def]
      split
      · next he => exact absurd (List.cons.inj he).1 hne.1
      · next he => exact absurd (List.cons.inj he).1 hne.2
      · rfl

theorem ahead_escapeAll_block (h : '\n' ∉ cs) : Ahead (fun c => !endsLine c) (escapeAll true 0 cs) := by
  cases cs with
  | nil => exact ahead_nil _
  | cons c cs =>
    rw [escapeAll]
    split
    · split <;> exact ahead_cons.2 rfl
    · split
      · next hb => exact absurd (hb.2 ▸ List.mem_cons_self) h
      · have he := escaped_escape c
        generalize escape c = w at he
        cases he with
        | plain hs => exact ahead_cons.2 (by simp [not_endsLine_of_isShown hs])
        | _ => exact ahead_cons.2 rfl

theorem string_encode_basicBlock (cs : List Char) : string (basicBlock cs) = .ok cs := by
  have hshape : basicBlock cs = '"' :: '"' :: '"' :: ((opening cs ++ escapeAll true 0 cs) ++ ['"', '"', '"']) := by
    simp [basicBlock]
  rw [hshape, string_basicBlock, dropNewline_opening ahead_escapeAll_block, unescape_escapeAll]

theorem closedBlock_opening {run : Nat} (hq : quote ≠ '\n') (hr : run < 3) (h : ClosedBlock quote 0 w)
    (h' : ClosedBlock quote run w) : ClosedBlock quote run (opening cs ++ w) := by
  rw [opening]
  split
  · exact .plain hr (Ne.symm hq) (fun _ _ _ => by simp [escapes]) h
  · exact h'

theorem isClosed_basicBlock (cs : List Char) : IsClosed (basicBlock cs) := by
  have hshape : basicBlock cs = '"' :: '"' :: '"' :: (opening cs ++ (escapeAll true 0 cs ++ ['"', '"', '"'])) := by
    simp [basicBlock]
  have h : ClosedBlock '"' 0 (escapeAll true 0 cs ++ ['"', '"', '"']) := closedBlock_escapeAll (by decide) cs
  rw [hshape]
  exact isClosed_block rfl (closedBlock_opening (by decide) (by decide) h h)

theorem of_controlsOnly {allowed : List Char} {c : Char} (h : controlsOnly allowed cs = true) (hc : c ∈ cs) :
    isShown c = true ∨ c ∈ allowed := by
  have hall := List.all_eq_true.1 h c hc
  rw [Bool.or_eq_true, Bool.not_eq_true', List.contains_iff_mem] at hall
  exact hall.imp isShown_of_not_isControl id

theorem fitsLiteral_iff : fitsLiteral cs = true ↔ controlsOnly ['\t'] cs = true ∧ '\x27' ∉ cs := by
  simp [fitsLiteral]

theorem isShown_of_fitsLiteral (h : fitsLiteral cs = true) {c : Char} (hc : c ∈ cs) : isShown c = true := by
  rcases of_controlsOnly (fitsLiteral_iff.1 h).1 hc with hs | hm
  · exact hs
  · rw [List.mem_singleton.1 hm]
    rfl

theorem string_encode_literal (h : fitsLiteral cs = true) : string (literal cs) = .ok cs := by
  have hw : Ahead (· != '\x27') cs := by
    rintro c rest rfl
    rw [bne_iff_ne]
    rintro rfl
    exact (fitsLiteral_iff.1 h).2 List.mem_cons_self
  rw [literal, List.cons_append, string_literal hw, verbatim_eq fun c hc => .inl (isShown_of_fitsLiteral h hc)]

theorem isClosed_literal (h : fitsLiteral cs = true) : IsClosed (literal cs) := by
  refine isClosed_line rfl (closedLine_verbatim fun c hc => ⟨?_, ?_⟩)
  · rintro rfl
    exact (fitsLiteral_iff.1 h).2 hc
  · rintro rfl
    cases isShown_of_fitsLiteral h hc

theorem fitsLiteralBlock_iff : fitsLiteralBlock cs = true ↔
    controlsOnly ['\t', '\n'] cs = true ∧ longestRun '\x27' 0 cs ≤ 2 := by
  simp [fitsLiteralBlock]

theorem isShown_of_fitsLiteralBlock (h : fitsLiteralBlock cs = true) {c : Char} (hc : c ∈ cs) :
    isShown c = true ∨ c = '\n' := by
  rcases of_controlsOnly (fitsLiteralBlock_iff.1 h).1 hc with hs | hm
  · exact .inl hs
  · rcases List.mem_cons.1 hm with rfl | hm
    · exact .inl rfl
    · exact .inr (List.mem_singleton.1 hm)

theorem string_encode_literalBlock (h : fitsLiteralBlock cs = true) : string (literalBlock cs) = .ok cs := by
  have hshape : literalBlock cs = '\x27' :: '\x27' :: '\x27' :: ((opening cs ++ cs) ++ ['\x27', '\x27', '\x27']) := by
    simp [literalBlock]
  have hw (hn : '\n' ∉ cs) : Ahead (fun c => !endsLine c) cs := by
    rintro c rest rfl
    rcases isShown_of_fitsLiteralBlock h List.mem_cons_self with hs | rfl
    · simp [not_endsLine_of_isShown hs]
    · exact absurd List.mem_cons_self hn
  rw [hshape, string_literalBlock, dropNewline_opening hw, verbatim_eq]
  intro c hc
  exact (isShown_of_fitsLiteralBlock h hc).imp id fun hn => ⟨rfl, hn⟩

theorem isClosed_literalBlock (h : fitsLiteralBlock cs = true) : IsClosed (literalBlock cs) := by
  have hshape : literalBlock cs = '\x27' :: '\x27' :: '\x27' :: (opening cs ++ (cs ++ ['\x27', '\x27', '\x27'])) := by
    simp [literalBlock]
  have hblock : ClosedBlock '\x27' 0 (cs ++ ['\x27', '\x27', '\x27']) :=
    closedBlock_verbatim (fitsLiteralBlock_iff.1 h).2
  rw [hshape]
  exact isClosed_block rfl (closedBlock_opening (by decide) (by decide) hblock hblock)

/-- A written string means the string that was to be written, and it ends where it should. -/
theorem string_encode (cs : List Char) : string (encode cs) = .ok cs ∧ IsClosed (encode cs) := by
  have hbasic := And.intro (string_encode_basic cs) (isClosed_basic cs)
  have hblock := And.intro (string_encode_basicBlock cs) (isClosed_basicBlock cs)
  rw [encode]
  split
  · exact hbasic
  · split
    · exact hbasic
    · split
      · next h => exact ⟨string_encode_literal h, isClosed_literal h⟩
      · split
        · exact hblock
        · split
          · next h => exact ⟨string_encode_literalBlock h, isClosed_literalBlock h⟩
          · split
            · exact hblock
            · exact hbasic

end Styles

end SqlLint.Toml
