import SqlLint.Proofs.Json.Grammar
import Mathlib.Data.Nat.Digits.Defs

/-! # What strings and numbers of JSON stand for -/
namespace SqlLint.Json

namespace Piece

/-- The two surrogates of a character are put together to it. -/
theorem pair_surrogates {c : Char} (h : 0x10000 ≤ c.toNat) :
    pair (0xD800 + (c.toNat - 0x10000) / 0x400) (0xDC00 + (c.toNat - 0x10000) % 0x400) = c := by
  have value : 0x10000 + (0xD800 + (c.toNat - 0x10000) / 0x400 - 0xD800) * 0x400 +
      (0xDC00 + (c.toNat - 0x10000) % 0x400 - 0xDC00) = c.toNat := by omega
  rw [pair, value, Char.ofNat_toNat]

theorem chars?_units (c : Char) (ps : List Piece) :
    chars? ((CodeUnits.ofChar c).map .unit ++ ps) = (chars? ps).map (c :: ·) := by
  rw [CodeUnits.ofChar]
  split
  · next basic =>
    -- A character is no half of a pair.
    have single : isHigh c.toNat = false ∧ isLow c.toNat = false := by
      have valid := c.valid
      simp only [isHigh, isLow, Bool.and_eq_false_iff, decide_eq_false_iff_not]
      rcases valid with h | h
      · exact ⟨.inl (Nat.not_le.2 h), .inl (by have : c.toNat < 0xD800 := h; omega)⟩
      · exact ⟨.inr (by have : 0xDFFF < c.toNat := h.1; omega), .inr (by have : 0xDFFF < c.toNat := h.1; omega)⟩
    rw [List.map_singleton, List.singleton_append, chars?.eq_def]
    simp only [single, Bool.false_eq_true, if_false, Char.ofNat_toNat]
  · next beyond =>
    have large : 0x10000 ≤ c.toNat := Nat.not_lt.1 beyond
    have bound : c.toNat < 0x110000 := c.valid.elim (fun hv => Nat.lt_trans hv (by decide)) And.right
    have high : isHigh (0xD800 + (c.toNat - 0x10000) / 0x400) = true := CodeUnits.isHigh_add (by omega)
    have low : isLow (0xDC00 + (c.toNat - 0x10000) % 0x400) = true :=
      CodeUnits.isLow_add (Nat.mod_lt _ (by decide))
    rw [List.map_cons, List.map_cons, List.map_nil, List.cons_append, List.singleton_append, chars?, if_pos high,
      if_pos low, pair_surrogates large]

/-- The pieces of a string are put together to the text that they denote. -/
theorem chars?_of_denotes {ps : List Piece} {cs : List Char} (h : Denotes ps cs) : chars? ps = some cs := by
  induction h with
  | nil => rfl
  | char c _ ih => rw [chars?, ih, Option.map_some]
  | units c _ ih => rw [chars?_units, ih, Option.map_some]

theorem text?_of_denotes {ps : List Piece} {s : String} (h : Denotes ps s.toList) : text? ps = some s := by
  rw [text?, chars?_of_denotes h, Option.map_some, String.ofList_toList]

end Piece

namespace NumberText

theorem ofDigits_reverse (ds : List Nat) : Nat.ofDigits 10 ds.reverse = ds.foldl (fun n d => n * 10 + d) 0 := by
  rw [Nat.ofDigits_eq_foldr, List.foldr_reverse]
  congr
  funext n d
  rw [Nat.cast_id, Nat.mul_comm, Nat.add_comm]

theorem le_foldl (ds : List Nat) (n : Nat) : n ≤ ds.foldl (fun n d => n * 10 + d) n := by
  induction ds generalizing n with
  | nil => exact Nat.le_refl n
  | cons d ds ih => exact Nat.le_trans (by omega) (ih (n * 10 + d))

theorem absorb_of_lt {ds : List Nat} {n : Nat} (h : ds.foldl (fun n d => n * 10 + d) n < Word.size 64) :
    absorb n ds = (ds.foldl (fun n d => n * 10 + d) n, ds.length) := by
  induction ds generalizing n with
  | nil => rfl
  | cons d ds ih =>
    have small : n * 10 + d < Word.size 64 := Nat.lt_of_le_of_lt (le_foldl ds (n * 10 + d)) h
    rw [absorb, if_pos small, ih h]
    rfl

/-- A natural number that fits a word is read exactly. -/
theorem value?_of_ofDigits {ds : List Nat} {n : Nat} (value : Nat.ofDigits 10 ds.reverse = n)
    (fits : n < Word.size 64) : value? ⟨false, ds, [], none⟩ = some (.int n) := by
  rw [ofDigits_reverse] at value
  subst value
  rw [value?, absorb_of_lt fits]
  simp [isInteger]

end NumberText
end SqlLint.Json
