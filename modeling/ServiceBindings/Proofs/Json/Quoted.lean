import Mathlib.Tactic.Common
import ServiceBindings.Json.Node
import ServiceBindings.Json.Tree
import ServiceBindings.Proofs.Text.Digits

/-! Every text is read back from its characters in quotes. -/
namespace ServiceBindings.Json

theorem joinPieces?_char (c : Char) (pieces : List Piece) :
    joinPieces? (.char c :: pieces) = (joinPieces? pieces).map (c :: ·) := by
  rw [joinPieces?]

/-- A unit below the surrogates stands for a character by itself. -/
theorem joinPieces?_unit {n : Nat} (h : n < 0xD800) (pieces : List Piece) :
    joinPieces? (.unit n :: pieces) = (joinPieces? pieces).map (Char.ofNat n :: ·) := by
  have hhigh : ¬(0xD800 ≤ n ∧ n < 0xDC00) := by omega
  have hlow : ¬(0xDC00 ≤ n ∧ n < 0xE000) := by omega
  have hboth : ¬(0xD800 ≤ n ∧ n < 0xE000) := by omega
  match pieces with
  | [] => simp [joinPieces?, hboth]
  | .char c :: rest => simp [joinPieces?, hboth]
  | .unit m :: rest => simp [joinPieces?, hhigh, hlow]

theorem pieces?_escaped {e c : Char} (h : escaped? e = some c) (rest : List Char) :
    pieces? ('\\' :: e :: rest) = (pieces? rest).map fun (ps, tail) => (.char c :: ps, tail) := by
  have hu : e ≠ 'u' := by
    rintro rfl
    simp [escaped?] at h
  rw [pieces?, h]
  · cases pieces? rest <;> rfl
  · rintro a b c d tail rfl
    exact absurd rfl hu

theorem pieces?_plain {c : Char} (h : 32 ≤ c.toNat) (hquote : c ≠ '"') (hslash : c ≠ '\\')
    (rest : List Char) :
    pieces? (c :: rest) = (pieces? rest).map fun (ps, tail) => (.char c :: ps, tail) := by
  rw [pieces?, if_neg (by rintro (h' | h'); exacts [by omega, hslash h'])]
  · exact hquote
  · rintro a b c d tail rfl
    exact absurd rfl hslash
  · rintro e tail rfl
    exact absurd rfl hslash

theorem pieces?_unit {n : Nat} (h : n < 32) (rest : List Char) :
    pieces? ('\\' :: 'u' :: '0' :: '0' :: Text.hexDigit (n / 16) :: Text.hexDigit (n % 16) :: rest)
      = (pieces? rest).map fun (ps, tail) => (.unit n :: ps, tail) := by
  have hdigits : Text.ofDigits? 16
      ['0', '0', Text.hexDigit (n / 16), Text.hexDigit (n % 16)] = some n := by
    revert n
    decide
  rw [pieces?, hdigits]
  cases pieces? rest <;> rfl

/-- A character inside quotes is read as one piece, which stands for the character. -/
theorem exists_piece (c : Char) :
    ∃ piece,
      (∀ rest, pieces? (escapeChar c ++ rest) =
        (pieces? rest).map fun (ps, tail) => (piece :: ps, tail)) ∧
      ∀ pieces, joinPieces? (piece :: pieces) = (joinPieces? pieces).map (c :: ·) := by
  unfold escapeChar
  split_ifs with h1 h2 h3 h4 h5 h6 h7 h8
  · exact ⟨.char c, pieces?_escaped (by rw [h1]; rfl), joinPieces?_char c⟩
  · exact ⟨.char c, pieces?_escaped (by rw [h2]; rfl), joinPieces?_char c⟩
  · exact ⟨.char c, pieces?_escaped (by rw [h3]; rfl), joinPieces?_char c⟩
  · exact ⟨.char c, pieces?_escaped (by rw [h4]; rfl), joinPieces?_char c⟩
  · exact ⟨.char c, pieces?_escaped (by rw [h5]; rfl), joinPieces?_char c⟩
  · exact ⟨.char c, pieces?_escaped (by rw [h6]; rfl), joinPieces?_char c⟩
  · exact ⟨.char c, pieces?_escaped (by rw [h7]; rfl), joinPieces?_char c⟩
  · refine ⟨.unit c.toNat, pieces?_unit h8, fun pieces => ?_⟩
    rw [joinPieces?_unit (by omega), Char.ofNat_toNat]
  · exact ⟨.char c, pieces?_plain (by omega) h1 h2, joinPieces?_char c⟩

/-- A quoted text is read back, and reading stops behind its closing quote. -/
theorem exists_pieces (chars rest : List Char) :
    ∃ pieces, pieces? (chars.flatMap escapeChar ++ '"' :: rest) = some (pieces, rest) ∧
      joinPieces? pieces = some chars := by
  induction chars with
  | nil => exact ⟨[], by simp [pieces?], rfl⟩
  | cons c chars ih =>
    obtain ⟨pieces, hread, hjoin⟩ := ih
    obtain ⟨piece, hpiece, hchar⟩ := exists_piece c
    refine ⟨piece :: pieces, ?_, by rw [hchar, hjoin]; rfl⟩
    rw [List.flatMap_cons, List.append_assoc, hpiece, hread]
    rfl

theorem quoted?_flatMap (s : String) (rest : List Char) :
    quoted? (s.toList.flatMap escapeChar ++ '"' :: rest) = some (some s, rest) := by
  obtain ⟨pieces, hread, hjoin⟩ := exists_pieces s.toList rest
  simp [quoted?, hread, hjoin]

end ServiceBindings.Json
