import Mathlib.Tactic.Common
import ServiceBindings.Text.Utf8

/-! Written text is read back: every character begins with a lead byte that asks for exactly the
continuation bytes behind it. -/
namespace ServiceBindings.Text
open String (utf8EncodeChar)

theorem toNat_ofNat_byte {n : Nat} (h : n < 256) : (UInt8.ofNat n).toNat = n := by
  simp [Nat.mod_eq_of_lt h]

/-- A continuation byte adds its six bits. -/
theorem tailBytes_cons {low high b : Nat} (hb : b < 256) (hl : low ≤ b) (hh : b ≤ high)
    (count code : Nat) (rest : Bytes) :
    tailBytes (count + 1) low high code (UInt8.ofNat b :: rest) =
      ((tailBytes count 0x80 0xBF (code * 64 + (b - 0x80)) rest).1,
        (tailBytes count 0x80 0xBF (code * 64 + (b - 0x80)) rest).2 + 1) := by
  simp [tailBytes, toNat_ofNat_byte hb, hl, hh]

theorem leadByte_one {b : Nat} (h : b < 0x80) : leadByte b = some (0, 0, 0, b) := by
  simp [leadByte, h]

theorem leadByte_two {b : Nat} (h : 0xC2 ≤ b ∧ b < 0xE0) :
    leadByte b = some (1, 0x80, 0xBF, b - 0xC0) := by
  unfold leadByte
  grind

theorem leadByte_three {b : Nat} (h : 0xE0 ≤ b ∧ b < 0xF0) :
    leadByte b = some (2, if b = 0xE0 then 0xA0 else 0x80, if b = 0xED then 0x9F else 0xBF,
      b - 0xE0) := by
  unfold leadByte
  grind

theorem leadByte_four {b : Nat} (h : 0xF0 ≤ b ∧ b ≤ 0xF4) :
    leadByte b = some (3, if b = 0xF0 then 0x90 else 0x80, if b = 0xF4 then 0x8F else 0xBF,
      b - 0xF0) := by
  unfold leadByte
  grind

theorem readChar_of_leadByte {n b count low high code : Nat} (hb : b < 256)
    (hlead : leadByte b = some (count, low, high, code)) {tail : Bytes} (rest : Bytes)
    (htail : tailBytes count low high code (tail ++ rest) = (some n, tail.length)) :
    readChar (UInt8.ofNat b) (tail ++ rest) = (some (Char.ofNat n), tail.length) := by
  simp [readChar, toNat_ofNat_byte hb, hlead, htail]

/-- A written character is read whole, whatever follows it. -/
theorem readChar_utf8EncodeChar (c : Char) (rest : Bytes) :
    ∃ b tail, utf8EncodeChar c = b :: tail ∧
      readChar b (tail ++ rest) = (some c, tail.length) := by
  have hv : c.toNat < 0xD800 ∨ 0xDFFF < c.toNat ∧ c.toNat < 0x110000 := c.valid
  have hc : Char.ofNat c.toNat = c := Char.ofNat_toNat c
  unfold utf8EncodeChar
  rw [show c.val.toNat = c.toNat from rfl]
  generalize c.toNat = n at *
  subst hc
  dsimp only
  -- One case for each number of bytes; surrogates are excluded only among three bytes.
  split_ifs with h1 h2 h3
  · exact ⟨_, [], rfl,
      readChar_of_leadByte (b := n) (by omega) (leadByte_one (by omega)) rest rfl⟩
  · refine ⟨_, [_], rfl, readChar_of_leadByte (by omega) (leadByte_two (by omega)) rest ?_⟩
    rw [List.singleton_append, tailBytes_cons (by omega) (by omega) (by omega)]
    simp only [tailBytes, List.length_singleton, Prod.mk.injEq, Option.some.injEq]
    exact ⟨by omega, trivial⟩
  · refine ⟨_, [_, _], rfl, readChar_of_leadByte (by omega) (leadByte_three (by omega)) rest ?_⟩
    simp only [List.cons_append, List.nil_append]
    rw [tailBytes_cons (by omega) (by split <;> omega) (by split <;> omega),
      tailBytes_cons (by omega) (by omega) (by omega)]
    simp only [tailBytes, List.length_cons, List.length_nil, Prod.mk.injEq, Option.some.injEq]
    exact ⟨by omega, trivial⟩
  · refine ⟨_, [_, _, _], rfl, readChar_of_leadByte (by omega) (leadByte_four (by omega)) rest ?_⟩
    simp only [List.cons_append, List.nil_append]
    rw [tailBytes_cons (by omega) (by split <;> omega) (by split <;> omega),
      tailBytes_cons (by omega) (by omega) (by omega),
      tailBytes_cons (by omega) (by omega) (by omega)]
    simp only [tailBytes, List.length_cons, List.length_nil, Prod.mk.injEq, Option.some.injEq]
    exact ⟨by omega, trivial⟩

theorem utf8EncodeChar_of_lt {c : Char} (h : c.toNat < 128) :
    utf8EncodeChar c = [UInt8.ofNat c.toNat] := by
  have hc : c.val.toNat ≤ 127 := Nat.le_of_lt_succ h
  rw [utf8EncodeChar, if_pos hc]
  rfl

theorem decodeChars_utf8EncodeChar (c : Char) (rest : Bytes) :
    decodeChars (utf8EncodeChar c ++ rest) = some c :: decodeChars rest := by
  obtain ⟨b, tail, hc, hr⟩ := readChar_utf8EncodeChar c rest
  rw [hc, List.cons_append, decodeChars, hr, List.drop_left]

theorem decodeChars_flatMap (chars : List Char) :
    decodeChars (chars.flatMap utf8EncodeChar) = chars.map some := by
  induction chars with
  | nil => rw [List.flatMap_nil, decodeChars, List.map_nil]
  | cons c rest ih => rw [List.flatMap_cons, decodeChars_utf8EncodeChar, ih, List.map_cons]

/-- Every text is read back from its bytes. -/
theorem ofUtf8?_utf8 (s : String) : ofUtf8? (utf8 s) = some s := by
  have h : s.toList.mapM (m := Option) some = some s.toList := by
    simpa using List.mapM_pure (m := Option) (l := s.toList) (f := id)
  simp [ofUtf8?, utf8, decodeChars_flatMap, h]

/-- Bytes of a text hold nothing that would be replaced. -/
theorem ofUtf8Lossy_utf8 (s : String) : ofUtf8Lossy (utf8 s) = s := by
  have h : (fun c : Option Char => c.getD '\uFFFD') ∘ some = id := rfl
  rw [ofUtf8Lossy, utf8, decodeChars_flatMap, List.map_map, h, List.map_id, String.ofList_toList]

end ServiceBindings.Text
