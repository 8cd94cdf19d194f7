import Mathlib.Tactic.Common
import ServiceBindings.Text.Base64

/-! Bytes are read back from their base-64 text, group by group. -/
namespace ServiceBindings.Text.Base64

theorem value?_symbol {n : Nat} (h : n < 64) : value? (symbol n) = some n := by
  revert n
  decide

theorem symbol_ne_padding {n : Nat} (h : n < 64) : symbol n ≠ '=' := by
  revert n
  decide

/-- A group of four characters without padding stands for three bytes. -/
theorem decodeChars?_group {a b c d : Nat} (ha : a < 64) (hb : b < 64) (hc : c < 64) (hd : d < 64)
    (rest : List Char) :
    decodeChars? (symbol a :: symbol b :: symbol c :: symbol d :: rest) =
      (decodeChars? rest).map fun tail =>
        UInt8.ofNat (a * 4 + b / 16) :: UInt8.ofNat (b % 16 * 16 + c / 4) ::
          UInt8.ofNat (c % 4 * 64 + d) :: tail := by
  have hne := symbol_ne_padding hd
  rw [decodeChars?.eq_4 _ _ _ _ _ (fun _ h => absurd h hne) (fun h => absurd h hne),
    value?_symbol ha, value?_symbol hb, value?_symbol hc, value?_symbol hd]
  cases decodeChars? rest <;> rfl

theorem ofNat_of_eq_toNat {n : Nat} {b : UInt8} (h : n = b.toNat) : UInt8.ofNat n = b := by
  rw [h, UInt8.ofNat_toNat]

theorem decodeChars?_encodeChars (bytes : Bytes) :
    decodeChars? (encodeChars bytes) = some bytes := by
  fun_induction encodeChars bytes with
  | case1 => rfl
  | case2 a =>
    have ha := a.toNat_lt
    rw [decodeChars?, value?_symbol (by omega), value?_symbol (by omega)]
    have hzero : a.toNat % 4 * 16 % 16 = 0 := by omega
    simp only [Option.bind_eq_bind, Option.bind_some, hzero, if_true]
    rw [ofNat_of_eq_toNat (b := a) (by omega)]
  | case3 a b =>
    have ha := a.toNat_lt
    have hb := b.toNat_lt
    have hne : symbol (b.toNat % 16 * 4) ≠ '=' := symbol_ne_padding (by omega)
    rw [decodeChars?.eq_3 _ _ _ (fun h => absurd h hne), value?_symbol (by omega),
      value?_symbol (by omega), value?_symbol (by omega)]
    have hzero : b.toNat % 16 * 4 % 4 = 0 := by omega
    simp only [Option.bind_eq_bind, Option.bind_some, hzero, if_true]
    rw [ofNat_of_eq_toNat (b := a) (by omega), ofNat_of_eq_toNat (b := b) (by omega)]
  | case4 a b c rest ih =>
    have ha := a.toNat_lt
    have hb := b.toNat_lt
    have hc := c.toNat_lt
    rw [decodeChars?_group (by omega) (by omega) (by omega) (by omega), ih, Option.map_some,
      ofNat_of_eq_toNat (b := a) (by omega), ofNat_of_eq_toNat (b := b) (by omega),
      ofNat_of_eq_toNat (b := c) (by omega)]

theorem mem_encodeChars {bytes : Bytes} {c : Char} (h : c ∈ encodeChars bytes) :
    c = '=' ∨ ∃ n < 64, c = symbol n := by
  fun_induction encodeChars bytes with
  | case1 => simp at h
  | case2 a =>
    have ha := a.toNat_lt
    simp only [List.mem_cons, List.not_mem_nil, or_false] at h
    rcases h with rfl | rfl | rfl | rfl
    · exact .inr ⟨_, by omega, rfl⟩
    · exact .inr ⟨_, by omega, rfl⟩
    · exact .inl rfl
    · exact .inl rfl
  | case3 a b =>
    have ha := a.toNat_lt
    have hb := b.toNat_lt
    simp only [List.mem_cons, List.not_mem_nil, or_false] at h
    rcases h with rfl | rfl | rfl | rfl
    · exact .inr ⟨_, by omega, rfl⟩
    · exact .inr ⟨_, by omega, rfl⟩
    · exact .inr ⟨_, by omega, rfl⟩
    · exact .inl rfl
  | case4 a b d rest ih =>
    have ha := a.toNat_lt
    have hb := b.toNat_lt
    have hd := d.toNat_lt
    simp only [List.mem_cons] at h
    rcases h with rfl | rfl | rfl | rfl | h
    · exact .inr ⟨_, by omega, rfl⟩
    · exact .inr ⟨_, by omega, rfl⟩
    · exact .inr ⟨_, by omega, rfl⟩
    · exact .inr ⟨_, by omega, rfl⟩
    · exact ih h

/-- Every sequence of bytes is read back from its text. -/
theorem decode?_encode (bytes : Bytes) : decode? (encode bytes) = some bytes := by
  rw [decode?, encode, String.toList_ofList, decodeChars?_encodeChars]

end ServiceBindings.Text.Base64
