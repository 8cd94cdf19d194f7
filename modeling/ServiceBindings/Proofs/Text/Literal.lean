import Mathlib.Tactic.Common
import ServiceBindings.Proofs.Text.Digits
import ServiceBindings.Text.Quoted

/-! Texts in quotes within source text. Whatever their characters are, they are read back from
between their quotes, and the code around them stays as it is. -/
namespace ServiceBindings.Text

/-- Where in a line a character stands: in code, between quotes, there behind a backslash, behind
the letter that announces a code point, or among the digits of one. -/
inductive Spot where
  | code
  | inside
  | escape
  | point
  | digits (read : List Char)
deriving DecidableEq

def unescaped? : Char → Option Char
  | '0' => some '\x00'
  | 't' => some '\t'
  | 'r' => some '\r'
  | 'n' => some '\n'
  | '"' => some '"'
  | '\\' => some '\\'
  | '\'' => some '\''
  | _ => none

def codePoint? (digits : List Char) : Option Char :=
  (ofDigits? 16 digits).bind fun n => if n.isValidChar then some (Char.ofNat n) else none

/-- The parts of a line: code and texts in quotes in turn, code first and last. -/
def parts? : Spot → List Char → Option (List (List Char))
  | .code, [] => some [[]]
  | _, [] => none
  | .code, c :: rest =>
    if c = '"' then (parts? .inside rest).map ([] :: ·)
    else (parts? .code rest).map (·.modifyHead (c :: ·))
  | .inside, c :: rest =>
    if c = '"' then (parts? .code rest).map ([] :: ·)
    else if c = '\\' then parts? .escape rest
    else (parts? .inside rest).map (·.modifyHead (c :: ·))
  | .escape, e :: rest =>
    if e = 'u' then parts? .point rest
    else (unescaped? e).bind fun c => (parts? .inside rest).map (·.modifyHead (c :: ·))
  | .point, c :: rest => if c = '\x7b' then parts? (.digits []) rest else none
  | .digits read, d :: rest =>
    if d = '\x7d' then
      (codePoint? read).bind fun c => (parts? .inside rest).map (·.modifyHead (c :: ·))
    else parts? (.digits (read ++ [d])) rest

example : parts? .code "f(\"a\\\"\\u\x7b7f\x7d\", b)".toList =
    some ["f(".toList, ['a', '"', '\x7f'], ", b)".toList] := by decide

theorem parts?_code_append {code : List Char} (h : '"' ∉ code) (rest : List Char) :
    parts? .code (code ++ rest) = (parts? .code rest).map (·.modifyHead (code ++ ·)) := by
  induction code with
  | nil =>
    rw [List.nil_append]
    cases parts? .code rest with
    | none => rfl
    | some parts => cases parts <;> rfl
  | cons c code ih =>
    obtain ⟨hc, hcode⟩ := not_or.1 (mt List.mem_cons.2 h)
    rw [List.cons_append, parts?, if_neg (Ne.symm hc), ih hcode]
    cases parts? .code rest <;> simp [Function.comp_def]

theorem exists_hexDigit_of_mem {n : Nat} {c : Char} (h : c ∈ hexDigits n) :
    ∃ d < 16, c = hexDigit d := by
  induction n using hexDigits.induct with
  | case1 n hn =>
    rw [hexDigits, if_pos hn, List.mem_singleton] at h
    exact ⟨n, hn, h⟩
  | case2 n hn ih =>
    rw [hexDigits, if_neg hn, List.mem_append, List.mem_singleton] at h
    rcases h with h | h
    · exact ih h
    · exact ⟨_, Nat.mod_lt _ (by decide), h⟩

theorem notMem_hexDigits {c : Char} (h : ∀ d < 16, hexDigit d ≠ c) (n : Nat) : c ∉ hexDigits n := by
  intro hmem
  obtain ⟨d, hd, rfl⟩ := exists_hexDigit_of_mem hmem
  exact h d hd rfl

theorem hexDigits_ne_nil (n : Nat) : hexDigits n ≠ [] := by
  rw [hexDigits]
  split_ifs <;> simp

theorem ofDigits?_hexDigits (n : Nat) : ofDigits? 16 (hexDigits n) = some n := by
  rw [ofDigits?_eq_appendDigits (hexDigits_ne_nil n)]
  induction n using hexDigits.induct with
  | case1 n hn =>
    rw [hexDigits, if_pos hn, appendDigits_singleton hn (by decide), Nat.zero_mul, Nat.zero_add]
  | case2 n hn ih =>
    rw [hexDigits, if_neg hn, appendDigits_append, ih, Option.bind_some,
      appendDigits_singleton (Nat.mod_lt _ (by decide)) (by decide), Nat.div_add_mod']

theorem codePoint?_hexDigits (c : Char) : codePoint? (hexDigits c.toNat) = some c := by
  have hvalid : c.toNat.isValidChar := c.valid
  rw [codePoint?, ofDigits?_hexDigits, Option.bind_some, if_pos hvalid, Char.ofNat_toNat]

theorem parts?_digits {digits : List Char} (h : '\x7d' ∉ digits) (read rest : List Char) :
    parts? (.digits read) (digits ++ '\x7d' :: rest) =
      (codePoint? (read ++ digits)).bind fun c =>
        (parts? .inside rest).map (·.modifyHead (c :: ·)) := by
  induction digits generalizing read with
  | nil => simp [parts?]
  | cons d digits ih =>
    obtain ⟨hd, hdigits⟩ := not_or.1 (mt List.mem_cons.2 h)
    rw [List.cons_append, parts?, if_neg (Ne.symm hd), ih hdigits, List.append_assoc,
      List.singleton_append]

/-- Between quotes every character is read as itself, however it is written. -/
theorem parts?_quotedChar (c : Char) (rest : List Char) :
    parts? .inside (quotedChar c ++ rest) = (parts? .inside rest).map (·.modifyHead (c :: ·)) := by
  unfold quotedChar
  split_ifs with h0 ht hr hn hquote hslash
  · subst h0; rfl
  · subst ht; rfl
  · subst hr; rfl
  · subst hn; rfl
  · subst hquote; rfl
  · subst hslash; rfl
  · rw [List.singleton_append, parts?, if_neg hquote, if_neg hslash]
  · have hbrace : '\x7d' ∉ hexDigits c.toNat := notMem_hexDigits (by decide) _
    have hread := parts?_digits hbrace [] rest
    rw [List.nil_append, codePoint?_hexDigits, Option.bind_some] at hread
    rw [← hread]
    simp [parts?]

theorem parts?_quoted (s : String) (rest : List Char) :
    parts? .code ((quoted s).toList ++ rest) =
      (parts? .code rest).map fun parts => [] :: s.toList :: parts := by
  have hinside (chars : List Char) : parts? .inside (chars.flatMap quotedChar ++ '"' :: rest) =
      (parts? .code rest).map (chars :: ·) := by
    induction chars with
    | nil => simp [parts?]
    | cons c chars ih =>
      rw [List.flatMap_cons, List.append_assoc, parts?_quotedChar, ih]
      cases parts? .code rest <;> simp
  rw [quoted, String.toList_ofList, List.cons_append, List.append_assoc, List.singleton_append,
    parts?, if_pos rfl, hinside]
  cases parts? .code rest <;> rfl

end ServiceBindings.Text
