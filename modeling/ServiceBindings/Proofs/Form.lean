import Mathlib.Data.List.Forall2
import ServiceBindings.Form
import ServiceBindings.Proofs.Text.Base64
import ServiceBindings.Proofs.Text.Utf8

/-! Forms are read back: a body is split into pairs, and the text of a value is decoded. -/
namespace ServiceBindings

namespace Text.Percent

/-- The bytes of a value of a form. A plus sign stands for a space, and an escape for its byte. -/
def formBytes : List Char → Bytes
  | [] => []
  | '+' :: rest => 0x20 :: formBytes rest
  | '%' :: a :: b :: rest =>
    match ofDigits? 16 [a, b] with
    | some n => UInt8.ofNat n :: formBytes rest
    | none => 0x25 :: formBytes (a :: b :: rest)
  | c :: rest => String.utf8EncodeChar c ++ formBytes rest

/-- The text of a value of a form, if its bytes are one. -/
def ofForm? (value : List Char) : Option String :=
  ofUtf8? (formBytes value)

theorem ofDigits?_upperHexDigit {m n : Nat} (hm : m < 16) (hn : n < 16) :
    ofDigits? 16 [upperHexDigit m, upperHexDigit n] = some (m * 16 + n) := by
  have hall : ∀ m < 16, ∀ n < 16,
      ofDigits? 16 [upperHexDigit m, upperHexDigit n] = some (m * 16 + n) := by decide
  exact hall m hm n hn

theorem formBytes_escapeByte (b : UInt8) (rest : List Char) :
    formBytes (escapeByte b ++ rest) = b :: formBytes rest := by
  have hb := b.toNat_lt
  have hdigits :=
    ofDigits?_upperHexDigit (m := b.toNat / 16) (n := b.toNat % 16) (by omega) (by omega)
  have hbyte : UInt8.ofNat (b.toNat / 16 * 16 + b.toNat % 16) = b :=
    Base64.ofNat_of_eq_toNat (by omega)
  show formBytes ('%' :: upperHexDigit (b.toNat / 16) :: upperHexDigit (b.toNat % 16) :: rest) = _
  rw [formBytes, hdigits]
  dsimp only
  rw [hbyte]

theorem formBytes_escapeBytes (bytes : Bytes) (rest : List Char) :
    formBytes (bytes.flatMap escapeByte ++ rest) = bytes ++ formBytes rest := by
  induction bytes with
  | nil => rfl
  | cons b bytes ih =>
    rw [List.flatMap_cons, List.append_assoc, formBytes_escapeByte, ih, List.cons_append]

/-- A character that stands for itself is neither a sign for a space nor the start of an escape. -/
theorem formBytes_unreserved {c : Char} (h : isUnreserved c = true) (rest : List Char) :
    formBytes (c :: rest) = String.utf8EncodeChar c ++ formBytes rest := by
  have hplus : c ≠ '+' := by
    rintro rfl
    revert h
    decide
  have hpercent : c ≠ '%' := by
    rintro rfl
    revert h
    decide
  exact formBytes.eq_4 c rest hplus fun _ _ _ h => absurd h hpercent

/-- The characters of a value of a form stand for the bytes of the text. -/
theorem formBytes_form (chars : List Char) :
    formBytes (chars.flatMap fun c => if c = ' ' then ['+'] else escapeChar isUnreserved c) =
      chars.flatMap String.utf8EncodeChar := by
  induction chars with
  | nil => rfl
  | cons c rest ih =>
    rw [List.flatMap_cons, List.flatMap_cons, ← ih]
    by_cases hspace : c = ' '
    · subst hspace
      rfl
    · rw [if_neg hspace]
      unfold escapeChar
      split_ifs with hkept
      · exact formBytes_unreserved hkept _
      · exact formBytes_escapeBytes _ _

theorem ofForm?_form (s : String) : ofForm? (form s).toList = some s := by
  rw [ofForm?, form, String.toList_ofList, formBytes_form]
  exact ofUtf8?_utf8 s

theorem upperHexDigit_ne_separator {n : Nat} (h : n < 16) : upperHexDigit n ≠ '&' := by
  revert n
  decide

/-- A value of a form does not hold the sign between pairs. -/
theorem separator_notMem_form (s : String) : '&' ∉ (form s).toList := by
  rw [form, String.toList_ofList, List.mem_flatMap]
  rintro ⟨c, -, hmem⟩
  split_ifs at hmem with hspace
  · simp at hmem
  unfold escapeChar at hmem
  split_ifs at hmem with hkept
  · obtain rfl := List.mem_singleton.1 hmem
    revert hkept
    decide
  · obtain ⟨b, -, hmem⟩ := List.mem_flatMap.1 hmem
    have hb := b.toNat_lt
    have hhigh := upperHexDigit_ne_separator (n := b.toNat / 16) (by omega)
    have hlow := upperHexDigit_ne_separator (n := b.toNat % 16) (by omega)
    simp [escapeByte, hhigh.symm, hlow.symm] at hmem

end Text.Percent

namespace Form
open Text.Percent (ofForm? ofForm?_form separator_notMem_form)

/-- The name and the value of a written pair, apart at the first equality sign. -/
def pairOf? (piece : List Char) : Option (String × String) :=
  match piece.dropWhile (· ≠ '=') with
  | [] => none
  | _ :: value =>
    (ofForm? value).map fun value => (String.ofList (piece.takeWhile (· ≠ '=')), value)

def pairsOf? (body : String) : Option (List (String × String)) :=
  (body.toList.splitOn '&').mapM pairOf?

/-- Names of pairs are written as they are and do not hold the signs around them. -/
def IsName (name : String) : Prop :=
  '&' ∉ name.toList ∧ '=' ∉ name.toList

theorem toList_pairText (pair : String × String) :
    (pairText pair).toList = pair.1.toList ++ '=' :: (Text.Percent.form pair.2).toList := by
  simp [pairText]

theorem pairOf?_pairText {pair : String × String} (h : IsName pair.1) :
    pairOf? (pairText pair).toList = some pair := by
  have hname : ∀ c ∈ pair.1.toList, decide (c ≠ '=') = true := by
    intro c hc
    apply decide_eq_true
    rintro rfl
    exact h.2 hc
  unfold pairOf?
  rw [toList_pairText, List.dropWhile_append_of_pos hname, List.takeWhile_append_of_pos hname]
  have hdrop : ('=' :: (Text.Percent.form pair.2).toList).dropWhile (· ≠ '=') =
      '=' :: (Text.Percent.form pair.2).toList := by simp
  have htake : ('=' :: (Text.Percent.form pair.2).toList).takeWhile (· ≠ '=') = [] := by simp
  rw [hdrop, htake, List.append_nil, String.ofList_toList]
  dsimp only
  rw [ofForm?_form]
  rfl

theorem mapM_pairOf? {pairs : List (String × String)} (h : ∀ pair ∈ pairs, IsName pair.1) :
    (pairs.map fun pair => (pairText pair).toList).mapM pairOf? = some pairs := by
  induction pairs with
  | nil => rfl
  | cons pair rest ih =>
    have hpair := pairOf?_pairText (h pair List.mem_cons_self)
    have hrest := ih fun pair hmem => h pair (List.mem_cons_of_mem _ hmem)
    rw [List.map_cons, List.mapM_cons, hpair, hrest]
    rfl

theorem separator_notMem_pairText {pair : String × String} (h : IsName pair.1) :
    '&' ∉ (pairText pair).toList := by
  rw [toList_pairText, List.mem_append, List.mem_cons]
  rintro (hname | hsign | hvalue)
  · exact h.1 hname
  · exact absurd hsign (by decide)
  · exact separator_notMem_form pair.2 hvalue

/-- The pairs of a body are those that were written. -/
theorem pairsOf?_intercalate {pairs : List (String × String)} (hne : pairs ≠ [])
    (h : ∀ pair ∈ pairs, IsName pair.1) :
    pairsOf? ("&".intercalate (pairs.map pairText)) = some pairs := by
  have hpieces : ∀ piece ∈ pairs.map fun pair => (pairText pair).toList, '&' ∉ piece := by
    intro piece hpiece
    obtain ⟨pair, hpair, rfl⟩ := List.mem_map.1 hpiece
    exact separator_notMem_pairText (h pair hpair)
  have hchars : ("&".intercalate (pairs.map pairText)).toList =
      ['&'].intercalate (pairs.map fun pair => (pairText pair).toList) := by
    rw [String.toList_intercalate, List.map_map]
    rfl
  unfold pairsOf?
  rw [hchars, List.splitOn_intercalate '&' hpieces (by simpa using hne)]
  exact mapM_pairOf? h

end Form
end ServiceBindings
