import ServiceBindings.Proofs.Form

/-! Escaped texts are made of few characters and are read back. -/
namespace ServiceBindings.Text.Percent

/-- Characters that stand for themselves, slashes among them or not, and escapes of single bytes. -/
inductive IsEscaped (slashes : Bool) : List Char → Prop
  | nil : IsEscaped slashes []
  | kept {c : Char} {rest : List Char} (hc : isUnreserved c = true ∨ slashes = true ∧ c = '/')
    (hrest : IsEscaped slashes rest) : IsEscaped slashes (c :: rest)
  | escape {high low : Nat} {rest : List Char} (hhigh : high < 16) (hlow : low < 16)
    (hrest : IsEscaped slashes rest) :
    IsEscaped slashes ('%' :: upperHexDigit high :: upperHexDigit low :: rest)

/-- The bytes of an escaped text. An escape stands for its byte, all else for itself. -/
def bytes : List Char → Bytes
  | [] => []
  | '%' :: a :: b :: rest =>
    match ofDigits? 16 [a, b] with
    | some n => UInt8.ofNat n :: bytes rest
    | none => 0x25 :: bytes (a :: b :: rest)
  | c :: rest => String.utf8EncodeChar c ++ bytes rest

def decode? (written : String) : Option String :=
  ofUtf8? (bytes written.toList)

/-- A written text is escaped and stands for another one. -/
structure Spells (slashes : Bool) (written text : String) : Prop where
  escaped : IsEscaped slashes written.toList
  decoded : decode? written = some text

section
variable {slashes : Bool}

theorem isUnreserved_upperHexDigit {n : Nat} (h : n < 16) :
    isUnreserved (upperHexDigit n) = true := by
  revert n
  decide

/-- Reserved characters do not occur in escaped texts, but for percent signs and slashes. -/
theorem IsEscaped.cases_of_mem {chars : List Char} (h : IsEscaped slashes chars) {c : Char}
    (hc : c ∈ chars) : isUnreserved c = true ∨ c = '%' ∨ slashes = true ∧ c = '/' := by
  induction h with
  | nil => simp at hc
  | kept hkept _ ih =>
    rcases List.mem_cons.1 hc with rfl | hc
    · exact hkept.imp_right .inr
    · exact ih hc
  | escape hhigh hlow _ ih =>
    simp only [List.mem_cons] at hc
    rcases hc with rfl | rfl | rfl | hc
    · exact .inr (.inl rfl)
    · exact .inl (isUnreserved_upperHexDigit hhigh)
    · exact .inl (isUnreserved_upperHexDigit hlow)
    · exact ih hc

theorem IsEscaped.append {chars others : List Char} (h : IsEscaped slashes chars)
    (hothers : IsEscaped slashes others) : IsEscaped slashes (chars ++ others) := by
  induction h with
  | nil => exact hothers
  | kept hc _ ih => exact .kept hc ih
  | escape hhigh hlow _ ih => exact .escape hhigh hlow ih

theorem IsEscaped.flatMap {α : Type} {f : α → List Char} {items : List α}
    (h : ∀ item, IsEscaped slashes (f item)) : IsEscaped slashes (items.flatMap f) := by
  induction items with
  | nil => exact .nil
  | cons item rest ih =>
    rw [List.flatMap_cons]
    exact (h item).append ih

theorem isEscaped_escapeByte (b : UInt8) : IsEscaped slashes (escapeByte b) := by
  have hb := b.toNat_lt
  exact .escape (by omega) (by omega) .nil

theorem bytes_escapeByte (b : UInt8) (rest : List Char) :
    bytes (escapeByte b ++ rest) = b :: bytes rest := by
  have hb := b.toNat_lt
  have hdigits :=
    ofDigits?_upperHexDigit (m := b.toNat / 16) (n := b.toNat % 16) (by omega) (by omega)
  have hbyte : UInt8.ofNat (b.toNat / 16 * 16 + b.toNat % 16) = b :=
    Base64.ofNat_of_eq_toNat (by omega)
  show bytes ('%' :: upperHexDigit (b.toNat / 16) :: upperHexDigit (b.toNat % 16) :: rest) = _
  rw [bytes, hdigits]
  dsimp only
  rw [hbyte]

theorem bytes_escapeBytes (escaped : Bytes) (rest : List Char) :
    bytes (escaped.flatMap escapeByte ++ rest) = escaped ++ bytes rest := by
  induction escaped with
  | nil => rfl
  | cons b escaped ih =>
    rw [List.flatMap_cons, List.append_assoc, bytes_escapeByte, ih, List.cons_append]

variable {keeps : Char → Bool}
  (hkeeps : ∀ c, keeps c = true → isUnreserved c = true ∨ slashes = true ∧ c = '/')
include hkeeps

theorem isEscaped_escapeChar (c : Char) : IsEscaped slashes (escapeChar keeps c) := by
  unfold escapeChar
  split_ifs with hc
  · exact .kept (hkeeps c hc) .nil
  · exact .flatMap isEscaped_escapeByte

theorem bytes_escapeChar (c : Char) (rest : List Char) :
    bytes (escapeChar keeps c ++ rest) = String.utf8EncodeChar c ++ bytes rest := by
  unfold escapeChar
  split_ifs with hc
  · have hpercent : c ≠ '%' := by
      rintro rfl
      rcases hkeeps '%' hc with h | ⟨-, h⟩
      · revert h
        decide
      · revert h
        decide
    exact bytes.eq_3 c rest fun _ _ _ h => absurd h hpercent
  · exact bytes_escapeBytes _ rest

theorem bytes_flatMap_escapeChar (chars : List Char) :
    bytes (chars.flatMap (escapeChar keeps)) = chars.flatMap String.utf8EncodeChar := by
  induction chars with
  | nil => rfl
  | cons c rest ih =>
    rw [List.flatMap_cons, List.flatMap_cons, bytes_escapeChar hkeeps, ih]

theorem spells_escape (s : String) : Spells slashes (escape keeps s) s := by
  constructor
  · rw [escape, String.toList_ofList]
    exact .flatMap (isEscaped_escapeChar hkeeps)
  · rw [decode?, escape, String.toList_ofList, bytes_flatMap_escapeChar hkeeps]
    exact ofUtf8?_utf8 s

end

theorem spells_label (greedy : Bool) (s : String) : Spells greedy (label greedy s) s := by
  refine spells_escape (fun c hc => ?_) s
  simpa using hc

theorem spells_query (s : String) : Spells false (query s) s :=
  spells_escape (fun _ hc => .inl hc) s

/-- A reserved character does not occur in a written text, unless it is a slash that is kept. -/
theorem Spells.notMem {slashes : Bool} {written text : String} (h : Spells slashes written text)
    {c : Char} (hc : isUnreserved c = false) (hpercent : c ≠ '%')
    (hslash : c = '/' → slashes = false) : c ∉ written.toList := by
  intro hmem
  rcases h.escaped.cases_of_mem hmem with hkept | heq | ⟨hslashes, heq⟩
  · rw [hc] at hkept
    cases hkept
  · exact hpercent heq
  · rw [hslash heq] at hslashes
    cases hslashes

end ServiceBindings.Text.Percent
