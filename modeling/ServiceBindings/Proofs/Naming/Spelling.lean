import Mathlib.Data.List.DropRight
import ServiceBindings.Proofs.Naming.Stems

/-! Names are spelled with letters, digits and few marks, whatever they are derived from. -/
namespace ServiceBindings.Naming

/-- A character of names in generated source. -/
def isNameChar (c : Char) : Bool :=
  c.isAlphanum || c = '_' || c = '#'

/-- A text of such characters. -/
def IsSpelled (name : String) : Prop :=
  ∀ c ∈ name.toList, isNameChar c = true

instance (name : String) : Decidable (IsSpelled name) :=
  decidable_of_iff (name.toList.all isNameChar = true) List.all_eq_true

/-- No two underscores stand next to each other. -/
def SingleUnderscores (chars : List Char) : Prop :=
  chars.IsChain fun a b => a = '_' → b ≠ '_'

theorem exists_ascii {c : Char} (h : c.isAlphanum = true) : ∃ n < 128, c = Char.ofNat n := by
  refine ⟨c.toNat, ?_, (Char.ofNat_toNat c).symm⟩
  rcases (Bool.or_eq_true _ _).mp h with halpha | hdigit
  · rcases (Bool.or_eq_true _ _).mp halpha with hupper | hlower
    · have hle : c.toNat ≤ 'Z'.toNat := (of_decide_eq_true hupper).2
      exact Nat.lt_of_le_of_lt hle (by decide)
    · have hle : c.toNat ≤ 'z'.toNat := of_decide_eq_true ((Bool.and_eq_true _ _).mp hlower).2
      exact Nat.lt_of_le_of_lt hle (by decide)
  · exact Nat.lt_of_le_of_lt (Char.isDigit_iff_toNat.1 hdigit).2 (by decide)

theorem isAlpha_of_isUpper {c : Char} (h : c.isUpper = true) : c.isAlpha = true := by
  show (c.isUpper || c.isLower) = true
  rw [h, Bool.true_or]

theorem isAlphanum_of_isLower {c : Char} (h : c.isLower = true) : c.isAlphanum = true := by
  show ((c.isUpper || c.isLower) || c.isDigit) = true
  rw [h, Bool.or_true, Bool.true_or]

theorem isUpper_of_isLower {c : Char} (h : c.isLower = true) : c.isUpper = false := by
  obtain ⟨n, hn, rfl⟩ := exists_ascii (isAlphanum_of_isLower h)
  have hall : ∀ n < 128, (Char.ofNat n).isLower = true → (Char.ofNat n).isUpper = false := by decide
  exact hall n hn h

theorem isLower_of_isUpper {c : Char} (h : c.isUpper = true) : c.isLower = false := by
  by_contra hlower
  rw [isUpper_of_isLower (by simpa using hlower)] at h
  cases h

/-- A character that is no capital is its own small letter. -/
theorem toLower_of_isUpper_eq_false {c : Char} (h : c.isUpper = false) : c.toLower = c :=
  dif_neg (of_decide_eq_false h)

/-- A character that is no small letter is its own capital. -/
theorem toUpper_of_isLower_eq_false {c : Char} (h : c.isLower = false) : c.toUpper = c := by
  refine dif_neg fun hsmall => ?_
  have hlower : c.isLower = true :=
    (Bool.and_eq_true _ _).mpr ⟨decide_eq_true hsmall.1, decide_eq_true hsmall.2⟩
  rw [h] at hlower
  cases hlower

theorem isUpper_or_isDigit_toUpper {c : Char} (h : c.isAlphanum = true) :
    c.toUpper.isUpper = true ∨ c.toUpper.isDigit = true := by
  obtain ⟨n, hn, rfl⟩ := exists_ascii h
  have hall : ∀ n < 128, (Char.ofNat n).isAlphanum = true →
      (Char.ofNat n).toUpper.isUpper = true ∨ (Char.ofNat n).toUpper.isDigit = true := by decide
  exact hall n hn h

theorem isAlphanum_toUpper {c : Char} (h : c.isAlphanum = true) : c.toUpper.isAlphanum = true := by
  rcases isUpper_or_isDigit_toUpper h with hupper | hdigit
  · simp [Char.isAlphanum, isAlpha_of_isUpper hupper]
  · simp [Char.isAlphanum, hdigit]

theorem isAlphanum_toLower {c : Char} (h : c.isAlphanum = true) : c.toLower.isAlphanum = true := by
  obtain ⟨n, hn, rfl⟩ := exists_ascii h
  have hall : ∀ n < 128, (Char.ofNat n).isAlphanum = true →
      (Char.ofNat n).toLower.isAlphanum = true := by decide
  exact hall n hn h

theorem isAlphanum_of_mem_pascalChars {start : Bool} {chars : List Char} {c : Char}
    (h : c ∈ pascalChars start chars) : c.isAlphanum = true := by
  induction chars generalizing start with
  | nil => cases h
  | cons d rest ih =>
    rw [pascalChars] at h
    split_ifs at h with halpha hstart
    · rcases List.mem_cons.1 h with rfl | h
      · exact isAlphanum_toUpper halpha
      · exact ih h
    · rcases List.mem_cons.1 h with rfl | h
      · exact halpha
      · exact ih h
    · exact ih h

theorem isNameChar_of_isAlphanum {c : Char} (h : c.isAlphanum = true) : isNameChar c = true := by
  simp [isNameChar, h]

/-- A name is spelled with underscores and its letters and digits in small letters. -/
theorem forall_mem_snakeChars {p : Char → Prop} (hunderscore : p '_')
    (hlower : ∀ c : Char, c.isAlphanum = true → p c.toLower) (previous : Option Char)
    (chars : List Char) : ∀ c ∈ snakeChars previous chars, p c := by
  induction chars generalizing previous with
  | nil =>
    intro c hc
    cases hc
  | cons d rest ih =>
    rw [snakeChars]
    split_ifs with halpha
    · exact List.forall_mem_cons.2 ⟨hunderscore, List.forall_mem_cons.2 ⟨hlower d halpha, ih _⟩⟩
    · exact List.forall_mem_cons.2 ⟨hlower d halpha, ih _⟩
    · exact List.forall_mem_cons.2 ⟨hunderscore, ih _⟩
    · exact ih _

theorem trimEndUnderscores_isPrefix (chars : List Char) : trimEndUnderscores chars <+: chars :=
  List.rdropWhile_prefix _ _

/-- Guarding a digit adds at most an underscore. -/
theorem forall_mem_guardDigit {p : Char → Prop} {chars : List Char} (hunderscore : p '_')
    (h : ∀ c ∈ chars, p c) : ∀ c ∈ guardDigit chars, p c := by
  unfold guardDigit
  split_ifs
  · exact List.forall_mem_cons.2 ⟨hunderscore, h⟩
  · exact h

/-- A digit does not stand first behind the underscore that guards it. -/
theorem isDigit_head_guardDigit (chars : List Char) :
    ∀ c ∈ (guardDigit chars).head?, c.isDigit = false := by
  unfold guardDigit
  split_ifs with h
  · rintro c ⟨⟩
    rfl
  · intro c hc
    rw [Option.mem_def.1 hc] at h
    simpa using h

theorem isSpelled_pascalCase (name : String) : IsSpelled (pascalCase name) := by
  rw [IsSpelled, pascalCase, String.toList_ofList]
  exact forall_mem_guardDigit rfl fun _ hmem =>
    isNameChar_of_isAlphanum (isAlphanum_of_mem_pascalChars hmem)

theorem isSpelled_snakeCase (name : String) : IsSpelled (snakeCase name) := by
  rw [IsSpelled, snakeCase, String.toList_ofList]
  refine forall_mem_guardDigit rfl fun c hmem => ?_
  exact forall_mem_snakeChars (p := (isNameChar · = true)) rfl
    (fun _ halpha => isNameChar_of_isAlphanum (isAlphanum_toLower halpha)) none name.toList c
    ((trimEndUnderscores_isPrefix _).subset hmem)

theorem IsSpelled.append {a b : String} (ha : IsSpelled a) (hb : IsSpelled b) :
    IsSpelled (a ++ b) := by
  intro c hmem
  rw [String.toList_append] at hmem
  exact (List.mem_append.1 hmem).elim (ha c) (hb c)

theorem isSpelled_natural (n : Nat) : IsSpelled (Text.natural n) := by
  intro c hmem
  rw [Text.natural, String.toList_ofList] at hmem
  exact isNameChar_of_isAlphanum (by simp [Char.isAlphanum, Text.isDigit_of_mem_digits hmem])

theorem isSpelled_typeName (name : String) : IsSpelled (typeName name) := by
  have hspelled := isSpelled_pascalCase name
  unfold typeName
  dsimp only
  split_ifs
  · exact .append (by decide) hspelled
  · exact hspelled

theorem isSpelled_memberName (name : String) : IsSpelled (memberName name) := by
  have hspelled := isSpelled_snakeCase name
  unfold memberName
  dsimp only
  split_ifs
  · exact hspelled.append (by decide)
  · exact .append (by decide) hspelled
  · exact hspelled

theorem Identifier.IsNumbered.isSpelled {area : Area} {base : String} {ident : Identifier}
    (h : ident.IsNumbered area base) (hbase : IsSpelled base) : IsSpelled ident.name := by
  rcases h.2 with hname | ⟨k, -, hname⟩
  · rwa [hname]
  · rw [hname]
    exact hbase.append (isSpelled_natural k)

end ServiceBindings.Naming
