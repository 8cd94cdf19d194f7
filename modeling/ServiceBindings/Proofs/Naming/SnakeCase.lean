import Mathlib.Data.List.Chain
import ServiceBindings.Proofs.Naming.Words

/-! The spelling of fields and functions. It is a normal form: what any name is spelled with is
spelled as it stands. Therefore the file of a field is named like the field, escaped or not, and
numbered names have files of their own. -/
namespace ServiceBindings.Naming

/-- A small letter, a digit or an underscore. -/
def isSnakeChar (c : Char) : Bool :=
  c.isLower || c.isDigit || c = '_'

/-- Small letters, digits and single underscores, the last of which is no underscore. The first is
no digit, and it is an underscore only before a digit. -/
structure IsSnake (name : String) : Prop where
  chars : ∀ c ∈ name.toList, isSnakeChar c = true
  single : SingleUnderscores name.toList
  last : ∀ c ∈ name.toList.getLast?, c ≠ '_'
  first : ∀ c ∈ name.toList.head?, c.isDigit = false
  guarded : ∀ rest, name.toList = '_' :: rest → ∃ c ∈ rest.head?, c.isDigit = true

section Characters
variable {c : Char}

theorem isSnakeChar_toLower (h : c.isAlphanum = true) : isSnakeChar c.toLower = true := by
  obtain ⟨n, hn, rfl⟩ := exists_ascii h
  have hall : ∀ n < 128, (Char.ofNat n).isAlphanum = true →
      isSnakeChar (Char.ofNat n).toLower = true := by decide
  exact hall n hn h

theorem isSnakeChar_cases (h : isSnakeChar c = true) :
    c.isAlphanum = true ∧ c.isUpper = false ∨ c = '_' := by
  simp only [isSnakeChar, Bool.or_eq_true, decide_eq_true_eq] at h
  rcases h with (hlower | hdigit) | hunderscore
  · exact .inl ⟨isAlphanum_of_isLower hlower, isUpper_of_isLower hlower⟩
  · exact .inl ⟨by simp [Char.isAlphanum, hdigit], isUpper_of_isDigit hdigit⟩
  · exact .inr hunderscore

end Characters

section Trimmed
variable {chars : List Char}

theorem head?_trimEndUnderscores : ∀ c ∈ (trimEndUnderscores chars).head?, c ∈ chars.head? := by
  intro c hc
  obtain ⟨dropped, hchars⟩ := trimEndUnderscores_isPrefix chars
  obtain ⟨rest, hrest⟩ := List.head?_eq_some_iff.1 hc
  rw [← hchars, hrest]
  rfl

theorem getLast?_trimEndUnderscores : ∀ c ∈ (trimEndUnderscores chars).getLast?, c ≠ '_' := by
  intro c hc
  obtain ⟨hne, rfl⟩ := List.mem_getLast?_eq_getLast hc
  have hlast := List.rdropWhile_last_not (· = '_') chars hne
  exact fun heq => hlast (decide_eq_true heq)

theorem trimEndUnderscores_eq_self (h : ∀ c ∈ chars.getLast?, c ≠ '_') :
    trimEndUnderscores chars = chars := by
  refine List.rdropWhile_eq_self_iff.2 fun hne => ?_
  simpa using h _ (List.getLast_mem_getLast? hne)

end Trimmed

section Spelled
variable {chars : List Char}

/-- An underscore is put behind a letter or digit alone. Behind other characters, and at the start,
the next character that is put is a letter or digit. -/
theorem singleUnderscores_snakeChars (previous : Option Char) (chars : List Char) :
    SingleUnderscores (snakeChars previous chars) ∧
      (previous.any Char.isAlphanum = false →
        ∀ c ∈ (snakeChars previous chars).head?, c ≠ '_') := by
  induction chars generalizing previous with
  | nil => exact ⟨.nil, by simp [snakeChars]⟩
  | cons c rest ih =>
    obtain ⟨hsingle, hhead⟩ := ih (some c)
    have hletter (halpha : c.isAlphanum = true) :
        SingleUnderscores (c.toLower :: snakeChars (some c) rest) :=
      hsingle.cons fun _ _ heq => absurd heq (toLower_ne_underscore halpha)
    rw [snakeChars]
    split_ifs with halpha hbegins hafter
    · refine ⟨.cons_cons (fun _ => toLower_ne_underscore halpha) (hletter halpha), fun hnone => ?_⟩
      obtain ⟨p, rfl, hp⟩ := (Option.any_eq_true _ _).1 ((Bool.and_eq_true _ _).mp hbegins).2
      rw [beginsWord_of_not_isAlphanum hnone] at hp
      cases hp
    · refine ⟨hletter halpha, fun _ d hd => ?_⟩
      obtain rfl := Option.some.inj hd
      exact toLower_ne_underscore halpha
    · refine ⟨hsingle.cons fun d hd _ => hhead (by simpa using halpha) d hd, fun hnone => ?_⟩
      rw [hnone] at hafter
      cases hafter
    · exact ⟨hsingle, fun _ => hhead (by simpa using halpha)⟩

/-- Characters without an underscore at either end get the form by a guard before a digit. -/
theorem isSnake_guardDigit (hchars : ∀ c ∈ chars, isSnakeChar c = true)
    (hsingle : SingleUnderscores chars) (hhead : ∀ c ∈ chars.head?, c ≠ '_')
    (hlast : ∀ c ∈ chars.getLast?, c ≠ '_') : IsSnake (String.ofList (guardDigit chars)) := by
  by_cases hdigit : chars.head?.any Char.isDigit = true
  · obtain ⟨c, hc, hcdigit⟩ := (Option.any_eq_true _ _).1 hdigit
    obtain ⟨rest, rfl⟩ := List.head?_eq_some_iff.1 hc
    have hguard : guardDigit (c :: rest) = '_' :: c :: rest := if_pos hdigit
    rw [hguard]
    constructor <;> rw [String.toList_ofList]
    · exact List.forall_mem_cons.2 ⟨rfl, hchars⟩
    · exact hsingle.cons_cons fun _ => hhead c rfl
    · rwa [List.getLast?_cons_cons]
    · rintro d ⟨⟩
      rfl
    · rintro more ⟨⟩
      exact ⟨c, rfl, hcdigit⟩
  · have hguard : guardDigit chars = chars := if_neg hdigit
    have hfirst := isDigit_head_guardDigit chars
    rw [hguard] at hfirst ⊢
    constructor <;> rw [String.toList_ofList]
    · exact hchars
    · exact hsingle
    · exact hlast
    · exact hfirst
    · rintro rest rfl
      exact absurd rfl (hhead '_' rfl)

theorem isSnake_snakeCase (name : String) : IsSnake (snakeCase name) := by
  obtain ⟨hsingle, hhead⟩ := singleUnderscores_snakeChars none name.toList
  have hbegin := trimEndUnderscores_isPrefix (snakeChars none name.toList)
  have htrimmed : SingleUnderscores (trimEndUnderscores (snakeChars none name.toList)) :=
    List.IsChain.prefix hsingle hbegin
  have hchars := forall_mem_snakeChars (p := (isSnakeChar · = true)) rfl
    (fun _ => isSnakeChar_toLower) none name.toList
  exact isSnake_guardDigit (fun c hc => hchars c (hbegin.subset hc)) htrimmed
    (fun c hc => hhead rfl c (head?_trimEndUnderscores c hc)) getLast?_trimEndUnderscores

end Spelled

section Fixed

/-- Without capitals and underscores in excess, nothing is changed. -/
theorem snakeChars_eq_self (previous : Option Char) {chars : List Char}
    (hchars : ∀ c ∈ chars, isSnakeChar c = true) (hsingle : SingleUnderscores chars)
    (hhead : previous.any Char.isAlphanum = false → ∀ c ∈ chars.head?, c ≠ '_') :
    snakeChars previous chars = chars := by
  induction chars generalizing previous with
  | nil => rfl
  | cons c rest ih =>
    obtain ⟨hchar, hrest⟩ := List.forall_mem_cons.1 hchars
    rcases isSnakeChar_cases hchar with ⟨halpha, hupper⟩ | rfl
    · rw [snakeChars, if_pos halpha, hupper, Bool.false_and, if_neg (by decide),
        toLower_of_isUpper_eq_false hupper, ih _ hrest hsingle.tail]
      intro hnone
      rw [Option.any_some, halpha] at hnone
      cases hnone
    · have hafter : previous.any Char.isAlphanum = true := by
        by_contra hnone
        exact hhead (by simpa using hnone) '_' rfl rfl
      rw [snakeChars, if_neg (by decide), if_pos hafter, ih _ hrest hsingle.tail]
      exact fun _ d hd => (List.isChain_cons.1 hsingle).1 d hd rfl

/-- A name of the form is spelled as it stands. -/
theorem IsSnake.snakeCase_eq {name : String} (h : IsSnake name) : snakeCase name = name := by
  have hlast := h.last
  rw [← String.toList_inj, snakeCase, String.toList_ofList]
  by_cases hhead : ∀ c ∈ name.toList.head?, c ≠ '_'
  · have hdigit : ¬name.toList.head?.any Char.isDigit = true := by
      intro hdigit
      obtain ⟨c, hc, hcdigit⟩ := (Option.any_eq_true _ _).1 hdigit
      rw [h.first c hc] at hcdigit
      cases hcdigit
    rw [snakeChars_eq_self none h.chars h.single fun _ => hhead, trimEndUnderscores_eq_self hlast,
      guardDigit, if_neg hdigit]
  · push Not at hhead
    obtain ⟨c, hc, rfl⟩ := hhead
    obtain ⟨rest, hname⟩ := List.head?_eq_some_iff.1 hc
    obtain ⟨d, hd, hdigit⟩ := h.guarded rest hname
    obtain ⟨more, rfl⟩ := List.head?_eq_some_iff.1 hd
    have hsingle := h.single
    have hchars := h.chars
    rw [hname] at hsingle hchars hlast ⊢
    rw [List.getLast?_cons_cons] at hlast
    -- the guard is skipped, the rest is spelled as it stands, and then the guard is put back
    have hskip : snakeChars none ('_' :: d :: more) = snakeChars (some '_') (d :: more) := rfl
    have hrest := snakeChars_eq_self (some '_') (List.forall_mem_cons.1 hchars).2
      hsingle.tail fun _ e he => (List.isChain_cons.1 hsingle).1 e he rfl
    rw [hskip, hrest, trimEndUnderscores_eq_self hlast]
    exact if_pos hdigit

theorem isSnake_iff {name : String} : IsSnake name ↔ snakeCase name = name :=
  ⟨IsSnake.snakeCase_eq, fun h => h ▸ isSnake_snakeCase name⟩

theorem snakeCase_snakeCase (name : String) : snakeCase (snakeCase name) = snakeCase name :=
  (isSnake_snakeCase name).snakeCase_eq

/-- No word is lost or parted. -/
theorem words_snakeCase (name : String) : words (snakeCase name).toList = words name.toList := by
  rw [← spelledWords_snakeCase (snakeCase name), snakeCase_snakeCase, spelledWords_snakeCase]

end Fixed

/-- The file of a field is named like the field without the marks that escape a keyword. -/
theorem fileStem_memberName (name : String) : fileStem (memberName name) = snakeCase name := by
  have hplain : snakeCase (String.ofList (dropRawMarks (snakeCase name).toList)) =
      snakeCase name := by
    rw [dropRawMarks_of_notMem (hash_notMem_snakeCase name), String.ofList_toList,
      snakeCase_snakeCase]
  have hescaped : ∀ word ∈ pathKeywords, snakeCase word = word → fileStem (word ++ "_") = word := by
    decide
  unfold memberName
  dsimp only
  split_ifs with hpath hkeyword
  · exact hescaped _ hpath (snakeCase_snakeCase name)
  · rw [fileStem, String.toList_append, String.toList_ofList, rawMark, List.cons_append,
      List.cons_append, List.nil_append, dropRawMarks, hplain]
  · exact hplain

/-- A spelled name has the form, consists of the words of the name, and is spelled as it stands, as
names of the form are and no others. The file of a field is named by it. A number behind a name is
spelled behind it, so that each number makes another file. -/
theorem snakeCase_stable :
    (∀ name : String,
      snakeCase (snakeCase name) = snakeCase name ∧
      IsSnake (snakeCase name) ∧ (IsSnake name ↔ snakeCase name = name) ∧
      words (snakeCase name).toList = words name.toList ∧
      fileStem (memberName name) = snakeCase name) ∧
    ∀ base : String, Function.Injective fun k => fileStem (base ++ Text.natural k) := by
  refine ⟨fun name => ?_, fun base j k h => fileStem_numbered_injective h⟩
  exact ⟨snakeCase_snakeCase name, isSnake_snakeCase name, isSnake_iff, words_snakeCase name,
    fileStem_memberName name⟩

example : snakeCase "2FAKey--Id_" = "_2_fa_key_id" := by decide

end ServiceBindings.Naming
