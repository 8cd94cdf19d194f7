import ServiceBindings.Proofs.Naming.Spelling
import ServiceBindings.Proofs.Text.Joined

/-! The words of a name. A field is spelled with them alone, so names have fields of their own
exactly if they differ in their words. -/
namespace ServiceBindings.Naming

/-- Whether a word ends between two of its letters and digits: before a capital, if no capital
stands in front of it or a small letter follows it. -/
def partsBefore (c d : Char) (next : Option Char) : Bool :=
  d.isUpper && (!c.isUpper || next.any Char.isLower)

/-- The words of a name, in small letters. Only letters and digits of ASCII are parts of words. -/
def words : List Char → List (List Char)
  | [] => []
  | [c] => if c.isAlphanum then [[c.toLower]] else []
  | c :: d :: rest =>
    if !c.isAlphanum then words (d :: rest)
    else if !d.isAlphanum || partsBefore c d rest.head? then [c.toLower] :: words (d :: rest)
    else (words (d :: rest)).modifyHead (c.toLower :: ·)

example : words "HTTPServer2Id url".toList =
    ["http".toList, "server2".toList, "id".toList, "url".toList] := by decide

theorem isUpper_or_of_isAlphanum {c : Char} (h : c.isAlphanum = true) :
    (c.isLower || c.isDigit) = !c.isUpper := by
  obtain ⟨n, hn, rfl⟩ := exists_ascii h
  have hall : ∀ n < 128, (Char.ofNat n).isAlphanum = true →
      ((Char.ofNat n).isLower || (Char.ofNat n).isDigit) = !(Char.ofNat n).isUpper := by decide
  exact hall n hn h

theorem toLower_ne_underscore {c : Char} (h : c.isAlphanum = true) : c.toLower ≠ '_' := by
  obtain ⟨n, hn, rfl⟩ := exists_ascii h
  have hall : ∀ n < 128, (Char.ofNat n).isAlphanum = true → (Char.ofNat n).toLower ≠ '_' := by
    decide
  exact hall n hn h

theorem partsBefore_eq {c : Char} (hc : c.isAlphanum = true) (d : Char) (next : Option Char) :
    (d.isUpper && beginsWord c next) = partsBefore c d next := by
  rw [beginsWord, isUpper_or_of_isAlphanum hc, partsBefore]
  cases c.isUpper <;> simp

section Spelling

/-- Behind a character that is no part of a word, a capital is treated as the first letter is. -/
theorem beginsWord_of_not_isAlphanum {p : Char} (h : p.isAlphanum = false) (next : Option Char) :
    beginsWord p next = false := by
  change (p.isUpper || p.isLower || p.isDigit) = false at h
  simp only [Bool.or_eq_false_iff] at h
  simp [beginsWord, h]

/-- A character that is no part of a word is as good as none. -/
theorem snakeChars_of_not_isAlphanum {p : Char} (h : p.isAlphanum = false) (chars : List Char) :
    snakeChars (some p) chars = snakeChars none chars := by
  cases chars with
  | nil => rfl
  | cons c rest => simp [snakeChars, beginsWord_of_not_isAlphanum h, h]

/-- Behind a part of a word there is an underscore if the word ends. -/
theorem snakeChars_some {p c : Char} (hp : p.isAlphanum = true) (rest : List Char) :
    snakeChars (some p) (c :: rest) =
      if !c.isAlphanum || partsBefore p c rest.head? then '_' :: snakeChars none (c :: rest)
      else snakeChars none (c :: rest) := by
  by_cases hc : c.isAlphanum = true
  · simp only [snakeChars, hc, Option.any_some, partsBefore_eq hp]
    split_ifs <;> simp_all
  · have hnone : c.isAlphanum = false := by simpa using hc
    simp [snakeChars, hnone, hp, snakeChars_of_not_isAlphanum]

/-- Underscores at the end are dropped behind the first character as they are without it. -/
theorem trimEndUnderscores_cons (c : Char) (rest : List Char) :
    trimEndUnderscores (c :: rest) =
      if trimEndUnderscores rest = [] ∧ c = '_' then [] else c :: trimEndUnderscores rest := by
  unfold trimEndUnderscores
  rw [List.reverse_cons, List.dropWhile_append]
  by_cases h : rest.reverse.dropWhile (· = '_') = []
  · by_cases hc : c = '_' <;> simp [h, hc]
  · simp [h]

theorem trimEndUnderscores_cons_of_ne {c : Char} (h : c ≠ '_') (rest : List Char) :
    trimEndUnderscores (c :: rest) = c :: trimEndUnderscores rest := by
  rw [trimEndUnderscores_cons, if_neg fun hboth => h hboth.2]

end Spelling

theorem words_ne_nil {c : Char} (h : c.isAlphanum = true) (rest : List Char) :
    words (c :: rest) ≠ [] := by
  induction rest generalizing c with
  | nil => simp [words, h]
  | cons d rest ih =>
    rw [words, h, Bool.not_true, if_neg (by decide)]
    split_ifs with hends
    · exact List.cons_ne_nil _ _
    · have hd : d.isAlphanum = true := by simp_all
      obtain ⟨word, others, hwords⟩ := List.exists_cons_of_ne_nil (ih hd)
      simp [hwords]

/-- Words consist of letters and digits. -/
theorem isAlphanum_of_mem_words {chars word : List Char} (h : word ∈ words chars) :
    word ≠ [] ∧ ∀ c ∈ word, c.isAlphanum = true := by
  induction chars using words.induct generalizing word with
  | case1 => cases h
  | case2 c hc =>
    rw [words, if_pos hc, List.mem_singleton] at h
    subst h
    simpa using isAlphanum_toLower hc
  | case3 c hc => simp [words, hc] at h
  | case4 c d rest hc ih =>
    rw [words, if_pos hc] at h
    exact ih h
  | case5 c d rest hc hends ih =>
    have halpha : c.isAlphanum = true := by simpa using hc
    rw [words, if_neg hc, if_pos hends] at h
    rcases List.mem_cons.1 h with rfl | h
    · simpa using isAlphanum_toLower halpha
    · exact ih h
  | case6 c d rest hc hends ih =>
    have halpha : c.isAlphanum = true := by simpa using hc
    rw [words, if_neg hc, if_neg hends] at h
    cases hwords : words (d :: rest) with
    | nil => simp [hwords] at h
    | cons first others =>
      rw [hwords] at h ih
      rcases List.mem_cons.1 h with rfl | h
      · refine ⟨List.cons_ne_nil _ _, fun e he => ?_⟩
        rcases List.mem_cons.1 he with rfl | he
        · exact isAlphanum_toLower halpha
        · exact (ih List.mem_cons_self).2 e he
      · exact ih (List.mem_cons_of_mem _ h)

theorem head_of_intercalate {word : List Char} (others : List (List Char)) (h : word ≠ []) :
    (['_'].intercalate (word :: others)).head? = word.head? := by
  obtain ⟨c, rest, rfl⟩ := List.exists_cons_of_ne_nil h
  cases others <;> rfl

/-- A name is spelled with its words. -/
theorem trimEndUnderscores_snakeChars (chars : List Char) :
    trimEndUnderscores (snakeChars none chars) = ['_'].intercalate (words chars) := by
  induction chars using words.induct with
  | case1 => rfl
  | case2 c hc =>
    have hlower := toLower_ne_underscore hc
    simp [snakeChars, words, hc, trimEndUnderscores_cons_of_ne hlower]
    rfl
  | case3 c hc =>
    simp [snakeChars, words, hc]
    rfl
  | case4 c d rest hc ih =>
    have hnone : c.isAlphanum = false := by simpa using hc
    rw [words, if_pos hc, ← ih, snakeChars, hnone, if_neg (by decide), Option.any_none,
      if_neg (by decide), snakeChars_of_not_isAlphanum hnone]
  | case5 c d rest hc hends ih =>
    have halpha : c.isAlphanum = true := by simpa using hc
    have hlower := toLower_ne_underscore halpha
    rw [words, if_neg hc, if_pos hends, snakeChars, if_pos halpha, Option.any_none, Bool.and_false,
      if_neg (by decide), snakeChars_some halpha, if_pos hends,
      trimEndUnderscores_cons_of_ne hlower, trimEndUnderscores_cons, ih]
    cases hwords : words (d :: rest) with
    | nil => rfl
    | cons first others =>
      have hfirst : first ≠ [] := (isAlphanum_of_mem_words (hwords ▸ List.mem_cons_self)).1
      have hhead := head_of_intercalate others hfirst
      have hne : ['_'].intercalate (first :: others) ≠ [] := by
        intro hnil
        rw [hnil, List.head?_nil, eq_comm, List.head?_eq_none_iff] at hhead
        exact hfirst hhead
      rw [if_neg fun hboth => hne hboth.1]
      rfl
  | case6 c d rest hc hends ih =>
    have halpha : c.isAlphanum = true := by simpa using hc
    have hd : d.isAlphanum = true := by simp_all
    have hlower := toLower_ne_underscore halpha
    obtain ⟨first, others, hwords⟩ := List.exists_cons_of_ne_nil (words_ne_nil hd rest)
    rw [words, if_neg hc, if_neg hends, snakeChars, if_pos halpha, Option.any_none, Bool.and_false,
      if_neg (by decide), snakeChars_some halpha, if_neg hends,
      trimEndUnderscores_cons_of_ne hlower, ih, hwords, List.modifyHead_cons]
    cases others <;> rfl

theorem toList_snakeCase (name : String) :
    (snakeCase name).toList = guardDigit (['_'].intercalate (words name.toList)) := by
  rw [snakeCase, String.toList_ofList, trimEndUnderscores_snakeChars]

section ReadBack

/-- The parts of a spelling between its underscores. -/
def spelledWords (spelled : List Char) : List (List Char) :=
  (spelled.splitOn '_').filter (!·.isEmpty)

theorem spelledWords_guardDigit (spelled : List Char) :
    spelledWords (guardDigit spelled) = spelledWords spelled := by
  unfold guardDigit spelledWords
  split_ifs
  · rw [← List.nil_append ('_' :: spelled), List.splitOn_append_cons_self_of_not_mem (by simp)]
    rfl
  · rfl

theorem spelledWords_concat (spelled : List Char) :
    spelledWords (spelled ++ ['_']) = spelledWords spelled := by
  rw [spelledWords, List.splitOn_append_cons_self, List.filter_append]
  exact List.append_nil _

/-- The words can be read off what a name is spelled with. -/
theorem spelledWords_snakeCase (name : String) :
    spelledWords (snakeCase name).toList = words name.toList := by
  have hunderscore : ∀ word ∈ words name.toList, '_' ∉ word := fun word hmem hin =>
    absurd ((isAlphanum_of_mem_words hmem).2 '_' hin) (by decide)
  have hfilled : (words name.toList).filter (!·.isEmpty) = words name.toList :=
    List.filter_eq_self.2 fun word hmem => by simpa using (isAlphanum_of_mem_words hmem).1
  rw [toList_snakeCase, spelledWords_guardDigit, spelledWords]
  by_cases hnone : words name.toList = []
  · rw [hnone]
    rfl
  · rw [List.splitOn_intercalate '_' hunderscore hnone, hfilled]

/-- A name is spelled with letters, digits and underscores alone. -/
theorem isAlphanum_of_mem_joined {chars : List Char} {c : Char}
    (h : c ∈ ['_'].intercalate (words chars)) : c.isAlphanum = true ∨ c = '_' := by
  rcases Text.mem_intercalate h with hmem | ⟨word, hword, hmem⟩
  · exact .inr (List.mem_singleton.1 hmem)
  · exact .inl ((isAlphanum_of_mem_words hword).2 c hmem)

theorem hash_notMem_snakeCase (name : String) : '#' ∉ (snakeCase name).toList := by
  rw [toList_snakeCase]
  intro h
  have hspelled := forall_mem_guardDigit (.inr rfl) (fun _ => isAlphanum_of_mem_joined) '#' h
  exact absurd hspelled (by decide)

theorem dropRawMarks_of_notMem {chars : List Char} (h : '#' ∉ chars) :
    dropRawMarks chars = chars := by
  refine dropRawMarks.eq_2 chars fun rest heq => h ?_
  rw [heq]
  simp

/-- A raw mark is no part of the identifier of a field, and an underscore at its end is no word. -/
theorem spelledWords_memberName (name : String) :
    spelledWords (dropRawMarks (memberName name).toList) = words name.toList := by
  have hhash := hash_notMem_snakeCase name
  rw [← spelledWords_snakeCase name]
  unfold memberName
  dsimp only
  split_ifs
  · have hlast : '#' ∉ (snakeCase name).toList ++ ['_'] := by simpa using hhash
    rw [String.toList_append, show "_".toList = ['_'] from rfl, dropRawMarks_of_notMem hlast,
      spelledWords_concat]
  · rw [String.toList_append, String.toList_ofList, rawMark, List.cons_append, List.cons_append,
      List.nil_append, dropRawMarks, dropRawMarks_of_notMem hhash]
  · rw [dropRawMarks_of_notMem hhash]

end ReadBack

/-- Names are spelled alike if they have the same words. -/
theorem memberName_eq_of_words {a b : String} (h : words a.toList = words b.toList) :
    memberName a = memberName b := by
  have hsnake : snakeCase a = snakeCase b := by
    rw [← String.toList_inj, toList_snakeCase, toList_snakeCase, h]
  rw [memberName, memberName, hsnake]

/-- Fields of two names have the same identifier exactly if the names have the same words. -/
theorem dropRawMarks_memberName_eq_iff {a b : String} :
    dropRawMarks (memberName a).toList = dropRawMarks (memberName b).toList ↔
      words a.toList = words b.toList := by
  constructor
  · intro h
    rw [← spelledWords_memberName a, h, spelledWords_memberName]
  · intro h
    rw [memberName_eq_of_words h]

end ServiceBindings.Naming
