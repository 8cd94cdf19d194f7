import Mathlib.Data.List.Nodup
import Mathlib.Data.List.Perm.Subperm
import Mathlib.Tactic.Common
import ServiceBindings.Naming.Names
import ServiceBindings.Proofs.Text.Digits

/-! A name with a number behind it is spelled with the number, so there is always a free one. -/
namespace ServiceBindings.Naming
open Text (digits)

theorem exists_hexDigit {c : Char} (h : c.isDigit = true) : ∃ d < 10, c = Text.hexDigit d := by
  have hbounds : 48 ≤ c.toNat ∧ c.toNat ≤ 57 := Char.isDigit_iff_toNat.1 h
  refine ⟨c.toNat - 48, by omega, ?_⟩
  rw [Text.hexDigit, if_pos (by omega), Nat.add_sub_cancel' hbounds.1, Char.ofNat_toNat]

theorem isUpper_of_isDigit {c : Char} (h : c.isDigit = true) : c.isUpper = false := by
  obtain ⟨d, hd, rfl⟩ := exists_hexDigit h
  revert d
  decide

theorem isLower_of_isDigit {c : Char} (h : c.isDigit = true) : c.isLower = false := by
  obtain ⟨d, hd, rfl⟩ := exists_hexDigit h
  revert d
  decide

theorem toLower_of_isDigit {c : Char} (h : c.isDigit = true) : c.toLower = c := by
  obtain ⟨d, hd, rfl⟩ := exists_hexDigit h
  revert d
  decide

/-- Digits are spelled as they are. -/
theorem snakeChars_digits {chars : List Char} (h : ∀ c ∈ chars, c.isDigit = true)
    (previous : Option Char) : snakeChars previous chars = chars := by
  induction chars generalizing previous with
  | nil => rfl
  | cons c rest ih =>
    have hc := h c List.mem_cons_self
    have halpha : c.isAlphanum = true := by simp [Char.isAlphanum, hc]
    rw [snakeChars, if_pos halpha, isUpper_of_isDigit hc, Bool.false_and, if_neg (by decide),
      toLower_of_isDigit hc, ih fun c hmem => h c (List.mem_cons_of_mem _ hmem)]

/-- Digits at the end do not change how the characters before them are spelled. -/
theorem snakeChars_append {chars suffix : List Char} (h : ∀ c ∈ suffix, c.isDigit = true)
    (previous : Option Char) :
    snakeChars previous (chars ++ suffix) = snakeChars previous chars ++ suffix := by
  induction chars generalizing previous with
  | nil => exact snakeChars_digits h previous
  | cons c rest ih =>
    have hnext : ∀ p : Char, beginsWord p (rest ++ suffix).head? = beginsWord p rest.head? := by
      intro p
      cases rest with
      | cons => rfl
      | nil =>
        cases suffix with
        | nil => rfl
        | cons d _ => simp [beginsWord, isLower_of_isDigit (h d List.mem_cons_self)]
    simp only [List.cons_append, snakeChars, hnext, ih]
    split_ifs <;> rfl

theorem trimEndUnderscores_append {chars suffix : List Char}
    (h : ∀ c ∈ suffix, c.isDigit = true) (hne : suffix ≠ []) :
    trimEndUnderscores (chars ++ suffix) = chars ++ suffix := by
  obtain ⟨c, rest, hc⟩ := List.exists_cons_of_ne_nil (List.reverse_ne_nil_iff.2 hne)
  have hlast : c ≠ '_' := by
    have hmem : c ∈ suffix := List.mem_reverse.1 (hc ▸ List.mem_cons_self)
    rintro rfl
    exact absurd (h _ hmem) (by decide)
  rw [trimEndUnderscores, List.reverse_append, hc, List.cons_append,
    List.dropWhile_cons_of_neg (by simpa using hlast), ← List.cons_append, ← hc,
    List.reverse_append, List.reverse_reverse, List.reverse_reverse]

theorem dropRawMarks_append (chars : List Char) {suffix : List Char}
    (h : ∀ c ∈ suffix, c.isDigit = true) :
    dropRawMarks (chars ++ suffix) = dropRawMarks chars ++ suffix := by
  have hmark : ∀ rest, suffix ≠ '#' :: rest := by
    rintro rest rfl
    exact absurd (h '#' List.mem_cons_self) (by decide)
  have hletter : ∀ rest, suffix ≠ 'r' :: rest := by
    rintro rest rfl
    exact absurd (h 'r' List.mem_cons_self) (by decide)
  induction chars using dropRawMarks.induct with
  | case1 rest ih =>
    simp only [List.cons_append, dropRawMarks]
    exact ih
  | case2 chars hchars =>
    rw [dropRawMarks.eq_2 chars hchars, dropRawMarks.eq_2]
    intro rest heq
    match chars with
    | [] => exact hletter _ heq
    | [c] =>
      rw [List.singleton_append, List.cons.injEq] at heq
      exact hmark _ heq.2
    | c :: d :: more =>
      simp only [List.cons_append, List.cons.injEq] at heq
      exact hchars more (by rw [heq.1, heq.2.1])

/-- The file of a numbered name: the digits stand at the end of what the name alone is spelled. -/
theorem exists_fileStem_append (base : String) : ∃ stem : List Char, ∀ n : Nat,
    fileStem (base ++ Text.natural n) = String.ofList (stem ++ digits n) := by
  refine ⟨guardDigit (snakeChars none (dropRawMarks base.toList) ++ ['0']) |>.dropLast, ?_⟩
  intro n
  have hdigits : ∀ c ∈ digits n, c.isDigit = true := fun _ => Text.isDigit_of_mem_digits
  obtain ⟨c, rest, hc, hd⟩ := Text.exists_digits_eq_cons n
  rw [fileStem, String.toList_append, Text.natural, String.toList_ofList,
    dropRawMarks_append _ hdigits, snakeCase, String.toList_ofList, snakeChars_append hdigits,
    trimEndUnderscores_append hdigits (Text.digits_ne_nil n)]
  congr 1
  -- whether an underscore goes first depends on the name alone, even if nothing of it is left
  cases snakeChars none (dropRawMarks base.toList) with
  | nil => simp [guardDigit, hc, hd]
  | cons d more =>
    by_cases hdigit : d.isDigit = true
    · simp [guardDigit, hdigit, List.dropLast_cons_of_ne_nil]
    · simp [guardDigit, hdigit, List.dropLast_cons_of_ne_nil]

/-- Names with different numbers behind them are placed in different files. -/
theorem fileStem_numbered_injective {base : String} {j k : Nat}
    (h : fileStem (base ++ Text.natural j) = fileStem (base ++ Text.natural k)) : j = k := by
  obtain ⟨stem, hstem⟩ := exists_fileStem_append base
  rw [hstem, hstem, String.ofList_inj, List.append_right_inj] at h
  have := Text.ofDigits?_digits j
  rw [h, Text.ofDigits?_digits k] at this
  exact (Option.some.inj this).symm

/-- Among one more number than there are files, there is one whose file is free. -/
theorem exists_free_number (taken : List (Area × String)) (area : Area) (base : String) :
    ∃ k < taken.length + 1, (area, fileStem (base ++ Text.natural (k + 2))) ∉ taken := by
  by_contra! hall
  let stems := (List.range (taken.length + 1)).map fun k =>
    (area, fileStem (base ++ Text.natural (k + 2)))
  have hnodup : stems.Nodup := by
    refine List.Nodup.map (fun j k h => ?_) List.nodup_range
    have := fileStem_numbered_injective (Prod.mk.inj h).2
    omega
  have hsubset : stems ⊆ taken := by
    intro stem hmem
    obtain ⟨k, hk, rfl⟩ := List.mem_map.1 hmem
    exact hall k (List.mem_range.1 hk)
  have hlength := (hnodup.subperm hsubset).length_le
  simp only [stems, List.length_map, List.length_range] at hlength
  omega

/-- The name that is chosen has a file of its own. -/
theorem fileStem_freeName_notMem (taken : List (Area × String)) (area : Area) (base : String) :
    (area, fileStem (freeName taken area base)) ∉ taken := by
  obtain ⟨k, hk, hfree⟩ := exists_free_number taken area base
  have hmem : base ++ Text.natural (k + 2) ∈ candidates base (taken.length + 1) :=
    List.mem_cons_of_mem _ (List.mem_map.2 ⟨k, List.mem_range.2 hk, rfl⟩)
  have hsome : ((candidates base (taken.length + 1)).find? fun name =>
      (area, fileStem name) ∉ taken).isSome :=
    List.find?_isSome.2 ⟨_, hmem, by simpa using hfree⟩
  obtain ⟨name, hname⟩ := Option.isSome_iff_exists.1 hsome
  rw [freeName, hname]
  simpa using List.find?_some hname

/-- An identifier is that of a name in a module, as it stands or with a number from two on. -/
def Identifier.IsNumbered (area : Area) (base : String) (ident : Identifier) : Prop :=
  ident.area = area ∧ (ident.name = base ∨ ∃ k ≥ 2, ident.name = base ++ Text.natural k)

theorem isNumbered_freeName (taken : List (Area × String)) (area : Area) (base : String) :
    Identifier.IsNumbered area base ⟨area, freeName taken area base⟩ := by
  refine ⟨rfl, ?_⟩
  unfold freeName
  cases hfound : (candidates base (taken.length + 1)).find? _ with
  | none => exact .inl rfl
  | some name =>
    have hmem := List.mem_of_find?_eq_some hfound
    rcases List.mem_cons.1 hmem with rfl | hmem
    · exact .inl rfl
    · obtain ⟨k, -, rfl⟩ := List.mem_map.1 hmem
      exact .inr ⟨k + 2, by omega, rfl⟩

end ServiceBindings.Naming
