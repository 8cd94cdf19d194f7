import Mathlib.Data.Bool.AllAny
import Mathlib.Tactic.Common
import ServiceBindings.Proofs.Steps
import ServiceBindings.Xml.Escape
import ServiceBindings.Xml.Name

/-! Texts are read back from their escaped forms, which hold no markup. -/
namespace ServiceBindings.Xml

theorem escapeChar_of_notMem {c : Char} (h : c ∉ ['&', '<', '>', '"', '\'', '\r']) :
    escapeChar c = [c] := by
  simp only [List.mem_cons, List.not_mem_nil, or_false, not_or] at h
  obtain ⟨hamp, hlt, hgt, hquot, hapos, hreturn⟩ := h
  rw [escapeChar, if_neg hamp, if_neg hlt, if_neg hgt, if_neg hquot, if_neg hapos,
    if_neg hreturn]

/-- A character is written as a reference that stands for it, or as itself. -/
theorem escapeChar_cases (c : Char) :
    (∃ entity, escapeChar c = '&' :: (entity ++ [';']) ∧ ';' ∉ entity ∧
      entityChar? entity = some c ∧
      ∀ x ∈ entity, x ∉ ['<', '>', '"', '\'', '\r'] ∧ isChar x = true) ∨
    (escapeChar c = [c] ∧ c ∉ ['&', '<', '>', '"', '\'', '\r']) := by
  by_cases hamp : c = '&'
  · exact .inl ⟨"amp".toList, by rw [escapeChar, if_pos hamp]; rfl, by decide,
      by rw [hamp]; decide, List.all_iff_forall_prop.1 (by decide)⟩
  by_cases hlt : c = '<'
  · subst hlt
    exact .inl ⟨"lt".toList, by decide, by decide, by decide,
      List.all_iff_forall_prop.1 (by decide)⟩
  by_cases hgt : c = '>'
  · subst hgt
    exact .inl ⟨"gt".toList, by decide, by decide, by decide,
      List.all_iff_forall_prop.1 (by decide)⟩
  by_cases hquot : c = '"'
  · subst hquot
    exact .inl ⟨"quot".toList, by decide, by decide, by decide,
      List.all_iff_forall_prop.1 (by decide)⟩
  by_cases hapos : c = '\''
  · subst hapos
    exact .inl ⟨"apos".toList, by decide, by decide, by decide,
      List.all_iff_forall_prop.1 (by decide)⟩
  by_cases hreturn : c = '\r'
  · subst hreturn
    exact .inl ⟨"#xD".toList, by decide, by decide, by decide,
      List.all_iff_forall_prop.1 (by decide)⟩
  have hplain : c ∉ ['&', '<', '>', '"', '\'', '\r'] := by
    simp [hamp, hlt, hgt, hquot, hapos, hreturn]
  exact .inr ⟨escapeChar_of_notMem hplain, hplain⟩

/-- Inside a reference, characters are kept up to the semicolon. -/
theorem unescapeChars_some {entity : List Char} (before rest : List Char) (h : ';' ∉ entity) :
    unescapeChars (some before) (entity ++ ';' :: rest) =
      match entityChar? (before.reverse ++ entity) with
      | some found => (unescapeChars none rest).map (found :: ·)
      | none => .error (.invalidEntity (String.ofList (before.reverse ++ entity))) := by
  induction entity generalizing before with
  | nil =>
    rw [List.nil_append, List.append_nil]
    cases hchar : entityChar? before.reverse with
    | none => rw [unescapeChars, if_pos rfl, hchar]
    | some found => rw [unescapeChars, if_pos rfl, hchar]
  | cons c entity ih =>
    rw [List.mem_cons, not_or] at h
    rw [List.cons_append, unescapeChars, if_neg (Ne.symm h.1), ih _ h.2, List.reverse_cons,
      List.append_assoc, List.singleton_append]

theorem unescapeChars_escapeChar (c : Char) (rest : List Char) :
    unescapeChars none (escapeChar c ++ rest) = (unescapeChars none rest).map (c :: ·) := by
  rcases escapeChar_cases c with ⟨entity, hescape, hend, hchar, -⟩ | ⟨hescape, hplain⟩
  · rw [hescape, List.cons_append, unescapeChars, if_pos rfl, List.append_assoc,
      List.singleton_append, unescapeChars_some [] rest hend, List.reverse_nil, List.nil_append,
      hchar]
  · have hamp : c ≠ '&' := fun h => hplain (by simp [h])
    rw [hescape, List.singleton_append, unescapeChars, if_neg hamp]

theorem unescapeChars_flatMap (chars : List Char) :
    unescapeChars none (chars.flatMap escapeChar) = .ok chars := by
  induction chars with
  | nil => rfl
  | cons c rest ih =>
    rw [List.flatMap_cons, unescapeChars_escapeChar, ih]
    rfl

/-- Every text is read back from its escaped form. -/
theorem unescape_flatMap (chars : List Char) :
    unescape (String.ofList (chars.flatMap escapeChar)) = .ok (String.ofList chars) := by
  rw [unescape, String.toList_ofList, unescapeChars_flatMap]
  rfl

/-- No markup is left in an escaped text. -/
theorem notMem_of_mem_escape {chars : List Char} {x : Char}
    (h : x ∈ chars.flatMap escapeChar) : x ∉ ['<', '>', '"', '\'', '\r'] := by
  obtain ⟨c, -, hx⟩ := List.mem_flatMap.1 h
  rcases escapeChar_cases c with ⟨entity, hescape, -, -, hentity⟩ | ⟨hescape, hplain⟩
  · rw [hescape] at hx
    rcases List.mem_cons.1 hx with rfl | hx
    · decide
    · rcases List.mem_append.1 hx with hx | hx
      · exact (hentity x hx).1
      · obtain rfl := List.mem_singleton.1 hx
        decide
  · rw [hescape] at hx
    obtain rfl := List.mem_singleton.1 hx
    exact fun hmem => hplain (List.mem_cons_of_mem _ hmem)

/-- Escaped texts hold characters that a document may hold, as the texts do. -/
theorem isChar_of_mem_escape {chars : List Char} (hchars : ∀ c ∈ chars, isChar c = true) {x : Char}
    (h : x ∈ chars.flatMap escapeChar) : isChar x = true := by
  obtain ⟨c, hc, hx⟩ := List.mem_flatMap.1 h
  rcases escapeChar_cases c with ⟨entity, hescape, -, -, hentity⟩ | ⟨hescape, -⟩
  · rw [hescape] at hx
    rcases List.mem_cons.1 hx with rfl | hx
    · decide
    · rcases List.mem_append.1 hx with hx | hx
      · exact (hentity x hx).2
      · obtain rfl := List.mem_singleton.1 hx
        decide
  · rw [hescape] at hx
    obtain rfl := List.mem_singleton.1 hx
    exact hchars x hc

theorem flatMap_escapeChar_eq_nil {chars : List Char} :
    chars.flatMap escapeChar = [] ↔ chars = [] := by
  rw [List.flatMap_eq_nil_iff]
  constructor
  · intro h
    cases chars with
    | nil => rfl
    | cons c rest =>
      have hc := h c List.mem_cons_self
      rcases escapeChar_cases c with ⟨entity, hescape, -⟩ | ⟨hescape, -⟩
      · cases hescape.symm.trans hc
      · cases hescape.symm.trans hc
  · rintro rfl c hc
    cases hc

/-- What follows a text whose references are complete is read by itself. -/
theorem unescapeChars_append {state : Option (List Char)} {chars found : List Char}
    (h : unescapeChars state chars = .ok found) (rest : List Char) :
    unescapeChars state (chars ++ rest) = (unescapeChars none rest).map (found ++ ·) := by
  have hcons {chars found : List Char} {c : Char}
      (ih : ∀ {found}, unescapeChars none chars = .ok found →
        unescapeChars none (chars ++ rest) = (unescapeChars none rest).map (found ++ ·))
      (h : (unescapeChars none chars).map (c :: ·) = .ok found) :
      (unescapeChars none (chars ++ rest)).map (c :: ·) =
        (unescapeChars none rest).map (found ++ ·) := by
    obtain ⟨inner, hinner, rfl⟩ := map_eq_ok.1 h
    rw [ih hinner]
    cases unescapeChars none rest <;> rfl
  induction chars generalizing state found with
  | nil =>
    cases state with
    | none =>
      obtain rfl := Except.ok.inj h
      rw [List.nil_append]
      cases unescapeChars none rest <;> rfl
    | some entity => cases h
  | cons c chars ih =>
    rw [List.cons_append]
    cases state with
    | none =>
      rw [unescapeChars] at h ⊢
      split_ifs at h ⊢
      · exact ih h
      · exact hcons ih h
    | some entity =>
      rw [unescapeChars] at h ⊢
      split_ifs at h ⊢
      · cases hchar : entityChar? entity.reverse with
        | none =>
          rw [hchar] at h
          cases h
        | some c =>
          rw [hchar] at h
          exact hcons ih h
      · exact ih h

/-- The same for texts. -/
theorem unescape_append {chars rest : List Char} {found : String}
    (h : unescape (String.ofList chars) = .ok found) :
    unescape (String.ofList (chars ++ rest)) =
      (unescape (String.ofList rest)).map (found ++ ·) := by
  unfold unescape at h ⊢
  rw [String.toList_ofList] at h ⊢
  rw [String.toList_ofList]
  cases hchars : unescapeChars none chars with
  | error e =>
    rw [hchars] at h
    cases h
  | ok inner =>
    rw [hchars] at h
    obtain rfl := Except.ok.inj h
    rw [unescapeChars_append hchars]
    cases unescapeChars none rest with
    | error e => rfl
    | ok others => exact congrArg _ String.ofList_append

/-- A text without ampersands stands for itself. -/
theorem unescape_of_notMem {chars : List Char} (h : '&' ∉ chars) :
    unescape (String.ofList chars) = .ok (String.ofList chars) := by
  have hsame : unescapeChars none chars = .ok chars := by
    induction chars with
    | nil => rfl
    | cons c rest ih =>
      rw [List.mem_cons, not_or] at h
      rw [unescapeChars, if_neg (Ne.symm h.1), ih h.2]
      rfl
  rw [unescape, String.toList_ofList, hsame]
  rfl

end ServiceBindings.Xml
