import ServiceBindings.Proofs.Xml.Simple

/-! The written forms of data without parts hold only characters that a document may hold, except
those of strings. -/
namespace ServiceBindings.Xml
open Plan (Target)

theorem isText_ofList {chars : List Char} :
    IsText (String.ofList chars) ↔ ∀ c ∈ chars, isChar c = true := by
  rw [IsText, String.toList_ofList]

theorem isChar_of_mem_digits {n : Nat} : ∀ c ∈ Text.digits n, isChar c = true :=
  fun _ hc => isChar_of_isDigit (Text.isDigit_of_mem_digits hc)

theorem isChar_of_mem_paddedDigits {width n : Nat} :
    ∀ c ∈ Text.paddedDigits width n, isChar c = true :=
  fun _ hc => isChar_of_isDigit (Text.isDigit_of_mem_paddedDigits hc)

/-- Numerals are made up of digits and a point. -/
theorem isChar_of_mem_numeral {d : Decimal.Numeral} : ∀ c ∈ d.chars, isChar c = true := by
  have hzeros (n : Nat) : ∀ c ∈ List.replicate n '0', isChar c = true := by
    intro c hc
    rw [List.eq_of_mem_replicate hc]
    decide
  unfold Decimal.Numeral.chars
  dsimp only
  split_ifs
  · rw [List.forall_mem_append]
    exact ⟨isChar_of_mem_digits, hzeros _⟩
  · rw [List.forall_mem_append, List.forall_mem_cons]
    exact ⟨fun c hc => isChar_of_mem_digits c (List.mem_of_mem_take hc), by decide,
      fun c hc => isChar_of_mem_digits c (List.mem_of_mem_drop hc)⟩
  · rw [List.forall_mem_append, List.forall_mem_cons, List.forall_mem_cons]
    exact ⟨⟨by decide, by decide, hzeros _⟩, isChar_of_mem_digits⟩

theorem isChar_of_mem_binary {x : Decimal.Binary} : ∀ c ∈ x.chars, isChar c = true := by
  have hmagnitude : ∀ c ∈ if x.coefficient = 0 then ['0'] else x.shortest.chars,
      isChar c = true := by
    split_ifs
    · exact List.forall_mem_singleton.2 (by decide)
    · exact isChar_of_mem_numeral
  unfold Decimal.Binary.chars
  dsimp only
  split
  · exact List.forall_mem_cons.2 ⟨by decide, hmagnitude⟩
  · exact hmagnitude

theorem isText_float (x : Float) : IsText (Decimal.text x) := by
  unfold Decimal.text
  split
  · exact isText_ofList.2 isChar_of_mem_binary
  · split_ifs <;> decide

theorem isText_getD {names : List String} (h : ∀ name ∈ names, IsText name) (position : Nat) :
    IsText (names.getD position "") := by
  rw [List.getD_eq_getElem?_getD]
  cases hname : names[position]? with
  | none => decide
  | some name => exact h name (List.mem_of_getElem? hname)

/-- The written forms of instants are made up of digits, letters and a few marks. -/
theorem isText_format? {t : Instant} {form : Time.Format} {s : String}
    (h : Time.format? t form = some s) : IsText s := by
  obtain ⟨chars, hchars, rfl⟩ := Option.map_eq_some_iff.1 h
  cases form with
  | dateTime => exact isText_dateTime h
  | epochSeconds =>
    obtain rfl := Option.some.inj hchars
    have hsign : ∀ c ∈ if t.seconds < 0 then ['-'] else [], isChar c = true := by
      split_ifs
      · exact List.forall_mem_singleton.2 (by decide)
      · simp
    have hfraction : ∀ c ∈ Time.fractionChars t.nanos, isChar c = true := fun c hc =>
      (Time.isDigit_of_mem_fractionChars hc).elim isChar_of_isDigit fun hdot => hdot ▸ by decide
    rw [isText_ofList, List.forall_mem_append, List.forall_mem_append]
    exact ⟨⟨hsign, isChar_of_mem_digits⟩, hfraction⟩
  | httpDate =>
    obtain ⟨date, -, hdate⟩ := Option.bind_eq_some_iff.1 hchars
    obtain rfl := Option.some.inj hdate
    have hweekday : IsText (Time.weekdayName (t.seconds / 86400)) := isText_getD (by decide) _
    have hmonth : IsText (Time.monthName date.month) := isText_getD (by decide) _
    have hyear : ∀ c ∈ Time.yearChars date.year, isChar c = true := by
      unfold Time.yearChars
      split_ifs
      · exact List.forall_mem_cons.2 ⟨by decide, isChar_of_mem_paddedDigits⟩
      · exact isChar_of_mem_paddedDigits
    have hclock : ∀ c ∈ Time.clockChars (t.seconds % 86400).toNat, isChar c = true := by
      unfold Time.clockChars
      simp only [List.forall_mem_append, List.forall_mem_cons]
      exact ⟨isChar_of_mem_paddedDigits, by decide, isChar_of_mem_paddedDigits, by decide,
        isChar_of_mem_paddedDigits⟩
    have hzone : IsText " GMT" := by decide
    simp only [isText_ofList, List.forall_mem_append, List.forall_mem_cons]
    exact ⟨hweekday, by decide, by decide, isChar_of_mem_paddedDigits, by decide, hmonth,
      by decide, hyear, by decide, hclock, hzone⟩

/-- Only strings can bring characters into a document that it may not hold. -/
theorem eq_string_of_scalarText {form : Time.Format} {path : String} {target : Target}
    {value : Value} {text : String} (h : Request.scalarText form path target value = .ok text) :
    IsText text ∨ value = .string text := by
  unfold Request.scalarText at h
  split at h
  case h_9 => cases h
  case h_7 =>
    unfold Request.instantText at h
    split at h
    · next hs =>
      obtain rfl := Except.ok.inj h
      exact .inl (isText_format? hs)
    · cases h
  all_goals obtain rfl := Except.ok.inj h
  case h_1 | h_2 => exact .inr rfl
  case h_3 b => exact .inl (by cases b <;> decide)
  case h_4 | h_6 => exact .inl (isText_integer _)
  case h_5 => exact .inl (isText_float _)
  case h_8 => exact .inl (isText_encode _)

end ServiceBindings.Xml
