import Mathlib.Data.List.GetD
import ServiceBindings.Proofs.Text.Expect
import ServiceBindings.Proofs.Time.DateTime

/-! Instants of the years 0 to 9999 in whole seconds are read back from the dates that headers hold,
whether or not this form is asked for. -/
namespace ServiceBindings.Time
open Text (paddedDigits)

/-- Among distinct names of one length, the one that begins a text is found. -/
theorem name?_getElem {names : List String} (width : Nat)
    (hwidth : ∀ name ∈ names, name.toList.length = width) (hnodup : names.Nodup) {i : Nat}
    (hi : i < names.length) (rest : List Char) :
    name? names (names[i].toList ++ rest) = some (i, rest) := by
  induction names generalizing i with
  | nil => simp at hi
  | cons name names ih =>
    obtain ⟨hlength, hwidth⟩ := List.forall_mem_cons.1 hwidth
    obtain ⟨hnew, hnodup⟩ := List.nodup_cons.1 hnodup
    cases i with
    | zero => rw [name?, List.getElem_cons_zero, Text.expect?_append]
    | succ i =>
      have hi : i < names.length := Nat.lt_of_succ_lt_succ hi
      have hother : Text.expect? name.toList (names[i].toList ++ rest) = none := by
        refine Text.expect?_eq_none_iff.2 fun hbegins => hnew ?_
        have hlength : name.toList.length = names[i].toList.length :=
          hlength.trans (hwidth _ (List.getElem_mem hi)).symm
        have hsame : name.toList = names[i].toList :=
          (List.prefix_of_prefix_length_le hbegins (List.prefix_append _ _)
            (Nat.le_of_eq hlength)).eq_of_length hlength
        exact String.toList_inj.1 hsame ▸ List.getElem_mem hi
      rw [name?, List.getElem_cons_succ, hother]
      dsimp only
      rw [ih hwidth hnodup hi, Option.map_some]

theorem exists_weekdayName (days : Int) :
    ∃ i, ∃ h : i < weekdayNames.length, weekdayName days = weekdayNames[i] := by
  have h : ((days + 4) % 7).toNat < weekdayNames.length := by
    have hlength : weekdayNames.length = 7 := rfl
    omega
  exact ⟨_, h, by rw [weekdayName, List.getD_eq_getElem _ _ h]⟩

theorem name?_weekdayName (days : Int) (rest : List Char) :
    ∃ i, name? weekdayNames ((weekdayName days).toList ++ rest) = some (i, rest) := by
  obtain ⟨i, hi, hname⟩ := exists_weekdayName days
  exact ⟨i, by rw [hname, name?_getElem 3 (by decide) (by decide) hi]⟩

theorem name?_monthName {month : Nat} (h : 1 ≤ month ∧ month ≤ 12) (rest : List Char) :
    name? monthNames ((monthName month).toList ++ rest) = some (month - 1, rest) := by
  have hi : month - 1 < monthNames.length := by
    have hlength : monthNames.length = 12 := rfl
    omega
  rw [monthName, List.getD_eq_getElem _ _ hi,
    name?_getElem 3 (by decide) (by decide) hi]

/-- A year without a sign is read as its digits are. -/
theorem signedYear?_paddedDigits {year : Nat} (h : year < 10 ^ 4) (rest : List Char) :
    signedYear? (paddedDigits 4 year ++ rest) = some ((year : Int), rest) := by
  have hnumber := number?_paddedDigits (show 0 < 4 by omega) h rest
  obtain ⟨c, chars, hchars⟩ := List.exists_cons_of_ne_nil (Text.paddedDigits_ne_nil 4 year)
  have hmem : c ∈ paddedDigits 4 year := hchars ▸ List.mem_cons_self
  have hdigit : c.isDigit = true := Text.isDigit_of_mem_paddedDigits hmem
  rw [hchars, List.cons_append] at hnumber ⊢
  unfold signedYear?
  split
  · next heq => rw [(List.cons.inj heq).1] at hdigit; exact absurd hdigit (by decide)
  · next heq => rw [(List.cons.inj heq).1] at hdigit; exact absurd hdigit (by decide)
  · rw [hnumber, Option.map_some]

/-- The characters of the date of an instant in whole seconds are read back as the instant. -/
theorem httpDate?_chars {t : Instant} (h : HasPlainYear t) (hwhole : t.nanos = 0) :
    ∃ chars, chars? t .httpDate = some chars ∧ httpDate? chars = some t := by
  obtain ⟨date, hdate, ⟨hmonth1, hmonth2, hday1, hday2⟩, hday3, hdays, hnatAbs, hsmall, hyear⟩ :=
    exists_date h
  have hsecond : (t.seconds % 86400).toNat < 86400 := by omega
  obtain ⟨weekday, hweekday⟩ := name?_weekdayName (t.seconds / 86400) (',' :: ' ' ::
    (paddedDigits 2 date.day ++ ' ' :: ((monthName date.month).toList ++ ' ' ::
      (yearChars date.year ++ ' ' :: (clockChars (t.seconds % 86400).toNat ++ " GMT".toList)))))
  refine ⟨_, by rw [chars?, hdate]; rfl, ?_⟩
  have hcomma (rest : List Char) : Text.expect? ", ".toList (',' :: ' ' :: rest) = some rest :=
    Text.expect?_append _ _
  have hend : Text.expect? " GMT".toList " GMT".toList = some [] := by decide
  rw [httpDate?, hweekday, hyear]
  simp only [hcomma, number?_paddedDigits (show 0 < 2 by omega) (show date.day < 10 ^ 2 by omega),
    expect?_cons, name?_monthName ⟨hmonth1, hmonth2⟩, signedYear?_paddedDigits hsmall,
    clock?_clockChars hsecond, hend, Option.bind_eq_bind, Option.bind_some]
  have hdate' : (⟨date.year.natAbs, date.month - 1 + 1, date.day⟩ : Date) = date := by
    rw [hnatAbs, Nat.sub_add_cancel hmonth1]
  rw [hdate', if_pos ⟨trivial, ⟨hmonth1, hmonth2, hday1, hday2⟩, by omega, by omega, by omega⟩,
    hdays, ← hwhole, ofParts_days_clock]

theorem isAlphanum_of_mem_name {names : List String}
    (h : ∀ name ∈ names, name.toList.all Char.isAlphanum = true) {i : Nat} {c : Char}
    (hc : c ∈ (names.getD i "").toList) : c.isAlphanum = true := by
  rw [List.getD_eq_getElem?_getD] at hc
  cases hname : names[i]? with
  | none => simp [hname] at hc
  | some name =>
    exact List.all_eq_true.1 (h name (List.mem_of_getElem? hname)) c (by simpa [hname] using hc)

theorem isAlphanum_of_isDigit {c : Char} (h : c.isDigit = true) : c.isAlphanum = true := by
  rw [Char.isAlphanum, h, Bool.or_true]

/-- A date begins with the name of a weekday and a comma, and what follows up to the zone is made up
of letters, digits and a few marks. -/
theorem exists_httpDate {t : Instant} {chars : List Char} (h : chars? t .httpDate = some chars) :
    ∃ day ∈ weekdayNames, ∃ middle, chars = day.toList ++ ',' :: ' ' :: (middle ++ " GMT".toList) ∧
      ∀ c ∈ middle, c.isAlphanum = true ∨ c ∈ [' ', ':', '-'] := by
  simp only [chars?, Option.bind_eq_bind, Option.bind_eq_some_iff, Option.some.injEq] at h
  obtain ⟨date, -, rfl⟩ := h
  obtain ⟨i, hi, hday⟩ := exists_weekdayName (t.seconds / 86400)
  refine ⟨_, hday ▸ List.getElem_mem hi, paddedDigits 2 date.day ++ ' ' ::
    ((monthName date.month).toList ++ ' ' :: (yearChars date.year ++ ' ' ::
      clockChars (t.seconds % 86400).toNat)), by simp only [List.append_assoc, List.cons_append],
    fun c hc => ?_⟩
  have hdigits {width n : Nat} (hc : c ∈ paddedDigits width n) : c.isAlphanum = true :=
    isAlphanum_of_isDigit (Text.isDigit_of_mem_paddedDigits hc)
  simp only [clockChars, List.mem_append, List.mem_cons, List.not_mem_nil, or_false] at hc ⊢
  obtain hc | hc | hc | hc | hc | hc | hc | hc | hc | hc | hc := hc
  · exact .inl (hdigits hc)
  · exact .inr (.inl hc)
  · exact .inl (isAlphanum_of_mem_name (by decide) hc)
  · exact .inr (.inl hc)
  · unfold yearChars at hc
    split_ifs at hc
    · rcases List.mem_cons.1 hc with rfl | hc
      · exact .inr (.inr (.inr rfl))
      · exact .inl (hdigits hc)
    · exact .inl (hdigits hc)
  all_goals first | exact .inl (hdigits hc) | simp [hc]

theorem exists_cons_of_mem_weekdayNames {day : String} (h : day ∈ weekdayNames) :
    ∃ c rest, day.toList = c :: rest ∧ c.isDigit = false ∧ Text.isBlank c = false := by
  have hletter : ∀ day ∈ weekdayNames,
      day.toList.head?.any (fun c => !c.isDigit && !Text.isBlank c) = true := by decide
  obtain ⟨c, hhead, hc⟩ := (Option.any_eq_true _ _).1 (hletter day h)
  obtain ⟨rest, hrest⟩ := List.head?_eq_some_iff.1 hhead
  exact ⟨c, rest, hrest, by simpa using hc⟩

/-- Dates begin and end with letters, so nothing of them is trimmed. -/
theorem trimmed_httpDate {t : Instant} {chars : List Char} (h : chars? t .httpDate = some chars) :
    Text.trimmed chars = chars := by
  obtain ⟨day, hday, middle, rfl, -⟩ := exists_httpDate h
  obtain ⟨c, rest, hrest, -, hblank⟩ := exists_cons_of_mem_weekdayNames hday
  have hend : " GMT".toList.getLast? = some 'T' := by decide
  refine Text.trimmed_of_ends (by simp [hrest, hblank]) ?_
  rw [← List.cons_append, ← List.cons_append, ← List.append_assoc, List.getLast?_append, hend,
    Option.some_or]
  decide

theorem number?_eq_none {c : Char} (h : c.isDigit = false) (width : Nat) (rest : List Char) :
    number? (width + 1) (c :: rest) = none := by
  simp [number?, h]

/-- A date of a header is no date and time, which begins with a digit. -/
theorem dateTime?_httpDate {t : Instant} {chars : List Char} (h : chars? t .httpDate = some chars) :
    dateTime? chars = none := by
  obtain ⟨day, hday, middle, rfl, -⟩ := exists_httpDate h
  obtain ⟨c, rest, hrest, hdigit, -⟩ := exists_cons_of_mem_weekdayNames hday
  rw [dateTime?, hrest, List.cons_append, number?_eq_none hdigit]
  rfl

/-- The name of a weekday alone is no instant. -/
theorem readAny?_of_mem_weekdayNames {day : String} (h : day ∈ weekdayNames) :
    readAny? day = none := by
  revert day
  decide +kernel

/-- An instant of a plain year in whole seconds has a written date, which is read back as the
instant in its own form and in any form. -/
theorem exists_format?_httpDate {t : Instant} (h : HasPlainYear t) (hwhole : t.nanos = 0) :
    ∃ s, format? t .httpDate = some s ∧ read? .httpDate s = some t ∧ readAny? s = some t := by
  obtain ⟨chars, hchars, hread⟩ := httpDate?_chars h hwhole
  have htrimmed := trimmed_httpDate hchars
  refine ⟨String.ofList chars, by rw [format?, hchars]; rfl, ?_, ?_⟩
  · simp only [read?, String.toList_ofList, htrimmed, hread]
  · simp only [readAny?, read?, String.toList_ofList, htrimmed, dateTime?_httpDate hchars, hread,
      Option.none_or, Option.some_or]

end ServiceBindings.Time
