import ServiceBindings.Proofs.Time.EpochSeconds
import ServiceBindings.Proofs.Time.HttpDate

/-! No text that is written in one form is read in a form that is tried before it, so the form of a
written instant need not be known. -/
namespace ServiceBindings

def Instant.wholeSecond (t : Instant) : Instant :=
  ⟨t.seconds, 0, by decide⟩

namespace Time

/-- A date has a dash behind its year. -/
theorem dateTime?_of_notMem {chars : List Char} (h : '-' ∉ chars) : dateTime? chars = none := by
  unfold dateTime?
  cases hyear : number? 4 chars with
  | none => rfl
  | some found =>
    obtain ⟨year, rest⟩ := found
    have hrest : rest <:+ chars := by
      unfold number? at hyear
      dsimp only at hyear
      split_ifs at hyear
      obtain ⟨n, -, hn⟩ := Option.map_eq_some_iff.1 hyear
      exact (Prod.mk.inj hn).2 ▸ List.drop_suffix 4 chars
    have hdash : Text.expect? ['-'] rest = none :=
      Text.expect?_eq_none_iff.2 fun hbegins =>
        h (hrest.subset (hbegins.subset List.mem_cons_self))
    simp only [Option.bind_eq_bind, Option.bind_some, hdash, Option.bind_none]

theorem name?_eq_none {names : List String} {chars : List Char}
    (h : ∀ name ∈ names, ¬name.toList <+: chars) : name? names chars = none := by
  induction names with
  | nil => rfl
  | cons name names ih =>
    obtain ⟨hname, hnames⟩ := List.forall_mem_cons.1 h
    rw [name?, Text.expect?_eq_none_iff.2 hname]
    dsimp only
    rw [ih hnames, Option.map_none]

/-- A date of a header begins with a letter. -/
theorem httpDate?_eq_none {c : Char} (h : c.isDigit = true ∨ c = '-') (rest : List Char) :
    httpDate? (c :: rest) = none := by
  have hletter : ∀ day ∈ weekdayNames,
      day.toList.head?.any (fun d => !d.isDigit && d ≠ '-') = true := by decide
  have hname : name? weekdayNames (c :: rest) = none := by
    refine name?_eq_none fun day hday hbegins => ?_
    obtain ⟨d, hhead, hd⟩ := (Option.any_eq_true _ _).1 (hletter day hday)
    obtain ⟨others, hothers⟩ := List.head?_eq_some_iff.1 hhead
    rw [hothers, List.cons_prefix_cons] at hbegins
    obtain ⟨hdigit, hdash⟩ : d.isDigit = false ∧ d ≠ '-' := by simpa using hd
    rw [hbegins.1] at hdigit hdash
    rcases h with h | h
    · exact Bool.false_ne_true (hdigit.symm.trans h)
    · exact hdash h
  rw [httpDate?, hname]
  rfl

theorem mem_epochSeconds {t : Instant} {chars : List Char}
    (h : chars? t .epochSeconds = some chars) {c : Char} (hc : c ∈ chars) :
    c.isDigit = true ∨ c = '.' ∨ c = '-' := by
  obtain rfl := Option.some.inj h
  rw [List.append_assoc, List.mem_append, List.mem_append] at hc
  rcases hc with hc | hc | hc
  · split_ifs at hc
    · exact .inr (.inr (List.mem_singleton.1 hc))
    · exact absurd hc List.not_mem_nil
  · exact .inl (Text.isDigit_of_mem_digits hc)
  · exact (isDigit_of_mem_fractionChars hc).imp_right .inl

theorem trimmed_epochSeconds {t : Instant} {chars : List Char}
    (h : chars? t .epochSeconds = some chars) : Text.trimmed chars = chars := by
  refine Text.trimmed_of_forall fun c hc => ?_
  rcases mem_epochSeconds h hc with hc | rfl | rfl
  · exact Text.isBlank_of_isDigit hc
  · decide
  · decide

/-- Epoch seconds hold no dash but that of a sign, and no letter. -/
theorem forms_before_epochSeconds {t : Instant} {chars : List Char}
    (h : chars? t .epochSeconds = some chars) :
    dateTime? chars = none ∧ httpDate? chars = none := by
  obtain ⟨c, rest, hc, hrest, hchars⟩ := epochSeconds_chars t
  obtain rfl := Option.some.inj (hchars.symm.trans h)
  split_ifs
  · refine ⟨?_, httpDate?_eq_none (.inr rfl) _⟩
    rw [dateTime?, number?_eq_none (by decide)]
    rfl
  · refine ⟨dateTime?_of_notMem ?_, httpDate?_eq_none (.inl hc) _⟩
    rw [← hrest, List.mem_append, not_or]
    exact ⟨fun hmem => absurd (Text.isDigit_of_mem_digits hmem) (by decide),
      fun hmem => absurd (isDigit_of_mem_fractionChars hmem) (by decide)⟩

/-- A date and time of a plain year begins with digits and a dash, as no other form does. -/
theorem forms_after_dateTime {t : Instant} (h : HasPlainYear t) {chars : List Char}
    (hchars : chars? t .dateTime = some chars) :
    httpDate? chars = none ∧ epochSeconds? chars = none := by
  simp only [chars?, Option.bind_eq_bind, Option.bind_eq_some_iff, Option.some.injEq] at hchars
  obtain ⟨date, hdate, rfl⟩ := hchars
  have hyear : 0 ≤ date.year := by
    unfold date? at hdate
    dsimp only at hdate
    split_ifs at hdate
    exact Option.some.inj hdate ▸ h.1
  rw [yearChars, if_neg (Int.not_lt.2 hyear)]
  generalize hdigits : Text.paddedDigits 4 date.year.natAbs = digits
  have hall : ∀ c ∈ digits, c.isDigit = true := fun c hc =>
    Text.isDigit_of_mem_paddedDigits (hdigits ▸ hc)
  obtain ⟨c, others, rfl⟩ :=
    List.exists_cons_of_ne_nil (hdigits ▸ Text.paddedDigits_ne_nil 4 date.year.natAbs)
  have hc := hall c List.mem_cons_self
  refine ⟨httpDate?_eq_none (.inl hc) _, ?_⟩
  rw [epochSeconds?, List.cons_append, Decimal.float?_of_isDigit hc, ← List.cons_append,
    Decimal.unsigned?, Decimal.spanDigits_append hall rfl]
  simp [Decimal.exponent?]

/-- A written date and time is read as its instant whatever form is tried first. -/
theorem exists_format?_dateTime_of_any {t : Instant} (h : HasPlainYear t) :
    ∃ s, format? t .dateTime = some s ∧ ∀ format : Option Format,
      (format.bind fun form => read? form s).or (readAny? s) = some t := by
  obtain ⟨s, hs, hread⟩ := exists_format?_dateTime h
  obtain ⟨chars, hchars, rfl⟩ := Option.map_eq_some_iff.1 hs
  obtain ⟨hhttpDate, hepochSeconds⟩ := forms_after_dateTime h hchars
  have htrimmed := trimmed_dateTime hchars
  have hany : readAny? (String.ofList chars) = some t := by
    rw [readAny?, hread, Option.some_or, Option.some_or]
  refine ⟨String.ofList chars, hs, fun format => ?_⟩
  rw [hany]
  cases format with
  | none => rfl
  | some form =>
    cases form with
    | dateTime => rw [Option.bind_some, hread, Option.some_or]
    | httpDate => simp [read?, htrimmed, hhttpDate]
    | epochSeconds => simp [read?, htrimmed, hepochSeconds]

/-- The text of epoch seconds is read as the same instant whether or not its form is known. -/
theorem exists_format?_epochSeconds {t : Instant} (h : t.seconds.natAbs < 2 ^ 64) :
    ∃ s u, format? t .epochSeconds = some s ∧ read? .epochSeconds s = some u ∧
      readAny? s = some u := by
  obtain ⟨c, rest, -, -, hchars⟩ := epochSeconds_chars t
  generalize (if t.seconds < 0 then '-' :: c :: rest else c :: rest) = chars at hchars
  obtain ⟨u, hu⟩ := exists_epochSeconds? h hchars
  obtain ⟨hdateTime, hhttpDate⟩ := forms_before_epochSeconds hchars
  have htrimmed := trimmed_epochSeconds hchars
  refine ⟨String.ofList chars, u, by rw [format?, hchars]; rfl, ?_, ?_⟩
  · simp only [read?, String.toList_ofList, htrimmed, hu]
  · simp only [readAny?, read?, String.toList_ofList, htrimmed, hdateTime, hhttpDate, hu,
      Option.none_or]

/-- An instant of a plain year is written in every form. Its text is read as one instant, whether or
not the form is known, and this is the instant itself for a date and time and its whole second for
the date of a header. -/
theorem formatted_read_in_any_form {t : Instant} (h : HasPlainYear t) (form : Format) :
    ∃ s u, format? t form = some s ∧ read? form s = some u ∧ readAny? s = some u ∧
      (form = .dateTime → u = t) ∧
      (form = .httpDate → u = t.wholeSecond ∧ (t.nanos = 0 → u = t)) := by
  cases form with
  | dateTime =>
    obtain ⟨s, hs, hread⟩ := exists_format?_dateTime h
    refine ⟨s, t, hs, hread, ?_, fun _ => rfl, fun hform => absurd hform (by decide)⟩
    rw [readAny?, hread, Option.some_or, Option.some_or]
  | httpDate =>
    obtain ⟨s, hs, hread, hany⟩ := exists_format?_httpDate (t := t.wholeSecond) h rfl
    refine ⟨s, t.wholeSecond, hs, hread, hany, fun hform => absurd hform (by decide),
      fun _ => ⟨rfl, fun hwhole => ?_⟩⟩
    cases t
    cases hwhole
    rfl
  | epochSeconds =>
    have hbounds := hasPlainYear_iff.1 h
    rw [show (⟨0, 1, 1⟩ : Date).toDays = -719528 by decide,
      show (⟨10000, 1, 1⟩ : Date).toDays = 2932897 by decide] at hbounds
    obtain ⟨s, u, hs, hread, hany⟩ := exists_format?_epochSeconds (t := t) (by omega)
    exact ⟨s, u, hs, hread, hany, fun hform => absurd hform (by decide),
      fun hform => absurd hform (by decide)⟩

theorem formatted_read_before_1970 :
    HasPlainYear ⟨-1, 500000000, by decide⟩ ∧
      format? ⟨-1, 500000000, by decide⟩ .httpDate = some "Wed, 31 Dec 1969 23:59:59 GMT" ∧
      readAny? "Wed, 31 Dec 1969 23:59:59 GMT" = some ⟨-1, 0, by decide⟩ := by
  have hplain : HasPlainYear ⟨-1, 500000000, by decide⟩ := by
    rw [HasPlainYear]
    decide
  have hs : format? ⟨-1, 500000000, by decide⟩ .httpDate = some "Wed, 31 Dec 1969 23:59:59 GMT" :=
    by decide +kernel
  obtain ⟨s, u, hformat, -, hany, -, hwhole⟩ := formatted_read_in_any_form hplain .httpDate
  obtain rfl := Option.some.inj (hs.symm.trans hformat)
  exact ⟨hplain, hs, hany.trans (congrArg some (hwhole rfl).1)⟩

end Time
end ServiceBindings
