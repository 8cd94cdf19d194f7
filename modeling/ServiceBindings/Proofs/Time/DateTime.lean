import Mathlib.Data.Bool.AllAny
import Mathlib.Tactic.Common
import ServiceBindings.Proofs.Text.Blank
import ServiceBindings.Proofs.Text.Digits
import ServiceBindings.Proofs.Time.Calendar
import ServiceBindings.Time.Reading

/-! Instants of the years 0 to 9999 are read back from their date and time, to the nanosecond. -/
namespace ServiceBindings.Time
open Text (paddedDigits)

/-- An instant of one of the years that four digits write. -/
def HasPlainYear (t : Instant) : Prop :=
  0 ≤ (Date.ofDays (t.seconds / 86400)).year ∧ (Date.ofDays (t.seconds / 86400)).year ≤ 9999

/-- The years from 0 to 9999 in days. -/
theorem hasPlainYear_iff {t : Instant} :
    HasPlainYear t ↔ (⟨0, 1, 1⟩ : Date).toDays ≤ t.seconds / 86400 ∧
      t.seconds / 86400 < (⟨10000, 1, 1⟩ : Date).toDays := by
  have hlate := le_year_ofDays_iff 10000 (t.seconds / 86400)
  rw [HasPlainYear, le_year_ofDays_iff]
  omega

theorem number?_paddedDigits {width n : Nat} (hw : 0 < width) (hn : n < 10 ^ width)
    (rest : List Char) : number? width (paddedDigits width n ++ rest) = some (n, rest) := by
  have hlen := Text.length_paddedDigits hw hn
  have htake : (paddedDigits width n ++ rest).take width = paddedDigits width n :=
    List.take_left' hlen
  have hdrop : (paddedDigits width n ++ rest).drop width = rest := List.drop_left' hlen
  have hall : (paddedDigits width n).all Char.isDigit = true :=
    List.all_eq_true.2 fun _ h => Text.isDigit_of_mem_paddedDigits h
  simp [number?, htake, hdrop, hlen, hall, Text.ofDigits?_paddedDigits]

theorem expect?_cons (c : Char) (rest : List Char) : Text.expect? [c] (c :: rest) = some rest := by
  simp [Text.expect?]

theorem clock?_clockChars {second : Nat} (h : second < 86400) (rest : List Char) :
    clock? (clockChars second ++ rest) =
      some ((second / 3600, second / 60 % 60, second % 60), rest) := by
  simp only [clock?, clockChars, List.append_assoc, List.cons_append]
  simp only [number?_paddedDigits (show 0 < 2 by omega) (show second / 3600 < 10 ^ 2 by omega),
    number?_paddedDigits (show 0 < 2 by omega) (show second / 60 % 60 < 10 ^ 2 by omega),
    number?_paddedDigits (show 0 < 2 by omega) (show second % 60 < 10 ^ 2 by omega),
    expect?_cons, Option.bind_eq_bind, Option.bind_some]

theorem exists_leading_zeros (chars : List Char) :
    ∃ k, chars = List.replicate k '0' ++ chars.dropWhile (· = '0') := by
  induction chars with
  | nil => exact ⟨0, rfl⟩
  | cons c rest ih =>
    obtain ⟨k, hk⟩ := ih
    by_cases hc : c = '0'
    · subst hc
      refine ⟨k + 1, ?_⟩
      rw [List.dropWhile_cons_of_pos (by simp), List.replicate_succ, List.cons_append, ← hk]
    · exact ⟨0, by rw [List.dropWhile_cons_of_neg (by simpa using hc)]; rfl⟩

/-- The digits of a fraction, without the last zeros, which only scale their number. -/
theorem exists_fractionChars {n : Nat} (h : n ≠ 0) (hn : n < 10 ^ 9) :
    ∃ digits k q, fractionChars n = '.' :: digits ∧ (∀ c ∈ digits, c.isDigit = true) ∧
      digits.length + k = 9 ∧ Text.ofDigits? 10 digits = some q ∧ q * 10 ^ k = n := by
  obtain ⟨k, hk⟩ := exists_leading_zeros (paddedDigits 9 n).reverse
  have hsplit : paddedDigits 9 n =
      ((paddedDigits 9 n).reverse.dropWhile (· = '0')).reverse ++ List.replicate k '0' := by
    have := congrArg List.reverse hk
    rwa [List.reverse_reverse, List.reverse_append, List.reverse_replicate] at this
  generalize hd : ((paddedDigits 9 n).reverse.dropWhile (· = '0')).reverse = digits at hsplit
  have hvalue := Text.appendDigits_paddedDigits 9 n
  rw [hsplit, Text.appendDigits_append, Option.bind_eq_some_iff] at hvalue
  obtain ⟨q, hq, hscaled⟩ := hvalue
  rw [Text.appendDigits_zeros, Option.some.injEq] at hscaled
  have hne : digits ≠ [] := by
    rintro rfl
    rw [← Option.some.inj (show some 0 = some q from hq), Nat.zero_mul] at hscaled
    exact h hscaled.symm
  refine ⟨digits, k, q, ?_, ?_, ?_, ?_, hscaled⟩
  · rw [fractionChars, if_neg h, hd]
  · intro c hc
    exact Text.isDigit_of_mem_paddedDigits (hsplit ▸ List.mem_append_left _ hc)
  · have := Text.length_paddedDigits (show 0 < 9 by omega) hn
    rwa [hsplit, List.length_append, List.length_replicate] at this
  · rw [Text.ofDigits?_eq_appendDigits hne, hq]

theorem fraction?_fractionChars {n : Nat} (hn : n < 10 ^ 9) (rest : List Char)
    (hrest : rest.head?.all (fun c => !c.isDigit && c ≠ '.') = true) :
    fraction? (fractionChars n ++ rest) = some (n, rest) := by
  by_cases h : n = 0
  · subst h
    rw [fractionChars, if_pos rfl, List.nil_append]
    unfold fraction?
    split
    · simp at hrest
    · rfl
  · obtain ⟨digits, k, q, hchars, hdigits, hlength, hq, hscaled⟩ := exists_fractionChars h hn
    have hspan : Decimal.spanDigits (digits ++ rest) = (digits, rest) :=
      Decimal.spanDigits_append hdigits (by cases rest <;> simp_all)
    have hpad : 9 - digits.length = k := by omega
    have hexcess : digits.length - 9 = 0 := by omega
    rw [hchars, List.cons_append]
    simp only [fraction?, hspan, hq, Option.bind_eq_bind, Option.bind_some, hpad, hexcess]
    rw [Option.some.injEq, Prod.mk.injEq]
    refine ⟨?_, rfl⟩
    calc q * Nat.pow 10 k / Nat.pow 10 0 = q * 10 ^ k / 1 := rfl
      _ = n := by rw [Nat.div_one, hscaled]

theorem daysInMonth_le (year : Int) (month : Nat) : daysInMonth year month ≤ 31 := by
  unfold daysInMonth
  split_ifs <;> omega

theorem ofParts_seconds_nanos (t : Instant) : Instant.ofParts t.seconds t.nanos = t := by
  have hn := t.nanos_lt
  obtain ⟨seconds, nanos, h⟩ := t
  dsimp only at hn
  simp [Instant.ofParts, Nat.div_eq_of_lt hn, Nat.mod_eq_of_lt hn]

/-- An instant with a plain year has a date, of which four digits write the year. -/
theorem exists_date {t : Instant} (h : HasPlainYear t) :
    ∃ date : Date, date? t = some date ∧ date.Valid ∧ date.day ≤ 31 ∧
      date.toDays = t.seconds / 86400 ∧ (date.year.natAbs : Int) = date.year ∧
      date.year.natAbs < 10 ^ 4 ∧ yearChars date.year = paddedDigits 4 date.year.natAbs := by
  obtain ⟨hlow, hhigh⟩ := h
  have hvalid := valid_ofDays (t.seconds / 86400)
  have hdays := toDays_ofDays (t.seconds / 86400)
  have hdate : date? t = some (Date.ofDays (t.seconds / 86400)) := by
    rw [date?, if_pos ⟨by omega, hhigh⟩]
  generalize Date.ofDays (t.seconds / 86400) = date at *
  have hyear : yearChars date.year = paddedDigits 4 date.year.natAbs := by
    rw [yearChars, if_neg (by omega)]
  exact ⟨date, hdate, hvalid, hvalid.2.2.2.trans (daysInMonth_le _ _), hdays,
    Int.natAbs_of_nonneg hlow, by omega, hyear⟩

/-- An instant is made up of its days, what a clock shows of its seconds, and its nanoseconds. -/
theorem ofParts_days_clock (t : Instant) :
    Instant.ofParts (t.seconds / 86400 * 86400 +
      (((t.seconds % 86400).toNat / 3600 * 3600 + (t.seconds % 86400).toNat / 60 % 60 * 60 +
        (t.seconds % 86400).toNat % 60 : Nat) : Int)) t.nanos = t := by
  have hseconds : t.seconds / 86400 * 86400 +
      (((t.seconds % 86400).toNat / 3600 * 3600 + (t.seconds % 86400).toNat / 60 % 60 * 60 +
        (t.seconds % 86400).toNat % 60 : Nat) : Int) = t.seconds := by omega
  rw [hseconds, ofParts_seconds_nanos]

/-- The characters of the date and time of an instant are read back as the instant. -/
theorem dateTime?_chars {t : Instant} (h : HasPlainYear t) :
    ∃ chars, chars? t .dateTime = some chars ∧ dateTime? chars = some t := by
  obtain ⟨date, hdate, ⟨hmonth1, hmonth2, hday1, hday2⟩, hday3, hdays, hnatAbs, hsmall, hyear⟩ :=
    exists_date h
  have hsecond : (t.seconds % 86400).toNat < 86400 := by omega
  refine ⟨_, by rw [chars?, hdate]; rfl, ?_⟩
  rw [hyear]
  simp only [dateTime?,
    number?_paddedDigits (show 0 < 4 by omega) hsmall,
    number?_paddedDigits (show 0 < 2 by omega) (show date.month < 10 ^ 2 by omega),
    number?_paddedDigits (show 0 < 2 by omega) (show date.day < 10 ^ 2 by omega),
    expect?_cons, List.head?_cons, List.tail_cons, clock?_clockChars hsecond,
    fraction?_fractionChars t.nanos_lt ['Z'] (by decide), offset?, Option.bind_eq_bind,
    Option.bind_some]
  have hdate' : (⟨date.year.natAbs, date.month, date.day⟩ : Date) = date := by rw [hnatAbs]
  rw [hdate', if_pos ⟨by decide, ⟨hmonth1, hmonth2, hday1, hday2⟩, by omega, by omega, by omega⟩,
    if_neg (by omega), hdays, Int.sub_zero, ofParts_days_clock]

theorem isDigit_of_mem_fractionChars {n : Nat} {c : Char} (h : c ∈ fractionChars n) :
    c.isDigit = true ∨ c = '.' := by
  unfold fractionChars at h
  split_ifs at h
  · simp at h
  · rcases List.mem_cons.1 h with rfl | h
    · exact .inr rfl
    · have hmem := (List.dropWhile_sublist _).subset (List.mem_reverse.1 h)
      exact .inl (Text.isDigit_of_mem_paddedDigits (List.mem_reverse.1 hmem))

/-- Dates and times are made up of digits and a few marks. -/
theorem isDigit_of_mem_dateTime {t : Instant} {chars : List Char}
    (h : chars? t .dateTime = some chars) {c : Char} (hc : c ∈ chars) :
    c.isDigit = true ∨ c ∈ ['-', 'T', ':', '.', 'Z'] := by
  have hdigits {width n : Nat} (hc : c ∈ paddedDigits width n) : c.isDigit = true :=
    Text.isDigit_of_mem_paddedDigits hc
  simp only [chars?, Option.bind_eq_bind, Option.bind_eq_some_iff, Option.some.injEq] at h
  obtain ⟨date, -, rfl⟩ := h
  simp only [clockChars, List.mem_append, List.mem_cons, List.not_mem_nil, or_false] at hc ⊢
  obtain hc | hc | hc | hc | hc | hc | (hc | hc | hc | hc | hc) | hc | hc := hc
  · unfold yearChars at hc
    split_ifs at hc
    · rcases List.mem_cons.1 hc with rfl | hc
      · exact .inr (.inl rfl)
      · exact .inl (hdigits hc)
    · exact .inl (hdigits hc)
  all_goals first
    | exact .inl (hdigits hc)
    | exact (isDigit_of_mem_fractionChars hc).imp_right fun hdot => by simp [hdot]
    | simp [hc]

/-- White space is no part of a date and time, so nothing of it is trimmed. -/
theorem trimmed_dateTime {t : Instant} {chars : List Char}
    (h : chars? t .dateTime = some chars) : Text.trimmed chars = chars := by
  have hmarks : ∀ c ∈ ['-', 'T', ':', '.', 'Z'], Text.isBlank c = false :=
    List.all_iff_forall_prop.1 (by decide)
  refine Text.trimmed_of_forall fun c hc => ?_
  exact (isDigit_of_mem_dateTime h hc).elim Text.isBlank_of_isDigit (hmarks c)

/-- An instant of a plain year has a written date and time, which is read back as the instant. -/
theorem exists_format?_dateTime {t : Instant} (h : HasPlainYear t) :
    ∃ s, format? t .dateTime = some s ∧ read? .dateTime s = some t := by
  obtain ⟨chars, hchars, hread⟩ := dateTime?_chars h
  refine ⟨String.ofList chars, by rw [format?, hchars]; rfl, ?_⟩
  simp only [read?, String.toList_ofList, trimmed_dateTime hchars, hread]

/-- From the first instant of year 0 to the last of year 9999, every instant has a written date and
time, which is read back to the nanosecond. -/
theorem dateTime_read_back {t : Instant}
    (hfirst : (⟨0, 1, 1⟩ : Date).toDays * 86400 ≤ t.seconds)
    (hlast : t.seconds ≤ (⟨9999, 12, 31⟩ : Date).toDays * 86400 + 86399) :
    ∃ s, format? t .dateTime = some s ∧ read? .dateTime s = some t := by
  have hnext : (⟨10000, 1, 1⟩ : Date).toDays = (⟨9999, 12, 31⟩ : Date).toDays + 1 := by decide
  refine exists_format?_dateTime (hasPlainYear_iff.2 ⟨?_, ?_⟩) <;> omega

theorem dateTime_read_back_of_year_zero :
    (⟨0, 1, 1⟩ : Date).toDays * 86400 ≤ -62167219200 ∧
      -62167219200 ≤ (⟨9999, 12, 31⟩ : Date).toDays * 86400 + 86399 ∧
      ∃ s, format? ⟨-62167219200, 5, by decide⟩ .dateTime = some s ∧
        read? .dateTime s = some ⟨-62167219200, 5, by decide⟩ :=
  ⟨by decide, by decide, dateTime_read_back (t := ⟨-62167219200, 5, by decide⟩) (by decide)
    (by decide)⟩

end ServiceBindings.Time
