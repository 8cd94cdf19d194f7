import Mathlib.Tactic.Common
import ServiceBindings.Time.Calendar

/-! Days and dates correspond. An era of 400 years is cut into centuries, cycles of four years and
years from March, which are exact, and the divisions of the calendar are read off that. -/
namespace ServiceBindings.Time

/-- A day of an era by its century, its cycle of four years, its year in the cycle and its day in
the year, where years begin in March. Only a year whose last day is that of a leap year has a day
of number 365. -/
structure EraDay where
  /-- The century of the era. -/
  century : Int
  /-- The cycle of four years in the century. -/
  cycle : Int
  year : Int
  day : Int

/-- The ranges of the parts of a day. -/
structure EraDay.Valid (e : EraDay) : Prop where
  century : 0 ≤ e.century ∧ e.century ≤ 3
  cycle : 0 ≤ e.cycle ∧ e.cycle ≤ 24
  year : 0 ≤ e.year ∧ e.year ≤ 3
  day : 0 ≤ e.day ∧ e.day ≤ 365
  leap : e.day = 365 → e.year = 3 ∧ (e.cycle = 24 → e.century = 3)

/-- The number of the day in the era. -/
def EraDay.toInt (e : EraDay) : Int :=
  36524 * e.century + 1461 * e.cycle + 365 * e.year + e.day

/-- The number of the year in the era. -/
def EraDay.yearOfEra (e : EraDay) : Int :=
  100 * e.century + 4 * e.cycle + e.year

theorem exists_eraDay (d : Int) (h : 0 ≤ d ∧ d < 146097) :
    ∃ e : EraDay, e.Valid ∧ e.toInt = d := by
  obtain ⟨g, hg, hg', r, hr⟩ : ∃ g : Int, (0 ≤ g ∧ g ≤ 3) ∧
      (36524 * g ≤ d ∧ (d < 36524 * g + 36524 ∨ g = 3)) ∧ ∃ r, d = 36524 * g + r :=
    ⟨min (d / 36524) 3, by omega, by omega, d - 36524 * min (d / 36524) 3, by omega⟩
  obtain ⟨q, hq, hq', s, hs⟩ : ∃ q : Int, (0 ≤ q ∧ q ≤ 24) ∧
      (1461 * q ≤ r ∧ (r < 1461 * q + 1461)) ∧ ∃ s, r = 1461 * q + s :=
    ⟨r / 1461, by omega, by omega, r - 1461 * (r / 1461), by omega⟩
  obtain ⟨k, hk, hk', t, ht⟩ : ∃ k : Int, (0 ≤ k ∧ k ≤ 3) ∧
      (365 * k ≤ s ∧ (s < 365 * k + 365 ∨ k = 3)) ∧ ∃ t, s = 365 * k + t :=
    ⟨min (s / 365) 3, by omega, by omega, s - 365 * min (s / 365) 3, by omega⟩
  exact ⟨⟨g, q, k, t⟩, ⟨hg, hq, hk, by dsimp only; omega, by dsimp only; omega⟩, by
    dsimp only [EraDay.toInt]; omega⟩

/-- The closed form for the year of a day: each leap day would shift it and is taken out. -/
theorem yearOfEra_toInt (e : EraDay) (h : e.Valid) :
    (e.toInt - e.toInt / 1460 + e.toInt / 36524 - e.toInt / 146096) / 365 = e.yearOfEra := by
  obtain ⟨g, q, k, t⟩ := e
  obtain ⟨hg, hq, hk, ht, hl⟩ := h
  dsimp only [EraDay.toInt, EraDay.yearOfEra] at *
  generalize hd : 36524 * g + 1461 * q + 365 * k + t = d
  by_cases hlast : q = 24 ∧ t = 365
  · obtain ⟨rfl, rfl⟩ := hlast
    obtain ⟨rfl, hg3⟩ := hl rfl
    obtain rfl := hg3 rfl
    omega
  · have hcentury : d / 36524 = g := by omega
    have hera : d / 146096 = 0 := by omega
    obtain ⟨w, hw⟩ : ∃ w, w = (24 * g + q + 365 * k + t) / 1460 := ⟨_, rfl⟩
    have hcycle : d / 1460 = 25 * g + q + w := by omega
    have ht : 0 ≤ t - w ∧ t - w ≤ 364 := by omega
    rw [hcentury, hera, hcycle]
    omega

/-- The days before a year of an era and in it make up the day of the era. -/
theorem EraDay.toInt_eq (e : EraDay) (h : e.Valid) :
    e.toInt = 365 * e.yearOfEra + e.yearOfEra / 4 - e.yearOfEra / 100 + e.day := by
  obtain ⟨g, q, k, t⟩ := e
  obtain ⟨hg, hq, hk, ht, hl⟩ := h
  dsimp only [EraDay.toInt, EraDay.yearOfEra] at *
  omega

theorem EraDay.yearOfEra_bounds (e : EraDay) (h : e.Valid) :
    0 ≤ e.yearOfEra ∧ e.yearOfEra < 400 := by
  obtain ⟨hg, hq, hk, ht, hl⟩ := h
  unfold EraDay.yearOfEra
  omega

/-- The month of a day, counted from March. -/
def EraDay.month (e : EraDay) : Int :=
  (5 * e.day + 2) / 153

theorem exists_era (days : Int) :
    ∃ era : Int, ∃ e : EraDay, e.Valid ∧ days = era * 146097 + e.toInt - 719468 := by
  obtain ⟨e, he, hd⟩ := exists_eraDay ((days + 719468) % 146097) (by omega)
  exact ⟨(days + 719468) / 146097, e, he, by omega⟩

theorem ofDays_era (era : Int) (e : EraDay) (h : e.Valid) :
    Date.ofDays (era * 146097 + e.toInt - 719468) =
      ⟨e.yearOfEra + era * 400 + (if e.month < 10 then 0 else 1),
        (if e.month < 10 then e.month + 3 else e.month - 9).toNat,
        (e.day - (153 * e.month + 2) / 5 + 1).toNat⟩ := by
  have hy := yearOfEra_toInt e h
  have ht := e.toInt_eq h
  have hb := e.yearOfEra_bounds h
  have hd := h.day
  have hrange : 0 ≤ e.toInt ∧ e.toInt < 146097 := by
    obtain ⟨hg, hq, hk, ht, hl⟩ := h
    unfold EraDay.toInt
    omega
  have hera : (era * 146097 + e.toInt - 719468 + 719468) / 146097 = era := by omega
  have hdoe : (era * 146097 + e.toInt - 719468 + 719468) % 146097 = e.toInt := by omega
  have hdoy : e.toInt - (365 * e.yearOfEra + e.yearOfEra / 4 - e.yearOfEra / 100) = e.day := by
    omega
  have hm : (5 * e.day + 2) / 153 = e.month := rfl
  have hmb : 0 ≤ e.month ∧ e.month ≤ 11 := by omega
  unfold Date.ofDays
  simp only [hera, hdoe, hy, hdoy, hm]
  congr 1
  split_ifs <;> omega

/-- A month counted from March and the same month counted from January. -/
theorem month_eq {m : Int} (h : 0 ≤ m ∧ m ≤ 11) :
    ((if m < 10 then m + 3 else m - 9).toNat + 9) % 12 = m.toNat ∧
      ((if m < 10 then m + 3 else m - 9).toNat ≤ 2 ↔ ¬m < 10) := by
  split_ifs <;> omega

/-- The date of a day has that day. -/
theorem toDays_ofDays (days : Int) : (Date.ofDays days).toDays = days := by
  obtain ⟨era, e, h, rfl⟩ := exists_era days
  have ht := e.toInt_eq h
  have hb := e.yearOfEra_bounds h
  have hd := h.day
  have hm : (5 * e.day + 2) / 153 = e.month := rfl
  rw [ofDays_era era e h, ht]
  generalize e.month = m at *
  generalize e.yearOfEra = y at *
  generalize e.day = t at *
  have hmb : 0 ≤ m ∧ m ≤ 11 := by omega
  have hday : 0 ≤ t - (153 * m + 2) / 5 := by omega
  obtain ⟨hmonth, hearly⟩ := month_eq hmb
  unfold Date.toDays
  simp only [hmonth, hearly]
  clear hmonth hearly hm
  split_ifs <;> omega

/-- Years follow one another in days as well: a day is of the year `y` or a later one from the first
of January of `y` on. -/
theorem le_year_ofDays_iff (year days : Int) :
    year ≤ (Date.ofDays days).year ↔ (⟨year, 1, 1⟩ : Date).toDays ≤ days := by
  obtain ⟨era, e, h, rfl⟩ := exists_era days
  have ht := e.toInt_eq h
  have hb := e.yearOfEra_bounds h
  have hd := h.day
  have hm : (5 * e.day + 2) / 153 = e.month := rfl
  have hlate : e.month < 10 ↔ e.day < 306 := by omega
  rw [ofDays_era era e h, ht]
  unfold Date.toDays
  simp only [Nat.reduceAdd, Nat.reduceMod, Nat.reduceMul, Nat.reduceDiv,
    show (1 : Nat) ≤ 2 by decide, if_true]
  clear hm h ht
  generalize e.yearOfEra = y at *
  generalize e.day = t at *
  split_ifs with hmonth
  · have := hlate.1 hmonth
    clear hlate hmonth
    omega
  · have := mt hlate.2 hmonth
    clear hlate hmonth
    omega

/-- The date of a day is one of the calendar. -/
theorem valid_ofDays (days : Int) : (Date.ofDays days).Valid := by
  obtain ⟨era, e, h, rfl⟩ := exists_era days
  have hd := h.day
  have hl := h.leap
  have hc := h.cycle
  have hg := h.century
  have hk := h.year
  have hm : (5 * e.day + 2) / 153 = e.month := rfl
  have hy : e.yearOfEra = 100 * e.century + 4 * e.cycle + e.year := rfl
  rw [ofDays_era era e h]
  generalize e.month = m at *
  have hmb : 0 ≤ m ∧ m ≤ 11 := by omega
  -- The last day that a month of this number can have.
  have hlast : e.day - (153 * m + 2) / 5 + 1 ≤
      if m = 11 then (if e.day = 365 then 29 else 28)
      else if m = 1 ∨ m = 3 ∨ m = 6 ∨ m = 8 then 30 else 31 := by
    split_ifs <;> omega
  have hfirst : 1 ≤ e.day - (153 * m + 2) / 5 + 1 := by omega
  have hleap : e.day = 365 → isLeapYear (e.yearOfEra + era * 400 + 1) = true := by
    intro h365
    obtain ⟨hyear, hlong⟩ := hl h365
    simp only [isLeapYear, Bool.and_eq_true, Bool.or_eq_true, decide_eq_true_eq]
    omega
  unfold Date.Valid daysInMonth
  dsimp only
  generalize e.day - (153 * m + 2) / 5 + 1 = day at *
  clear hm hy hd hl hc hg hk
  by_cases hm : m = 11
  · subst hm
    simp only [if_true] at hlast
    simp only [show ¬(11 : Int) < 10 by omega, if_false, show ((11 : Int) - 9).toNat = 2 from rfl,
      if_true]
    split_ifs at hlast with h365
    · rw [hleap h365]
      simp only [if_true]
      omega
    · split_ifs <;> omega
  · rw [if_neg hm] at hlast
    have hmonth : (if m < 10 then m + 3 else m - 9).toNat ≠ 2 := by split_ifs <;> omega
    rw [if_neg hmonth]
    split_ifs at hlast ⊢ <;> omega

end ServiceBindings.Time
