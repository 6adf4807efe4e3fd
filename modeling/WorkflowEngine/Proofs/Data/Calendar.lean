import WorkflowEngine.Timestamp

/-!
# Days and dates

The calendar repeats after 400 years, which are 146097 days. Within them a day is given by its
century, its group of four years, its year in that group and its day in that year, where years begin
in March. A day that comes after the last day of an ordinary year is a leap day, which is the last
day of the last year of its group.

## Main definitions

* `Date.Exists`: the dates that there are

## Main results

* `dateOfDays_exists`: the date of a day is a date that there is
* `daysOfDate_dateOfDays`: the day of the date of a day is that day
-/

namespace WorkflowEngine.Timestamp

/-- A date that there is. -/
structure Date.Exists (d : Date) : Prop where
  one_le_month : 1 ≤ d.month
  month_le : d.month ≤ 12
  one_le_day : 1 ≤ d.day
  day_le : d.day ≤ daysInMonth d.year d.month

/-! ### Years -/

/-- A day of an era by its century, its group of four years, its year and its day. -/
theorem exists_dayOfEra {e : Int} (h0 : 0 ≤ e) (h1 : e < 146097) :
    ∃ c q z w : Int, (0 ≤ c ∧ c ≤ 3) ∧ (0 ≤ q ∧ q ≤ 24) ∧ (0 ≤ z ∧ z ≤ 3) ∧ (0 ≤ w ∧ w ≤ 365) ∧
      (w = 365 → z = 3 ∧ (q = 24 → c = 3)) ∧ e = 36524 * c + 1461 * q + 365 * z + w := by
  let c := min (e / 36524) 3
  let q := (e - 36524 * c) / 1461
  let z := min ((e - 36524 * c - 1461 * q) / 365) 3
  refine ⟨c, q, z, e - 36524 * c - 1461 * q - 365 * z, ?_, ?_, ?_, ?_, ?_, ?_⟩ <;> omega

/-- The quotients count the leap days before the day, so that what remains are ordinary years. -/
theorem yearOfEra_eq {e c q z w : Int} (hc : 0 ≤ c ∧ c ≤ 3) (hq : 0 ≤ q ∧ q ≤ 24)
    (hz : 0 ≤ z ∧ z ≤ 3) (hw : 0 ≤ w ∧ w ≤ 365) (hleap : w = 365 → z = 3 ∧ (q = 24 → c = 3))
    (he : e = 36524 * c + 1461 * q + 365 * z + w) :
    (e - e / 1460 + e / 36524 - e / 146096) / 365 = 100 * c + 4 * q + z := by
  by_cases hlast : e = 146096
  · omega
  · have h400 : e / 146096 = 0 := by omega
    have h100 : e / 36524 = c := by omega
    -- the leap day of its group has been counted already, or not yet
    by_cases hbefore : 24 * c + q + 365 * z + w < 1460
    · have h4 : e / 1460 = 25 * c + q := by omega
      omega
    · have h4 : e / 1460 = 25 * c + q + 1 := by omega
      omega

/-- A day of an era by its year and its day; only some years have a day 365. -/
theorem exists_yearOfEra {e : Int} (h0 : 0 ≤ e) (h1 : e < 146097) :
    ∃ y w : Int, (0 ≤ y ∧ y ≤ 399) ∧ (0 ≤ w ∧ w ≤ 365) ∧
      (w = 365 → (y + 1) % 4 = 0 ∧ ((y + 1) % 100 = 0 → y = 399)) ∧
      e = 365 * y + y / 4 - y / 100 + w ∧
      (e - e / 1460 + e / 36524 - e / 146096) / 365 = y := by
  obtain ⟨c, q, z, w, hc, hq, hz, hw, hleap, he⟩ := exists_dayOfEra h0 h1
  refine ⟨100 * c + 4 * q + z, w, by omega, hw, by omega, ?_,
    yearOfEra_eq hc hq hz hw hleap he⟩
  have h4 : (100 * c + 4 * q + z) / 4 = 25 * c + q := by omega
  have h100 : (100 * c + 4 * q + z) / 100 = c := by omega
  omega

/-! ### Months -/

/-- The date of a day of a year that begins in March. -/
def dateOfYear (year w : Int) : Date :=
  let month := (5 * w + 2) / 153
  ⟨if month < 10 then year else year + 1,
    (if month < 10 then month + 3 else month - 9).toNat, (w - (153 * month + 2) / 5 + 1).toNat⟩

theorem dateOfDays_eq {days era y w : Int} (hy : 0 ≤ y ∧ y ≤ 399) (hw : 0 ≤ w ∧ w ≤ 365)
    (he : 365 * y + y / 4 - y / 100 + w < 146097)
    (hyear : ∀ e, e = 365 * y + y / 4 - y / 100 + w →
      (e - e / 1460 + e / 36524 - e / 146096) / 365 = y)
    (hdays : days + 719468 = era * 146097 + (365 * y + y / 4 - y / 100 + w)) :
    dateOfDays days = dateOfYear (y + era * 400) w := by
  have hera : (days + 719468) / 146097 = era := by omega
  have hrest : days + 719468 - era * 146097 = 365 * y + y / 4 - y / 100 + w := by omega
  have hday : 365 * y + y / 4 - y / 100 + w - (365 * y + y / 4 - y / 100) = w := by omega
  have hmonth : 0 ≤ (5 * w + 2) / 153 := by omega
  unfold dateOfDays dateOfYear
  simp (disch := omega) only [Int.fdiv_eq_ediv_of_nonneg, hera, hrest, hyear _ rfl, hday,
    Date.mk.injEq, and_true]
  split <;> split <;> omega

theorem daysOfDate_dateOfYear {era y w : Int} (hy : 0 ≤ y ∧ y ≤ 399) (hw : 0 ≤ w ∧ w ≤ 365) :
    daysOfDate (dateOfYear (y + era * 400) w) =
      era * 146097 + (365 * y + y / 4 - y / 100 + w) - 719468 := by
  have hmonth : 0 ≤ (5 * w + 2) / 153 ∧ (5 * w + 2) / 153 ≤ 11 := by omega
  have hday : 0 ≤ w - (153 * ((5 * w + 2) / 153) + 2) / 5 := by omega
  have hera : (y + era * 400) / 400 = era := by omega
  unfold daysOfDate dateOfYear
  generalize (5 * w + 2) / 153 = m at hmonth hday
  by_cases hm : m < 10
  · have hback : ¬ (m + 3).toNat ≤ 2 := by omega
    simp (disch := omega) only [Int.fdiv_eq_ediv_of_nonneg, if_pos hm, if_neg hback, hera,
      Int.toNat_of_nonneg, Int.add_sub_cancel]
    omega
  · have hback : (m - 9).toNat ≤ 2 := by omega
    simp (disch := omega) only [Int.fdiv_eq_ediv_of_nonneg, if_neg hm, if_pos hback, hera,
      Int.toNat_of_nonneg, Int.add_sub_cancel, Int.sub_add_cancel]
    omega

theorem isLeapYear_of_leapDay {era y : Int} (h4 : (y + 1) % 4 = 0)
    (h100 : (y + 1) % 100 = 0 → y = 399) :
    isLeapYear (y + era * 400 + 1) = true := by
  have h4' : (y + era * 400 + 1) % 4 = 0 := by omega
  have h100' : (y + era * 400 + 1) % 100 = 0 → (y + era * 400 + 1) % 400 = 0 := by omega
  simp only [isLeapYear, h4', beq_self_eq_true, Bool.true_and, Bool.or_eq_true, bne_iff_ne,
    beq_iff_eq]
  by_cases h : (y + era * 400 + 1) % 100 = 0
  · exact .inr (h100' h)
  · exact .inl h

/-- A month has 30 days or 31, and February has 28 or 29. -/
theorem exists_of_le {year : Int} {month day : Nat} (hmonth : 1 ≤ month ∧ month ≤ 12)
    (hday : 1 ≤ day ∧ day ≤ 31) (h30 : month = 4 ∨ month = 6 ∨ month = 9 ∨ month = 11 → day ≤ 30)
    (h29 : month = 2 → day ≤ 29) (h28 : month = 2 → day = 29 → isLeapYear year = true) :
    Date.Exists ⟨year, month, day⟩ := by
  refine ⟨hmonth.1, hmonth.2, hday.1, ?_⟩
  change day ≤ daysInMonth year month
  unfold daysInMonth
  by_cases h2 : month = 2
  · simp only [h2, beq_self_eq_true, if_true]
    by_cases hlast : day = 29
    · rw [h28 h2 hlast, hlast]
      decide
    · have := h29 h2
      split <;> omega
  · simp only [beq_eq_false_iff_ne.mpr h2, Bool.false_eq_true, if_false, List.contains_cons,
      List.contains_nil, Bool.or_false, Bool.or_eq_true, beq_iff_eq]
    split
    next h => exact h30 h
    next => exact hday.2

theorem dateOfYear_exists {era y w : Int} (hw : 0 ≤ w ∧ w ≤ 365)
    (hleap : w = 365 → (y + 1) % 4 = 0 ∧ ((y + 1) % 100 = 0 → y = 399)) :
    (dateOfYear (y + era * 400) w).Exists := by
  unfold dateOfYear
  by_cases hm : (5 * w + 2) / 153 < 10
  · simp only [if_pos hm]
    exact exists_of_le (by omega) (by omega) (by omega) (by omega) (by omega)
  · simp only [if_neg hm]
    refine exists_of_le (by omega) (by omega) (by omega) (by omega) ?_
    -- the 29th of February comes after all the days of an ordinary year
    intro hmonth hday
    obtain ⟨h4, h100⟩ := hleap (by omega)
    exact isLeapYear_of_leapDay h4 h100

/-! ### Days -/

/-- A day is a day of a year of an era. -/
theorem exists_dateOfYear (days : Int) :
    ∃ era y w : Int, (0 ≤ y ∧ y ≤ 399) ∧ (0 ≤ w ∧ w ≤ 365) ∧
      (w = 365 → (y + 1) % 4 = 0 ∧ ((y + 1) % 100 = 0 → y = 399)) ∧
      days = era * 146097 + (365 * y + y / 4 - y / 100 + w) - 719468 ∧
      dateOfDays days = dateOfYear (y + era * 400) w := by
  have hera : 146097 * ((days + 719468) / 146097) + (days + 719468) % 146097 = days + 719468 :=
    Int.mul_ediv_add_emod ..
  obtain ⟨y, w, hy, hw, hleap, he, hyear⟩ :=
    exists_yearOfEra (Int.emod_nonneg (days + 719468) (by decide))
      (Int.emod_lt_of_pos (days + 719468) (by decide))
  refine ⟨(days + 719468) / 146097, y, w, hy, hw, hleap, by omega, ?_⟩
  refine dateOfDays_eq hy hw ?_ ?_ ?_
  · omega
  · rintro _ rfl
    rw [← he]
    exact hyear
  · omega

/-- **The date of a day is a date that there is.** -/
theorem dateOfDays_exists (days : Int) : (dateOfDays days).Exists := by
  obtain ⟨era, y, w, hy, hw, hleap, -, hdate⟩ := exists_dateOfYear days
  rw [hdate]
  exact dateOfYear_exists hw hleap

/-- **The day of the date of a day is that day.** -/
theorem daysOfDate_dateOfDays (days : Int) : daysOfDate (dateOfDays days) = days := by
  obtain ⟨era, y, w, hy, hw, -, hdays, hdate⟩ := exists_dateOfYear days
  rw [hdate, daysOfDate_dateOfYear hy hw, hdays]

end WorkflowEngine.Timestamp
