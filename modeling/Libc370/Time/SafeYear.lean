import Libc370.Lib.Calendar

/-! The stand-in year: `safe_year()`.

The 64-bit local time functions go through the 32-bit ones in a year between 1970 and
2037. The stand-in has the calendar of the year: it is a leap year or not as the year
is, begins on the same weekday, and comes after a leap year if the year does. The four
centuries after 2037 are checked year by year; every 400 years they come again. -/
namespace Libc370.Time

open Calendar

/-- `safe_years_high[]`. -/
def safeYearsHigh : List Int :=
  [2016, 2017, 2018, 2019, 2020, 2021, 2022, 2023, 2024, 2025, 2026, 2027, 2028, 2029, 2030, 2031, 2032, 2033, 2034,
    2035, 2036, 2037, 2010, 2011, 2012, 2013, 2014, 2015]

/-- `safe_years_low[]`. -/
def safeYearsLow : List Int :=
  [1996, 1997, 1998, 1971, 1972, 1973, 1974, 1975, 1976, 1977, 1978, 1979, 1980, 1981, 1982, 1983, 1984, 1985, 1986,
    1987, 1988, 1989, 1990, 1991, 1992, 1993, 1994, 1995]

/-- `cycle_offset()`. -/
def cycleOffset (year : Int) : Int :=
  let yearDiff := year - 2000
  let yearDiff := if 2000 < year then yearDiff - 1 else yearDiff
  let exceptions := yearDiff.tdiv 100
  let exceptions := exceptions - yearDiff.tdiv 400
  exceptions * 16

/-- `is_exception_century`. -/
def isExceptionCentury (year : Int) : Bool := year.tmod 100 == 0 && !(year.tmod 400 == 0)

/-- `safe_year()`. -/
def safeYear (year : Int) : Int :=
  if 1970 ≤ year ∧ year ≤ 2037 then year
  else
    let yearCycle := year + cycleOffset year
    let yearCycle := if year < 1970 then yearCycle - 8 else yearCycle
    let yearCycle := if isExceptionCentury year then yearCycle + 11 else yearCycle
    let yearCycle := if isExceptionCentury (year - 1) then yearCycle + 17 else yearCycle
    let yearCycle := yearCycle.tmod 28
    let yearCycle := if yearCycle < 0 then 28 + yearCycle else yearCycle
    if year < 1970 then safeYearsLow.getD yearCycle.toNat 0 else safeYearsHigh.getD yearCycle.toNat 0

/-! ### The stand-in year -/

/-- `s` has the calendar of `y`, as far as the days of `y` and their neighbours go. -/
structure StandsIn (s y : Int) : Prop where
  low : 1970 ≤ s
  high : s ≤ 2037
  apart : s ≠ y → 1970 < s
  leap : isLeap s = isLeap y
  weekday : (daysBeforeYear s - daysBeforeYear y) % 7 = 0
  before : isLeap (y - 1) = true → isLeap (s - 1) = true

/-- The four centuries after 2037, year by year. -/
theorem safeYear_table : ∀ k < 400, 1970 < safeYear (2038 + (k : Nat)) ∧ safeYear (2038 + (k : Nat)) ≤ 2037 ∧
    isLeap (safeYear (2038 + (k : Nat))) = isLeap (2038 + (k : Nat)) ∧
    (daysBeforeYear (safeYear (2038 + (k : Nat))) - daysBeforeYear (2038 + (k : Nat))) % 7 = 0 ∧
    (isLeap (2038 + (k : Nat) - 1) = true → isLeap (safeYear (2038 + (k : Nat)) - 1) = true) := by
  decide +kernel

/-- After 2037, without the signs. -/
theorem safeYear_late {y : Int} (h : 2037 < y) :
    safeYear y = safeYearsHigh.getD ((y + ((y - 2001) / 100 - (y - 2001) / 400) * 16 +
      (if y % 100 = 0 ∧ y % 400 ≠ 0 then 11 else 0) +
      (if (y - 1) % 100 = 0 ∧ (y - 1) % 400 ≠ 0 then 17 else 0)) % 28).toNat 0 := by
  have hdiff : y - 2000 - 1 = y - 2001 := by omega
  have hcent : ∀ z, 0 ≤ z → (isExceptionCentury z = true ↔ z % 100 = 0 ∧ z % 400 ≠ 0) := by
    intro z hz
    simp [isExceptionCentury, Int.tmod_eq_emod_of_nonneg hz]
  have hoffset : cycleOffset y = ((y - 2001) / 100 - (y - 2001) / 400) * 16 := by
    simp only [cycleOffset, if_pos (show 2000 < y by omega), hdiff,
      Int.tdiv_eq_ediv_of_nonneg (show 0 ≤ y - 2001 by omega)]
  have hnot : ¬ (1970 ≤ y ∧ y ≤ 2037) := by omega
  have hlow : ¬ y < 1970 := by omega
  simp only [safeYear, if_neg hnot, if_neg hlow, hcent y (by omega), hcent (y - 1) (by omega), hoffset]
  have hpos : 0 ≤ (y - 2001) / 100 - (y - 2001) / 400 := by omega
  have hadd : ∀ (p : Prop) [Decidable p] (a b : Int), (if p then a + b else a) = a + if p then b else 0 := by
    intro p _ a b
    split
    · rfl
    · exact (Int.add_zero a).symm
  rw [hadd, hadd]
  generalize hcycle : y + ((y - 2001) / 100 - (y - 2001) / 400) * 16 + (if y % 100 = 0 ∧ y % 400 ≠ 0 then 11 else 0) +
    (if (y - 1) % 100 = 0 ∧ (y - 1) % 400 ≠ 0 then 17 else 0) = cycle
  have hnonneg : 0 ≤ cycle := by
    rw [← hcycle]
    split <;> split <;> omega
  rw [Int.tmod_eq_emod_of_nonneg hnonneg, if_neg (by omega)]

/-- The cycle of 400 years moves the solar cycle by 448. -/
theorem safeYear_cycle {y : Int} (h : 2037 < y) {c : Int} (hc : 0 ≤ c) : safeYear (y + 400 * c) = safeYear y := by
  have hcycle : ((y + 400 * c) + ((y + 400 * c - 2001) / 100 - (y + 400 * c - 2001) / 400) * 16) =
      y + ((y - 2001) / 100 - (y - 2001) / 400) * 16 + 28 * (16 * c) := by omega
  have h1 : (y + 400 * c) % 100 = y % 100 ∧ (y + 400 * c) % 400 = y % 400 := by omega
  have h2 : (y + 400 * c - 1) % 100 = (y - 1) % 100 ∧ (y + 400 * c - 1) % 400 = (y - 1) % 400 := by omega
  rw [safeYear_late (by omega), safeYear_late h, hcycle, h1.1, h1.2, h2.1, h2.2]
  congr 2
  omega

/-- A year of the 32-bit range stands in for itself. -/
theorem standsIn_self {y : Int} (h : 1970 ≤ y) (hle : y ≤ 2037) : StandsIn (safeYear y) y := by
  rw [safeYear, if_pos ⟨h, hle⟩]
  exact ⟨h, hle, fun hne => absurd rfl hne, rfl, by rw [Int.sub_self]; rfl, id⟩

/-- **The stand-in has the calendar of the year**, for every year from 1970 on. -/
theorem safeYear_standsIn {y : Int} (h : 1970 ≤ y) : StandsIn (safeYear y) y := by
  by_cases hle : y ≤ 2037
  · exact standsIn_self h hle
  · obtain ⟨c, k, hc, hk, rfl⟩ : ∃ (c : Int) (k : Nat), 0 ≤ c ∧ k < 400 ∧ y = 2038 + k + 400 * c :=
      ⟨(y - 2038) / 400, ((y - 2038) % 400).toNat, by omega, by omega, by omega⟩
    obtain ⟨hlow, hhigh, hleap, hweekday, hbefore⟩ := safeYear_table k hk
    have hone : (2038 : Int) + k + 400 * c - 1 = 2038 + k - 1 + 400 * c := by omega
    rw [safeYear_cycle (by omega) hc]
    refine ⟨hlow.le, hhigh, fun _ => hlow, ?_, ?_, ?_⟩
    · rw [isLeap_cycle]
      exact hleap
    · rw [daysBeforeYear_cycle]
      omega
    · rw [hone, isLeap_cycle]
      exact hbefore

/-- What the stand-in makes of a day `e` next to a day `d` of the year: where New Year is
crossed, the month tells, and the day of the year may be that of a leap year. -/
theorem standIn_date {d e e' : Date} {s : Int} (hs : StandsIn s d.year)
    (h : e'.number = e.number + (daysBeforeYear s - daysBeforeYear d.year)) (hbefore : d.number ≤ e.number + 1)
    (hafter : e.number ≤ d.number + 1) :
    e.year = d.year + (if (e'.month : Int) - d.month = 11 then -1 else if (e'.month : Int) - d.month =
      -11 then 1 else 0) ∧
      e'.month = e.month ∧ e'.day = e.day ∧
      (e'.yearDay = e.yearDay ∨ isLeap e.year = false ∧ e'.yearDay = 365 ∧ e.yearDay = 364) := by
  rcases lt_trichotomy d.year e.year with hlt | heq | hgt
  · -- over New Year, into the next
    obtain ⟨hnew, hlast⟩ := Date.next_year hlt hafter
    have hdate : e' = Date.newYear (s + 1) := by
      apply Date.number_injective
      rw [h, hnew, Date.newYear_number, Date.newYear_number, daysBeforeYear_succ, daysBeforeYear_succ, hs.leap]
      omega
    have hmonth : d.month = 11 := by
      rw [hlast]
      rfl
    rw [hdate, hnew, hmonth]
    exact ⟨rfl, rfl, rfl, .inl (by simp [Date.yearDay, Date.newYear, daysBeforeMonth])⟩
  · -- the same year
    have hleap : isLeap s = isLeap e.year := by rw [hs.leap, heq]
    have hdate : e' = e.inYear s hleap := by
      apply Date.number_injective
      rw [h, Date.inYear_number, heq]
    have h1 := Date.month_close heq.symm hafter
    have h2 := Date.month_close heq hbefore
    have hmonth : e'.month = e.month := by
      rw [hdate]
      rfl
    refine ⟨?_, hmonth, by rw [hdate]; rfl, .inl (by rw [hdate, Date.inYear_yearDay])⟩
    rw [if_neg (by omega), if_neg (by omega), heq, Int.add_zero]
  · -- over New Year, into the one before
    obtain ⟨hnew, hlast⟩ := Date.next_year hgt hbefore
    have hprev : d.year = e.year + 1 := by
      rw [hnew]
      rfl
    have hdate : e' = Date.lastDay (s - 1) := by
      apply Date.number_injective
      rw [h, hlast, Date.lastDay_number, Date.lastDay_number, Int.sub_add_cancel, hprev]
      omega
    have hmonth : d.month = 0 := by
      rw [hnew]
      rfl
    have hyday : e'.yearDay = yearLength (isLeap (s - 1)) - 1 := by rw [hdate, Date.lastDay_yearDay]
    have hyday' : e.yearDay = yearLength (isLeap e.year) - 1 := by
      conv_lhs => rw [hlast, Date.lastDay_yearDay]
    have hleap := hs.before
    rw [hprev, Int.add_sub_cancel] at hleap
    refine ⟨?_, ?_, ?_, ?_⟩
    · rw [hdate, hmonth, hprev]
      dsimp only [Date.lastDay]
      omega
    · rw [hdate, hlast]
      rfl
    · rw [hdate, hlast]
      rfl
    · rw [hyday, hyday']
      rcases Bool.eq_false_or_eq_true (isLeap e.year) with hy | hy
      · rw [hy, hleap hy]
        exact .inl rfl
      · rcases Bool.eq_false_or_eq_true (isLeap (s - 1)) with hy' | hy'
        · rw [hy, hy']
          exact .inr ⟨rfl, rfl, rfl⟩
        · rw [hy, hy']
          exact .inl rfl

end Libc370.Time
