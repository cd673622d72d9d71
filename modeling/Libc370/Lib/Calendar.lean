import Mathlib

/-! The proleptic Gregorian calendar.

Years are integers, months are counted from 0, days from 1. A `Date` carries the
proof that its day is in its month. Days are numbered, 1 for the first of January of
the year 1, and a number belongs to one date only; the same with seconds for a
`Civil` time. -/
namespace Libc370.Calendar

def isLeap (y : Int) : Bool := y % 400 == 0 || (y % 4 == 0 && y % 100 != 0)

def yearLength (leap : Bool) : Int := if leap then 366 else 365

def monthLength (leap : Bool) (m : Nat) : Int :=
  if m = 1 then if leap then 29 else 28
  else if m = 3 ∨ m = 5 ∨ m = 8 ∨ m = 10 then 30
  else 31

def daysBeforeMonth (leap : Bool) : Nat → Int
  | 0 => 0
  | m + 1 => daysBeforeMonth leap m + monthLength leap m

/-- The days of the years from 1 on, before `y`; before the year 1 they count down. -/
def daysBeforeYear (y : Int) : Int := 365 * (y - 1) + (y - 1) / 4 - (y - 1) / 100 + (y - 1) / 400

theorem isLeap_iff (y : Int) : isLeap y = true ↔ y % 400 = 0 ∨ y % 4 = 0 ∧ y % 100 ≠ 0 := by
  simp [isLeap]

theorem yearLength_bounds (leap : Bool) : 365 ≤ yearLength leap ∧ yearLength leap ≤ 366 := by
  cases leap <;> decide

theorem daysBeforeYear_succ (y : Int) :
    daysBeforeYear (y + 1) = daysBeforeYear y + yearLength (isLeap y) := by
  unfold daysBeforeYear yearLength
  split
  · next h =>
    rw [isLeap_iff] at h
    omega
  · next h =>
    rw [isLeap_iff] at h
    omega

/-- Four centuries are a cycle. -/
theorem daysBeforeYear_cycle (y c : Int) : daysBeforeYear (y + 400 * c) = daysBeforeYear y + 146097 * c := by
  unfold daysBeforeYear
  omega

theorem isLeap_cycle (y c : Int) : isLeap (y + 400 * c) = isLeap y := by
  rw [Bool.eq_iff_iff, isLeap_iff, isLeap_iff]
  omega

/-- Later years start later, by their days at least. -/
theorem daysBeforeYear_lt {y y' : Int} (h : y < y') :
    daysBeforeYear y + yearLength (isLeap y) ≤ daysBeforeYear y' := by
  rw [← daysBeforeYear_succ]
  unfold daysBeforeYear
  omega

theorem monthLength_pos (leap : Bool) (m : Nat) : 0 < monthLength leap m := by
  unfold monthLength
  split
  · split <;> decide
  · split <;> decide

theorem daysBeforeMonth_mono (leap : Bool) {m m' : Nat} (h : m ≤ m') :
    daysBeforeMonth leap m ≤ daysBeforeMonth leap m' := by
  induction m', h using Nat.le_induction with
  | base => exact le_refl _
  | succ m' _ ih =>
    have := monthLength_pos leap m'
    rw [daysBeforeMonth]
    omega

theorem daysBeforeMonth_nonneg (leap : Bool) (m : Nat) : 0 ≤ daysBeforeMonth leap m :=
  daysBeforeMonth_mono leap (Nat.zero_le m)

/-- Twelve months are the year. -/
theorem daysBeforeMonth_twelve (leap : Bool) : daysBeforeMonth leap 12 = yearLength leap := by
  cases leap <;> decide

/-- The month of a day of the year. -/
theorem month_unique {leap : Bool} {m m' : Nat} {n : Int} (h : daysBeforeMonth leap m ≤ n)
    (hlt : n < daysBeforeMonth leap (m + 1)) (h' : daysBeforeMonth leap m' ≤ n)
    (hlt' : n < daysBeforeMonth leap (m' + 1)) : m = m' := by
  by_contra hne
  rcases Nat.lt_or_gt_of_ne hne with hm | hm
  · have := daysBeforeMonth_mono leap (show m + 1 ≤ m' from hm)
    omega
  · have := daysBeforeMonth_mono leap (show m' + 1 ≤ m from hm)
    omega

/-- The year of a day. -/
theorem exists_year (n : Int) : ∃ y, daysBeforeYear y < n ∧ n ≤ daysBeforeYear (y + 1) := by
  -- the mean year gives it, give or take one
  have hlow : daysBeforeYear (n * 400 / 146097) < n := by
    unfold daysBeforeYear
    omega
  have hhigh : n ≤ daysBeforeYear (n * 400 / 146097 + 1 + 1 + 1) := by
    unfold daysBeforeYear
    omega
  by_cases h1 : n ≤ daysBeforeYear (n * 400 / 146097 + 1)
  · exact ⟨_, hlow, h1⟩
  · by_cases h2 : n ≤ daysBeforeYear (n * 400 / 146097 + 1 + 1)
    · exact ⟨_, not_le.mp h1, h2⟩
    · exact ⟨_, not_le.mp h2, hhigh⟩

/-- The month of a day of the year. -/
theorem exists_month (leap : Bool) {n : Int} (h : 0 ≤ n) (hlt : n < yearLength leap) :
    ∃ m < 12, daysBeforeMonth leap m ≤ n ∧ n < daysBeforeMonth leap (m + 1) := by
  rw [← daysBeforeMonth_twelve] at hlt
  generalize 12 = k at hlt ⊢
  induction k with
  | zero =>
    rw [daysBeforeMonth] at hlt
    omega
  | succ k ih =>
    by_cases hk : n < daysBeforeMonth leap k
    · obtain ⟨m, hm, hmonth⟩ := ih hk
      exact ⟨m, by omega, hmonth⟩
    · exact ⟨k, by omega, not_lt.mp hk, hlt⟩

/-- A day of the calendar. -/
structure Date where
  year : Int
  month : Nat
  day : Int
  month_lt : month < 12
  day_pos : 1 ≤ day
  day_le : day ≤ monthLength (isLeap year) month

namespace Date

/-- The days of its year before a date. -/
def yearDay (d : Date) : Int := daysBeforeMonth (isLeap d.year) d.month + d.day - 1

/-- The number of a date. -/
def number (d : Date) : Int := daysBeforeYear d.year + d.yearDay + 1

/-- 0 is Sunday. The first day of the year 1 was a Monday. -/
def weekday (d : Date) : Int := d.number % 7

theorem yearDay_nonneg (d : Date) : 0 ≤ d.yearDay := by
  have hmonth := daysBeforeMonth_nonneg (isLeap d.year) d.month
  have hpos := d.day_pos
  rw [yearDay]
  omega

theorem yearDay_lt (d : Date) : d.yearDay < yearLength (isLeap d.year) := by
  have hmono := daysBeforeMonth_mono (isLeap d.year) d.month_lt
  have hle := d.day_le
  rw [daysBeforeMonth_twelve, daysBeforeMonth] at hmono
  rw [yearDay]
  omega

/-- The first of January. -/
def newYear (y : Int) : Date := ⟨y, 0, 1, by decide, le_refl 1, by simp [monthLength]⟩

theorem newYear_number (y : Int) : (newYear y).number = daysBeforeYear y + 1 := by
  simp only [number, yearDay, newYear, daysBeforeMonth]
  omega

/-- A number is that of one date only. -/
theorem number_injective : Function.Injective number := by
  intro d d' h
  have hyear : d.year = d'.year := by
    have h0 := d.yearDay_nonneg
    have h1 := d.yearDay_lt
    have h0' := d'.yearDay_nonneg
    have h1' := d'.yearDay_lt
    unfold number at h
    by_contra hne
    rcases lt_or_gt_of_ne hne with hlt | hlt
    · have := daysBeforeYear_lt hlt
      omega
    · have := daysBeforeYear_lt hlt
      omega
  obtain ⟨y, m, n, hm, hpos, hle⟩ := d
  obtain ⟨y', m', n', hm', hpos', hle'⟩ := d'
  obtain rfl : y = y' := hyear
  have hday : daysBeforeMonth (isLeap y) m + n = daysBeforeMonth (isLeap y) m' + n' := by
    simp only [number, yearDay] at h
    omega
  obtain rfl : m = m' := by
    refine @month_unique (isLeap y) m m' (daysBeforeMonth (isLeap y) m + n - 1) ?_ ?_ ?_ ?_
    · omega
    · rw [daysBeforeMonth]
      omega
    · omega
    · rw [daysBeforeMonth]
      omega
  obtain rfl : n = n' := by omega
  rfl

/-- Every number is that of a date. -/
theorem exists_number (n : Int) : ∃ d : Date, d.number = n := by
  obtain ⟨y, hlt, hle⟩ := exists_year n
  rw [daysBeforeYear_succ] at hle
  obtain ⟨m, hm, hfirst, hlast⟩ := exists_month (isLeap y) (n := n - daysBeforeYear y - 1) (by omega) (by omega)
  rw [daysBeforeMonth] at hlast
  refine ⟨⟨y, m, n - daysBeforeYear y - daysBeforeMonth (isLeap y) m, hm, by omega, by omega⟩, ?_⟩
  simp only [number, yearDay]
  omega

/-- The year of a number, from below. -/
theorem le_year {d : Date} {y : Int} (h : daysBeforeYear y < d.number) : y ≤ d.year := by
  by_contra hgt
  have hlt := daysBeforeYear_lt (not_le.mp hgt)
  have h1 := d.yearDay_lt
  unfold number at h
  omega

/-- And from above. -/
theorem year_lt {d : Date} {y : Int} (h : d.number ≤ daysBeforeYear y) : d.year < y := by
  have h0 := d.yearDay_nonneg
  have hnumber : d.number = daysBeforeYear d.year + d.yearDay + 1 := rfl
  by_contra hge
  rcases eq_or_lt_of_le (not_lt.mp hge) with heq | hlt
  · rw [← heq] at hnumber
    omega
  · have := daysBeforeYear_lt hlt
    have := (yearLength_bounds (isLeap y)).1
    omega

/-- The last of December. -/
def lastDay (y : Int) : Date := ⟨y, 11, 31, by decide, by decide, by simp [monthLength]⟩

theorem lastDay_yearDay (y : Int) : (lastDay y).yearDay = yearLength (isLeap y) - 1 := by
  have htwelve := daysBeforeMonth_twelve (isLeap y)
  have hlen : monthLength (isLeap y) 11 = 31 := by simp [monthLength]
  rw [daysBeforeMonth, hlen] at htwelve
  simp only [yearDay, lastDay]
  omega

theorem lastDay_number (y : Int) : (lastDay y).number = daysBeforeYear (y + 1) := by
  have hday := lastDay_yearDay y
  have hyear : (lastDay y).year = y := rfl
  rw [number, hday, hyear, daysBeforeYear_succ]
  omega

/-- The same day of another year of the kind. -/
def inYear (d : Date) (y : Int) (h : isLeap y = isLeap d.year) : Date :=
  ⟨y, d.month, d.day, d.month_lt, d.day_pos, by rw [h]; exact d.day_le⟩

theorem inYear_yearDay (d : Date) {y : Int} (h : isLeap y = isLeap d.year) : (d.inYear y h).yearDay = d.yearDay := by
  simp only [yearDay, inYear, h]

theorem inYear_number (d : Date) {y : Int} (h : isLeap y = isLeap d.year) :
    (d.inYear y h).number = d.number + (daysBeforeYear y - daysBeforeYear d.year) := by
  have hyear : (d.inYear y h).year = y := rfl
  rw [number, inYear_yearDay, hyear, number]
  omega

/-- The day before or after is of the same month or the next one. -/
theorem month_close {d d' : Date} (hyear : d'.year = d.year) (h : d'.number ≤ d.number + 1) :
    d'.month ≤ d.month + 1 := by
  by_contra hgt
  have hmono := daysBeforeMonth_mono (isLeap d.year) (show d.month + 2 ≤ d'.month by omega)
  have hlen : 28 ≤ monthLength (isLeap d.year) (d.month + 1) := by
    unfold monthLength
    split <;> (try split) <;> decide
  have hle := d.day_le
  have hpos := d'.day_pos
  simp only [number, yearDay, hyear] at h
  rw [daysBeforeMonth, daysBeforeMonth] at hmono
  omega

/-- The next day is of the same year, or the first of the next one. -/
theorem next_year {d d' : Date} (hyear : d.year < d'.year) (h : d'.number ≤ d.number + 1) :
    d' = newYear (d.year + 1) ∧ d = lastDay d.year := by
  have hstart := daysBeforeYear_lt hyear
  have hnext := daysBeforeYear_succ d.year
  have h1 := d.yearDay_lt
  have h0 := d'.yearDay_nonneg
  have hnumber : d.number = daysBeforeYear d.year + d.yearDay + 1 := rfl
  have hnumber' : d'.number = daysBeforeYear d'.year + d'.yearDay + 1 := rfl
  refine ⟨number_injective ?_, number_injective ?_⟩
  · rw [newYear_number]
    omega
  · rw [lastDay_number]
    omega

end Date

/-- A second of the calendar. -/
structure Civil where
  date : Date
  hour : Int
  minute : Int
  second : Int
  hour_nonneg : 0 ≤ hour
  hour_lt : hour < 24
  minute_nonneg : 0 ≤ minute
  minute_lt : minute < 60
  second_nonneg : 0 ≤ second
  second_lt : second < 60

namespace Civil

/-- Seconds since the midnight that day 0 begins with. -/
def seconds (c : Civil) : Int := ((c.date.number * 24 + c.hour) * 60 + c.minute) * 60 + c.second

/-- A second is that of one civil time only. -/
theorem seconds_injective : Function.Injective seconds := by
  intro c c' h
  obtain ⟨d, h1, m1, s1, _, _, _, _, _, _⟩ := c
  obtain ⟨d', h2, m2, s2, _, _, _, _, _, _⟩ := c'
  simp only [seconds] at h
  obtain rfl : d = d' := Date.number_injective (by omega)
  obtain ⟨rfl, rfl, rfl⟩ : h1 = h2 ∧ m1 = m2 ∧ s1 = s2 := by omega
  rfl

/-- Every second is that of a civil time. -/
theorem exists_seconds (n : Int) : ∃ c : Civil, c.seconds = n := by
  obtain ⟨d, hd⟩ := Date.exists_number (n / 86400)
  refine ⟨⟨d, n % 86400 / 60 / 60, n % 86400 / 60 % 60, n % 86400 % 60, by omega, by omega, by omega, by omega,
    by omega,
    by omega⟩, ?_⟩
  simp only [seconds, hd]
  omega

end Civil

/-- The number of the day that is `day - 1` days after the first of a month, where
months and days may be out of their range. -/
def dayNumber (year month day : Int) : Int :=
  daysBeforeYear (year + month / 12) + daysBeforeMonth (isLeap (year + month / 12)) (month % 12).toNat + day

theorem Date.dayNumber_eq (d : Date) : dayNumber d.year d.month d.day = d.number := by
  have hm := d.month_lt
  have hdiv : (d.month : Int) / 12 = 0 := by omega
  have hmod : ((d.month : Int) % 12).toNat = d.month := by omega
  rw [dayNumber, hdiv, hmod, Int.add_zero, Date.number, Date.yearDay]
  omega

end Libc370.Calendar
