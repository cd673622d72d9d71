import Libc370.Time.Scalar

/-! `struct tm`, `gmtime_r()` and `timegm()`.

A `time_t` is an unsigned 32-bit count of seconds since 1970. `gmtime_r()` breaks it
down into the nine fields, all of which it sets; `Tm.Shows` says which second of the
calendar the fields show. `timegm()` is the way back. It looks at the year alone to
tell whether a time is in its range, and counts the days of months out of their range
with a formula made for those of one year. -/
namespace Libc370.Time

open Calendar

/-- `struct tm`. -/
structure Tm where
  sec : Int
  min : Int
  hour : Int
  mday : Int
  mon : Int
  year : Int
  wday : Int
  yday : Int
  isdst : Int
  deriving DecidableEq

/-- `EPOCH`: the scalar of 1970-01-01. -/
def epoch : Int := 719163

/-- The fields are those of a civil time; `tm_isdst` is left open. -/
structure Tm.Is (tm : Tm) (c : Civil) : Prop where
  sec : tm.sec = c.second
  min : tm.min = c.minute
  hour : tm.hour = c.hour
  mday : tm.mday = c.date.day
  mon : tm.mon = c.date.month
  year : tm.year + 1900 = c.date.year
  wday : tm.wday = c.date.weekday
  yday : tm.yday = c.date.yearDay

/-- The fields show the second `n` since 1970. -/
def Tm.Shows (tm : Tm) (n : Int) : Prop := ∃ c : Civil, c.seconds = n + epoch * 86400 ∧ tm.Is c

/-- Fields that show the same second are the same. -/
theorem Tm.Shows.unique {tm tm' : Tm} {n : Int} (h : tm.Shows n) (h' : tm'.Shows n)
    (hdst : tm.isdst = tm'.isdst) : tm = tm' := by
  obtain ⟨c, hc, his⟩ := h
  obtain ⟨c', hc', his'⟩ := h'
  obtain rfl : c = c' := Civil.seconds_injective (hc.trans hc'.symm)
  have hyear : tm.year = tm'.year := add_right_cancel (his.year.trans his'.year.symm)
  obtain ⟨sec, min, hour, mday, mon, year, wday, yday, isdst⟩ := tm
  obtain ⟨sec', min', hour', mday', mon', year', wday', yday', isdst'⟩ := tm'
  dsimp only at hyear hdst
  rw [Tm.mk.injEq]
  exact ⟨his.sec.trans his'.sec.symm, his.min.trans his'.min.symm, his.hour.trans his'.hour.symm,
    his.mday.trans his'.mday.symm, his.mon.trans his'.mon.symm, hyear, his.wday.trans his'.wday.symm,
    his.yday.trans his'.yday.symm, hdst⟩

/-- `dow()`. -/
def dow (y m d : Int) : Int :=
  ((((m + 9) % 12 + 1) * 2 ^ 4) % 27 + d + 1 + (y.tmod 400 + 400) + (y.tmod 400 + 400) / 4 -
    (y.tmod 400 + 400) / 100 + (if m ≤ 2 then if isleap y then 5 else 6 else 0)) % 7

/-- `gmtime_r()`. -/
def gmtimeR (timer : Int) : Option Tm := do
  let days := timer / (60 * 60 * 24)
  let secs := timer % (60 * 60 * 24)
  let (yr, mo, da) ← stymd (i32 (u32 (days + epoch)))
  let year := i32 (yr - 1900)
  return {
    year
    mon := i32 (mo - 1)
    mday := i32 da
    yday := i32 (ymdts (u32 (year + 1900)) mo da - ymdts (u32 (year + 1900)) 1 1)
    wday := dow (year + 1900) mo da
    isdst := -1
    sec := secs % 60
    min := secs / 60 % 60
    hour := secs / 60 / 60 }

/-- `timegm()`: its value, and what it leaves in the caller's structure. -/
def timegm (timeptr : Tm) : Option (Int × Tm) :=
  if timeptr.year < 70 ∨ 205 < timeptr.year then some (u32 (-1), timeptr)
  else do
    let tt := u32 (ymdts (u32 (timeptr.year + 1900)) (u32 (timeptr.mon + 1)) (u32 timeptr.mday) - epoch)
    let tt := u32 (tt * 24 + timeptr.hour)
    let tt := u32 (tt * 60 + timeptr.min)
    let tt := u32 (tt * 60 + timeptr.sec)
    let tm ← gmtimeR tt
    return (tt, tm)

/-! ### `gmtime_r()` shows its time -/

/-- The weekday that a year ends with, by its place in the cycle. -/
theorem year_end (y : Int) :
    (daysBeforeYear (y + 1) - ((y % 400 + 400) + (y % 400 + 400) / 4 - (y % 400 + 400) / 100 + 1)) % 7 = 0 := by
  have h4 : y / 4 = 100 * (y / 400) + y % 400 / 4 := by omega
  have h100 : y / 100 = 4 * (y / 400) + y % 400 / 100 := by omega
  have h4' : (y % 400 + 400) / 4 = y % 400 / 4 + 100 := by omega
  have h100' : (y % 400 + 400) / 100 = y % 400 / 100 + 4 := by omega
  rw [daysBeforeYear, Int.add_sub_cancel, h4, h100, h4', h100']
  omega

theorem dow_eq (d : Date) (h : 1 ≤ d.year) : dow d.year (d.month + 1) d.day = d.weekday := by
  obtain ⟨y, m, n, hm, hpos, hle⟩ := d
  dsimp only at h ⊢
  have hy : 0 ≤ y := by omega
  have hend := year_end y
  have hsucc := daysBeforeYear_succ y
  simp only [dow, Int.tmod_eq_emod_of_nonneg hy, Date.weekday, Date.number, Date.yearDay]
  clear hle
  generalize daysBeforeYear (y + 1) = e at hend hsucc
  generalize daysBeforeYear y = b at hsucc ⊢
  rcases Bool.eq_false_or_eq_true (isLeap y) with hleap | hleap
  · have hleap' : isleap y = true := hleap
    simp only [hleap, hleap'] at hsucc ⊢
    interval_cases m <;> simp [daysBeforeMonth, monthLength, yearLength] at hsucc ⊢ <;> omega
  · have hleap' : isleap y = false := hleap
    simp only [hleap, hleap'] at hsucc ⊢
    interval_cases m <;> simp [daysBeforeMonth, monthLength, yearLength] at hsucc ⊢ <;> omega

/-- **`gmtime_r()` shows its time**, whatever the count of seconds. -/
theorem gmtimeR_shows {t : Int} (h : 0 ≤ t) (hlt : t < 2 ^ 32) :
    ∃ tm, gmtimeR t = some tm ∧ tm.Shows t ∧ tm.isdst = -1 := by
  have hdays : u32 (t / 86400 + epoch) = t / 86400 + epoch := by
    refine u32_eq ?_ ?_ <;> unfold epoch <;> omega
  have hdays' : i32 (t / 86400 + epoch) = t / 86400 + epoch := by
    refine i32_eq ?_ ?_ <;> unfold epoch <;> omega
  obtain ⟨d, hd, hy, hstymd⟩ := @stymd_spec (t / 86400 + epoch) (by unfold epoch; omega)
    (by unfold epoch; omega)
  have h0 := d.yearDay_nonneg
  have h1 := d.yearDay_lt
  have hlen := (yearLength_bounds (isLeap d.year)).2
  have hm := d.month_lt
  have hpos := d.day_pos
  have hbefore := daysBeforeMonth_nonneg (isLeap d.year) d.month
  have hyear : d.year ≤ 14699 := by
    unfold epoch Date.number daysBeforeYear at hd
    omega
  have hyday : i32 (ymdts d.year (d.month + 1) d.day - ymdts d.year 1 1) = d.yearDay := by
    have hfirst : ymdts d.year 1 1 = daysBeforeYear d.year + 1 :=
      (ymdts_number (Date.newYear d.year) hy hyear).trans (Date.newYear_number d.year)
    rw [ymdts_number d hy hyear, hfirst, Date.number]
    have hdiff : daysBeforeYear d.year + d.yearDay + 1 - (daysBeforeYear d.year + 1) = d.yearDay := by omega
    rw [hdiff]
    exact i32_eq (by omega) (by omega)
  have hy1900 : i32 (d.year - 1900) = d.year - 1900 := i32_eq (by omega) (by omega)
  have hback : u32 (d.year - 1900 + 1900) = d.year := by
    rw [Int.sub_add_cancel]
    exact u32_eq (by omega) (by omega)
  have hmon : i32 ((d.month : Int) + 1 - 1) = d.month := by
    rw [Int.add_sub_cancel]
    exact i32_eq (by omega) (by omega)
  have hmday : i32 d.day = d.day := by
    rw [Date.yearDay] at h1
    exact i32_eq (by omega) (by omega)
  refine ⟨_, by simp only [gmtimeR, Int.reduceMul, hdays, hdays', hstymd]; rfl, ?_, rfl⟩
  refine ⟨⟨d, t % 86400 / 60 / 60, t % 86400 / 60 % 60, t % 86400 % 60, by omega, by omega, by omega, by omega,
    by omega, by omega⟩, ?_, ?_⟩
  · simp only [Civil.seconds, hd]
    omega
  · refine ⟨rfl, rfl, rfl, hmday, hmon, ?_, ?_, ?_⟩
    · dsimp only
      omega
    · simp only [hy1900, Int.sub_add_cancel]
      exact dow_eq d hy
    · simp only [hy1900, hback, hyday]

/-! ### `timegm()` -/

/-- The second since 1970 that the fields denote, in or out of their ranges. -/
def Tm.denoted (tm : Tm) : Int :=
  (((dayNumber (tm.year + 1900) tm.mon tm.mday - epoch) * 24 + tm.hour) * 60 + tm.min) * 60 + tm.sec

/-- The days before the month, as `__ymdts()` counts them. -/
def Tm.daysCounted (tm : Tm) : Int :=
  mtd (u32 (tm.mon + 1)) - february (isLeap (tm.year + 1900)) (u32 (tm.mon + 1)) + daysBeforeYear (tm.year + 1900)

/-- They are those of the calendar, or differ from them by a multiple of `2 ^ 32` seconds. -/
def Tm.MonthCounts (tm : Tm) : Prop := 2 ^ 25 ∣ tm.daysCounted - dayNumber (tm.year + 1900) tm.mon 0

/-- What is asked of `timegm()`. -/
def Meets (tm : Tm) : Prop :=
  if 0 ≤ tm.denoted ∧ tm.denoted ≤ 2 ^ 32 - 2 then
    ∃ tm', timegm tm = some (tm.denoted, tm') ∧ tm'.Shows tm.denoted
  else timegm tm = some (2 ^ 32 - 1, tm)

/-- The months of the year are counted right, and the one after. -/
theorem monthCounts_of_range {tm : Tm} (h : 0 ≤ tm.mon) (hle : tm.mon ≤ 12) : tm.MonthCounts := by
  obtain ⟨m, hm⟩ := Int.eq_ofNat_of_zero_le h
  have hmo : u32 (tm.mon + 1) = (m : Int) + 1 := by
    rw [u32_eq (by omega) (by omega), hm]
  have hcount : tm.daysCounted = dayNumber (tm.year + 1900) tm.mon 0 := by
    rw [Tm.daysCounted, hmo, ← mtd_eq _ (by omega), dayNumber, hm]
    by_cases hlast : m = 12
    · subst hlast
      have hdiv : ((12 : Nat) : Int) / 12 = 1 := by decide
      have hmod : (((12 : Nat) : Int) % 12).toNat = 0 := by decide
      rw [hdiv, hmod, daysBeforeYear_succ, daysBeforeMonth_twelve, daysBeforeMonth]
      omega
    · have hdiv : (m : Int) / 12 = 0 := by omega
      have hmod : ((m : Int) % 12).toNat = m := by omega
      simp only [hdiv, hmod, Int.add_zero]
      omega
  rw [Tm.MonthCounts, hcount, Int.sub_self]
  exact dvd_zero _

theorem u32_i32 (x y : Int) : u32 (i32 x + y) = u32 (x + y) := by
  have h : x.bmod (2 ^ 32) % 2 ^ 32 = x % 2 ^ 32 := Int.bmod_emod
  unfold u32 i32
  rw [Int.add_emod, h, ← Int.add_emod]

/-- The seconds `timegm()` counts. -/
def Tm.counted (tm : Tm) : Int :=
  u32 (tm.denoted + 86400 * (tm.daysCounted - dayNumber (tm.year + 1900) tm.mon 0))

/-- `timegm()` shows what it counts. -/
theorem timegm_spec {tm : Tm} (h : 70 ≤ tm.year) (hle : tm.year ≤ 205) :
    ∃ tm', timegm tm = some (tm.counted, tm') ∧ tm'.Shows tm.counted ∧ tm'.isdst = -1 := by
  have hyear : u32 (tm.year + 1900) = tm.year + 1900 := u32_eq (by omega) (by omega)
  have hout : ¬ (tm.year < 70 ∨ 205 < tm.year) := by omega
  have hsecs : u32 (u32 (u32 (u32 (ymdts (u32 (tm.year + 1900)) (u32 (tm.mon + 1)) (u32 tm.mday) - epoch) * 24 +
      tm.hour) * 60 + tm.min) * 60 + tm.sec) = tm.counted := by
    rw [hyear, ymdts_eq (by omega) (by omega), Int.sub_eq_add_neg, u32_i32]
    simp only [Tm.counted, Tm.denoted, Tm.daysCounted, dayNumber, u32]
    omega
  obtain ⟨tm', hgm, hshows, hdst⟩ := gmtimeR_shows (t := tm.counted) (Int.emod_nonneg _ (by decide))
    (Int.emod_lt_of_pos _ (by decide))
  refine ⟨tm', ?_, hshows, hdst⟩
  simp only [timegm, if_neg hout, hsecs, hgm]
  rfl

/-- In the range, the count is right if and only if the month is. -/
theorem counted_eq_iff {tm : Tm} (h : 0 ≤ tm.denoted) (hlt : tm.denoted < 2 ^ 32) :
    tm.counted = tm.denoted ↔ tm.MonthCounts := by
  unfold Tm.counted Tm.MonthCounts u32
  generalize tm.daysCounted - dayNumber (tm.year + 1900) tm.mon 0 = d
  rw [Int.dvd_iff_emod_eq_zero]
  omega

/-- The last second that fits shows a year that `timegm()` does not take. -/
theorem last_second {tm : Tm} (h : tm.Shows (2 ^ 32 - 1)) : tm.year = 206 := by
  obtain ⟨c, hc, his⟩ := h
  have hlast : c = ⟨⟨2106, 1, 7, by decide, by decide, by decide⟩, 6, 28, 15, by decide, by decide, by decide,
      by decide, by decide, by decide⟩ := Civil.seconds_injective (hc.trans (by decide))
  have hyear := his.year
  rw [hlast] at hyear
  dsimp only at hyear
  omega

/-- **When `timegm()` does what it is for**, in the years it takes: when the time is in
range and the month is counted right. -/
theorem timegm_meets_iff (tm : Tm) (h : 70 ≤ tm.year) (hle : tm.year ≤ 205) :
    Meets tm ↔ 0 ≤ tm.denoted ∧ tm.denoted ≤ 2 ^ 32 - 2 ∧ tm.MonthCounts := by
  obtain ⟨tm', hrun, hshows, -⟩ := timegm_spec h hle
  unfold Meets
  rw [hrun]
  split
  · next hrange =>
    have hiff := counted_eq_iff hrange.1 (by omega)
    constructor
    · rintro ⟨tm'', heq, -⟩
      rw [Option.some_inj, Prod.mk.injEq] at heq
      exact ⟨hrange.1, hrange.2, hiff.mp heq.1⟩
    · rintro ⟨-, -, hmonth⟩
      have heq := hiff.mpr hmonth
      rw [heq] at hshows ⊢
      exact ⟨tm', rfl, hshows⟩
  · next hrange =>
    refine iff_of_false ?_ (fun hright => hrange ⟨hright.1, hright.2.1⟩)
    intro heq
    rw [Option.some_inj, Prod.mk.injEq] at heq
    obtain ⟨hcount, rfl⟩ := heq
    rw [hcount] at hshows
    have := last_second hshows
    omega

/-- Midnight on the first of a month. -/
def firstOf (year mon : Int) : Tm :=
  { sec := 0, min := 0, hour := 0, mday := 1, mon, year, wday := 0, yday := 0, isdst := 0 }

theorem timegm_meets_october : Meets (firstOf 126 9) :=
  (timegm_meets_iff (firstOf 126 9) (by decide) (by decide)).mpr
    ⟨by decide, by decide, monthCounts_of_range (by decide) (by decide)⟩

/-- The first of the fourteenth month of 2024 is taken for the last of January 2025. -/
theorem timegm_fourteenth_month : ¬ Meets (firstOf 124 13) := by
  intro h
  have hyear : 70 ≤ (firstOf 124 13).year := by decide
  obtain ⟨tm', hrun, -, -⟩ := timegm_spec hyear (by decide)
  rw [Meets, if_pos (by decide), hrun] at h
  obtain ⟨tm'', heq, -⟩ := h
  rw [Option.some_inj, Prod.mk.injEq] at heq
  have hcount : (firstOf 124 13).counted ≠ (firstOf 124 13).denoted := by decide
  exact hcount heq.1

end Libc370.Time
