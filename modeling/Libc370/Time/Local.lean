import Libc370.Time.Timegm

/-! Local time in 32 bits: `localtime_r()` and `mktime()`.

The zone offset (`__tzget()`) is the first argument. `localtime_r()` adds it in an
unsigned word; `mktime()` reads the fields with `timegm()`, on a copy, and takes the
offset off again, with a test for either sign that the result is a time. -/
namespace Libc370.Time

open Calendar

/-- `localtime_r()`. -/
def localtimeR (tz timer : Int) : Option Tm := gmtimeR (u32 (timer + tz))

/-- `mktime()`: its value, and what it leaves in the caller's structure. -/
def mktime (tz : Int) (timeptr : Tm) : Option (Int × Tm) := do
  let (t, _) ← timegm timeptr
  if t = u32 (-1) then return (u32 (-1), timeptr)
  if 0 ≤ tz then
    let n := u32 tz
    if t < n then return (u32 (-1), timeptr)
    let tt := u32 (t - n)
    let tm ← localtimeR tz tt
    return (tt, tm)
  else
    let n := u32 (-tz)
    if u32 (0xFFFFFFFE - t) < n then return (u32 (-1), timeptr)
    let tt := u32 (t + n)
    let tm ← localtimeR tz tt
    return (tt, tm)

/-- The first second of 2106. -/
def end2105 : Int := 86400 * (daysBeforeYear 2106 - daysBeforeYear 1970)

theorem denoted_of_is {tm : Tm} {c : Civil} (h : tm.Is c) : tm.denoted = c.seconds - epoch * 86400 := by
  have hday := c.date.dayNumber_eq
  rw [Tm.denoted, h.year, h.mon, h.mday, hday, h.hour, h.min, h.sec, Civil.seconds]
  omega

/-- The day of a civil time. -/
theorem civil_day {c : Civil} {n : Int} (h : c.seconds = n + epoch * 86400) : c.date.number = n / 86400 + epoch := by
  have h0 := c.hour_nonneg
  have h1 := c.hour_lt
  have h2 := c.minute_nonneg
  have h3 := c.minute_lt
  have h4 := c.second_nonneg
  have h5 := c.second_lt
  unfold Civil.seconds at h
  omega

/-- `timegm()` of the fields of a time from 1970 to 2105 is that time. -/
theorem timegm_of_shows {tm : Tm} {n : Int} (h : tm.Shows n) (h0 : 0 ≤ n) (hlt : n < end2105) :
    ∃ tm', timegm tm = some (n, tm') ∧ tm'.Shows n := by
  obtain ⟨c, hc, his⟩ := h
  have hd := civil_day hc
  have hbound : end2105 = 86400 * 49673 := by decide
  have hepoch : daysBeforeYear 1970 + 1 = epoch := by decide
  have hlast : daysBeforeYear 2106 + 1 = epoch + 49673 := by decide
  have hyear := his.year
  have hlow : 1970 ≤ c.date.year := Date.le_year (by omega)
  have hhigh : c.date.year < 2106 := Date.year_lt (by omega)
  have hden : tm.denoted = n := by
    rw [denoted_of_is his, hc]
    omega
  have hmonth : tm.MonthCounts := by
    have hm := c.date.month_lt
    have hmon := his.mon
    exact monthCounts_of_range (by omega) (by omega)
  obtain ⟨tm', hrun, hshows, -⟩ := @timegm_spec tm (by omega) (by omega)
  have hcount : tm.counted = n := ((counted_eq_iff (by omega) (by omega)).mpr hmonth).trans hden
  rw [hcount] at hrun hshows
  exact ⟨tm', hrun, hshows⟩

/-- **`mktime()` undoes `localtime_r()`** while the local time stays in 1970 to 2105. -/
theorem mktime_localtimeR {t tz : Int} (ht : 0 ≤ t) (ht' : t < 2 ^ 32) (htz : -2 ^ 31 ≤ tz) (htz' : tz < 2 ^ 31)
    (h0 : 0 ≤ t + tz) (hlt : t + tz < end2105) :
    ∃ tm, localtimeR tz t = some tm ∧ tm.Shows (t + tz) ∧ mktime tz tm = some (t, tm) := by
  have hbound : end2105 = 86400 * 49673 := by decide
  have hminus : u32 (-1) = 2 ^ 32 - 1 := by decide
  obtain ⟨tm, hrun, hshows, -⟩ := @gmtimeR_shows (t + tz) h0 (by omega)
  have hlocal : localtimeR tz t = some tm := by
    rw [localtimeR, u32_eq h0 (by omega), hrun]
  obtain ⟨tm', htimegm, -⟩ := timegm_of_shows hshows h0 hlt
  refine ⟨tm, hlocal, hshows, ?_⟩
  have hvalue : ¬ t + tz = u32 (-1) := by omega
  simp only [mktime, htimegm, Option.bind_eq_bind, Option.bind_some, if_neg hvalue]
  by_cases hsign : 0 ≤ tz
  · have hn : u32 tz = tz := u32_eq hsign (by omega)
    have hback : u32 (t + tz - tz) = t := by
      rw [Int.add_sub_cancel]
      exact u32_eq ht ht'
    rw [if_pos hsign, hn, if_neg (by omega), hback, hlocal]
    rfl
  · have hn : u32 (-tz) = -tz := u32_eq (by omega) (by omega)
    have hroom : u32 (0xFFFFFFFE - (t + tz)) = 0xFFFFFFFE - (t + tz) := u32_eq (by omega) (by omega)
    rw [if_neg hsign, hn, hroom]
    by_cases hlast : t = 2 ^ 32 - 1
    · -- the one time that is not a time: -1 all the same
      rw [if_pos (by omega), hminus, hlast]
      rfl
    · have hback : u32 (t + tz + -tz) = t := by
        rw [Int.add_neg_cancel_right]
        exact u32_eq ht ht'
      rw [if_neg (by omega), hback, hlocal]
      rfl

/-- `__stymd()` undoes `__ymdts()`. -/
theorem stymd_ymdts {d : Date} (h : 1970 ≤ d.year) (hle : d.year ≤ 2105) :
    stymd (ymdts d.year (d.month + 1) d.day) = some (d.year, (d.month : Int) + 1, d.day) := by
  have h0 := d.yearDay_nonneg
  have h1 := d.yearDay_lt
  have hlen := (yearLength_bounds (isLeap d.year)).2
  rw [ymdts_number d (by omega) (by omega)]
  obtain ⟨d', hd', -, hstymd⟩ := @stymd_spec d.number (by unfold Date.number daysBeforeYear; omega)
    (by unfold Date.number daysBeforeYear; omega)
  obtain rfl := Date.number_injective hd'
  exact hstymd

/-- `__ymdts()` undoes `__stymd()`, which gives a date. -/
theorem ymdts_stymd {scalar : Int} (h : daysBeforeYear 1970 < scalar) (hle : scalar ≤ daysBeforeYear 2106) :
    ∃ d : Date, stymd scalar = some (d.year, (d.month : Int) + 1, d.day) ∧
      ymdts d.year (d.month + 1) d.day = scalar := by
  have hlow : daysBeforeYear 1970 = 719162 := by decide
  have hhigh : daysBeforeYear 2106 = 768835 := by decide
  obtain ⟨d, hd, hy, hstymd⟩ := @stymd_spec scalar (by omega) (by omega)
  have h0 := d.yearDay_nonneg
  refine ⟨d, hstymd, ?_⟩
  rw [ymdts_number d hy (by unfold Date.number daysBeforeYear at hd; omega), hd]

/-- **The 32-bit conversions are inverse**: `mktime()` and `localtime_r()` for every
offset and every time whose local time stays in 1970 to 2105, `__stymd()` and
`__ymdts()` on the dates of these years. -/
theorem round_trips (t tz : BitVec 32) (h0 : 0 ≤ t.toNat + tz.toInt) (hlt : t.toNat + tz.toInt < end2105) (d : Date)
    (h : 1970 ≤ d.year) (hle : d.year ≤ 2105) (scalar : Int) (hs : daysBeforeYear 1970 < scalar)
    (hs' : scalar ≤ daysBeforeYear 2106) :
    (∃ tm, localtimeR tz.toInt t.toNat = some tm ∧ tm.Shows (t.toNat + tz.toInt) ∧
        mktime tz.toInt tm = some ((t.toNat : Int), tm)) ∧
      stymd (ymdts d.year (d.month + 1) d.day) = some (d.year, (d.month : Int) + 1, d.day) ∧
      ∃ d' : Date, stymd scalar = some (d'.year, (d'.month : Int) + 1, d'.day) ∧
        ymdts d'.year (d'.month + 1) d'.day = scalar := by
  have ht := t.isLt
  have htz := BitVec.le_toInt tz
  have htz' := @BitVec.toInt_lt 32 tz
  exact ⟨mktime_localtimeR (by omega) (by omega) (by omega) (by omega) h0 hlt, stymd_ymdts h hle, ymdts_stymd hs hs'⟩

theorem round_trips_hour_west :
    ∃ tm, localtimeR (-3600) 4102444800 = some tm ∧ tm.Shows 4102441200 ∧
      mktime (-3600) tm = some (4102444800, tm) :=
  (round_trips 4102444800 (-3600) (by decide) (by decide) (Date.newYear 2000) (by decide) (by decide) 719163 (by decide)
    (by decide)).1

end Libc370.Time
