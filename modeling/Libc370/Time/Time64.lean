import Libc370.Int64
import Libc370.Time.Timegm

/-! `gmtime64_r()` and `timegm64()` (`ext/time64`).

The 64-bit conversions count days in a `__64` and years in an `int`. `gmtime64_r()`
takes whole 400-year cycles out, then years, then months; `timegm64()` adds them up
again. The macro `IS_LEAP` adds 1900 to `tm_year` in an `int`, so it goes wrong in the
last 1900 years an `int` holds, and further on the year itself does. -/
namespace Libc370.Time

open Calendar Libc370.Int64

/-- `length_of_year[]`. -/
def lengthOfYear (leap : Bool) : Int := if leap then 366 else 365

/-- `days_in_month()`. -/
def daysInMonth (leap : Bool) (month : Nat) : Int :=
  if leap then [31, 29, 31, 30, 31, 30, 31, 31, 30, 31, 30, 31].getD month 0
  else [31, 28, 31, 30, 31, 30, 31, 31, 30, 31, 30, 31].getD month 0

/-- `julian_days_by_month()`. -/
def julianDaysByMonth (leap : Bool) (month : Nat) : Int :=
  if leap then [0, 31, 60, 91, 121, 152, 182, 213, 244, 274, 305, 335].getD month 0
  else [0, 31, 59, 90, 120, 151, 181, 212, 243, 273, 304, 334].getD month 0

/-- `IS_LEAP`. -/
def isLEAP (n : Int) : Bool :=
  let y := i32 (n + 1900)
  y.tmod 400 == 0 || (y.tmod 4 == 0 && y.tmod 100 != 0)

/-- The loop of `gmtime64_r()` over the years: the days that are left, and the year. -/
def yearsTurn (x : U64 × Int) : Loop.Turn (U64 × Int) (Option (U64 × Int)) :=
  let (m, year) := x
  let leap := isLEAP year
  if cmpI32 m (lengthOfYear leap) ≠ .lt then .again (subI32 m (lengthOfYear leap), i32 (year + 1))
  else .leave (some (m, year))

/-- The loop over the months: the days that are left, and the month. -/
def monthsTurn (leap : Bool) (x : U64 × Nat) : Loop.Turn (U64 × Nat) (Option (U64 × Nat)) :=
  let (m, mon) := x
  if cmpI32 m (daysInMonth leap mon) ≠ .lt then .again (subI32 m (daysInMonth leap mon), mon + 1)
  else .leave (some (m, mon))

/-- The days of `gmtime64_r()` from 2008 on, where that can be (`CHEAT_DAYS`, `CHEAT_YEARS`). -/
def skipCheat (m : U64) : U64 × Int := if cmpU32 m 13879 ≠ .lt then (subU32 m 13879, 108) else (m, 70)

/-- The days of `gmtime64_r()` without the cycles (`days_in_gregorian_cycle`,
`years_in_gregorian_cycle`). -/
def skipCycles (m : U64) (year : Int) : U64 × Int :=
  let cycles := toI32 (divU32 m 146097)
  if cycles ≠ 0 then
    (sub m (mulU32 (fromU32 146097) cycles), i32 (year + toI32 (mulU32 (fromU32 400) cycles)))
  else (m, year)

/-- What `gmtime64_r()` makes of the days since 1970: the days that are left of the year,
and the year. An unsigned number of days is never below 0; it falls with every turn. -/
def yearOfDays (tday : U64) : Option (U64 × Int) :=
  let (m, year) := skipCheat tday
  let (m, year) := skipCycles m year
  Loop.run (fun _ => none) yearsTurn (m.toNat + 1) (m, year)

/-- `gmtime64_r()`: `none` for the null pointer. It leaves `tm_isdst` as it was. -/
def gmtime64R (inTime : U64) (p : Tm) : Option (Option Tm) := do
  let (time, mod) := divmodU32 inTime 60
  let sec := toI32 mod
  let (time, mod) := divmodU32 time 60
  let min := toI32 mod
  let (time, mod) := divmodU32 time 24
  let hour := toI32 mod
  let wday : Int := toI32 (modU32 (addU32 time 4) 7)
  let wday := if wday < 0 then wday + 7 else wday
  let (m, year) ← yearOfDays time
  let leap := isLEAP year
  let (m, mon) ← Loop.run (fun _ => none) (monthsTurn leap) (m.toNat + 1) (m, 0)
  let p := { p with year }
  if p.year ≠ year then return none
  let i : Int := toI32 m
  return some { p with mday := i + 1, yday := julianDaysByMonth leap mon + i, sec, min, hour, mon, wday }

/-- The first loop of `timegm64()`: whole cycles, down to a year below 2371. -/
def cyclesTurn (x : U64 × Int) : Loop.Turn (U64 × Int) (Option (U64 × Int)) :=
  let (days, origYear) := x
  if 400 + 70 < origYear then .again (addU32 days 146097, origYear - 400) else .leave (some (days, origYear))

/-- The second loop: the years from 1970 up to it. -/
def daysTurn (origYear : Int) (x : U64 × Int) : Loop.Turn (U64 × Int) (Option U64) :=
  let (days, year) := x
  if year < origYear then .again (addI32 days (lengthOfYear (isLEAP year)), year + 1) else .leave (some days)

/-- `timegm64()`; a year before 1970 gives -1. -/
def timegm64 (date : Tm) : Option U64 := do
  let (days, origYear) ← Loop.run (fun _ => none) cyclesTurn (date.year.toNat + 1) (0, date.year)
  if origYear < 70 then return subI32 0 1
  let days ← Loop.run (fun _ => none) (daysTurn origYear) (origYear.toNat + 1) (days, 70)
  let days := addI32 days (julianDaysByMonth (isLEAP origYear) date.mon.toNat)
  let days := addI32 days (i32 (date.mday - 1))
  let seconds := mulI32 days (60 * 60 * 24)
  let seconds := addI32 seconds (i32 (date.hour * 60 * 60))
  let seconds := addI32 seconds (i32 (date.min * 60))
  return addI32 seconds date.sec

/-! ### The tables -/

theorem lengthOfYear_eq (leap : Bool) : lengthOfYear leap = yearLength leap := rfl

theorem daysInMonth_eq (leap : Bool) {m : Nat} (h : m < 12) : daysInMonth leap m = monthLength leap m := by
  cases leap <;> interval_cases m <;> decide

theorem julianDaysByMonth_eq (leap : Bool) {m : Nat} (h : m < 12) :
    julianDaysByMonth leap m = daysBeforeMonth leap m := by
  cases leap <;> interval_cases m <;> decide

/-- `IS_LEAP` is right where the sum fits. -/
theorem isLEAP_eq {n : Int} (h : -2 ^ 31 ≤ n) (hlt : n < 2 ^ 31 - 1900) : isLEAP n = isLeap (n + 1900) := by
  have hi : i32 (n + 1900) = n + 1900 := i32_eq (by omega) (by omega)
  rw [isLEAP, hi, Bool.eq_iff_iff, isLeap_iff]
  simp only [Bool.or_eq_true, Bool.and_eq_true, beq_iff_eq, bne_iff_ne, ne_eq, ← Int.dvd_iff_tmod_eq_zero,
    Int.dvd_iff_emod_eq_zero]

/-! ### `timegm64()` -/

/-- The cycles that are taken out, and the years that are left to count. -/
structure InCycles (year : Int) (n : Nat) (x : U64 × Int) : Prop where
  rank : (n : Int) = x.2
  low : 70 ≤ x.2
  days : x.1 = BitVec.ofInt 64 (daysBeforeYear (year + 1900) - daysBeforeYear (x.2 + 1900))
  leap : isLeap (x.2 + 1900) = isLeap (year + 1900)

theorem cycles_spec {year : Int} (h : 70 ≤ year) :
    ∃ days y, Loop.run (fun _ => none) cyclesTurn (year.toNat + 1) (0, year) = some (days, y) ∧ 70 ≤ y ∧ y ≤ 470 ∧
      days = BitVec.ofInt 64 (daysBeforeYear (year + 1900) - daysBeforeYear (y + 1900)) ∧
      isLeap (y + 1900) = isLeap (year + 1900) := by
  have hstart : InCycles year year.toNat (0, year) := by
    refine ⟨Int.toNat_of_nonneg (by omega), h, ?_, rfl⟩
    rw [Int.sub_self]
    rfl
  refine Loop.run_rank (InCycles year) (fun out => ∃ days y, out = some (days, y) ∧ 70 ≤ y ∧ y ≤ 470 ∧
    days = BitVec.ofInt 64 (daysBeforeYear (year + 1900) - daysBeforeYear (y + 1900)) ∧
    isLeap (y + 1900) = isLeap (year + 1900)) ?_ hstart (Nat.lt_succ_self year.toNat)
  rintro n ⟨days, y⟩ ⟨hrank, hlow, hdays, hleap⟩
  dsimp only at hrank hlow hdays hleap
  by_cases hy : 400 + 70 < y
  · have hback : y - 400 + 1900 = y + 1900 + 400 * (-1) := by omega
    refine .inl ⟨_, n - 400, if_pos hy, by omega, by dsimp only; omega, by dsimp only; omega, ?_, ?_⟩
    · dsimp only
      rw [hdays, addU32, add_eq, fromU32_eq (by decide), ← BitVec.ofInt_add, hback, daysBeforeYear_cycle]
      congr 1
      push_cast
      omega
    · dsimp only
      rw [hback, isLeap_cycle, hleap]
  · exact .inr ⟨_, if_neg hy, days, y, rfl, hlow, by omega, hdays, hleap⟩

/-- The years from 1970 up to a year. -/
theorem days_spec {y : Int} (h : 70 ≤ y) (hle : y ≤ 470) (z : Int) :
    Loop.run (fun _ => none) (daysTurn y) (y.toNat + 1) (BitVec.ofInt 64 z, 70) =
      some (BitVec.ofInt 64 (z + daysBeforeYear (y + 1900) - daysBeforeYear 1970)) := by
  have hstart : (BitVec.ofInt 64 z, (70 : Int)).1 =
      BitVec.ofInt 64 (z + daysBeforeYear (70 + 1900) - daysBeforeYear 1970) := by
    exact congrArg (BitVec.ofInt 64) (Int.add_sub_cancel z _).symm
  refine Loop.run_rank
    (fun n (x : U64 × Int) => (n : Int) = y - x.2 ∧ 70 ≤ x.2 ∧
      x.1 = BitVec.ofInt 64 (z + daysBeforeYear (x.2 + 1900) - daysBeforeYear 1970))
    (fun out => out = some (BitVec.ofInt 64 (z + daysBeforeYear (y + 1900) - daysBeforeYear 1970))) ?_
    ⟨Int.toNat_of_nonneg (by omega), le_refl _, hstart⟩ (by omega : (y - 70).toNat < y.toNat + 1)
  rintro n ⟨days, year⟩ ⟨hrank, hlow, hdays⟩
  dsimp only at hrank hlow hdays
  by_cases hlt : year < y
  · have hlen := yearLength_bounds (isLeap (year + 1900))
    have hnext : year + 1 + 1900 = year + 1900 + 1 := by omega
    refine .inl ⟨_, n - 1, if_pos hlt, by omega, by dsimp only; omega, by dsimp only; omega, ?_⟩
    dsimp only
    rw [hdays, isLEAP_eq (by omega) (by omega), lengthOfYear_eq, addI32_ofInt _ (by omega) (by omega), hnext,
      daysBeforeYear_succ]
    congr 1
    omega
  · obtain rfl : year = y := by omega
    exact .inr ⟨_, if_neg hlt, by rw [hdays]⟩

/-- **`timegm64()` counts the seconds** of any civil time from 1970 on whose year fits. -/
theorem timegm64_spec {tm : Tm} {c : Civil} (h : tm.Is c) (hlow : 70 ≤ tm.year) :
    timegm64 tm = some (BitVec.ofInt 64 (c.seconds - epoch * 86400)) := by
  obtain ⟨days, y, hcycles, hy, hy', hdays, hleap⟩ := cycles_spec hlow
  have hsmall : ¬ y < 70 := by omega
  have hm := c.date.month_lt
  have hpos := c.date.day_pos
  have h0 := c.date.yearDay_nonneg
  have h1 := c.date.yearDay_lt
  have hlen := (yearLength_bounds (isLeap c.date.year)).2
  have hbefore := daysBeforeMonth_nonneg (isLeap c.date.year) c.date.month
  have hmon : tm.mon.toNat = c.date.month := by
    rw [h.mon]
    rfl
  have hleap' : isLEAP y = isLeap c.date.year := by
    rw [isLEAP_eq (by omega) (by omega), hleap, h.year]
  simp only [timegm64, hcycles, Option.bind_eq_bind, Option.bind_some, if_neg hsmall]
  rw [Date.yearDay] at h1
  have hday : i32 (c.date.day - 1) = c.date.day - 1 := i32_eq (by omega) (by omega)
  have hhour0 := c.hour_nonneg
  have hhour1 := c.hour_lt
  have hmin0 := c.minute_nonneg
  have hmin1 := c.minute_lt
  have hsec0 := c.second_nonneg
  have hsec1 := c.second_lt
  have hhour : i32 (c.hour * 60 * 60) = c.hour * 60 * 60 := i32_eq (by omega) (by omega)
  have hmin : i32 (c.minute * 60) = c.minute * 60 := i32_eq (by omega) (by omega)
  have hepoch : daysBeforeYear 1970 + 1 = epoch := by decide
  rw [hdays, days_spec hy hy', Option.bind_some, hleap', hmon, julianDaysByMonth_eq _ hm, h.mday, h.hour, h.min, h.sec,
    hday, hhour, hmin, addI32_ofInt _ (by omega) (by omega), addI32_ofInt _ (by omega) (by omega),
    mulI32_ofInt _ (by decide) (by decide), addI32_ofInt _ (by omega) (by omega),
    addI32_ofInt _ (by omega) (by omega), addI32_ofInt _ (by omega) (by omega), h.year]
  refine congrArg some (congrArg (BitVec.ofInt 64) ?_)
  simp only [Civil.seconds, Date.number, Date.yearDay]
  omega

theorem timegm64_before {tm : Tm} (h : tm.year < 70) : timegm64 tm = some (BitVec.ofInt 64 (-1)) := by
  have hturn : cyclesTurn (0, tm.year) = .leave (some (0, tm.year)) := if_neg (by omega)
  simp only [timegm64, Loop.run_leave hturn, Option.bind_eq_bind, Option.bind_some, if_pos h]
  rfl

/-! ### `gmtime64_r()` -/

/-- `tm_year` of the first of the years that `gmtime64_r()` counts one by one, for the
day `n` since 1970. -/
def cycleStart (n : Nat) : Int := if 13879 ≤ n then i32 (108 + (400 * ((n - 13879) / 146097) % 2 ^ 31 : Nat)) else 70

/-- The days from there. -/
def cycleRest (n : Nat) : Nat := if 13879 ≤ n then (n - 13879) % 146097 else n

/-- The days of the first `k` years from `base`, as `IS_LEAP` has it. -/
def yearsDays (base : Int) : Nat → Int
  | 0 => 0
  | k + 1 => yearsDays base k + lengthOfYear (isLEAP (i32 (base + k)))

theorem cmpI32_lt_iff (m : U64) {b : Int} (h : 0 ≤ b) (hlt : b < 2 ^ 31) :
    cmpI32 m b = .lt ↔ (m.toNat : Int) < b := by
  have hb : (fromI32 (BitVec.ofInt 32 b)).toNat = b.toNat := by
    rw [fromI32_eq (by omega) hlt, BitVec.toNat_ofInt]
    omega
  rw [cmpI32, Libc370.Int64.cmp, compare_lt_iff_lt, hb]
  omega

theorem subI32_toNat {m : U64} {b : Int} (h : 0 ≤ b) (hlt : b < 2 ^ 31) (hle : b ≤ m.toNat) :
    ((subI32 m b).toNat : Int) = m.toNat - b := by
  have hm : m = BitVec.ofInt 64 m.toNat := by
    apply BitVec.eq_of_toNat_eq
    rw [BitVec.toNat_ofInt]
    have := m.isLt
    omega
  have := m.isLt
  conv_lhs => rw [hm, subI32_ofInt _ (by omega) hlt, BitVec.toNat_ofInt]
  omega

/-- The year comes out, and what is left is within it. -/
theorem years_spec (base : Int) (m : U64) :
    ∃ (k : Nat) (m' : U64), Loop.run (fun _ => none) yearsTurn (m.toNat + 1) (m, i32 base) =
        some (m', i32 (base + k)) ∧
      m'.toNat + yearsDays base k = m.toNat ∧ (m'.toNat : Int) < lengthOfYear (isLEAP (i32 (base + k))) := by
  have hstart : ∃ k : Nat, m.toNat = m.toNat ∧ i32 base = i32 (base + k) ∧ m.toNat + yearsDays base k = m.toNat :=
    ⟨0, rfl, by simp, by simp [yearsDays]⟩
  refine Loop.run_rank
    (fun n (x : U64 × Int) => ∃ k : Nat, n = x.1.toNat ∧ x.2 = i32 (base + k) ∧
      x.1.toNat + yearsDays base k = m.toNat)
    (fun out => ∃ (k : Nat) (m' : U64), out = some (m', i32 (base + k)) ∧
      m'.toNat + yearsDays base k = m.toNat ∧ (m'.toNat : Int) < lengthOfYear (isLEAP (i32 (base + k)))) ?_
    hstart (Nat.lt_succ_self m.toNat)
  rintro n ⟨m', year⟩ ⟨k, rfl, hyear, hsum⟩
  dsimp only at hyear hsum
  subst hyear
  have hlen := yearLength_bounds (isLEAP (i32 (base + k)))
  rw [← lengthOfYear_eq] at hlen
  by_cases hlt : cmpI32 m' (lengthOfYear (isLEAP (i32 (base + k)))) = .lt
  · refine .inr ⟨_, if_neg (not_not.mpr hlt), k, m', rfl, hsum, ?_⟩
    exact (cmpI32_lt_iff m' (by omega) (by omega)).mp hlt
  · have hge : lengthOfYear (isLEAP (i32 (base + k))) ≤ m'.toNat := by
      rw [cmpI32_lt_iff m' (by omega) (by omega)] at hlt
      omega
    have hsub := subI32_toNat (by omega) (by omega) hge
    refine .inl ⟨_, _, if_pos hlt, ?_, k + 1, rfl, ?_, ?_⟩
    · dsimp only
      omega
    · dsimp only
      unfold i32
      rw [Int.bmod_add_bmod]
      congr 1
      push_cast
      omega
    · dsimp only
      rw [yearsDays]
      omega

/-- The month comes out. -/
theorem months_spec (leap : Bool) {m : U64} (h : (m.toNat : Int) < yearLength leap) :
    ∃ (mon : Nat) (m' : U64), Loop.run (fun _ => none) (monthsTurn leap) (m.toNat + 1) (m, 0) = some (m', mon) ∧
      mon < 12 ∧ daysBeforeMonth leap mon + m'.toNat = m.toNat ∧ (m'.toNat : Int) < monthLength leap mon := by
  have hstart : m.toNat = m.toNat ∧ 0 < 12 ∧ daysBeforeMonth leap 0 + m.toNat = m.toNat :=
    ⟨rfl, by decide, by simp [daysBeforeMonth]⟩
  refine Loop.run_rank
    (fun n (x : U64 × Nat) => n = x.1.toNat ∧ x.2 < 12 ∧ daysBeforeMonth leap x.2 + x.1.toNat = m.toNat)
    (fun out => ∃ (mon : Nat) (m' : U64), out = some (m', mon) ∧ mon < 12 ∧
      daysBeforeMonth leap mon + m'.toNat = m.toNat ∧ (m'.toNat : Int) < monthLength leap mon) ?_
    hstart (Nat.lt_succ_self m.toNat)
  rintro n ⟨m', mon⟩ ⟨rfl, hmon, hsum⟩
  dsimp only at hmon hsum
  have hpos := monthLength_pos leap mon
  have hlen : monthLength leap mon ≤ 31 := by
    unfold monthLength
    split <;> (try split) <;> omega
  have hdays := daysInMonth_eq leap hmon
  by_cases hlt : cmpI32 m' (daysInMonth leap mon) = .lt
  · refine .inr ⟨_, if_neg (not_not.mpr hlt), mon, m', rfl, hmon, hsum, ?_⟩
    rw [hdays, cmpI32_lt_iff m' (by omega) (by omega)] at hlt
    exact hlt
  · have hge : monthLength leap mon ≤ m'.toNat := by
      rw [hdays, cmpI32_lt_iff m' (by omega) (by omega)] at hlt
      omega
    have hsub := subI32_toNat (by omega) (by omega) hge
    have hnext : mon + 1 < 12 := by
      by_contra hlast
      have hmono := daysBeforeMonth_mono leap (show 12 ≤ mon + 1 by omega)
      rw [daysBeforeMonth_twelve, daysBeforeMonth] at hmono
      omega
    refine .inl ⟨_, _, if_pos hlt, ?_, rfl, hnext, ?_⟩
    · dsimp only
      rw [hdays]
      omega
    · dsimp only
      rw [hdays, daysBeforeMonth]
      omega

theorem toI32_eq {n : U64} (h : n.toNat < 2 ^ 31) : toI32 n = n.toNat := by
  rw [toI32, low]
  omega

theorem i32_i32 (x : Int) : i32 (i32 x) = i32 x := Int.bmod_bmod

theorem skipCheat_spec (m : U64) :
    (skipCheat m).1.toNat = (if 13879 ≤ m.toNat then m.toNat - 13879 else m.toNat) ∧
      (skipCheat m).2 = if 13879 ≤ m.toNat then 108 else 70 := by
  have hc : (fromU32 13879).toNat = 13879 := fromU32_toNat (by decide)
  have hcmp : cmpU32 m 13879 = .lt ↔ m.toNat < 13879 := by
    rw [cmpU32, Libc370.Int64.cmp, compare_lt_iff_lt, hc]
  unfold skipCheat
  by_cases hlt : m.toNat < 13879
  · rw [if_neg (not_not.mpr (hcmp.mpr hlt)), if_neg (by omega), if_neg (by omega)]
    exact ⟨rfl, rfl⟩
  · rw [if_pos (fun heq => hlt (hcmp.mp heq)), if_pos (by omega), if_pos (by omega)]
    exact ⟨subU32_toNat (by decide) (by omega), rfl⟩

theorem skipCycles_spec {m : U64} (h : m.toNat / 146097 < 2 ^ 31) {year : Int} (hyear : i32 year = year) :
    (skipCycles m year).1.toNat = m.toNat % 146097 ∧
      (skipCycles m year).2 = i32 (year + (400 * (m.toNat / 146097) % 2 ^ 31 : Nat)) := by
  have hdiv : (divU32 m 146097).toNat = m.toNat / 146097 := divU32_toNat m (by decide) (by decide)
  have hcycles : toI32 (divU32 m 146097) = m.toNat / 146097 := by
    rw [toI32_eq (by omega), hdiv]
  have hlen : (fromU32 146097).toNat = 146097 := fromU32_toNat (by decide)
  have hyears : (fromU32 400).toNat = 400 := fromU32_toNat (by decide)
  have hm := m.isLt
  unfold skipCycles
  simp only [hcycles]
  by_cases hzero : m.toNat / 146097 = 0
  · rw [if_neg (not_not.mpr hzero), hzero]
    exact ⟨by dsimp only; omega, by simp [hyear]⟩
  · rw [if_pos hzero]
    have hmul : (mulU32 (fromU32 146097) (m.toNat / 146097)).toNat = 146097 * (m.toNat / 146097) := by
      rw [mulU32_toNat (by omega) (by rw [hlen]; omega), hlen]
    have hmul' : (mulU32 (fromU32 400) (m.toNat / 146097)).toNat = 400 * (m.toNat / 146097) := by
      rw [mulU32_toNat (by omega) (by rw [hyears]; omega), hyears]
    refine ⟨?_, ?_⟩
    · dsimp only
      rw [sub_toNat (by rw [hmul]; omega), hmul]
      omega
    · dsimp only
      rw [toI32, low, hmul', Nat.mod_mod_of_dvd _ (by decide)]

/-- The days of `2 ^ 64` seconds. -/
theorem yearOfDays_spec {tday : U64} (h : tday.toNat ≤ 2 ^ 64 / 86400) :
    ∃ (k : Nat) (m : U64), yearOfDays tday = some (m, i32 (cycleStart tday.toNat + k)) ∧
      m.toNat + yearsDays (cycleStart tday.toNat) k = cycleRest tday.toNat ∧
      (m.toNat : Int) < lengthOfYear (isLEAP (i32 (cycleStart tday.toNat + k))) := by
  obtain ⟨hm, hyear⟩ := skipCheat_spec tday
  have hcycles : (skipCheat tday).1.toNat / 146097 < 2 ^ 31 := by
    rw [hm]
    split <;> omega
  have hint : i32 (skipCheat tday).2 = (skipCheat tday).2 := by
    rw [hyear]
    split <;> rfl
  obtain ⟨hrest, hstart⟩ := skipCycles_spec hcycles hint
  have hrest' : (skipCycles (skipCheat tday).1 (skipCheat tday).2).1.toNat = cycleRest tday.toNat := by
    rw [hrest, hm, cycleRest]
    split <;> omega
  have hstart' : (skipCycles (skipCheat tday).1 (skipCheat tday).2).2 = i32 (cycleStart tday.toNat) := by
    rw [hstart, hm, hyear, cycleStart]
    split
    · rw [i32_i32]
    · next hlt =>
      have hzero : tday.toNat / 146097 = 0 := by omega
      rw [hzero]
      rfl
  obtain ⟨k, m', hyears, hsum, hlt⟩ :=
    years_spec (cycleStart tday.toNat) (skipCycles (skipCheat tday).1 (skipCheat tday).2).1
  rw [← hstart'] at hyears
  rw [hrest'] at hsum
  exact ⟨k, m', hyears, hsum, hlt⟩

/-- What `gmtime64_r()` fills in for the day `n` since 1970: the year is the `k`th of its
cycle, `x` the days of the year before, `mon` the month. -/
structure Taken (n k mon : Nat) (x : Int) : Prop where
  sum : x + yearsDays (cycleStart n) k = cycleRest n
  nonneg : 0 ≤ x
  lt : x < yearLength (isLEAP (i32 (cycleStart n + k)))
  mon_lt : mon < 12
  first : daysBeforeMonth (isLEAP (i32 (cycleStart n + k))) mon ≤ x
  last : x < daysBeforeMonth (isLEAP (i32 (cycleStart n + k))) (mon + 1)

theorem gmtime64R_fields (t : U64) (p : Tm) :
    ∃ (k mon : Nat) (x : Int), Taken (t.toNat / 86400) k mon x ∧
      gmtime64R t p = some (some { p with
        sec := (t.toNat % 60 : Nat), min := (t.toNat / 60 % 60 : Nat), hour := (t.toNat / 60 / 60 % 24 : Nat),
        mday := x - daysBeforeMonth (isLEAP (i32 (cycleStart (t.toNat / 86400) + k))) mon + 1, mon,
        year := i32 (cycleStart (t.toNat / 86400) + k), wday := ((t.toNat / 86400 + 4) % 7 : Nat), yday := x }) := by
  obtain ⟨hmins, hsec⟩ := divmodU32_toNat t 60 (by decide) (by decide)
  obtain ⟨hhours, hmin⟩ := divmodU32_toNat (divmodU32 t 60).1 60 (by decide) (by decide)
  obtain ⟨hdays, hhour⟩ := divmodU32_toNat (divmodU32 (divmodU32 t 60).1 60).1 24 (by decide) (by decide)
  generalize hsplit : divmodU32 (divmodU32 (divmodU32 t 60).1 60).1 24 = day at hdays hhour
  have ht := t.isLt
  have hn : day.1.toNat = t.toNat / 86400 := by omega
  have hwday : toI32 (modU32 (addU32 day.1 4) 7) = (t.toNat / 86400 + 4) % 7 := by
    have hadd := addU32_toNat (a := day.1) (b := 4) (by decide) (by omega)
    have hmod := (divmodU32_toNat (addU32 day.1 4) 7 (by decide) (by decide)).2
    rw [toI32_eq (by rw [modU32]; omega), modU32, hmod, hadd, hn]
  obtain ⟨k, m, hyear, hsum, hlt⟩ := @yearOfDays_spec day.1 (by omega)
  obtain ⟨mon, m', hmonth, hmon, hfirst, hlast⟩ := months_spec _ hlt
  have hlen := yearLength_bounds (isLEAP (i32 (cycleStart day.1.toNat + k)))
  rw [lengthOfYear_eq] at hlt
  have hbefore := daysBeforeMonth_nonneg (isLEAP (i32 (cycleStart day.1.toNat + k))) mon
  have hi : (toI32 m' : Int) = m.toNat - daysBeforeMonth (isLEAP (i32 (cycleStart day.1.toNat + k))) mon := by
    rw [toI32_eq (by omega)]
    omega
  refine ⟨k, mon, m.toNat, ⟨?_, by omega, ?_, hmon, ?_, ?_⟩, ?_⟩
  · rw [← hn]
    exact hsum
  · rw [← hn]
    exact hlt
  · rw [← hn]
    omega
  · rw [← hn, daysBeforeMonth]
    omega
  · have hsec' : toI32 (divmodU32 t 60).2 = t.toNat % 60 := by rw [toI32_eq (by omega), hsec]
    have hmin' : toI32 (divmodU32 (divmodU32 t 60).1 60).2 = t.toNat / 60 % 60 := by
      rw [toI32_eq (by omega), hmin, hmins]
    have hhour' : toI32 day.2 = t.toNat / 60 / 60 % 24 := by
      rw [toI32_eq (by omega), hhour, hhours, hmins]
    have hyday : ∀ leap, julianDaysByMonth leap mon + (m.toNat - daysBeforeMonth leap mon) = m.toNat := by
      intro leap
      rw [julianDaysByMonth_eq leap hmon]
      omega
    rw [← hn] at hwday ⊢
    have hnonneg : ¬ (((day.1.toNat + 4) % 7 : Nat) : Int) < 0 := by omega
    simp only [gmtime64R, hsplit, hyear, hmonth, Option.bind_eq_bind, Option.bind_some, hwday, if_neg hnonneg, hi,
      hsec', hmin', hhour', hyday, ne_eq, not_true_eq_false, if_false]
    rfl

end Libc370.Time
