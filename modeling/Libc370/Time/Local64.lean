import Libc370.Time.Gmtime64
import Libc370.Time.Local
import Libc370.Time.SafeYear

/-! Local time in 64 bits: `localtime64_r()` and `mktime64()`.

Both go through the 32-bit functions in the stand-in year and put the year back. When
the offset takes the time over New Year, the month tells `localtime64_r()`, and it moves
the year. -/
namespace Libc370.Time

open Calendar Libc370.Int64

/-- The end of `localtime64_r()`: the year is put back, less or more one at the turn of
the year, and the day of the year is that of a leap year only in one. -/
def putBack (origYear gmMon : Int) (safeDate : Tm) : Tm :=
  let p := { safeDate with year := origYear }
  let monthDiff := p.mon - gmMon
  let p := if monthDiff = 11 then { p with year := p.year - 1 } else p
  let p := if monthDiff = -11 then { p with year := p.year + 1 } else p
  if !isLEAP p.year && p.yday = 365 then { p with yday := p.yday - 1 } else p

/-- `localtime64_r()`: `none` for the null pointer. The local structures hold `junk` at first. -/
def localtime64R (junk : Tm) (tz : Int) (time : U64) : Option (Option Tm) := do
  let some gmTm ← gmtime64R time junk | return none
  let origYear := gmTm.year
  let gmTm :=
    if 2037 - 1900 < gmTm.year ∨ gmTm.year < 1970 - 1900 then
      { gmTm with year := safeYear (i32 (gmTm.year + 1900)) - 1900 }
    else gmTm
  let tmp ← timegm64 gmTm
  let safeDate ← localtimeR tz (toU32 tmp)
  return some (putBack origYear gmTm.mon safeDate)

/-- The loop of `seconds_between_years()`. -/
def betweenTurn (leftYear increment : Int) (x : U64 × Int) : Loop.Turn (U64 × Int) (Option U64) :=
  let (seconds, rightYear) := x
  if leftYear ≠ rightYear then
    .again (addI32 seconds (lengthOfYear (isLEAP (rightYear - 1900)) * 60 * 60 * 24), rightYear + increment)
  else .leave (some seconds)

/-- `seconds_between_years()`. -/
def secondsBetweenYears (leftYear rightYear : Int) : Option U64 :=
  let increment : Int := if rightYear < leftYear then 1 else -1
  let (seconds, leftYear) :=
    if 2400 < leftYear then
      let cycles := (leftYear - 2400).tdiv 400
      (mulI32 (BitVec.ofNat 64 12622780800) cycles, leftYear - cycles * 400)
    else if leftYear < 1600 then
      let cycles := (leftYear - 1600).tdiv 400
      (mulI32 (BitVec.ofNat 64 12622780800) cycles, leftYear + cycles * 400)
    else (0, leftYear)
  Loop.run (fun _ => none) (betweenTurn leftYear increment) ((leftYear - rightYear).natAbs + 1) (seconds, rightYear)

/-- The fields read as UTC, on a copy, as `mktime64()` does it. -/
def timeOfFields (year : Int) (date : Tm) : Option U64 :=
  if 1970 ≤ year ∧ year ≤ 2037 then do
    let (tt, _) ← timegm date
    return fromU32 tt.toNat
  else do
    let (tt, safeDate) ← timegm { date with year := safeYear year - 1900 }
    let seconds ← secondsBetweenYears year (safeDate.year + 1900)
    return add (fromU32 tt.toNat) seconds

/-- `mktime64()`: its value, and what it leaves in the caller's structure. -/
def mktime64 (junk : Tm) (tz : Int) (inputDate : Tm) : Option (U64 × Tm) := do
  let year := i32 (inputDate.year + 1900)
  let fail := (subI32 0 1, inputDate)
  if year < 1970 ∨ 9999 < year then return fail
  let time ← timeOfFields year inputDate
  if 0 < tz ∧ cmpU32 time tz.toNat = .lt then return fail
  let time := subI32 time tz
  let some p ← localtime64R junk tz time | return fail
  return (time, p)


/-! ### The stand-in's fields -/

/-- The same fields in a year with the same calendar. -/
theorem inYear_is {tm : Tm} {c : Civil} (h : tm.Is c) {s : Int} (hs : StandsIn s c.date.year) :
    ({ tm with year := s - 1900 } : Tm).Is { c with date := c.date.inYear s hs.leap } := by
  have hnumber := c.date.inYear_number hs.leap
  have hweek := hs.weekday
  refine ⟨h.sec, h.min, h.hour, h.mday, h.mon, Int.sub_add_cancel s 1900, ?_, ?_⟩
  · have hwday := h.wday
    simp only [Date.weekday] at hwday ⊢
    omega
  · rw [Date.inYear_yearDay]
    exact h.yday

theorem inYear_seconds (c : Civil) {s : Int} (hs : isLeap s = isLeap c.date.year) :
    ({ c with date := c.date.inYear s hs } : Civil).seconds =
      c.seconds + 86400 * (daysBeforeYear s - daysBeforeYear c.date.year) := by
  simp only [Civil.seconds, Date.inYear_number]
  omega

/-- Civil times a number of days apart have the same hour, minute and second. -/
theorem civil_apart {c c' : Civil} {n : Int} (h : c'.seconds = c.seconds + 86400 * n) :
    c'.date.number = c.date.number + n ∧ c'.hour = c.hour ∧ c'.minute = c.minute ∧ c'.second = c.second := by
  obtain ⟨d, h1, m1, s1, _, _, _, _, _, _⟩ := c
  obtain ⟨d', h2, m2, s2, _, _, _, _, _, _⟩ := c'
  simp only [Civil.seconds] at h ⊢
  omega

/-- The day of the year is put right in a year that is not leap. -/
theorem yday_fix {p : Tm} {c : Civil} (h : ({ p with yday := c.date.yearDay } : Tm).Is c) (hlow : 0 ≤ c.date.year)
    (hhigh : c.date.year < 2 ^ 31 - 1900)
    (hyday : p.yday = c.date.yearDay ∨ isLeap c.date.year = false ∧ p.yday = 365 ∧ c.date.yearDay = 364) :
    (if !isLEAP p.year && p.yday = 365 then { p with yday := p.yday - 1 } else p).Is c := by
  have hyear := h.year
  have hleap : isLEAP p.year = isLeap c.date.year := by
    dsimp only at hyear
    rw [isLEAP_eq (by omega) (by omega), hyear]
  rw [hleap]
  have hlt := c.date.yearDay_lt
  obtain ⟨hsec, hmin, hhour, hmday, hmon, -, hwday, -⟩ := h
  rcases Bool.eq_false_or_eq_true (isLeap c.date.year) with hy | hy
  · obtain hyday | ⟨hnot, -⟩ := hyday
    · rw [if_neg (by simp [hy])]
      exact ⟨hsec, hmin, hhour, hmday, hmon, hyear, hwday, hyday⟩
    · rw [hy] at hnot
      cases hnot
  · rw [hy, yearLength, if_neg (by decide)] at hlt
    by_cases hlast : p.yday = 365
    · rw [if_pos (by simp [hy, hlast])]
      exact ⟨hsec, hmin, hhour, hmday, hmon, hyear, hwday, by dsimp only; omega⟩
    · rw [if_neg (by simp [hlast])]
      exact ⟨hsec, hmin, hhour, hmday, hmon, hyear, hwday, by omega⟩

/-- Where the year goes. -/
theorem putBack_year {origYear gmMon year : Int} {safeDate : Tm}
    (h : year = origYear + if safeDate.mon - gmMon = 11 then -1 else if safeDate.mon - gmMon = -11 then 1 else 0) :
    putBack origYear gmMon safeDate =
      if !isLEAP year && safeDate.yday = 365 then { safeDate with year, yday := safeDate.yday - 1 }
      else { safeDate with year } := by
  subst h
  by_cases h1 : safeDate.mon - gmMon = 11
  · have h2 : ¬ safeDate.mon - gmMon = -11 := by omega
    simp only [putBack, if_pos h1, if_neg h2]
    rfl
  · by_cases h2 : safeDate.mon - gmMon = -11
    · simp only [putBack, if_pos h2, if_neg h1]
    · simp only [putBack, if_neg h2, if_neg h1, Int.add_zero]

/-- The year is put back, for a local time that is a day before or after at most. -/
theorem putBack_is {safeDate : Tm} {c c' : Civil} {d : Date} {s : Int} (hs : StandsIn s d.year)
    (his : safeDate.Is c') (hsecs : c'.seconds = c.seconds + 86400 * (daysBeforeYear s - daysBeforeYear d.year))
    (hbefore : d.number ≤ c.date.number + 1) (hafter : c.date.number ≤ d.number + 1) (hlow : 0 ≤ c.date.year)
    (hhigh : c.date.year < 2 ^ 31 - 1900) : (putBack (d.year - 1900) d.month safeDate).Is c := by
  obtain ⟨hnumber, hhour, hmin, hsec⟩ := civil_apart hsecs
  obtain ⟨hyear, hmonth, hday, hyday⟩ := standIn_date hs hnumber hbefore hafter
  have hweek := hs.weekday
  have hwday : safeDate.wday = c.date.weekday := by
    rw [his.wday, Date.weekday, Date.weekday, hnumber]
    omega
  have hmon := his.mon
  rw [← hmon] at hyear
  rw [← his.yday] at hyday
  have hput : c.date.year - 1900 = d.year - 1900 +
      if safeDate.mon - d.month = 11 then -1 else if safeDate.mon - d.month = -11 then 1 else 0 := by
    rw [hyear]
    omega
  rw [putBack_year hput]
  refine @yday_fix { safeDate with year := c.date.year - 1900 } c ?_ hlow hhigh hyday
  exact ⟨his.sec.trans hsec, his.min.trans hmin, his.hour.trans hhour, his.mday.trans hday,
    hmon.trans (by rw [hmonth]), Int.sub_add_cancel _ _, hwday, rfl⟩

theorem putBack_isdst (origYear gmMon : Int) (safeDate : Tm) :
    (putBack origYear gmMon safeDate).isdst = safeDate.isdst := by
  obtain ⟨year, hyear⟩ : ∃ year, year = origYear + if safeDate.mon - gmMon = 11 then -1
      else if safeDate.mon - gmMon = -11 then 1 else 0 := ⟨_, rfl⟩
  rw [putBack_year hyear]
  split <;> rfl

/-! ### `localtime64_r()` -/

/-- The first second of the year 10000. -/
def end9999 : Int := 86400 * (daysBeforeYear 10000 - daysBeforeYear 1970)

/-- The year that is used is the stand-in, in the 32-bit range or not. -/
theorem safe_gmTm {gmTm : Tm} {year : Int} (h : gmTm.year + 1900 = year) (hlow : 0 ≤ year) (hhigh : year < 2 ^ 31) :
    (if 2037 - 1900 < gmTm.year ∨ gmTm.year < 1970 - 1900 then
        { gmTm with year := safeYear (i32 (gmTm.year + 1900)) - 1900 } else gmTm) =
      { gmTm with year := safeYear year - 1900 } := by
  split
  · rw [h, i32_eq (by omega) hhigh]
  · have hself : safeYear year = year := if_pos (by omega)
    have hyear : year - 1900 = gmTm.year := by omega
    rw [hself, hyear]

/-- The seconds of the stand-in are those of a 32-bit time, and a day away from both
ends unless it is the year itself. -/
theorem standIn_seconds {c : Civil} {s : Int} (hs : StandsIn s c.date.year) :
    0 ≤ c.seconds - epoch * 86400 + 86400 * (daysBeforeYear s - daysBeforeYear c.date.year) ∧
      c.seconds - epoch * 86400 + 86400 * (daysBeforeYear s - daysBeforeYear c.date.year) < 2 ^ 31 ∧
      (s ≠ c.date.year →
        86400 ≤ c.seconds - epoch * 86400 + 86400 * (daysBeforeYear s - daysBeforeYear c.date.year)) := by
  have hlow := hs.low
  have hhigh := hs.high
  have hapart := hs.apart
  have h0 := c.date.yearDay_nonneg
  have h1 := c.date.yearDay_lt
  have h2 := (yearLength_bounds (isLeap c.date.year)).2
  have h3 := c.hour_nonneg
  have h4 := c.hour_lt
  have h5 := c.minute_nonneg
  have h6 := c.minute_lt
  have h7 := c.second_nonneg
  have h8 := c.second_lt
  have hfirst : 719162 ≤ daysBeforeYear s := by
    unfold daysBeforeYear
    omega
  have hlast : daysBeforeYear s ≤ 743640 := by
    unfold daysBeforeYear
    omega
  have hsecond : s ≠ c.date.year → 719163 < daysBeforeYear s := by
    intro hne
    have := hapart hne
    unfold daysBeforeYear
    omega
  unfold Civil.seconds Date.number epoch
  refine ⟨by omega, by omega, fun hne => ?_⟩
  have := hsecond hne
  omega

/-- **`localtime64_r()` shows the local time.** -/
theorem localtime64R_shows {t : U64} {tz : Int} (htz : -86400 < tz) (htz' : tz < 86400) (h0 : 0 ≤ t.toNat + tz)
    (hlt : t.toNat + tz < end9999 + 86400) (junk : Tm) :
    ∃ tm, localtime64R junk tz t = some (some tm) ∧ tm.Shows (t.toNat + tz) ∧ tm.isdst = -1 := by
  have hbound : end9999 = 86400 * 2932897 := by decide
  have hfirst : daysBeforeYear 1970 + 1 = epoch := by decide
  have hlast : daysBeforeYear 10001 = epoch + 2933262 := by decide
  obtain ⟨c, hc⟩ := Civil.exists_seconds (t.toNat + epoch * 86400)
  obtain ⟨e, he⟩ := Civil.exists_seconds (t.toNat + tz + epoch * 86400)
  have hday := civil_day hc
  have hday' := civil_day he
  have hlow : 1970 ≤ c.date.year := Date.le_year (by omega)
  have hhigh : c.date.year < 10001 := Date.year_lt (by omega)
  have hlow' : 1970 ≤ e.date.year := Date.le_year (by omega)
  have hhigh' : e.date.year < 10001 := Date.year_lt (by omega)
  have hd : c.date.number = (t.toNat / 86400 : Nat) + epoch := by
    rw [hday]
    push_cast
    rfl
  obtain ⟨gmTm, hgm, ⟨c', hc', his⟩, -⟩ := gmtime64R_shows hd (yearFits_early hd (by omega)) junk
  obtain rfl : c = c' := Civil.seconds_injective (hc.trans hc'.symm)
  have hs := safeYear_standsIn hlow
  obtain ⟨hsafe0, hsafe1, hsafe2⟩ := standIn_seconds hs
  have htmp := timegm64_spec (inYear_is his hs) (by dsimp only; have := hs.low; omega)
  rw [inYear_seconds _ hs.leap] at htmp
  generalize hdelta : daysBeforeYear (safeYear c.date.year) - daysBeforeYear c.date.year = delta at *
  have hu32 : (toU32 (BitVec.ofInt 64 (c.seconds + 86400 * delta - epoch * 86400)) : Int) =
      t.toNat + 86400 * delta := by
    rw [toU32, low, BitVec.toNat_ofInt]
    omega
  have hnonneg : 0 ≤ t.toNat + tz + 86400 * delta := by
    by_cases heq : safeYear c.date.year = c.date.year
    · rw [heq, Int.sub_self] at hdelta
      omega
    · have := hsafe2 heq
      omega
  obtain ⟨safeDate, hrun, ⟨e', he', his'⟩, hdst⟩ := @gmtimeR_shows (t.toNat + tz + 86400 * delta) hnonneg (by omega)
  have hlocal : localtimeR tz (t.toNat + 86400 * delta) = some safeDate := by
    have hsum : (t.toNat : Int) + 86400 * delta + tz = t.toNat + tz + 86400 * delta := by omega
    rw [localtimeR, hsum, u32_eq hnonneg (by omega), hrun]
  have hput : (putBack (c.date.year - 1900) c.date.month safeDate).Is e := by
    refine putBack_is hs his' ?_ ?_ ?_ (by omega) (by omega)
    · rw [hdelta]
      omega
    · omega
    · omega
  have hyear : gmTm.year = c.date.year - 1900 := by
    have := his.year
    omega
  have hmon := his.mon
  rw [← hyear, ← hmon] at hput
  refine ⟨_, ?_, ⟨e, he, hput⟩, ?_⟩
  · simp only [localtime64R, hgm, Option.bind_eq_bind, Option.bind_some, safe_gmTm his.year (by omega) (by omega),
      htmp, hu32, hlocal]
    rfl
  · rw [putBack_isdst, hdst]

/-! ### `mktime64()` -/

/-- The years from the stand-in up to a year. -/
theorem between_spec {left : Int} {s : Int} (hs : 1970 ≤ s) (hle : s ≤ left) (hleft : left ≤ 2800) (z : Int) :
    Loop.run (fun _ => none) (betweenTurn left 1) ((left - s).natAbs + 1) (BitVec.ofInt 64 z, s) =
      some (BitVec.ofInt 64 (z + 86400 * (daysBeforeYear left - daysBeforeYear s))) := by
  have hstart : (((left - s).natAbs : Nat) : Int) = left - s ∧ s ≤ s ∧
      BitVec.ofInt 64 z = BitVec.ofInt 64 (z + 86400 * (daysBeforeYear s - daysBeforeYear s)) := by
    refine ⟨by omega, le_refl s, ?_⟩
    rw [Int.sub_self, Int.mul_zero, Int.add_zero]
  refine Loop.run_rank
    (fun n (x : U64 × Int) => (n : Int) = left - x.2 ∧ s ≤ x.2 ∧
      x.1 = BitVec.ofInt 64 (z + 86400 * (daysBeforeYear x.2 - daysBeforeYear s)))
    (fun out => out = some (BitVec.ofInt 64 (z + 86400 * (daysBeforeYear left - daysBeforeYear s)))) ?_
    hstart (Nat.lt_succ_self _)
  rintro n ⟨seconds, right⟩ ⟨hrank, hlow, hseconds⟩
  dsimp only at hrank hlow hseconds
  by_cases hne : left = right
  · subst hne
    exact .inr ⟨_, if_neg (not_not.mpr rfl), by rw [hseconds]⟩
  · have hlen := yearLength_bounds (isLeap right)
    refine .inl ⟨_, n - 1, if_pos hne, by omega, by dsimp only; omega, by dsimp only; omega, ?_⟩
    dsimp only
    rw [hseconds, isLEAP_eq (by omega) (by omega), Int.sub_add_cancel, lengthOfYear_eq,
      addI32_ofInt _ (by omega) (by omega), daysBeforeYear_succ]
    congr 1
    omega

/-- `seconds_between_years()`, from a stand-in to a later year. -/
theorem secondsBetweenYears_spec {y s : Int} (hs : 1970 ≤ s) (hs' : s ≤ 2037) (hy : 2037 < y) (hy' : y ≤ 9999) :
    secondsBetweenYears y s = some (BitVec.ofInt 64 (86400 * (daysBeforeYear y - daysBeforeYear s))) := by
  have hzero : (0 : U64) = BitVec.ofInt 64 0 := rfl
  have hcycle : (BitVec.ofNat 64 12622780800 : U64) = BitVec.ofInt 64 12622780800 := rfl
  by_cases hlate : 2400 < y
  · have hdiv : (y - 2400).tdiv 400 = (y - 2400) / 400 := Int.tdiv_eq_ediv_of_nonneg (by omega)
    have hcycles := daysBeforeYear_cycle (y - (y - 2400) / 400 * 400) ((y - 2400) / 400)
    have hback : y - (y - 2400) / 400 * 400 + 400 * ((y - 2400) / 400) = y := by omega
    rw [hback] at hcycles
    simp only [secondsBetweenYears, if_pos (show s < y by omega), if_pos hlate, hdiv, hcycle]
    rw [mulI32_ofInt _ (by omega) (by omega), between_spec hs (by omega) (by omega)]
    refine congrArg some (congrArg (BitVec.ofInt 64) ?_)
    omega
  · simp only [secondsBetweenYears, if_pos (show s < y by omega), if_neg hlate, if_neg (show ¬ y < 1600 by omega)]
    rw [hzero, between_spec hs (by omega) (by omega), Int.zero_add]

/-- The year that fields show is that of their second only. -/
theorem shows_year {tm : Tm} {n : Int} {c : Civil} (h : tm.Shows n) (hc : c.seconds = n + epoch * 86400) :
    tm.year + 1900 = c.date.year := by
  obtain ⟨c', hc', his⟩ := h
  obtain rfl : c = c' := Civil.seconds_injective (hc.trans hc'.symm)
  exact his.year

/-- The fields that show a time are read as that many seconds, in the stand-in or not. -/
theorem timeOfFields_spec {tm : Tm} {n : Int} {c : Civil} (h : tm.Is c) (hc : c.seconds = n + epoch * 86400)
    (hlow : 1970 ≤ c.date.year) (hhigh : c.date.year ≤ 9999) :
    timeOfFields c.date.year tm = some (BitVec.ofInt 64 n) := by
  have hbound : end2105 = 86400 * 49673 := by decide
  unfold timeOfFields
  split
  · next hrange =>
    have hself : safeYear c.date.year = c.date.year := if_pos hrange
    obtain ⟨h0, h1, -⟩ := standIn_seconds (standsIn_self hrange.1 hrange.2)
    rw [hself, Int.sub_self] at h0 h1
    obtain ⟨tm', hrun, -⟩ := timegm_of_shows ⟨c, hc, h⟩ (by omega) (by omega)
    simp only [hrun, Option.bind_eq_bind, Option.bind_some]
    rw [fromU32_eq (by omega), Int.toNat_of_nonneg (by omega)]
    rfl
  · next hrange =>
    have hs := safeYear_standsIn hlow
    obtain ⟨h0, h1, -⟩ := standIn_seconds hs
    have hseconds := inYear_seconds c hs.leap
    have hshows : ({ tm with year := safeYear c.date.year - 1900 } : Tm).Shows
        (n + 86400 * (daysBeforeYear (safeYear c.date.year) - daysBeforeYear c.date.year)) :=
      ⟨_, by rw [hseconds]; omega, inYear_is h hs⟩
    obtain ⟨safeDate, hrun, hsafeShows⟩ := timegm_of_shows hshows (by omega) (by omega)
    have hsafeYear := shows_year hsafeShows (hseconds.trans (by omega))
    dsimp only [Date.inYear] at hsafeYear
    simp only [hrun, Option.bind_eq_bind, Option.bind_some, hsafeYear,
      secondsBetweenYears_spec hs.low hs.high (show 2037 < c.date.year by omega) hhigh]
    rw [fromU32_eq (by omega), Int.toNat_of_nonneg (by omega), add_eq, ← BitVec.ofInt_add]
    refine congrArg some (congrArg (BitVec.ofInt 64) ?_)
    omega

/-- `mktime64()` undoes `localtime64_r()`, and leaves the fields as they are. -/
theorem mktime64_of_shows {tm : Tm} {t : U64} {tz : Int} (htz : -86400 < tz) (htz' : tz < 86400)
    (h : tm.Shows (t.toNat + tz)) (hdst : tm.isdst = -1) (h0 : 0 ≤ t.toNat + tz) (hlt : t.toNat + tz < end9999)
    (junk : Tm) : mktime64 junk tz tm = some (t, tm) := by
  have hbound : end9999 = 86400 * 2932897 := by decide
  have hfirst : daysBeforeYear 1970 + 1 = epoch := by decide
  have hlast : daysBeforeYear 10000 = epoch + 2932896 := by decide
  obtain ⟨tm', hlocal, hshows', hdst'⟩ := localtime64R_shows htz htz' h0 (by omega) junk
  obtain rfl : tm = tm' := h.unique hshows' (hdst.trans hdst'.symm)
  obtain ⟨c, hc, his⟩ := h
  have hday := civil_day hc
  have hlow : 1970 ≤ c.date.year := Date.le_year (by omega)
  have hhigh : c.date.year < 10000 := Date.year_lt (by omega)
  have hi : i32 (tm.year + 1900) = c.date.year := by rw [his.year, i32_eq (by omega) (by omega)]
  have ht := t.isLt
  have htime : subI32 (BitVec.ofInt 64 (t.toNat + tz)) tz = t := by
    rw [subI32_ofInt _ (by omega) (by omega), Int.add_sub_cancel]
    apply BitVec.eq_of_toNat_eq
    rw [BitVec.toNat_ofInt]
    omega
  have hroom : ¬ (0 < tz ∧ cmpU32 (BitVec.ofInt 64 (t.toNat + tz)) tz.toNat = .lt) := by
    rintro ⟨hpos, hcmp⟩
    rw [cmpU32, Libc370.Int64.cmp, compare_lt_iff_lt, fromU32_toNat (by omega), BitVec.toNat_ofInt] at hcmp
    omega
  have hvalid : ¬ (c.date.year < 1970 ∨ 9999 < c.date.year) := by omega
  simp only [mktime64, hi, if_neg hvalid, timeOfFields_spec his hc hlow (by omega), Option.bind_eq_bind,
    Option.bind_some, if_neg hroom, htime, hlocal]
  rfl

/-- **Local time is the time of the offset**: `localtime64_r()` of `t` fills in what
`gmtime64_r()` of `t + tz` does, apart from `tm_isdst`, and while the local year is one
that `mktime64()` takes, that one gives `t` again and leaves the fields as they are. The
stand-in has the calendar of the year. -/
theorem local_is_shifted (tz : Int) (htz : -86400 < tz) (htz' : tz < 86400) (t : U64) (h0 : 0 ≤ t.toNat + tz)
    (hyear : t.toNat < end9999 ∨ t.toNat + tz < end9999) (junk p : Tm) :
    (∃ tm g, localtime64R junk tz t = some (some tm) ∧
        gmtime64R (BitVec.ofInt 64 (t.toNat + tz)) p = some (some g) ∧ tm = { g with isdst := tm.isdst } ∧
        (t.toNat + tz < end9999 → mktime64 junk tz tm = some (t, tm))) ∧
      ∀ y, 1970 ≤ y → StandsIn (safeYear y) y := by
  refine ⟨?_, fun y hy => safeYear_standsIn hy⟩
  have hbound : end9999 = 86400 * 2932897 := by decide
  obtain ⟨tm, hlocal, hshows, hdst⟩ := localtime64R_shows htz htz' h0 (by omega) junk
  have hn : ((BitVec.ofInt 64 (t.toNat + tz) : U64).toNat : Int) = t.toNat + tz := by
    rw [BitVec.toNat_ofInt]
    omega
  obtain ⟨d, hd⟩ := Date.exists_number (((BitVec.ofInt 64 (t.toNat + tz) : U64).toNat / 86400 : Nat) + epoch)
  have hlast : daysBeforeYear 10001 = epoch + 2933262 := by decide
  have hearly : d.year < 10001 := Date.year_lt (by omega)
  obtain ⟨g, hg, ⟨c, hc, his⟩, -⟩ := gmtime64R_shows hd (yearFits_early hd (by omega)) p
  have hg' : ({ g with isdst := tm.isdst } : Tm).Shows (t.toNat + tz) :=
    ⟨c, by rw [hc, hn], his.sec, his.min, his.hour, his.mday, his.mon, his.year, his.wday, his.yday⟩
  exact ⟨tm, g, hlocal, hg, hshows.unique hg' rfl, fun hlt => mktime64_of_shows htz htz' hshows hdst h0 hlt junk⟩

/-- The first second of 2101 in Greenwich is still in 2100 an hour west. -/
theorem local_is_shifted_west :
    ∃ tm g, localtime64R (firstOf 70 0) (-3600) 4133980800 = some (some tm) ∧
      gmtime64R (BitVec.ofInt 64 4133977200) (firstOf 70 0) = some (some g) ∧ tm = { g with isdst := tm.isdst } ∧
      mktime64 (firstOf 70 0) (-3600) tm = some (4133980800, tm) := by
  obtain ⟨tm, g, hlocal, hg, hsame, hback⟩ :=
    (local_is_shifted (-3600) (by decide) (by decide) 4133980800 (by decide) (.inl (by decide)) (firstOf 70 0)
      (firstOf 70 0)).1
  exact ⟨tm, g, hlocal, hg, hsame, hback (by decide)⟩

end Libc370.Time
