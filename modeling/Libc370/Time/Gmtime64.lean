import Libc370.Time.Time64

/-! When `gmtime64_r()` and `timegm64()` are inverse, and `gmtime_r()` beside them.

`gmtime64_r()` means to refuse a year that does not fit `tm_year`, but compares the
field with the `int` it was set from. What it fills in is the calendar's as long as the
year fits and `IS_LEAP` has counted the leap years of its cycle right. -/
namespace Libc370.Time

open Calendar Libc370.Int64

theorem yearsDays_step (base : Int) (k : Nat) :
    yearsDays base k + 365 ≤ yearsDays base (k + 1) := by
  have := (yearLength_bounds (isLEAP (i32 (base + k)))).1
  rw [yearsDays, lengthOfYear_eq]
  omega

theorem yearsDays_mono (base : Int) {k k' : Nat} (h : k ≤ k') : yearsDays base k ≤ yearsDays base k' := by
  induction k', h using Nat.le_induction with
  | base => exact le_refl _
  | succ k' _ ih =>
    have := yearsDays_step base k'
    omega

theorem yearsDays_ge (base : Int) (k : Nat) : 365 * (k : Int) ≤ yearsDays base k := by
  induction k with
  | zero => simp [yearsDays]
  | succ k ih =>
    have := yearsDays_step base k
    push_cast
    omega

/-- The days of a cycle belong to one of its years. -/
theorem yearsDays_unique {base r : Int} {k k' : Nat} (h : yearsDays base k ≤ r) (hlt : r < yearsDays base (k + 1))
    (h' : yearsDays base k' ≤ r) (hlt' : r < yearsDays base (k' + 1)) : k = k' := by
  by_contra hne
  rcases Nat.lt_or_gt_of_ne hne with hk | hk
  · have := yearsDays_mono base (show k + 1 ≤ k' from hk)
    omega
  · have := yearsDays_mono base (show k' + 1 ≤ k from hk)
    omega

/-- The years that `IS_LEAP` gets right have the days of the calendar. -/
theorem yearsDays_eq {base : Int} (h : 0 ≤ base) {k : Nat} (hlt : base + k ≤ 2 ^ 31 - 1900) :
    yearsDays base k = daysBeforeYear (base + k + 1900) - daysBeforeYear (base + 1900) := by
  induction k with
  | zero => simp [yearsDays]
  | succ k ih =>
    have hi : i32 (base + k) = base + k := i32_eq (by omega) (by omega)
    have hnext : base + ((k + 1 : Nat) : Int) + 1900 = base + k + 1900 + 1 := by
      push_cast
      omega
    rw [yearsDays, ih (by push_cast at hlt; omega), hi, isLEAP_eq (by omega) (by push_cast at hlt; omega), hnext,
      daysBeforeYear_succ, lengthOfYear_eq]
    omega

/-- Where the year fits, the cycle starts where it should. -/
theorem cycle_spec {n : Nat} {d : Date} (hd : d.number = n + epoch) (hfits : d.year - 1900 < 2 ^ 31) :
    70 ≤ cycleStart n ∧ cycleStart n ≤ d.year - 1900 ∧
      daysBeforeYear (cycleStart n + 1900) + 1 + cycleRest n = n + epoch := by
  have h0 := d.yearDay_nonneg
  have h1 := d.yearDay_lt
  have hlen := (yearLength_bounds (isLeap d.year)).2
  have hepoch : daysBeforeYear 1970 + 1 = epoch := by decide
  have hcheat : daysBeforeYear 2008 + 1 = epoch + 13879 := by decide
  unfold Date.number at hd
  unfold cycleStart cycleRest
  split
  · next hn =>
    have hbase := daysBeforeYear_cycle 2008 (((n - 13879) / 146097 : Nat) : Int)
    have hle : 2008 + 400 * (((n - 13879) / 146097 : Nat) : Int) ≤ d.year := by
      by_contra hgt
      have := daysBeforeYear_lt (not_le.mp hgt)
      omega
    have hmod : 400 * ((n - 13879) / 146097) % 2 ^ 31 = 400 * ((n - 13879) / 146097) := Nat.mod_eq_of_lt (by omega)
    have hi : i32 (108 + (400 * ((n - 13879) / 146097) : Nat)) = 108 + (400 * ((n - 13879) / 146097) : Nat) :=
      i32_eq (by omega) (by omega)
    have hsum : 108 + ((400 * ((n - 13879) / 146097) : Nat) : Int) + 1900 =
        2008 + 400 * (((n - 13879) / 146097 : Nat) : Int) := by
      push_cast
      omega
    rw [hmod, hi, hsum, hbase]
    omega
  · next hn =>
    have hle : 1970 ≤ d.year := by
      by_contra hgt
      have := daysBeforeYear_lt (not_le.mp hgt)
      omega
    have hsum : (70 : Int) + 1900 = 1970 := rfl
    rw [hsum]
    omega

/-- What it takes for the day `n` to be converted: its year fits `tm_year`, and `IS_LEAP`
gives the years of its cycle the right number of days up to it, and is right about the
year itself or the day comes before the end of February. -/
structure YearFits (n : Nat) (d : Date) : Prop where
  fits : d.year - 1900 < 2 ^ 31
  sum : yearsDays (cycleStart n) (d.year - 1900 - cycleStart n).toNat =
    daysBeforeYear d.year - daysBeforeYear (cycleStart n + 1900)
  leap : isLEAP (d.year - 1900) = isLeap d.year ∨ d.yearDay < 59

def Converts (t : U64) : Prop :=
  ∃ d : Date, d.number = (t.toNat / 86400 : Nat) + epoch ∧ YearFits (t.toNat / 86400) d

/-- What is asked of `gmtime64_r()`: a civil time whose `timegm64()` is the one given,
or a null pointer for a year that does not fit. -/
def Inverts (t : U64) (p : Tm) : Prop :=
  (gmtime64R t p = some none ∧
      ∀ d : Date, d.number = (t.toNat / 86400 : Nat) + epoch → 2 ^ 31 ≤ d.year - 1900) ∨
    ∃ tm, gmtime64R t p = some (some tm) ∧ (∃ c, tm.Is c) ∧ timegm64 tm = some t

/-- The years below `2 ^ 31`. -/
theorem yearFits_early {n : Nat} {d : Date} (hd : d.number = n + epoch) (h : d.year < 2 ^ 31) : YearFits n d := by
  obtain ⟨hlow, hle, -⟩ := cycle_spec hd (by omega)
  have hk : cycleStart n + ((d.year - 1900 - cycleStart n).toNat : Int) = d.year - 1900 := by omega
  refine ⟨by omega, ?_, .inl ?_⟩
  · rw [yearsDays_eq (by omega) (by omega), hk, Int.sub_add_cancel]
  · rw [isLEAP_eq (by omega) (by omega), Int.sub_add_cancel]

/-- Until the end of February the months do not tell a leap year. -/
theorem month_early {leap leap' : Bool} {m m' : Nat} {n : Int} (hn : n < 59) (h : daysBeforeMonth leap m ≤ n)
    (hlt : n < daysBeforeMonth leap (m + 1)) (h' : daysBeforeMonth leap' m' ≤ n)
    (hlt' : n < daysBeforeMonth leap' (m' + 1)) : m = m' ∧ daysBeforeMonth leap m = daysBeforeMonth leap' m' := by
  have htwo : ∀ leap m, daysBeforeMonth leap m ≤ n → m < 2 := by
    intro leap m hle
    by_contra hge
    have hmono := daysBeforeMonth_mono leap (show 2 ≤ m by omega)
    have hval : 59 ≤ daysBeforeMonth leap 2 := by cases leap <;> decide
    omega
  have hm := htwo leap m h
  have hm' := htwo leap' m' h'
  have hone : ∀ leap, daysBeforeMonth leap 1 = 31 := by decide
  have hzero : ∀ leap, daysBeforeMonth leap 0 = 0 := by decide
  interval_cases m <;> interval_cases m'
  · exact ⟨rfl, by rw [hzero, hzero]⟩
  · rw [hone] at hlt h'
    omega
  · rw [hone] at h hlt'
    omega
  · exact ⟨rfl, by rw [hone, hone]⟩

/-- A date that fits is what is taken for its day. -/
theorem taken_date {n k mon : Nat} {x : Int} {d : Date} (ht : Taken n k mon x) (hd : d.number = n + epoch)
    (hfits : YearFits n d) :
    i32 (cycleStart n + k) = d.year - 1900 ∧ x = d.yearDay ∧ mon = d.month ∧
      daysBeforeMonth (isLEAP (d.year - 1900)) mon = daysBeforeMonth (isLeap d.year) d.month := by
  obtain ⟨hlow, hle, hrest⟩ := cycle_spec hd hfits.fits
  have h0 := d.yearDay_nonneg
  have h1 := d.yearDay_lt
  have hmonth0 : daysBeforeMonth (isLeap d.year) d.month ≤ d.yearDay := by
    have := d.day_pos
    rw [Date.yearDay]
    omega
  have hmonth1 : d.yearDay < daysBeforeMonth (isLeap d.year) (d.month + 1) := by
    have := d.day_le
    rw [Date.yearDay, daysBeforeMonth]
    omega
  have hfit := hfits.fits
  have hk : cycleStart n + ((d.year - 1900 - cycleStart n).toNat : Int) = d.year - 1900 := by omega
  have hi : i32 (d.year - 1900) = d.year - 1900 := i32_eq (by omega) (by omega)
  have hsum := hfits.sum
  unfold Date.number at hd
  have hlast : cycleRest n < yearsDays (cycleStart n) ((d.year - 1900 - cycleStart n).toNat + 1) := by
    have hlen := (yearLength_bounds (isLEAP (d.year - 1900))).1
    rw [yearsDays, hk, hi, lengthOfYear_eq, hsum]
    rcases hfits.leap with hleap | hearly
    · rw [hleap]
      omega
    · omega
  have htlt := ht.lt
  have htsum := ht.sum
  have htnonneg := ht.nonneg
  have hnext : cycleRest n < yearsDays (cycleStart n) (k + 1) := by
    rw [yearsDays, lengthOfYear_eq]
    omega
  obtain rfl : k = (d.year - 1900 - cycleStart n).toNat :=
    yearsDays_unique (by omega) hnext (by omega) hlast
  have hx : x = d.yearDay := by omega
  have hfirst := ht.first
  have hlast' := ht.last
  rw [hk, hi, hx] at hfirst hlast'
  refine ⟨by rw [hk, hi], hx, ?_⟩
  rcases hfits.leap with hleap | hearly
  · rw [hleap] at hfirst hlast' ⊢
    obtain rfl := month_unique hfirst hlast' hmonth0 hmonth1
    exact ⟨rfl, rfl⟩
  · exact month_early hearly hfirst hlast' hmonth0 hmonth1

/-- What `gmtime64_r()` fills in for a day that it converts. -/
theorem gmtime64R_shows {t : U64} {d : Date} (hd : d.number = (t.toNat / 86400 : Nat) + epoch)
    (hfits : YearFits (t.toNat / 86400) d) (p : Tm) :
    ∃ tm, gmtime64R t p = some (some tm) ∧ tm.Shows t.toNat ∧ tm.isdst = p.isdst := by
  obtain ⟨k, mon, x, htaken, hrun⟩ := gmtime64R_fields t p
  obtain ⟨hyear, hx, hmon, hbefore⟩ := taken_date htaken hd hfits
  rw [hyear, hbefore] at hrun
  refine ⟨_, hrun, ⟨⟨d, (t.toNat / 60 / 60 % 24 : Nat), (t.toNat / 60 % 60 : Nat), (t.toNat % 60 : Nat), by omega,
    by omega, by omega, by omega, by omega, by omega⟩, ?_, ?_⟩, rfl⟩
  · simp only [Civil.seconds, hd]
    omega
  · refine ⟨rfl, rfl, rfl, ?_, ?_, ?_, ?_, hx⟩
    · dsimp only
      rw [hx, Date.yearDay]
      omega
    · dsimp only
      rw [hmon]
    · dsimp only
      omega
    · simp only [Date.weekday, hd, epoch]
      omega

theorem taken_year_bound {n k mon : Nat} {x : Int} (ht : Taken n k mon x) (hn : n ≤ 2 ^ 64 / 86400) : k ≤ 400 := by
  have hge := yearsDays_ge (cycleStart n) k
  have hsum := ht.sum
  have hnonneg := ht.nonneg
  have hrest : cycleRest n < 146097 := by
    unfold cycleRest
    split <;> omega
  omega

/-- A month that starts on the same day in both kinds of year, and a day it has in both. -/
theorem early_of_same {leap leap' : Bool} {mon : Nat} {x : Int} (hne : leap ≠ leap') (hmon : mon < 12)
    (hsame : daysBeforeMonth leap mon = daysBeforeMonth leap' mon)
    (h : x < daysBeforeMonth leap mon + monthLength leap mon)
    (h' : x < daysBeforeMonth leap' mon + monthLength leap' mon) : x < 59 := by
  have htwo : mon < 2 := by
    revert hsame
    cases leap <;> cases leap' <;> interval_cases mon <;> first | exact absurd rfl hne | decide
  have hval : daysBeforeMonth false mon + monthLength false mon ≤ 59 := by
    interval_cases mon <;> decide
  cases leap <;> cases leap' <;> first | exact absurd rfl hne | omega

/-- A civil time as filled in, in a year from 1970 on, whose seconds are the ones given,
is that of a date that fits. -/
theorem converts_of_is {t : U64} {k mon : Nat} {x : Int} {tm : Tm} {c : Civil} (ht : Taken (t.toNat / 86400) k mon x)
    (his : tm.Is c) (hyear : tm.year = i32 (cycleStart (t.toNat / 86400) + k))
    (hmday : tm.mday = x - daysBeforeMonth (isLEAP (i32 (cycleStart (t.toNat / 86400) + k))) mon + 1)
    (hmon : tm.mon = mon) (hyday : tm.yday = x) (hlow : 70 ≤ tm.year)
    (hsecs : c.seconds = (t.toNat : Int) + epoch * 86400) : Converts t := by
  have hbound := i32_bounds (cycleStart (t.toNat / 86400) + k)
  have hd : c.date.number = (t.toNat / 86400 : Nat) + epoch := by
    have h0 := c.hour_nonneg
    have h1 := c.hour_lt
    have h2 := c.minute_nonneg
    have h3 := c.minute_lt
    have h4 := c.second_nonneg
    have h5 := c.second_lt
    unfold Civil.seconds at hsecs
    omega
  have hcyear := his.year
  have hfits : c.date.year - 1900 < 2 ^ 31 := by omega
  obtain ⟨hstart, hle, hrest⟩ := cycle_spec hd hfits
  have hk := taken_year_bound ht (by have := t.isLt; omega)
  have hlast : cycleStart (t.toNat / 86400) + k = c.date.year - 1900 := by
    have hwrap := u32_i32 (cycleStart (t.toNat / 86400) + k) 0
    rw [← hyear] at hwrap
    unfold u32 at hwrap
    omega
  have hk' : (c.date.year - 1900 - cycleStart (t.toNat / 86400)).toNat = k := by omega
  have hi : i32 (cycleStart (t.toNat / 86400) + k) = c.date.year - 1900 := by omega
  have hx : x = c.date.yearDay := by rw [← hyday, his.yday]
  have hsum := ht.sum
  have hnumber : c.date.number = daysBeforeYear c.date.year + c.date.yearDay + 1 := rfl
  refine ⟨c.date, hd, hfits, by rw [hk']; omega, ?_⟩
  by_contra hwrong
  obtain ⟨hleap, hlate⟩ := not_or.mp hwrong
  -- the month is that of both kinds of year, so it is one of the first two
  obtain rfl : mon = c.date.month := by
    have := his.mon
    omega
  rw [hi] at hmday
  have hmonth := ht.mon_lt
  have hday : c.date.yearDay = daysBeforeMonth (isLeap c.date.year) c.date.month + c.date.day - 1 := rfl
  have hmday' := his.mday
  have hsame : daysBeforeMonth (isLEAP (c.date.year - 1900)) c.date.month =
      daysBeforeMonth (isLeap c.date.year) c.date.month := by omega
  have hlt := ht.last
  have hle' := c.date.day_le
  rw [hi, daysBeforeMonth] at hlt
  exact hlate (early_of_same hleap hmonth hsame (by omega) (by omega))

/-- The last of the 64-bit times is in a year that the counter has lost, but not one
before 1970. -/
theorem last_year {k : Nat} (hk : k ≤ 400) : 70 ≤ i32 (cycleStart ((2 ^ 64 - 1) / 86400) + k) := by
  have hstart : cycleStart ((2 ^ 64 - 1) / 86400) = 438497052 := by decide
  rw [hstart, i32_eq (by omega) (by omega)]
  omega

/-- The seconds of the years that an `int` holds are a 64-bit number. -/
theorem civil_bounds {c : Civil} (h : 70 ≤ c.date.year - 1900) (hlt : c.date.year - 1900 < 2 ^ 31) :
    0 ≤ c.seconds - epoch * 86400 ∧ c.seconds - epoch * 86400 < 2 ^ 64 := by
  have h0 := c.date.yearDay_nonneg
  have h1 := c.date.yearDay_lt
  have h2 := (yearLength_bounds (isLeap c.date.year)).2
  have h3 := c.hour_nonneg
  have h4 := c.hour_lt
  have h5 := c.minute_nonneg
  have h6 := c.minute_lt
  have h7 := c.second_nonneg
  have h8 := c.second_lt
  unfold Civil.seconds Date.number daysBeforeYear epoch
  omega

theorem converts_of_inverts {t : U64} {p : Tm} (h : Inverts t p) : Converts t := by
  have ht := t.isLt
  obtain ⟨k, mon, x, htaken, hrun⟩ := gmtime64R_fields t p
  rcases h with ⟨hnull, -⟩ | ⟨tm, htm, ⟨c, his⟩, hback⟩
  · rw [hrun] at hnull
    cases hnull
  · rw [hrun, Option.some_inj, Option.some_inj] at htm
    have hyear : tm.year = i32 (cycleStart (t.toNat / 86400) + k) := by rw [← htm]
    by_cases hlow : 70 ≤ tm.year
    · have hbound := i32_bounds (cycleStart (t.toNat / 86400) + k)
      have hcyear := his.year
      have hsecs := @civil_bounds c (by omega) (by omega)
      rw [timegm64_spec his hlow, Option.some_inj] at hback
      have hnat := congrArg BitVec.toNat hback
      rw [BitVec.toNat_ofInt] at hnat
      exact converts_of_is htaken his hyear (by rw [← htm]) (by rw [← htm]) (by rw [← htm]) hlow (by omega)
    · rw [timegm64_before (by omega), Option.some_inj] at hback
      have hnat : t.toNat = 2 ^ 64 - 1 := by
        rw [← hback]
        rfl
      rw [hnat] at htaken hyear
      have := last_year (taken_year_bound htaken (by decide))
      omega

theorem inverts_of_converts {t : U64} (h : Converts t) (p : Tm) : Inverts t p := by
  have ht := t.isLt
  obtain ⟨d, hd, hfits⟩ := h
  obtain ⟨tm, hrun, ⟨c, hc, his⟩, -⟩ := gmtime64R_shows hd hfits p
  have hcd : c.date = d := by
    apply Date.number_injective
    have h0 := c.hour_nonneg
    have h1 := c.hour_lt
    have h2 := c.minute_nonneg
    have h3 := c.minute_lt
    have h4 := c.second_nonneg
    have h5 := c.second_lt
    unfold Civil.seconds at hc
    omega
  obtain ⟨hlow, hle, -⟩ := cycle_spec hd hfits.fits
  have hyear := his.year
  rw [hcd] at hyear
  refine .inr ⟨tm, hrun, ⟨c, his⟩, ?_⟩
  rw [timegm64_spec his (by omega), hc]
  refine congrArg some (BitVec.eq_of_toNat_eq ?_)
  rw [BitVec.toNat_ofInt]
  omega

/-- **When `gmtime64_r()` and `timegm64()` are inverse**: when the year fits and `IS_LEAP`
has been right. -/
theorem gmtime64R_inverts_iff (t : U64) (p : Tm) : Inverts t p ↔ Converts t :=
  ⟨converts_of_inverts, fun h => inverts_of_converts h p⟩

/-- The first of January 2147486008 is taken for that of 2360. -/
theorem gmtime64R_lost_year : ¬ Inverts 67768050707913600 (firstOf 70 0) := by
  intro h
  obtain ⟨d, hd, hfits⟩ := converts_of_inverts h
  have hnumber : d.number = (Date.newYear 2147486008).number := by
    rw [hd, Date.newYear_number]
    decide
  obtain rfl := Date.number_injective hnumber
  have := hfits.fits
  simp only [Date.newYear] at this
  omega

/-! ### Beside `gmtime_r()` -/

/-- The day of a 32-bit time is converted. -/
theorem shows_small {t : Int} {t' : U64} (ht : (t'.toNat : Int) = t) (hlt : t < 2 ^ 32) (p : Tm) :
    ∃ tm, gmtime64R t' p = some (some tm) ∧ tm.Shows t ∧ tm.isdst = p.isdst := by
  obtain ⟨d, hd⟩ := Date.exists_number ((t'.toNat / 86400 : Nat) + epoch)
  have hyear : d.year < 2 ^ 31 := by
    have h0 := d.yearDay_nonneg
    unfold Date.number daysBeforeYear epoch at hd
    omega
  rw [← ht]
  exact gmtime64R_shows hd (yearFits_early hd hyear) p

/-- What is asked of the two: the same nine fields. -/
def SameFields (t : BitVec 32) (p : Tm) : Prop :=
  ∃ tm, gmtimeR t.toNat = some tm ∧ gmtime64R (t.setWidth 64) p = some (some tm)

theorem setWidth_toNat (t : BitVec 32) : ((t.setWidth 64).toNat : Int) = t.toNat := by
  have := t.isLt
  rw [BitVec.toNat_setWidth]
  omega

theorem isdst_of_sameFields {t : BitVec 32} {p : Tm} (h : SameFields t p) : p.isdst = -1 := by
  have ht := t.isLt
  obtain ⟨tm, hrun, hrun'⟩ := h
  obtain ⟨tm₁, hrun₁, -, hdst₁⟩ := @gmtimeR_shows t.toNat (by omega) (by omega)
  obtain ⟨tm₂, hrun₂, -, hdst₂⟩ := @shows_small t.toNat (t.setWidth 64) (setWidth_toNat t) (by omega) p
  rw [hrun₁, Option.some_inj] at hrun
  rw [hrun₂, Option.some_inj, Option.some_inj] at hrun'
  rw [← hdst₂, hrun', ← hrun, hdst₁]

/-- **The two conversions fill in the same fields** if and only if the caller's
`tm_isdst` is -1 before: the 64-bit one does not set it. -/
theorem gmtimes_agree_iff (t : BitVec 32) (p : Tm) : SameFields t p ↔ p.isdst = -1 := by
  refine ⟨isdst_of_sameFields, fun h => ?_⟩
  have ht := t.isLt
  obtain ⟨tm₁, hrun₁, hshows₁, hdst₁⟩ := @gmtimeR_shows t.toNat (by omega) (by omega)
  obtain ⟨tm₂, hrun₂, hshows₂, hdst₂⟩ := @shows_small t.toNat (t.setWidth 64) (setWidth_toNat t) (by omega) p
  obtain rfl := hshows₁.unique hshows₂ (by rw [hdst₁, hdst₂, h])
  exact ⟨tm₁, hrun₁, hrun₂⟩

/-- A cleared structure keeps its 0. -/
theorem gmtimes_differ : ¬ SameFields 0 (firstOf 70 0) := fun h => absurd (isdst_of_sameFields h) (by decide)

end Libc370.Time
