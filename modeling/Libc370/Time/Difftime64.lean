import Libc370.Time.Gmtime64

/-! `difftime64()` (`ext/time64/tm64dtim.c`).

The earlier time is subtracted from the later one, and of the difference only the low word
is converted to a double. So the result is the difference with whole multiples of `2 ^ 32`
left out (`difftime64_eq`), and it is the number of seconds between two civil times exactly
when these are less than `2 ^ 32` seconds, some 136 years, apart. The double holds a word
exactly, and is the integer here. -/
namespace Libc370.Time

open Calendar Libc370.Int64

/-- `difftime64()`. -/
def difftime64 (time1 time0 : U64) : Int :=
  let (t1, t0, neg) := if Int64.cmp time1 time0 = .lt then (time0, time1, true) else (time1, time0, false)
  let tmp := Int64.sub t1 t0
  let result : Int := low tmp
  if neg then 0 - result else result

theorem low_sub {t1 t0 : U64} (h : t0.toNat ≤ t1.toNat) :
    (low (Int64.sub t1 t0) : Int) = ((t1.toNat : Int) - t0.toNat) % 2 ^ 32 := by
  rw [low, sub_toNat h]
  omega

/-- The result is the difference without its multiples of `2 ^ 32`. -/
theorem difftime64_eq (time1 time0 : U64) :
    difftime64 time1 time0 = ((time1.toNat : Int) - time0.toNat).tmod (2 ^ 32) := by
  unfold difftime64
  by_cases hlt : time1.toNat < time0.toNat
  · have hcmp : Int64.cmp time1 time0 = .lt := compare_lt_iff_lt.mpr hlt
    have hneg : (time1.toNat : Int) - time0.toNat = -(time0.toNat - time1.toNat) := by omega
    rw [if_pos hcmp, hneg, Int.neg_tmod, Int.tmod_eq_emod_of_nonneg (by omega)]
    dsimp only
    rw [if_pos rfl, low_sub (Nat.le_of_lt hlt), Int.zero_sub]
  · have hcmp : ¬ Int64.cmp time1 time0 = .lt := fun h => hlt (compare_lt_iff_lt.mp h)
    rw [if_neg hcmp, Int.tmod_eq_emod_of_nonneg (by omega)]
    dsimp only
    rw [if_neg Bool.false_ne_true, low_sub (Nat.not_lt.mp hlt)]

/-- The fields `timegm64()` reads are those of a civil time. -/
structure Tm.Sets (tm : Tm) (c : Civil) : Prop where
  sec : tm.sec = c.second
  min : tm.min = c.minute
  hour : tm.hour = c.hour
  mday : tm.mday = c.date.day
  mon : tm.mon = c.date.month
  year : tm.year + 1900 = c.date.year

theorem timegm64_of_sets {tm : Tm} {c : Civil} (h : tm.Sets c) (hlow : 70 ≤ tm.year) :
    timegm64 tm = some (BitVec.ofInt 64 (c.seconds - epoch * 86400)) := by
  have his : Tm.Is { tm with wday := c.date.weekday, yday := c.date.yearDay } c :=
    ⟨h.sec, h.min, h.hour, h.mday, h.mon, h.year, rfl, rfl⟩
  have hsame := timegm64_spec his hlow
  exact hsame

/-- The seconds since 1970 fit. -/
theorem sets_bounds {tm : Tm} {c : Civil} (h : tm.Sets c) (hlow : 70 ≤ tm.year) (hhigh : tm.year < 2 ^ 31) :
    ((BitVec.ofInt 64 (c.seconds - epoch * 86400)).toNat : Int) = c.seconds - epoch * 86400 := by
  have hyear := h.year
  obtain ⟨hnonneg, hlt⟩ := civil_bounds (c := c) (by omega) (by omega)
  rw [BitVec.toNat_ofInt]
  omega

theorem tmod_eq_self_iff (d : Int) : d.tmod (2 ^ 32) = d ↔ |d| < 2 ^ 32 := by
  rcases Int.le_total 0 d with hnonneg | hneg
  · rw [Int.tmod_eq_emod_of_nonneg hnonneg, abs_of_nonneg hnonneg]
    omega
  · obtain ⟨e, rfl⟩ : ∃ e, d = -e := ⟨-d, (neg_neg d).symm⟩
    rw [Int.neg_tmod, Int.tmod_eq_emod_of_nonneg (by omega), abs_neg, abs_of_nonneg (by omega)]
    omega

/-- **`difftime64()` is the number of seconds exactly when it is below `2 ^ 32`.** -/
theorem difftime64_meets_iff {a b : Tm} {c d : Civil} (ha : a.Sets c) (hb : b.Sets d) (hlowa : 70 ≤ a.year)
    (hhigha : a.year < 2 ^ 31) (hlowb : 70 ≤ b.year) (hhighb : b.year < 2 ^ 31) :
    (∃ time1 time0, timegm64 a = some time1 ∧ timegm64 b = some time0 ∧
        difftime64 time1 time0 = c.seconds - d.seconds) ↔
      |c.seconds - d.seconds| < 2 ^ 32 := by
  have hdiff : difftime64 (BitVec.ofInt 64 (c.seconds - epoch * 86400)) (BitVec.ofInt 64 (d.seconds - epoch * 86400)) =
      (c.seconds - d.seconds).tmod (2 ^ 32) := by
    rw [difftime64_eq, sets_bounds ha hlowa hhigha, sets_bounds hb hlowb hhighb]
    congr 1
    omega
  rw [timegm64_of_sets ha hlowa, timegm64_of_sets hb hlowb, ← tmod_eq_self_iff, ← hdiff]
  constructor
  · rintro ⟨time1, time0, h1, h0, h⟩
    rwa [Option.some_inj.mp h1, Option.some_inj.mp h0]
  · exact fun h => ⟨_, _, rfl, rfl, h⟩

/-- The start of a year. -/
def newYear (year : Int) : Civil :=
  ⟨.newYear year, 0, 0, 0, by decide, by decide, by decide, by decide, by decide, by decide⟩

/-- The fields of the start of a year. -/
def newYearTm (year : Int) : Tm := ⟨0, 0, 0, 1, 0, year - 1900, 0, 0, 0⟩

theorem newYear_sets (year : Int) : (newYearTm year).Sets (newYear year) :=
    ⟨rfl, rfl, rfl, rfl, rfl, Int.sub_add_cancel _ _⟩

/-- Two years, 2000 and 1999. -/
theorem difftime64_meets_year :
    ∃ time1 time0, timegm64 (newYearTm 2000) = some time1 ∧ timegm64 (newYearTm 1999) = some time0 ∧
      difftime64 time1 time0 = (newYear 2000).seconds - (newYear 1999).seconds :=
  (difftime64_meets_iff (newYear_sets 2000) (newYear_sets 1999) (by decide) (by decide) (by decide) (by decide)).mpr
    (by decide +kernel)

/-- Two hundred years, 2170 and 1970. -/
theorem difftime64_loses_centuries :
    ¬ ∃ time1 time0, timegm64 (newYearTm 2170) = some time1 ∧ timegm64 (newYearTm 1970) = some time0 ∧
      difftime64 time1 time0 = (newYear 2170).seconds - (newYear 1970).seconds := by
  rw [timegm64_of_sets (newYear_sets 2170) (by decide), timegm64_of_sets (newYear_sets 1970) (by decide)]
  rintro ⟨time1, time0, h1, h0, h⟩
  rw [← Option.some_inj.mp h1, ← Option.some_inj.mp h0] at h
  revert h
  decide +kernel

end Libc370.Time
