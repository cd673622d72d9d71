import Libc370.Lib.Calendar
import Libc370.Lib.Loop

/-! The scalar date routines (`__isleap()`, `__mtd()`, `__ytd()`, `__ymdts()`, `__stymd()`).

A scalar is the number of a day, 1 for the first of January of the year 1. The
routines count in 32-bit words: `u32` and `i32` say where a result is cut to an
unsigned or a signed one. From 1-01-01 to 14699-12-31, the range they are made for,
nothing is cut and the scalars are those of the calendar. -/
namespace Libc370.Time

open Calendar

/-- The value as an `unsigned`. -/
def u32 (x : Int) : Int := x % 2 ^ 32

/-- The value as an `int` or a `long`. -/
def i32 (x : Int) : Int := x.bmod (2 ^ 32)

/-- `__isleap()`. -/
def isleap (yr : Int) : Bool := yr % 400 == 0 || (yr % 4 == 0 && yr % 100 != 0)

/-- `__mtd()`: the days of the months before, February taken to have 30. -/
def mtd (month : Int) : Int := u32 (month * 3057 - 3007) / 100

/-- `__ytd()`: the days of the years up to `yr`. -/
def ytd (yr : Int) : Int := i32 (yr * 365 + yr / 4 - yr / 100 + yr / 400)

/-- `__ymdts()`. -/
def ymdts (yr mo day : Int) : Int :=
  let scalar := i32 (day + mtd mo)
  let scalar := if 2 < mo then i32 (scalar - if isleap yr then 1 else 2) else scalar
  i32 (scalar + ytd (u32 (yr - 1)))

/-- The loop of `__stymd()`, which looks for the year. -/
def yearTurn (scalar n : Int) : Loop.Turn Int (Option Int) :=
  if ytd n < scalar then .again (u32 (n + 1)) else .leave (some n)

/-- `__stymd()`: year, month and day. It makes the search for the year twice, with the
same result. An unsigned counter that has not stopped after `2 ^ 32` turns never will:
`none`. -/
def stymd (scalar : Int) : Option (Int × Int × Int) := do
  let yr ← Loop.run (fun _ => none) (yearTurn scalar) (2 ^ 32) (u32 ((i32 (scalar * 400)).tdiv 146097))
  let n := u32 (scalar - ytd (u32 (yr - 1)))
  let n :=
    if 59 < n then
      let n := u32 (n + 2)
      if isleap yr then u32 (n - if 62 < n then 1 else 2) else n
    else n
  let mo := u32 (n * 100 + 3007) / 3057
  return (yr, mo, u32 (n - mtd mo))

theorem u32_eq {x : Int} (h : 0 ≤ x) (hlt : x < 2 ^ 32) : u32 x = x := Int.emod_eq_of_lt h hlt

theorem i32_eq {x : Int} (h : -2 ^ 31 ≤ x) (hlt : x < 2 ^ 31) : i32 x = x :=
  Int.bmod_eq_of_le (by norm_num; omega) (by norm_num; omega)

theorem i32_bounds (x : Int) : -2 ^ 31 ≤ i32 x ∧ i32 x < 2 ^ 31 := by
  have hlow := @Int.le_bmod x (2 ^ 32) (by decide)
  have hhigh := @Int.bmod_lt x (2 ^ 32) (by decide)
  unfold i32
  omega

theorem isleap_eq (yr : Int) : isleap yr = isLeap yr := rfl

/-- The years the routines are made for. -/
theorem ytd_eq {yr : Int} (h : 0 ≤ yr) (hle : yr ≤ 14700) : ytd yr = daysBeforeYear (yr + 1) := by
  have hsum : yr * 365 + yr / 4 - yr / 100 + yr / 400 = daysBeforeYear (yr + 1) := by
    unfold daysBeforeYear
    omega
  rw [ytd, hsum]
  refine i32_eq ?_ ?_ <;> unfold daysBeforeYear <;> omega

theorem mtd_small {month : Int} (h : 1 ≤ month) (hle : month ≤ 13) : mtd month = (month * 3057 - 3007) / 100 := by
  rw [mtd, u32_eq (by omega) (by omega)]

/-- What `__mtd()` counts too much, February being short. -/
def february (leap : Bool) (mo : Int) : Int := if 2 < mo then if leap then 1 else 2 else 0

/-- `__mtd()` with its correction is the days before the month, also for the one after December. -/
theorem mtd_eq (leap : Bool) {m : Nat} (h : m < 13) :
    daysBeforeMonth leap m = mtd ((m : Int) + 1) - february leap (m + 1) := by
  cases leap <;> interval_cases m <;> decide

/-- The days of a year, in numbers that give February its 30 days. -/
def spread (leap : Bool) (n : Int) : Int :=
  if 59 < n then if leap then n + 2 - (if 62 < n + 2 then 1 else 2) else n + 2 else n

theorem spread_spec (leap : Bool) {n : Int} (h : 1 ≤ n) (hle : n ≤ yearLength leap) :
    ∃ m : Nat, m < 12 ∧ (spread leap n * 100 + 3007) / 3057 = (m : Int) + 1 ∧ daysBeforeMonth leap m < n ∧
      n ≤ daysBeforeMonth leap (m + 1) ∧ spread leap n - mtd (m + 1) = n - daysBeforeMonth leap m := by
  have hlast : n ≤ 366 := hle.trans (yearLength_bounds leap).2
  have hs : 1 ≤ spread leap n ∧ spread leap n ≤ 367 := by
    unfold spread
    cases leap <;> simp only [yearLength, if_true, if_false, Bool.false_eq_true] at hle ⊢ <;> omega
  have hm : ((((spread leap n * 100 + 3007) / 3057 - 1).toNat : Nat) : Int) =
      (spread leap n * 100 + 3007) / 3057 - 1 := Int.toNat_of_nonneg (by omega)
  have hlt : ((spread leap n * 100 + 3007) / 3057 - 1).toNat < 12 := by omega
  refine ⟨((spread leap n * 100 + 3007) / 3057 - 1).toNat, hlt, by omega, ?_⟩
  rw [mtd_eq leap (by omega), mtd_eq leap (by omega), mtd_small (by omega) (by omega), mtd_small (by omega) (by omega),
    Nat.cast_succ, hm]
  unfold spread february at *
  cases leap <;> simp only [yearLength, if_true, if_false, Bool.false_eq_true] at hle ⊢ <;> omega

theorem ymdts_eq {yr : Int} (h : 1 ≤ yr) (hle : yr ≤ 14700) (mo day : Int) :
    ymdts yr mo day = i32 (day + mtd mo - february (isLeap yr) mo + daysBeforeYear yr) := by
  have hytd : ytd (u32 (yr - 1)) = daysBeforeYear yr := by
    rw [u32_eq (by omega) (by omega), ytd_eq (by omega) (by omega), Int.sub_add_cancel]
  simp only [ymdts, hytd, isleap_eq, february]
  split
  · unfold i32
    rw [Int.bmod_add_bmod, Int.sub_eq_add_neg, Int.add_assoc, Int.bmod_add_bmod, ← Int.add_assoc,
      ← Int.sub_eq_add_neg]
    rfl
  · rw [Int.sub_zero]
    exact Int.bmod_add_bmod

/-- `__ymdts()` numbers the dates. -/
theorem ymdts_number (d : Date) (h : 1 ≤ d.year) (hle : d.year ≤ 14699) :
    ymdts d.year (d.month + 1) d.day = d.number := by
  have hm := d.month_lt
  have h0 := d.yearDay_nonneg
  have h1 := d.yearDay_lt
  have h2 := (yearLength_bounds (isLeap d.year)).2
  have hsum : d.day + mtd (d.month + 1) - february (isLeap d.year) (d.month + 1) + daysBeforeYear d.year =
      d.number := by
    rw [Date.number, Date.yearDay, mtd_eq (isLeap d.year) (by omega)]
    omega
  rw [ymdts_eq h (by omega), hsum]
  refine i32_eq ?_ ?_ <;> unfold Date.number daysBeforeYear <;> omega

/-- The search for the year finds it. -/
theorem year_search {scalar : Int} (h : 1 ≤ scalar) (hle : scalar ≤ 5368699) :
    ∃ n, Loop.run (fun _ => none) (yearTurn scalar) (2 ^ 32) (u32 ((i32 (scalar * 400)).tdiv 146097)) = some n ∧
      1 ≤ n ∧ n ≤ 14700 ∧ daysBeforeYear n < scalar ∧ scalar ≤ daysBeforeYear (n + 1) := by
  have hstart : u32 ((i32 (scalar * 400)).tdiv 146097) = scalar * 400 / 146097 := by
    rw [i32_eq (by omega) (by omega), Int.tdiv_eq_ediv_of_nonneg (by omega)]
    exact u32_eq (by omega) (by omega)
  rw [hstart]
  refine Loop.run_rank
    (fun k n => (k : Int) = scalar * 400 / 146097 + 2 - n ∧ 0 ≤ n ∧ daysBeforeYear n < scalar)
    (fun out => ∃ n, out = some n ∧ 1 ≤ n ∧ n ≤ 14700 ∧ daysBeforeYear n < scalar ∧
      scalar ≤ daysBeforeYear (n + 1)) ?_ ⟨by omega, by omega, ?_⟩ (by decide : 2 < 2 ^ 32)
  · rintro k n ⟨hk, hn, hlt⟩
    have hytd := ytd_eq hn (by omega)
    by_cases hagain : ytd n < scalar
    · refine .inl ⟨_, k - 1, if_pos hagain, ?_⟩
      rw [u32_eq (by omega) (by omega)]
      rw [hytd] at hagain
      have hk' : n < scalar * 400 / 146097 + 2 := by
        by_contra hge
        unfold daysBeforeYear at hagain
        omega
      exact ⟨by omega, by omega, by omega, hagain⟩
    · refine .inr ⟨_, if_neg hagain, n, rfl, ?_, by omega, hlt, by omega⟩
      by_contra hzero
      obtain rfl : n = 0 := by omega
      have : daysBeforeYear (0 + 1) = 0 := by decide
      omega
  · unfold daysBeforeYear
    omega

/-- **`__stymd()` finds the date of a scalar**, from 1-01-01 to 14699-12-31. -/
theorem stymd_spec {scalar : Int} (h : 1 ≤ scalar) (hle : scalar ≤ 5368699) :
    ∃ d : Date, d.number = scalar ∧ 1 ≤ d.year ∧
      stymd scalar = some (d.year, (d.month : Int) + 1, d.day) := by
  obtain ⟨y, hrun, hy, hy', hlt, hge⟩ := year_search h hle
  have hytd : ytd (u32 (y - 1)) = daysBeforeYear y := by
    rw [u32_eq (by omega) (by omega), ytd_eq (by omega) (by omega), Int.sub_add_cancel]
  have hlen := yearLength_bounds (isLeap y)
  rw [daysBeforeYear_succ] at hge
  have hn : u32 (scalar - daysBeforeYear y) = scalar - daysBeforeYear y := u32_eq (by omega) (by omega)
  obtain ⟨m, hm, hmo, hfirst, hlast, hday⟩ :=
    spread_spec (isLeap y) (n := scalar - daysBeforeYear y) (by omega) (by omega)
  rw [daysBeforeMonth] at hlast
  refine ⟨⟨y, m, scalar - daysBeforeYear y - daysBeforeMonth (isLeap y) m, hm, by omega, by omega⟩, ?_, hy, ?_⟩
  · simp only [Date.number, Date.yearDay]
    omega
  · have hspread : (if 59 < scalar - daysBeforeYear y then
          if isLeap y then
            u32 (u32 (scalar - daysBeforeYear y + 2) - if 62 < u32 (scalar - daysBeforeYear y + 2) then 1 else 2)
          else u32 (scalar - daysBeforeYear y + 2)
        else scalar - daysBeforeYear y) = spread (isLeap y) (scalar - daysBeforeYear y) := by
      have htwo : u32 (scalar - daysBeforeYear y + 2) = scalar - daysBeforeYear y + 2 :=
        u32_eq (by omega) (by omega)
      rw [htwo, spread]
      split
      · split
        · exact u32_eq (by split <;> omega) (by split <;> omega)
        · rfl
      · rfl
    simp only [stymd, hrun, Option.bind_eq_bind, Option.bind_some, hytd, hn, isleap_eq, hspread]
    have hs : 1 ≤ spread (isLeap y) (scalar - daysBeforeYear y) ∧
        spread (isLeap y) (scalar - daysBeforeYear y) ≤ 368 := by
      unfold spread
      split <;> (try split) <;> (try split) <;> omega
    have hbefore := daysBeforeMonth_nonneg (isLeap y) m
    have hmul : u32 (spread (isLeap y) (scalar - daysBeforeYear y) * 100 + 3007) =
        spread (isLeap y) (scalar - daysBeforeYear y) * 100 + 3007 := u32_eq (by omega) (by omega)
    have hmday : u32 (scalar - daysBeforeYear y - daysBeforeMonth (isLeap y) m) =
        scalar - daysBeforeYear y - daysBeforeMonth (isLeap y) m := u32_eq (by omega) (by omega)
    rw [hmul, hmo, hday, hmday]
    rfl

end Libc370.Time
