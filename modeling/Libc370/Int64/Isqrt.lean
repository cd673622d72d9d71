import Libc370.Int64.Objects
import Libc370.Lib.Bisect

/-! The square root (`ext/int64/@@64isqr.c`).

`__64_isqrt()` bisects the numbers up to its operand, and goes down from a probe whose
square is larger. The square is that of `__64_mul()`, modulo `2 ^ 64`: from `2 ^ 32` on a
probe is too large for every operand, but its square may come out small, and then the
search goes up for good. So the root is stored exactly when the search with the true
squares meets no such probe (`isqrt_root_iff`); up to `2 ^ 33 - 3` it never does. -/
namespace Libc370.Int64.Objects

open Bisect
open Function (update)

variable {ι : Type*} [DecidableEq ι]

inductive SqrtLocal
  | low
  | high
  | mid
  | tmp
  deriving DecidableEq

/-- The loop of `__64_isqrt()`. -/
def isqrtTurn (junk : U64) (a : ι) (f : Store (ι ⊕ SqrtLocal)) :
    Loop.Turn (Store (ι ⊕ SqrtLocal)) (Option (Store (ι ⊕ SqrtLocal))) :=
  if cmp (f (.inr .high)) (f (.inr .low)) = .gt then
    let f := mul junk (.inr .mid) (.inr .mid) (.inr .tmp) f
    let f :=
      if cmp (f (.inr .tmp)) (f (.inl a)) = .gt then dec (.inr .high) (copy (.inr .mid) (.inr .high) f)
      else copy (.inr .mid) (.inr .low) f
    let f := sub (.inr .high) (.inr .low) (.inr .mid) f
    let f := rshiftOneBit (.inr .mid) f
    let f := add (.inr .low) (.inr .mid) (.inr .mid) f
    .again (inc (.inr .mid) f)
  else .leave (some f)

/-- `__64_isqrt()`. It is `none` if the loop were to go on for more turns than these. -/
def isqrt (junk : U64) (a b : ι) (s : Store ι) : Option (Store ι) := do
  let f := init (.inr .low) (enter junk s)
  let f := copy (.inl a) (.inr .high) f
  let f := rshift (.inr .high) (.inr .mid) 1 f
  let f := inc (.inr .mid) f
  let f ← Loop.run (fun _ => none) (isqrtTurn junk a) 65 f
  return leave (copy (.inr .low) (.inl b) f)

/-- The integer square root of `x`. -/
def IsRoot (x r : Nat) : Prop := r * r ≤ x ∧ x < (r + 1) * (r + 1)

/-- A probe whose square is larger than `x`. -/
def above (x m : Nat) : Bool := decide (x < m * m)

/-- The same as the code finds it, by a product modulo `2 ^ 64`. -/
def aboveMod (x m : Nat) : Bool := decide (x < m * m % 2 ^ 64)

/-- The probes of the search with the true squares. -/
def rootProbes (x : Nat) : List Nat := probes (above x) 0 x

/-! ### The loop is a bisection -/

/-- The frame of the loop: it has a range left, with its middle, and the search of that
range comes to `r`. -/
structure SqrtFrame (s : Store ι) (x r n : Nat) (f : Store (ι ⊕ SqrtLocal)) : Prop where
  objects : leave f = s
  range : (f (.inr .low)).toNat ≤ (f (.inr .high)).toNat
  width : (f (.inr .high)).toNat - (f (.inr .low)).toNat < 2 ^ n
  mid : (f (.inr .low)).toNat < (f (.inr .high)).toNat →
    (f (.inr .mid)).toNat = middle (f (.inr .low)).toNat (f (.inr .high)).toNat
  finds : search (aboveMod x) (f (.inr .low)).toNat (f (.inr .high)).toNat = r

/-- The frame the loop ends with. -/
def SqrtOut (s : Store ι) (r : Nat) (out : Option (Store (ι ⊕ SqrtLocal))) : Prop :=
  ∃ f, out = some f ∧ leave f = s ∧ (f (.inr .low)).toNat = r

/-- The middle as the code computes it. -/
theorem middle_eq {low high : U64} (h : low.toNat < high.toNat) :
    (low + BitVec.ofNat 64 ((high - low).toNat / 2) + 1).toNat = middle low.toNat high.toNat := by
  have hlow := low.isLt
  have hhigh := high.isLt
  have hsub : (high - low).toNat = high.toNat - low.toNat := BitVec.toNat_sub_of_le (by
    rw [BitVec.le_def]
    omega)
  have hone : (1 : U64).toNat = 1 := rfl
  rw [BitVec.toNat_add, BitVec.toNat_add, BitVec.toNat_ofNat, hsub, hone, middle]
  omega

/-- What a turn does to the range. -/
theorem isqrtTurn_view (junk : U64) (a : ι) (f : Store (ι ⊕ SqrtLocal)) :
    isqrtTurn junk a f =
      if (f (.inr .low)).toNat < (f (.inr .high)).toNat then
        let tmp := f (.inr .mid) * f (.inr .mid)
        let (low, high) :=
          if (f (.inl a)).toNat < tmp.toNat then (f (.inr .low), f (.inr .mid) - 1) else (f (.inr .mid), f (.inr .high))
        let mid := low + BitVec.ofNat 64 ((high - low).toNat / 2) + 1
        .again (update (update (update (update f (.inr .tmp) tmp) (.inr .high) high) (.inr .low) low) (.inr .mid) mid)
      else .leave (some f) := by
  have hhalf : ∀ x : U64, Int64.rshiftOneBit x = BitVec.ofNat 64 (x.toNat / 2) := by
    intro x
    apply BitVec.eq_of_toNat_eq
    rw [rshiftOneBit_toNat, BitVec.toNat_ofNat, Nat.mod_eq_of_lt]
    exact Nat.lt_of_le_of_lt (Nat.div_le_self _ _) x.isLt
  have hcmp : ∀ x y : U64, cmp x y = .gt ↔ y.toNat < x.toNat := fun x y => compare_gt_iff_gt
  unfold isqrtTurn
  simp only [hcmp]
  split
  · refine congrArg Loop.Turn.again ?_
    simp only [mul_spec, Function.update_self, ne_eq, reduceCtorEq, not_false_eq_true, Function.update_of_ne]
    split
    · simp only [sub_spec, add_spec, copy, dec, inc, rshiftOneBit, hhalf, dec_eq, inc_eq]
      funext p
      rcases p with p | p
      · simp
      · cases p <;> simp
    · simp only [sub_spec, add_spec, copy, inc, rshiftOneBit, hhalf, inc_eq]
      funext p
      rcases p with p | p
      · simp
      · cases p <;> simp
  · rfl

/-- The frame with what a turn stores. -/
theorem sqrtFrame_store {s : Store ι} {x r n : Nat} {f : Store (ι ⊕ SqrtLocal)} (hobjects : leave f = s) (tmp : U64)
    {low high : U64} (hrange : low.toNat ≤ high.toNat) (hwidth : high.toNat - low.toNat < 2 ^ n)
    (hfinds : search (aboveMod x) low.toNat high.toNat = r) :
    SqrtFrame s x r n (update (update (update (update f (.inr .tmp) tmp) (.inr .high) high) (.inr .low) low)
      (.inr .mid) (low + BitVec.ofNat 64 ((high - low).toNat / 2) + 1)) := by
  generalize hmid : low + BitVec.ofNat 64 ((high - low).toNat / 2) + 1 = mid
  generalize hg : update (update (update (update f (.inr .tmp) tmp) (.inr .high) high) (.inr .low) low)
    (.inr .mid) mid = g
  have hlow : g (.inr .low) = low := by simp [← hg]
  have hhigh : g (.inr .high) = high := by simp [← hg]
  have hmid' : g (.inr .mid) = mid := by simp [← hg]
  refine ⟨by simp [← hg, hobjects], ?_, ?_, fun hlt => ?_, ?_⟩
  · rwa [hlow, hhigh]
  · rwa [hlow, hhigh]
  · rw [hlow, hhigh] at hlt ⊢
    rw [hmid', ← hmid]
    exact middle_eq hlt
  · rwa [hlow, hhigh]

theorem sqrtFrame_turn (junk : U64) {a : ι} {s : Store ι} {r n : Nat} {f : Store (ι ⊕ SqrtLocal)}
    (h : SqrtFrame s (s a).toNat r n f) :
    (∃ f' m, isqrtTurn junk a f = .again f' ∧ m < n ∧ SqrtFrame s (s a).toNat r m f') ∨
      ∃ out, isqrtTurn junk a f = .leave out ∧ SqrtOut s r out := by
  obtain ⟨hobjects, hrange, hwidth, hmid, hfinds⟩ := h
  have ha : f (.inl a) = s a := congrFun hobjects a
  rw [isqrtTurn_view, ha]
  by_cases hlt : (f (.inr .low)).toNat < (f (.inr .high)).toNat
  · have hmiddle := hmid hlt
    have hlm := low_lt_middle (f (.inr .low)).toNat (f (.inr .high)).toNat
    have hmh := middle_le hlt
    have hhalf : middle (f (.inr .low)).toNat (f (.inr .high)).toNat =
      (f (.inr .low)).toNat + ((f (.inr .high)).toNat - (f (.inr .low)).toNat) / 2 + 1 := rfl
    have hprobe : aboveMod (s a).toNat (middle (f (.inr .low)).toNat (f (.inr .high)).toNat) =
        decide ((s a).toNat < (f (.inr .mid) * f (.inr .mid)).toNat) := by
      rw [aboveMod, BitVec.toNat_mul, hmiddle]
    cases n with
    | zero =>
      rw [pow_zero] at hwidth
      omega
    | succ k =>
      rw [pow_succ] at hwidth
      rw [if_pos hlt]
      dsimp only
      by_cases hsquare : (s a).toNat < (f (.inr .mid) * f (.inr .mid)).toNat
      · -- down: `high` is the place below the probe
        have hdec : (f (.inr .mid) - 1).toNat = middle (f (.inr .low)).toNat (f (.inr .high)).toNat - 1 := by
          have hone : (1 : U64).toNat = 1 := rfl
          rw [BitVec.toNat_sub_of_le (by rw [BitVec.le_def, hmiddle, hone]; omega), hmiddle, hone]
        rw [search_down hlt (hprobe.trans (decide_eq_true hsquare)), ← hdec] at hfinds
        have hrange' : (f (.inr .low)).toNat ≤ (f (.inr .mid) - 1).toNat := by omega
        have hwidth' : (f (.inr .mid) - 1).toNat - (f (.inr .low)).toNat < 2 ^ k := by omega
        rw [if_pos hsquare]
        exact .inl ⟨_, k, rfl, Nat.lt_succ_self k, sqrtFrame_store hobjects _ hrange' hwidth' hfinds⟩
      · -- up: `low` is the probe
        rw [search_up hlt (hprobe.trans (decide_eq_false hsquare)), ← hmiddle] at hfinds
        have hrange' : (f (.inr .mid)).toNat ≤ (f (.inr .high)).toNat := by omega
        have hwidth' : (f (.inr .high)).toNat - (f (.inr .mid)).toNat < 2 ^ k := by omega
        rw [if_neg hsquare]
        exact .inl ⟨_, k, rfl, Nat.lt_succ_self k, sqrtFrame_store hobjects _ hrange' hwidth' hfinds⟩
  · rw [if_neg hlt]
    rw [search_done hlt] at hfinds
    exact .inr ⟨_, rfl, f, rfl, hobjects, hfinds⟩

/-- The loop starts with all the numbers up to the operand. -/
theorem sqrtFrame_start (junk : U64) (a : ι) (s : Store ι) :
    SqrtFrame s (s a).toNat (search (aboveMod (s a).toNat) 0 (s a).toNat) 64
      (inc (.inr .mid) (rshift (.inr .high) (.inr .mid) 1
        (copy (.inl a) (.inr .high) (init (.inr .low) (enter junk s))))) := by
  have hsa := (s a).isLt
  generalize hf : inc (.inr .mid) (rshift (.inr .high) (.inr .mid) 1
    (copy (.inl a) (.inr .high) (init (.inr .low) (enter (L := SqrtLocal) junk s)))) = f
  have hshift : ∀ g : Store (ι ⊕ SqrtLocal), rshift (.inr .high) (.inr .mid) 1 g =
      update g (.inr .mid) (BitVec.ofNat 64 ((g (.inr .high)).toNat / 2)) :=
    fun g => rshift_spec (.inr .high) (.inr .mid) 1 g
  have hlow : f (.inr .low) = 0 := by simp [← hf, inc, hshift, copy, init]
  have hhigh : f (.inr .high) = s a := by simp [← hf, inc, hshift, copy, init]
  have hmid : f (.inr .mid) = BitVec.ofNat 64 ((s a).toNat / 2) + 1 := by
    simp [← hf, inc, hshift, copy, init, inc_eq]
  have hzero : (0 : U64).toNat = 0 := rfl
  refine ⟨by simp [← hf, inc, hshift, copy, init], ?_, ?_, fun hlt => ?_, ?_⟩
  · rw [hlow, hzero]
    exact Nat.zero_le _
  · rw [hhigh, hlow, hzero]
    exact hsa
  · rw [hhigh, hlow] at hlt ⊢
    have hwhole : s a - 0 = s a := BitVec.sub_zero _
    have hmiddle := middle_eq hlt
    rw [hwhole, BitVec.add_assoc, ← hmid] at hmiddle
    rw [← hmiddle]
    exact congrArg BitVec.toNat (BitVec.zero_add _).symm
  · rw [hlow, hhigh]
    rfl

/-- `__64_isqrt()` leaves the loop, and stores what the bisection comes to. -/
theorem isqrt_spec (junk : U64) (a b : ι) (s : Store ι) :
    ∃ r : U64, isqrt junk a b s = some (update s b r) ∧
      r.toNat = search (aboveMod (s a).toNat) 0 (s a).toNat := by
  have hout : SqrtOut s (search (aboveMod (s a).toNat) 0 (s a).toNat)
      (Loop.run (fun _ => none) (isqrtTurn junk a) 65 _) :=
    Loop.run_rank (SqrtFrame s (s a).toNat _) (SqrtOut s _) (fun n f h => sqrtFrame_turn junk h)
      (sqrtFrame_start junk a s) (by decide : 64 < 65)
  obtain ⟨f, hrun, hobjects, hlow⟩ := hout
  refine ⟨f (.inr .low), ?_, hlow⟩
  simp only [isqrt, hrun, Option.bind_eq_bind, Option.bind_some]
  rw [copy, leave_update_object, hobjects]
  rfl

/-! ### The root -/

theorem IsRoot.unique {x r r' : Nat} (h : IsRoot x r) (h' : IsRoot x r') : r = r' := by
  have hle : r < r' + 1 := Nat.mul_self_lt_mul_self_iff.mp (Nat.lt_of_le_of_lt h.1 h'.2)
  have hge : r' < r + 1 := Nat.mul_self_lt_mul_self_iff.mp (Nat.lt_of_le_of_lt h'.1 h.2)
  omega

/-- The search with the true squares finds the root. -/
theorem isRoot_search (x : Nat) : IsRoot x (search (above x) 0 x) := by
  obtain ⟨hbelow, hbehind⟩ := search_spec (above x) (Nat.zero_le x)
  refine ⟨?_, ?_⟩
  · rcases hbelow with hzero | hbelow
    · rw [hzero]
      exact Nat.zero_le x
    · exact Nat.not_lt.mp (of_decide_eq_false hbelow)
  · rcases hbehind with hend | hbehind
    · rw [hend]
      exact Nat.lt_of_lt_of_le (Nat.lt_succ_self x) (Nat.le_mul_self _)
    · exact of_decide_eq_true hbehind

/-- The code takes a probe for another side only if it is `2 ^ 32` or more. -/
theorem aboveMod_eq_iff {x m : Nat} (hx : x < 2 ^ 64) :
    aboveMod x m = above x m ↔ (2 ^ 32 ≤ m → x < m * m % 2 ^ 64) := by
  unfold aboveMod above
  by_cases hm : 2 ^ 32 ≤ m
  · have hsquare : 2 ^ 32 * 2 ^ 32 ≤ m * m := Nat.mul_le_mul hm hm
    have habove : x < m * m := by omega
    rw [decide_eq_true habove, decide_eq_true_iff]
    exact ⟨fun h _ => h, fun h => h hm⟩
  · have hsquare : m * m < 2 ^ 32 * 2 ^ 32 := Nat.mul_self_lt_mul_self (Nat.not_le.mp hm)
    rw [Nat.mod_eq_of_lt (by omega)]
    exact iff_of_true rfl (fun h => absurd h hm)

/-- The search of the code finds the root exactly when no probe is taken for another side. -/
theorem isRoot_iff {x : Nat} (hx : x < 2 ^ 64) :
    IsRoot x (search (aboveMod x) 0 x) ↔ ∀ m ∈ rootProbes x, 2 ^ 32 ≤ m → x < m * m % 2 ^ 64 := by
  have hsame : IsRoot x (search (aboveMod x) 0 x) ↔ search (aboveMod x) 0 x = search (above x) 0 x :=
    ⟨fun h => h.unique (isRoot_search x), fun h => by rw [h]; exact isRoot_search x⟩
  rw [hsame, search_eq_iff (Nat.zero_le x), rootProbes]
  exact forall₂_congr fun m _ => aboveMod_eq_iff hx

/-- **`__64_isqrt()` stores the square root exactly when no probe of `2 ^ 32` or more has a
square that comes out, modulo `2 ^ 64`, as the operand or less.** -/
theorem isqrt_root_iff (junk : U64) (a b : ι) (s : Store ι) :
    (∃ r : U64, isqrt junk a b s = some (update s b r) ∧ IsRoot (s a).toNat r.toNat) ↔
      ∀ m ∈ rootProbes (s a).toNat, 2 ^ 32 ≤ m → (s a).toNat < m * m % 2 ^ 64 := by
  obtain ⟨r, hisqrt, hr⟩ := isqrt_spec junk a b s
  rw [← isRoot_iff (s a).isLt, ← hr]
  constructor
  · rintro ⟨r', hisqrt', hroot⟩
    rw [hisqrt, Option.some_inj, (Function.update_injective s b).eq_iff] at hisqrt'
    rwa [hisqrt']
  · exact fun hroot => ⟨r, hisqrt, hroot⟩

/-- The first probe for `2 ^ 33 - 2` is `2 ^ 32`, and its square comes out as 0. -/
theorem isqrt_misses :
    ¬ ∃ r : U64, isqrt 0 (0 : Fin 2) 1 (fun _ => BitVec.ofNat 64 (2 ^ 33 - 2)) =
        some (update (fun _ => BitVec.ofNat 64 (2 ^ 33 - 2)) 1 r) ∧ IsRoot (2 ^ 33 - 2) r.toNat := by
  rintro ⟨r, hisqrt, hroot⟩
  obtain ⟨r', hisqrt', hr⟩ := isqrt_spec 0 (0 : Fin 2) 1 (fun _ => BitVec.ofNat 64 (2 ^ 33 - 2))
  rw [hisqrt, Option.some_inj, (Function.update_injective _ _).eq_iff] at hisqrt'
  have hx : (BitVec.ofNat 64 (2 ^ 33 - 2)).toNat = 2 ^ 33 - 2 := by decide
  have hprobe : 2 ^ 32 ∈ rootProbes (2 ^ 33 - 2) := by
    rw [rootProbes, probes, if_pos (by decide)]
    exact List.mem_cons_self
  rw [hisqrt', hr, hx, isRoot_iff (by decide)] at hroot
  exact absurd (hroot _ hprobe (Nat.le_refl _)) (by decide)

end Libc370.Int64.Objects
