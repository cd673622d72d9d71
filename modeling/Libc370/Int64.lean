import Libc370.Lib.Limbs
import Libc370.Lib.Loop

/-! The software 64-bit integers (`ext/int64`).

`__64` is eight bytes seen three ways: one `u64`, two words `u32[]`, four halfwords
`array[]`, the most significant first. A value is a `BitVec 64`, and the views are
functions of it. Each operation is written on the view the source uses and shown
equal to the operation on the value. Operands and result are values here; the
operations on objects that may be the same are in `Int64.Objects`. -/
namespace Libc370.Int64

open Nat (ofDigits)

abbrev U64 := BitVec 64

/-- `array[i]`. -/
def array (n : U64) (i : Nat) : Nat := n.toNat / 2 ^ (16 * (3 - i)) % 2 ^ 16

/-- The halfwords from `array[3]` to `array[0]`, the order in which carries go. -/
def limbs (n : U64) : List Nat := [array n 3, array n 2, array n 1, array n 0]

def ofLimbs (l : List Nat) : U64 := BitVec.ofNat 64 (ofDigits (2 ^ 16) l)

/-- `u32[0]` and `u32[1]`. -/
def high (n : U64) : Nat := n.toNat / 2 ^ 32

def low (n : U64) : Nat := n.toNat % 2 ^ 32

def ofWords (high low : Nat) : U64 := BitVec.ofNat 64 (high * 2 ^ 32 + low)

/-- `__64_from_u32()`. -/
def fromU32 (i : Nat) : U64 := ofWords 0 i

/-- `__64_to_i32()`: the low word without its sign bit. -/
def toI32 (n : U64) : Nat := low n % 2 ^ 31

/-- `__64_is_zero()`. -/
def isZero (n : U64) : Bool := n.toNat == 0

/-- `__64_cmp()`. -/
def cmp (a b : U64) : Ordering := compare a.toNat b.toNat

/-- `__64_add()`. -/
def add (a b : U64) : U64 := ofLimbs (Limbs.add (2 ^ 16) (limbs a) (limbs b) 0)

/-- `__64_sub()`. -/
def sub (a b : U64) : U64 := ofLimbs (Limbs.sub (2 ^ 16) (limbs a) (limbs b) 0)

/-- `__64_from_i32()`. -/
def fromI32 (i : BitVec 32) : U64 := if i.toInt < 0 then sub 0 (fromU32 (-i).toNat) else fromU32 i.toNat

/-- `__64_add_u32()`. -/
def addU32 (a : U64) (b : Nat) : U64 := add a (fromU32 b)

/-- `__64_sub_u32()`. -/
def subU32 (a : U64) (b : Nat) : U64 := sub a (fromU32 b)

/-- `__64_cmp_u32()`. -/
def cmpU32 (a : U64) (b : Nat) : Ordering := cmp a (fromU32 b)

/-- `__64_add_i32()`: a negative number is made positive and subtracted. -/
def addI32 (a : U64) (b : Int) : U64 := if b < 0 then sub a (fromU32 b.natAbs) else add a (fromU32 b.natAbs)

/-- `__64_sub_i32()`. -/
def subI32 (a : U64) (b : Int) : U64 := if b < 0 then add a (fromU32 b.natAbs) else sub a (fromU32 b.natAbs)

/-- `__64_cmp_i32()`. -/
def cmpI32 (a : U64) (b : Int) : Ordering := cmp a (fromI32 (BitVec.ofInt 32 b))

/-- `__64_to_u32()`. -/
def toU32 (n : U64) : Nat := low n

/-- `__64_or()`. -/
def or (a b : U64) : U64 := a ||| b

/-- `__64_lshift_one_bit()`, word by word. -/
def lshiftOneBit (a : U64) : U64 :=
  ofWords ((high a <<< 1 ||| low a >>> 31) % 2 ^ 32) ((low a <<< 1) % 2 ^ 32)

/-- A halfword shifted right takes the low bit of the one above it. -/
def shiftIn (limb above : Nat) : Nat := limb >>> 1 ||| (above <<< 15) % 2 ^ 16

/-- `__64_rshift_one_bit()`, halfword by halfword. -/
def rshiftOneBit (a : U64) : U64 :=
  ofLimbs [shiftIn (array a 3) (array a 2), shiftIn (array a 2) (array a 1), shiftIn (array a 1) (array a 0),
    array a 0 >>> 1]

/-- `array[i] = v`, which keeps the low halfword of `v`. -/
def setArray (n : U64) (i v : Nat) : U64 := ofLimbs ((limbs n).set (3 - i) (v % 2 ^ 16))

/-- Halfwords move up, one place at a time. -/
def lshiftWords (a : U64) : Nat → U64
  | 0 => a
  | n + 1 => lshiftWords (ofLimbs [0, array a 3, array a 2, array a 1]) n

/-- Halfwords move down, one place at a time. -/
def rshiftWords (a : U64) : Nat → U64
  | 0 => a
  | n + 1 => rshiftWords (ofLimbs [array a 2, array a 1, array a 0, 0]) n

/-- A count of halfwords is held between 0 and `__64_ARRAY_SIZE`. -/
def wordCount (nwords : Int) : Nat :=
  let shift := if nwords < 0 then 0 else nwords
  let shift := if 4 < shift then 4 else shift
  shift.toNat

/-- `__64_lshift_word()`. -/
def lshiftWord (a : U64) (nwords : Int) : U64 := lshiftWords a (wordCount nwords)

/-- `__64_rshift_word()`. -/
def rshiftWord (a : U64) (nwords : Int) : U64 := if 0 ≤ nwords then rshiftWords a (wordCount nwords) else a

/-- The rest of `__64_lshift()`: less than a halfword, in place from `array[0]` on. -/
def lshiftBits (n : U64) (nbits : Nat) : U64 :=
  let n := [0, 1, 2].foldl (fun n i =>
    setArray n i (array n i <<< nbits ||| array n (i + 1) >>> (16 - nbits))) n
  setArray n 3 (array n 3 <<< nbits)

/-- The rest of `__64_rshift()`: less than a halfword, in place from `array[3]` on. -/
def rshiftBits (n : U64) (nbits : Nat) : U64 :=
  let n := [3, 2, 1].foldl (fun n i =>
    setArray n i (array n i >>> nbits ||| array n (i - 1) <<< (16 - nbits))) n
  setArray n 0 (array n 0 >>> nbits)

/-- `__64_inc()` on the halfwords that are left, the lowest first. -/
def incFrom (n : U64) : List Nat → U64
  | [] => n
  | i :: rest =>
    let tmp := array n i
    let res := (tmp + 1) % 2 ^ 16
    if tmp < res then setArray n i res else incFrom (setArray n i res) rest

/-- `__64_inc()`. -/
def inc (n : U64) : U64 := incFrom n [3, 2, 1, 0]

/-- `__64_dec()` on the halfwords that are left, the lowest first. -/
def decFrom (n : U64) : List Nat → U64
  | [] => n
  | i :: rest =>
    let tmp := array n i
    let res := (tmp + 2 ^ 16 - 1) % 2 ^ 16
    if ¬ tmp < res then setArray n i res else decFrom (setArray n i res) rest

/-- `__64_dec()`. -/
def dec (n : U64) : U64 := decFrom n [3, 2, 1, 0]

/-- A product of two halfwords, in its place, added to a row of `__64_mul()`. -/
def addProduct (row : U64) (intermediate x : Nat) : U64 :=
  if intermediate ≠ 0 then add (lshiftWord (fromU32 intermediate) x) row else row

/-- One row of `__64_mul()`: `a.array[i]` times `b`. -/
def mulRow (a b : U64) (i : Nat) : U64 :=
  [3, 2, 1, 0].foldl (fun row j =>
    if 2 < i + j then addProduct row (array a i * array b j) (6 - (i + j)) else row) 0

/-- `__64_mul()`. -/
def mul (a b : U64) : U64 := [3, 2, 1, 0].foldl (fun result i => add result (mulRow a b i)) 0

/-- `__64_mul_u32()`. -/
def mulU32 (a : U64) (b : Nat) : U64 := mul a (fromU32 b)

/-- `__64_mul_i32()`. -/
def mulI32 (a : U64) (b : Int) : U64 := mul a (fromI32 (BitVec.ofInt 32 b))

/-- The first loop of `__64_div()`: `(current, denom)` doubled until `denom` is larger
than `a`, or would overflow. It says whether it stopped for that. -/
def growTurn (a : U64) (x : U64 × U64) : Loop.Turn (U64 × U64) (Bool × U64 × U64) :=
  let (current, denom) := x
  if cmp denom a ≠ .gt then
    if 0x8000 ≤ array denom 0 then .leave (true, current, denom)
    else .again (lshiftOneBit current, lshiftOneBit denom)
  else .leave (false, current, denom)

/-- The second loop: `(current, denom, tmp, c)`. -/
def subtractTurn (x : U64 × U64 × U64 × U64) : Loop.Turn (U64 × U64 × U64 × U64) U64 :=
  let (current, denom, tmp, c) := x
  if !isZero current then
    let (tmp, c) := if cmp tmp denom ≠ .lt then (sub tmp denom, or c current) else (tmp, c)
    .again (rshiftOneBit current, rshiftOneBit denom, tmp, c)
  else .leave c

/-- `__64_div()`; a zero divisor gives 0. Neither loop takes more than 65 turns. -/
def div (a b : U64) : U64 :=
  if isZero b then 0
  else
    let (overflow, current, denom) :=
      Loop.run (fun (current, denom) => (false, current, denom)) (growTurn a) 65 (fromI32 1, b)
    let (denom, current) := if overflow then (denom, current) else (rshiftOneBit denom, rshiftOneBit current)
    Loop.run (·.2.2.2) subtractTurn 66 (current, denom, a, 0)

/-- `__64_divmod()`: quotient and remainder. -/
def divmod (a b : U64) : U64 × U64 :=
  let tmpc := div a b
  (tmpc, sub a (mul tmpc b))

/-- `__64_div_u32()`. -/
def divU32 (a : U64) (b : Nat) : U64 := div a (fromU32 b)

/-- `__64_divmod_u32()`. -/
def divmodU32 (a : U64) (b : Nat) : U64 × U64 := divmod a (fromU32 b)

/-- `__64_mod_u32()`. -/
def modU32 (a : U64) (b : Nat) : U64 := (divmodU32 a b).2

/-! ### The operations on the views are those on the value -/

theorem ofDigits_limbs (n : U64) : ofDigits (2 ^ 16) (limbs n) = n.toNat := by
  have := n.isLt
  simp only [limbs, array, Nat.ofDigits_cons, Nat.ofDigits_nil]
  omega

theorem limbs_lt (n : U64) : ∀ x ∈ limbs n, x < 2 ^ 16 := by
  simp only [limbs, array, List.mem_cons, List.not_mem_nil, or_false]
  rintro x (rfl | rfl | rfl | rfl) <;> omega

/-- The value in its halfwords. -/
theorem toNat_eq (n : U64) :
    n.toNat = array n 3 + array n 2 * 2 ^ 16 + array n 1 * 2 ^ 32 + array n 0 * 2 ^ 48 := by
  rw [← ofDigits_limbs n]
  simp only [limbs, Nat.ofDigits_cons, Nat.ofDigits_nil]
  omega

theorem array_lt (n : U64) (i : Nat) : array n i < 2 ^ 16 := Nat.mod_lt _ (by decide)

theorem add_eq (a b : U64) : add a b = a + b := by
  have hlen : (limbs a).length = (limbs b).length := rfl
  obtain ⟨out, -, h⟩ := Limbs.add_value 0 hlen (limbs_lt a) (limbs_lt b) (Nat.zero_le 1)
  rw [ofDigits_limbs, ofDigits_limbs, show (limbs a).length = 4 from rfl] at h
  apply BitVec.eq_of_toNat_eq
  rw [add, ofLimbs, BitVec.toNat_ofNat, BitVec.toNat_add, ← Nat.add_zero (a.toNat + b.toNat), ← h]
  omega

theorem sub_eq (a b : U64) : sub a b = a - b := by
  have hlen : (limbs a).length = (limbs b).length := rfl
  obtain ⟨out, hout, h⟩ := Limbs.sub_value 0 hlen (limbs_lt a) (limbs_lt b) (Nat.zero_le 1)
  rw [ofDigits_limbs, ofDigits_limbs, show (limbs a).length = 4 from rfl] at h
  have ha := a.isLt
  have hb := b.isLt
  apply BitVec.eq_of_toNat_eq
  rw [sub, ofLimbs, BitVec.toNat_ofNat, BitVec.toNat_sub]
  interval_cases out <;> omega

theorem isZero_iff (n : U64) : isZero n = true ↔ n = 0 := by
  rw [isZero, beq_iff_eq, ← BitVec.toNat_inj]
  rfl

theorem fromU32_toNat {i : Nat} (h : i < 2 ^ 32) : (fromU32 i).toNat = i := by
  rw [fromU32, ofWords, BitVec.toNat_ofNat]
  omega

theorem lshiftOneBit_toNat (a : U64) : (lshiftOneBit a).toNat = 2 * a.toNat % 2 ^ 64 := by
  have ha := a.isLt
  have hor : high a <<< 1 ||| low a >>> 31 = 2 * high a + low a / 2 ^ 31 := by
    have hbit : low a / 2 ^ 31 < 2 ^ 1 := by rw [low]; omega
    rw [Nat.shiftLeft_eq, Nat.shiftRight_eq_div_pow, Nat.mul_comm, pow_one]
    exact (Nat.two_pow_add_eq_or_of_lt hbit (high a)).symm
  rw [lshiftOneBit, hor, ofWords, BitVec.toNat_ofNat, Nat.shiftLeft_eq]
  simp only [high, low]
  omega

theorem shiftIn_eq {limb : Nat} (above : Nat) (h : limb < 2 ^ 16) :
    shiftIn limb above = limb / 2 + above % 2 * 2 ^ 15 := by
  have hmod : (above <<< 15) % 2 ^ 16 = 2 ^ 15 * (above % 2) := by
    rw [Nat.shiftLeft_eq]
    omega
  have hlow : limb >>> 1 < 2 ^ 15 := by
    rw [Nat.shiftRight_eq_div_pow]
    omega
  rw [shiftIn, hmod, Nat.lor_comm, ← Nat.two_pow_add_eq_or_of_lt hlow, Nat.shiftRight_eq_div_pow]
  omega

theorem rshiftOneBit_toNat (a : U64) : (rshiftOneBit a).toNat = a.toNat / 2 := by
  have h3 := array_lt a 3
  have h2 := array_lt a 2
  have h1 := array_lt a 1
  have h0 := array_lt a 0
  rw [rshiftOneBit, shiftIn_eq _ h3, shiftIn_eq _ h2, shiftIn_eq _ h1, ofLimbs, BitVec.toNat_ofNat,
    Nat.shiftRight_eq_div_pow, toNat_eq a]
  simp only [Nat.ofDigits_cons, Nat.ofDigits_nil]
  omega

theorem ofLimbs_toNat {x₃ x₂ x₁ x₀ : Nat} (h₃ : x₃ < 2 ^ 16) (h₂ : x₂ < 2 ^ 16) (h₁ : x₁ < 2 ^ 16)
    (h₀ : x₀ < 2 ^ 16) :
    (ofLimbs [x₃, x₂, x₁, x₀]).toNat = x₃ + x₂ * 2 ^ 16 + x₁ * 2 ^ 32 + x₀ * 2 ^ 48 := by
  rw [ofLimbs, BitVec.toNat_ofNat]
  simp only [Nat.ofDigits_cons, Nat.ofDigits_nil]
  omega

theorem limbs_ofLimbs {x₃ x₂ x₁ x₀ : Nat} (h₃ : x₃ < 2 ^ 16) (h₂ : x₂ < 2 ^ 16) (h₁ : x₁ < 2 ^ 16)
    (h₀ : x₀ < 2 ^ 16) : limbs (ofLimbs [x₃, x₂, x₁, x₀]) = [x₃, x₂, x₁, x₀] := by
  simp only [limbs, array, ofLimbs_toNat h₃ h₂ h₁ h₀, List.cons.injEq, and_true]
  omega

theorem ofLimbs_limbs (n : U64) : ofLimbs (limbs n) = n := by
  rw [ofLimbs, ofDigits_limbs, BitVec.ofNat_toNat, BitVec.setWidth_eq]

theorem limbs_setArray (n : U64) (i v : Nat) : limbs (setArray n i v) = (limbs n).set (3 - i) (v % 2 ^ 16) := by
  have hv : v % 2 ^ 16 < 2 ^ 16 := Nat.mod_lt _ (by decide)
  have h := array_lt n
  obtain h0 | h0 | h0 | h0 : 3 - i = 0 ∨ 3 - i = 1 ∨ 3 - i = 2 ∨ 3 - i = 3 := by omega
  · rw [setArray, h0]
    exact limbs_ofLimbs hv (h 2) (h 1) (h 0)
  · rw [setArray, h0]
    exact limbs_ofLimbs (h 3) hv (h 1) (h 0)
  · rw [setArray, h0]
    exact limbs_ofLimbs (h 3) (h 2) hv (h 0)
  · rw [setArray, h0]
    exact limbs_ofLimbs (h 3) (h 2) (h 1) hv

theorem lshiftWords_toNat (a : U64) (n : Nat) :
    (lshiftWords a n).toNat = a.toNat * 2 ^ (16 * n) % 2 ^ 64 := by
  induction n generalizing a with
  | zero =>
    have := a.isLt
    simp only [lshiftWords, Nat.mul_zero, pow_zero, Nat.mul_one]
    omega
  | succ n ih =>
    have hone : (ofLimbs [0, array a 3, array a 2, array a 1]).toNat = a.toNat * 2 ^ 16 % 2 ^ 64 := by
      rw [ofLimbs_toNat (by decide) (array_lt a 3) (array_lt a 2) (array_lt a 1), toNat_eq a]
      have := array_lt a 1
      have := array_lt a 2
      have := array_lt a 3
      omega
    have hpow : 2 ^ 16 * 2 ^ (16 * n) = 2 ^ (16 * (n + 1)) := by
      rw [← pow_add, Nat.mul_succ, Nat.add_comm]
    rw [lshiftWords, ih, hone, Nat.mod_mul_mod, Nat.mul_assoc, hpow]

theorem rshiftWords_toNat (a : U64) (n : Nat) : (rshiftWords a n).toNat = a.toNat / 2 ^ (16 * n) := by
  induction n generalizing a with
  | zero => rw [rshiftWords, Nat.mul_zero, pow_zero, Nat.div_one]
  | succ n ih =>
    have hone : (ofLimbs [array a 2, array a 1, array a 0, 0]).toNat = a.toNat / 2 ^ 16 := by
      rw [ofLimbs_toNat (array_lt a 2) (array_lt a 1) (array_lt a 0) (by decide), toNat_eq a]
      have := array_lt a 3
      omega
    have hpow : 2 ^ 16 * 2 ^ (16 * n) = 2 ^ (16 * (n + 1)) := by
      rw [← pow_add, Nat.mul_succ, Nat.add_comm]
    rw [rshiftWords, ih, hone, Nat.div_div_eq_div_mul, hpow]

theorem wordCount_natCast (n : Nat) : wordCount n = min n 4 := by
  simp only [wordCount]
  omega

/-- More than four halfwords are as good as four. -/
theorem lshiftWord_toNat (a : U64) (n : Nat) : (lshiftWord a n).toNat = a.toNat * 2 ^ (16 * n) % 2 ^ 64 := by
  rw [lshiftWord, wordCount_natCast, lshiftWords_toNat]
  rcases Nat.le_total n 4 with hle | hle
  · rw [Nat.min_eq_left hle]
  · obtain ⟨k, rfl⟩ := Nat.exists_eq_add_of_le hle
    rw [Nat.min_eq_right hle, Nat.mul_mod_left, show 16 * (4 + k) = 64 + 16 * k by ring, pow_add,
      Nat.mul_left_comm, Nat.mul_mod_right]

theorem rshiftWord_toNat (a : U64) (n : Nat) : (rshiftWord a n).toNat = a.toNat / 2 ^ (16 * n) := by
  rw [rshiftWord, if_pos (Int.natCast_nonneg n), wordCount_natCast, rshiftWords_toNat]
  rcases Nat.le_total n 4 with hle | hle
  · rw [Nat.min_eq_left hle]
  · have ha := a.isLt
    have hpow : 2 ^ 64 ≤ 2 ^ (16 * n) := Nat.pow_le_pow_right (by decide) (by omega)
    rw [Nat.min_eq_right hle, Nat.div_eq_of_lt ha, Nat.div_eq_of_lt (Nat.lt_of_lt_of_le ha hpow)]

theorem array_setArray (n : U64) (v : Nat) {i j : Nat} (hi : i ≤ 3) (hj : j ≤ 3) :
    array (setArray n i v) j = if j = i then v % 2 ^ 16 else array n j := by
  have h := limbs_setArray n i v
  interval_cases i <;> interval_cases j <;> simp_all [limbs]

/-- The two parts of a halfword that moves across a boundary. -/
theorem shifted_or {x y k : Nat} (hy : y < 2 ^ 16) (hk : k ≤ 16) :
    (x <<< k ||| y >>> (16 - k)) % 2 ^ 16 = x % 2 ^ (16 - k) * 2 ^ k + y / 2 ^ (16 - k) := by
  have hpow : 2 ^ (16 - k) * 2 ^ k = 2 ^ 16 := by rw [← pow_add, Nat.sub_add_cancel hk]
  have hlow : y / 2 ^ (16 - k) < 2 ^ k := by
    rw [Nat.div_lt_iff_lt_mul (by positivity), Nat.mul_comm, hpow]
    exact hy
  have hfit : x % 2 ^ (16 - k) * 2 ^ k + y / 2 ^ (16 - k) < 2 ^ 16 := by
    have hx : x % 2 ^ (16 - k) + 1 ≤ 2 ^ (16 - k) := Nat.mod_lt _ (by positivity)
    calc x % 2 ^ (16 - k) * 2 ^ k + y / 2 ^ (16 - k) < (x % 2 ^ (16 - k) + 1) * 2 ^ k := by
          rw [Nat.add_mul, Nat.one_mul]; omega
      _ ≤ 2 ^ (16 - k) * 2 ^ k := Nat.mul_le_mul_right _ hx
      _ = 2 ^ 16 := hpow
  have hsplit : x <<< k + y / 2 ^ (16 - k) =
      2 ^ 16 * (x / 2 ^ (16 - k)) + (x % 2 ^ (16 - k) * 2 ^ k + y / 2 ^ (16 - k)) := by
    rw [Nat.shiftLeft_eq]
    conv_lhs => rw [← Nat.div_add_mod x (2 ^ (16 - k))]
    rw [← hpow]
    ring
  rw [Nat.shiftRight_eq_div_pow, Nat.shiftLeft_eq, Nat.mul_comm, ← Nat.two_pow_add_eq_or_of_lt hlow,
    Nat.mul_comm (2 ^ k), ← Nat.shiftLeft_eq, hsplit, Nat.mul_add_mod, Nat.mod_eq_of_lt hfit]

theorem shifted_mod {x k : Nat} (hk : k ≤ 16) : (x <<< k) % 2 ^ 16 = x % 2 ^ (16 - k) * 2 ^ k := by
  have h := shifted_or (x := x) (y := 0) (by decide) hk
  simpa using h

theorem lshiftBits_toNat (n : U64) {k : Nat} (hk : k ≤ 16) :
    (lshiftBits n k).toNat = n.toNat * 2 ^ k % 2 ^ 64 := by
  have h := array_lt n
  have hpow : 2 ^ (16 - k) * 2 ^ k = 2 ^ 16 := by rw [← pow_add, Nat.sub_add_cancel hk]
  have hlimbs : limbs (lshiftBits n k) = [array n 3 % 2 ^ (16 - k) * 2 ^ k,
      array n 2 % 2 ^ (16 - k) * 2 ^ k + array n 3 / 2 ^ (16 - k),
      array n 1 % 2 ^ (16 - k) * 2 ^ k + array n 2 / 2 ^ (16 - k),
      array n 0 % 2 ^ (16 - k) * 2 ^ k + array n 1 / 2 ^ (16 - k)] := by
    simp [-Nat.reducePow, lshiftBits, array_setArray, limbs, shifted_or (h _) hk, shifted_mod hk]
  -- the top half of each halfword goes into the one above; that of `array[0]` is lost
  have hsplit : ∀ i, array n i * 2 ^ k =
      array n i / 2 ^ (16 - k) * 2 ^ 16 + array n i % 2 ^ (16 - k) * 2 ^ k := by
    intro i
    conv_lhs => rw [← Nat.div_add_mod' (array n i) (2 ^ (16 - k))]
    rw [Nat.add_mul, Nat.mul_assoc, hpow]
  have hmul : n.toNat * 2 ^ k =
      ofDigits (2 ^ 16) (limbs (lshiftBits n k)) + 2 ^ 64 * (array n 0 / 2 ^ (16 - k)) := by
    rw [hlimbs, toNat_eq n, Nat.add_mul, Nat.add_mul, Nat.add_mul, Nat.mul_right_comm _ (2 ^ 16),
      Nat.mul_right_comm _ (2 ^ 32), Nat.mul_right_comm _ (2 ^ 48), hsplit, hsplit, hsplit, hsplit]
    simp only [Nat.ofDigits_cons, Nat.ofDigits_nil]
    ring
  rw [hmul, ofDigits_limbs, Nat.add_mul_mod_self_left, Nat.mod_eq_of_lt (lshiftBits n k).isLt]

theorem rshiftBits_toNat (n : U64) {k : Nat} (hk : k ≤ 16) :
    (rshiftBits n k).toNat = n.toNat / 2 ^ k := by
  have h := array_lt n
  have hpow : 2 ^ (16 - k) * 2 ^ k = 2 ^ 16 := by rw [← pow_add, Nat.sub_add_cancel hk]
  have hor : ∀ x y, y < 2 ^ 16 →
      (y >>> k ||| x <<< (16 - k)) % 2 ^ 16 = x % 2 ^ k * 2 ^ (16 - k) + y / 2 ^ k := by
    intro x y hy
    have hor := shifted_or (x := x) hy (Nat.sub_le 16 k)
    rwa [Nat.sub_sub_self hk, Nat.lor_comm] at hor
  have htop : array n 0 >>> k % 2 ^ 16 = array n 0 / 2 ^ k := by
    rw [Nat.shiftRight_eq_div_pow]
    exact Nat.mod_eq_of_lt (Nat.lt_of_le_of_lt (Nat.div_le_self _ _) (h 0))
  have hlimbs : limbs (rshiftBits n k) = [array n 2 % 2 ^ k * 2 ^ (16 - k) + array n 3 / 2 ^ k,
      array n 1 % 2 ^ k * 2 ^ (16 - k) + array n 2 / 2 ^ k,
      array n 0 % 2 ^ k * 2 ^ (16 - k) + array n 1 / 2 ^ k, array n 0 / 2 ^ k] := by
    simp [-Nat.reducePow, rshiftBits, array_setArray, limbs, hor _ _ (h _), htop]
  -- the bottom part of each halfword goes into the one below; that of `array[3]` is lost
  have hmul : n.toNat = 2 ^ k * ofDigits (2 ^ 16) (limbs (rshiftBits n k)) + array n 3 % 2 ^ k := by
    have hsplit : ∀ i, array n i = 2 ^ k * (array n i / 2 ^ k) + array n i % 2 ^ k :=
      fun i => (Nat.div_add_mod _ _).symm
    have hmoved : ∀ x, 2 ^ k * (x * 2 ^ (16 - k)) = x * 2 ^ 16 := by
      intro x
      rw [Nat.mul_left_comm, Nat.mul_comm (2 ^ k), hpow]
    have h0 := hsplit 0
    have h1 := hsplit 1
    have h2 := hsplit 2
    have h3 := hsplit 3
    rw [hlimbs, toNat_eq n]
    simp only [Nat.ofDigits_cons, Nat.ofDigits_nil, Nat.mul_add, Nat.mul_left_comm (2 ^ k) (2 ^ 16), hmoved]
    omega
  have hlost : array n 3 % 2 ^ k < 2 ^ k := Nat.mod_lt _ (by positivity)
  rw [hmul, ofDigits_limbs, Nat.mul_add_div (by positivity), Nat.div_eq_of_lt hlost, Nat.add_zero]

theorem inc_eq (n : U64) : inc n = n + 1 := by
  have h0 := array_lt n 0
  have h1 := array_lt n 1
  have h2 := array_lt n 2
  have h3 := array_lt n 3
  have hn := toNat_eq n
  apply BitVec.eq_of_toNat_eq
  rw [BitVec.toNat_add, toNat_eq (inc n), hn]
  -- the halfword at which the carry stops
  simp only [inc, incFrom]
  split_ifs <;> simp_all [array_setArray] <;> omega

theorem dec_eq (n : U64) : dec n = n - 1 := by
  have h0 := array_lt n 0
  have h1 := array_lt n 1
  have h2 := array_lt n 2
  have h3 := array_lt n 3
  have hn := toNat_eq n
  apply BitVec.eq_of_toNat_eq
  rw [BitVec.toNat_sub, toNat_eq (dec n), hn]
  simp only [dec, decFrom]
  split_ifs <;> simp_all [array_setArray] <;> omega

theorem addProduct_eq {x : Nat} (h : x < 2 ^ 32) (row : U64) (k : Nat) :
    addProduct row x k = row + BitVec.ofNat 64 (x * 2 ^ (16 * k)) := by
  unfold addProduct
  split
  · have hterm : lshiftWord (fromU32 x) k = BitVec.ofNat 64 (x * 2 ^ (16 * k)) := by
      apply BitVec.eq_of_toNat_eq
      rw [lshiftWord_toNat, fromU32_toNat h, BitVec.toNat_ofNat]
    rw [add_eq, hterm, BitVec.add_comm]
  · next hx =>
    rw [not_ne_iff.mp hx, Nat.zero_mul]
    simp

theorem mul_eq (a b : U64) : mul a b = a * b := by
  have hprod : ∀ i j, array a i * array b j < 2 ^ 32 := by
    intro i j
    calc array a i * array b j < 2 ^ 16 * 2 ^ 16 := Nat.mul_lt_mul'' (array_lt a i) (array_lt b j)
      _ = 2 ^ 32 := by norm_num
  -- the products that are left out are multiples of 2 ^ 64
  have hall : a.toNat * b.toNat =
      array a 3 * array b 3 + array a 3 * array b 2 * 2 ^ 16 + array a 3 * array b 1 * 2 ^ 32 +
        array a 3 * array b 0 * 2 ^ 48 + (array a 2 * array b 3 * 2 ^ 16 + array a 2 * array b 2 * 2 ^ 32 +
        array a 2 * array b 1 * 2 ^ 48) + (array a 1 * array b 3 * 2 ^ 32 + array a 1 * array b 2 * 2 ^ 48) +
        array a 0 * array b 3 * 2 ^ 48 + 2 ^ 64 * (array a 2 * array b 0 + array a 1 * array b 1 +
        array a 1 * array b 0 * 2 ^ 16 + array a 0 * array b 2 + array a 0 * array b 1 * 2 ^ 16 +
        array a 0 * array b 0 * 2 ^ 32) := by
    rw [toNat_eq a, toNat_eq b]
    ring
  apply BitVec.eq_of_toNat_eq
  rw [BitVec.toNat_mul, hall, Nat.add_mul_mod_self_left]
  simp only [mul, mulRow, List.foldl_cons, List.foldl_nil, addProduct_eq (hprod _ _), add_eq, Nat.reduceAdd,
    Nat.reduceLT, Nat.reduceSub, if_true, if_false]
  rw [show (0 : U64) = BitVec.ofNat 64 0 from rfl]
  simp only [← BitVec.ofNat_add]
  rw [BitVec.toNat_ofNat]
  refine congrArg (· % 2 ^ 64) ?_
  ring

theorem sub_toNat {a b : U64} (h : b.toNat ≤ a.toNat) : (sub a b).toNat = a.toNat - b.toNat := by
  rw [sub_eq]
  exact BitVec.toNat_sub_of_le h

/-! ### Division -/

/-- `(current, denom)` where the quotient's bits start: the next power would be too large. -/
def Grown (a b : Nat) (current denom : U64) : Prop :=
  (current = 0 ∧ a < b) ∨
    ∃ j, current.toNat = 2 ^ j ∧ denom.toNat = b * 2 ^ j ∧ a < b * 2 ^ (j + 1)

/-- The state of the doubling when at most `n` more turns will go round. -/
def Growing (b n : Nat) (x : U64 × U64) : Prop :=
  ∃ k, n = 64 - k ∧ k < 64 ∧ x.1.toNat = 2 ^ k ∧ x.2.toNat = b * 2 ^ k

/-- What the doubling leaves, with the halving that takes its last step back. -/
def GrownOut (a b : Nat) (r : Bool × U64 × U64) : Prop :=
  Grown a b (if r.1 then r.2.1 else rshiftOneBit r.2.1) (if r.1 then r.2.2 else rshiftOneBit r.2.2)

theorem growing_start (b : U64) : Growing b.toNat 64 (fromI32 1, b) := by
  have hone : (fromI32 1).toNat = 2 ^ 0 := by decide
  exact ⟨0, rfl, by decide, hone, by simp⟩

theorem growing_turn {a : U64} {b n : Nat} (hb : 0 < b) {x : U64 × U64} (h : Growing b n x) :
    (∃ x' m, growTurn a x = .again x' ∧ m < n ∧ Growing b m x') ∨
      ∃ r, growTurn a x = .leave r ∧ r.2 = x ∧ GrownOut a.toNat b r := by
  obtain ⟨current, denom⟩ := x
  obtain ⟨k, rfl, hk, hcur, hden⟩ := h
  have ha := a.isLt
  have hd := denom.isLt
  dsimp only at hcur hden
  simp only [growTurn]
  by_cases hgt : cmp denom a = .gt
  · -- one doubling too many
    have hlt : a.toNat < denom.toNat := compare_gt_iff_gt.mp hgt
    refine .inr ⟨_, if_neg (not_not.mpr hgt), rfl, ?_⟩
    simp only [GrownOut, Bool.false_eq_true, if_false, Grown, rshiftOneBit_toNat, hcur, hden]
    cases k with
    | zero =>
      refine .inl ⟨?_, by rw [hden] at hlt; simpa using hlt⟩
      apply BitVec.eq_of_toNat_eq
      rw [rshiftOneBit_toNat, hcur]
      rfl
    | succ j =>
      refine .inr ⟨j, ?_, ?_, by rwa [hden] at hlt⟩
      · rw [pow_succ, Nat.mul_div_cancel _ (by decide)]
      · rw [pow_succ, ← Nat.mul_assoc, Nat.mul_div_cancel _ (by decide)]
  · have hle : denom.toNat ≤ a.toNat := by
      rw [cmp, compare_gt_iff_gt] at hgt
      omega
    rw [if_pos hgt]
    by_cases hover : 0x8000 ≤ array denom 0
    · refine .inr ⟨_, if_pos hover, rfl, ?_⟩
      have hhalf : 2 ^ 63 ≤ denom.toNat := by
        rw [array] at hover
        omega
      simp only [GrownOut, if_true, Grown, hcur, hden]
      refine .inr ⟨k, rfl, rfl, ?_⟩
      rw [pow_succ, ← Nat.mul_assoc, ← hden]
      omega
    · have hhalf : denom.toNat < 2 ^ 63 := by
        rw [array] at hover
        omega
      have hk63 : k < 63 := by
        by_contra hge
        have : 2 ^ 63 ≤ 2 ^ k := Nat.pow_le_pow_right (by decide) (by omega)
        have : 2 ^ k ≤ b * 2 ^ k := Nat.le_mul_of_pos_left _ hb
        omega
      have hsmall : 2 ^ k < 2 ^ 63 := Nat.pow_lt_pow_right (by decide) hk63
      have hdouble : b * 2 ^ (k + 1) = 2 * denom.toNat := by
        rw [hden]
        ring
      refine .inl ⟨_, 64 - (k + 1), if_neg hover, by omega, k + 1, rfl, by omega, ?_, ?_⟩
      · rw [lshiftOneBit_toNat, hcur, pow_succ]
        omega
      · rw [lshiftOneBit_toNat, hdouble]
        omega

/-- The quotient's bits below `2 ^ j` are still to be found. -/
structure Subtracting (a b j : Nat) (current denom tmp c : U64) : Prop where
  power : current.toNat = 2 ^ j
  multiple : denom.toNat = b * 2 ^ j
  left : tmp.toNat < b * 2 ^ (j + 1)
  bits : 2 ^ (j + 1) ∣ c.toNat
  sum : tmp.toNat + c.toNat * b = a

/-- One bit of the quotient. -/
theorem Subtracting.bit {a b j : Nat} {current denom tmp c : U64} (h : Subtracting a b j current denom tmp c) :
    ∃ tmp' c' : U64, (if cmp tmp denom ≠ .lt then (sub tmp denom, or c current) else (tmp, c)) = (tmp', c') ∧
      tmp'.toNat < b * 2 ^ j ∧ 2 ^ j ∣ c'.toNat ∧ tmp'.toNat + c'.toNat * b = a := by
  obtain ⟨hcur, hden, htmp, ⟨m, hm⟩, hsum⟩ := h
  by_cases hlt : cmp tmp denom = .lt
  · rw [if_neg (not_not.mpr hlt)]
    rw [cmp, compare_lt_iff_lt, hden] at hlt
    exact ⟨tmp, c, rfl, hlt, ⟨2 * m, by rw [hm]; ring⟩, hsum⟩
  · rw [if_pos hlt]
    rw [cmp, compare_lt_iff_lt, Nat.not_lt] at hlt
    have hor : (or c current).toNat = c.toNat + 2 ^ j := by
      rw [or, BitVec.toNat_or, hcur, hm]
      exact (Nat.two_pow_add_eq_or_of_lt (Nat.pow_lt_pow_right (by decide) (Nat.lt_succ_self j)) m).symm
    refine ⟨_, _, rfl, ?_, ⟨2 * m + 1, by rw [hor, hm]; ring⟩, ?_⟩
    · rw [sub_toNat hlt, hden]
      rw [pow_succ, ← Nat.mul_assoc] at htmp
      omega
    · rw [sub_toNat hlt, hor, Nat.add_mul, hden, Nat.mul_comm (2 ^ j) b]
      omega

/-- The state of the subtracting when `n` more turns will go round:
`(current, denom, tmp, c)`. -/
def SubtractingIn (a b n : Nat) (x : U64 × U64 × U64 × U64) : Prop :=
  (n = 0 ∧ x.1 = 0 ∧ x.2.2.1.toNat < b ∧ x.2.2.1.toNat + x.2.2.2.toNat * b = a) ∨
    ∃ j, n = j + 1 ∧ Subtracting a b j x.1 x.2.1 x.2.2.1 x.2.2.2

theorem subtracting_start {a b : Nat} {current denom tmp : U64} (htmp : tmp.toNat = a)
    (h : Grown a b current denom) : ∃ n < 66, SubtractingIn a b n (current, denom, tmp, 0) := by
  subst htmp
  rcases h with ⟨hcur, hlt⟩ | ⟨j, hcur, hden, hlt⟩
  · exact ⟨0, by decide, .inl ⟨rfl, hcur, hlt, by simp⟩⟩
  · have hj : j < 64 := by
      by_contra hge
      have : 2 ^ 64 ≤ 2 ^ j := Nat.pow_le_pow_right (by decide) (by omega)
      have := current.isLt
      omega
    exact ⟨j + 1, by omega, .inr ⟨j, rfl, hcur, hden, hlt, dvd_zero _, by simp⟩⟩

/-- The bits of the quotient, from the highest down. -/
theorem subtracting_turn {a b n : Nat} (hb : 0 < b) {x : U64 × U64 × U64 × U64} (h : SubtractingIn a b n x) :
    (∃ x' m, subtractTurn x = .again x' ∧ m < n ∧ SubtractingIn a b m x') ∨
      ∃ c, subtractTurn x = .leave c ∧ c = x.2.2.2 ∧ c.toNat = a / b := by
  obtain ⟨current, denom, tmp, c⟩ := x
  rcases h with ⟨rfl, hcur, hlt, hsum⟩ | ⟨j, rfl, hsub⟩
  · dsimp only at hcur hlt hsum
    subst hcur
    refine .inr ⟨c, rfl, rfl, ?_⟩
    rw [← hsum, Nat.add_mul_div_right _ _ hb, Nat.div_eq_of_lt hlt, Nat.zero_add]
  · have hcur := hsub.power
    have hden := hsub.multiple
    obtain ⟨tmp', c', hbit, hlt, hdvd, hsum⟩ := hsub.bit
    have hnot : ¬ isZero current = true := by
      rw [isZero, beq_iff_eq, hcur]
      positivity
    have hturn : subtractTurn (current, denom, tmp, c) =
        .again (rshiftOneBit current, rshiftOneBit denom, tmp', c') := by
      simp only [subtractTurn, hnot, Bool.not_false, if_true, hbit]
    refine .inl ⟨_, j, hturn, Nat.lt_succ_self j, ?_⟩
    cases j with
    | zero =>
      refine .inl ⟨rfl, ?_, by simpa using hlt, hsum⟩
      apply BitVec.eq_of_toNat_eq
      rw [rshiftOneBit_toNat, hcur]
      rfl
    | succ j =>
      refine .inr ⟨j, rfl, ?_, ?_, hlt, hdvd, hsum⟩
      · rw [rshiftOneBit_toNat, hcur, pow_succ, Nat.mul_div_cancel _ (by decide)]
      · rw [rshiftOneBit_toNat, hden, pow_succ, ← Nat.mul_assoc, Nat.mul_div_cancel _ (by decide)]

theorem div_eq (a b : U64) (hb : b ≠ 0) : div a b = a / b := by
  have hbpos : 0 < b.toNat := Nat.pos_of_ne_zero (fun h0 => hb (BitVec.eq_of_toNat_eq h0))
  have hzero : ¬ isZero b = true := fun h0 => hb ((isZero_iff b).mp h0)
  have hgrown : GrownOut a.toNat b.toNat
      (Loop.run (fun (current, denom) => (false, current, denom)) (growTurn a) 65 (fromI32 1, b)) := by
    refine Loop.run_rank (Growing b.toNat) (GrownOut a.toNat b.toNat) ?_ (growing_start b) (by decide)
    intro n x h
    exact (growing_turn hbpos h).imp id fun ⟨r, hr, _, hout⟩ => ⟨r, hr, hout⟩
  apply BitVec.eq_of_toNat_eq
  rw [BitVec.toNat_udiv, div, if_neg hzero]
  generalize Loop.run (fun (current, denom) => (false, current, denom)) (growTurn a) 65 (fromI32 1, b) = out
    at hgrown ⊢
  obtain ⟨overflow, current, denom⟩ := out
  have hturn : ∀ n x, SubtractingIn a.toNat b.toNat n x →
      (∃ x' m, subtractTurn x = .again x' ∧ m < n ∧ SubtractingIn a.toNat b.toNat m x') ∨
        ∃ c, subtractTurn x = .leave c ∧ c.toNat = a.toNat / b.toNat :=
    fun n x h => (subtracting_turn hbpos h).imp id fun ⟨c, hc, _, hout⟩ => ⟨c, hc, hout⟩
  obtain ⟨n, hn, hstart⟩ := subtracting_start rfl hgrown
  cases overflow
  · exact Loop.run_rank (SubtractingIn a.toNat b.toNat) (fun (c : U64) => c.toNat = a.toNat / b.toNat) hturn
      hstart hn
  · exact Loop.run_rank (SubtractingIn a.toNat b.toNat) (fun (c : U64) => c.toNat = a.toNat / b.toNat) hturn
      hstart hn

/-- **`__64_divmod()` divides.** -/
theorem divmod_eq (a b : U64) (hb : b ≠ 0) : divmod a b = (a / b, a % b) := by
  have hle : a.toNat / b.toNat * b.toNat ≤ a.toNat := Nat.div_mul_le_self _ _
  have hmul : (mul (a / b) b).toNat = a.toNat / b.toNat * b.toNat := by
    rw [mul_eq, BitVec.toNat_mul, BitVec.toNat_udiv]
    exact Nat.mod_eq_of_lt (by have := a.isLt; omega)
  have hmod : sub a (mul (a / b) b) = a % b := by
    apply BitVec.eq_of_toNat_eq
    rw [sub_toNat (by rw [hmul]; exact hle), hmul, BitVec.toNat_umod]
    have := Nat.div_add_mod' a.toNat b.toNat
    omega
  simp only [divmod, div_eq a b hb, hmod]

/-- A zero divisor leaves everything in the remainder. -/
theorem divmod_zero (a : U64) : divmod a 0 = (0, a) := by
  have hdiv : div a 0 = 0 := if_pos rfl
  rw [divmod, hdiv, mul_eq, sub_eq]
  simp

/-! ### With 32-bit operands -/

theorem fromU32_eq {i : Nat} (h : i < 2 ^ 32) : fromU32 i = BitVec.ofInt 64 i := by
  apply BitVec.eq_of_toNat_eq
  rw [fromU32_toNat h, BitVec.toNat_ofInt]
  omega

theorem ofInt_sub (x y : Int) : BitVec.ofInt 64 (x - y) = BitVec.ofInt 64 x - BitVec.ofInt 64 y := by
  rw [Int.sub_eq_add_neg, BitVec.ofInt_add, BitVec.ofInt_neg, BitVec.sub_eq_add_neg]

theorem fromI32_eq {i : Int} (h : -2 ^ 31 ≤ i) (hlt : i < 2 ^ 31) :
    fromI32 (BitVec.ofInt 32 i) = BitVec.ofInt 64 i := by
  have hint : (BitVec.ofInt 32 i).toInt = i := by
    rw [BitVec.toInt_ofInt]
    exact Int.bmod_eq_of_le (by norm_num; omega) (by norm_num; omega)
  rw [fromI32, hint]
  split
  · have hneg : (-BitVec.ofInt 32 i).toNat = (-i).toNat := by
      rw [← BitVec.ofInt_neg, BitVec.toNat_ofInt]
      omega
    have hzero : (0 : U64) = BitVec.ofInt 64 0 := rfl
    rw [hneg, fromU32_eq (by omega), sub_eq, hzero, ← ofInt_sub]
    congr 1
    omega
  · have hnat : (BitVec.ofInt 32 i).toNat = i.toNat := by
      rw [BitVec.toNat_ofInt]
      omega
    rw [hnat, fromU32_eq (by omega)]
    congr 1
    omega

/-- Adding is adding, whatever the sign. -/
theorem addI32_ofInt (x : Int) {b : Int} (h : -2 ^ 31 ≤ b) (hlt : b < 2 ^ 31) :
    addI32 (BitVec.ofInt 64 x) b = BitVec.ofInt 64 (x + b) := by
  unfold addI32
  split
  · rw [fromU32_eq (by omega), sub_eq, ← ofInt_sub]
    congr 1
    omega
  · rw [fromU32_eq (by omega), add_eq, ← BitVec.ofInt_add]
    congr 1
    omega

theorem subI32_ofInt (x : Int) {b : Int} (h : -2 ^ 31 ≤ b) (hlt : b < 2 ^ 31) :
    subI32 (BitVec.ofInt 64 x) b = BitVec.ofInt 64 (x - b) := by
  unfold subI32
  split
  · rw [fromU32_eq (by omega), add_eq, ← BitVec.ofInt_add]
    congr 1
    omega
  · rw [fromU32_eq (by omega), sub_eq, ← ofInt_sub]
    congr 1
    omega

theorem mulI32_ofInt (x : Int) {b : Int} (h : -2 ^ 31 ≤ b) (hlt : b < 2 ^ 31) :
    mulI32 (BitVec.ofInt 64 x) b = BitVec.ofInt 64 (x * b) := by
  rw [mulI32, fromI32_eq h hlt, mul_eq, ← BitVec.ofInt_mul]

theorem subU32_toNat {a : U64} {b : Nat} (hlt : b < 2 ^ 32) (hle : b ≤ a.toNat) :
    (subU32 a b).toNat = a.toNat - b := by
  have hb := fromU32_toNat hlt
  rw [subU32, sub_toNat (by rw [hb]; exact hle), hb]

theorem mulU32_toNat {a : U64} {b : Nat} (hlt : b < 2 ^ 32) (h : a.toNat * b < 2 ^ 64) :
    (mulU32 a b).toNat = a.toNat * b := by
  rw [mulU32, mul_eq, BitVec.toNat_mul, fromU32_toNat hlt, Nat.mod_eq_of_lt h]

theorem divU32_toNat (a : U64) {b : Nat} (hb : 0 < b) (hlt : b < 2 ^ 32) : (divU32 a b).toNat = a.toNat / b := by
  have hb0 : fromU32 b ≠ 0 := by
    intro h0
    have h := fromU32_toNat hlt
    rw [h0] at h
    exact hb.ne h
  rw [divU32, div_eq _ _ hb0, BitVec.toNat_udiv, fromU32_toNat hlt]

theorem addU32_toNat {a : U64} {b : Nat} (hlt : b < 2 ^ 32) (h : a.toNat + b < 2 ^ 64) :
    (addU32 a b).toNat = a.toNat + b := by
  rw [addU32, add_eq, BitVec.toNat_add, fromU32_toNat hlt, Nat.mod_eq_of_lt h]

theorem divmodU32_toNat (a : U64) (b : Nat) (hb : 0 < b) (hlt : b < 2 ^ 32) :
    (divmodU32 a b).1.toNat = a.toNat / b ∧ (divmodU32 a b).2.toNat = a.toNat % b := by
  have hb0 : fromU32 b ≠ 0 := by
    intro h0
    have h := fromU32_toNat hlt
    rw [h0] at h
    exact hb.ne h
  rw [divmodU32, divmod_eq _ _ hb0, BitVec.toNat_udiv, BitVec.toNat_umod, fromU32_toNat hlt]
  exact ⟨rfl, rfl⟩

end Libc370.Int64
