import Libc370.Printf.Plain

/-! What `%a` writes of a hexadecimal floating point number.

`hexflt()` takes the hex digits of the fraction as they are, brings the first that is
not zero to the front and rounds by a carry. `hex_conversion`: the text denotes the
value, or the value rounded at the last digit asked for, half away from zero. -/
namespace Libc370.Printf

open Stdio (Bytes)

/-! ### What is asked for -/

/-- The value of a `double`: a sign, a 7-bit exponent that is 64 too large, and a fraction of 56 bits. -/
def hfp (w : BitVec 64) : ℚ :=
  (if w.msb then -1 else 1) * ((w.toNat % 2 ^ 56 : Nat) / 16 ^ 14) * 16 ^ ((w.toNat / 2 ^ 56 % 128 : Nat) - 64 : ℤ)

/-- The number that hex digits write, the first of the greatest weight. -/
def hexNumber (ds : List Nat) : Nat := Nat.ofDigits 16 ds.reverse

/-- A number in C99's form: hex digits in front of the point and behind it, and a power of 2. -/
structure HexNumber where
  neg : Bool
  whole : List Nat
  places : List Nat
  exp : Int
  digit_lt : ∀ d ∈ whole ++ places, d < 16

def HexNumber.value (x : HexNumber) : ℚ :=
  (if x.neg then -1 else 1) * (hexNumber (x.whole ++ x.places) / 16 ^ x.places.length) * 2 ^ x.exp

/-- Its text without a sign. -/
def HexNumber.text (x : HexNumber) (upper point : Bool) : Bytes :=
  [ebcdic '0', if upper then ebcdic 'X' else ebcdic 'x'] ++ x.whole.map (digit upper) ++
    (if point then [ebcdic '.'] else []) ++ x.places.map (digit upper) ++
    [if upper then ebcdic 'P' else ebcdic 'p', if x.exp < 0 then ebcdic '-' else ebcdic '+'] ++
    (figures 10 x.exp.natAbs).map (digit false)

/-- A text that denotes a number: blanks around it, a sign, and a point where there are places. -/
def HexNumber.Denoted (x : HexNumber) (upper : Bool) (text : Bytes) : Prop :=
  ∃ left right sign point, text = pad left (ebcdic ' ') ++ sign ++ x.text upper point ++ pad right (ebcdic ' ') ∧
    (x.places ≠ [] → point = true) ∧
    if x.neg then sign = [ebcdic '-'] else sign = [] ∨ sign = [ebcdic '+'] ∨ sign = [ebcdic ' ']

/-- To the next integer, and away from zero from halfway. -/
def roundAway (x : ℚ) : ℤ := if x < 0 then -round (-x) else round x

/-- A number that is the value, or the value rounded at the last of the digits asked for; `e` is
the exponent of the first digit. -/
structure HexNumber.Meets (x : HexNumber) (v : ℚ) (prec : Int) : Prop where
  exact : prec < 0 → x.value = v
  zero : v = 0 → x.value = 0
  rounded : 0 ≤ prec → ∀ e : ℤ, 16 ^ e ≤ |v| → |v| < 16 ^ (e + 1) →
    x.value = roundAway (v / 16 ^ (e - prec)) * 16 ^ (e - prec)
  places : 0 ≤ prec → prec ≤ 114 → x.places.length = prec
  first : v ≠ 0 → ∃ n d, x.whole = List.replicate n 0 ++ [d] ∧ d ≠ 0

/-! ### The digits -/

theorem hexNumber_append (a b : List Nat) : hexNumber (a ++ b) = hexNumber a * 16 ^ b.length + hexNumber b := by
  rw [hexNumber, List.reverse_append, Nat.ofDigits_append, List.length_reverse, Nat.add_comm, Nat.mul_comm]
  rfl

theorem hexNumber_lt {ds : List Nat} (h : ∀ d ∈ ds, d < 16) : hexNumber ds < 16 ^ ds.length := by
  have hlt := Nat.ofDigits_lt_base_pow_length' (b := 14) (l := ds.reverse) fun d hd => h d (List.mem_reverse.mp hd)
  rwa [List.length_reverse] at hlt

theorem hexNumber_zeros (n : Nat) : hexNumber (List.replicate n 0) = 0 := by
  rw [hexNumber, List.reverse_replicate, Nat.ofDigits_replicate_zero]

theorem hexNumber_singleton (d : Nat) : hexNumber [d] = d := Nat.ofDigits_singleton

theorem fraction_length (w : BitVec 64) : (fraction w).length = 14 := by
  rw [fraction, List.length_map, List.length_range]

theorem fraction_lt (w : BitVec 64) : ∀ d ∈ fraction w, d < 16 := by
  intro d hd
  obtain ⟨i, -, rfl⟩ := List.mem_map.mp hd
  exact Nat.mod_lt _ (by decide)

theorem hexNumber_fraction (w : BitVec 64) : hexNumber (fraction w) = w.toNat % 2 ^ 56 := by
  have hdigits : ∀ n x : Nat, hexNumber ((List.range n).map fun i => x / 16 ^ (n - 1 - i) % 16) = x % 16 ^ n := by
    intro n
    induction n with
    | zero => exact fun x => (Nat.mod_one x).symm
    | succ n ih =>
      intro x
      have hfirst : (List.range n).map (fun i => x / 16 ^ (n + 1 - 1 - i) % 16) =
          (List.range n).map fun i => x / 16 / 16 ^ (n - 1 - i) % 16 := by
        refine List.map_congr_left fun i hi => ?_
        have hi := List.mem_range.mp hi
        rw [Nat.div_div_eq_div_mul, ← pow_succ', show n - 1 - i + 1 = n + 1 - 1 - i by omega]
      rw [List.range_succ, List.map_append, hfirst, hexNumber_append, ih, List.map_singleton, hexNumber_singleton,
        List.length_singleton, pow_one, show n + 1 - 1 - n = 0 by omega, pow_zero, Nat.div_one, pow_succ', Nat.mod_mul]
      omega
  exact hdigits 14 w.toNat

/-! ### The normalized digits -/

/-- The digits, the exponent and the place of the last digit that `hexflt()` goes on with. -/
def normalized (w : BitVec 64) : List Nat × Int × Int :=
  let d := fraction w
  let e : Int := (w.toNat / 2 ^ 56 % 128 : Nat) - 65
  let zero := d.all (· == 0)
  let k := d.findIdx (· ≠ 0)
  let last : Int := (d.length - 1 - d.reverse.findIdx (· ≠ 0) : Int)
  if zero then (d, 0, last) else (d.drop k ++ List.replicate k 0, e - k, last - k)

/-- The digits and the exponent behind the carry. -/
def carried (d : List Nat) (e nd : Int) : List Nat × Int :=
  if nd < 13 ∧ 8 ≤ d.getD (nd + 1).toNat 0 then
    let kept := (nd + 1).toNat
    let (up, out) := carryInto (d.take kept).reverse
    let d := up.reverse ++ d.drop kept
    if out then (d.set 0 1, e + 1) else (d, e)
  else (d, e)

/-- The characters of some digits and an exponent. -/
def written (neg upper alt : Bool) (n : Nat) (d : List Nat) (e nd : Int) : Bytes :=
  let front : Bytes :=
    (if neg then [ebcdic '-'] else []) ++
      [ebcdic '0', if upper then ebcdic 'X' else ebcdic 'x',
      digit upper (d.getD 0 0)] ++ (if 0 < nd ∨ alt then [ebcdic '.'] else [])
  let places := min nd.toNat (n - 8 - front.length)
  front ++ (List.range places).map (fun i => if i + 1 < 14 then digit upper (d.getD (i + 1) 0) else ebcdic '0') ++
    [if upper then ebcdic 'P' else ebcdic 'p', if e < 0 then ebcdic '-' else ebcdic '+'] ++
    (Nat.toDigits 10 (4 * e).natAbs).map ebcdic

theorem hexflt_eq (w : BitVec 64) (upper : Bool) (prec : Int) (alt : Bool) (n : Nat) :
    hexflt w upper prec alt n =
      written w.msb upper alt n (carried (normalized w).1 (normalized w).2.1 (if prec <
        0 then (normalized w).2.2 else prec)).1
        (carried (normalized w).1 (normalized w).2.1 (if prec < 0 then (normalized w).2.2 else prec)).2
        (if prec < 0 then (normalized w).2.2 else prec) := rfl

theorem getD_lt {d : List Nat} (h : ∀ x ∈ d, x < 16) (i : Nat) : d.getD i 0 < 16 := by
  rw [List.getD_eq_getElem?_getD]
  cases hi : d[i]? with
  | none => decide
  | some x => exact h x (List.mem_of_getElem? hi)

/-- Digits that do not start with a zero unless they are all zero, and the place of the last that
is none. -/
structure Normal (d : List Nat) (last : Int) : Prop where
  length : d.length = 14
  digit_lt : ∀ x ∈ d, x < 16
  first : hexNumber d ≠ 0 → d.getD 0 0 ≠ 0
  last_ge : hexNumber d ≠ 0 → 0 ≤ last
  last_lt : last < 14
  behind : ∀ i : Nat, last < i → d.getD i 0 = 0

theorem hexNumber_zero {d : List Nat} (h : ∀ x ∈ d, x = 0) : hexNumber d = 0 := by
  rw [List.eq_replicate_of_mem h, hexNumber_zeros]

theorem getD_before {d : List Nat} {i : Nat} (h : i < d.findIdx (· ≠ 0)) : d.getD i 0 = 0 := by
  have hlt : i < d.length := h.trans_le List.findIdx_le_length
  have hno := List.not_of_lt_findIdx h
  rw [List.getD_eq_getElem _ _ hlt]
  simpa using hno

theorem getD_first {d : List Nat} (h : ¬ ∀ x ∈ d, x = 0) :
    d.findIdx (· ≠ 0) < d.length ∧ d.getD (d.findIdx (· ≠ 0)) 0 ≠ 0 := by
  push Not at h
  obtain ⟨x, hx, hne⟩ := h
  have hlt : d.findIdx (· ≠ 0) < d.length := List.findIdx_lt_length_of_exists ⟨x, hx, by simpa using hne⟩
  refine ⟨hlt, ?_⟩
  have hfound := List.findIdx_getElem (w := hlt)
  rw [List.getD_eq_getElem _ _ hlt]
  simpa using hfound

/-- The digits moved to the front. -/
theorem getD_moved (d : List Nat) (k i : Nat) : (d.drop k ++ List.replicate k 0).getD i 0 = d.getD (i + k) 0 := by
  rw [List.getD_eq_getElem?_getD, List.getD_eq_getElem?_getD, List.getElem?_append, List.length_drop]
  split_ifs with hlt
  · rw [List.getElem?_drop, Nat.add_comm]
  · rw [List.getElem?_eq_none (show d.length ≤ i + k by omega), List.getElem?_replicate]
    split <;> rfl

theorem hfp_abs (w : BitVec 64) :
    |hfp w| = (hexNumber (fraction w) : ℚ) / 16 ^ 14 * 16 ^ ((w.toNat / 2 ^ 56 % 128 : Nat) - 64 : ℤ) := by
  have hsign : |(if w.msb then -1 else 1 : ℚ)| = 1 := by split <;> norm_num
  rw [hfp, hexNumber_fraction, mul_assoc, abs_mul, hsign, one_mul, abs_of_nonneg (by positivity)]

theorem normalized_spec (w : BitVec 64) :
    Normal (normalized w).1 (normalized w).2.2 ∧
      (hexNumber (normalized w).1 : ℚ) / 16 ^ 13 * 16 ^ (normalized w).2.1 = |hfp w| ∧
      -78 ≤ (normalized w).2.1 ∧ (normalized w).2.1 ≤ 62 := by
  have hlength := fraction_length w
  have hdigits := fraction_lt w
  have habs := hfp_abs w
  unfold normalized
  generalize fraction w = d at *
  by_cases hzero : ∀ x ∈ d, x = 0
  · have hall : d.all (· == 0) = true := List.all_eq_true.mpr fun x hx => beq_iff_eq.mpr (hzero x hx)
    have hnumber := hexNumber_zero hzero
    have hnone : d.reverse.findIdx (· ≠ 0) = 14 := by
      rw [← hlength, ← List.length_reverse, List.findIdx_eq_length]
      intro x hx
      simpa using hzero x (List.mem_reverse.mp hx)
    simp only [hall, if_true, hnone, hlength]
    refine ⟨⟨hlength, hdigits, fun h => absurd hnumber h, fun h => absurd hnumber h, by decide, fun i _ => ?_⟩, ?_,
      by decide, by decide⟩
    · rw [List.getD_eq_getElem?_getD]
      cases hi : d[i]? with
      | none => rfl
      | some x => exact hzero x (List.mem_of_getElem? hi)
    · rw [habs, hnumber]
      simp
  · have hall : ¬ d.all (· == 0) = true := by
      intro h
      exact hzero fun x hx => beq_iff_eq.mp (List.all_eq_true.mp h x hx)
    have hreverse : ¬ ∀ x ∈ d.reverse, x = 0 := fun h => hzero fun x hx => h x (List.mem_reverse.mpr hx)
    obtain ⟨hk, hfirst⟩ := getD_first hzero
    obtain ⟨hj, hlast⟩ := getD_first hreverse
    have hbefore : ∀ i, i < d.findIdx (· ≠ 0) → d.getD i 0 = 0 := fun i => getD_before
    have hbehind : ∀ i, i < d.reverse.findIdx (· ≠ 0) → d.reverse.getD i 0 = 0 := fun i => getD_before
    simp only [hall, if_false, hlength, Bool.false_eq_true]
    rw [List.length_reverse] at hj
    generalize d.findIdx (· ≠ 0) = k at *
    generalize d.reverse.findIdx (· ≠ 0) = j at *
    have hrev : ∀ i, i < 14 → d.reverse.getD i 0 = d.getD (13 - i) 0 := by
      intro i hi
      rw [List.getD_eq_getElem _ _ (by rw [List.length_reverse]; omega), List.getD_eq_getElem _ _ (by omega),
        List.getElem_reverse]
      simp only [hlength]
    have hkj : k ≤ 13 - j := by
      by_contra hlt
      rw [hrev j (by omega)] at hlast
      exact hlast (hbefore _ (by omega))
    refine ⟨⟨?_, ?_, fun _ => ?_, fun _ => by omega, by omega, fun i hi => ?_⟩, ?_, by omega, by omega⟩
    · rw [List.length_append, List.length_drop, List.length_replicate]
      omega
    · intro x hx
      rcases List.mem_append.mp hx with hx | hx
      · exact hdigits x (List.mem_of_mem_drop hx)
      · rw [List.eq_of_mem_replicate hx]
        decide
    · rw [getD_moved, Nat.zero_add]
      exact hfirst
    · rw [getD_moved]
      by_cases hin : i + k < 14
      · have hzeros := hbehind (13 - (i + k)) (by omega)
        rwa [hrev _ (by omega), show 13 - (13 - (i + k)) = i + k by omega] at hzeros
      · rw [List.getD_eq_getElem?_getD, List.getElem?_eq_none (by omega)]
        rfl
    · have hfront : hexNumber (d.take k) = 0 := by
        refine hexNumber_zero fun x hx => ?_
        obtain ⟨i, hi, rfl⟩ := List.mem_iff_getElem.mp hx
        have hik : i < k := by
          rw [List.length_take] at hi
          omega
        rw [List.getElem_take, ← List.getD_eq_getElem d 0]
        exact hbefore i hik
      have hwhole : hexNumber d = hexNumber (d.drop k) := by
        have happend := hexNumber_append (d.take k) (d.drop k)
        rwa [List.take_append_drop, hfront, Nat.zero_mul, Nat.zero_add] at happend
      rw [habs, hwhole, hexNumber_append, hexNumber_zeros, List.length_replicate, Nat.add_zero]
      push_cast
      have hpow : (16 : ℚ) ^ (((w.toNat / 2 ^ 56 % 128 : Nat) : ℤ) - 65 - k) * 16 ^ k * 16 =
          16 ^ (((w.toNat / 2 ^ 56 % 128 : Nat) : ℤ) - 64) := by
        rw [← zpow_natCast (16 : ℚ) k, ← zpow_add₀ (by norm_num), ← zpow_add_one₀ (by norm_num)]
        congr 1
        ring
      push_cast at hpow
      rw [← hpow]
      ring

/-! ### The carry -/

/-- The carry adds one; where it goes through, the digits that are left are zeros. -/
structure Incremented (ds : List Nat) (up : List Nat × Bool) : Prop where
  length : up.1.length = ds.length
  digit_lt : ∀ d ∈ up.1, d < 16
  value : Nat.ofDigits 16 up.1 + (if up.2 then 16 ^ ds.length else 0) = Nat.ofDigits 16 ds + 1
  through : up.2 = true → up.1 = List.replicate ds.length 0

theorem carryInto_spec {ds : List Nat} (h : ∀ d ∈ ds, d < 16) : Incremented ds (carryInto ds) := by
  induction ds with
  | nil => exact ⟨rfl, h, rfl, fun _ => rfl⟩
  | cons d ds ih =>
    obtain ⟨hd, hds⟩ := List.forall_mem_cons.mp h
    rw [carryInto]
    by_cases hnext : d + 1 = 16
    · have hrest := ih hds
      rw [if_pos hnext]
      refine ⟨congrArg (· + 1) hrest.length, List.forall_mem_cons.mpr ⟨by decide, hrest.digit_lt⟩, ?_, fun hout => ?_⟩
      · have hvalue := hrest.value
        rw [Nat.ofDigits_cons, Nat.ofDigits_cons, List.length_cons, pow_succ]
        dsimp only
        split at hvalue <;> rename_i hout <;> simp only [hout, if_true, if_false, Bool.false_eq_true] <;> omega
      · rw [List.length_cons, List.replicate_succ, ← hrest.through hout]
    · rw [if_neg hnext]
      refine ⟨rfl, List.forall_mem_cons.mpr ⟨by omega, hds⟩, ?_, fun hout => by cases hout⟩
      rw [Nat.ofDigits_cons, Nat.ofDigits_cons]
      simp only [Bool.false_eq_true, if_false]
      omega

/-- The first digits of a fraction, followed by zeros. -/
def leading (d : List Nat) (n : Nat) : List Nat := (List.range n).map fun i => d.getD i 0

theorem leading_length (d : List Nat) (n : Nat) : (leading d n).length = n := by
  rw [leading, List.length_map, List.length_range]

theorem leading_take (d : List Nat) {n : Nat} (h : n ≤ d.length) : leading d n = d.take n := by
  refine List.ext_getElem (by rw [leading_length, List.length_take]; omega) fun i hi _ => ?_
  rw [leading_length] at hi
  simp [leading, List.getElem_take, List.getElem?_eq_getElem (show i < d.length by omega)]

/-- More digits than there are but zeros denote the same. -/
theorem leading_exact {d : List Nat} {k n : Nat} (hk : k ≤ n) (hd : ∀ i, k ≤ i → d.getD i 0 = 0) :
    hexNumber (leading d n) = hexNumber (leading d k) * 16 ^ (n - k) := by
  have hsplit : leading d n = leading d k ++ List.replicate (n - k) 0 := by
    obtain ⟨m, rfl⟩ := Nat.exists_eq_add_of_le hk
    rw [leading, List.range_add, List.map_append, List.map_map, Nat.add_sub_cancel_left]
    refine congrArg (leading d k ++ ·) (List.eq_replicate_iff.mpr ⟨by rw [List.length_map, List.length_range], ?_⟩)
    intro x hx
    obtain ⟨i, -, rfl⟩ := List.mem_map.mp hx
    exact hd _ (Nat.le_add_right k i)
  rw [hsplit, hexNumber_append, hexNumber_zeros, List.length_replicate, Nat.add_zero]

/-- The first digit is the one of the greatest weight. -/
theorem first_iff {d : List Nat} (h : ∀ x ∈ d, x < 16) (p : Nat) :
    d.getD 0 0 ≠ 0 ↔ 16 ^ p ≤ hexNumber (leading d (p + 1)) := by
  have hsplit : leading d (p + 1) = [d.getD 0 0] ++ (List.range p).map fun i => d.getD (i + 1) 0 := by
    rw [leading, List.range_succ_eq_map, List.map_cons, List.map_map]
    rfl
  have hrest := @hexNumber_lt ((List.range p).map fun i => d.getD (i + 1) 0) fun x hx => by
    obtain ⟨i, -, rfl⟩ := List.mem_map.mp hx
    exact getD_lt h (i + 1)
  rw [hsplit, hexNumber_append, hexNumber_singleton]
  rw [List.length_map, List.length_range] at hrest ⊢
  constructor
  · intro hne
    have hle := Nat.mul_le_mul_right (16 ^ p) (Nat.pos_of_ne_zero hne)
    omega
  · intro hle hzero
    rw [hzero] at hle
    omega

/-- Digits and an exponent, rounded to `p` digits behind the first. -/
structure Rounded (d : List Nat) (e : Int) (p : Nat) (r : List Nat × Int) : Prop where
  length : r.1.length = 14
  digit_lt : ∀ x ∈ r.1, x < 16
  exp : r.2 = e ∨ r.2 = e + 1
  first : d.getD 0 0 ≠ 0 → r.1.getD 0 0 ≠ 0
  value : hexNumber (leading r.1 (p + 1)) * 16 ^ (r.2 - e).toNat =
    (hexNumber d + 8 * 16 ^ (12 - p)) / 16 ^ (13 - p)

/-- The digits that are kept and the first of the others decide. -/
theorem round_digits {d : List Nat} (hlength : d.length = 14) (hdigits : ∀ x ∈ d, x < 16) {p : Nat} (hp : p < 13) :
    (hexNumber d + 8 * 16 ^ (12 - p)) / 16 ^ (13 - p) =
      hexNumber (d.take (p + 1)) + if 8 ≤ d.getD (p + 1) 0 then 1 else 0 := by
  have hnext : p + 1 < d.length := by omega
  have hdrop : d.drop (p + 1) = d.getD (p + 1) 0 :: d.drop (p + 2) := by
    rw [List.getD_eq_getElem _ _ hnext, List.drop_eq_getElem_cons hnext]
  have hwhole := hexNumber_append (d.take (p + 1)) (d.drop (p + 1))
  have hbehind := hexNumber_append [d.getD (p + 1) 0] (d.drop (p + 2))
  have hrest := @hexNumber_lt (d.drop (p + 2)) fun x hx => hdigits x (List.mem_of_mem_drop hx)
  have hx := getD_lt hdigits (p + 1)
  rw [List.take_append_drop, List.length_drop] at hwhole
  rw [hexNumber_singleton, List.singleton_append, ← hdrop, List.length_drop] at hbehind
  rw [List.length_drop] at hrest
  have h12 : d.length - (p + 2) = 12 - p := by omega
  have h13 : d.length - (p + 1) = 12 - p + 1 := by omega
  rw [h12] at hbehind hrest
  rw [h13, hbehind] at hwhole
  rw [hwhole, show 13 - p = 12 - p + 1 by omega, pow_succ]
  generalize hexNumber (d.take (p + 1)) = a
  generalize hexNumber (d.drop (p + 2)) = r at *
  generalize d.getD (p + 1) 0 = x at *
  have hpos : 0 < 16 ^ (12 - p) := Nat.pow_pos (by decide)
  generalize 16 ^ (12 - p) = u at *
  split_ifs with hx8
  · have hle : x * u ≤ 15 * u := Nat.mul_le_mul_right u (by omega)
    have hge : 8 * u ≤ x * u := Nat.mul_le_mul_right u hx8
    refine Nat.div_eq_of_lt_le ?_ ?_ <;> nlinarith
  · have hle : x * u ≤ 7 * u := Nat.mul_le_mul_right u (by omega)
    refine Nat.div_eq_of_lt_le ?_ ?_ <;> nlinarith

theorem carried_spec {d : List Nat} (hlength : d.length = 14) (hdigits : ∀ x ∈ d, x < 16) (e : Int) {p : Nat}
    (hp : p < 13) :
    Rounded d e p (carried d e p) := by
  have hround := round_digits hlength hdigits hp
  have hkept : ((p : Int) + 1).toNat = p + 1 := rfl
  unfold carried
  rw [hkept]
  by_cases hup : 8 ≤ d.getD (p + 1) 0
  · have hcarry := @carryInto_spec (d.take (p + 1)).reverse fun x hx =>
      hdigits x (List.mem_of_mem_take (List.mem_reverse.mp hx))
    rw [if_pos ⟨by omega, hup⟩]
    rw [if_pos hup] at hround
    dsimp only
    generalize carryInto (d.take (p + 1)).reverse = up at hcarry
    obtain ⟨up, out⟩ := up
    have htake : (d.take (p + 1)).length = p + 1 := by
      rw [List.length_take]
      omega
    have hlen : up.length = p + 1 := by rw [hcarry.length, List.length_reverse, htake]
    have hall : ∀ x ∈ up.reverse ++ d.drop (p + 1), x < 16 := by
      intro x hx
      rcases List.mem_append.mp hx with hx | hx
      · exact hcarry.digit_lt x (List.mem_reverse.mp hx)
      · exact hdigits x (List.mem_of_mem_drop hx)
    have hfourteen : (up.reverse ++ d.drop (p + 1)).length = 14 := by
      rw [List.length_append, List.length_reverse, List.length_drop]
      omega
    have hvalue : Nat.ofDigits 16 up + (if out then 16 ^ (p + 1) else 0) = hexNumber (d.take (p + 1)) + 1 := by
      have hadded := hcarry.value
      rw [List.length_reverse, htake] at hadded
      exact hadded
    cases out with
    | false =>
      dsimp only
      rw [if_neg Bool.false_ne_true]
      have hleading : leading (up.reverse ++ d.drop (p + 1)) (p + 1) = up.reverse := by
        rw [leading_take _ (by omega), List.take_left' (by rw [List.length_reverse, hlen])]
      have hnumber : hexNumber up.reverse = hexNumber (d.take (p + 1)) + 1 := by
        rw [← hvalue, hexNumber, List.reverse_reverse]
        rfl
      refine ⟨hfourteen, hall, .inl rfl, fun hne => ?_, ?_⟩
      · rw [first_iff hall p, hleading, hnumber]
        rw [first_iff hdigits p, leading_take d (by omega)] at hne
        omega
      · rw [hleading, hnumber, hround, Int.sub_self]
        exact Nat.mul_one _
    | true =>
      have hzeros : up = List.replicate (p + 1) 0 :=
        (hcarry.through rfl).trans (by rw [List.length_reverse, htake])
      have hset : (up.reverse ++ d.drop (p + 1)).set 0 1 = (1 :: List.replicate p 0) ++ d.drop (p + 1) := by
        rw [hzeros, List.reverse_replicate, List.replicate_succ]
        rfl
      have hfront : (1 :: List.replicate p 0).length = p + 1 := by rw [List.length_cons, List.length_replicate]
      have hleading : leading ((1 :: List.replicate p 0) ++ d.drop (p + 1)) (p + 1) = [1] ++ List.replicate p 0 := by
        rw [leading_take _ (by rw [List.length_append, hfront]; omega), List.take_left' hfront]
        rfl
      dsimp only
      rw [if_pos rfl, hset]
      refine ⟨?_, ?_, .inr rfl, fun _ => Nat.one_ne_zero, ?_⟩
      · rw [List.length_append, hfront, List.length_drop]
        omega
      · intro x hx
        rw [← hset] at hx
        rcases List.mem_or_eq_of_mem_set hx with hx | rfl
        · exact hall x hx
        · decide
      · have hexp : (e + 1 - e).toNat = 1 := by omega
        simp only [if_true] at hvalue ⊢
        rw [hleading, hexp, hround, ← hvalue, hexNumber_append, hexNumber_singleton, hexNumber_zeros,
          List.length_replicate, hzeros, Nat.ofDigits_replicate_zero, pow_succ]
        omega
  · rw [if_neg fun h => hup h.2]
    rw [if_neg hup, Nat.add_zero] at hround
    refine ⟨hlength, hdigits, .inl rfl, id, ?_⟩
    rw [hround, leading_take d (by omega), Int.sub_self]
    exact Nat.mul_one _

/-! ### The text -/

theorem toDigits_eq {n : Nat} (h : n < 400) :
    (Nat.toDigits 10 n).map ebcdic = (figures 10 n).map (digit false) ∧ (Nat.toDigits 10 n).length ≤ 3 := by
  have hall : ∀ n : Fin 400, (Nat.toDigits 10 n).map ebcdic = (figures 10 n).map (digit false) ∧
      (Nat.toDigits 10 n.val).length ≤ 3 := by decide +kernel
  exact hall ⟨n, h⟩

theorem HexNumber.text_length (x : HexNumber) (upper point : Bool) :
    (x.text upper point).length =
      4 + x.whole.length + x.places.length + (if point then 1 else 0) + (figures 10 x.exp.natAbs).length := by
  unfold HexNumber.text
  simp only [List.length_append, List.length_cons, List.length_nil, List.length_map]
  split_ifs <;> simp only [List.length_cons, List.length_nil] <;> omega

/-- The digits behind the point that there is room for. -/
def room (neg point : Bool) (nd : Int) : Nat := min nd.toNat
    (119 - ((if neg then 1 else 0) + 3 + if point then 1 else 0))

/-- The number that is written. -/
def hexFound (neg point : Bool) {d : List Nat} (h : ∀ x ∈ d, x < 16) (e nd : Int) : HexNumber where
  neg := neg
  whole := [d.getD 0 0]
  places := (List.range (room neg point nd)).map fun i => d.getD (i + 1) 0
  exp := 4 * e
  digit_lt := by
    intro x hx
    rcases List.mem_append.mp hx with hx | hx
    · rw [List.mem_singleton.mp hx]
      exact getD_lt h 0
    · obtain ⟨i, -, rfl⟩ := List.mem_map.mp hx
      exact getD_lt h (i + 1)

theorem written_eq {d : List Nat} (hlength : d.length = 14) (h : ∀ x ∈ d, x < 16) (neg upper alt : Bool) {e : Int}
    (he : -100 < e ∧ e < 100) (nd : Int) :
    written neg upper alt 127 d e nd =
        (if neg then [ebcdic '-'] else []) ++ (hexFound neg (decide (0 < nd ∨ alt)) h e nd).text upper
        (decide (0 < nd ∨ alt)) ∧
      (written neg upper alt 127 d e nd).length < 127 := by
  obtain ⟨hexp, hshort⟩ := toDigits_eq (n := (4 * e).natAbs) (by omega)
  have hplaces : ∀ m, (List.range m).map (fun i => if i + 1 < 14 then digit upper (d.getD (i + 1) 0) else ebcdic '0') =
      ((List.range m).map fun i => d.getD (i + 1) 0).map (digit upper) := by
    intro m
    rw [List.map_map]
    refine List.map_congr_left fun i _ => ?_
    split_ifs with hi
    · rfl
    · have hzero : d.getD (i + 1) 0 = 0 := by
        rw [List.getD_eq_getElem?_getD, List.getElem?_eq_none (by omega)]
        rfl
      rw [Function.comp_apply, hzero]
      cases upper <;> rfl
  have hfront : ∀ point : Bool, (((if neg then [ebcdic '-'] else []) ++
      [ebcdic '0', if upper then ebcdic 'X' else ebcdic 'x', digit upper (d.getD 0 0)] ++
      if point then [ebcdic '.'] else [] : Bytes)).length = (if neg then 1 else 0) + 3 + if point then 1 else 0 := by
    rintro (_ | _) <;> cases neg <;> rfl
  have htext : written neg upper alt 127 d e nd =
      (if neg then [ebcdic '-'] else []) ++ (hexFound neg (decide (0 < nd ∨ alt)) h e nd).text upper (decide (0 < nd ∨
      alt)) := by
    have hpoint : (if 0 < nd ∨ alt = true then [ebcdic '.'] else []) =
        if (decide (0 < nd ∨ alt = true)) = true then [ebcdic '.'] else [] := by
      simp only [decide_eq_true_eq]
    unfold written HexNumber.text hexFound
    dsimp only
    rw [hplaces, hexp, hpoint, hfront]
    by_cases hneg : e < 0
    · rw [if_pos hneg, if_pos (show 4 * e < 0 by omega)]
      simp only [List.append_assoc, List.map_cons, List.map_nil, List.cons_append, List.nil_append]
      rfl
    · rw [if_neg hneg, if_neg (show ¬ 4 * e < 0 by omega)]
      simp only [List.append_assoc, List.map_cons, List.map_nil, List.cons_append, List.nil_append]
      rfl
  refine ⟨htext, ?_⟩
  have hfigures : (figures 10 (4 * e).natAbs).length ≤ 3 := by
    have heq := congrArg List.length hexp
    rw [List.length_map, List.length_map] at heq
    omega
  rw [htext, List.length_append, HexNumber.text_length]
  generalize decide (0 < nd ∨ alt = true) = point
  have hplaced : (hexFound neg point h e nd).places.length = room neg point nd := by
    rw [hexFound, List.length_map, List.length_range]
  have hexponent : (figures 10 (hexFound neg point h e nd).exp.natAbs).length ≤ 3 := hfigures
  have hwhole : (hexFound neg point h e nd).whole.length = 1 := rfl
  rw [hplaced, hwhole, room]
  cases neg <;> cases point <;> simp only [if_true, if_false, Bool.false_eq_true, List.length_cons, List.length_nil] <;>
    omega

/-! ### The value -/

/-- A sign bit. -/
def signOf (neg : Bool) : ℚ := if neg then -1 else 1

theorem hexFound_value (neg point : Bool) {d : List Nat} (h : ∀ x ∈ d, x < 16) (e nd : Int) :
    (hexFound neg point h e nd).value =
      signOf neg * (hexNumber (leading d (room neg point nd + 1)) / 16 ^ room neg point nd) * 16 ^ e := by
  have hdigits : (hexFound neg point h e nd).whole ++ (hexFound neg point h e nd).places =
      leading d (room neg point nd + 1) := by
    rw [leading, List.range_succ_eq_map, List.map_cons, List.map_map]
    rfl
  have hplaces : (hexFound neg point h e nd).places.length = room neg point nd := by
    rw [hexFound, List.length_map, List.length_range]
  have hpower : (2 : ℚ) ^ (4 * e) = 16 ^ e := by
    rw [zpow_mul]
    norm_num
  rw [HexNumber.value, hdigits, hplaces, signOf, ← hpower]
  rfl

theorem hfp_eq (w : BitVec 64) : hfp w = signOf w.msb * |hfp w| := by
  rw [hfp_abs, hexNumber_fraction, hfp, signOf, mul_assoc]

theorem roundAway_sign (neg : Bool) {x : ℚ} (h : 0 ≤ x) : (roundAway (signOf neg * x) : ℚ) = signOf neg * round x := by
  unfold roundAway signOf
  cases neg with
  | false =>
    simp only [Bool.false_eq_true, if_false, one_mul]
    rw [if_neg (not_lt.mpr h)]
  | true =>
    simp only [if_true, neg_one_mul]
    by_cases hzero : x = 0
    · simp [hzero]
    · have hpos : 0 < x := lt_of_le_of_ne h (Ne.symm hzero)
      rw [if_pos (by linarith), neg_neg]
      push_cast
      rfl

theorem round_div (n : Nat) {u : Nat} (hu : 0 < u) : round ((n : ℚ) / ((2 * u : Nat) : ℚ)) = ((n + u) / (2 * u) :
    Nat) := by
  have hne : ((2 * u : Nat) : ℚ) ≠ 0 := by positivity
  have hhalf : (n : ℚ) / ((2 * u : Nat) : ℚ) + 1 / 2 = ((n + u : Nat) : ℚ) / ((2 * u : Nat) : ℚ) := by
    have hu' : (u : ℚ) ≠ 0 := by positivity
    push_cast
    field_simp
  rw [round_eq, hhalf, Rat.floor_natCast_div_natCast]
  exact (Int.natCast_div _ _).symm

theorem exponent_unique {v : ℚ} {e e' : ℤ} (h : (16 : ℚ) ^ e ≤ v ∧ v < 16 ^ (e + 1))
    (h' : (16 : ℚ) ^ e' ≤ v ∧ v < 16 ^ (e' + 1)) :
    e = e' := by
  have hlt := (zpow_lt_zpow_iff_right₀ (by norm_num : (1 : ℚ) < 16)).mp (h.1.trans_lt h'.2)
  have hlt' := (zpow_lt_zpow_iff_right₀ (by norm_num : (1 : ℚ) < 16)).mp (h'.1.trans_lt h.2)
  omega

/-- The exponent of a number is that of its first digit. -/
theorem normalized_exponent {d : List Nat} {last : Int} (h : Normal d last) (hne : hexNumber d ≠ 0) (e : ℤ) :
    (16 : ℚ) ^ e ≤ hexNumber d / 16 ^ 13 * 16 ^ e ∧ (hexNumber d : ℚ) / 16 ^ 13 * 16 ^ e < 16 ^ (e + 1) := by
  have hpos : (0 : ℚ) < 16 ^ e := zpow_pos (by norm_num) e
  have hwhole : leading d 14 = d := by rw [leading_take d (by rw [h.length]), ← h.length, List.take_length]
  have hge := (first_iff h.digit_lt 13).mp (h.first hne)
  have hlt := hexNumber_lt h.digit_lt
  rw [hwhole] at hge
  rw [h.length] at hlt
  have hge' : (16 : ℚ) ^ 13 ≤ hexNumber d := by exact_mod_cast hge
  have hlt' : (hexNumber d : ℚ) < 16 ^ 14 := by exact_mod_cast hlt
  rw [zpow_add_one₀ (by norm_num)]
  constructor
  · have hone : (1 : ℚ) ≤ hexNumber d / 16 ^ 13 := by
      rw [le_div_iff₀ (by positivity)]
      linarith
    nlinarith
  · have hsixteen : (hexNumber d : ℚ) / 16 ^ 13 < 16 := by
      rw [div_lt_iff₀ (by positivity)]
      linarith
    nlinarith

theorem carried_none {d : List Nat} {e nd : Int} (h : ¬ (nd < 13 ∧ 8 ≤ d.getD (nd + 1).toNat 0)) :
    carried d e nd = (d, e) := if_neg h

theorem room_eq (neg point : Bool) {nd : Int} (h : nd ≤ 114) : room neg point nd = nd.toNat := by
  unfold room
  cases neg <;> cases point <;> simp <;> omega

theorem room_ge (neg point : Bool) {nd : Int} (h : 13 ≤ nd) : 13 ≤ room neg point nd := by
  unfold room
  cases neg <;> cases point <;> simp <;> omega

/-- The digits up to the last that is no zero denote the value. -/
theorem leading_value {d : List Nat} (hlength : d.length = 14) {m : Nat} (h : 13 ≤ m ∨ ∀ i, m < i → d.getD i 0 = 0) :
    (hexNumber (leading d (m + 1)) : ℚ) / 16 ^ m = hexNumber d / 16 ^ 13 := by
  have hwhole : leading d 14 = d := by rw [leading_take d (by rw [hlength]), ← hlength, List.take_length]
  have hpast : ∀ i, 14 ≤ i → d.getD i 0 = 0 := by
    intro i hi
    rw [List.getD_eq_getElem?_getD, List.getElem?_eq_none (by omega)]
    rfl
  rw [div_eq_div_iff (by positivity) (by positivity)]
  rcases Nat.lt_or_ge m 13 with hm | hm
  · have hzeros := h.resolve_left (by omega)
    have hexact := leading_exact (show m + 1 ≤ 14 by omega) hzeros
    rw [hwhole, show 14 - (m + 1) = 13 - m by omega] at hexact
    have hpow : 16 ^ 13 = 16 ^ (13 - m) * 16 ^ m := by rw [← pow_add, Nat.sub_add_cancel hm.le]
    have hnat : hexNumber (leading d (m + 1)) * 16 ^ 13 = hexNumber d * 16 ^ m := by
      rw [hexact, hpow, Nat.mul_assoc]
    exact_mod_cast hnat
  · have hexact := leading_exact (show 14 ≤ m + 1 by omega) hpast
    rw [hwhole, show m + 1 - 14 = m - 13 by omega] at hexact
    have hpow : 16 ^ m = 16 ^ (m - 13) * 16 ^ 13 := by rw [← pow_add, Nat.sub_add_cancel hm]
    have hnat : hexNumber (leading d (m + 1)) * 16 ^ 13 = hexNumber d * 16 ^ m := by
      rw [hexact, hpow, Nat.mul_assoc]
    exact_mod_cast hnat

theorem signOf_abs (neg : Bool) : |signOf neg| = 1 := by
  unfold signOf
  split <;> norm_num

/-- The exponent that a value has is the one its digits come with. -/
theorem exponent_found {d : List Nat} {last : Int} (hnormal : Normal d last) {v : ℚ} {neg : Bool} {e e' : ℤ}
    (hv : v = signOf neg * (hexNumber d / 16 ^ 13 * 16 ^ e)) (hle : 16 ^ e' ≤ |v|) (hlt : |v| < 16 ^ (e' + 1)) :
    hexNumber d ≠ 0 ∧ e' = e := by
  have habs : |v| = hexNumber d / 16 ^ 13 * 16 ^ e := by
    rw [hv, abs_mul, signOf_abs, one_mul, abs_of_nonneg (by positivity)]
  have hne : hexNumber d ≠ 0 := by
    intro hzero
    have hpos : (0 : ℚ) < 16 ^ e' := zpow_pos (by norm_num) e'
    rw [habs, hzero, Nat.cast_zero, zero_div, zero_mul] at hle
    linarith
  refine ⟨hne, exponent_unique ⟨hle, hlt⟩ ?_⟩
  rw [habs]
  exact normalized_exponent hnormal hne e

/-- The value in units of the last of `p` digits behind the first. -/
theorem in_units {v : ℚ} {neg : Bool} {n : Nat} {e : ℤ} (hv : v = signOf neg * (n / 16 ^ 13 * 16 ^ e)) (p : Nat) :
    v / 16 ^ (e - p) = signOf neg * (n / 16 ^ 13 * 16 ^ p) := by
  have hpos : (16 : ℚ) ^ (e - p) ≠ 0 := zpow_ne_zero _ (by norm_num)
  have hpow : (16 : ℚ) ^ e = 16 ^ p * 16 ^ (e - p) := by
    rw [← zpow_natCast, ← zpow_add₀ (by norm_num)]
    congr 1
    ring
  rw [hv, hpow, div_eq_iff hpos]
  ring

/-- Digits that denote the value itself. -/
theorem meets_exact {d : List Nat} {last : Int} (hnormal : Normal d last) {v : ℚ} {neg : Bool} {e : ℤ}
    (hv : v = signOf neg * (hexNumber d / 16 ^ 13 * 16 ^ e)) (point : Bool) {prec : Int}
    (h : ¬ (0 ≤ prec ∧ prec < 13)) :
    (hexFound neg point hnormal.digit_lt e (if prec < 0 then last else prec)).Meets v prec := by
  have hvalue : (hexFound neg point hnormal.digit_lt e (if prec < 0 then last else prec)).value = v := by
    have hlast := hnormal.last_lt
    have hexact := @leading_value d hnormal.length (room neg point (if prec < 0 then last else prec)) (by
      split_ifs with hneg
      · refine .inr fun i hi => hnormal.behind i ?_
        rw [room_eq neg point (by omega)] at hi
        omega
      · exact .inl (room_ge neg point (by omega)))
    rw [hexFound_value, hexact, hv, mul_assoc]
  refine ⟨fun _ => hvalue, fun hzero => hvalue.trans hzero, fun hprec e' hle hlt => ?_, fun hprec hroom => ?_,
    fun hne => ?_⟩
  · obtain ⟨hne, rfl⟩ := exponent_found hnormal hv hle hlt
    obtain ⟨q, rfl⟩ : ∃ q : Nat, prec = (13 + q : Nat) := ⟨(prec - 13).toNat, by omega⟩
    have hunits : v / 16 ^ (e' - ((13 + q : Nat) : ℤ)) = signOf neg * ((hexNumber d * 16 ^ q : Nat) : ℚ) := by
      rw [in_units hv (13 + q), pow_add]
      push_cast
      ring
    have hwhole : (roundAway (v / 16 ^ (e' - ((13 + q : Nat) : ℤ))) : ℚ) = v / 16 ^ (e' - ((13 + q : Nat) : ℤ)) := by
      rw [hunits, roundAway_sign neg (Nat.cast_nonneg _), round_natCast, Int.cast_natCast]
    rw [hwhole, hvalue, div_mul_cancel₀ _ (zpow_ne_zero _ (by norm_num))]
  · rw [if_neg (by omega)]
    show ((List.range _).map _).length = prec
    rw [List.length_map, List.length_range, room_eq neg point hroom]
    omega
  · refine ⟨0, d.getD 0 0, rfl, hnormal.first fun hzero => hne ?_⟩
    rw [hv, hzero]
    simp

/-- Digits that denote the value rounded to `p` of them. -/
theorem meets_rounded {d : List Nat} {last : Int} (hnormal : Normal d last) {v : ℚ} {neg : Bool} {e : ℤ}
    (hv : v = signOf neg * (hexNumber d / 16 ^ 13 * 16 ^ e)) (point : Bool) {p : Nat} (hp : p < 13) {r : List Nat × Int}
    (hr : Rounded d e p r) : (hexFound neg point hr.digit_lt r.2 p).Meets v p := by
  have hroom : room neg point p = p := room_eq neg point (by omega)
  have hvalue : (hexFound neg point hr.digit_lt r.2 p).value =
      signOf neg * (((hexNumber d + 8 * 16 ^ (12 - p)) / 16 ^ (13 - p) : Nat) / 16 ^ p) * 16 ^ e := by
    rw [hexFound_value, hroom, ← hr.value]
    rcases hr.exp with hexp | hexp
    · rw [hexp, Int.sub_self]
      simp
    · rw [hexp, show (e + 1 - e).toNat = 1 by omega, zpow_add_one₀ (by norm_num)]
      push_cast
      ring
  refine ⟨fun hneg => by omega, fun hzero => ?_, fun _ e' hle hlt => ?_, fun _ _ => ?_, fun hne => ?_⟩
  · have hpow : (16 : ℚ) ^ e ≠ 0 := zpow_ne_zero _ (by norm_num)
    have hnumber : hexNumber d = 0 := by
      have habs : |v| = hexNumber d / 16 ^ 13 * 16 ^ e := by
        rw [hv, abs_mul, signOf_abs, one_mul, abs_of_nonneg (by positivity)]
      rw [hzero, abs_zero, eq_comm, mul_eq_zero, or_iff_left hpow, div_eq_zero_iff, or_iff_left (by norm_num)] at habs
      exact_mod_cast habs
    have hsmall : 8 * 16 ^ (12 - p) < 16 ^ (13 - p) := by
      have hpos : 0 < 16 ^ (12 - p) := Nat.pow_pos (by decide)
      rw [show 13 - p = 12 - p + 1 by omega, pow_succ]
      omega
    rw [hvalue, hnumber, Nat.zero_add, Nat.div_eq_of_lt hsmall]
    simp
  · obtain ⟨hne, rfl⟩ := exponent_found hnormal hv hle hlt
    have hu : 16 ^ (13 - p) = 2 * (8 * 16 ^ (12 - p)) := by
      rw [show 13 - p = 12 - p + 1 by omega, pow_succ]
      omega
    have hunits : v / 16 ^ (e' - (p : ℤ)) = signOf neg *
        ((hexNumber d : ℚ) / ((2 * (8 * 16 ^ (12 - p)) : Nat) : ℚ)) := by
      have hpow : (16 : ℚ) ^ 13 = 16 ^ (13 - p) * 16 ^ p := by rw [← pow_add, Nat.sub_add_cancel hp.le]
      rw [in_units hv p, ← hu, hpow]
      push_cast
      field_simp
    have hpow : (16 : ℚ) ^ e' = 16 ^ p * 16 ^ (e' - (p : ℤ)) := by
      rw [← zpow_natCast, ← zpow_add₀ (by norm_num)]
      congr 1
      ring
    rw [hvalue, hunits, roundAway_sign neg (by positivity), round_div _ (by positivity), ← hu, hpow, Int.cast_natCast]
    field_simp
  · show (((List.range _).map _).length : ℤ) = p
    rw [List.length_map, List.length_range, hroom]
  · refine ⟨0, r.1.getD 0 0, rfl, hr.first (hnormal.first fun hzero => hne ?_)⟩
    rw [hv, hzero]
    simp

theorem hexflt_meets (w : BitVec 64) (upper : Bool) (prec : Int) (alt : Bool) :
    ∃ (x : HexNumber) (point : Bool), hexflt w upper prec alt 127 =
        (if x.neg then [ebcdic '-'] else []) ++ x.text upper point ∧
      (hexflt w upper prec alt 127).length < 127 ∧ (x.places ≠ [] → point = true) ∧ x.neg = w.msb ∧
      x.whole.length = 1 ∧ x.Meets (hfp w) prec := by
  obtain ⟨hnormal, habs, hlow, hhigh⟩ := normalized_spec w
  have hv := hfp_eq w
  rw [← habs] at hv
  rw [hexflt_eq]
  generalize (normalized w).1 = d at *
  generalize (normalized w).2.1 = e at *
  generalize (normalized w).2.2 = last at *
  have hpoint : ∀ (point : Bool) {r : List Nat} (h : ∀ x ∈ r, x < 16) (e' nd : Int),
      (hexFound w.msb point h e' nd).places ≠ [] → 0 < nd := by
    intro point r h e' nd hne
    by_contra hnd
    refine hne (List.map_eq_nil_iff.mpr (List.range_eq_nil.mpr ?_))
    rw [room_eq w.msb point (by omega)]
    omega
  by_cases hp : 0 ≤ prec ∧ prec < 13
  · obtain ⟨p, rfl⟩ : ∃ p : Nat, prec = p := ⟨prec.toNat, by omega⟩
    have hr := carried_spec hnormal.length hnormal.digit_lt e (p := p) (by omega)
    rw [if_neg (by omega)]
    generalize carried d e p = r at hr
    obtain ⟨heq, hlt⟩ := written_eq hr.length hr.digit_lt w.msb upper alt
      (e := r.2) (by rcases hr.exp with hexp | hexp <;> omega) p
    refine ⟨hexFound w.msb (decide (0 < (p : Int) ∨ alt = true)) hr.digit_lt r.2 p, _, heq, hlt,
      fun hne => decide_eq_true (.inl (hpoint _ hr.digit_lt _ _ hne)), rfl, rfl, ?_⟩
    exact meets_rounded hnormal hv _ (by omega) hr
  · have hnone : ¬ ((if prec < 0 then last else prec) < 13 ∧
        8 ≤ d.getD ((if prec < 0 then last else prec) + 1).toNat 0) := by
      split_ifs with hneg
      · rintro ⟨-, height⟩
        rw [hnormal.behind _ (by omega)] at height
        omega
      · omega
    rw [carried_none hnone]
    obtain ⟨heq, hlt⟩ := written_eq hnormal.length hnormal.digit_lt w.msb upper alt (e := e) (by omega)
      (if prec < 0 then last else prec)
    refine ⟨hexFound w.msb (decide (0 < (if prec < 0 then last else prec) ∨ alt = true)) hnormal.digit_lt e
      (if prec < 0 then last else prec), _, heq, hlt,
      fun hne => decide_eq_true (.inl (hpoint _ hnormal.digit_lt _ _ hne)), rfl, rfl, ?_⟩
    exact meets_exact hnormal hv _ hp

/-! ### The conversion -/

/-- `%a` or `%A`. -/
def hexLetter (upper : Bool) : UInt8 := if upper then ebcdic 'A' else ebcdic 'a'

/-- Zeros in front of a number leave it as it is. -/
def HexNumber.padded (x : HexNumber) (n : Nat) : HexNumber where
  neg := x.neg
  whole := List.replicate n 0 ++ x.whole
  places := x.places
  exp := x.exp
  digit_lt := by
    intro d hd
    rw [List.append_assoc] at hd
    rcases List.mem_append.mp hd with hd | hd
    · rw [List.eq_of_mem_replicate hd]
      decide
    · exact x.digit_lt d hd

theorem HexNumber.padded_value (x : HexNumber) (n : Nat) : (x.padded n).value = x.value := by
  have hdigits : hexNumber ((x.padded n).whole ++ (x.padded n).places) = hexNumber (x.whole ++ x.places) := by
    rw [padded, List.append_assoc, hexNumber_append, hexNumber_zeros, Nat.zero_mul, Nat.zero_add]
  rw [value, value, hdigits]
  rfl

theorem HexNumber.padded_meets {x : HexNumber} {v : ℚ} {prec : Int} (h : x.Meets v prec) (n : Nat) :
    (x.padded n).Meets v prec := by
  have hvalue := x.padded_value n
  refine ⟨fun hprec => hvalue.trans (h.exact hprec), fun hv => hvalue.trans (h.zero hv),
    fun hprec e hle hlt => hvalue.trans (h.rounded hprec e hle hlt), h.places, fun hne => ?_⟩
  obtain ⟨m, d, hwhole, hd⟩ := h.first hne
  refine ⟨n + m, d, ?_, hd⟩
  show List.replicate n 0 ++ x.whole = _
  rw [hwhole, ← List.append_assoc, List.replicate_append_replicate]

theorem HexNumber.padded_text (x : HexNumber) (n : Nat) (upper point : Bool) :
    (x.padded n).text upper point = (x.text upper point).take 2 ++
    (List.replicate n (ebcdic '0') ++ (x.text upper point).drop 2) := by
  have hzero : digit upper 0 = ebcdic '0' := by cases upper <;> rfl
  unfold text padded
  simp [List.map_append, List.map_replicate, hzero]

/-- The text behind a sign is laid out in the width. -/
theorem laid_denoted {x : HexNumber} {point : Bool} (hpoint : x.places ≠ [] → point = true) (upper : Bool) (s : Spec)
    (fill : Int) (sign : Bytes)
    (hsign : if x.neg then sign = [ebcdic '-'] else sign = [] ∨ sign = [ebcdic '+'] ∨ sign = [ebcdic ' ']) :
    ∃ n, (x.padded n).Denoted upper
      ((if !s.flagMinus && !s.flagZero then pad fill (ebcdic ' ') else []) ++ sign ++ (x.text upper point).take 2 ++
        (if !s.flagMinus && s.flagZero then pad fill (ebcdic '0') else []) ++ (x.text upper point).drop 2 ++
        (if s.flagMinus then pad fill (ebcdic ' ') else [])) := by
  have hpad : ∀ (b : Bool) (c : UInt8), (if b then pad fill c else []) = pad (if b then fill else 0) c := by
    rintro (_ | _) c <;> rfl
  refine ⟨(if !s.flagMinus && s.flagZero then fill else 0).toNat, if !s.flagMinus && !s.flagZero then fill else 0,
    if s.flagMinus then fill else 0, sign, point, ?_, hpoint, hsign⟩
  rw [hpad, hpad, hpad, HexNumber.padded_text]
  simp only [List.append_assoc]
  rfl

theorem examinFloat_hex (E : Env) (s : Spec) (upper : Bool) (taken : Nat) :
    ∃ x : HexNumber, x.Denoted upper (examinFloat E s (hexLetter upper) taken).1 ∧ x.neg = (E.pair taken).msb ∧
      x.Meets (hfp (E.pair taken)) s.precision := by
  obtain ⟨x, point, htext, -, hpoint, hneg, hmeets⟩ := hexflt_meets (E.pair taken) upper s.precision s.flagHash
  have hletter : hexLetter upper = ebcdic 'a' ∨ hexLetter upper = ebcdic 'A' := by cases upper <;> decide
  have hupper : (hexLetter upper == ebcdic 'A') = upper := by cases upper <;> decide
  have hnot : ¬ cur (x.text upper point) = ebcdic '-' := by
    have hcur : cur (x.text upper point) = ebcdic '0' := rfl
    rw [hcur]
    decide
  simp only [examinFloat, hletter, if_true, ne_eq, OfNat.ofNat_ne_zero, not_false_eq_true, hupper, htext]
  cases hx : x.neg with
  | true =>
    simp only [if_true, List.cons_append, List.nil_append, cur, List.headD_cons, List.tail_cons]
    obtain ⟨n, hdenoted⟩ := laid_denoted hpoint upper s
      (max 0 (Stdio.toLong (s.width - (x.text upper point).length - ([ebcdic '-'] : Bytes).length))) [ebcdic '-']
      (by rw [hx]; rfl)
    exact ⟨x.padded n, hdenoted, hneg, x.padded_meets hmeets.2 n⟩
  | false =>
    simp only [Bool.false_eq_true, if_false, List.nil_append, hnot]
    have hsign : ∀ sign : Bytes,
        sign = (if s.flagPlus then [ebcdic '+'] else if s.flagSpace then [ebcdic ' '] else []) →
        if x.neg then sign = [ebcdic '-'] else sign = [] ∨ sign = [ebcdic '+'] ∨ sign = [ebcdic ' '] := by
      rintro sign rfl
      rw [hx]
      show _ ∨ _
      split_ifs
      · exact .inr (.inl rfl)
      · exact .inr (.inr rfl)
      · exact .inl rfl
    obtain ⟨n, hdenoted⟩ := laid_denoted hpoint upper s
      (max 0 (Stdio.toLong (s.width - (x.text upper point).length - ((if s.flagPlus then [ebcdic '+']
        else if s.flagSpace then [ebcdic ' '] else [] : Bytes)).length))) _ (hsign _ rfl)
    exact ⟨x.padded n, hdenoted, hneg, x.padded_meets hmeets.2 n⟩

/-- **`%a` denotes the value**, without a precision exactly, with one rounded at its last digit,
and what is written stays inside the buffer. -/
theorem hex_conversion (E : Env) (f : Bytes) (taken : Nat) (done : Int) (upper : Bool)
    (h : cur (parse E f taken).2.2 = hexLetter upper) :
    (∃ x : HexNumber, x.Denoted upper (examin E f taken done).out ∧ x.neg = (E.pair (parse E f taken).2.1).msb ∧
        x.Meets (hfp (E.pair (parse E f taken).2.1)) (parse E f taken).1.precision) ∧
      ∀ w prec alt, (hexflt w upper prec alt 127).length < 127 := by
  refine ⟨?_, fun w prec alt => ?_⟩
  · have hfloat := examinFloat_hex E (parse E f taken).1 upper (parse E f taken).2.1
    have hint : isIntConv (hexLetter upper) = false := by cases upper <;> decide
    have hconv : isFloatConv (hexLetter upper) = true := by cases upper <;> decide
    simp only [examin, h, hint, hconv, if_true, Bool.false_eq_true, if_false]
    exact hfloat
  · obtain ⟨x, point, -, hlt, -⟩ := hexflt_meets w upper prec alt
    exact hlt

theorem hex_conversion_sevens :
    cur (parse sevens (literal ".3a") 0).2.2 = hexLetter false ∧
      ∃ x : HexNumber, x.Denoted false (examin sevens (literal ".3a") 0 0).out ∧
        x.neg = (sevens.pair (parse sevens (literal ".3a") 0).2.1).msb ∧
        x.Meets (hfp (sevens.pair (parse sevens (literal ".3a") 0).2.1)) (parse sevens (literal ".3a") 0).1.precision :=
  ⟨by decide, (hex_conversion sevens (literal ".3a") 0 0 false (by decide)).1⟩

example : hexflt 0x4118000000000000#64 false (-1) false 127 = literal "0x1.8p+0" := by decide
-- the carry goes through all the digits
example : hexflt 0xC0FFFFFFFFFFFFFF#64 false 1 false 127 = literal "-0x1.0p+0" := by decide

end Libc370.Printf
