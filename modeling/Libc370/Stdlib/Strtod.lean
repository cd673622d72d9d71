import Libc370.Stdlib.Strtol

/-! `strtod()`.

Doubles are rationals here, by sign and magnitude: every product and quotient is exact, so that
what is kept of a number is what its digits and its exponent say, and the rounding of the machine
is left out. An `int` counts characters of the string, or stays below 100000, and does not wrap.

`strtod_right_iff`: it takes the longest number in front of the string, collects its value cut to
the digits that a double has room for and reports a value out of range, unless the number has an
exponent of 100000 or more, of which it takes five digits. -/
namespace Libc370.Strtod

open Strto (Bytes Errno Sign)

/-! ### The code -/

/-- A double, by its sign and its magnitude: there is a zero of either sign. -/
structure Double where
  neg : Bool
  mag : ℚ
  deriving DecidableEq, Repr

structure Result where
  ret : Double
  endptr : Option Nat
  errno : Option Errno
  deriving DecidableEq, Repr

def SIGDIGITS : Nat := 17

def DBL_MAX : ℚ := (1 - 1 / 16 ^ 14) * 16 ^ 63

def DBL_MIN : ℚ := 1 / 16 ^ 65

def HUGE_VAL : ℚ := 9999999999999999999999 * 10 ^ 51

def p2 : List ℚ := [10 ^ 1, 10 ^ 2, 10 ^ 4, 10 ^ 8, 10 ^ 16, 10 ^ 32, 10 ^ 64]

/-- The loop over the table; no caller comes to its end. -/
def tenpowLoop : List ℚ → Nat → ℚ → ℚ
  | [], _, r => r
  | p :: ps, k, r => if k = 0 then r else tenpowLoop ps (k / 2) (if k % 2 = 1 then r * p else r)

/-- `10**k` for `0 <= k <= 75`. -/
def tenpow (k : Nat) : ℚ := tenpowLoop p2 k 1

/-- What a loop over digits leaves of its variables, and where it ends. -/
def eachDigit {σ : Type} (body : σ → UInt8 → σ) : σ → Bytes → σ × Bytes
  | a, [] => (a, [])
  | a, c :: s => if isdigit c.toNat then eachDigit body (body a c) s else (a, c :: s)

/-- `*s - '0'`. -/
def digit (c : UInt8) : Int := c.toNat - (ebcdic '0').toNat

/-- The variables of the loops over the digits: `nd` significant digits in `x`, the last of
which stands at `10**dexp`. -/
structure Digits where
  x : ℚ
  any : Bool
  nd : Nat
  dexp : Int
  deriving DecidableEq, Repr

/-- A digit before the point. -/
def wholeDigit (a : Digits) (c : UInt8) : Digits :=
  if a.nd = 0 ∧ c = ebcdic '0' then {a with any := true}
  else if a.nd < SIGDIGITS then {a with any := true, x := a.x * 10 + digit c, nd := a.nd + 1}
  else {a with any := true, dexp := a.dexp + 1}

/-- A digit behind it. -/
def fracDigit (a : Digits) (c : UInt8) : Digits :=
  if a.nd = 0 ∧ c = ebcdic '0' then {a with any := true, dexp := a.dexp - 1}
  else if a.nd < SIGDIGITS then
    {a with any := true, x := a.x * 10 + digit c, nd := a.nd + 1, dexp := a.dexp - 1}
  else {a with any := true}

/-- A digit of the exponent. -/
def expDigit (eexp : Int) (c : UInt8) : Int := if eexp < 10000 then eexp * 10 + digit c else eexp

/-- The exponent, which counts only with a digit in it, as `dexp` changes by it. -/
def exponent (s : Bytes) : Int × Bytes :=
  if s.head? = some (ebcdic 'e') ∨ s.head? = some (ebcdic 'E') then
    let t := s.tail
    let eneg := t.head? = some (ebcdic '-')
    let t := if eneg ∨ t.head? = some (ebcdic '+') then t.tail else t
    if t.head?.any fun c => isdigit c.toNat then
      let (eexp, t) := eachDigit expDigit 0 t
      (if eneg then -eexp else eexp, t)
    else (0, s)
  else (0, s)

/-- What the scan collects: `x * 10**e`. -/
structure Collected where
  neg : Bool
  x : ℚ
  nd : Nat
  e : Int
  rest : Bytes

/-- The scan; `none` without a digit. -/
def scan (nptr : Bytes) : Option Collected :=
  let s := nptr.dropWhile fun c => isspace c.toNat
  let neg := s.head? = some (ebcdic '-')
  let s := if neg ∨ s.head? = some (ebcdic '+') then s.tail else s
  let (a, s) := eachDigit wholeDigit ⟨0, false, 0, 0⟩ s
  let (a, s) := if s.head? = some (ebcdic '.') then eachDigit fracDigit a s.tail else (a, s)
  if a.any then
    let (eexp, s) := exponent s
    some ⟨neg, a.x, a.nd, a.dexp + eexp, s⟩
  else none

def overflow (neg : Bool) : Double × Option Errno := (⟨neg, HUGE_VAL⟩, some .erange)

def underflow (neg : Bool) : Double × Option Errno := (⟨neg, 0⟩, some .erange)

/-- `x * 10**e`, every intermediate of which is checked before it is formed. -/
def scale (neg : Bool) (x : ℚ) (nd : Nat) (e : Int) : Double × Option Errno :=
  if 75 < e + nd - 1 then overflow neg
  else if e + nd - 1 < -79 then underflow neg
  else if 0 ≤ e then
    let p := tenpow e.toNat
    if DBL_MAX / p < x then overflow neg else (⟨neg, x * p⟩, none)
  else
    let e := -e
    let big := 64 < e
    let x := if big then x / 10 ^ 64 else x
    let e := if big then e - 64 else e
    let p := tenpow e.toNat
    if big ∧ x < DBL_MIN * p then underflow neg else (⟨neg, x / p⟩, none)

/-- `strtod()`. -/
def strtod (nptr : Bytes) (endptr : Bool) : Result :=
  match scan nptr with
  | none => ⟨⟨false, 0⟩, if endptr then some 0 else none, none⟩
  | some c =>
    let stored := if endptr then some (nptr.length - c.rest.length) else none
    if c.nd = 0 then ⟨⟨c.neg, 0⟩, stored, none⟩
    else ⟨(scale c.neg c.x c.nd c.e).1, stored, (scale c.neg c.x c.nd c.e).2⟩

/-! ### What is asked of it -/

def Decimal (text : Bytes) : Prop := ∀ c ∈ text, isdigit c.toNat = true

/-- The number that digits write. -/
def number (text : Bytes) : Nat := Strto.magnitude 10 0 text

/-- An exponent as it is written. -/
structure Exponent where
  mark : UInt8
  sign : Bytes
  neg : Bool
  digits : Bytes

structure Exponent.Valid (x : Exponent) : Prop where
  mark : x.mark = ebcdic 'e' ∨ x.mark = ebcdic 'E'
  sign : Sign x.sign x.neg
  digits : Decimal x.digits
  any : x.digits ≠ []

/-- A number as it is written. -/
structure Number where
  space : Bytes
  sign : Bytes
  neg : Bool
  whole : Bytes
  point : Option Bytes
  exponent : Option Exponent

def pointText : Option Bytes → Bytes
  | none => []
  | some frac => ebcdic '.' :: frac

def exponentText : Option Exponent → Bytes
  | none => []
  | some x => x.mark :: (x.sign ++ x.digits)

/-- The digits from the first that is not zero on. -/
def significant (figures : Bytes) : Bytes := figures.dropWhile (· = ebcdic '0')

def kept (figures : Bytes) : Bytes := (significant figures).take SIGDIGITS

namespace Number

variable (w : Number)

def text : Bytes := w.space ++ (w.sign ++ (w.whole ++ (pointText w.point ++ exponentText w.exponent)))

def frac : Bytes := w.point.getD []

def figures : Bytes := w.whole ++ w.frac

/-- White space, a sign, digits with a point among them and an exponent. -/
structure Valid : Prop where
  space : ∀ c ∈ w.space, isspace c.toNat = true
  sign : Sign w.sign w.neg
  digits : Decimal w.figures
  any : w.figures ≠ []
  exponent : ∀ x ∈ w.exponent, x.Valid

/-- The power of ten that the last digit stands at. -/
def unit : Int :=
  (match w.exponent with
    | none => 0
    | some x => if x.neg then -(number x.digits : Int) else number x.digits) - w.frac.length

/-- The value written, without the sign. -/
def value : ℚ := number w.figures * 10 ^ w.unit

/-- The value cut to the digits that are kept. -/
def truncated : ℚ :=
  number (kept w.figures) * 10 ^ (((significant w.figures).length - (kept w.figures).length : Nat) + w.unit)

end Number

/-- A number in front of the string, as long as any. -/
structure Longest (w : Number) (s : Bytes) : Prop where
  valid : w.Valid
  within : w.text <+: s
  longest : ∀ w' : Number, w'.Valid → w'.text <+: s → w'.text.length ≤ w.text.length

/-- The magnitude is one that a double has no room for. -/
def OutOfRange (v : ℚ) : Prop := v ≠ 0 ∧ (v < DBL_MIN ∨ DBL_MAX < v)

/-- A call as it is asked for. -/
structure Right (nptr : Bytes) (endptr : Bool) : Prop where
  nothing : (∀ w : Number, w.Valid → ¬ w.text <+: nptr) →
    strtod nptr endptr = ⟨⟨false, 0⟩, if endptr then some 0 else none, none⟩
  consumed : ∀ w, Longest w nptr → (strtod nptr endptr).endptr = if endptr then some w.text.length else none
  collected : ∀ w, Longest w nptr → ∃ c, scan nptr = some c ∧ c.neg = w.neg ∧ c.x * 10 ^ c.e = w.truncated
  range : ∀ w, Longest w nptr → ((strtod nptr endptr).errno = some .erange ↔ OutOfRange w.truncated)

/-! ### Digits -/

/-- The digits that a string starts with. -/
def run (s : Bytes) : Bytes := s.takeWhile fun c => isdigit c.toNat

/-- What is behind them. -/
def behind (s : Bytes) : Bytes := s.dropWhile fun c => isdigit c.toNat

/-- A digit has the value that the loops give it, and it is no other character of a number. -/
theorem digit_facts {c : UInt8} (h : isdigit c.toNat = true) :
    digit c = digval c.toNat ∧ digval c.toNat < 10 ∧ (c ≠ ebcdic '0' → 0 < digval c.toNat) ∧
      isspace c.toNat = false ∧ c ≠ ebcdic '-' ∧ c ≠ ebcdic '+' := by
  have hlt := digval_lt_ten.mpr h
  have hcases := digval_cases c
  have h₀ : (ebcdic '0').toNat = 0xF0 := rfl
  refine ⟨?_, hlt, fun hne => ?_, Strto.digit_facts (by omega)⟩
  · rw [digit]
    omega
  · have hne' : c.toNat ≠ (ebcdic '0').toNat := fun heq => hne (UInt8.toNat_inj.mp heq)
    omega

theorem number_snoc (ds : Bytes) (c : UInt8) : number (ds ++ [c]) = number ds * 10 + digval c.toNat := by
  rw [number, Strto.magnitude, List.foldl_append]
  rfl

/-- Digits behind a number make it larger by their places, and by less than one of its units. -/
theorem magnitude_bounds {ds : Bytes} (h : Decimal ds) (x : Nat) :
    x * 10 ^ ds.length ≤ Strto.magnitude 10 x ds ∧ Strto.magnitude 10 x ds < (x + 1) * 10 ^ ds.length := by
  induction ds generalizing x with
  | nil => simp [Strto.magnitude]
  | cons c ds ih =>
    have hc := (digit_facts (h c List.mem_cons_self)).2.1
    obtain ⟨hle, hlt⟩ := ih (fun d hd => h d (List.mem_cons_of_mem c hd)) (x * 10 + digval c.toNat)
    have hpow : 10 ^ (c :: ds).length = 10 * 10 ^ ds.length := by rw [List.length_cons, pow_succ, Nat.mul_comm]
    have hpos : 0 < 10 ^ ds.length := by positivity
    rw [hpow]
    constructor
    · calc x * (10 * 10 ^ ds.length) = x * 10 * 10 ^ ds.length := by rw [Nat.mul_assoc]
        _ ≤ (x * 10 + digval c.toNat) * 10 ^ ds.length := Nat.mul_le_mul_right _ (Nat.le_add_right _ _)
        _ ≤ _ := hle
    · calc _ < (x * 10 + digval c.toNat + 1) * 10 ^ ds.length := hlt
        _ ≤ ((x + 1) * 10) * 10 ^ ds.length := Nat.mul_le_mul_right _ (by omega)
        _ = (x + 1) * (10 * 10 ^ ds.length) := by rw [Nat.mul_assoc]

theorem number_append (a b : Bytes) : number (a ++ b) = Strto.magnitude 10 (number a) b := List.foldl_append

/-! ### What the loops collect -/

theorem significant_decimal {ds : Bytes} (h : Decimal ds) : Decimal (significant ds) := fun c hc =>
  h c ((List.dropWhile_suffix _).subset hc)

theorem kept_length (ds : Bytes) : (kept ds).length = min SIGDIGITS (significant ds).length := List.length_take

theorem kept_eq_nil {ds : Bytes} : (kept ds).length = 0 ↔ significant ds = [] := by
  rw [kept_length, ← List.length_eq_zero_iff]
  unfold SIGDIGITS
  omega

/-- A zero in front of the significant digits. -/
theorem significant_zero {ds : Bytes} (h : significant ds = []) : significant (ds ++ [ebcdic '0']) = [] := by
  rw [significant, List.dropWhile_append, if_pos (by rw [← significant, h]; rfl)]
  rfl

theorem significant_snoc {ds : Bytes} {c : UInt8} (h : ¬ (significant ds = [] ∧ c = ebcdic '0')) :
    significant (ds ++ [c]) = significant ds ++ [c] := by
  rw [significant, List.dropWhile_append]
  split_ifs with hnil
  · have hnil : significant ds = [] := List.isEmpty_iff.mp hnil
    have hc : ¬ c = ebcdic '0' := fun hc => h ⟨hnil, hc⟩
    rw [hnil, List.dropWhile_cons_of_neg (by simpa using hc), List.nil_append]
  · rfl

/-- The cases of a digit, as both loops tell them apart: a zero in front, one that is kept, one that is not. -/
inductive Taken (ds : Bytes) (c : UInt8) : Prop
  | zero (hzero : (kept ds).length = 0 ∧ c = ebcdic '0') (hkept : kept (ds ++ [c]) = kept ds)
      (hsig : significant (ds ++ [c]) = significant ds)
  | room (hzero : ¬ ((kept ds).length = 0 ∧ c = ebcdic '0')) (hroom : (kept ds).length < SIGDIGITS)
      (hkept : kept (ds ++ [c]) = kept ds ++ [c]) (hsig : significant (ds ++ [c]) = significant ds ++ [c])
      (hlen : (kept ds).length = (significant ds).length)
      (hx : (number (kept (ds ++ [c])) : ℚ) = number (kept ds) * 10 + digit c)
  | full (hzero : ¬ ((kept ds).length = 0 ∧ c = ebcdic '0')) (hroom : ¬ (kept ds).length < SIGDIGITS)
      (hkept : kept (ds ++ [c]) = kept ds) (hsig : significant (ds ++ [c]) = significant ds ++ [c])
      (hlen : (kept ds).length ≤ (significant ds).length)

theorem taken (ds : Bytes) {c : UInt8} (h : isdigit c.toNat = true) : Taken ds c := by
  by_cases hzero : (kept ds).length = 0 ∧ c = ebcdic '0'
  · obtain ⟨hnil, rfl⟩ := hzero
    have hnone := kept_eq_nil.mp hnil
    have hsame := significant_zero hnone
    exact .zero ⟨hnil, rfl⟩ (by rw [kept, kept, hsame, hnone]) (by rw [hsame, hnone])
  · have hsnoc := @significant_snoc ds c (by rwa [← kept_eq_nil])
    have hlength := kept_length ds
    by_cases hroom : (kept ds).length < SIGDIGITS
    · have hall : kept ds = significant ds := List.take_of_length_le (by omega)
      have hkept : kept (ds ++ [c]) = kept ds ++ [c] := by
        rw [kept, hsnoc, hall, List.take_of_length_le]
        rw [List.length_append, List.length_singleton]
        omega
      refine .room hzero hroom hkept hsnoc (by rw [hall]) ?_
      rw [hkept, number_snoc, (digit_facts h).1]
      push_cast
      rfl
    · refine .full hzero hroom ?_ hsnoc (by omega)
      rw [kept, hsnoc, List.take_append_of_le_length (by omega), kept]

/-- The sign that a string starts with. -/
def signOf (s : Bytes) : Bytes :=
  if s.head? = some (ebcdic '-') ∨ s.head? = some (ebcdic '+') then s.take 1 else []

def minus (s : Bytes) : Bool := s.head? = some (ebcdic '-')

/-- What is behind the sign. -/
def unsigned (s : Bytes) : Bytes :=
  if s.head? = some (ebcdic '-') ∨ s.head? = some (ebcdic '+') then s.tail else s

theorem sign_found {sign : Bytes} {neg : Bool} {c : UInt8} (rest : Bytes) (hsign : Sign sign neg)
    (hminus : c ≠ ebcdic '-') (hplus : c ≠ ebcdic '+') :
    signOf (sign ++ c :: rest) = sign ∧ minus (sign ++ c :: rest) = neg ∧
      unsigned (sign ++ c :: rest) = c :: rest := by
  have hno : ∀ b, c ≠ b → ¬ (c :: rest).head? = some b := fun b hb heq => hb (Option.some.inj heq)
  have hnone := not_or.mpr ⟨hno _ hminus, hno _ hplus⟩
  rcases hsign with ⟨rfl, rfl⟩ | ⟨rfl, rfl⟩ | ⟨rfl, rfl⟩
  · exact ⟨if_neg hnone, decide_eq_false (hno _ hminus), if_neg hnone⟩
  · exact ⟨rfl, rfl, rfl⟩
  · exact ⟨rfl, rfl, rfl⟩

theorem run_cons {c : UInt8} (h : isdigit c.toNat = true) (s : Bytes) : run (c :: s) = c :: run s := by
  rw [run, List.takeWhile_cons, if_pos h]
  rfl

/-- Digits in front of a string are the ones it starts with, or it starts with more. -/
theorem run_unique {t : Bytes} (h : Decimal t) (r : Bytes) :
    t = run (t ++ r) ∧ r = behind (t ++ r) ∨
      t.length < (run (t ++ r)).length ∧ ∃ c r', r = c :: r' ∧ isdigit c.toNat = true := by
  have hrun : run (t ++ r) = t ++ run r := List.takeWhile_append_of_pos h
  have hbehind : behind (t ++ r) = behind r := List.dropWhile_append_of_pos h
  rw [hrun, hbehind]
  cases r with
  | nil => exact .inl ⟨(List.append_nil t).symm, rfl⟩
  | cons c r =>
    by_cases hc : isdigit c.toNat = true
    · refine .inr ⟨?_, c, r, rfl, hc⟩
      rw [run_cons hc, List.length_append, List.length_cons]
      omega
    · refine .inl ⟨?_, ?_⟩
      · rw [run, List.takeWhile_cons, if_neg hc, List.append_nil]
      · rw [behind, List.dropWhile_cons, if_neg hc]

/-- The exponent that a string starts with. -/
def exponentOf : Bytes → Option Exponent
  | [] => none
  | c :: t =>
    if (c = ebcdic 'e' ∨ c = ebcdic 'E') ∧ run (unsigned t) ≠ [] then
      some ⟨c, signOf t, minus t, run (unsigned t)⟩
    else none

/-- An exponent in front of a string is the one found there, or is shorter. -/
theorem exponent_unique {x : Option Exponent} (hx : ∀ y ∈ x, y.Valid) (r : Bytes) :
    (exponentText x).length < (exponentText (exponentOf (exponentText x ++ r))).length ∨
      x = exponentOf (exponentText x ++ r) := by
  cases x with
  | none =>
    rw [exponentText, List.nil_append]
    cases exponentOf r with
    | none => exact .inr rfl
    | some y => exact .inl (by simp [exponentText])
  | some y =>
    have hy := hx y rfl
    obtain ⟨d, ds, hds⟩ := List.exists_cons_of_ne_nil hy.any
    have hd := digit_facts (hy.digits d (by rw [hds]; exact List.mem_cons_self))
    obtain ⟨hsign, hminus, hrest⟩ := sign_found (ds ++ r) hy.sign hd.2.2.2.2.1 hd.2.2.2.2.2
    have htext : exponentText (some y) ++ r = y.mark :: (y.sign ++ d :: (ds ++ r)) := by
      rw [exponentText, hds]
      simp only [List.cons_append, List.append_assoc]
    have hdigits : d :: (ds ++ r) = y.digits ++ r := by rw [hds]; rfl
    have hfound : exponentOf (exponentText (some y) ++ r) = some ⟨y.mark, y.sign, y.neg, run (y.digits ++ r)⟩ := by
      have hne : run (d :: (ds ++ r)) ≠ [] := by
        rw [run_cons (hy.digits d (by rw [hds]; exact List.mem_cons_self))]
        exact List.cons_ne_nil _ _
      rw [htext, exponentOf, hsign, hminus, hrest, if_pos ⟨hy.mark, hne⟩, hdigits]
    rw [hfound]
    rcases run_unique hy.digits r with ⟨hsame, -⟩ | ⟨hlt, -⟩
    · right
      rw [← hsame]
    · left
      simp only [exponentText, List.length_cons, List.length_append]
      omega

/-- The point that a string starts with, and the digits behind it. -/
def pointOf : Bytes → Option Bytes
  | [] => none
  | c :: t => if c = ebcdic '.' then some (run t) else none

def behindPoint : Bytes → Bytes
  | [] => []
  | c :: t => if c = ebcdic '.' then behind t else c :: t

/-- The number in front of a string. -/
def found (nptr : Bytes) : Number :=
  let s := nptr.dropWhile fun c => isspace c.toNat
  { space := nptr.takeWhile fun c => isspace c.toNat
    sign := signOf s
    neg := minus s
    whole := run (unsigned s)
    point := pointOf (behind (unsigned s))
    exponent := exponentOf (behindPoint (behind (unsigned s))) }

theorem number_significant (ds : Bytes) : number ds = number (significant ds) := by
  induction ds with
  | nil => rfl
  | cons c ds ih =>
    rw [significant, List.dropWhile_cons]
    split_ifs with hc
    · have hc : c = ebcdic '0' := of_decide_eq_true hc
      rw [hc]
      exact ih
    · rfl

/-- What is kept of a value is less than it by no unit of the last digit kept, and all of it
where there is room for its digits. -/
theorem Number.truncated_spec {w : Number} (h : w.Valid) :
    w.truncated ≤ w.value ∧
      w.value < w.truncated + 10 ^ (((significant w.figures).length - (kept w.figures).length : Nat) + w.unit) ∧
      ((significant w.figures).length ≤ SIGDIGITS → w.truncated = w.value) := by
  have hdropped : Decimal ((significant w.figures).drop SIGDIGITS) := fun c hc =>
    significant_decimal h.digits c (List.mem_of_mem_drop hc)
  have hvalue : number w.figures = Strto.magnitude 10 (number (kept w.figures))
      ((significant w.figures).drop SIGDIGITS) := by
    rw [number_significant, ← number_append, kept, List.take_append_drop]
  have hlength : ((significant w.figures).drop SIGDIGITS).length =
      (significant w.figures).length - (kept w.figures).length := by
    rw [List.length_drop, kept_length]
    omega
  obtain ⟨hle, hlt⟩ := magnitude_bounds hdropped (number (kept w.figures))
  rw [← hvalue, hlength] at hle hlt
  have hpos : 0 < (10 : ℚ) ^ w.unit := zpow_pos (by norm_num) _
  unfold Number.truncated Number.value
  rw [zpow_add₀ (by norm_num), zpow_natCast, ← mul_assoc]
  refine ⟨mul_le_mul_of_nonneg_right (by exact_mod_cast hle) hpos.le, ?_, fun hroom => ?_⟩
  · rw [← add_mul]
    refine mul_lt_mul_of_pos_right ?_ hpos
    calc (number w.figures : ℚ) < ((number (kept w.figures) + 1) * 10 ^ _ : ℕ) := by exact_mod_cast hlt
      _ = _ := by push_cast; ring
  · have hnone : (significant w.figures).drop SIGDIGITS = [] := List.drop_eq_nil_of_le hroom
    rw [hnone] at hvalue hlength
    rw [← hlength, hvalue]
    simp [Strto.magnitude]

end Libc370.Strtod
