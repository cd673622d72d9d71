import Libc370.Ctype
import Libc370.Lib.Bytes

/-! Doubles as text (`stdio/@@dblcvt.c`).

`__dblcvx()` lays out a sign, digits, a point and an exponent in an array, and cuts off what does
not fit. The digits come from the value scaled into [1,10): what a double is, and how it is scaled,
rounded and taken apart, is an `Arithmetic`, and any will do.

The array is the list of its bytes, and what is written or read outside of it is a fault, `none`.
An `int` wraps. `dblcvx_delivers`: no call faults, the text ends in the array, it has its exponent,
and where there is room for all of it it is the one `formatted` gives, behind blanks. -/
namespace Libc370.Dblcvt

abbrev Bytes := List UInt8

/-! ### The code -/

/-- What the conversions do with doubles. `scale` is `scale()`, which stays within 10**+-79. -/
structure Arithmetic (F : Type) where
  zero : F
  one : F
  half : F
  isNegative : F → Bool
  isZero : F → Bool
  negate : F → F
  scale : F → F × Int
  add : F → F → F
  /-- `b / 10.0`. -/
  div10 : F → F
  /-- `b >= 10.0`. -/
  ge10 : F → Bool
  /-- `b >= 5.0`. -/
  ge5 : F → Bool
  /-- `(int)b`. -/
  toInt : F → Nat
  /-- `(b - i) * 10.0`. -/
  next : F → Nat → F
  scale_range : ∀ b, -79 ≤ (scale b).2 ∧ (scale b).2 ≤ 79

inductive Conversion | e | E | f | g | G
  deriving DecidableEq, Repr

def Conversion.isG (c : Conversion) : Bool := c = .g ∨ c = .G

inductive Style | e | f
  deriving DecidableEq, Repr

/-- How the value is printed: below 1, in exponent form, or with digits before the point. -/
inductive Format | below | exponent | above
  deriving DecidableEq, Repr

/-- A value in an `int`. -/
def wrap (i : Int) : Int := i.bmod (2 ^ 32)

def DBLCVT_MAXRND : Int := 17

/-- The result being built: `n` characters so far, digits up to `dlim`. -/
structure DBLOUT where
  result : Bytes
  n : Nat
  lim : Nat
  dlim : Nat

/-- `result[i] = c`. -/
def store (result : Bytes) (i : Nat) (c : UInt8) : Option Bytes :=
  if i < result.length then some (result.set i c) else none

/-- One character, while there is room below `dlim`. -/
def put (o : DBLOUT) (c : UInt8) : Option DBLOUT :=
  if o.n < o.dlim then (store o.result o.n c).map fun result => {o with result := result, n := o.n + 1}
  else some o

def putIf (b : Bool) (o : DBLOUT) (c : UInt8) : Option DBLOUT := if b then put o c else some o

/-- `'0' + i % 10`. -/
def digit (i : Nat) : UInt8 := ebcdic '0' + UInt8.ofNat (i % 10)

section Code

variable {F : Type} (A : Arithmetic F)

/-- The next digit of `b` after the digit `i`. -/
def nextdigit (o : DBLOUT) (b : F) (i : Nat) : Option (DBLOUT × F × Nat) :=
  (put o (digit (A.toInt (A.next b i)))).map fun o => (o, A.next b i, A.toInt (A.next b i))

/-- `while (pdigits-- > 0 && o->n < o->dlim)` around `nextdigit()`. -/
def digitLoop : Nat → DBLOUT → F → Nat → Option DBLOUT
  | 0, o, _, _ => some o
  | pdigits + 1, o, b, i =>
    if o.n < o.dlim then do
      let (o, b, i) ← nextdigit A o b i
      digitLoop pdigits o b i
    else some o

/-- Half a unit of the digit `j`. -/
def halfUnit (j : Int) : F := A.div10^[j.toNat] A.half

/-- The style of `%g`, and the precision in it. -/
def gstyle (b : F) (exp nprecision : Int) : Style × Int :=
  let p := if 0 < nprecision then nprecision else 1
  let round := halfUnit A (min (p - 1) DBLCVT_MAXRND)
  let x := if !A.isZero b && A.ge10 (A.add b round) then exp + 1 else exp
  if x < p ∧ -4 ≤ x then (.f, wrap (p - 1 - x)) else (.e, p - 1)

/-- `roundb()` at the fractional digit `j`: the value, its exponent, and whether nothing is left of it. -/
def roundAt (b : F) (exp j : Int) : F × Int × Bool :=
  let j := if DBLCVT_MAXRND < j then DBLCVT_MAXRND else j
  if 0 ≤ j then
    if A.isZero b then (b, exp, false)
    else
      let b := A.add b (halfUnit A j)
      if A.ge10 b then (A.div10 b, exp + 1, false) else (b, exp, false)
  else if j = -1 ∧ A.ge5 b then (A.one, exp + 1, false)
  else (A.zero, 0, true)

def roundb (b : F) (exp : Int) (format : Format) (nprecision : Int) : F × Int × Format :=
  let (b, exp, gone) := roundAt A b exp (if format = .exponent then nprecision else wrap (exp + nprecision))
  (b, exp, if gone then .above else format)

/-- `while (++exp)`, which goes round once for each zero behind the point. -/
def zeroLoop : Nat → DBLOUT → Int → Option (DBLOUT × Int)
  | 0, o, nprecision => some (o, nprecision)
  | zeros + 1, o, nprecision => do
    let o ← put o (ebcdic '0')
    zeroLoop zeros o (wrap (nprecision - 1))

def fbelow1 (o : DBLOUT) (b : F) (exp nprecision : Int) : Option DBLOUT := do
  let o ← put o (ebcdic '0')
  let o ← put o (ebcdic '.')
  let (o, nprecision) ← zeroLoop (-exp - 1).toNat o nprecision
  let o ← put o (digit (A.toInt b))
  digitLoop A (wrap (nprecision - 1)).toNat o b (A.toInt b)

/-- The loop of `fabove1()`, which has the point in front of one of its digits. -/
def pointLoop (nprecision exp : Int) : Nat → DBLOUT → F → Nat → Option DBLOUT
  | 0, o, _, _ => some o
  | pdigits + 1, o, b, i =>
    if o.n < o.dlim then do
      let o ← putIf (nprecision - pdigits - 1 = exp) o (ebcdic '.')
      let (o, b, i) ← nextdigit A o b i
      pointLoop nprecision exp pdigits o b i
    else some o

def fabove1 (o : DBLOUT) (b : F) (exp nprecision : Int) (alt : Bool) : Option DBLOUT := do
  let o ← put o (digit (A.toInt b))
  let o ← putIf (alt && exp = 0 && nprecision = 0) o (ebcdic '.')
  let nprecision := wrap (nprecision + exp)
  let o ← pointLoop A nprecision exp nprecision.toNat o b (A.toInt b)
  putIf (alt && 0 < exp && nprecision = exp) o (ebcdic '.')

def emant (o : DBLOUT) (b : F) (nprecision : Int) (alt : Bool) : Option DBLOUT := do
  let o ← put o (digit (A.toInt b))
  let o ← putIf (0 < nprecision || alt) o (ebcdic '.')
  digitLoop A nprecision.toNat o b (A.toInt b)

def layout (format : Format) (o : DBLOUT) (b : F) (exp nprecision : Int) (alt : Bool) : Option DBLOUT :=
  match format with
  | .below => fbelow1 A o b exp nprecision
  | .above => fabove1 A o b exp nprecision alt
  | .exponent => emant A o b nprecision alt

def strlen (s : Bytes) : Option Nat := if 0 ∈ s then some (s.takeWhile (· ≠ 0)).length else none

/-- `while (q > p && *q == '0') *q-- = '\0'`. -/
def zerosLoop (p : Nat) : Nat → Bytes → Option (Nat × Bytes)
  | 0, s => some (0, s)
  | q + 1, s =>
    if p < q + 1 ∧ s[q + 1]? = some (ebcdic '0') then (store s (q + 1) 0).bind (zerosLoop p q) else some (q + 1, s)

/-- The zeros behind the point at `p`, and the point with them. -/
def dropZeros (s : Bytes) (n p : Nat) : Option Bytes := do
  let (q, s) ← zerosLoop p (n - 1) s
  if q = p then store s q 0 else some s

/-- `if (p != NULL)`, where `p` is `strchr(s, '.')` in a string of `n` characters. -/
def dropZerosIf (s : Bytes) (n p : Nat) : Option Bytes := if p < n then dropZeros s n p else some s

def gstrip (o : DBLOUT) : Option DBLOUT := do
  let n ← strlen o.result
  let result ← dropZerosIf o.result n ((o.result.take n).idxOf (ebcdic '.'))
  (strlen result).map fun n => {o with result := result, n := n}

def expo (o : DBLOUT) (exp : Int) (cnvtype : Conversion) : Option DBLOUT := do
  let o ← put {o with dlim := o.lim} (if cnvtype = .e ∨ cnvtype = .g then ebcdic 'e' else ebcdic 'E')
  let o ← put o (if exp < 0 then ebcdic '-' else ebcdic '+')
  let o ← put o (digit (exp.natAbs / 10))
  let o ← put o (digit exp.natAbs)
  (store o.result o.n 0).map fun result => {o with result := result}

def gstripIf (b : Bool) (o : DBLOUT) : Option DBLOUT := if b then gstrip o else some o

def expoIf (b : Bool) (o : DBLOUT) (exp : Int) (cnvtype : Conversion) : Option DBLOUT :=
  if b then expo o exp cnvtype else some o

/-- `memmove(s + pad, s, n)`. -/
def memmove (s : Bytes) (pad n : Nat) : Option Bytes :=
  if pad + n ≤ s.length then some (Bytes.patch s pad (s.take n)) else none

/-- `while (pad > 0) s[--pad] = ' '`. -/
def blankLoop : Nat → Bytes → Option Bytes
  | 0, s => some s
  | pad + 1, s => (store s pad (ebcdic ' ')).bind (blankLoop pad)

def padleft (o : DBLOUT) (nwidth : Nat) : Option Bytes :=
  if o.n < nwidth then
    let pad := nwidth - o.n
    let pad := if o.lim - o.n < pad then o.lim - o.n else pad
    (memmove o.result pad (o.n + 1)).bind (blankLoop pad)
  else some o.result

/-- The end of `__dblcvx()`, behind the digits. -/
def finish (o : DBLOUT) (format : Format) (exp : Int) (cnvtype : Conversion) (nwidth : Nat) (alt : Bool) :
    Option Bytes := do
  let result ← store o.result o.n 0
  let o ← gstripIf (cnvtype.isG && !alt) {o with result := result}
  let o ← expoIf (format = .exponent) o exp cnvtype
  padleft o nwidth

/-- `__dblcvx()`, with a result of as many bytes as the list has. -/
def dblcvx (num : F) (cnvtype : Conversion) (nwidth : Nat) (nprecision : Int) (alt : Bool) (result : Bytes) :
    Option Bytes :=
  if result.length = 0 then some result
  else
    let (b, exp) := A.scale (if A.isNegative num then A.negate num else num)
    let (style, nprecision) :=
      if cnvtype.isG then gstyle A b exp nprecision
      else (if cnvtype = .e ∨ cnvtype = .E then .e else .f, nprecision)
    let format := if style = .e then Format.exponent else if 0 ≤ exp then .above else .below
    let (b, exp, format) := roundb A b exp format nprecision
    let format := if format = .below ∧ 0 ≤ exp then .above else format
    let lim := result.length - 1
    let dlim := if format = .exponent then (if 4 < lim then lim - 4 else 0) else lim
    (putIf (A.isNegative num) ⟨result, 0, lim, dlim⟩ (ebcdic '-')).bind fun o =>
      (layout A format o b exp nprecision alt).bind fun o => finish o format exp cnvtype nwidth alt

/-- `__dblcvt()`. -/
def dblcvt (num : F) (cnvtype : Conversion) (nwidth : Nat) (nprecision : Int) (result : Bytes) : Option Bytes :=
  dblcvx A num cnvtype nwidth nprecision false result

end Code

/-! ### The text -/

/-- An object of a program: the address space has 31 bits. -/
abbrev Object := {bytes : Bytes // bytes.length ≤ 2 ^ 31}

/-- Digits, a point where there is something behind it or one is asked for, and what is behind it. -/
def mantissa (whole frac : Bytes) (alt : Bool) : Bytes :=
  whole ++ ((if frac ≠ [] ∨ alt then [ebcdic '.'] else []) ++ frac)

/-- The digit that stands at `10**k` in the number with the digits `d` from `10**x` on. -/
def place (d : Nat → UInt8) (x k : Int) : UInt8 := if k ≤ x then d (x - k).toNat else ebcdic '0'

/-- The digits before the point. -/
def whole (d : Nat → UInt8) (x : Int) : Bytes := (List.range (x.toNat + 1)).map fun i : Nat => place d x (x.toNat - i)

/-- So many behind it. -/
def decimals (d : Nat → UInt8) (x : Int) (n : Nat) : Bytes := (List.range n).map fun i : Nat => place d x (-1 - i)

/-- The digits behind the first. -/
def behindFirst (d : Nat → UInt8) (n : Nat) : Bytes := (List.range' 1 n).map d

/-- A number in decimal. -/
def decimal (n : Nat) : Bytes := if n = 0 then [ebcdic '0'] else (Nat.digits 10 n).reverse.map digit

/-- The exponent: the letter, the sign and at least two digits. -/
def exponentText (letter : UInt8) (x : Int) : Bytes :=
  letter :: (if x < 0 then ebcdic '-' else ebcdic '+') ::
    (List.replicate (2 - (decimal x.natAbs).length) (ebcdic '0') ++ decimal x.natAbs)

/-- The zeros at the end. -/
def withoutZeros (frac : Bytes) : Bytes := frac.rdropWhile (· = ebcdic '0')

section Text

variable {F : Type} (A : Arithmetic F)

/-- The value behind so many digits. -/
def tail (b : F) : Nat → F
  | 0 => b
  | i + 1 => A.next (tail b i) (A.toInt (tail b i))

/-- The digits of a value. -/
def figures (b : F) (i : Nat) : UInt8 := digit (A.toInt (tail A b i))

/-- The value scaled. -/
def scaled (num : F) : F × Int := A.scale (if A.isNegative num then A.negate num else num)

/-- The digits and the exponent of the value rounded behind the fractional digit `j`. -/
def rounded (num : F) (j : Int) : (Nat → UInt8) × Int :=
  (figures A (roundAt A (scaled A num).1 (scaled A num).2 j).1, (roundAt A (scaled A num).1 (scaled A num).2 j).2.1)

def sign (num : F) : Bytes := if A.isNegative num then [ebcdic '-'] else []

/-- A text: the digits before the point and behind it, and the exponent. -/
structure Text where
  whole : Bytes
  frac : Bytes
  exponent : Bytes

/-- `n` digits behind the point, and no exponent. -/
def fixed (num : F) (n : Nat) : Text :=
  let r := rounded A num ((scaled A num).2 + n)
  ⟨whole r.1 r.2, decimals r.1 r.2 n, []⟩

/-- One digit before the point and `n` behind it. -/
def scientific (letter : Char) (num : F) (n : Nat) : Text :=
  let r := rounded A num n
  ⟨[r.1 0], behindFirst r.1 n, exponentText (ebcdic letter) r.2⟩

/-- The exponent that the value has in the exponent form with `p` significant digits. -/
def generalExponent (num : F) (p : Nat) : Int := (rounded A num (p - 1 : Nat)).2

/-- `p` significant digits, in the form that the exponent asks for. -/
def significant (letter : Char) (num : F) (p : Nat) : Text :=
  if generalExponent A num p < p ∧ -4 ≤ generalExponent A num p then
    fixed A num (p - 1 - generalExponent A num p).toNat
  else scientific A letter num (p - 1)

def general (letter : Char) (num : F) (n : Nat) (alt : Bool) : Text :=
  let t := significant A letter num (if n = 0 then 1 else n)
  if alt then t else {t with frac := withoutZeros t.frac}

/-- The text of a conversion. -/
def formatted (num : F) (cnvtype : Conversion) (n : Nat) (alt : Bool) : Text :=
  match cnvtype with
  | .e => scientific A 'e' num n
  | .E => scientific A 'E' num n
  | .f => fixed A num n
  | .g => general A 'e' num n alt
  | .G => general A 'E' num n alt

def full (num : F) (cnvtype : Conversion) (n : Nat) (alt : Bool) : Bytes :=
  let t := formatted A num cnvtype n alt
  sign A num ++ (mantissa t.whole t.frac alt ++ t.exponent)

/-- What a call makes of the array. -/
structure Delivers (num : F) (cnvtype : Conversion) (nwidth n : Nat) (alt : Bool) (before after : Bytes) : Prop where
  length : after.length = before.length
  ended : before ≠ [] → 0 ∈ after
  exponent : before ≠ [] →
    (formatted A num cnvtype n alt).exponent.take (before.length - 1) <:+ after.takeWhile (· ≠ 0)
  whole : (full A num cnvtype n alt).length < before.length →
    after.takeWhile (· ≠ 0) =
      List.replicate (min nwidth (before.length - 1) - (full A num cnvtype n alt).length) (ebcdic ' ') ++
        full A num cnvtype n alt

end Text

/-! ### Characters in the array -/

/-- The array with as much of a text as there is room for. -/
def written (r : Bytes) (lim dlim : Nat) (t : Bytes) : DBLOUT :=
  ⟨t.take dlim ++ r.drop (t.take dlim).length, (t.take dlim).length, lim, dlim⟩

/-- Nothing is put behind a text that fills the room. -/
theorem written_full {r : Bytes} {lim dlim : Nat} {t : Bytes} (h : dlim ≤ t.length) (u : Bytes) :
    written r lim dlim (t ++ u) = written r lim dlim t := by
  rw [written, written, List.take_append_of_le_length h]

theorem store_end {r t : Bytes} (c : UInt8) (h : t.length < r.length) :
    store (t ++ r.drop t.length) t.length c = some (t ++ c :: r.drop (t.length + 1)) := by
  have hin : t.length < (t ++ r.drop t.length).length := by
    rw [List.length_append, List.length_drop]
    omega
  rw [store, if_pos hin, List.set_append_right _ _ le_rfl, Nat.sub_self, List.drop_eq_getElem_cons h,
    List.set_cons_zero]

theorem written_room {r : Bytes} {lim dlim : Nat} {t : Bytes} :
    (written r lim dlim t).n < (written r lim dlim t).dlim ↔ t.length < dlim := by
  simp only [written, List.length_take]
  omega

theorem wrap_add (i j : Int) : wrap (wrap i + j) = wrap (i + j) := Int.bmod_add_bmod

theorem wrap_eq {i : Int} (hlow : -2 ^ 31 ≤ i) (hhigh : i < 2 ^ 31) : wrap i = i :=
  Int.bmod_eq_of_le (by omega) (by omega)

section Written

/-- The digits stop in front of the place of the NUL. -/
structure Room (r : Bytes) (lim dlim : Nat) : Prop where
  le : dlim ≤ lim
  lt : lim < r.length

variable {r : Bytes} {lim dlim : Nat} (hroom : Room r lim dlim)

include hroom

theorem put_written (t : Bytes) (c : UInt8) : put (written r lim dlim t) c = some (written r lim dlim (t ++ [c])) := by
  by_cases hlt : t.length < dlim
  · have hall : t.take dlim = t := List.take_of_length_le hlt.le
    have hall' : (t ++ [c]).take dlim = t ++ [c] := List.take_of_length_le (by simpa using hlt)
    rw [put, if_pos (written_room.mpr hlt)]
    simp only [written, hall, hall']
    rw [store_end c (hlt.trans (hroom.le.trans_lt hroom.lt))]
    simp
  · rw [put, if_neg (mt written_room.mp hlt), written_full (not_lt.mp hlt)]

theorem putIf_written (b : Bool) (t : Bytes) (c : UInt8) :
    putIf b (written r lim dlim t) c = some (written r lim dlim (t ++ if b then [c] else [])) := by
  cases b with
  | false => simp [putIf]
  | true => exact put_written hroom t c

theorem zeroLoop_written (k : Nat) (t : Bytes) (nprecision : Int) :
    ∃ n, zeroLoop k (written r lim dlim t) nprecision =
        some (written r lim dlim (t ++ List.replicate k (ebcdic '0')), n) ∧
      ∀ i, wrap (n + i) = wrap (nprecision - k + i) := by
  induction k generalizing t nprecision with
  | zero => exact ⟨nprecision, by simp [zeroLoop], fun i => by simp⟩
  | succ k ih =>
    obtain ⟨n, hloop, hn⟩ := ih (t ++ [ebcdic '0']) (wrap (nprecision - 1))
    refine ⟨n, ?_, fun i => ?_⟩
    · rw [zeroLoop, put_written hroom]
      simpa [List.replicate_succ] using hloop
    · calc wrap (n + i) = wrap (wrap (nprecision - 1) + (i - k)) := by rw [hn, sub_add_eq_add_sub, add_sub_assoc]
        _ = wrap (nprecision - (k + 1 : Nat) + i) := by
          rw [wrap_add]
          congr 1
          omega

section Digits

variable {F : Type} (A : Arithmetic F)

theorem nextdigit_written (t : Bytes) (b : F) (m : Nat) :
    nextdigit A (written r lim dlim t) (tail A b m) (A.toInt (tail A b m)) =
      some (written r lim dlim (t ++ [figures A b (m + 1)]), tail A b (m + 1), A.toInt (tail A b (m + 1))) := by
  rw [nextdigit, put_written hroom]
  rfl

/-- The digits from `m + 1` on, all that are asked for. -/
theorem digitLoop_written (k : Nat) (t : Bytes) (b : F) (m : Nat) :
    digitLoop A k (written r lim dlim t) (tail A b m) (A.toInt (tail A b m)) =
      some (written r lim dlim (t ++ (List.range' (m + 1) k).map (figures A b))) := by
  induction k generalizing t m with
  | zero => simp [digitLoop]
  | succ k ih =>
    rw [digitLoop]
    by_cases hlt : t.length < dlim
    · rw [if_pos (written_room.mpr hlt), nextdigit_written hroom]
      have hrest := ih (t ++ [figures A b (m + 1)]) (m + 1)
      rw [List.append_assoc] at hrest
      exact hrest
    · rw [if_neg (mt written_room.mp hlt), written_full (not_lt.mp hlt)]

/-- A digit of `fabove1()`, with the point that stands in front of it. -/
def pointed (exp : Int) (b : F) (i : Nat) : Bytes :=
  (if (i : Int) = exp then [ebcdic '.'] else []) ++ [figures A b (i + 1)]

theorem pointLoop_written (exp : Int) (k : Nat) (t : Bytes) (b : F) (m : Nat) :
    pointLoop A ((m + k : Nat) : Int) exp k (written r lim dlim t) (tail A b m) (A.toInt (tail A b m)) =
      some (written r lim dlim (t ++ (List.range' m k).flatMap (pointed A exp b))) := by
  induction k generalizing t m with
  | zero => simp [pointLoop]
  | succ k ih =>
    have hplace : ((m + (k + 1) : Nat) : Int) - k - 1 = m := by omega
    rw [pointLoop]
    by_cases hlt : t.length < dlim
    · rw [if_pos (written_room.mpr hlt), hplace, putIf_written hroom]
      have hrest := ih (t ++ pointed A exp b m) (m + 1)
      rw [List.append_assoc, Nat.add_right_comm, Nat.add_assoc] at hrest
      rw [Option.bind_eq_bind, Option.bind_some, nextdigit_written hroom, List.append_assoc]
      simp only [decide_eq_true_eq]
      exact hrest
    · rw [if_neg (mt written_room.mp hlt), written_full (not_lt.mp hlt)]

/-- What `fbelow1()` puts, with `j` digits behind the first. -/
def belowText (b : F) (exp : Int) (j : Nat) : Bytes :=
  [ebcdic '0', ebcdic '.'] ++ (List.replicate (-exp - 1).toNat (ebcdic '0') ++ (List.range' 0 (j + 1)).map
  (figures A b))

theorem fbelow1_written (t : Bytes) (b : F) {exp : Int} (hexp : exp < 0) (nprecision : Int) :
    fbelow1 A (written r lim dlim t) b exp nprecision =
      some (written r lim dlim (t ++ belowText A b exp (wrap (nprecision + exp)).toNat)) := by
  obtain ⟨n, hloop, hn⟩ := zeroLoop_written hroom (-exp - 1).toNat (t ++ [ebcdic '0'] ++ [ebcdic '.']) nprecision
  have hleft : wrap (n - 1) = wrap (nprecision + exp) := by
    rw [sub_eq_add_neg, hn]
    congr 1
    omega
  have hdigits := digitLoop_written hroom A (wrap (nprecision + exp)).toNat
    (t ++ [ebcdic '0'] ++ [ebcdic '.'] ++ List.replicate (-exp - 1).toNat (ebcdic '0') ++ [figures A b 0]) b 0
  rw [fbelow1, put_written hroom, Option.bind_eq_bind, Option.bind_some, put_written hroom, Option.bind_some, hloop]
  simp only [Option.bind_eq_bind, Option.bind_some]
  rw [put_written hroom, Option.bind_some, hleft]
  refine hdigits.trans ?_
  simp [belowText, List.range'_succ]

/-- What `fabove1()` puts, with `j` digits behind the first. -/
def aboveText (b : F) (exp nprecision : Int) (alt : Bool) (j : Int) : Bytes :=
  [figures A b 0] ++ ((if alt && exp = 0 && nprecision = 0 then [ebcdic '.'] else []) ++
    ((List.range' 0 j.toNat).flatMap (pointed A exp b) ++
      if alt && 0 < exp && j = exp then [ebcdic '.'] else []))

theorem fabove1_written (t : Bytes) (b : F) (exp nprecision : Int) (alt : Bool) :
    fabove1 A (written r lim dlim t) b exp nprecision alt =
      some (written r lim dlim (t ++ aboveText A b exp nprecision alt (wrap (nprecision + exp)))) := by
  have hpoint : ∀ (j : Int) (t : Bytes), pointLoop A j exp j.toNat (written r lim dlim t) b (A.toInt b) =
      some (written r lim dlim (t ++ (List.range' 0 j.toNat).flatMap (pointed A exp b))) := by
    intro j t
    by_cases hj : 0 ≤ j
    · have hloop := pointLoop_written hroom A exp j.toNat t b 0
      rw [Nat.zero_add, Int.toNat_of_nonneg hj] at hloop
      exact hloop
    · rw [Int.toNat_of_nonpos (by omega)]
      simp [pointLoop]
  rw [fabove1, put_written hroom, Option.bind_eq_bind, Option.bind_some, putIf_written hroom, Option.bind_some]
  dsimp only
  rw [hpoint, Option.bind_some, putIf_written hroom]
  simp only [aboveText, List.append_assoc]
  rfl

/-- What `emant()` puts. -/
def mantText (b : F) (nprecision : Int) (alt : Bool) : Bytes :=
  [figures A b 0] ++ ((if 0 < nprecision || alt then [ebcdic '.'] else []) ++
    (List.range' 1 nprecision.toNat).map (figures A b))

theorem emant_written (t : Bytes) (b : F) (nprecision : Int) (alt : Bool) :
    emant A (written r lim dlim t) b nprecision alt =
      some (written r lim dlim (t ++ mantText A b nprecision alt)) := by
  have hdigits := digitLoop_written hroom A nprecision.toNat
    (t ++ [figures A b 0] ++ if 0 < nprecision || alt then [ebcdic '.'] else []) b 0
  rw [emant, put_written hroom, Option.bind_eq_bind, Option.bind_some, putIf_written hroom, Option.bind_some]
  refine hdigits.trans ?_
  simp [mantText]

end Digits

end Written

/-! ### The layouts -/

section Layout

variable {F : Type} (A : Arithmetic F) (b : F)

theorem pointed_apart {exp : Int} {s k : Nat} (h : ∀ i, s ≤ i → i < s + k → (i : Int) ≠ exp) :
    (List.range' s k).flatMap (pointed A exp b) = (List.range' (s + 1) k).map (figures A b) := by
  rw [Nat.add_comm s 1, ← List.map_add_range', List.map_map, List.map_eq_flatMap]
  refine List.flatMap_congr fun i hi => ?_
  rw [List.mem_range'_1] at hi
  rw [pointed, if_neg (h i hi.1 hi.2), Nat.add_comm i 1]
  rfl

theorem whole_nat (d : Nat → UInt8) (x : Nat) : whole d x = (List.range' 0 (x + 1)).map d := by
  rw [whole, Int.toNat_natCast, List.range'_eq_map_range, List.map_map]
  refine List.map_congr_left fun i hi => ?_
  rw [place, if_pos (by omega), Function.comp_apply]
  congr 1
  omega

theorem decimals_nat (d : Nat → UInt8) (x n : Nat) : decimals d x n = (List.range' (x + 1) n).map d := by
  rw [decimals, List.range'_eq_map_range, List.map_map]
  refine List.map_congr_left fun i hi => ?_
  rw [place, if_pos (by omega), Function.comp_apply]
  congr 1
  omega

theorem decimals_eq_nil (d : Nat → UInt8) (x : Int) {n : Nat} : decimals d x n = [] ↔ n = 0 := by
  rw [decimals, List.map_eq_nil_iff, List.range_eq_nil]

theorem aboveText_eq {exp nprecision : Int} {n : Nat} (hexp : 0 ≤ exp) (hn : nprecision = 0 ↔ n = 0) (alt : Bool) :
    aboveText A b exp nprecision alt (n + exp) =
      mantissa (whole (figures A b) exp) (decimals (figures A b) exp n) alt := by
  obtain ⟨x, rfl⟩ := Int.eq_ofNat_of_zero_le hexp
  have hcount : ((n : Int) + x).toNat = x + n := by omega
  have hbefore := @pointed_apart F A b x 0 x (fun i _ hi => by omega)
  have hrange : List.range' 0 (x + n) = List.range' 0 x ++ List.range' x n := by
    rw [← List.range'_append_1, Nat.zero_add]
  have hfirst : List.range' 0 (x + 1) = [0] ++ List.range' 1 x := List.range'_succ
  rw [aboveText, mantissa, whole_nat, decimals_nat, hcount, hrange, List.flatMap_append, hbefore, hfirst]
  cases n with
  | zero =>
    have hzero : nprecision = 0 := hn.mpr rfl
    cases alt with
    | false => simp
    | true =>
      by_cases hx : x = 0
      · subst hx
        simp [hzero]
      · have hpos : 0 < x := Nat.pos_of_ne_zero hx
        simp [hx, hpos]
  | succ n =>
    have hzero : ¬ nprecision = 0 := mt hn.mp (Nat.succ_ne_zero n)
    have hbehind := @pointed_apart F A b x (x + 1) n (fun i hi _ => by omega)
    have hlast : ¬ (n : Int) + 1 = 0 := by omega
    rw [List.range'_succ, List.flatMap_cons, hbehind]
    simp [hzero, hlast, pointed, List.range'_succ]

theorem belowText_eq {exp : Int} {n : Nat} (hexp : exp < 0) (hn : 0 ≤ n + exp) (alt : Bool) :
    belowText A b exp (n + exp).toNat =
      mantissa (whole (figures A b) exp) (decimals (figures A b) exp n) alt := by
  have hwhole : whole (figures A b) exp = [ebcdic '0'] := by
    have hplace : place (figures A b) exp ((0 : Nat) - (0 : Nat)) = ebcdic '0' := if_neg (by omega)
    rw [whole, Int.toNat_of_nonpos hexp.le, Nat.zero_add, List.range_one, List.map_singleton, hplace]
  have hdecimals : decimals (figures A b) exp n =
      List.replicate (-exp - 1).toNat (ebcdic '0') ++ (List.range' 0 ((n + exp).toNat + 1)).map (figures A b) := by
    obtain ⟨z, hz⟩ : ∃ z : Nat, exp = -(z : Int) - 1 := ⟨(-exp - 1).toNat, by omega⟩
    obtain ⟨j, hj⟩ : ∃ j : Nat, (n : Int) + exp = j := ⟨(n + exp).toNat, by omega⟩
    have hcount : n = z + (j + 1) := by omega
    have hzeros : (List.range z).map (fun i : Nat => place (figures A b) exp (-1 - i)) =
        List.replicate z (ebcdic '0') := by
      rw [List.eq_replicate_iff, List.length_map, List.length_range]
      refine ⟨rfl, fun c hc => ?_⟩
      obtain ⟨i, hi, rfl⟩ := List.mem_map.mp hc
      have hi := List.mem_range.mp hi
      exact if_neg (by omega)
    rw [hj, Int.toNat_natCast, show (-exp - 1).toNat = z by omega, decimals, hcount, List.range_add, List.map_append,
      hzeros,
      List.map_map, List.range'_eq_map_range, List.map_map]
    congr 1
    refine List.map_congr_left fun i _ => ?_
    rw [Function.comp_apply, Function.comp_apply, place, if_pos (by omega)]
    congr 1
    omega
  have hne : decimals (figures A b) exp n ≠ [] := mt (decimals_eq_nil _ _).mp (by omega)
  rw [belowText, mantissa, if_pos (.inl hne), hwhole, hdecimals]
  rfl

theorem mantText_eq (n : Nat) (alt : Bool) :
    mantText A b n alt = mantissa [figures A b 0] (behindFirst (figures A b) n) alt := by
  rw [mantText, mantissa, behindFirst, Int.toNat_natCast]
  cases n <;> simp

end Layout

/-! ### Behind the digits -/

/-- An array with a text up to a NUL. -/
structure Holds (s u : Bytes) : Prop where
  eq : ∃ rest, s = u ++ 0 :: rest
  nul : 0 ∉ u

namespace Holds

variable {s u : Bytes} (h : Holds s u)

include h

theorem length_lt : u.length < s.length := by
  obtain ⟨rest, rfl⟩ := h.eq
  rw [List.length_append, List.length_cons]
  omega

theorem mem : 0 ∈ s := by
  obtain ⟨rest, rfl⟩ := h.eq
  simp

theorem take : s.take u.length = u := by
  obtain ⟨rest, rfl⟩ := h.eq
  exact List.take_left

theorem takeWhile : s.takeWhile (· ≠ 0) = u := by
  obtain ⟨rest, rfl⟩ := h.eq
  have hall : ∀ c ∈ u, decide (c ≠ 0) = true := fun c hc => decide_eq_true fun hzero => h.nul (hzero ▸ hc)
  rw [List.takeWhile_append_of_pos hall, List.takeWhile_cons_of_neg (by simp), List.append_nil]

theorem strlen : strlen s = some u.length := by
  rw [Dblcvt.strlen, if_pos h.mem, h.takeWhile]

end Holds

/-- The NUL behind the digits. -/
theorem written_holds {r : Bytes} {lim dlim : Nat} (hroom : Room r lim dlim) {t : Bytes} (ht : 0 ∉ t) :
    ∃ s, store (written r lim dlim t).result (written r lim dlim t).n 0 = some s ∧ s.length = r.length ∧
      Holds s (t.take dlim) := by
  have hlt : (t.take dlim).length < r.length := by
    have := hroom.le.trans_lt hroom.lt
    rw [List.length_take]
    omega
  refine ⟨_, store_end 0 hlt, ?_, ⟨_, rfl⟩, fun hmem => ht (List.mem_of_mem_take hmem)⟩
  rw [List.length_append, List.length_cons, List.length_drop]
  omega

/-- What `%g` makes of the digits. -/
def stripped (u : Bytes) : Bytes :=
  if ebcdic '.' ∈ u then
    mantissa (u.takeWhile (· ≠ ebcdic '.')) (withoutZeros (u.dropWhile (· ≠ ebcdic '.')).tail) false
  else u

theorem stripped_none {u : Bytes} (h : ebcdic '.' ∉ u) : stripped u = u := if_neg h

theorem stripped_point {w : Bytes} (h : ebcdic '.' ∉ w) (f : Bytes) :
    stripped (w ++ ebcdic '.' :: f) = mantissa w (withoutZeros f) false := by
  have hall : ∀ c ∈ w, decide (c ≠ ebcdic '.') = true := fun c hc => decide_eq_true fun heq => h (heq ▸ hc)
  rw [stripped, if_pos (by simp), List.takeWhile_append_of_pos hall, List.dropWhile_append_of_pos hall,
    List.takeWhile_cons_of_neg (by simp), List.dropWhile_cons_of_neg (by simp), List.append_nil, List.tail_cons]

theorem withoutZeros_zero (f : Bytes) : withoutZeros (f ++ [ebcdic '0']) = withoutZeros f :=
  List.rdropWhile_concat_pos _ _ _ (by simp)

theorem withoutZeros_other {c : UInt8} (h : c ≠ ebcdic '0') (f : Bytes) : withoutZeros (f ++ [c]) = f ++ [c] :=
  List.rdropWhile_concat_neg _ _ _ (by simpa using h)

/-- The loop over the zeros leaves a NUL for each. -/
theorem zerosLoop_eq (w f rest : Bytes) :
    ∃ k, zerosLoop w.length (w.length + f.length) (w ++ ebcdic '.' :: (f ++ rest)) =
      some (w.length + (withoutZeros f).length,
        w ++ ebcdic '.' :: (withoutZeros f ++ (List.replicate k 0 ++ rest))) ∧
      (withoutZeros f).length + k = f.length := by
  induction f using List.reverseRecOn generalizing rest with
  | nil =>
    refine ⟨0, ?_, rfl⟩
    cases w with
    | nil => rfl
    | cons c w =>
      rw [List.length_nil, Nat.add_zero, List.length_cons, zerosLoop, if_neg (by omega)]
      rfl
  | append_singleton f c ih =>
    have hplace : (w ++ ebcdic '.' :: (f ++ [c] ++ rest))[w.length + f.length + 1]? = some c := by
      rw [List.getElem?_append_right (by omega)]
      simp [Nat.add_assoc]
    rw [List.length_append, List.length_singleton, ← Nat.add_assoc, zerosLoop, hplace]
    by_cases hc : c = ebcdic '0'
    · subst hc
      obtain ⟨k, hloop, hk⟩ := ih (0 :: rest)
      refine ⟨k + 1, ?_, ?_⟩
      · have hstore : store (w ++ ebcdic '.' :: (f ++ [ebcdic '0'] ++ rest)) (w.length + f.length + 1) 0 =
            some (w ++ ebcdic '.' :: (f ++ 0 :: rest)) := by
          rw [store, if_pos (by simp; omega), List.set_append_right _ _ (by omega)]
          simp [Nat.add_assoc]
        rw [if_pos ⟨by omega, rfl⟩, hstore, Option.bind_some, hloop, withoutZeros_zero, List.replicate_succ']
        simp
      · rw [withoutZeros_zero]
        omega
    · refine ⟨0, ?_, ?_⟩
      · rw [if_neg fun h => hc (Option.some.inj h.2), withoutZeros_other hc]
        simp [Nat.add_assoc]
      · rw [withoutZeros_other hc]
        simp

theorem length_withoutZeros_le (f : Bytes) : (withoutZeros f).length ≤ f.length :=
  (List.rdropWhile_prefix _ _).length_le

theorem length_mantissa (w frac : Bytes) :
    (mantissa w frac false).length = w.length + if frac = [] then 0 else 1 + frac.length := by
  cases frac with
  | nil => simp [mantissa]
  | cons c frac => simp [mantissa, Nat.add_comm]

/-- A text is the digits before its point, and what is behind it. -/
theorem exists_point {u : Bytes} (h : ebcdic '.' ∈ u) : ∃ w f, u = w ++ ebcdic '.' :: f ∧ ebcdic '.' ∉ w :=
  List.eq_append_cons_of_mem h

theorem length_stripped_le (u : Bytes) : (stripped u).length ≤ u.length := by
  by_cases h : ebcdic '.' ∈ u
  · obtain ⟨w, f, rfl, hw⟩ := exists_point h
    have hle := length_withoutZeros_le f
    rw [stripped_point hw, length_mantissa, List.length_append, List.length_cons]
    split_ifs <;> omega
  · rw [stripped_none h]

theorem dropZeros_holds {s w f : Bytes} (h : Holds s (w ++ ebcdic '.' :: f)) :
    ∃ s', dropZeros s (w ++ ebcdic '.' :: f).length w.length = some s' ∧ s'.length = s.length ∧
      Holds s' (mantissa w (withoutZeros f) false) := by
  obtain ⟨rest, rfl⟩ := h.eq
  obtain ⟨k, hloop, hk⟩ := zerosLoop_eq w f (0 :: rest)
  have hnul : 0 ∉ w ∧ 0 ∉ withoutZeros f := by
    have hboth := h.nul
    simp only [List.mem_append, List.mem_cons, not_or] at hboth
    exact ⟨hboth.1, fun hmem => hboth.2.2 ((List.rdropWhile_prefix _ f).subset hmem)⟩
  have hcount : (w ++ ebcdic '.' :: f).length - 1 = w.length + f.length := by simp
  have hlen : (w ++ ebcdic '.' :: f ++ 0 :: rest).length = w.length + f.length + rest.length + 2 := by
    simp only [List.length_append, List.length_cons]
    omega
  rw [dropZeros, hcount, List.append_assoc, List.cons_append, hloop, Option.bind_eq_bind, Option.bind_some]
  dsimp only
  by_cases hnone : withoutZeros f = []
  · rw [hnone, List.length_nil] at hk
    have hplace : w.length + (withoutZeros f).length = w.length := by rw [hnone]; rfl
    have hstore : store (w ++ ebcdic '.' :: (withoutZeros f ++ (List.replicate k 0 ++ 0 :: rest))) w.length 0 =
        some (w ++ 0 :: (List.replicate k 0 ++ 0 :: rest)) := by
      rw [store, if_pos (by simp), List.set_append_right _ _ le_rfl, Nat.sub_self, List.set_cons_zero, hnone,
        List.nil_append]
    have hsame : mantissa w (withoutZeros f) false = w := by simp [mantissa, hnone]
    rw [hplace, if_pos rfl, hstore, hsame]
    refine ⟨_, rfl, ?_, ⟨_, rfl⟩, hnul.1⟩
    simp only [List.length_append, List.length_cons, List.length_replicate]
    omega
  · have hpos := List.length_pos_iff.mpr hnone
    have hsame : mantissa w (withoutZeros f) false = w ++ ebcdic '.' :: withoutZeros f := by simp [mantissa, hnone]
    rw [if_neg (by omega), hsame]
    refine ⟨_, rfl, ?_, ?_, ?_⟩
    · simp only [List.length_append, List.length_cons, List.length_replicate]
      omega
    · cases k with
      | zero => exact ⟨rest, by simp⟩
      | succ k => exact ⟨List.replicate k 0 ++ 0 :: rest, by simp [List.replicate_succ]⟩
    · rw [List.mem_append, List.mem_cons]
      exact fun hmem => hmem.elim hnul.1 fun hmem => hmem.elim (by decide) hnul.2

theorem gstrip_holds {o : DBLOUT} {u : Bytes} (h : Holds o.result u) :
    ∃ s, gstrip o = some {o with result := s, n := (stripped u).length} ∧ s.length = o.result.length ∧
      Holds s (stripped u) := by
  rw [gstrip, h.strlen, Option.bind_eq_bind, Option.bind_some, h.take]
  by_cases hmem : ebcdic '.' ∈ u
  · obtain ⟨w, f, rfl, hw⟩ := exists_point hmem
    obtain ⟨s, hdrop, hlen, hs⟩ := dropZeros_holds h
    have hplace : (w ++ ebcdic '.' :: f).idxOf (ebcdic '.') = w.length := by
      rw [List.idxOf_append_of_notMem hw, List.idxOf_cons_self, Nat.add_zero]
    refine ⟨s, ?_, hlen, by rwa [stripped_point hw]⟩
    rw [hplace, dropZerosIf, if_pos (by simp), hdrop, Option.bind_eq_bind, Option.bind_some, hs.strlen,
      stripped_point hw]
    rfl
  · have hplace : ¬ u.idxOf (ebcdic '.') < u.length := mt List.idxOf_lt_length_iff.mp hmem
    rw [dropZerosIf, if_neg hplace, Option.bind_eq_bind, Option.bind_some, h.strlen, stripped_none hmem]
    exact ⟨o.result, rfl, rfl, h⟩

/-- What is stripped does not depend on zeros that are cut off. -/
theorem withoutZeros_take {f : Bytes} {m : Nat} (h : (withoutZeros f).length ≤ m) :
    withoutZeros (f.take m) = withoutZeros f := by
  induction f using List.reverseRecOn with
  | nil => rw [List.take_nil]
  | append_singleton f c ih =>
    by_cases hall : (f ++ [c]).length ≤ m
    · rw [List.take_of_length_le hall]
    · rw [List.length_append, List.length_singleton] at hall
      by_cases hc : c = ebcdic '0'
      · subst hc
        rw [withoutZeros_zero] at h ⊢
        rw [List.take_append_of_le_length (by omega), ih h]
      · rw [withoutZeros_other hc, List.length_append, List.length_singleton] at h
        exact absurd h hall

theorem stripped_take {w frac : Bytes} {k : Nat} (hw : ebcdic '.' ∉ w)
    (h : (mantissa w (withoutZeros frac) false).length ≤ k) :
    stripped ((mantissa w frac false).take k) = mantissa w (withoutZeros frac) false := by
  rw [length_mantissa] at h
  by_cases hfrac : frac = []
  · subst hfrac
    have hsame : mantissa w [] false = w := by simp [mantissa]
    rw [hsame, List.take_of_length_le (by simpa [withoutZeros] using h), stripped_none hw]
    exact hsame.symm
  · have hpoint : mantissa w frac false = w ++ ebcdic '.' :: frac := by simp [mantissa, hfrac]
    rw [hpoint, List.take_append]
    have hall : w.take k = w := List.take_of_length_le (by split_ifs at h <;> omega)
    rw [hall]
    cases hk : k - w.length with
    | zero =>
      have hnone : withoutZeros frac = [] := by
        by_contra hne
        rw [if_neg hne] at h
        omega
      rw [List.take_zero, List.append_nil, stripped_none hw, hnone]
      simp [mantissa]
    | succ m =>
      have hm : (withoutZeros frac).length ≤ m := by
        split_ifs at h with hnone
        · simp [hnone]
        · omega
      rw [List.take_succ_cons, stripped_point hw, withoutZeros_take hm]

theorem digit_ne (i : Nat) : digit i ≠ 0 ∧ digit i ≠ ebcdic '.' := by
  have hall : ∀ k : Fin 10, ebcdic '0' + UInt8.ofNat k.val ≠ 0 ∧
      ebcdic '0' + UInt8.ofNat k.val ≠ ebcdic '.' := by decide
  exact hall ⟨i % 10, Nat.mod_lt i (by decide)⟩

/-- A number of two digits, written with two. -/
theorem decimal_two {n : Nat} (h : n < 100) :
    List.replicate (2 - (decimal n).length) (ebcdic '0') ++ decimal n = [digit (n / 10), digit n] := by
  unfold decimal
  by_cases hzero : n = 0
  · subst hzero
    rfl
  rw [if_neg hzero, Nat.digits_def' (by decide) (Nat.pos_of_ne_zero hzero)]
  have hmod : digit (n % 10) = digit n := by rw [digit, Nat.mod_mod, digit]
  by_cases hone : n / 10 = 0
  · rw [hone, Nat.digits_zero]
    simp only [List.reverse_singleton, List.map_singleton, hmod]
    rfl
  · rw [Nat.digits_def' (by decide) (Nat.pos_of_ne_zero hone), Nat.div_eq_of_lt (show n / 10 < 10 by omega),
      Nat.mod_eq_of_lt (show n / 10 < 10 by omega), Nat.digits_zero]
    simp only [List.reverse_cons, List.reverse_nil, List.nil_append, List.cons_append, List.map_cons, List.map_nil,
      hmod]
    rfl

/-- The exponent as the code has it. -/
theorem exponentText_eq (letter : UInt8) {x : Int} (h : x.natAbs < 100) :
    exponentText letter x =
      [letter, if x < 0 then ebcdic '-' else ebcdic '+', digit (x.natAbs / 10), digit x.natAbs] := by
  rw [exponentText, decimal_two h]

def letter (cnvtype : Conversion) : UInt8 := if cnvtype = .e ∨ cnvtype = .g then ebcdic 'e' else ebcdic 'E'

theorem exponentText_nul (cnvtype : Conversion) {x : Int} (h : x.natAbs < 100) :
    0 ∉ exponentText (letter cnvtype) x := by
  have hletter : letter cnvtype ≠ 0 := by cases cnvtype <;> decide
  have hsign : (if x < 0 then ebcdic '-' else ebcdic '+') ≠ 0 := by split_ifs <;> decide
  rw [exponentText_eq _ h]
  intro hmem
  simp only [List.mem_cons, List.not_mem_nil, or_false] at hmem
  rcases hmem with heq | heq | heq | heq
  · exact hletter heq.symm
  · exact hsign heq.symm
  · exact (digit_ne _).1 heq.symm
  · exact (digit_ne _).1 heq.symm

theorem expo_holds {o : DBLOUT} {u : Bytes} {exp : Int} (h : Holds o.result u) (hn : o.n = u.length)
    (hlim : o.lim + 1 = o.result.length) (hu : u.length ≤ o.lim) (hexp : exp.natAbs < 100) (cnvtype : Conversion) :
    ∃ s, expo o exp cnvtype =
        some ⟨s, ((u ++ exponentText (letter cnvtype) exp).take o.lim).length, o.lim, o.lim⟩ ∧
      s.length = o.result.length ∧ Holds s ((u ++ exponentText (letter cnvtype) exp).take o.lim) := by
  have hroom : Room o.result o.lim o.lim := ⟨le_rfl, by omega⟩
  have hwritten : {o with dlim := o.lim} = written o.result o.lim o.lim u := by
    have hsame : u ++ o.result.drop u.length = o.result := by
      conv_rhs => rw [← List.take_append_drop u.length o.result, h.take]
    rw [written, List.take_of_length_le hu, hsame, ← hn]
  have hnul : 0 ∉ u ++ exponentText (letter cnvtype) exp := fun hmem =>
    (List.mem_append.mp hmem).elim h.nul (exponentText_nul cnvtype hexp)
  obtain ⟨s, hstore, hlen, hs⟩ := written_holds hroom hnul
  refine ⟨s, ?_, hlen, hs⟩
  rw [expo, hwritten, put_written hroom, Option.bind_eq_bind, Option.bind_some, put_written hroom, Option.bind_some,
    put_written hroom, Option.bind_some, put_written hroom, Option.bind_some]
  simp only [List.append_assoc, List.cons_append, List.nil_append]
  rw [exponentText_eq _ hexp] at hstore ⊢
  unfold letter at *
  rw [hstore]
  rfl

theorem blankLoop_eq (a b : Bytes) : blankLoop a.length (a ++ b) =
    some (List.replicate a.length (ebcdic ' ') ++ b) := by
  induction a using List.reverseRecOn generalizing b with
  | nil => rfl
  | append_singleton a c ih =>
    have hstore : store (a ++ [c] ++ b) a.length (ebcdic ' ') = some (a ++ ebcdic ' ' :: b) := by
      rw [store, if_pos (by simp), List.append_assoc, List.set_append_right _ _ le_rfl, Nat.sub_self]
      rfl
    rw [List.length_append, List.length_singleton, blankLoop, hstore, Option.bind_some, ih, List.replicate_succ']
    simp

theorem padleft_holds {o : DBLOUT} {u : Bytes} (h : Holds o.result u) (hn : o.n = u.length)
    (hlim : o.lim + 1 = o.result.length) (nwidth : Nat) :
    ∃ s, padleft o nwidth = some s ∧ s.length = o.result.length ∧
      Holds s (List.replicate (min nwidth o.lim - u.length) (ebcdic ' ') ++ u) := by
  have hlt := h.length_lt
  unfold padleft
  by_cases hwidth : o.n < nwidth
  · have hpad : (if o.lim - o.n < nwidth - o.n then o.lim - o.n else nwidth - o.n) = min nwidth o.lim - u.length := by
      split_ifs <;> omega
    rw [if_pos hwidth]
    dsimp only
    rw [hpad, hn]
    generalize hk : min nwidth o.lim - u.length = k
    have hroom : k + (u.length + 1) ≤ o.result.length := by omega
    have hfront : (o.result.take k).length = k := List.length_take_of_le (by omega)
    have htake : o.result.take (u.length + 1) = u ++ [0] := by
      obtain ⟨rest, hrest⟩ := h.eq
      rw [hrest, List.take_length_add_append]
      rfl
    have hmove : memmove o.result k (u.length + 1) =
        some (o.result.take k ++ (u ++ 0 :: o.result.drop (k + (u.length + 1)))) := by
      rw [memmove, if_pos hroom, htake, Bytes.patch]
      simp
    have hblank := blankLoop_eq (o.result.take k) (u ++ 0 :: o.result.drop (k + (u.length + 1)))
    rw [hfront] at hblank
    refine ⟨_, by rw [hmove, Option.bind_some, hblank], ?_, ⟨_, (List.append_assoc _ _ _).symm⟩, ?_⟩
    · simp only [List.length_append, List.length_replicate, List.length_cons, List.length_drop]
      omega
    · rw [List.mem_append, List.mem_replicate]
      exact fun hmem => hmem.elim (fun hblank => absurd hblank.2 (by decide)) h.nul
  · have hnone : min nwidth o.lim - u.length = 0 := by omega
    rw [if_neg hwidth, hnone]
    exact ⟨o.result, rfl, rfl, h⟩

/-- The exponent that a format has. -/
def exponentOf (format : Format) (exp : Int) (cnvtype : Conversion) : Bytes :=
  if format = .exponent then exponentText (letter cnvtype) exp else []

/-- Everything behind the digits: the zeros of `%g`, the exponent and the blanks. -/
theorem finish_holds {r : Bytes} {lim dlim : Nat} (hdlim : dlim ≤ lim) (hlim : lim + 1 = r.length) {t : Bytes}
    (ht : 0 ∉ t)
    (format : Format) {exp : Int} (hexp : exp.natAbs < 100) (cnvtype : Conversion) (nwidth : Nat) (alt : Bool)
    {u v : Bytes}
    (hu : u = if cnvtype.isG && !alt then stripped (t.take dlim) else t.take dlim)
    (hv : v = (u ++ exponentOf format exp cnvtype).take lim) :
    ∃ s, finish (written r lim dlim t) format exp cnvtype nwidth alt = some s ∧ s.length = r.length ∧
      Holds s (List.replicate (min nwidth lim - v.length) (ebcdic ' ') ++ v) := by
  have hroom : Room r lim dlim := ⟨hdlim, by omega⟩
  obtain ⟨s, hstore, hlen, hs⟩ := written_holds hroom ht
  have hstrip : ∃ s', gstripIf (cnvtype.isG && !alt) {written r lim dlim t with result := s} =
      some ⟨s', u.length, lim, dlim⟩ ∧ s'.length = r.length ∧ Holds s' u := by
    by_cases hg : (cnvtype.isG && !alt) = true
    · rw [if_pos hg] at hu
      obtain ⟨s', hgstrip, hlen', hs'⟩ := @gstrip_holds {written r lim dlim t with result := s} _ hs
      rw [← hu] at hgstrip hs'
      exact ⟨s', by rw [gstripIf, if_pos hg, hgstrip]; rfl, hlen'.trans hlen, hs'⟩
    · rw [if_neg hg] at hu
      rw [← hu] at hs
      exact ⟨s, by rw [gstripIf, if_neg hg, hu]; rfl, hlen, hs⟩
  obtain ⟨s', hgstrip, hlen', hs'⟩ := hstrip
  have hul : u.length ≤ lim := by
    have htake : (t.take dlim).length ≤ lim := by
      rw [List.length_take]
      omega
    rw [hu]
    split_ifs
    · exact (length_stripped_le _).trans htake
    · exact htake
  have hexpo : ∃ s d,
      expoIf (format = .exponent) ⟨s', u.length, lim, dlim⟩ exp cnvtype = some ⟨s, v.length, lim, d⟩ ∧
      s.length = r.length ∧ Holds s v := by
    by_cases hformat : format = .exponent
    · rw [exponentOf, if_pos hformat] at hv
      obtain ⟨s, hexpo, hlen, hs⟩ := @expo_holds ⟨s', u.length, lim,
          dlim⟩ u exp hs' rfl (by dsimp only; omega) hul hexp cnvtype
      rw [hv]
      exact ⟨s, lim, by rw [expoIf, if_pos (decide_eq_true hformat), hexpo], hlen.trans hlen', hs⟩
    · rw [exponentOf, if_neg hformat, List.append_nil, List.take_of_length_le hul] at hv
      rw [hv]
      exact ⟨s', dlim, by rw [expoIf, if_neg (by simpa using hformat)], hlen', hs'⟩
  obtain ⟨s, d, hexpo, hlen, hs⟩ := hexpo
  obtain ⟨s', hpad, hlen', hs'⟩ := @padleft_holds ⟨s, v.length, lim, d⟩ v hs rfl (by dsimp only; omega) nwidth
  refine ⟨s', ?_, hlen'.trans hlen, hs'⟩
  rw [finish, hstore]
  simp only [Option.bind_eq_bind, Option.bind_some]
  rw [hgstrip, Option.bind_some, hexpo, Option.bind_some, hpad]

/-! ### A call -/

section Call

variable {F : Type} (A : Arithmetic F)

/-- What is put for a value, behind its sign. -/
def layoutText (format : Format) (b : F) (exp nprecision : Int) (alt : Bool) : Bytes :=
  match format with
  | .below => belowText A b exp (wrap (nprecision + exp)).toNat
  | .above => aboveText A b exp nprecision alt (wrap (nprecision + exp))
  | .exponent => mantText A b nprecision alt

theorem layout_written {r : Bytes} {lim dlim : Nat} (hroom : Room r lim dlim) (t : Bytes) {format : Format} (b : F)
    {exp : Int} (hbelow : format = .below → exp < 0) (nprecision : Int) (alt : Bool) :
    layout A format (written r lim dlim t) b exp nprecision alt =
      some (written r lim dlim (t ++ layoutText A format b exp nprecision alt)) := by
  cases format with
  | below => exact fbelow1_written hroom A t b (hbelow rfl) nprecision
  | above => exact fabove1_written hroom A t b exp nprecision alt
  | exponent => exact emant_written hroom A t b nprecision alt

theorem figures_nul {b : F} {l : List Nat} : 0 ∉ l.map (figures A b) := fun hmem => by
  obtain ⟨i, -, hi⟩ := List.mem_map.mp hmem
  exact (digit_ne _).1 hi

theorem point_nul {c : Prop} [Decidable c] : (0 : UInt8) ∉ if c then [ebcdic '.'] else [] := by
  split_ifs <;> decide

theorem layoutText_nul (format : Format) (b : F) (exp nprecision : Int) (alt : Bool) :
    0 ∉ layoutText A format b exp nprecision alt := by
  have hfirst : 0 ∉ [figures A b 0] := fun hmem => (digit_ne _).1 (List.mem_singleton.mp hmem).symm
  cases format with
  | below =>
    rw [layoutText, belowText, List.mem_append, List.mem_append, List.mem_replicate, not_or, not_or]
    exact ⟨by decide, fun h => absurd h.2 (by decide), figures_nul A⟩
  | above =>
    have hpointed : ∀ l : List Nat, 0 ∉ l.flatMap (pointed A exp b) := by
      intro l hmem
      obtain ⟨i, -, hi⟩ := List.mem_flatMap.mp hmem
      exact (List.mem_append.mp hi).elim point_nul fun hd => (digit_ne _).1 (List.mem_singleton.mp hd).symm
    rw [layoutText, aboveText, List.mem_append, List.mem_append, List.mem_append, not_or, not_or, not_or]
    exact ⟨hfirst, point_nul, hpointed _, point_nul⟩
  | exponent =>
    rw [layoutText, mantText, List.mem_append, List.mem_append, not_or, not_or]
    exact ⟨hfirst, point_nul, figures_nul A⟩

/-- What rounding does to the exponent. -/
inductive Rounded (exp j : Int) : F × Int × Bool → Prop
  | kept (b : F) (hj : 0 ≤ j) : Rounded exp j (b, exp, false)
  | carried (b : F) (hj : -1 ≤ j) : Rounded exp j (b, exp + 1, false)
  | gone (b : F) (hj : j < 0) : Rounded exp j (b, 0, true)

theorem roundAt_rounded (b : F) (exp j : Int) : Rounded exp j (roundAt A b exp j) := by
  have hmin : ∀ k : Int, (if DBLCVT_MAXRND < j then DBLCVT_MAXRND else j) = k →
      (0 ≤ k ↔ 0 ≤ j) ∧ (k < 0 → k = j) := by
    intro k hk
    unfold DBLCVT_MAXRND at hk
    split_ifs at hk <;> omega
  unfold roundAt
  dsimp only
  generalize (if DBLCVT_MAXRND < j then DBLCVT_MAXRND else j) = k at hmin
  obtain ⟨hnonneg, hneg⟩ := hmin k rfl
  split_ifs with h0 hzero hten hone
  · exact .kept _ (hnonneg.mp h0)
  · exact .carried _ (by have := hnonneg.mp h0; omega)
  · exact .kept _ (hnonneg.mp h0)
  · have hk := hneg (by omega)
    exact .carried _ (by omega)
  · exact .gone _ (by have := hneg (by omega); omega)

/-- The format with which a value is printed without an exponent. -/
def fixedFormat (x : Int) : Format := if 0 ≤ x then .above else .below

/-- The format behind the rounding is that of the exponent there. -/
theorem format_settled {exp j : Int} {v : F × Int × Bool} (h : Rounded exp j v) :
    (if (if v.2.2 then Format.above else fixedFormat exp) = .below ∧ 0 ≤ v.2.1 then Format.above
      else if v.2.2 then Format.above else fixedFormat exp) = fixedFormat v.2.1 := by
  unfold fixedFormat
  cases h with
  | kept b hj => by_cases hx : 0 ≤ exp <;> simp [hx]
  | carried b hj =>
    by_cases hx : 0 ≤ exp
    · have hx' : 0 ≤ exp + 1 := by omega
      simp [hx, hx']
    · by_cases hx' : 0 ≤ exp + 1 <;> simp [hx, hx']
  | gone b hj => simp

/-- `n` digits behind the point, where no sum passes the range of an `int`. -/
theorem fixed_layout (num : F) {n : Nat} {nprecision : Int} (hprec : ∀ i, wrap (nprecision + i) = wrap (n + i))
    (hzero : nprecision = 0 ↔ n = 0) {v : F × Int × Bool}
    (hv : v = roundAt A (scaled A num).1 (scaled A num).2 ((scaled A num).2 + n))
    (hsum : wrap (n + v.2.1) = n + v.2.1) (alt : Bool) :
    layoutText A (fixedFormat v.2.1) v.1 v.2.1 nprecision alt =
      mantissa (fixed A num n).whole (fixed A num n).frac alt := by
  have hfixed : fixed A num n = ⟨whole (figures A v.1) v.2.1, decimals (figures A v.1) v.2.1 n, []⟩ := by
    rw [hv]
    rfl
  rw [hfixed]
  by_cases hx : 0 ≤ v.2.1
  · rw [fixedFormat, if_pos hx, layoutText, hprec, hsum]
    exact aboveText_eq A v.1 hx hzero alt
  · have hrounded := roundAt_rounded A (scaled A num).1 (scaled A num).2 ((scaled A num).2 + n)
    rw [← hv] at hrounded
    have hleft : 0 ≤ n + v.2.1 := by
      cases hrounded <;> dsimp only at hx ⊢ <;> omega
    rw [fixedFormat, if_neg hx, layoutText, hprec, hsum]
    exact belowText_eq A v.1 (by omega) hleft alt

/-- The room of the digits. -/
def digitRoom (format : Format) (lim : Nat) : Nat := if format =
    .exponent then (if 4 < lim then lim - 4 else 0) else lim

theorem digitRoom_le (format : Format) (lim : Nat) : digitRoom format lim ≤ lim := by
  unfold digitRoom
  split_ifs <;> omega

theorem exponentOf_length (format : Format) {exp : Int} (hexp : exp.natAbs < 100) (cnvtype : Conversion) :
    (exponentOf format exp cnvtype).length = if format = .exponent then 4 else 0 := by
  unfold exponentOf
  split_ifs
  · rw [exponentText_eq _ hexp]
    rfl
  · rfl

theorem sign_nul (num : F) : 0 ∉ sign A num ∧ ebcdic '.' ∉ sign A num := by
  unfold sign
  split_ifs <;> decide

/-- The sign, the digits and what is behind them, when the text is the one of the conversion. -/
theorem laid_out {num : F} {cnvtype : Conversion} {nwidth n : Nat} {alt : Bool} {result : Bytes} {lim : Nat}
    (hlen : lim + 1 = result.length) {format : Format} {b : F} {exp nprecision : Int}
    (hbelow : format = .below → exp < 0) (hexp : exp.natAbs < 100)
    (hexponent : (formatted A num cnvtype n alt).exponent = exponentOf format exp cnvtype)
    (hwhole : (full A num cnvtype n alt).length ≤ lim → ∃ frac,
      layoutText A format b exp nprecision alt = mantissa (formatted A num cnvtype n alt).whole frac alt ∧
      (formatted A num cnvtype n alt).frac = (if cnvtype.isG && !alt then withoutZeros frac else frac) ∧
      ebcdic '.' ∉ (formatted A num cnvtype n alt).whole) :
    ∃ after, ((putIf (A.isNegative num) ⟨result, 0, lim, digitRoom format lim⟩ (ebcdic '-')).bind fun o =>
        (layout A format o b exp nprecision alt).bind fun o => finish o format exp cnvtype nwidth alt) = some after ∧
      Delivers A num cnvtype nwidth n alt result after := by
  have hroom : Room result lim (digitRoom format lim) := ⟨digitRoom_le format lim, by omega⟩
  have hempty : (⟨result, 0, lim, digitRoom format lim⟩ : DBLOUT) =
      written result lim (digitRoom format lim) [] := by
    simp [written]
  have hnul : 0 ∉ sign A num ++ layoutText A format b exp nprecision alt := fun hmem =>
    (List.mem_append.mp hmem).elim (sign_nul A num).1 (layoutText_nul A format b exp nprecision alt)
  have hlength := exponentOf_length format hexp cnvtype
  obtain ⟨after, hfinish, hafter, hs⟩ :=
      finish_holds (digitRoom_le format lim) hlen hnul format hexp cnvtype nwidth alt rfl rfl
  generalize hu : (if (cnvtype.isG && !alt) = true then
    stripped ((sign A num ++ layoutText A format b exp nprecision alt).take (digitRoom format lim))
    else (sign A num ++ layoutText A format b exp nprecision alt).take (digitRoom format lim)) = u at hs
  refine ⟨after, ?_, hafter, fun _ => hs.mem, fun _ => ?_, fun hfits => ?_⟩
  · have hsign : [] ++ (if A.isNegative num = true then [ebcdic '-'] else []) = sign A num := rfl
    rw [hempty, putIf_written hroom, Option.bind_some, hsign, layout_written A hroom _ b hbelow, Option.bind_some,
      hfinish]
  · rw [hs.takeWhile, hexponent, ← hlen, Nat.add_sub_cancel]
    refine List.IsSuffix.trans ?_ (List.suffix_append _ _)
    have hul : u.length ≤ digitRoom format lim := by
      have htake : ((sign A num ++ layoutText A format b exp nprecision alt).take (digitRoom format lim)).length ≤
          digitRoom format lim := by
        rw [List.length_take]
        exact min_le_left _ _
      rw [← hu]
      split_ifs
      · exact (length_stripped_le _).trans htake
      · exact htake
    unfold digitRoom at hul
    by_cases hformat : format = .exponent
    · rw [if_pos hformat] at hul hlength
      by_cases hlim : 4 < lim
      · rw [if_pos hlim] at hul
        have hfit : (u ++ exponentOf format exp cnvtype).length ≤ lim := by
          rw [List.length_append]
          omega
        rw [List.take_of_length_le hfit, List.take_of_length_le (by omega)]
        exact List.suffix_append _ _
      · rw [if_neg hlim] at hul
        have hnone : u = [] := List.length_eq_zero_iff.mp (by omega)
        rw [hnone, List.nil_append]
    · rw [if_neg hformat] at hlength
      rw [List.length_eq_zero_iff.mp hlength, List.take_nil]
      exact List.nil_suffix
  · have hle : (full A num cnvtype n alt).length ≤ lim := by omega
    obtain ⟨frac, htext, hfrac, hpoint⟩ := hwhole hle
    have hdigits : (sign A num ++ mantissa (formatted A num cnvtype n alt).whole
        (formatted A num cnvtype n alt).frac alt).length ≤
        digitRoom format lim := by
      have hsum := hle
      rw [full] at hsum
      rw [hexponent, ← List.append_assoc, List.length_append, hlength] at hsum
      unfold digitRoom
      split_ifs at hsum ⊢ <;> omega
    have huv : u = sign A num ++ mantissa (formatted A num cnvtype n alt).whole
        (formatted A num cnvtype n alt).frac alt := by
      rw [← hu, htext, hfrac]
      rw [hfrac] at hdigits
      by_cases hg : (cnvtype.isG && !alt) = true
      · obtain rfl : alt = false := by
          have := (Bool.and_eq_true_iff.mp hg).2
          simpa using this
        have hfront : ∀ f, sign A num ++ mantissa (formatted A num cnvtype n false).whole f false =
            mantissa (sign A num ++ (formatted A num cnvtype n false).whole) f false := fun f =>
          (List.append_assoc _ _ _).symm
        rw [if_pos hg] at hdigits ⊢
        rw [if_pos hg, hfront, hfront] at *
        refine stripped_take (fun hmem => ?_) hdigits
        exact (List.mem_append.mp hmem).elim (sign_nul A num).2 hpoint
      · rw [if_neg hg] at hdigits ⊢
        rw [if_neg hg, List.take_of_length_le hdigits]
    have hv : (u ++ exponentOf format exp cnvtype).take lim = full A num cnvtype n alt := by
      rw [huv, ← hexponent, List.append_assoc]
      exact List.take_of_length_le hle
    rw [hs.takeWhile, hv, ← hlen, Nat.add_sub_cancel]

theorem whole_point (b : F) (x : Int) : ebcdic '.' ∉ whole (figures A b) x := by
  intro hmem
  obtain ⟨i, -, hi⟩ := List.mem_map.mp hmem
  unfold place at hi
  split_ifs at hi
  · exact (digit_ne _).2 hi
  · exact absurd hi (by decide)

/-- The exponent stays within two digits. -/
theorem rounded_range (num : F) {j : Int} {v : F × Int × Bool} (h : Rounded (scaled A num).2 j v) :
    v.2.1.natAbs < 100 := by
  have hrange : -79 ≤ (scaled A num).2 ∧ (scaled A num).2 ≤ 79 := A.scale_range _
  cases h <;> dsimp only <;> omega

/-- A call that prints without an exponent. -/
theorem fixed_delivers {num : F} {cnvtype : Conversion} {nwidth n m : Nat} {alt : Bool} {result : Bytes} {lim : Nat}
    (hlen : lim + 1 = result.length) {nprecision : Int} (hprec : ∀ i, wrap (nprecision + i) = wrap (m + i))
    (hzero : nprecision = 0 ↔ m = 0)
    (hformatted : formatted A num cnvtype n alt =
      if cnvtype.isG && !alt then {fixed A num m with frac := withoutZeros (fixed A num m).frac} else fixed A num m)
    (hrange : (full A num cnvtype n alt).length ≤ lim → (scaled A num).2 + m < 2 ^ 31 ∧
      m + (roundAt A (scaled A num).1 (scaled A num).2 ((scaled A num).2 + m)).2.1 < 2 ^ 31) :
    let v := roundAt A (scaled A num).1 (scaled A num).2 (wrap ((scaled A num).2 + nprecision))
    ∃ after,
      ((putIf (A.isNegative num) ⟨result, 0, lim, digitRoom (fixedFormat v.2.1) lim⟩ (ebcdic '-')).bind fun o =>
        (layout A (fixedFormat v.2.1) o v.1 v.2.1 nprecision alt).bind fun o =>
          finish o (fixedFormat v.2.1) v.2.1 cnvtype nwidth alt) = some after ∧
      Delivers A num cnvtype nwidth n alt result after := by
  intro v
  have hscale : -79 ≤ (scaled A num).2 ∧ (scaled A num).2 ≤ 79 := A.scale_range _
  have hne : fixedFormat v.2.1 ≠ .exponent := by
    unfold fixedFormat
    split_ifs <;> decide
  have hparts : (formatted A num cnvtype n alt).whole = (fixed A num m).whole ∧
      (formatted A num cnvtype n alt).exponent = [] ∧
      (formatted A num cnvtype n alt).frac =
        if cnvtype.isG && !alt then withoutZeros (fixed A num m).frac else (fixed A num m).frac := by
    rw [hformatted]
    split_ifs <;> exact ⟨rfl, rfl, rfl⟩
  refine laid_out A hlen (fun h => ?_) (rounded_range A num (roundAt_rounded A _ _ _)) ?_ fun hfits => ?_
  · unfold fixedFormat at h
    split_ifs at h with hx
    omega
  · rw [hparts.2.1, exponentOf, if_neg hne]
  · obtain ⟨hj, hsum⟩ := hrange hfits
    have hv : v = roundAt A (scaled A num).1 (scaled A num).2 ((scaled A num).2 + m) := by
      have hwrap : wrap ((scaled A num).2 + nprecision) = (scaled A num).2 + m := by
        rw [add_comm, hprec, wrap_eq (by omega) (by omega), add_comm]
      rw [← hwrap]
    have hlow := rounded_range A num (roundAt_rounded A (scaled A num).1 (scaled A num).2 ((scaled A num).2 + m))
    rw [← hv] at hsum hlow
    refine ⟨(fixed A num m).frac, ?_, hparts.2.2, ?_⟩
    · rw [hparts.1]
      exact fixed_layout A num hprec hzero hv (wrap_eq (by omega) (by omega)) alt
    · rw [hparts.1]
      exact whole_point A _ _

/-- A call that prints an exponent. -/
theorem scientific_delivers {num : F} {cnvtype : Conversion} {nwidth n m : Nat} {alt : Bool} {result : Bytes}
    {lim : Nat}
    (hlen : lim + 1 = result.length) {c : Char} (hletter : letter cnvtype = ebcdic c)
    (hformatted : formatted A num cnvtype n alt =
      if cnvtype.isG && !alt then {scientific A c num m with frac := withoutZeros (scientific A c num m).frac}
      else scientific A c num m) :
    let v := roundAt A (scaled A num).1 (scaled A num).2 m
    ∃ after, ((putIf (A.isNegative num) ⟨result, 0, lim, digitRoom .exponent lim⟩ (ebcdic '-')).bind fun o =>
        (layout A .exponent o v.1 v.2.1 m alt).bind fun o =>
          finish o .exponent v.2.1 cnvtype nwidth alt) = some after ∧
      Delivers A num cnvtype nwidth n alt result after := by
  intro v
  have hparts : (formatted A num cnvtype n alt).whole = (scientific A c num m).whole ∧
      (formatted A num cnvtype n alt).exponent = exponentText (ebcdic c) v.2.1 ∧
      (formatted A num cnvtype n alt).frac =
        if cnvtype.isG && !alt then withoutZeros (scientific A c num m).frac else (scientific A c num m).frac := by
    rw [hformatted]
    split_ifs <;> exact ⟨rfl, rfl, rfl⟩
  refine laid_out A hlen nofun (rounded_range A num (roundAt_rounded A _ _ _)) ?_ fun _ => ?_
  · rw [hparts.2.1, exponentOf, if_pos rfl, hletter]
  · refine ⟨(scientific A c num m).frac, ?_, hparts.2.2, ?_⟩
    · rw [hparts.1]
      exact mantText_eq A v.1 m alt
    · rw [hparts.1]
      exact fun hmem => (digit_ne _).2 (List.mem_singleton.mp hmem).symm

/-- The style and the precision in it. -/
def styled (num : F) (cnvtype : Conversion) (nprecision : Int) : Style × Int :=
  if cnvtype.isG then gstyle A (scaled A num).1 (scaled A num).2 nprecision
  else (if cnvtype = .e ∨ cnvtype = .E then .e else .f, nprecision)

theorem dblcvx_eq (num : F) (cnvtype : Conversion) (nwidth : Nat) (nprecision : Int) (alt : Bool) {result : Bytes}
    (hne : result.length ≠ 0) :
    dblcvx A num cnvtype nwidth nprecision alt result =
      let s := styled A num cnvtype nprecision
      let format := if s.1 = .e then Format.exponent else fixedFormat (scaled A num).2
      let v := roundAt A (scaled A num).1 (scaled A num).2
        (if format = .exponent then s.2 else wrap ((scaled A num).2 + s.2))
      let format := if v.2.2 then .above else format
      let format := if format = .below ∧ 0 ≤ v.2.1 then .above else format
      (putIf (A.isNegative num) ⟨result, 0, result.length - 1, digitRoom format (result.length - 1)⟩
        (ebcdic '-')).bind fun o => (layout A format o v.1 v.2.1 s.2 alt).bind fun o =>
          finish o format v.2.1 cnvtype nwidth alt :=
  if_neg hne

theorem dblcvx_fixed {num : F} {cnvtype : Conversion} {nprecision nprecision' : Int} (nwidth : Nat) (alt : Bool)
    {result : Bytes} (hne : result.length ≠ 0) (hstyle : styled A num cnvtype nprecision = (.f, nprecision')) :
    dblcvx A num cnvtype nwidth nprecision alt result =
      let v := roundAt A (scaled A num).1 (scaled A num).2 (wrap ((scaled A num).2 + nprecision'))
      (putIf (A.isNegative num) ⟨result, 0, result.length - 1, digitRoom (fixedFormat v.2.1) (result.length - 1)⟩
        (ebcdic '-')).bind fun o => (layout A (fixedFormat v.2.1) o v.1 v.2.1 nprecision' alt).bind fun o =>
          finish o (fixedFormat v.2.1) v.2.1 cnvtype nwidth alt := by
  have hne' : fixedFormat (scaled A num).2 ≠ .exponent := by
    unfold fixedFormat
    split_ifs <;> decide
  have hsettled := format_settled (roundAt_rounded A (scaled A num).1 (scaled A num).2
    (wrap ((scaled A num).2 + nprecision')))
  rw [dblcvx_eq A num cnvtype nwidth nprecision alt hne, hstyle]
  simp only [reduceCtorEq, if_false, if_neg hne']
  rw [hsettled]

theorem dblcvx_scientific {num : F} {cnvtype : Conversion} {nprecision : Int} {m : Nat} (nwidth : Nat) (alt : Bool)
    {result : Bytes} (hne : result.length ≠ 0) (hstyle : styled A num cnvtype nprecision = (.e, (m : Int))) :
    dblcvx A num cnvtype nwidth nprecision alt result =
      let v := roundAt A (scaled A num).1 (scaled A num).2 m
      (putIf (A.isNegative num) ⟨result, 0, result.length - 1, digitRoom .exponent (result.length - 1)⟩
        (ebcdic '-')).bind fun o => (layout A .exponent o v.1 v.2.1 m alt).bind fun o =>
          finish o .exponent v.2.1 cnvtype nwidth alt := by
  have hkept : (roundAt A (scaled A num).1 (scaled A num).2 m).2.2 = false := by
    have hrounded := roundAt_rounded A (scaled A num).1 (scaled A num).2 m
    generalize roundAt A (scaled A num).1 (scaled A num).2 m = v at hrounded
    cases hrounded with
    | kept b hj => rfl
    | carried b hj => rfl
    | gone b hj => omega
  rw [dblcvx_eq A num cnvtype nwidth nprecision alt hne, hstyle]
  simp only [if_true, hkept, Bool.false_eq_true, if_false, reduceCtorEq, false_and]

theorem generalExponent_range (num : F) (p : Nat) :
    generalExponent A num p = (scaled A num).2 ∨ generalExponent A num p = (scaled A num).2 + 1 := by
  have hrounded := roundAt_rounded A (scaled A num).1 (scaled A num).2 (p - 1 : Nat)
  unfold generalExponent rounded
  generalize roundAt A (scaled A num).1 (scaled A num).2 (p - 1 : Nat) = v at hrounded
  cases hrounded with
  | kept b hj => exact .inl rfl
  | carried b hj => exact .inr rfl
  | gone b hj => omega

/-- `gstyle()` decides on the exponent that the exponent form has. -/
theorem gstyle_eq (num : F) {n p : Nat} (hp : p = if n = 0 then 1 else n) :
    gstyle A (scaled A num).1 (scaled A num).2 n =
      if generalExponent A num p < p ∧ -4 ≤ generalExponent A num p then
        (.f, wrap (p - 1 - generalExponent A num p))
      else (.e, ((p - 1 : Nat) : Int)) := by
  have hpos : 0 < p := by split_ifs at hp <;> omega
  have hcode : (if (0 : Int) < n then (n : Int) else 1) = p := by split_ifs at hp ⊢ <;> omega
  have hplace : min ((p : Int) - 1) DBLCVT_MAXRND =
      if DBLCVT_MAXRND < ((p - 1 : Nat) : Int) then DBLCVT_MAXRND else ((p - 1 : Nat) : Int) := by
    split_ifs <;> omega
  have hexponent : generalExponent A num p =
      if (!A.isZero (scaled A num).1 && A.ge10 (A.add (scaled A num).1
        (halfUnit A (min ((p : Int) - 1) DBLCVT_MAXRND)))) = true then (scaled A num).2 + 1 else (scaled A num).2 := by
    have hnonneg : 0 ≤ if DBLCVT_MAXRND < ((p - 1 : Nat) : Int) then DBLCVT_MAXRND else ((p - 1 : Nat) : Int) := by
      unfold DBLCVT_MAXRND
      split_ifs <;> omega
    unfold generalExponent rounded roundAt
    dsimp only
    rw [if_pos hnonneg, hplace]
    cases A.isZero (scaled A num).1 with
    | true => rfl
    | false =>
      simp only [Bool.false_eq_true, if_false, Bool.not_false, Bool.true_and]
      split_ifs <;> rfl
  unfold gstyle
  dsimp only
  rw [hcode, ← hexponent]
  have hlast : (p : Int) - 1 = ((p - 1 : Nat) : Int) := by omega
  split_ifs
  · rfl
  · rw [hlast]

theorem general_eq (c : Char) (num : F) {n p : Nat} (hp : p = if n = 0 then 1 else n) (alt : Bool) :
    general A c num n alt =
      if generalExponent A num p < p ∧ -4 ≤ generalExponent A num p then
        if alt then fixed A num (p - 1 - generalExponent A num p).toNat
        else {fixed A num (p - 1 - generalExponent A num p).toNat with
          frac := withoutZeros (fixed A num (p - 1 - generalExponent A num p).toNat).frac}
      else if alt then scientific A c num (p - 1)
      else {scientific A c num (p - 1) with frac := withoutZeros (scientific A c num (p - 1)).frac} := by
  unfold general significant
  rw [← hp]
  split_ifs <;> rfl

/-- `%g` and `%G`. -/
theorem general_delivers {num : F} {cnvtype : Conversion} {nwidth n : Nat} {alt : Bool} {result : Bytes}
    (hne : result.length ≠ 0) (hn : n < 2 ^ 31) (hg : cnvtype.isG = true) {c : Char}
    (hletter : letter cnvtype = ebcdic c)
    (hformatted : formatted A num cnvtype n alt = general A c num n alt) :
    ∃ after, dblcvx A num cnvtype nwidth n alt result = some after ∧
      Delivers A num cnvtype nwidth n alt result after := by
  have hlen : result.length - 1 + 1 = result.length := by omega
  generalize hp : (if n = 0 then 1 else n) = p
  have hpos : 0 < p ∧ p < 2 ^ 31 := by split_ifs at hp <;> omega
  have hstyle : styled A num cnvtype n = _ := if_pos hg
  rw [gstyle_eq A num hp.symm] at hstyle
  rw [general_eq A c num hp.symm alt] at hformatted
  have hrange := generalExponent_range A num p
  have hscale : -79 ≤ (scaled A num).2 ∧ (scaled A num).2 ≤ 79 := A.scale_range _
  by_cases hfixed : generalExponent A num p < p ∧ -4 ≤ generalExponent A num p
  · rw [if_pos hfixed] at hstyle hformatted
    obtain ⟨m, hm⟩ : ∃ m : Nat, (p : Int) - 1 - generalExponent A num p = m :=
        ⟨_, (Int.toNat_of_nonneg (by omega)).symm⟩
    rw [hm] at hstyle hformatted
    rw [dblcvx_fixed A nwidth alt hne hstyle]
    refine fixed_delivers A hlen (fun i => wrap_add m i) ?_ ?_ fun _ => ⟨by omega, ?_⟩
    · unfold wrap Int.bmod
      dsimp only
      split_ifs <;> omega
    · rw [hformatted, hg, Int.toNat_natCast]
      cases alt <;> rfl
    · have hrounded := roundAt_rounded A (scaled A num).1 (scaled A num).2 ((scaled A num).2 + m)
      generalize roundAt A (scaled A num).1 (scaled A num).2 ((scaled A num).2 + m) = v at hrounded
      cases hrounded <;> dsimp only <;> omega
  · rw [if_neg hfixed] at hstyle hformatted
    rw [dblcvx_scientific A nwidth alt hne hstyle]
    refine scientific_delivers A hlen hletter ?_
    rw [hformatted, hg]
    cases alt <;> rfl

theorem length_fixed (num : F) (m : Nat) (alt : Bool) :
    (roundAt A (scaled A num).1 (scaled A num).2 ((scaled A num).2 + m)).2.1.toNat + 1 + m ≤
      (mantissa (fixed A num m).whole (fixed A num m).frac alt).length := by
  have hwhole : (fixed A num m).whole.length =
      (roundAt A (scaled A num).1 (scaled A num).2 ((scaled A num).2 + m)).2.1.toNat + 1 := by
    simp [fixed, rounded, whole]
  have hfrac : (fixed A num m).frac.length = m := by simp [fixed, decimals]
  rw [mantissa, List.length_append, List.length_append, hwhole, hfrac]
  omega

/-- **`__dblcvx()`**: on every value, conversion, width, precision and flag, and with an array of any size, it stays
inside of the array, ends the text there, keeps its exponent, and delivers the text that fits. -/
theorem dblcvx_delivers (num : F) (cnvtype : Conversion) (nwidth : Nat) (nprecision : Fin (2 ^ 31)) (alt : Bool)
    (result : Object) :
    ∃ after, dblcvx A num cnvtype nwidth (nprecision : Nat) alt result.1 = some after ∧
      Delivers A num cnvtype nwidth nprecision alt result.1 after := by
  by_cases hne : result.1.length = 0
  · have hnil : result.1 = [] := List.length_eq_zero_iff.mp hne
    refine ⟨result.1, if_pos hne, rfl, fun h => absurd hnil h, fun h => absurd hnil h, fun h => ?_⟩
    rw [hne] at h
    exact absurd h (Nat.not_lt_zero _)
  have hlen : result.1.length - 1 + 1 = result.1.length := by omega
  have hscale : -79 ≤ (scaled A num).2 ∧ (scaled A num).2 ≤ 79 := A.scale_range _
  cases cnvtype with
  | e =>
    rw [dblcvx_scientific A nwidth alt hne rfl]
    exact scientific_delivers A hlen (c := 'e') rfl rfl
  | E =>
    rw [dblcvx_scientific A nwidth alt hne rfl]
    exact scientific_delivers A hlen (c := 'E') rfl rfl
  | f =>
    rw [dblcvx_fixed A nwidth alt hne rfl]
    refine fixed_delivers A hlen (fun _ => rfl) (by omega) rfl fun hfits => ?_
    have hroom := result.2
    have hlength := length_fixed A num nprecision alt
    have hrounded := roundAt_rounded A (scaled A num).1 (scaled A num).2 ((scaled A num).2 + nprecision)
    rw [full, List.length_append, List.length_append] at hfits
    change _ + ((mantissa (fixed A num nprecision).whole (fixed A num nprecision).frac alt).length + _) ≤ _ at hfits
    generalize roundAt A (scaled A num).1 (scaled A num).2 ((scaled A num).2 + nprecision) = v at hrounded hlength
    cases hrounded <;> dsimp only at hlength ⊢ <;> omega
  | g => exact general_delivers A hne nprecision.2 rfl rfl rfl
  | G => exact general_delivers A hne nprecision.2 rfl rfl rfl

end Call

/-! ### Exact arithmetic -/

/-- A number of 1 and up, divided by ten until it is below 10. -/
def scaleDown : Nat → ℚ → ℚ × Nat
  | 0, b => (b, 0)
  | k + 1, b => if 10 ≤ b then ((scaleDown k (b / 10)).1, (scaleDown k (b / 10)).2 + 1) else (b, 0)

/-- A number below 1, multiplied by ten until it is not. -/
def scaleUp : Nat → ℚ → ℚ × Nat
  | 0, b => (b, 0)
  | k + 1, b => if b < 1 then ((scaleUp k (b * 10)).1, (scaleUp k (b * 10)).2 + 1) else (b, 0)

theorem scaleDown_le (k : Nat) (b : ℚ) : (scaleDown k b).2 ≤ k := by
  induction k generalizing b with
  | zero => exact le_rfl
  | succ k ih =>
    rw [scaleDown]
    split_ifs
    · exact Nat.succ_le_succ (ih _)
    · exact Nat.zero_le _

theorem scaleUp_le (k : Nat) (b : ℚ) : (scaleUp k b).2 ≤ k := by
  induction k generalizing b with
  | zero => exact le_rfl
  | succ k ih =>
    rw [scaleUp]
    split_ifs
    · exact Nat.succ_le_succ (ih _)
    · exact Nat.zero_le _

def scaleExact (b : ℚ) : ℚ × Int :=
  if b = 0 then (b, 0)
  else if 1 ≤ b then ((scaleDown 79 b).1, (scaleDown 79 b).2)
  else ((scaleUp 79 b).1, -(scaleUp 79 b).2)

/-- Doubles without a rounding of their own. -/
def exactDoubles : Arithmetic ℚ where
  zero := 0
  one := 1
  half := 1 / 2
  isNegative b := b < 0
  isZero b := b = 0
  negate b := -b
  scale := scaleExact
  add := (· + ·)
  div10 b := b / 10
  ge10 b := 10 ≤ b
  ge5 b := 5 ≤ b
  toInt b := b.floor.toNat
  next b i := (b - i) * 10
  scale_range b := by
    have hdown := scaleDown_le 79 b
    have hup := scaleUp_le 79 b
    unfold scaleExact
    split_ifs <;> dsimp only <;> omega

example : dblcvx exactDoubles (-123456 / 1000) .g 8 4 false (List.replicate 12 1) =
    some (literal "  -123.5" ++ [0, 1, 1, 1]) := by decide +kernel

example : dblcvx exactDoubles (96 / 10) .e 0 9 false (List.replicate 8 1) =
  some (literal "9.6e+00" ++ [0]) := by decide +kernel

end Libc370.Dblcvt
