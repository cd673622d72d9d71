import Libc370.Ctype
import Libc370.Int64
import Libc370.Stdio.File

/-! One conversion specification (`@@examin.c`).

`__examin()` parses the flags, the width, the precision, the length modifier and the
conversion letter, takes the arguments and hands the characters of the result to
`outch()`. No part of it depends on what becomes of a character, so the conversion
is the list of characters it hands out (`out`), the count it answers (`extraCh`),
what it stores (`%n`) and where it leaves the arguments and the format.

`int` and `long` are 32 bits, `long long` is two words, the high one first. The
format is the bytes in front of its NUL; an address stands for the string at it.
The converters of a `double` to text are parameters, but `%a` is done here. -/
namespace Libc370.Printf

open Stdio (Bytes toLong)

/-- What a conversion finds around it. -/
structure Env where
  /-- The parameter area, from which `va_arg` takes its words. -/
  word : Nat → BitVec 32
  /-- The string at an address. -/
  str : BitVec 32 → CString
  /-- `__dblcvt()` with the precision 6 and no width. -/
  dblcvt : BitVec 64 → UInt8 → CString
  /-- `__dblcvx()` with no width: the precision, and the `#` flag. -/
  dblcvx : BitVec 64 → UInt8 → Int → Bool → CString

/-- A `long long` or a `double` argument. -/
def Env.pair (E : Env) (taken : Nat) : BitVec 64 := E.word taken ++ E.word (taken + 1)

/-- What `%n` stores, in an object of so many bits. -/
structure Store where
  addr : BitVec 32
  bits : Nat
  value : Int
  deriving DecidableEq, Repr

structure Spec where
  flagMinus : Bool
  flagPlus : Bool
  flagSpace : Bool
  flagHash : Bool
  flagZero : Bool
  width : Int
  precision : Int
  lng : Nat
  hmod : Nat
  deriving DecidableEq, Repr

def Spec.start : Spec := ⟨false, false, false, false, false, 0, -1, 0, 0⟩

/-- What `__examin()` leaves; `rest` is the format behind the specification. -/
structure Examined where
  out : Bytes
  extraCh : Int
  stores : List Store
  taken : Nat
  rest : Bytes

/-- `*format`. -/
def cur (f : Bytes) : UInt8 := f.headD 0

/-- So many copies of a character; none for a negative number. -/
def pad (n : Int) (c : UInt8) : Bytes := List.replicate n.toNat c

/-! ### Parsing -/

/-- One turn of the flags loop, which takes `*` as well; `none` ends it. -/
def flag (E : Env) (c : UInt8) (s : Spec) (taken : Nat) : Option (Spec × Nat) :=
  if c = ebcdic '-' then some ({s with flagMinus := true}, taken)
  else if c = ebcdic '+' then some ({s with flagPlus := true}, taken)
  else if c = ebcdic ' ' then some ({s with flagSpace := true}, taken)
  else if c = ebcdic '#' then some ({s with flagHash := true}, taken)
  else if c = ebcdic '0' then some ({s with flagZero := true}, taken)
  else if c = ebcdic '*' then
    let width := (E.word taken).toInt
    some (if width < 0 then {s with flagMinus := true, width := toLong (-width)} else {s with width := width},
      taken + 1)
  else none

/-- `+` overrides the space flag and `-` the `0` flag. -/
def Spec.settled (s : Spec) : Spec :=
  {s with flagSpace := s.flagSpace && !s.flagPlus, flagZero := s.flagZero && !s.flagMinus}

def flags (E : Env) : Bytes → Spec → Nat → Spec × Nat × Bytes
  | [], s, taken => (s.settled, taken, [])
  | c :: f, s, taken =>
    match flag E c s taken with
    | some (s, taken) => flags E f s taken
    | none => (s.settled, taken, c :: f)

/-- The digits of a width or a precision, behind the number `n`. -/
def number : Bytes → Int → Int × Bytes
  | [], n => (n, [])
  | c :: f, n => if isdigit c.toNat then number f (toLong (n * 10 + (c.toNat - 0xF0))) else (n, c :: f)

/-- The precision, -1 when there is none. -/
def precision (E : Env) (f : Bytes) (taken : Nat) : Int × Nat × Bytes :=
  if cur f = ebcdic '.' then
    let f := f.tail
    if cur f = ebcdic '*' then ((E.word taken).toInt, taken + 1, f.tail)
    else
      let (precision, f) := number f 0
      (precision, taken, f)
  else (-1, taken, f)

/-- The length modifier: `lng`, `hmod`. -/
def modifier (f : Bytes) : Nat × Nat × Bytes :=
  let double := cur f.tail = cur f
  if cur f = ebcdic 'h' then if double then (0, 2, f.tail.tail) else (0, 1, f.tail)
  else if cur f = ebcdic 'z' ∨ cur f = ebcdic 't' then (1, 0, f.tail)
  else if cur f = ebcdic 'j' then (2, 0, f.tail)
  else if cur f = ebcdic 'l' ∨ cur f = ebcdic 'L' then if double then (2, 0, f.tail.tail) else (1, 0, f.tail)
  else (0, 0, f)

/-- The specification up to its conversion letter. -/
def parse (E : Env) (f : Bytes) (taken : Nat) : Spec × Nat × Bytes :=
  let (s, taken, f) := flags E f .start taken
  let (width, f) := number f s.width
  let (precision, taken, f) := precision E f taken
  let (lng, hmod, f) := modifier f
  ({s with width := width, precision := precision, lng := lng, hmod := hmod}, taken, f)

/-! ### Integers -/

/-- `DIGITS` and `digits`. -/
def digit (upper : Bool) (rem : Nat) : UInt8 :=
  (literal (if upper then "0123456789ABCDEF" else "0123456789abcdef")).getD rem 0

/-- The remainders of the 32-bit digit loop, the last digit first. -/
def work32 (base : Nat) : Nat → Nat → List Nat
  | 0, _ => []
  | fuel + 1, ulvalue => if 0 < ulvalue then ulvalue % base :: work32 base fuel (ulvalue / base) else []

/-- The same for 64 bits, with `__64_divmod()`. -/
def work64 (base : Nat) : Nat → BitVec 64 → List Nat
  | 0, _ => []
  | fuel + 1, value =>
    if !Int64.isZero value then
      let (div, rem) := Int64.divmod value (Int64.fromI32 (BitVec.ofNat 32 base))
      Int64.toI32 rem :: work64 base fuel div
    else []

/-- `%d` and `%i`. -/
def isSigned (conv : UInt8) : Bool := conv == ebcdic 'd' || conv == ebcdic 'i'

/-- An `int` argument narrowed by `h` or `hh`. -/
def narrow (hmod : Nat) (conv : UInt8) (w : BitVec 32) : BitVec 32 :=
  if hmod = 1 then if isSigned conv then (w.setWidth 16).signExtend 32 else (w.setWidth 16).setWidth 32
  else if hmod = 2 then if isSigned conv then (w.setWidth 8).signExtend 32 else (w.setWidth 8).setWidth 32
  else w

def baseOf (conv : UInt8) : Nat :=
  if conv = ebcdic 'X' ∨ conv = ebcdic 'x' ∨ conv = ebcdic 'p' then 16
  else if conv = ebcdic 'o' then 8
  else 10

/-- Two's complement of the words of a negative `long long`. -/
def negated (high low : BitVec 32) : BitVec 64 :=
  let low := ~~~low + 1
  (if low = 0 then ~~~high + 1 else ~~~high) ++ low

/-- The sign and the digits of the integer argument, and the arguments taken. -/
def integer (E : Env) (s : Spec) (conv : UInt8) (taken : Nat) : Bool × List Nat × Nat :=
  if s.lng = 2 then
    let high := E.word taken
    let low := E.word (taken + 1)
    let neg := isSigned conv && high.msb
    (neg, work64 (baseOf conv) 64 (if neg then negated high low else high ++ low), taken + 2)
  else
    let lvalue := if s.lng = 1 then E.word taken else narrow s.hmod conv (E.word taken)
    let neg := decide (lvalue.toInt < 0) && isSigned conv
    (neg, work32 (baseOf conv) 32 (if neg then -lvalue else lvalue).toNat, taken + 1)

/-- `d`, `x`, `X`, `u`, `i`, `o` and `p`. -/
def examinInt (E : Env) (s : Spec) (conv : UInt8) (taken : Nat) : Bytes × Nat :=
  let flagZero := s.flagZero && s.precision < 0
  let precision := if conv = ebcdic 'p' then 8 else if s.precision < 0 then 1 else s.precision
  let (neg, work, taken) := integer E s conv taken
  let x : Int := work.length
  let isHex := conv = ebcdic 'X' ∨ conv = ebcdic 'x'
  let pfx : Bytes :=
    if s.flagHash ∧ isHex ∧ 0 < x then [ebcdic '0', if conv = ebcdic 'X' then ebcdic 'X' else ebcdic 'x'] else []
  let sgn : Bytes :=
    if neg then [ebcdic '-'] else if s.flagPlus then [ebcdic '+'] else if s.flagSpace then [ebcdic ' '] else []
  let nz := if x < precision then precision - x else 0
  let nz :=
    if s.flagHash ∧ conv = ebcdic 'o' ∧ nz = 0 ∧ (x = 0 ∨ work.getLastD 0 ≠ 0) then 1 else nz
  let nz :=
    if flagZero ∧ toLong (x + nz + sgn.length + pfx.length) < s.width then
      s.width - sgn.length - pfx.length - x
    else nz
  let y := toLong (x + nz + sgn.length + pfx.length)
  let upper := conv == ebcdic 'X' || conv == ebcdic 'p'
  ((if s.flagMinus then [] else pad (s.width - y) (ebcdic ' ')) ++ sgn ++ pfx ++ pad nz (ebcdic '0') ++
    work.reverse.map (digit upper) ++ (if s.flagMinus then pad (s.width - y) (ebcdic ' ') else []), taken)

/-! ### The other conversions -/

/-- The 14 hex digits of a `double`'s fraction. -/
def fraction (w : BitVec 64) : List Nat := (List.range 14).map (fun i => w.toNat / 16 ^ (13 - i) % 16)

/-- A carry into the last of the digits, which come last first; whether it went through. -/
def carryInto : List Nat → List Nat × Bool
  | [] => ([], true)
  | d :: ds =>
    if d + 1 = 16 then
      let (ds, out) := carryInto ds
      (0 :: ds, out)
    else ((d + 1) :: ds, false)

/-- `hexflt()`: the text of `%a`, in at most `n` bytes with its NUL. -/
def hexflt (w : BitVec 64) (upper : Bool) (prec : Int) (alt : Bool) (n : Nat) : Bytes :=
  let d := fraction w
  let e : Int := (w.toNat / 2 ^ 56 % 128 : Nat) - 65
  let zero := d.all (· == 0)
  let k := d.findIdx (· ≠ 0)
  let last : Int := (d.length - 1 - d.reverse.findIdx (· ≠ 0) : Int)
  -- an unnormalized fraction: its first nonzero digit goes first
  let (d, e, last) := if zero then (d, 0, last) else (d.drop k ++ List.replicate k 0, e - k, last - k)
  let nd := if prec < 0 then last else prec
  let (d, e) :=
    if nd < 13 ∧ 8 ≤ d.getD (nd + 1).toNat 0 then
      let kept := (nd + 1).toNat
      let (up, out) := carryInto (d.take kept).reverse
      let d := up.reverse ++ d.drop kept
      if out then (d.set 0 1, e + 1) else (d, e)
    else (d, e)
  let front : Bytes :=
    (if w.msb then [ebcdic '-'] else []) ++
      [ebcdic '0', if upper then ebcdic 'X' else ebcdic 'x',
      digit upper (d.getD 0 0)] ++ (if 0 < nd ∨ alt then [ebcdic '.'] else [])
  let places := min nd.toNat (n - 8 - front.length)
  front ++ (List.range places).map (fun i => if i + 1 < 14 then digit upper (d.getD (i + 1) 0) else ebcdic '0') ++
    [if upper then ebcdic 'P' else ebcdic 'p', if e < 0 then ebcdic '-' else ebcdic '+'] ++
    (Nat.toDigits 10 (4 * e).natAbs).map ebcdic

/-- `e`, `E`, `g`, `G`, `f`, `F`, `a` and `A`: the characters and the count. -/
def examinFloat (E : Env) (s : Spec) (conv : UInt8) (taken : Nat) : Bytes × Int :=
  let vdbl := E.pair taken
  let pfx := if conv = ebcdic 'a' ∨ conv = ebcdic 'A' then 2 else 0
  let work : Bytes :=
    if pfx ≠ 0 then hexflt vdbl (conv == ebcdic 'A') s.precision s.flagHash 127
    else (E.dblcvx vdbl conv (if s.precision < 0 then 6 else s.precision) s.flagHash).1
  let (sign, body) : Bytes × Bytes :=
    if cur work = ebcdic '-' then ([ebcdic '-'], work.tail)
    else (if s.flagPlus then [ebcdic '+'] else if s.flagSpace then [ebcdic ' '] else [], work)
  let fill := max 0 (toLong (s.width - body.length - sign.length))
  ((if !s.flagMinus && !s.flagZero then pad fill (ebcdic ' ') else []) ++ sign ++ body.take pfx ++
    (if !s.flagMinus && s.flagZero then pad fill (ebcdic '0') else []) ++ body.drop pfx ++
    (if s.flagMinus then pad fill (ebcdic ' ') else []), toLong (fill + sign.length + body.length))

/-- The string an argument names; `NULL` prints as `(null)`. -/
def Env.string (E : Env) (p : BitVec 32) : Bytes := if p = 0 then literal "(null)" else (E.str p).1

/-- `s`: the characters and the count. -/
def examinString (E : Env) (s : Spec) (taken : Nat) : Bytes × Int :=
  let svalue := E.string (E.word taken)
  let length : Int :=
    if 0 < s.precision then min svalue.length s.precision else if s.precision < 0 then svalue.length else 0
  let fill := if length < s.width then s.width - length else 0
  ((if s.flagMinus then [] else pad fill (ebcdic ' ')) ++ svalue.take length.toNat ++
    (if s.flagMinus then pad fill (ebcdic ' ') else []), toLong (fill + length))

/-- `(char)` of an argument word. -/
def charOf (w : BitVec 32) : UInt8 := UInt8.ofNat (w.toNat % 256)

/-- `c`. -/
def examinChar (E : Env) (s : Spec) (taken : Nat) : Bytes :=
  (if s.flagMinus then [] else pad (s.width - 1) (ebcdic ' ')) ++ [charOf (E.word taken)] ++
    (if s.flagMinus then pad (s.width - 1) (ebcdic ' ') else [])

/-- The size of the object `%n` stores into. -/
def Spec.countBits (s : Spec) : Nat :=
  if s.lng = 2 then 64 else if s.lng = 1 then 32 else if s.hmod = 2 then 8 else if s.hmod = 1 then 16 else 32

def isIntConv (c : UInt8) : Bool := (literal "dxXuiop").contains c

def isFloatConv (c : UInt8) : Bool := (literal "eEgGfFaA").contains c

/-- `__examin()`, from the character behind the `%`. `done` is the count so far. At
the NUL the format stays in front of it; the caller steps on from there. -/
def examin (E : Env) (f : Bytes) (taken : Nat) (done : Int) : Examined :=
  let (s, taken, f') := parse E f taken
  let conv := cur f'
  let rest := f'.tail
  if isIntConv conv then
    let (out, taken) := examinInt E s conv taken
    ⟨out, toLong out.length, [], taken, rest⟩
  else if isFloatConv conv then
    let (out, extraCh) := examinFloat E s conv taken
    ⟨out, extraCh, [], taken + 2, rest⟩
  else if conv = ebcdic 's' then
    let (out, extraCh) := examinString E s taken
    ⟨out, extraCh, [], taken + 1, rest⟩
  else if conv = ebcdic 'c' then
    let out := examinChar E s taken
    ⟨out, toLong out.length, [], taken + 1, rest⟩
  else if conv = ebcdic 'n' then
    ⟨[], 0, [⟨E.word taken, s.countBits, done.bmod (2 ^ s.countBits)⟩], taken + 1, rest⟩
  else if conv = ebcdic '%' then ⟨[ebcdic '%'], 1, [], taken, rest⟩
  else
    -- no meaning at all: the specification as it stands
    let out := ebcdic '%' :: f.take (f.length - rest.length)
    ⟨out, toLong out.length, [], taken, rest⟩

end Libc370.Printf
