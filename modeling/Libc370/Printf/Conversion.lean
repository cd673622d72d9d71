import Libc370.Printf.Examin

/-! Integer conversions as C99 has them (7.19.6.1).

A `Conversion` is a well-formed specification of an integer conversion, and `render`
its text. With its arguments it comes to a `Wanted`: the flags, the width and the
precision that hold, and the value. `Wanted.text` is what is to be printed: the least
number of digits, behind the sign and the base, laid out in the width. -/
namespace Libc370.Printf

open Stdio (Bytes)

inductive Flag
  | minus
  | plus
  | space
  | hash
  | zero
  deriving DecidableEq

/-- A width or a precision. -/
inductive Amount
  | absent
  | digits (ds : List (Fin 10))
  | star

inductive Modifier
  | none
  | hh
  | h
  | l
  | ll
  | j
  | z
  | t
  deriving DecidableEq

inductive Letter
  | d
  | i
  | u
  | o
  | x
  | X
  deriving DecidableEq

/-- A conversion specification: a width does not begin with a 0, which is a flag. -/
structure Conversion where
  flags : List Flag
  width : Amount
  precision : Amount
  modifier : Modifier
  letter : Letter
  width_ok : ∀ ds, width = .digits ds → ds.head? ≠ some 0

/-! ### The text of a specification -/

def Flag.byte : Flag → UInt8
  | minus => ebcdic '-'
  | plus => ebcdic '+'
  | space => ebcdic ' '
  | hash => ebcdic '#'
  | zero => ebcdic '0'

/-- A digit of a width or a precision. -/
def digitByte (d : Fin 10) : UInt8 := UInt8.ofNat (0xF0 + d.val)

def Amount.bytes : Amount → Bytes
  | absent => []
  | digits ds => ds.map digitByte
  | star => [ebcdic '*']

def Modifier.bytes : Modifier → Bytes
  | none => []
  | hh => literal "hh"
  | h => literal "h"
  | l => literal "l"
  | ll => literal "ll"
  | j => literal "j"
  | z => literal "z"
  | t => literal "t"

def Letter.byte : Letter → UInt8
  | d => ebcdic 'd'
  | i => ebcdic 'i'
  | u => ebcdic 'u'
  | o => ebcdic 'o'
  | x => ebcdic 'x'
  | X => ebcdic 'X'

/-- A precision stands behind a point. -/
def precisionBytes : Amount → Bytes
  | .absent => []
  | a => ebcdic '.' :: a.bytes

/-- The specification, from the character behind the `%`. -/
def Conversion.render (c : Conversion) : Bytes :=
  c.flags.map Flag.byte ++ c.width.bytes ++ precisionBytes c.precision ++ c.modifier.bytes ++ [c.letter.byte]

/-! ### What it comes to -/

/-- The number that some decimal digits are. -/
def numeral (ds : List (Fin 10)) : Nat := ds.foldl (fun n d => n * 10 + d.val) 0

/-- The arguments that a width or a precision takes. -/
def Amount.args : Amount → Nat
  | star => 1
  | _ => 0

/-- The bits of the argument's type. -/
def Modifier.bits : Modifier → Nat
  | hh => 8
  | h => 16
  | ll | j => 64
  | _ => 32

/-- The words that the argument takes. -/
def Modifier.words : Modifier → Nat
  | ll | j => 2
  | _ => 1

def Letter.signed : Letter → Bool
  | d | i => true
  | _ => false

def Letter.base : Letter → Nat
  | o => 8
  | x | X => 16
  | _ => 10

/-- What holds of a conversion with its arguments. -/
structure Wanted where
  minus : Bool
  plus : Bool
  space : Bool
  hash : Bool
  zero : Bool
  width : Nat
  precision : Option Nat
  letter : Letter
  value : Int

/-- The value of the argument at `taken`, which has been promoted to `int` if it is shorter. -/
def argument (E : Env) (m : Modifier) (signed : Bool) (taken : Nat) : Int :=
  let n : BitVec m.bits := (if m.words = 2 then E.pair taken else (E.word taken).setWidth 64).setWidth m.bits
  if signed then n.toInt else n.toNat

/-- A negative width is a `-` flag and a width, a negative precision is none. -/
def Conversion.wanted (c : Conversion) (E : Env) (taken : Nat) : Wanted where
  minus := c.flags.contains .minus || (match c.width with | .star => decide ((E.word taken).toInt < 0) | _ => false)
  plus := c.flags.contains .plus
  space := c.flags.contains .space
  hash := c.flags.contains .hash
  zero := c.flags.contains .zero
  width :=
    match c.width with
    | .absent => 0
    | .digits ds => numeral ds
    | .star => (E.word taken).toInt.natAbs
  precision :=
    match c.precision with
    | .absent => none
    | .digits ds => some (numeral ds)
    | .star =>
      let p := (E.word (taken + c.width.args)).toInt
      if p < 0 then none else some p.toNat
  letter := c.letter
  value := argument E c.modifier c.letter.signed (taken + c.width.args + c.precision.args)

/-- The arguments it takes. -/
def Conversion.args (c : Conversion) : Nat := c.width.args + c.precision.args + c.modifier.words

/-! ### What is to be printed -/

namespace Wanted

/-- The digits of the value without its sign; there are none for 0. -/
def digits (w : Wanted) : Bytes :=
  (Nat.digits w.letter.base w.value.natAbs).reverse.map (digit (w.letter = .X))

/-- The least number of digits is the precision, or 1. With `#` an octal begins with a 0. -/
def core (w : Wanted) : Bytes :=
  let core := List.replicate (w.precision.getD 1 - w.digits.length) (ebcdic '0') ++ w.digits
  if w.hash ∧ w.letter = .o ∧ core.head? ≠ some (ebcdic '0') then ebcdic '0' :: core else core

/-- With `#`, the base of a hexadecimal other than 0. -/
def base (w : Wanted) : Bytes :=
  if w.hash ∧ w.value ≠ 0 then
    match w.letter with
    | .x => literal "0x"
    | .X => literal "0X"
    | _ => []
  else []

/-- The sign of a value, if it is to be seen. -/
def mark (w : Wanted) : Bytes :=
  if w.value < 0 then [ebcdic '-'] else if w.plus then [ebcdic '+'] else if w.space then [ebcdic ' '] else []

/-- Only a signed conversion has a sign. -/
def sign (w : Wanted) : Bytes := if w.letter.signed then w.mark else []

/-- The `0` flag holds without a `-` and without a precision. -/
def fills (w : Wanted) : Bool := w.zero && !w.minus && w.precision.isNone

/-- The result in its width, with blanks or zeros. -/
def layout (w : Wanted) (sign : Bytes) : Bytes :=
  let n := w.width - (sign ++ w.base ++ w.core).length
  if w.minus then sign ++ w.base ++ w.core ++ List.replicate n (ebcdic ' ')
  else if w.fills then sign ++ w.base ++ List.replicate n (ebcdic '0') ++ w.core
  else List.replicate n (ebcdic ' ') ++ sign ++ w.base ++ w.core

/-- **What C99 prescribes.** -/
def text (w : Wanted) : Bytes := w.layout w.sign

end Wanted

end Libc370.Printf
