import Libc370.Lib.Loop
import Libc370.Ctype
import Libc370.Stdio.Fseek

/-! The scanner (`vvscanf.c`).

One engine reads two kinds of source: a stream through `getc()` and a string
through a pointer. `Source` is what `inch()`, `AT_END` and `%n` see of either. The
format is the bytes from `*format` up to its NUL, so `[]` stands at the NUL, and a
step over it is the fault `pastFormat`; a string read past its NUL is the fault
`pastInput`. The main loop and the loops inside the items are loops of `Loop`.

What the scan stores is a list, in order, with the address each value goes to.
`va_arg` finds its words in the parameter area `arg`. The area, the format and the
input are not what the stores overwrite. The value of a floating item is left as
the text handed to `strtod()`. -/
namespace Libc370.Scanf

open Stdio

inductive Fault | pastFormat | pastInput | stuck
  deriving DecidableEq, Repr

/-- The length modifier in `size`: none, `'H'`, `'h'`, `'l'` or `'q'`. -/
inductive Size | none | hh | h | l | ll
  deriving DecidableEq, Repr

def Size.bits : Size → Nat
  | .none => 32 | .hh => 8 | .h => 16 | .l => 32 | .ll => 64

/-- A number in a floating item: its sign, and the text handed to `strtod()` when
a digit of it is not zero. -/
structure FloatText where
  neg : Bool
  text : Option Bytes
  deriving DecidableEq, Repr

/-- One store through a pointer argument. -/
inductive Store
  | char (addr : Nat) (b : UInt8)
  /-- An integer object of so many bits, and the value it gets. -/
  | int (addr bits : Nat) (value : Int)
  /-- A `double`, or a `float` (then held within `FLT_MAX`). -/
  | float (addr : Nat) (wide : Bool) (value : FloatText)
  deriving DecidableEq, Repr

/-- Where the characters come from: `fp`, or `s` when `fp` is `NULL`. -/
structure Source (σ : Type) where
  isFile : Bool
  /-- `getc(fp)`, or `*s++`. -/
  getc : σ → Except Fault (Int × σ)
  /-- What `%n` stores: `ftell(fp) - startpos`, or `s - startp - 1`. -/
  count : σ → Int

/-- A string read through `s`, which is kept as an offset. -/
def stringSource (input : Bytes) : Source Nat where
  isFile := false
  getc s := if s ≤ input.length then .ok ((input.getD s 0).toNat, s + 1) else .error .pastInput
  count s := toLong (s - 1)

/-- A stream, scanned from `startpos` on. -/
def fileSource (startpos : Int) : Source File where
  isFile := true
  getc fp := .ok fp.fgetc
  count fp := toLong (fp.ftell.1 - startpos)

/-- No field width given. -/
def noWidth : Int := 0x7FFFFFFF

/-- The variables of `vvscanf()` that neither source knows about. -/
structure Locals where
  format : Bytes
  informatitem : Bool
  size : Size
  width : Int
  skipvar : Bool
  cnt : Nat
  failed : Bool
  /-- The arguments `va_arg` has taken. -/
  taken : Nat

structure Scan (σ : Type) extends Locals where
  ch : Int
  src : σ
  stores : List Store

/-- Where the scan left its main loop, and the fault that ended it. -/
structure Exit (σ : Type) where
  scan : Scan σ
  fault : Option Fault

/-- A part of the scan: it goes on with a value, or it leaves the main loop. -/
abbrev Part (σ : Type) := Except (Exit σ)

namespace Locals

/-- `*format`. -/
def cur (s : Locals) : UInt8 := s.format.headD 0

/-- `cnt += !skipvar`. -/
def counted (s : Locals) : Locals := {s with cnt := s.cnt + if s.skipvar then 0 else 1}

/-- The item has used up one character of its width. -/
def narrowed (s : Locals) : Locals := {s with width := s.width - 1}

def withInformatitem (s : Locals) (b : Bool) : Locals := {s with informatitem := b}

/-- A modifier letter has been read. -/
def modified (s : Locals) (size : Size) : Locals := {s with size := size, informatitem := true}

/-- `getwidth()`: a width, and the format behind it. -/
def getwidth (f : Bytes) : Int × Bytes :=
  let w := (f.takeWhile (isdigit ·.toNat)).foldl (fun w c => toLong (w * 10 + (c.toNat - 0xF0))) 0
  (if 0 < w then w else noWidth, f.dropWhile (isdigit ·.toNat))

/-- A `%` opens a format item: `*`, and the width. -/
def opened (s : Locals) : Locals :=
  if s.cur = ebcdic '%' then
    let f := s.format.tail
    let skip := f.head? = some (ebcdic '*')
    let (width, f) := getwidth (if skip then f.tail else f)
    {s with format := f, size := .none, skipvar := skip, width := width}
  else s

/-- The modifier letter at `*format`, if one stands there: the size it makes. -/
def modifier (s : Locals) : Option Size :=
  if s.cur = ebcdic 'l' then some (if s.size = .l then .ll else .l)
  else if s.cur = ebcdic 'h' then some (if s.size = .h then .hh else .h)
  else if s.cur = ebcdic 'j' ∨ s.cur = ebcdic 'L' then some .ll
  else if s.cur = ebcdic 'z' ∨ s.cur = ebcdic 't' then some .l
  else none

end Locals

namespace Scan
variable {σ : Type}

/-- New values for the variables. -/
def withLocals (s : Scan σ) (l : Locals) : Scan σ := {s with toLocals := l}

/-- A store the item makes unless it is skipped. -/
def put (s : Scan σ) (v : Store) : Scan σ :=
  if s.skipvar then s else {s with stores := s.stores ++ [v]}

/-- `done`: the main loop is left. -/
def done (s : Scan σ) : Exit σ := ⟨s, none⟩

def fault (s : Scan σ) (f : Fault) : Exit σ := ⟨s, some f⟩

/-- `failed`, then `done`. -/
def fail (s : Scan σ) (failed : Bool) : Exit σ := (s.withLocals {s.toLocals with failed := failed}).done

end Scan

section Engine
variable {σ : Type} (S : Source σ) (arg : Nat → Nat) (fuel : Nat)

/-- `inch()`. -/
def inch (s : Scan σ) : Part σ (Scan σ) :=
  match S.getc s.src with
  | .ok (ch, src) => .ok {s with ch := ch, src := src}
  | .error f => .error (s.fault f)

/-- `AT_END`. -/
def atEnd (s : Scan σ) : Bool := s.ch == if S.isFile then EOF else 0

/-- `va_arg` for an item that is not skipped. -/
def vaArg (s : Scan σ) : Nat × Scan σ :=
  if s.skipvar then (0, s) else (arg s.taken, s.withLocals {s.toLocals with taken := s.taken + 1})

/-- A `while` loop of a format item, over the scan and the item's own variables. -/
def loop {υ : Type} (body : υ × Scan σ → Loop.Turn (υ × Scan σ) (Part σ (υ × Scan σ)))
    (v : υ) (s : Scan σ) : Part σ (υ × Scan σ) :=
  Loop.run (fun x => .error (x.2.fault .stuck)) body fuel (v, s)

/-- The last statement of a loop's body is `inch()`. -/
def inchAgain {υ ρ : Type} (v : υ) (s : Scan σ) : Loop.Turn (υ × Scan σ) (Part σ ρ) :=
  match inch S s with
  | .ok s => .again (v, s)
  | .error e => .leave (.error e)

def spaceTurn (x : Unit × Scan σ) : Loop.Turn (Unit × Scan σ) (Part σ (Unit × Scan σ)) :=
  if 0 ≤ x.2.ch && isspace x.2.ch then inchAgain S () x.2 else .leave (.ok x)

/-- `while (ch>=0 && isspace(ch)) inch();` -/
def skipSpaces (s : Scan σ) : Part σ (Scan σ) := do
  let (_, s) ← loop fuel (spaceTurn S) () s
  .ok s

/-- `(char)ch`. -/
def Scan.char (s : Scan σ) : UInt8 := UInt8.ofNat (s.ch % 256).toNat

def collectTurn (go : Scan σ → Bool) (cptr : Nat) (x : Nat × Scan σ) :
    Loop.Turn (Nat × Scan σ) (Part σ (Nat × Scan σ)) :=
  let (n, s) := x
  if go s then
    let s := s.put (.char (cptr + n) s.char)
    inchAgain S (n + 1) (s.withLocals s.narrowed)
  else .leave (.ok (n, s))

/-- The loops of `%s`, `%[` and `%c`: characters go to `cptr` as long as `go` holds.
The number taken comes back. -/
def collect (go : Scan σ → Bool) (cptr : Nat) (s : Scan σ) : Part σ (Nat × Scan σ) :=
  loop fuel (collectTurn S go cptr) 0 s

/-- `%s`. -/
def scanString (s : Scan σ) : Part σ (Scan σ) := do
  let (cptr, s) := vaArg arg s
  let s ← skipSpaces S fuel s
  if atEnd S s then .error (s.fail true)
  else
    let (n, s) ← collect S fuel (fun s => !(isspace s.ch || s.width == 0) && !atEnd S s) cptr s
    let s := s.put (.char (cptr + n) 0)
    .ok (s.withLocals s.counted)

/-- `%[`. -/
def scanSet (s : Scan σ) : Part σ (Scan σ) :=
  let (cptr, s) := vaArg arg s
  let f := s.format.tail
  let reverse := f.head? = some (ebcdic '^')
  match if reverse then f.tail else f with
  | [] => .error s.done
  | first :: rest =>
    match rest.findIdx? (· == ebcdic ']') with
    | none => .error s.done
    | some last => do
      let found (s : Scan σ) : Bool := (first :: rest.take last).contains s.char
      let (mcnt, s) ← collect S fuel (fun s => !((found s && reverse) || atEnd S s || s.width == 0) &&
        !(!found s && !reverse)) cptr s
      if mcnt > 0 then
        let s := s.put (.char (cptr + mcnt) 0)
        .ok (s.withLocals {s.counted with format := rest.drop last})
      else .error (s.fail (atEnd S s))

/-- `%c`. -/
def scanChar (s : Scan σ) : Part σ (Scan σ) := do
  let (cptr, s) := vaArg arg s
  let s := s.withLocals {s.toLocals with width := if s.width = noWidth then 1 else s.width}
  let (_, s) ← collect S fuel (fun s => 0 < s.width && !atEnd S s) cptr s
  if 0 < s.width then .error (s.fail true) else .ok (s.withLocals s.counted)

/-- `%n`: stores for a skipped item too, and is not counted. -/
def scanCount (s : Scan σ) : Part σ (Scan σ) :=
  .ok {s with
    stores := s.stores ++ [.int (arg s.taken) s.size.bits ((S.count s.src).bmod (2 ^ s.size.bits))]
    taken := s.taken + 1}

/-- The variables of the integer items: `x` is an `unsigned long long`. -/
structure Digits where
  base : Nat
  undecided : Bool
  x : Nat
  mcnt : Nat

/-- The first digit of a `%i` item says whether it is octal (or, so far, hexadecimal). -/
def Digits.settled (g : Digits) (ch : Int) : Digits :=
  if g.base = 0 then
    if ch = (ebcdic '0').toNat then {g with base := 8} else {g with base := 10, undecided := false}
  else g

/-- One turn of the digit loop of the integer items. -/
def digitTurn (x : Digits × Scan σ) : Loop.Turn (Digits × Scan σ) (Part σ (Digits × Scan σ)) :=
  let (g, s) := x
  if 0 < s.width && !atEnd S s then
    if (s.ch = (ebcdic 'x').toNat ∨ s.ch = (ebcdic 'X').toNat) ∧ g.mcnt = 1 ∧ g.x = 0 ∧
        (g.base = 16 ∨ (g.base = 8 ∧ g.undecided)) then
      inchAgain S {g with base := 16, undecided := false} (s.withLocals s.narrowed)
    else
      let d := digval s.ch
      if g.base = 0 ∧ 10 ≤ d then .leave (.ok (g, s))
      else
        let g := g.settled s.ch
        if g.base ≤ d then .leave (.ok (g, s))
        else
          inchAgain S {g with x := (g.x * g.base + d) % 2 ^ 64, mcnt := g.mcnt + 1} (s.withLocals s.narrowed)
  else .leave (.ok (g, s))

/-- A sign in front of a number. -/
def scanSign (s : Scan σ) : Part σ (Bool × Scan σ) :=
  if s.ch = (ebcdic '-').toNat ∨ s.ch = (ebcdic '+').toNat then do
    let neg : Bool := s.ch = (ebcdic '-').toNat
    let s ← inch S (s.withLocals s.narrowed)
    .ok (neg, s)
  else .ok (false, s)

/-- The base an integer conversion starts with; 0 for `%i`. -/
def baseOf (conv : UInt8) : Nat :=
  if conv = ebcdic 'x' ∨ conv = ebcdic 'p' then 16
  else if conv = ebcdic 'o' then 8
  else if conv = ebcdic 'i' then 0
  else 10

/-- What an integer item stores: `%d` and `%i` store a signed object. -/
def storedInt (conv : UInt8) (size : Size) (x : Nat) : Int :=
  if conv = ebcdic 'd' ∨ conv = ebcdic 'i' then (x : Int).bmod (2 ^ size.bits) else x % 2 ^ size.bits

/-- `%d`, `%u`, `%x`, `%o`, `%p` and `%i`. -/
def scanInt (s : Scan σ) : Part σ (Scan σ) := do
  let conv := s.cur
  let (vptr, s) := vaArg arg s
  let s ← skipSpaces S fuel s
  let (neg, s) ← scanSign S s
  let (g, s) ← loop fuel (digitTurn S) ⟨baseOf conv, baseOf conv = 0, 0, 0⟩ s
  if g.mcnt = 0 then .error (s.fail (atEnd S s))
  else
    let x := if neg then (2 ^ 64 - g.x) % 2 ^ 64 else g.x
    let s := s.put (.int vptr s.size.bits (storedInt conv s.size x))
    .ok (s.withLocals s.counted)

/-- The variables of the floating items; `num` is the significant digits. -/
structure Decimal where
  dotsw : Bool
  expsw : Bool
  expsignsw : Bool
  negsw2 : Bool
  ndigs1 : Nat
  ndigs2 : Nat
  num : Bytes
  expnum : Nat
  adj : Int

/-- What one character of a floating item does, `none` when it ends the item. -/
def Decimal.take (g : Decimal) (ch : Int) : Option Decimal :=
  if ch = (ebcdic '.').toNat ∧ !g.dotsw ∧ !g.expsw then some {g with dotsw := true}
  else if isdigit ch then
    if g.expsw then
      some {g with
        ndigs2 := g.ndigs2 + 1
        expnum := if g.expnum < 10000 then g.expnum * 10 + (ch - 0xF0).toNat else g.expnum}
    else
      let g := {g with ndigs1 := g.ndigs1 + 1}
      if g.num.length = 0 ∧ ch = (ebcdic '0').toNat then
        some (if g.dotsw then {g with adj := g.adj - 1} else g)
      else if g.num.length < 17 then
        let g := {g with num := g.num ++ [UInt8.ofNat ch.toNat]}
        some (if g.dotsw then {g with adj := g.adj - 1} else g)
      else some (if g.dotsw then g else {g with adj := g.adj + 1})
  else if (ch = (ebcdic 'e').toNat ∨ ch = (ebcdic 'E').toNat) ∧ !g.expsw then some {g with expsw := true}
  else if (ch = (ebcdic '+').toNat ∨ ch = (ebcdic '-').toNat) ∧ g.expsw ∧ g.ndigs2 = 0 ∧ !g.expsignsw then
    some {g with expsignsw := true, negsw2 := ch = (ebcdic '-').toNat || g.negsw2}
  else none

/-- The text handed to `strtod()`: `<digits>e<exponent>`. -/
def Decimal.text (g : Decimal) : Bytes :=
  let expnum := (if g.negsw2 then -(g.expnum : Int) else g.expnum) + g.adj
  g.num ++ [ebcdic 'e'] ++ (if expnum < 0 then [ebcdic '-'] else []) ++
    (Nat.toDigits 10 expnum.natAbs).map ebcdic

def decimalTurn (x : Decimal × Scan σ) : Loop.Turn (Decimal × Scan σ) (Part σ (Decimal × Scan σ)) :=
  let (g, s) := x
  if 0 < s.ch && 0 < s.width then
    match g.take s.ch with
    | some g => inchAgain S g (s.withLocals s.narrowed)
    | none => .leave (.ok (g, s))
  else .leave (.ok (g, s))

/-- `%e`, `%f`, `%g`, `%E` and `%G`. -/
def scanFloat (s : Scan σ) : Part σ (Scan σ) := do
  let (ptr, s) := vaArg arg s
  let s ← skipSpaces S fuel s
  let (negsw1, s) ← scanSign S s
  let (g, s) ← loop fuel (decimalTurn S) ⟨false, false, false, false, 0, 0, [], 0, 0⟩ s
  if g.ndigs1 = 0 ∨ (g.expsw ∧ g.ndigs2 = 0) then .error (s.fail (g.ndigs1 = 0 && atEnd S s))
  else
    let value : FloatText := ⟨negsw1, if g.num.length = 0 then none else some g.text⟩
    let s := s.put (.float ptr (s.size == .l || s.size == .ll) value)
    .ok (s.withLocals s.counted)

/-- The conversion letters of the integer and of the floating items. -/
def isIntConv (c : UInt8) : Bool := (literal "duxopi").contains c

def isFloatConv (c : UInt8) : Bool := (literal "efgEG").contains c

/-- A format item, from its `%` or from the letter behind a modifier. Any other
conversion letter does nothing. -/
def scanItem (s : Scan σ) : Part σ (Scan σ) :=
  if s.cur = ebcdic '%' then
    if s.ch ≠ (ebcdic '%').toNat then .error s.done
    else inch S (s.withLocals (s.withInformatitem false))
  else
    match s.modifier with
    | some size => .ok (s.withLocals (s.modified size))
    | none =>
      let s := s.withLocals (s.withInformatitem false)
      if s.cur = ebcdic 's' then scanString S arg fuel s
      else if s.cur = ebcdic '[' then scanSet S arg fuel s
      else if s.cur = ebcdic 'c' then scanChar S arg fuel s
      else if s.cur = ebcdic 'n' then scanCount S arg s
      else if isIntConv s.cur then scanInt S arg fuel s
      else if isFloatConv s.cur then scanFloat S arg fuel s
      else .ok s

/-- What `*format` asks for. -/
def scanDirective (s : Scan σ) : Part σ (Scan σ) :=
  if s.cur = ebcdic '%' ∨ s.informatitem then scanItem S arg fuel (s.withLocals s.opened)
  else if isspace s.cur.toNat then skipSpaces S fuel s
  else if s.ch ≠ s.cur.toNat then .error (s.fail (atEnd S s))
  else inch S s

/-- `format++`. -/
def Scan.next (s : Scan σ) : Loop.Turn (Scan σ) (Exit σ) :=
  match s.format with
  | [] => .leave (s.fault .pastFormat)
  | _ :: f => .again (s.withLocals {s.toLocals with format := f})

/-- One turn of the main loop. -/
def scanTurn (s : Scan σ) : Loop.Turn (Scan σ) (Exit σ) :=
  if s.format = [] then .leave s.done
  else
    match scanDirective S arg fuel s with
    | .ok s => s.next
    | .error e => .leave e

/-- The scan in front of its first character. -/
def Scan.start (format : Bytes) (src : σ) : Scan σ where
  format := format
  informatitem := false
  size := .none
  width := noWidth
  skipvar := false
  cnt := 0
  failed := false
  taken := 0
  ch := 0
  src := src
  stores := []

/-- `vvscanf()` up to `done`. Every turn uses up a byte of the format. -/
def vvscanf (format : Bytes) (src : σ) : Exit σ :=
  match inch S (.start format src) with
  | .ok s => Loop.run (Scan.fault · .stuck) (scanTurn S arg fuel) (format.length + 1) s
  | .error e => e

/-- The turns of the main loop, by the states they start from. -/
def scanTrail (format : Bytes) (src : σ) : List (Scan σ) :=
  match inch S (.start format src) with
  | .ok s => Loop.trail (scanTurn S arg fuel) (format.length + 1) s
  | .error _ => []

/-- What `vvscanf()` returns. -/
def Exit.value (e : Exit σ) : Int := if e.scan.cnt = 0 && e.scan.failed then EOF else e.scan.cnt

end Engine

/-- `vsscanf()`. A loop inside an item reads a character with every turn. -/
def vsscanf (s : CString) (format : CString) (arg : Nat → Nat) : Exit Nat :=
  vvscanf (stringSource s.1) arg (s.1.length + 1) format.1 0

/-- `vfscanf()`: the character read past the input item goes back to the stream. -/
def vfscanf (fp : File) (format : CString) (arg : Nat → Nat) : Exit File :=
  let e := vvscanf (fileSource fp.ftell.1) arg (fp.left + 1) format.1 fp.ftell.2
  {e with scan := {e.scan with src := (e.scan.src.ungetc e.scan.ch).2}}

end Libc370.Scanf
