import Libc370.Lib.Loop
import Libc370.Printf.Examin
import Libc370.Stdio.Output

/-! The two drivers (`vvprintf.c`, `vsnprint.c`).

`vvprintf()` writes through a sink: the string of `vsprintf()`, or a stream through
`putcf()` and `putsf()`. `vsnprintf()` is written a second time, with a budget. What
goes into a string is kept as the list of its stores, each with the offset from `s`
it goes to; what goes to a stream is the list of the calls. The stream does not
answer the printing until the end, where its error indicator is looked at.

The strings printed lie outside the buffer that is written, and `s` is `NULL` only
where nothing is stored. -/
namespace Libc370.Printf

open Stdio Loop

/-- `INT_MAX`. -/
def intMax : Nat := 2 ^ 31 - 1

/-- The characters of a string, each with its offset from `s` on. -/
def placed (s : Int) : Bytes → List (Int × UInt8)
  | [] => []
  | b :: bs => (s, b) :: placed (s + 1) bs

/-- The digits of the `do` loops for a plain `%d`, the last one first. -/
def decimal : Nat → Nat → Bytes
  | 0, _ => []
  | fuel + 1, uvint =>
    digit false (uvint % 10) :: if 0 < uvint / 10 then decimal fuel (uvint / 10) else []

/-- The characters of a plain `%d`, in the order they are handed out. -/
def decText (vint : BitVec 32) : Bytes :=
  let neg := vint.toInt < 0
  (decimal 10 (if neg then -vint else vint).toNat ++ if neg then [ebcdic '-'] else []).reverse

def isCvtConv (c : UInt8) : Bool := (literal "eEgGfF").contains c

/-- `(char)ch`. -/
def charByte (ch : Int) : UInt8 := UInt8.ofNat (ch % 256).toNat

/-! ### `vvprintf()` -/

/-- A sink: `out1()`, `outs()`, and what the `outch()` calls of `__examin()` and the
step over its count do. -/
structure Sink (κ : Type) where
  out1 : κ → Int → κ
  outs : κ → Bytes → κ
  conv : κ → Bytes → Int → κ

/-- A string being written: `s` has moved so far. -/
structure Text where
  s : Int
  writes : List (Int × UInt8)

/-- `*s++ = ch` -/
def Text.store (k : Text) (c : UInt8) : Text := ⟨k.s + 1, k.writes ++ [(k.s, c)]⟩

def stringSink : Sink Text where
  out1 k ch := k.store (charByte ch)
  outs k p := ⟨k.s + p.length, k.writes ++ placed k.s p⟩
  conv k out extraCh := ⟨k.s + extraCh, k.writes ++ placed k.s (out.take intMax)⟩

/-- A call that hands a stream something. -/
inductive Put
  | putc (ch : Int)
  | puts (s : Bytes)

/-- The calls so far. -/
def fileSink : Sink (List Put) where
  out1 k ch := k ++ [.putc ch]
  outs k p := k ++ [.puts p]
  conv k out _ := k ++ out.map (fun b => .putc b.toNat)

/-- The bytes a call hands over. -/
def Put.bytes : Put → Bytes
  | .putc ch => [charByte ch]
  | .puts s => s

/-- `__fputc()` and `__fputs()`. -/
def Put.on (fp : File) : Put → File
  | .putc ch => (fp.fputc ch).2
  | .puts s => (fp.fputs s).2

structure Line (κ : Type) where
  sink : κ
  chcount : Int
  stores : List Store
  taken : Nat
  format : Bytes

/-- `onespec()`, from the character behind the `%`. The format is left where the
loop's `format++` brings it. -/
def onespec {κ : Type} (K : Sink κ) (E : Env) (l : Line κ) : Line κ :=
  let c := cur l.format
  let next := l.format.tail
  let word := E.word l.taken
  if c = ebcdic 'd' then
    let digits := decText word
    {l with
      sink := digits.foldl (fun k b => K.out1 k b.toNat) l.sink
      chcount := toLong (l.chcount + digits.length), taken := l.taken + 1, format := next}
  else if isCvtConv c then
    let numbuf := (E.dblcvt (E.pair l.taken) c).1
    {l with
      sink := K.outs l.sink numbuf
      chcount := toLong (l.chcount + numbuf.length), taken := l.taken + 2, format := next}
  else if c = ebcdic 's' then
    let vcptr := E.string word
    {l with
      sink := K.outs l.sink vcptr
      chcount := toLong (l.chcount + vcptr.length), taken := l.taken + 1, format := next}
  else if c = ebcdic 'c' then
    {l with
      sink := K.out1 l.sink word.toInt
      chcount := toLong (l.chcount + 1), taken := l.taken + 1, format := next}
  else if c = ebcdic 'n' then
    {l with stores := l.stores ++ [⟨word, 32, l.chcount⟩], taken := l.taken + 1, format := next}
  else if c = ebcdic '%' then
    {l with
      sink := K.out1 l.sink (ebcdic '%').toNat
      chcount := toLong (l.chcount + 1), format := next}
  else
    let r := examin E l.format l.taken l.chcount
    ⟨K.conv l.sink r.out r.extraCh, toLong (l.chcount + r.extraCh), l.stores ++ r.stores, r.taken, r.rest⟩

/-- One turn of the loop of `vvprintf()`. -/
def lineTurn {κ : Type} (K : Sink κ) (E : Env) (l : Line κ) : Turn (Line κ) (Line κ) :=
  match l.format with
  | [] => .leave l
  | c :: f =>
    if c = ebcdic '%' then .again (onespec K E {l with format := f})
    else
      .again {l with
        sink := K.out1 l.sink c.toNat
        chcount := toLong (l.chcount + 1), format := f}

/-- The loop of `vvprintf()`. Every turn uses up a byte of the format. -/
def vvprintf {κ : Type} (K : Sink κ) (E : Env) (format : Bytes) (k : κ) : Line κ :=
  run id (lineTurn K E) (format.length + 1) ⟨k, 0, [], 0, format⟩

/-- What is printed into a string. -/
structure Printed where
  count : Int
  stores : List Store
  writes : List (Int × UInt8)

/-- `vsprintf()` -/
def vsprintf (E : Env) (format : CString) : Printed :=
  let l := vvprintf stringSink E format.1 ⟨0, []⟩
  ⟨l.chcount, l.stores, l.sink.writes ++ if 0 ≤ l.chcount then [(l.chcount, 0)] else []⟩

/-- `vfprintf()`: the calls it makes, its answer, what it stores, the stream after it. -/
def vfprintf (E : Env) (fp : File) (format : CString) : List Put × Int × List Store × File :=
  if !fp.write then ([], -1, [], fp.withErrno .ebadf)
  else
    let l := vvprintf fileSink E format.1 []
    let fp := l.sink.foldl Put.on fp
    (l.sink, if fp.error then -1 else l.chcount, l.stores, fp)

/-! ### `vsnprintf()` -/

structure Bounded where
  text : Text
  chcount : Int
  stores : List Store
  taken : Nat
  format : Bytes

/-- `if (chcount < lim) outch(c); chcount++;` -/
def Bounded.out (lim : Int) (b : Bounded) (c : UInt8) : Bounded :=
  {b with
    text := if b.chcount < lim then b.text.store c else b.text
    chcount := toLong (b.chcount + 1)}

/-- `if (chcount < lim) s++; chcount++;` as often as `__examin()` says. -/
def Bounded.stepOver (lim : Int) : Nat → Bounded → Bounded
  | 0, b => b
  | i + 1, b =>
    stepOver lim i {b with
      text := if b.chcount < lim then {b.text with s := b.text.s + 1} else b.text
      chcount := toLong (b.chcount + 1)}

/-- A format sequence, from the character behind the `%`. -/
def Bounded.sequence (lim : Int) (E : Env) (b : Bounded) : Bounded :=
  let c := cur b.format
  let next := b.format.tail
  let word := E.word b.taken
  if c = ebcdic 'd' then
    {(decText word).foldl (Bounded.out lim) b with taken := b.taken + 1, format := next}
  else if isCvtConv c then
    {(E.dblcvt (E.pair b.taken) c).1.foldl (Bounded.out lim) b with taken := b.taken + 2, format := next}
  else if c = ebcdic 's' then
    {(E.string word).foldl (Bounded.out lim) b with taken := b.taken + 1, format := next}
  else if c = ebcdic 'c' then
    {b.out lim (charByte word.toInt) with taken := b.taken + 1, format := next}
  else if c = ebcdic 'n' then
    {b with stores := b.stores ++ [⟨word, 32, b.chcount⟩], taken := b.taken + 1, format := next}
  else if c = ebcdic '%' then {b.out lim (ebcdic '%') with format := next}
  else
    let left := max 0 (toLong (lim - b.chcount))
    let r := examin E b.format b.taken b.chcount
    let text := {b.text with writes := b.text.writes ++ placed b.text.s (r.out.take left.toNat)}
    stepOver lim r.extraCh.toNat {b with
      text := text
      stores := b.stores ++ r.stores, taken := r.taken, format := r.rest}

def boundedTurn (lim : Int) (E : Env) (b : Bounded) : Turn Bounded Bounded :=
  match b.format with
  | [] => .leave b
  | c :: f =>
    if c = ebcdic '%' then .again (Bounded.sequence lim E {b with format := f})
    else .again {b.out lim c with format := f}

/-- The content budget: one byte is for the NUL. -/
def budget (n : Nat) : Int := if n = 0 then 0 else min (n - 1) intMax

/-- `vsnprintf()` -/
def vsnprintf (E : Env) (n : Nat) (format : CString) : Printed :=
  let b := run id (boundedTurn (budget n) E) (format.1.length + 1) ⟨⟨0, []⟩, 0, [], 0, format.1⟩
  ⟨b.chcount, b.stores, b.text.writes ++ if 0 < n then [(b.text.s, 0)] else []⟩

end Libc370.Printf
