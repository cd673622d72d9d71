import Libc370.Lib.Assembly
import Libc370.Lib.Bytes
import Libc370.Lib.Loop

/-! The records of a JES2 spool block (`__jesprb()`).

A block is a list of print records behind a header of 10 bytes. A record is a line, or
a part of a line that spans records and blocks: the FIRST part announces the length of
the whole, and the parts are put together in `prbuf`. Nothing in a block is trusted.

Storage is read and written through `read` and `write`, which fail outside the block or
the buffer; a walk that comes to a result has stayed inside. The callback may do what
it likes with the bytes of the line it is given, and with nothing else. `calloc()`
fails for the sizes it fails for: one walk never asks for the same size twice.

A walk keeps a history of two things, which decides nothing: the parts it has taken into
`prbuf`, and the calls of the callback. -/
namespace Libc370.Jes2

open Bytes

/-- `JESPRB_*`. -/
inductive Reason
  | ok
  | stopped
  | nobuf
  | nomem
  | trunc
  deriving DecidableEq

/-- `JESPRB`. -/
structure Jesprb where
  prbuf : Option (List UInt8) := none
  blksize : Nat := 0
  total : Nat := 0
  linelen : Nat := 0
  lines : Nat := 0
  reason : Reason := .ok
  prtrc : Int := 0
  assembling : Bool := false
  cc : Nat := 0
  spancc : Nat := 0

/-- What the line pointer of a callback points into. -/
inductive Place
  | block (d : Nat)
  | prbuf
  deriving DecidableEq

/-- A call of the callback: the line's place, its control byte, and its bytes. -/
structure Call where
  place : Place
  cc : Nat
  line : List UInt8

/-- A callback, with a state of its own: it is told where the line is, its control byte
and its bytes, and leaves as many bytes there and a return code. -/
structure Emit (σ : Type) where
  call : σ → Place → Nat → List UInt8 → σ × List UInt8 × Int
  keeps : ∀ s place cc line, (call s place cc line).2.1.length = line.length

/-- The variables of a walk: the block and the record, what outlives the block, and the
history. -/
structure Scan (σ : Type) where
  blk : List UInt8
  p : Nat
  pb : Jesprb
  s : σ
  taken : List (Piece UInt8) := []
  handed : List Call := []

def read (l : List UInt8) (o n : Nat) : Option (List UInt8) := if o + n ≤ l.length then some (window l o n) else none

def write (l : List UInt8) (o : Nat) (bs : List UInt8) : Option (List UInt8) :=
  if o + bs.length ≤ l.length then some (patch l o bs) else none

/-- An `unsigned short` of the block. -/
def halfword (l : List UInt8) (o : Nat) : Option Nat := (read l o 2).map number

/-- `ccval`. -/
def ccval (flags byte : UInt8) : Nat := (flags &&& 0xE0).toNat <<< 8 ||| byte.toNat

/-- `spancc` of a FIRST part: the control byte is not read when it lies behind the block. -/
def spanCc (blk : List UInt8) (flags : UInt8) (d : Nat) : Option Nat :=
  if flags &&& 0x80 ≠ 0 ∧ d < blk.length then (ccval flags) <$> blk[d]? else some 0

/-- `cc` of a line: the byte in front of it. -/
def lineCc (blk : List UInt8) (flags : UInt8) (d : Nat) : Option Nat :=
  if flags &&& 0x80 ≠ 0 then (ccval flags) <$> blk[d - 1]? else some 0

variable {σ : Type} (emit : Emit σ) (calloc : Nat → Bool)

/-- `emit()` of a line of the block. -/
def emitBlk (x : Scan σ) (d n : Nat) : Option (Int × Scan σ) := do
  let line ← read x.blk d n
  let (s, line', rc) := emit.call x.s (.block d) x.pb.cc line
  let blk ← write x.blk d line'
  return (rc, { x with blk, s, handed := x.handed ++ [⟨.block d, x.pb.cc, line⟩] })

/-- `emit()` of what is in `prbuf`. -/
def emitBuf (x : Scan σ) : Option (Int × Scan σ) := do
  let buf ← x.pb.prbuf
  let line ← read buf 0 x.pb.linelen
  let (s, line', rc) := emit.call x.s .prbuf x.pb.cc line
  let buf ← write buf 0 line'
  return (rc, { x with
    pb := { x.pb with prbuf := some buf }, s, handed := x.handed ++ [⟨.prbuf, x.pb.cc, line⟩] })

/-- `giveup()` hands out what is there of an open line. -/
def fragment (x : Scan σ) : Option (Int × Scan σ) :=
  if x.pb.assembling && x.pb.linelen != 0 then
    emitBuf emit { x with pb := { x.pb with lines := x.pb.lines + 1, cc := x.pb.spancc } }
  else some (0, x)

/-- `giveup()`. -/
def giveup (reason : Reason) (x : Scan σ) : Option (Int × Scan σ) := do
  let (rc, x) ← fragment emit x
  let pb := { x.pb with linelen := 0, assembling := false }
  if rc < 0 then return (-1, { x with pb := { pb with reason := .stopped, prtrc := rc } })
  else return (0, { x with pb := { pb with reason } })

/-- The buffer for a line of `newblock` bytes; it only grows. An error is the null pointer. -/
def grow (newblock : Nat) (pb : Jesprb) : Except Jesprb Jesprb :=
  if pb.blksize < newblock then
    if calloc (newblock + 4) then
      .ok { pb with blksize := newblock, prbuf := some (List.replicate (newblock + 4) 0) }
    else
      .error { pb with blksize := newblock, prbuf := none, linelen := 0, assembling := false, reason := .nomem }
  else .ok pb

/-- The line of a LAST part goes out. -/
def lastPart (next : Nat) (x : Scan σ) : Option (Loop.Turn (Scan σ) (Int × Scan σ)) := do
  let lines := if x.pb.linelen ≠ 0 then x.pb.lines + 1 else x.pb.lines
  let (rc, x) ← emitBuf emit { x with pb := { x.pb with lines, cc := x.pb.spancc } }
  if rc < 0 then return .leave (-1, { x with pb := { x.pb with reason := .stopped, prtrc := rc } })
  else return .again { x with p := next, pb := { x.pb with linelen := 0, assembling := false } }

/-- A part goes into the buffer. -/
def takePart (flags : UInt8) (d len2 : Nat) (x : Scan σ) : Option (Loop.Turn (Scan σ) (Int × Scan σ)) := do
  let data ← read x.blk d len2
  let buf ← x.pb.prbuf
  let buf ← write buf x.pb.linelen data
  let x := { x with
    pb := { x.pb with prbuf := some buf, linelen := x.pb.linelen + len2 }
    taken := x.taken ++ [⟨flags &&& 0x08 != 0, data⟩] }
  if flags &&& 0x02 ≠ 0 then lastPart emit (d + len2) x else return .again { x with p := d + len2 }

/-- A part of a line, with its data at `d`, if there is a line for it to be a part of. -/
def spanPart (flags : UInt8) (d : Nat) (x : Scan σ) : Option (Loop.Turn (Scan σ) (Int × Scan σ)) :=
  if x.pb.prbuf.isNone || !x.pb.assembling then .leave <$> giveup emit .nobuf x
  else do
    let len2 ← halfword x.blk (x.p + 2)
    if x.blk.length < d + len2 then .leave <$> giveup emit .trunc x
    else if x.pb.total < x.pb.linelen + len2 then .leave <$> giveup emit .nobuf x
    else takePart emit flags d len2 x

/-- A spanned record. A FIRST part opens a line. -/
def span (flags : UInt8) (x : Scan σ) : Option (Loop.Turn (Scan σ) (Int × Scan σ)) :=
  if x.blk.length < x.p + 4 then .leave <$> giveup emit .trunc x
  else if flags &&& 0x08 ≠ 0 then
    if x.blk.length < x.p + 4 + 2 then .leave <$> giveup emit .trunc x
    else do
      let newblock ← halfword x.blk (x.p + 4)
      match grow calloc newblock x.pb with
      | .error pb => return .leave (-1, { x with pb })
      | .ok pb =>
        let d := x.p + 4 + 2
        let spancc ← spanCc x.blk flags d
        let pb := { pb with total := newblock, linelen := 0, assembling := true, spancc }
        spanPart emit flags (if flags &&& 0x80 ≠ 0 then d + 1 else d) { x with pb }
  else spanPart emit flags (x.p + 4) x

/-- The line of a record goes out. -/
def plainLine (len flags : UInt8) (d : Nat) (x : Scan σ) : Option (Loop.Turn (Scan σ) (Int × Scan σ)) := do
  let cc ← lineCc x.blk flags d
  let lines := if len ≠ 0 then x.pb.lines + 1 else x.pb.lines
  let (rc, x) ← emitBlk emit { x with pb := { x.pb with cc, lines } } d len.toNat
  if rc < 0 then return .leave (-1, { x with pb := { x.pb with reason := .stopped, prtrc := rc } })
  else return .again { x with p := d + len.toNat }

/-- A record that is a line. -/
def plain (len flags : UInt8) (x : Scan σ) : Option (Loop.Turn (Scan σ) (Int × Scan σ)) :=
  let d := if flags &&& 0x80 ≠ 0 then x.p + 3 + 1 else x.p + 3
  if x.blk.length < d + len.toNat then .leave <$> giveup emit .trunc x else plainLine emit len flags d x

/-- A record, or the end of the block. -/
def record (x : Scan σ) : Option (Loop.Turn (Scan σ) (Int × Scan σ)) :=
  if x.blk.length < x.p + 3 then some (.leave (0, x))
  else do
    let len ← x.blk[x.p]?
    if len = 0xFF then return .leave (0, x)
    let flags ← x.blk[x.p + 1]?
    if flags &&& 0x10 ≠ 0 then span emit calloc flags x else plain emit len flags x

/-- The loop of `__jesprb()`: `none` where storage is missed. -/
def recordTurn (x : Scan σ) : Loop.Turn (Scan σ) (Option (Int × Scan σ)) :=
  match record emit calloc x with
  | none => .leave none
  | some (.again x) => .again x
  | some (.leave r) => .leave (some r)

/-- Where `__jesprb()` begins with a block. -/
def start (blk : List UInt8) (x : Scan σ) : Scan σ := { x with blk, p := 10, pb := { x.pb with reason := .ok } }

/-- `__jesprb()`: its value, and what it leaves. A turn goes on by 3 bytes or more. -/
def jesprb (blk : List UInt8) (x : Scan σ) : Option (Int × Scan σ) :=
  Loop.run (fun _ => none) (recordTurn emit calloc) (blk.length + 1) (start blk x)

/-- The states in which it comes to a record. -/
def recordStates (blk : List UInt8) (x : Scan σ) : List (Scan σ) :=
  Loop.trail (recordTurn emit calloc) (blk.length + 1) (start blk x)

/-- The walk over successive blocks, with one `JESPRB`, until it has to stop. -/
def jesprbChain : List (List UInt8) → Scan σ → Option (Int × Scan σ)
  | [], x => some (0, x)
  | blk :: rest, x => do
    let (rc, x) ← jesprb emit calloc blk x
    if rc < 0 then return (rc, x) else jesprbChain rest x

/-- The states in which it comes to a record, block by block. -/
def chainStates : List (List UInt8) → Scan σ → List (Scan σ)
  | [], _ => []
  | blk :: rest, x =>
    recordStates emit calloc blk x ++
      match jesprb emit calloc blk x with
      | some (rc, x) => if rc < 0 then [] else chainStates rest x
      | none => []

end Libc370.Jes2
