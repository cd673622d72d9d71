import Libc370.Lib.Loop
import Libc370.Stdio.File

/-! Spanned records (`@@awrite.asm`, `@@aread.asm`, `@@atrout.asm`).

`@@AWRITE` puts a record of a spanned data set (VS, VBS) into the block it builds, or cuts
it into segments where it does not fit; `@@ATROUT` writes the block. `@@AREAD` takes the
blocks apart and puts the segments together again. A block is its bytes, with the block
descriptor word (BDW) in front. The block that is being built is what stands behind the
BDW up to `BUFFCURR`, `none` when `BUFFCURR` is 0; the BDW, which every `STH` keeps up to
date, is put in front when the block is written. Lengths are halfwords. -/
namespace Libc370.Bsam

open Stdio (Bytes rdw rdwLength)
open Loop

/-- What the open of a spanned data set leaves in the DCB. -/
structure Dcb where
  blksize : Nat
  lrecl : Nat
  /-- RECFM=VBS, not VS. -/
  blocked : Bool
  /-- No device takes a longer block. -/
  blksize_le : blksize ≤ 32760

inductive Fault | abend002 | abend1234 | stuck
  deriving DecidableEq, Repr

/-- `LH`: a halfword with its sign. -/
def halfword (b : Bytes) : Int := (rdwLength b : Int).bmod (2 ^ 16)

/-- A segment descriptor word. -/
def sdw (n : Nat) (flag : UInt8) : Bytes := [UInt8.ofNat (n / 256), UInt8.ofNat (n % 256), flag, 0]

/-- A record as it is handed to `@@AWRITE` and by `@@AREAD`: its RDW, and the data. -/
def record (data : Bytes) : Bytes := rdw (4 + data.length) ++ data

/-! ### `@@AWRITE` -/

/-- The data set, and the block that is being built. -/
structure Output where
  blocks : List Bytes
  curr : Option Bytes
  deriving DecidableEq, Repr

/-- `@@ATROUT`: the block is written, if there is anything in it. -/
def Output.atrout (o : Output) : Output :=
  match o.curr with
  | none => o
  | some b =>
    let bdw := 4 + b.length
    ⟨if bdw ≤ 8 then o.blocks else o.blocks ++ [rdw bdw ++ b], none⟩

def Output.withCurr (o : Output) (b : Bytes) : Output := {o with curr := some b}

/-- A pass from `WRITMORE` on: the record, or the rest of it with 4 bytes in front, and
whether it is the rest (`IOFLSDW`). -/
structure Pass where
  area : Bytes
  lsdw : Bool
  out : Output

/-- The record is complete: an unblocked data set has its block written at once. -/
def Dcb.complete (d : Dcb) (o : Output) : Output := if d.blocked then o else o.atrout

def Dcb.awriteTurn (d : Dcb) (x : Pass) : Turn Pass (Except Fault Output) :=
  let curr := x.out.curr.getD []
  let used := 4 + curr.length
  if !x.lsdw ∧ halfword x.area ≠ x.area.length then .leave (.error .abend002)
  else if d.lrecl < 4 + x.area.length then .leave (.error .abend002)
  else if !x.lsdw ∧ used + x.area.length ≤ d.blksize then
    .leave (.ok (d.complete (x.out.withCurr (curr ++ x.area))))
  else if d.blksize < used + 5 then
    -- too little is left for a segment
    .again {x with out := (x.out.withCurr curr).atrout}
  else
    let n := min (d.blksize - used) x.area.length
    let rest := x.area.drop n
    let flag : UInt8 := if rest = [] then 2 else if x.lsdw then 3 else 1
    let out := x.out.withCurr (curr ++ sdw n flag ++ (x.area.take n).drop 4)
    -- the next segment starts 4 bytes back, where its SDW goes
    if rest = [] then .leave (.ok (d.complete out)) else .again ⟨x.area.drop (n - 4), true, out.atrout⟩

/-- `@@AWRITE`. A pass writes a block or takes a byte or more off the record. -/
def Dcb.awrite (d : Dcb) (o : Output) (rec : Bytes) : Except Fault Output :=
  run (fun _ => .error .stuck) d.awriteTurn (2 * rec.length + 2) ⟨rec, false, o⟩

/-- Records written one after the other. -/
def Dcb.awrites (d : Dcb) (o : Output) (recs : List Bytes) : Except Fault Output := recs.foldlM d.awrite o

/-- The blocks of a data set that is written and closed (`@@ACLOSE`). -/
def Dcb.written (d : Dcb) (recs : List Bytes) : Except Fault (List Bytes) :=
  match d.awrites ⟨[], none⟩ recs with
  | .ok o => .ok o.atrout.blocks
  | .error f => .error f

/-! ### `@@AREAD` -/

/-- The blocks still to be read, what is left of the current one from `BUFFCURR` on, and
the record that is put together at `VBSADDR`, behind its RDW. -/
structure Input where
  blocks : List Bytes
  curr : Option Bytes
  lsdw : Bool
  vbs : Bytes

def Input.withCurr (i : Input) (b : Option Bytes) : Input := {i with curr := b}

def Input.withLsdw (i : Input) (b : Bool) : Input := {i with lsdw := b}

/-- `BADBLOCK`. -/
def bad {σ : Type} : Turn σ (Except Fault (Option Bytes × σ)) := .leave (.error .abend1234)

/-- `DEBVMOVE`: the data of a segment goes behind what there is of the record. -/
def Dcb.debvmove (d : Dcb) (i : Input) (data : Bytes) : Turn Input (Except Fault (Option Bytes × Input)) :=
  let vbs := i.vbs ++ data
  if d.lrecl < 4 + vbs.length then bad
  else
    let i := {i with vbs := vbs}
    if i.lsdw then .again i else .leave (.ok (some (record vbs), i))

/-- `DEBLOCKV`, at the record `r`. -/
def Dcb.deblockv (d : Dcb) (i : Input) (r : Bytes) : Turn Input (Except Fault (Option Bytes × Input)) :=
  let len := halfword r
  let n := len.toNat
  if r.headD 0 = 0x80 then .again (i.withCurr (some r))
  else if len < 4 ∨ (d.lrecl : Int) < len ∨ r.length < n then bad
  else if r.getD 3 0 ≠ 0 then bad
  else
    let i := i.withCurr (if n < r.length then some (r.drop n) else none)
    let flag := r.getD 2 0
    let data := (r.take n).drop 4
    if i.lsdw then
      if flag = 3 then d.debvmove i data
      else if flag = 2 then d.debvmove (i.withLsdw false) data
      else bad
    else if flag = 0 then .leave (.ok (some (r.take n), i))
    else if flag = 1 then d.debvmove {i.withLsdw true with vbs := []} data
    else bad

def Dcb.areadTurn (d : Dcb) (i : Input) : Turn Input (Except Fault (Option Bytes × Input)) :=
  match i.curr with
  | some r => d.deblockv i r
  | none =>
    match i.blocks with
    | [] => .leave (.ok (none, i))
    | b :: bs =>
      let bdw := rdwLength b
      if d.blksize < bdw ∨ b.getD 2 0 ≠ 0 ∨ b.getD 3 0 ≠ 0 ∨ bdw ≤ 4 then bad
      else
        let r := (b.take bdw).drop 4
        d.deblockv {i with blocks := bs, curr := some r} r

/-- A number of turns that `@@AREAD` comes to an end in: each takes a segment off. -/
def Input.size (i : Input) : Nat := i.blocks.flatten.length + (i.curr.getD []).length + 1

/-- `@@AREAD`: a record, or `none` at the end. -/
def Dcb.aread (d : Dcb) (i : Input) : Except Fault (Option Bytes × Input) :=
  run (fun _ => .error .stuck) d.areadTurn i.size i

/-- The records up to the end, `fuel` calls at most. -/
def Dcb.areads (d : Dcb) : Nat → Input → Except Fault (List Bytes)
  | 0, _ => .error .stuck
  | fuel + 1, i =>
    match d.aread i with
    | .ok (some rec, i) => (d.areads fuel i).map (rec :: ·)
    | .ok (none, _) => .ok []
    | .error f => .error f

/-- The records that are read back from some blocks. -/
def Dcb.readBack (d : Dcb) (blocks : List Bytes) : Except Fault (List Bytes) :=
  d.areads (blocks.flatten.length + 1) ⟨blocks, none, false, []⟩

end Libc370.Bsam
