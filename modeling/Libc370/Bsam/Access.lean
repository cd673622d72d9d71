import Libc370.Bsam.Spanned
import Libc370.Lib.Bytes

/-! The access method on unspanned records (`@@awrite.asm`, `@@aread.asm`, `@@atrout.asm`,
`@@aopen.asm`, `@@aclose.asm`).

`Stdio.Dcb` has a data set as its records. Here it is its blocks: `@@AWRITE` fills a
block with records of RECFM F or V and writes it when the next one does not fit, and a
record of RECFM=U is a block; `@@AREAD` takes the blocks apart again. On an UPDAT DCB
`@@AWRITE` changes the block in the buffer, under the record read last, and the block goes
back when it is left. Addresses in the buffer are offsets; `buf` starts where READ puts a
block, and what an earlier block left stays behind a shorter one. -/
namespace Libc370.Access

open Bsam (Fault Output halfword record)
open Stdio (Bytes Attr Recfm OpenMode rdw rdwLength blank)
open Loop Bytes

/-! ### What OPEN leaves -/

/-- `DCBRECFM` as far as the open exit reads it: D, V, F or U, the B and the S bit. -/
structure RecfmBits where
  kind : Option Recfm
  blocked : Bool
  spanned : Bool
  deriving DecidableEq, Repr

/-- What the open exit finds: the DCB's own values, 0 and `none` for those that are not set,
the ones `@@AOPEN` was called with, and the device. -/
structure Opening where
  dcbrecfm : Option RecfmBits
  dcblrecl : Nat
  dcbblksi : Nat
  filemode : Recfm
  lrecl : Nat
  blksize : Nat
  unitRecord : Bool
  /-- `DEVINFO+4`: the longest block of the device. -/
  devsize : Nat

/-- The `LRECL ADJUST` table, by the DCB's format (`none` is D) and the caller's. -/
def lreclAdjust : Option Recfm → Recfm → Int
  | none, .F | some .V, .F => 4
  | none, .U | some .V, .U | some .F, .V | some .U, .V => -4
  | _, _ => 0

/-- `TR ZRECFM,=X'9050C0C0'`. -/
def defaultRecfm : Recfm → RecfmBits
  | .F => ⟨some .F, true, false⟩
  | .V => ⟨some .V, true, false⟩
  | .U => ⟨some .U, false, false⟩

/-- `OCDCBFH` and before: the record format. -/
def Opening.recfm (x : Opening) : RecfmBits :=
  match x.dcbrecfm with
  | some r => r
  | none => if x.unitRecord ∧ x.filemode ≠ .F then ⟨some .U, false, false⟩ else defaultRecfm x.filemode

/-- Up to `OCDCBLH`: the record length. -/
def Opening.length (x : Opening) : Int :=
  if x.dcblrecl ≠ 0 then x.dcblrecl
  else if x.unitRecord then x.devsize
  else (if x.lrecl ≠ 0 then x.lrecl else x.devsize : Nat) + lreclAdjust x.recfm.kind x.filemode

/-- `OCDCBLH`: the block size. -/
def Opening.size (x : Opening) : Nat :=
  min (if x.dcbblksi ≠ 0 then x.dcbblksi else if x.blksize ≠ 0 then x.blksize else x.devsize) x.devsize

/-- `OCDCBEX`: the record format, the record length and the block size that OPEN takes. A
block of F records is a whole number of them, V records that do not fit are spanned. The
division by a record length that is not positive is a program check. -/
def ocdcbex (x : Opening) : Option (RecfmBits × Nat × Nat) :=
  match x.recfm.kind with
  | some .U => some (x.recfm, x.size, x.size)
  | some .F =>
    if x.length ≤ 0 then none
    else
      let n := x.length.toNat
      let q := x.size / n
      some ({x.recfm with blocked := x.recfm.blocked && 1 < q}, n, max q 1 * n)
  | _ => some ({x.recfm with spanned := x.recfm.spanned || decide ((x.size : Int) < x.length + 4)}, x.length.toNat,
      x.size)

/-- A data set whose records do not span blocks, as it is open. -/
structure Layout where
  attr : Attr
  /-- The B of FB and VB. -/
  blocked : Bool
  unspanned : attr.spanned = false
  blksize_le : attr.blksize ≤ 32760
  /-- A block is full when it has room for no more F record. -/
  fixed : attr.recfm = .F → attr.lrecl ∣ attr.blksize ∧ 0 < attr.blksize
  /-- A block has room for the longest V record. -/
  varying : attr.recfm = .V → attr.lrecl + 4 ≤ attr.blksize

/-! ### Writing -/

/-- `@@ATROUT` on an output DCB: the block that is being built goes out. -/
def Layout.atrout (L : Layout) (o : Output) : Output :=
  match L.attr.recfm with
  | .V => o.atrout
  | _ =>
    match o.curr with
    | none => o
    | some b => ⟨if b = [] then o.blocks else o.blocks ++ [b], none⟩

/-- `WRITEFIX`: a record filled with blanks, and the block once it is full. -/
def Layout.writefix (L : Layout) (o : Output) (bytes : Bytes) : Output :=
  let len := L.attr.lrecl
  let b := o.curr.getD [] ++ (bytes.take len ++ List.replicate (len - bytes.length) blank)
  if b.length < L.attr.blksize then o.withCurr b else L.atrout (o.withCurr b)

/-- A pass of `WRITEVAR`. -/
def Layout.writevarTurn (L : Layout) (bytes : Bytes) (o : Output) : Turn Output (Except Fault Output) :=
  let b := o.curr.getD []
  if halfword bytes ≠ bytes.length then .leave (.error .abend002)
  else if L.attr.blksize < bytes.length + 4 then .leave (.error .abend002)
  else if 4 + b.length + bytes.length ≤ L.attr.blksize then
    let o := o.withCurr (b ++ bytes)
    .leave (.ok (if L.blocked then o else L.atrout o))
  else .again (L.atrout (o.withCurr b))

/-- `WRITEVAR`: the record into the block, or the block out and the record into the next. -/
def Layout.writevar (L : Layout) (o : Output) (bytes : Bytes) : Except Fault Output :=
  run (fun _ => .error .stuck) (L.writevarTurn bytes) 2 o

/-- `WRITBLK`: a record of RECFM=U is a block. -/
def Layout.writblk (o : Output) (bytes : Bytes) : Output := if bytes = [] then o else ⟨o.blocks ++ [bytes], none⟩

/-- `WRITENEW` -/
def Layout.writenew (L : Layout) (o : Output) (bytes : Bytes) : Except Fault Output :=
  match L.attr.recfm with
  | .F => .ok (L.writefix o bytes)
  | .V => L.writevar o bytes
  | .U => .ok (Layout.writblk o bytes)

/-! ### Reading -/

/-- The data set and the buffer of a DCB that reads. -/
structure Reader where
  blocks : List Bytes
  /-- Blocks read since OPEN. -/
  taken : Nat
  buf : Bytes
  /-- `BUFFEND`: where the block in the buffer ends. -/
  bend : Nat
  /-- `BUFFCURR`: the next record, `none` for 0. -/
  curr : Option Nat
  /-- `KEPTREC`: place and length of the record in the buffer that was handed out last. One
  that was put together from segments is not in the buffer. -/
  kept : Option (Nat × Nat)
  /-- `IOFLDATA`: the block was changed. -/
  data : Bool
  /-- `IOFLEOF` -/
  eof : Bool
  /-- `IOFLSDW`, and what is at `VBSADDR` behind the RDW. -/
  lsdw : Bool
  vbs : Bytes
  updat : Bool

def Reader.withCurr (r : Reader) (p : Option Nat) : Reader := {r with curr := p}

def Reader.withKept (r : Reader) (k : Option (Nat × Nat)) : Reader := {r with kept := k}

def Reader.withLsdw (r : Reader) (b : Bool) : Reader := {r with lsdw := b}

/-- `READ`: a block into the buffer. -/
def Reader.fill (r : Reader) (b : Bytes) : Reader :=
  {r with taken := r.taken + 1, buf := b ++ r.buf.drop b.length}

/-- `@@ATROUT` on a DCB that reads: a changed block is written where it was read, and keeps
its length. A BDW is made that of an empty block. -/
def Layout.rewrite (L : Layout) (r : Reader) : Reader :=
  if !r.data then r
  else
    {r with
      blocks := r.blocks.modify (r.taken - 1) fun old => r.buf.take old.length
      buf := if L.attr.recfm = .V then patch r.buf 0 [0, 4] else r.buf
      curr := none
      data := false}

/-- `@@AWRITE` on an UPDAT DCB: the bytes over those of the record last read, behind its RDW;
without a record there is nothing to do. -/
def Layout.update (L : Layout) (r : Reader) (bytes : Bytes) : Reader :=
  match r.kept with
  | none => r
  | some (p, n) =>
    if n = 0 then r
    else
      let h := if L.attr.recfm = .V then 4 else 0
      let bytes := bytes.drop h
      let n := n - h
      {r with buf := patch r.buf (p + h) (bytes.take n ++ List.replicate (n - bytes.length) 0), data := true}

abbrev ReadTurn := Turn Reader (Except Fault (Option Bytes × Reader))

/-- `BADBLOCK` -/
def bad : ReadTurn := .leave (.error .abend1234)

/-- `SETCURR`: the record at `p` is handed out, and the next one is at `next`. -/
def Reader.setcurr (r : Reader) (p n next : Nat) : ReadTurn :=
  .leave (.ok (some (window r.buf p n),
    (r.withCurr (if next < r.bend then some next else none)).withKept (some (p, n))))

/-- `DEBVMOVE`: the data of a segment behind what there is of the record. -/
def Layout.debvmove (L : Layout) (r : Reader) (data : Bytes) : ReadTurn :=
  let vbs := r.vbs ++ data
  if L.attr.lrecl < 4 + vbs.length then bad
  else
    let r := {r with vbs := vbs, kept := none}
    if r.lsdw then .again r else .leave (.ok (some (record vbs), r))

/-- `DEBLOCKV`, at the record that is at `p`. -/
def Layout.deblockv (L : Layout) (r : Reader) (p : Nat) : ReadTurn :=
  let bytes := r.buf.drop p
  let len := halfword bytes
  let n := len.toNat
  if bytes.headD 0 = 0x80 then .again r
  else if len < 4 ∨ (L.attr.lrecl : Int) < len ∨ r.bend < p + n then bad
  else if bytes.getD 3 0 ≠ 0 then bad
  else
    let flag := bytes.getD 2 0
    let data := window r.buf (p + 4) (n - 4)
    let past := r.withCurr (if p + n < r.bend then some (p + n) else none)
    if r.lsdw then
      if flag = 3 then L.debvmove past data
      else if flag = 2 then L.debvmove (past.withLsdw false) data
      else bad
    else if flag = 0 then r.setcurr p n (p + n)
    else if flag = 1 then L.debvmove {past.withLsdw true with vbs := []} data
    else bad

/-- `DEBLOCK` -/
def Layout.deblock (L : Layout) (r : Reader) (p : Nat) : ReadTurn :=
  match L.attr.recfm with
  | .V => L.deblockv r p
  | _ => r.setcurr p L.attr.lrecl (p + L.attr.lrecl)

/-- `POSTREAD`: a block of U is a record, one of V has a BDW. -/
def Layout.postread (L : Layout) (r : Reader) (b : Bytes) : ReadTurn :=
  match L.attr.recfm with
  | .U => .leave (.ok (some b, (r.withCurr none).withKept (some (0, b.length))))
  | .F => if b = [] then bad else L.deblock {r with curr := some 0, bend := b.length} 0
  | .V =>
    let bdw := rdwLength b
    if L.attr.blksize < bdw ∨ b.getD 2 0 ≠ 0 ∨ b.getD 3 0 ≠ 0 ∨ bdw ≤ 4 then bad
    else L.deblock {r with curr := some 4, bend := bdw} 4

/-- `READNOUP`: the next block, or the end of the data set. -/
def Layout.readnoup (L : Layout) (r : Reader) : ReadTurn :=
  match r.blocks[r.taken]? with
  | none => .leave (.ok (none, {r.withKept none with eof := true}))
  | some b => L.postread (r.fill b) b

/-- `REREAD` -/
def Layout.areadTurn (L : Layout) (r : Reader) : ReadTurn :=
  match r.curr with
  | some p => L.deblock r p
  | none => L.readnoup (if r.updat then L.rewrite r else r)

/-- `@@AREAD`: a record, or `none` at the end. A turn that goes round takes a segment off. -/
def Layout.aread (L : Layout) (r : Reader) : Except Fault (Option Bytes × Reader) :=
  if r.eof then .ok (none, r)
  else run (fun _ => .error .stuck) L.areadTurn (r.blocks.flatten.length + 2) r

/-! ### A DCB that is opened, used and opened again -/

inductive Area
  | writing (o : Output)
  | reading (r : Reader)

/-- `@@ACLOSE`: the blocks of the data set. -/
def Layout.aclose (L : Layout) : Area → List Bytes
  | .writing o => (L.atrout o).blocks
  | .reading r => (if r.updat then L.rewrite r else r).blocks

/-- `@@AOPEN` of a data set of these blocks, with the storage that GETMAIN gives for the
buffer. -/
def aopen (blocks : List Bytes) (storage : Bytes) : OpenMode → Area
  | .output => .writing ⟨[], none⟩
  | .extend => .writing ⟨blocks, none⟩
  | .input => .reading ⟨blocks, 0, storage, 0, none, none, false, false, false, [], false⟩
  | .updat => .reading ⟨blocks, 0, storage, 0, none, none, false, false, false, [], true⟩

/-- `@@AWRITE` -/
def Layout.awrite (L : Layout) (a : Area) (bytes : Bytes) : Except Fault Area :=
  match a with
  | .writing o => (L.writenew o bytes).map .writing
  | .reading r => .ok (.reading (L.update r bytes))

end Libc370.Access
