import Libc370.Jes2.Intxt
import Libc370.Jes2.Jesprint
import Libc370.Mvs.Dsalc

/-! The statements of a job, read for the names of its data sets (`jesjob.c`).

`process_intxt()` follows the chain of blocks of the internal text and has each one walked
by `__jesprb()`, with `intxt_emit()` for the callback: a line is one statement. An EXEC
statement says in which step the statements behind it are, a DD statement which data set
of the spool it is for, and that data set gets its names.

What a statement leaves is kept in the context of the walk, and in the job. A store
outside a field makes the whole walk `none`. -/
namespace Libc370.Jesjob

open Jes2 (read write field Emit Scan Spool)

/-! ### Strings -/

/-- The string of a field, which has to end within it. -/
def cstr (f : List UInt8) : Option (List UInt8) := if 0 ∈ f then some (f.takeWhile (· ≠ 0)) else none

/-- `strcpy()`. -/
def strcpy (dst src : List UInt8) : Option (List UInt8) := do
  let s ← cstr src
  write dst 0 (s ++ [0])

/-- `strrchr()`: what is behind the last `c`. -/
def strrchr (s : List UInt8) (c : UInt8) : Option (List UInt8) :=
  if c ∈ s then some (s.reverse.takeWhile (· ≠ c)).reverse else none

/-! ### Data sets -/

def FLAG_JES2 : UInt8 := 0x80
def FLAG_SYSOUT : UInt8 := 0x40
def FLAG_SYSIN : UInt8 := 0x20

/-- `JESDD`, zeroed. -/
structure Jesdd where
  ddname : List UInt8 := List.replicate 9 0
  stepname : List UInt8 := List.replicate 9 0
  procstep : List UInt8 := List.replicate 9 0
  dsname : List UInt8 := List.replicate 45 0
  oclass : UInt8 := 0
  recfm : UInt8 := 0
  flag : UInt8 := 0
  mttr : Nat := 0
  records : Nat := 0
  lrecl : Nat := 0
  dsid : Nat := 0
  deriving DecidableEq, Repr

/-- The number behind `.SO` or `.SI` at the end of a data set's name, unless it is 0. -/
def dsidOf (kind : Char) (dsname : List UInt8) : Option Nat := do
  let p ← strrchr dsname (ebcdic '.')
  if p[0]? ≠ some (ebcdic 'S') ∨ p[1]? ≠ some (ebcdic kind) then none
  else
    let dsid := (Dynalloc.atoi (p.drop 2) % 2 ^ 16).toNat
    if dsid = 0 then none else some dsid

/-- The first data set with the number. -/
def atDsid (dsid : Nat) (f : Jesdd → Option Jesdd) : List Jesdd → Option (List Jesdd)
  | [] => some []
  | dd :: dds => if dd.dsid = dsid then (f dd).map (· :: dds) else (atDsid dsid f dds).map (dd :: ·)

/-- The names that a DD statement has for a data set: its own, and those of the step. -/
structure Names where
  ddname : List UInt8
  dsname : List UInt8
  stepname : List UInt8
  procstep : List UInt8

/-- The names are copied. -/
def Jesdd.named (names : Names) (dd : Jesdd) : Option Jesdd := do
  let ddname ← strcpy dd.ddname names.ddname
  let stepname ← strcpy dd.stepname names.stepname
  let procstep ← strcpy dd.procstep names.procstep
  let dsname ← strcpy dd.dsname names.dsname
  return {dd with ddname, stepname, procstep, dsname}

/-- `process_sysout()` and `process_sysin()`: the data set that the statement is for gets its
names, and what else `set` has. -/
def processNames (kind : Char) (set : Jesdd → Jesdd) (jesdd : List Jesdd) (names : Names) : Option (List Jesdd) := do
  let dsname ← cstr names.dsname
  match dsidOf kind dsname with
  | none => return jesdd
  | some dsid => atDsid dsid (fun dd => (dd.named names).map set) jesdd

/-- `process_sysout()`: the class is set where there is none. -/
def processSysout (jesdd : List Jesdd) (names : Names) (sysout : List UInt8) : Option (List Jesdd) := do
  let class₀ ← sysout.head?
  processNames 'O' (fun dd => {dd with oclass := if dd.oclass = 0 then class₀ else dd.oclass, flag := FLAG_SYSOUT})
    jesdd names

/-- `process_sysin()`. -/
def processSysin (jesdd : List Jesdd) (names : Names) : Option (List Jesdd) :=
  processNames 'I' (fun dd => {dd with flag := FLAG_SYSIN}) jesdd names

/-! ### Statements -/

def JOBSTR : UInt8 := 0x01
def EXECSTR : UInt8 := 0x02
def DDSTR : UInt8 := 0x04
def ETXPROC : UInt8 := 0x08

/-- `INTXTCTX`, and of the job what it points to. -/
structure Ctx where
  owner : List UInt8
  jesdd : List Jesdd
  count : Nat
  jobname : List UInt8 := List.replicate 12 0
  userid : List UInt8 := List.replicate 12 0
  stepname : List UInt8 := List.replicate 12 0
  procstep : List UInt8 := List.replicate 12 0
  program : List UInt8 := List.replicate 12 0
  ddname : List UInt8 := List.replicate 12 0
  dsname : List UInt8 := List.replicate 56 0
  sysout : List UInt8 := List.replicate 8 0
  sysin : Nat := 0

/-- What is in `name` and `proc` when `intxt_emit()` comes to an EXEC statement. -/
structure Frame where
  name : Field 12
  proc : Field 12

/-- A JOB statement. -/
def jobStatement (text : List UInt8) (ctx : Ctx) : Option (Ctx × Int) := do
  let f ← processJob text ⟨ctx.jobname, ctx.userid⟩
  let first ← f.userid.head?
  let owner ← if first ≠ 0 then strcpy ctx.owner f.userid else some ctx.owner
  return ({ctx with jobname := f.jobname, userid := f.userid, owner}, if ctx.count = 0 then -1 else 0)

/-- An EXEC statement: from a procedure it names the procstep. -/
def execStatement (frame : Frame) (text : List UInt8) (ctx : Ctx) : Option (Ctx × Int) := do
  let f ← processExec text ⟨frame.name.1, frame.proc.1, ctx.program⟩
  let indicators ← text[3]?
  if indicators &&& ETXPROC ≠ 0 then
    let procstep ← strcpy ctx.procstep f.stepname
    return ({ctx with program := f.program, procstep}, 0)
  else
    let stepname ← strcpy ctx.stepname f.stepname
    let procstep ← clear ctx.procstep
    return ({ctx with program := f.program, stepname, procstep}, 0)

/-- The names that a data set would get now. -/
def Ctx.names (ctx : Ctx) : Names := ⟨ctx.ddname, ctx.dsname, ctx.stepname, ctx.procstep⟩

/-- `process_sysout()`, where the DD is for SYSOUT. -/
def Ctx.sysoutNames (ctx : Ctx) (jesdd : List Jesdd) : Option (List Jesdd) := do
  let first ← ctx.sysout.head?
  if first ≠ 0 then processSysout jesdd ctx.names ctx.sysout else some jesdd

/-- `process_sysin()`, where the DD is for SYSIN. -/
def Ctx.sysinNames (ctx : Ctx) (jesdd : List Jesdd) : Option (List Jesdd) :=
  if ctx.sysin ≠ 0 then processSysin jesdd ctx.names else some jesdd

/-- A DD statement. -/
def ddStatement (text : List UInt8) (ctx : Ctx) : Option (Ctx × Int) := do
  let f ← processDD text ⟨ctx.ddname, ctx.dsname, ctx.sysout, ctx.sysin⟩
  let ctx := {ctx with ddname := f.ddname, dsname := f.dsname, sysout := f.sysout, sysin := f.sysin}
  let jesdd ← ctx.sysoutNames ctx.jesdd
  let jesdd ← ctx.sysinNames jesdd
  return ({ctx with jesdd}, 0)

/-- `intxt_emit()`. `__TXTPRE` and `__EXECSTR` are four bytes. -/
def intxtEmit (frame : Frame) (text : List UInt8) (ctx : Ctx) : Option (Ctx × Int) :=
  if text.length < 4 then some (ctx, 0)
  else do
    let strindcs ← text[2]?
    let kind := strindcs &&& 0x0F
    if kind = JOBSTR then jobStatement text ctx
    else if kind = EXECSTR then execStatement frame text ctx
    else if kind = DDSTR then ddStatement text ctx
    else return (ctx, 0)

/-- The context behind a statement; one that is lost stays so. -/
def emitLine (frame : Frame) (s : Option Ctx) (text : List UInt8) : Option Ctx × Int :=
  match s.bind (intxtEmit frame text) with
  | none => (none, -1)
  | some (ctx, rc) => (some ctx, rc)

/-- `intxt_emit()` as a callback: it leaves the line as it is. -/
def emit (frame : Frame) : Emit (Option Ctx) where
  call s _ _ line := ((emitLine frame s line).1, line, (emitLine frame s line).2)
  keeps _ _ _ _ := rfl

/-! ### `process_intxt()` -/

def PDBINTXT : Nat := 5

/-- The variables of `process_intxt()`, and the reads of the spool so far. -/
structure TextWalk where
  mttr : Nat
  reads : Nat
  blocks : Nat := 0
  buf : List UInt8
  x : Scan (Option Ctx)

section Walk

variable (frame : Frame) (calloc : Nat → Bool) (js : Spool) (jobkey : Nat)

/-- A block that has been read. -/
def textBlock (w : TextWalk) : Option (Loop.Turn TextWalk TextWalk) := do
  let key ← field w.buf 4 4
  if key ≠ jobkey then return .leave w
  else
    let dsid ← field w.buf 8 2
    if dsid ≠ PDBINTXT then return .leave w
    else
      let (rc, x) ← Jes2.jesprb (emit frame) calloc w.buf w.x
      let w := {w with buf := x.blk, x}
      if rc < 0 then return .leave w
      else
        let next ← field w.buf 0 4
        return .again {w with mttr := next}

/-- The next block of the chain. -/
def nextText (w : TextWalk) : Option (Loop.Turn TextWalk TextWalk) :=
  if w.mttr = 0 then some (.leave w)
  else if w.blocks ≥ Jes2.maxBlk then some (.leave {w with blocks := w.blocks + 1})
  else
    let w := {w with blocks := w.blocks + 1, reads := w.reads + 1}
    match js.read (w.reads - 1) w.mttr w.buf with
    | none => some (.leave w)
    | some buf => textBlock frame calloc jobkey {w with buf}

def textTurn (w : TextWalk) : Loop.Turn TextWalk (Option TextWalk) :=
  match nextText frame calloc js jobkey w with
  | none => .leave none
  | some (.again w) => .again w
  | some (.leave w) => .leave (some w)

/-- `process_intxt()`: the reads of the spool, and what has become of the job's owner and data sets. -/
def processIntxt (bufsize reads mttr : Nat) (owner : List UInt8) (jesdd : List Jesdd) : Option (Nat × Ctx) := do
  let ctx : Ctx := {owner, jesdd, count := jesdd.length}
  let w ← Loop.run (fun _ => none) (textTurn frame calloc js jobkey) (Jes2.maxBlk + 1)
    {mttr, reads, buf := List.replicate bufsize 0, x := Jes2.fresh (some ctx)}
  let ctx ← w.x.s
  return (w.reads, ctx)

end Walk

end Libc370.Jesjob
