import Libc370.Ext.Patmat
import Libc370.Int64.Strings
import Libc370.Jes2.IntxtEmit
import Libc370.Stdlib.Qsort
import Libc370.Time.Time64

/-! The jobs of JES2 and their data sets (`jesjob()`).

The checkpoint has a queue of jobs. For each of them the JCT is read from the spool, and from
the JCT two chains of IOTs lead to the PDDBs, which are the data sets; the internal text has
their names. What is read is not trusted: a PDDB has to lie in the buffer, and a data set is
listed once.

The chains of IOTs have no guard against a circle, so the model has a number of blocks it
goes along one. `missed` is a store or a read that is outside of what it is meant for. The
storage asked for is granted. -/
namespace Libc370.Jesjob

open Jes2 (read write field Spool Hct)

/-- What a run may come to instead of a result. -/
inductive Fault
  | missed
  | endless
  deriving DecidableEq, Repr

abbrev Got := Except Fault

/-- A step that is `none` where it misses its storage. -/
def got {α : Type} (x : Option α) : Got α := x.elim (.error .missed) .ok

/-! ### The checkpoint -/

def _PURGE : UInt8 := 0x00
def _FREE : UInt8 := 0xFF

/-- `JQE`. -/
structure Jqe where
  type : UInt8
  jobno : Nat
  flags : UInt8
  flag2 : UInt8
  trak : Nat
  jname : Field 8

/-- `HASPCP`: a buffer of the spool holds a JCT. -/
structure Checkpoint where
  hct : Hct
  pddb1 : Nat
  jqes : List Jqe
  jct : 0x1DC ≤ hct.bufsize

/-- `JES`. -/
structure Jes where
  cp : Option Checkpoint
  js : List Spool

/-- `JCT`, as far as it is looked at. -/
structure Jct where
  jtflg : UInt8
  jbkey : Nat
  spiot : Nat
  iot : Nat
  cnvrc : Nat
  jobfl : UInt8
  prio : UInt8
  xeqon : Nat
  xdton : Nat
  xeqof : Nat
  xdtof : Nat
  rdsid : List UInt8
  rdron : Nat
  rdton : Nat
  useid : List UInt8
  class' : UInt8

def JCTBATCH : UInt8 := 0x80
def JCTTSUJB : UInt8 := 0x40
def JCTSTCJB : UInt8 := 0x20

/-- A JCT in a buffer. -/
def jctOf (buf : List UInt8) : Option Jct := do
  let jtflg ← buf[0x07]?
  let jbkey ← field buf 0x08 4
  let spiot ← field buf 0x0C 4
  let iot ← field buf 0x10 4
  let cnvrc ← field buf 0x24 4
  let jobfl ← buf[0x3A]?
  let prio ← buf[0x63]?
  let xeqon ← field buf 0xB8 4
  let xdton ← field buf 0xBC 4
  let xeqof ← field buf 0xC0 4
  let xdtof ← field buf 0xC4 4
  let rdsid ← read buf 0xE4 4
  let rdron ← field buf 0x1AC 4
  let rdton ← field buf 0x1B0 4
  let useid ← read buf 0x1B8 8
  let class' ← buf[0x1C3]?
  return {jtflg, jbkey, spiot, iot, cnvrc, jobfl, prio, xeqon, xdton, xeqof, xdtof, rdsid, rdron, rdton, useid, class'}

/-! ### Texts -/

/-- A number in at least `n` digits (`%05u`). -/
def padded (n x : Nat) : List UInt8 :=
  List.replicate (n - (Int64.Objects.decimalText x).length) (ebcdic '0') ++ Int64.Objects.decimalText x

/-- `sprintf()` into a field. -/
def sprintf (dst text : List UInt8) : Option (List UInt8) := write dst 0 (text ++ [0])

/-- `memcpyp()` and `strcpyp()` into a field of `n` bytes. -/
def fill (n : Nat) (source : List UInt8) (pad : UInt8) : List UInt8 :=
  source.take n ++ List.replicate (n - source.length) pad

/-- `"%X"`. -/
def hexText (n : Nat) : List UInt8 :=
  ((if n = 0 then [0] else Nat.digits 16 n).reverse.map fun d => if d < 10 then ebcdic '0' + UInt8.ofNat d
    else ebcdic 'A' + UInt8.ofNat (d - 10))

/-- `make_time()`: hundredths of a second since midnight, and a packed date YYYYDDDF. -/
def makeTime (t d : Nat) : Option Int64.U64 :=
  if t = 0 ∨ d = 0 then some 0
  else do
    let year := Dynalloc.atoi (hexText (d / 2 ^ 16))
    let days := Dynalloc.atoi (hexText (d % 2 ^ 16 / 2 ^ 4))
    let result ← Time.timegm64 ⟨(t / 100 : Nat), 0, 0, days, 0, year, 0, 0, -1⟩
    return if result = BitVec.allOnes 64 then 0 else result

/-! ### PDDBs -/

def PDBINJCL : Nat := 1
def PDBOUHJL : Nat := 2
def PDBOUJCI : Nat := 3
def PDBOUMSG : Nat := 4
def PDBINJNL : Nat := 6

/-- `PDDB`, as far as it is looked at. -/
structure Pddb where
  recfm : UInt8
  lrecl : Nat
  mttr : Nat
  dskey : Nat
  class' : UInt8
  recct : Nat
  dsid : List UInt8

/-- A PDDB in a buffer. -/
def pddbAt (buf : List UInt8) (p : Nat) : Option Pddb := do
  let recfm ← buf[p + 0x01]?
  let lrecl ← field buf (p + 0x02) 2
  let mttr ← field buf (p + 0x04) 4
  let dskey ← field buf (p + 0x08) 2
  let class' ← buf[p + 0x0A]?
  let recct ← field buf (p + 0x14) 4
  let dsid ← read buf (p + 0x24) 8
  return {recfm, lrecl, mttr, dskey, class', recct, dsid}

/-- `sizeof(__PDDB)`. -/
def pddbSize : Nat := 0x68

/-- `pddb_end()`. -/
def pddbEnd (cp : Checkpoint) (off : Nat) : Nat :=
  let last := cp.hct.bufsize - pddbSize
  if off < cp.pddb1 ∨ last + 1 < off then last + 1 else off

/-- Where the PDDBs are that start in front of `stop`. -/
def pddbPlaces (cp : Checkpoint) (stop : Nat) : List Nat :=
  List.range' cp.pddb1 ((stop - cp.pddb1 + (pddbSize - 1)) / pddbSize) pddbSize

/-- The PDDBs of an IOT. -/
def pddbsOf (cp : Checkpoint) (iotbuf : List UInt8) : Option (List Pddb) := do
  let off ← field iotbuf 0x2C 4
  (pddbPlaces cp (pddbEnd cp off)).mapM (pddbAt iotbuf)

/-- The names of a data set of JES2's own. -/
def Jesdd.own (dd : Jesdd) (ddname jobid : List UInt8) (kind : String) (dskey : Nat) (flag : UInt8) : Option Jesdd := do
  let ddname ← sprintf dd.ddname ddname
  let dsname ← sprintf dd.dsname (literal "JES2." ++ jobid ++ literal kind ++ padded 4 dskey)
  return {dd with ddname, dsname, flag}

/-- The names of a data set from its PDDB, which has none for a data set of the job. SYSLOG has no DD names. -/
def Jesdd.pddbNames (pddb : Pddb) (jobname jobid : List UInt8) (dd : Jesdd) : Option Jesdd :=
  if pddb.dskey = PDBINJCL then dd.own (literal "JESJCLIN") jobid ".SI" pddb.dskey (FLAG_JES2 ||| FLAG_SYSIN)
  else if pddb.dskey = PDBOUHJL then dd.own (literal "JESMSGLG") jobid ".SO" pddb.dskey (FLAG_JES2 ||| FLAG_SYSOUT)
  else if pddb.dskey = PDBOUJCI then dd.own (literal "JESJCL") jobid ".SO" pddb.dskey (FLAG_JES2 ||| FLAG_SYSOUT)
  else if pddb.dskey = PDBOUMSG then dd.own (literal "JESYSMSG") jobid ".SO" pddb.dskey (FLAG_JES2 ||| FLAG_SYSOUT)
  else if pddb.dskey = PDBINTXT then dd.own (literal "JESINTXT") jobid ".SI" pddb.dskey (FLAG_JES2 ||| FLAG_SYSIN)
  else if pddb.dskey = PDBINJNL then dd.own (literal "JESJRNL") jobid ".SI" pddb.dskey (FLAG_JES2 ||| FLAG_SYSIN)
  else if jobname = literal "SYSLOG" then dd.own (literal "JES" ++ padded 5 pddb.dskey) jobid ".SO" pddb.dskey dd.flag
  else some dd

/-- What else a PDDB has. -/
def Jesdd.filled (pddb : Pddb) (dd : Jesdd) : Jesdd :=
  {dd with
    oclass := pddb.class'
    recfm := pddb.recfm
    mttr := pddb.mttr
    records := pddb.recct
    lrecl := pddb.lrecl
    dsid := pddb.dskey}

/-- `process_pddb()`. -/
def processPddb (pddb : Pddb) (jobname jobid : List UInt8) : Option Jesdd := do
  let ddname ← cutblank (fill 9 pddb.dsid 0)
  let jobname ← cstr jobname
  let jobid ← cstr jobid
  let dd ← Jesdd.pddbNames pddb jobname jobid {ddname}
  return dd.filled pddb

/-- `is_dup_dsid()`. -/
def isDupDsid (jesdd : List Jesdd) (dsid : Nat) : Bool := jesdd.any fun dd => dd.dsid = dsid

/-- The loop over the PDDBs of an IOT. -/
def addPddbs (jobname jobid : List UInt8) : List Pddb → List Jesdd → Option (List Jesdd)
  | [], jesdd => some jesdd
  | pddb :: rest, jesdd =>
    if pddb.dskey = 0 then some jesdd
    else if pddb.mttr = 0 ∨ isDupDsid jesdd pddb.dskey then addPddbs jobname jobid rest jesdd
    else do
      let dd ← processPddb pddb jobname jobid
      addPddbs jobname jobid rest (jesdd ++ [dd])

/-! ### Chains of IOTs -/

/-- The variables of a loop over the IOTs of a chain, and the reads of the spool so far. -/
structure IotWalk (σ : Type) where
  mttr : Nat
  reads : Nat
  iotbuf : List UInt8
  s : σ

section Iots

variable {σ : Type} (cp : Checkpoint) (js : Spool) (body : Nat → List Pddb → σ → Option (Nat × σ × Bool))

/-- An IOT that has been read: `body` has what becomes of its PDDBs, and whether they are the last ones. -/
def iotBlock (w : IotWalk σ) : Option (Loop.Turn (IotWalk σ) (IotWalk σ)) := do
  let pddbs ← pddbsOf cp w.iotbuf
  let (reads, s, last) ← body w.reads pddbs w.s
  if last then return .leave {w with reads, s}
  else
    let next ← field w.iotbuf 0x10 4
    return .again {w with mttr := next, reads, s}

/-- `for (mttr = ...; mttr; mttr=iot->IOTIOTTR)`. -/
def iotTurn (w : IotWalk σ) : Loop.Turn (IotWalk σ) (Got (IotWalk σ)) :=
  if w.mttr = 0 then .leave (.ok w)
  else
    match js.read w.reads w.mttr w.iotbuf with
    | none => .leave (.ok {w with reads := w.reads + 1})
    | some iotbuf =>
      match iotBlock cp body {w with iotbuf, reads := w.reads + 1} with
      | none => .leave (.error .missed)
      | some (.again w) => .again w
      | some (.leave w) => .leave (.ok w)

/-- The loop, along so many IOTs. -/
def iots (fuel mttr reads : Nat) (iotbuf : List UInt8) (s : σ) : Got (IotWalk σ) :=
  Loop.run (fun _ => .error .endless) (iotTurn cp js body) fuel {mttr, reads, iotbuf, s}

end Iots

/-- The data sets of an IOT are listed. -/
def listBody (jobname jobid : List UInt8) (reads : Nat) (pddbs : List Pddb) (jesdd : List Jesdd) :
    Option (Nat × List Jesdd × Bool) :=
  (addPddbs jobname jobid pddbs jesdd).map fun jesdd => (reads, jesdd, false)

/-- The internal text is read where an IOT has it. -/
def textBody (frame : Frame) (calloc : Nat → Bool) (js : Spool) (cp : Checkpoint) (jobkey reads : Nat)
    (pddbs : List Pddb) (s : List UInt8 × List Jesdd) : Option (Nat × (List UInt8 × List Jesdd) × Bool) :=
  match pddbs.find? fun pddb => pddb.dskey = PDBINTXT with
  | none => some (reads, s, false)
  | some pddb => do
    let (reads, ctx) ← processIntxt frame calloc js jobkey cp.hct.bufsize reads pddb.mttr s.1 s.2
    return (reads, (ctx.owner, ctx.jesdd), ctx.count ≠ 0)

/-! ### A job -/

/-- `JESJOB`. -/
structure JobInfo where
  jobname : List UInt8
  jobid : List UInt8
  owner : List UInt8
  eclass : UInt8
  priority : UInt8
  qType : UInt8
  qFlag1 : UInt8
  qFlag2 : UInt8
  iotmttr : Nat
  spinmttr : Nat
  jesdd : List Jesdd
  completion : Nat
  startTime64 : Int64.U64
  endTime64 : Int64.U64
  submitTime64 : Int64.U64
  jobkey : Nat
  jtflg : UInt8
  sysid : List UInt8

/-- `JESFILT`, with the caller's filter. -/
inductive Filter
  | none
  | jobname (filter : List UInt8)
  | jobid (filter : List UInt8)

/-- `filt`: upper case, and cut to fit. -/
def filt (filter : List UInt8) : List UInt8 := (filter.take 11).map toupper

/-- The job is one that is asked for. -/
def Filter.takes (jobname jobid : List UInt8) : Filter → Option Bool
  | .none => some true
  | .jobname filter => do
    let jobname ← cstr jobname
    Strutil.patmat jobname (filt filter)
  | .jobid filter => do
    let jobid ← cstr jobid
    Strutil.patmat jobid (filt filter)

/-- `jobtype`. -/
def jobtype (jobfl : UInt8) : String :=
  if jobfl &&& JCTBATCH ≠ 0 then "JOB"
  else if jobfl &&& JCTTSUJB ≠ 0 then "TSU"
  else if jobfl &&& JCTSTCJB ≠ 0 then "STC"
  else "???"

/-- `owner`, as far as it is known before the internal text. -/
def ownerOf (jct : Jct) (jobname : List UInt8) : Option (List UInt8) :=
  if jct.jobfl &&& JCTTSUJB ≠ 0 then strcpy (List.replicate 12 0) jobname
  else if jct.jobfl &&& JCTSTCJB ≠ 0 then sprintf (List.replicate 12 0) (literal "SYSTEM")
  else do
    let owner := fill 12 jct.useid 0
    let first ← owner.head?
    if blank < first then cutblank owner else clear owner

/-- `sysid` without the blanks at its end. -/
def sysidOf (rdsid : List UInt8) : List UInt8 := fill 5 (rdsid.rdropWhile (· = blank)) 0

/-- A DD name of its own for a data set that has none. -/
def fakeName (jobid : List UInt8) (dd : Jesdd) : Option Jesdd := do
  let first ← dd.ddname.head?
  if first = 0 ∨ first = blank then
    let jobid ← cstr jobid
    let ddname ← sprintf dd.ddname (literal "UNK" ++ padded 4 dd.dsid)
    let dsname ← sprintf dd.dsname (literal "UNKNOWN." ++ jobid ++ literal ".SO" ++ padded 4 dd.dsid)
    return {dd with ddname, dsname}
  else some dd

/-- What a pointer of the array points to: it is a place in the list. -/
def pointedTo (jesdd : List Jesdd) (x : Qsort.Elem 4) : Option Jesdd := jesdd[Bytes.number (List.ofFn x)]?

/-- The number of the data set, which `dsid_comp()` compares. -/
def dsidAt (jesdd : List Jesdd) (x : Qsort.Elem 4) : Int := (((pointedTo jesdd x).elim 0 Jesdd.dsid : Nat) : Int)

/-- `dsid_comp()`. -/
def dsidComp (jesdd : List Jesdd) (x y : Qsort.Elem 4) : Int := dsidAt jesdd x - dsidAt jesdd y

/-- The comparator is a total preorder. -/
def dsidComparator (jesdd : List Jesdd) : Qsort.Comparator 4 where
  compar := dsidComp jesdd
  flips x y := by unfold dsidComp; omega
  trans x y z h h' := by
    unfold dsidComp at *
    omega

/-- The pointers of the array are the places in the list. -/
def pointers (a : Nat) : UInt8 := UInt8.ofNat (a / 4 / 256 ^ (3 - a % 4))

/-- `qsort(job->jesdd, ...)`. -/
def sortJesdd (jesdd : List Jesdd) : Option (List Jesdd) :=
  if 1 < jesdd.length then do
    let s ← Qsort.qsort (dsidComparator jesdd) 0 jesdd.length pointers
    (Qsort.elems 4 s.mem 0 jesdd.length).mapM (pointedTo jesdd)
  else some jesdd

/-- What the loop over the jobs has: the reads of the spool so far and the two buffers. -/
structure Buffers where
  reads : Nat
  jctbuf : List UInt8
  iotbuf : List UInt8

section Jesjob

variable (frame : Frame) (calloc : Nat → Bool) (cp : Checkpoint) (js : Spool) (fuel : Nat) (dd : Bool)

/-- The data sets of a chain of IOTs are listed, if they are asked for. -/
def listIots (jobname jobid : List UInt8) (mttr : Nat) (w : IotWalk (List Jesdd)) : Got (IotWalk (List Jesdd)) :=
  if dd then iots cp js (listBody jobname jobid) fuel mttr w.reads w.iotbuf w.s else .ok w

/-- The internal text is read, if the data sets are asked for or the job is a batch job. -/
def readText (jct : Jct) (w : IotWalk (List UInt8 × List Jesdd)) : Got (IotWalk (List UInt8 × List Jesdd)) :=
  if dd ∨ jct.jobfl &&& JCTBATCH ≠ 0 then
    iots cp js (textBody frame calloc js cp jct.jbkey) fuel jct.iot w.reads w.iotbuf w.s
  else .ok w

/-- The data sets of a job, and its owner. -/
def jobSets (jct : Jct) (jobname jobid owner : List UInt8) (b : Buffers) : Got (IotWalk (List UInt8 × List Jesdd)) := do
  let w ← listIots cp js fuel dd jobname jobid jct.iot ⟨0, b.reads, b.iotbuf, []⟩
  let w ← listIots cp js fuel dd jobname jobid jct.spiot w
  let w ← readText frame calloc cp js fuel dd jct ⟨w.mttr, w.reads, w.iotbuf, (owner, w.s)⟩
  let jesdd ← got (w.s.2.mapM (fakeName jobid))
  let jesdd ← got (sortJesdd jesdd)
  return {w with s := (w.s.1, jesdd)}

/-- A job that is taken. -/
def jobInfo (jqe : Jqe) (jct : Jct) (jobname jobid owner : List UInt8) (b : Buffers) : Got (JobInfo × Buffers) := do
  let jobname ← got (cstr jobname)
  let jobid ← got (cstr jobid)
  let owner ← got (cstr owner)
  let jobname := fill 9 jobname 0
  let jobid := fill 9 jobid 0
  let startTime64 ← got (makeTime jct.xeqon jct.xdton)
  let endTime64 ← got (makeTime jct.xeqof jct.xdtof)
  let submitTime64 ← got (makeTime jct.rdron jct.rdton)
  let w ← jobSets frame calloc cp js fuel dd jct jobname jobid (fill 9 owner 0) b
  return ({
    jobname
    jobid
    owner := w.s.1
    eclass := jct.class'
    priority := jct.prio
    qType := jqe.type
    qFlag1 := jqe.flags
    qFlag2 := jqe.flag2
    iotmttr := jct.iot
    spinmttr := jct.spiot
    jesdd := w.s.2
    completion := jct.cnvrc
    startTime64
    endTime64
    submitTime64
    jobkey := jct.jbkey
    jtflg := jct.jtflg
    sysid := sysidOf jct.rdsid}, {b with reads := w.reads, iotbuf := w.iotbuf})

/-- A job of the queue, or nothing where it is passed over. -/
def jobOf (filter : Filter) (jqe : Jqe) (b : Buffers) : Got (Option JobInfo × Buffers) :=
  if jqe.type = _FREE ∨ jqe.type = _PURGE then .ok (none, b)
  else
    match js.read b.reads jqe.trak b.jctbuf with
    | none => .ok (none, {b with reads := b.reads + 1})
    | some jctbuf => do
      let b := {b with reads := b.reads + 1, jctbuf}
      let jct ← got (jctOf jctbuf)
      let jobid ← got (sprintf (List.replicate 12 0) (literal (jobtype jct.jobfl) ++ padded 5 (jqe.jobno % 10000)))
      let jobname ← got (cutblank (fill 12 jqe.jname.1 0))
      let owner ← got (ownerOf jct jobname)
      let takes ← got (filter.takes jobname jobid)
      if takes then
        let (job, b) ← jobInfo frame calloc cp js fuel dd jqe jct jobname jobid owner b
        return (some job, b)
      else return (none, b)

/-- The loop over the queue. -/
def jobsOf (filter : Filter) : List Jqe → Buffers → Got (List JobInfo)
  | [], _ => .ok []
  | jqe :: rest, b => do
    let (job, b) ← jobOf frame calloc cp js fuel dd filter jqe b
    let jobs ← jobsOf filter rest b
    return job.toList ++ jobs

end Jesjob

/-- `jesjob()`. -/
def jesjob (frame : Frame) (calloc : Nat → Bool) (fuel : Nat) (jes : Option Jes) (filter : Filter) (dd : Bool) :
    Got (List JobInfo) :=
  match jes with
  | none => .ok []
  | some jes =>
    match jes.cp, jes.js.head? with
    | some cp, some js =>
      let buf := List.replicate cp.hct.bufsize 0
      jobsOf frame calloc cp js fuel dd filter cp.jqes ⟨0, buf, buf⟩
    | _, _ => .ok []

end Libc370.Jesjob
