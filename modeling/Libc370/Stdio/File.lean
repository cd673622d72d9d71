import Mathlib

/-! The stream and the data set under it.

`File` is `struct _file`: the flags as Booleans, the record buffer with its two
pointers as offsets, the pushed-back character and the 32-bit file position.
`Dcb` stands for the open data control block together with the data set it
describes. A record is kept as its data bytes; the record descriptor word of
RECFM=V is built on the way out (`Attr.raw`) and checked on the way in.

The access method is the part of `@@AREAD`, `@@AWRITE`, `@@ACLOSE` and
`@@AOPEN` the stream layer sees: records in order, an in-place rewrite of the
record last read, an append. Block buffering is below this level, so a record
is on the data set once `awrite` has answered 0. A data set is read without
I/O errors; what the writes answer is a schedule (`rcs`, `closeRc`). Terminals
and the PUTLINE and GETLINE streams have no records and are not modelled. -/
namespace Libc370.Stdio

abbrev Bytes := List UInt8

/-- `EOF`. -/
def EOF : Int := -1

theorem byte_ne_eof (b : UInt8) : ((b.toNat : Int) = EOF) = False := by
  simp only [EOF, eq_iff_iff, iff_false]
  omega

/-- `'\n'` under EBCDIC. -/
def newline : UInt8 := 0x15

/-- `' '` under EBCDIC. -/
def blank : UInt8 := 0x40

/-- `FILE.filepos` is `unsigned`, 32 bits. -/
def wordSize : Nat := 2 ^ 32

/-- What a `long` makes of a number: its 32 bits, signed. -/
def toLong (n : Int) : Int := n.bmod (2 ^ 32)

inductive Errno | none | ebadf | eio | enospc | eopnotsupp | einval | espipe
  deriving DecidableEq, Repr

/-- The type bits of RECFM: fixed, variable or undefined record length. -/
inductive Recfm | F | V | U
  deriving DecidableEq, Repr

/-- The attributes OPEN leaves in the DCB. A record can hold at least one byte,
and a record length fits the two bytes of an RDW. -/
structure Attr where
  recfm : Recfm
  lrecl : Nat
  blksize : Nat
  room : match recfm with | .F => 0 < lrecl | .V => 4 < lrecl | .U => 0 < blksize
  fits : lrecl < 2 ^ 16
  /-- `_FILE_RECFM_S`: the V records span blocks. -/
  spanned : Bool

/-- The most data bytes a record holds; `__fpopen()` sizes the buffer by it. -/
def Attr.cap (a : Attr) : Nat :=
  match a.recfm with
  | .F => a.lrecl
  | .V => a.lrecl - 4
  | .U => a.blksize

theorem Attr.cap_pos (a : Attr) : 0 < a.cap := by
  obtain ⟨recfm, lrecl, blksize, room, fits, spanned⟩ := a
  cases recfm <;> simp only [Attr.cap] at room ⊢ <;> omega

/-- The two length bytes of a record descriptor word, and its two zero bytes. -/
def rdw (n : Nat) : Bytes := [UInt8.ofNat (n / 256), UInt8.ofNat (n % 256), 0, 0]

/-- The length an RDW names. -/
def rdwLength (b : Bytes) : Nat := (b.getD 0 0).toNat * 256 + (b.getD 1 0).toNat

theorem rdwLength_rdw (n : Nat) (h : n < 2 ^ 16) (data : Bytes) : rdwLength (rdw n ++ data) = n := by
  simp only [rdwLength, rdw, List.cons_append, List.getD_cons_zero, List.getD_cons_succ,
    UInt8.toNat_ofNat']
  omega

/-- A record as the access method moves it. -/
def Attr.raw (a : Attr) (data : Bytes) : Bytes :=
  match a.recfm with
  | .V => rdw (data.length + 4) ++ data
  | _ => data

/-- A record the data set can hold: its whole length on F, at most the capacity otherwise. -/
def Attr.Fits (a : Attr) (data : Bytes) : Prop :=
  match a.recfm with
  | .F => data.length = a.lrecl
  | _ => data.length ≤ a.cap

instance (a : Attr) (data : Bytes) : Decidable (a.Fits data) :=
  match h : a.recfm with
  | .F => decidable_of_iff (data.length = a.lrecl) (by simp [Attr.Fits, h])
  | .V => decidable_of_iff (data.length ≤ a.cap) (by simp [Attr.Fits, h])
  | .U => decidable_of_iff (data.length ≤ a.cap) (by simp [Attr.Fits, h])

theorem Attr.Fits.length_le {a : Attr} {data : Bytes} (h : a.Fits data) : data.length ≤ a.cap := by
  unfold Attr.Fits at h
  unfold Attr.cap at h ⊢
  cases hr : a.recfm <;> simp only [hr] at h ⊢ <;> omega

/-- How the data set is open: `__aopen()`'s mode 0, 1, 2 or 3. -/
inductive OpenMode | input | output | updat | extend
  deriving DecidableEq, Repr

structure Dcb where
  attr : Attr
  mode : OpenMode
  /-- The data set: the data of each record. -/
  recs : List Bytes
  /-- Records read since OPEN. -/
  next : Nat
  /-- What the coming calls of `__awrite()` answer; 0 when the list is used up. -/
  rcs : List Nat
  /-- What `__aclose()` answers for the final block. -/
  closeRc : Nat
  /-- Every buffer handed to `__awrite()`, and what it answered. -/
  calls : List (Bytes × Nat)

/-- One more record read. -/
def Dcb.passed (d : Dcb) : Dcb := {d with next := d.next + 1}

/-- `__aread()`: the next record, or -1 at the end of the data set. -/
def Dcb.aread (d : Dcb) : Int × Bytes × Dcb :=
  match d.recs[d.next]? with
  | some data => (0, d.attr.raw data, d.passed)
  | none => (-1, [], d)

/-- The buffer's bytes over a record's, which keeps its length (`MVCL`, X'00' filled). -/
def overlay (old new : Bytes) : Bytes :=
  new.take old.length ++ List.replicate (old.length - new.length) 0

/-- A record added to the data set: F is blank filled to LRECL, V loses its RDW. -/
def Attr.written (a : Attr) (buf : Bytes) : Bytes :=
  match a.recfm with
  | .F => buf.take a.lrecl ++ List.replicate (a.lrecl - buf.length) blank
  | .V => buf.drop 4
  | .U => buf

/-- The data of the record an UPDAT rewrite leaves in place of `old`. -/
def Attr.rewritten (a : Attr) (old buf : Bytes) : Bytes :=
  match a.recfm with
  | .V => overlay old (buf.drop 4)
  | _ => overlay old buf

/-- `__awrite()`: rewrites the record last read on an UPDAT DCB, adds a record on
an output one. A write that fails changes nothing. -/
def Dcb.awrite (d : Dcb) (buf : Bytes) : Nat × Dcb :=
  let rc := d.rcs.headD 0
  let d := {d with rcs := d.rcs.tail, calls := d.calls ++ [(buf, rc)]}
  if rc ≠ 0 then (rc, d)
  else
    match d.mode with
    | .updat => (0, {d with recs := d.recs.modify (d.next - 1) (fun old => d.attr.rewritten old buf)})
    | _ => (0, {d with recs := d.recs ++ [d.attr.written buf]})

/-- `__aclose()` then `__aopen()`: OUTPUT starts the data set again, EXTEND keeps it. -/
def Dcb.aopen (d : Dcb) (mode : OpenMode) : Dcb :=
  match mode with
  | .output => {d with mode := mode, recs := [], next := 0}
  | _ => {d with mode := mode, next := 0}

/-- `struct _file`, for a stream on a data set. -/
structure File where
  dcb : Dcb
  ungetch : Int
  filepos : Nat
  buf : Bytes
  upto : Nat
  endbuf : Nat
  /-- `_FILE_FLAG_OPEN` and the flags after it, in the order of `stdio.h`. -/
  opened : Bool
  read : Bool
  write : Bool
  append : Bool
  binary : Bool
  record : Bool
  posEnd : Bool
  dcbOut : Bool
  extend : Bool
  enospc : Bool
  error : Bool
  eof : Bool
  /-- `_FILE_XFLAG_UPDAT`, `_FILE_XFLAG_DIRTY`. -/
  updat : Bool
  dirty : Bool
  /-- `fp->member` names a PDS member. -/
  member : Bool
  errno : Errno

namespace File

abbrev attr (fp : File) : Attr := fp.dcb.attr

/-- The stream with what the access method left. -/
def withDcb (fp : File) (dcb : Dcb) : File := {fp with dcb := dcb}

@[simp] theorem withDcb_dcb (fp : File) : fp.withDcb fp.dcb = fp := rfl

@[simp] theorem withDcb_binary (fp : File) (dcb : Dcb) : (fp.withDcb dcb).binary = fp.binary := rfl

def withErrno (fp : File) (e : Errno) : File := {fp with errno := e}

def withUngetch (fp : File) (c : Int) : File := {fp with ungetch := c}

def withEof (fp : File) (b : Bool) : File := {fp with eof := b}

def withUpto (fp : File) (n : Nat) : File := {fp with upto := n}

def withFilepos (fp : File) (n : Nat) : File := {fp with filepos := n}

/-- The record in the buffer is no longer marked as changed. -/
def clean (fp : File) : File := {fp with dirty := false}

/-- An uncorrectable error on a read. -/
def readFailed (fp : File) : File := {fp with error := true, errno := .eio}

/-- `fp->filepos += n`. -/
def advance (fp : File) (n : Nat) : File := {fp with filepos := (fp.filepos + n) % wordSize}

/-- The bytes between the start of the buffer and `upto`. -/
def pending (fp : File) : Bytes := fp.buf.take fp.upto

/-- `*fp->upto++ = c`. -/
def store (fp : File) (c : UInt8) : File :=
  {fp with buf := fp.buf.set fp.upto c, upto := fp.upto + 1}

/-- What a failing write leaves: the error indicator, and which error it was. -/
def failed (fp : File) (rc : Nat) : File :=
  {fp with
    error := true
    enospc := fp.enospc || rc == 12
    errno := if rc = 12 then .enospc else .eio}

/-- `clearerr()`. -/
def clearerr (fp : File) : File := {fp with error := false, eof := false, enospc := false}

/-- How `__fpopen()` opens the DCB: EXTEND for any output open after the first,
UPDAT for a reading `r+` or `w+` that is not a PDS member. -/
def openMode (fp : File) : OpenMode :=
  if fp.dcbOut then
    if fp.append || fp.extend then .extend else .output
  else if fp.write && !fp.append && !fp.member then .updat
  else .input

/-- `__fpopen()` where every OPEN succeeds. A reading stream starts with an empty
buffer: the first read goes to the access method. -/
def fpopen (fp : File) : File :=
  let mode := fp.openMode
  {fp with
    dcb := fp.dcb.aopen mode
    opened := true
    ungetch := -1
    extend := fp.extend || (fp.read && fp.write && fp.dcbOut)
    buf := if fp.record then [] else List.replicate (fp.attr.cap + 8) 0
    upto := 0
    endbuf := if fp.dcbOut && !fp.record then fp.attr.cap else 0
    updat := mode == .updat
    dirty := false}

end File

/-- The mode letters `fopen()` takes. -/
inductive Mode | r | w | a | rplus | wplus | aplus
  deriving DecidableEq, Repr

/-- `__fpmode()`: what the caller may do, and the direction the DCB opens in first. -/
def fpmode (mode : Mode) (binary record member : Bool) (dcb : Dcb) : File :=
  let reads := mode == .r || mode == .rplus || mode == .wplus || mode == .aplus
  let writes := mode != .r
  let plus := reads && writes
  { dcb := dcb, ungetch := 0, filepos := 0, buf := [], upto := 0, endbuf := 0, opened := false
    read := reads
    write := writes
    append := mode == .a || mode == .aplus
    binary := binary
    record := record
    posEnd := mode == .aplus
    dcbOut := writes && mode != .rplus
    extend := plus && mode != .wplus
    enospc := false, error := false, eof := false, updat := false, dirty := false
    member := member, errno := .none }

/-- A data set not yet open: its attributes and its records. -/
def Dcb.closed (attr : Attr) (recs : List Bytes) : Dcb := ⟨attr, .input, recs, 0, [], 0, []⟩

end Libc370.Stdio
