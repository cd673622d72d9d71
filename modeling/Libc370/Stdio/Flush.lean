import Libc370.Stdio.File

/-! Handing records to the access method (`@@fflush.c`).

`flushrec` is the one way out of the record buffer. It writes back a record
changed in place, or ends the record being built: F is padded to LRECL, V gets
its RDW, an empty line on U becomes one fill byte. -/
namespace Libc370.Stdio.File

/-- `begwrite` and `finwrite`: one call of `__awrite()`. -/
def finwrite (fp : File) (buf : Bytes) : Nat × File :=
  let (rc, dcb) := fp.dcb.awrite buf
  (rc, fp.withDcb dcb)

/-- The fill byte of a short F record and of an empty U record. -/
def fill (fp : File) : UInt8 := if fp.binary then 0 else blank

/-- `fixflush()`: F is padded to its length, U goes out as it is. A block of length
zero cannot be written, so an empty one is a fill byte. -/
def fixflush (fp : File) : Nat × File :=
  let data := fp.pending
  match fp.attr.recfm with
  | .U => if data.length = 0 then fp.finwrite [fp.fill] else fp.finwrite data
  | _ => fp.finwrite (data ++ List.replicate (fp.attr.lrecl - data.length) fp.fill)

/-- `varflush()`: the RDW in front of the bytes. -/
def varflush (fp : File) : Nat × File :=
  let data := fp.pending
  fp.finwrite (rdw (data.length + 4) ++ data)

/-- The `switch` on the record format. -/
def flushOut (fp : File) : Nat × File :=
  match fp.attr.recfm with
  | .F | .U => fp.fixflush
  | .V => fp.varflush

/-- What a text record holds in the byte view beyond the bytes put into it. -/
def padding (fp : File) (len : Nat) : Nat :=
  match fp.attr.recfm with
  | .F => if len < fp.attr.lrecl then fp.attr.lrecl - len else 0
  | .U => if len = 0 then 1 else 0
  | .V => 0

/-- `updrec()`: the record in the buffer, changed in place, goes back. The `'\n'`
of a text record is not data. -/
def updrec (fp : File) : Nat × File :=
  let len := if !fp.binary && 0 < fp.endbuf then fp.endbuf - 1 else fp.endbuf
  let data := fp.buf.take len
  let out :=
    match fp.attr.recfm with
    | .F => data ++ List.replicate (fp.attr.lrecl - len) fp.fill
    | .V => rdw (len + 4) ++ data
    | .U => data
  let (err, fp) := fp.clean.finwrite out
  (err, if err ≠ 0 then fp.failed err else fp)

/-- The code a stream already in error answers, with its errno. -/
def failFast (fp : File) : Nat × File :=
  if fp.enospc then (12, fp.withErrno .enospc) else (8, fp.withErrno .eio)

/-- `flushrec()`; `newline` says that a `'\n'` asks for the record, empty or not. -/
def flushrec (fp : File) (newline : Bool) : Nat × File :=
  if fp.dirty then
    if fp.error then fp.clean.failFast else fp.updrec
  else if fp.record then (0, fp)
  else if !fp.dcbOut then (0, fp)
  else if fp.upto = 0 && !newline then (0, fp)
  else if fp.error then
    let (err, fp) := fp.failFast
    (err, fp.withUpto 0)
  else
    let len := fp.upto
    let (err, fp) := fp.flushOut
    if err ≠ 0 then (err, (fp.failed err).withUpto 0)
    else if !fp.binary then
      -- the byte view: the record reads back with its padding and a '\n'
      (0, (fp.advance (fp.padding len + if newline then 0 else 1)).withUpto 0)
    else (0, fp.withUpto 0)

/-- `__fflush()`. -/
def fflush (fp : File) : Nat × File := fp.flushrec false

/-- `__fflnl()`. -/
def fflnl (fp : File) : Nat × File := fp.flushrec true

end Libc370.Stdio.File
