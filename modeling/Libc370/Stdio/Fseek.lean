import Libc370.Stdio.Getc

/-! Moving in a byte stream (`@@fseek.c`, `fseek.c`, `ftell.c`, `clearerr.c`).

A read-only stream moves in its buffer, reads on, or is opened again and read
from the start; the outcome of that OPEN is an input (`opens`). A write-only
stream cannot move. A `+` stream turns its DCB round (`plusseek`). -/
namespace Libc370.Stdio

/-- `whence`; a value that is none of the three is an error. -/
inductive Whence | seekSet | seekCur | seekEnd | other
  deriving DecidableEq, Repr

namespace File

/-- `__reopen()` of a stream open for reading only: a fresh stream on the same DD,
or nothing changed when the OPEN fails. -/
def reopen (fp : File) (opens : Bool) : Option File :=
  if opens then some (fpmode .r fp.binary fp.record fp.member fp.dcb).fpopen else none

/-- `while (__fread(buf, 1, sizeof(buf), fp) > 0) ;` in at most `n` steps. -/
def readOut : Nat → File → File
  | 0, fp => fp
  | n + 1, fp =>
    let (k, _, fp) := fp.fread 1 1000
    if 0 < k then readOut n fp else fp

/-- Both indicators, set by a skip that meets the end of the data set. -/
def past (fp : File) : File := {fp with error := true, eof := true}

/-- `n` records forward on a record stream. -/
def skipRecords : Nat → File → File
  | 0, fp => fp
  | n + 1, fp =>
    let (_, _, fp) := fp.fread 1 1000
    if fp.eof || fp.error then fp.past else skipRecords n fp

/-- `n` bytes forward on a byte stream. -/
def skipBytes : Nat → File → File
  | 0, fp => fp
  | n + 1, fp =>
    let (c, fp) := fp.fgetc
    if c = EOF then fp.past else skipBytes n fp

/-- `quit:` of `__fseek()`. -/
def seekDone (fp : File) : Int × File :=
  if fp.error then (-1, fp) else (0, fp.withUngetch (-1))

/-- The first and the last but one position of the buffer, as `long`s. -/
def bufStart (fp : File) : Int := toLong fp.filepos - fp.upto

def bufStop (fp : File) : Int := toLong fp.filepos + ((fp.endbuf : Int) - fp.upto)

/-- `fp->upto = fp->buf + (newpos - start); fp->filepos = newpos;` -/
def moveTo (fp : File) (newpos : Int) : File :=
  (fp.withUpto (newpos - fp.bufStart).toNat).withFilepos (newpos % 2 ^ 32).toNat

/-- `__fseek()` on a stream that reads, from where `newpos` is known. -/
def seekRead (fp : File) (newpos : Int) (opens : Bool) : Int × File :=
  let oldpos := toLong fp.filepos
  if fp.record && newpos == oldpos then (fp.withUpto 0).seekDone
  else if !fp.record && fp.bufStart ≤ newpos && newpos < fp.bufStop then (fp.moveTo newpos).seekDone
  else
    let there := if newpos < oldpos then (fp.reopen opens).map (fun fp => (fp, 0)) else some (fp, oldpos)
    match there with
    | none => fp.seekDone
    | some (fp, oldpos) =>
      let n := (newpos - oldpos).toNat
      if fp.record then (skipRecords n fp).seekDone else (skipBytes n fp).seekDone

/-- `__fgetc()` to the end of a reading `+` stream, in at most `n` steps. -/
def getToEnd : Nat → File → File
  | 0, fp => fp
  | n + 1, fp =>
    let (c, fp) := fp.fgetc
    if c = EOF then fp else getToEnd n fp

/-- `while (fp->filepos < newpos) if (__fgetc(fp) == EOF) break;` in at most `n` steps. -/
def getTo (newpos : Nat) : Nat → File → File
  | 0, fp => fp
  | n + 1, fp =>
    if fp.filepos < newpos then
      let (c, fp) := fp.fgetc
      if c = EOF then fp else getTo newpos n fp
    else fp

/-- `check:` of `plusseek()`: the position asked for was reached, or the stream
stays at its end. -/
def seekCheck (fp : File) (newpos : Int) : Int × File :=
  if toLong fp.filepos ≠ newpos then (-1, (fp.withEof false).withErrno .einval)
  else (0, fp.withEof false)

/-- `plusseek()` from where `newpos` is known. -/
def plusseekTo (fp : File) (newpos : Int) : Int × File :=
  if newpos < 0 then (-1, fp.withErrno .einval)
  else if newpos = toLong fp.filepos then (0, fp)
  else if !fp.dcbOut && fp.filepos < newpos.toNat then
    (getTo newpos.toNat (newpos.toNat - fp.filepos + 1) fp).seekCheck newpos
  else if !fp.dcbOut && fp.ungetch == -1 && toLong ((fp.filepos : Int) - fp.upto) ≤ newpos then
    (0, (fp.withUpto (fp.upto - (fp.filepos - newpos.toNat))).withFilepos newpos.toNat)
  else
    let (rc, fp) := (fp.withFilepos newpos.toNat).fpswtIn
    if rc ≠ 0 then (-1, fp) else fp.seekCheck newpos

/-- `plusseek()`. -/
def plusseek (fp : File) (offset : Int32) (whence : Whence) : Int × File :=
  let here := toLong (if whence = .seekSet then offset.toInt else fp.filepos + offset.toInt)
  if fp.dcbOut && !fp.posEnd && whence ≠ .other && here == toLong fp.filepos then (0, fp)
  else
    -- the end: `a+` before its size is known, or SEEK_END
    let toEnd := fp.posEnd || whence = .seekEnd
    let (rc, fp) :=
      if fp.posEnd then fp.fpswtIn
      else if whence = .seekEnd && !fp.dcbOut then (0, getToEnd (fp.left + 1) fp)
      else (0, fp)
    if rc ≠ 0 then (-1, fp)
    else
      let fp := if toEnd then fp.withEof false else fp
      match whence with
      | .seekSet => fp.plusseekTo offset.toInt
      | .seekCur | .seekEnd => fp.plusseekTo (toLong (fp.filepos + offset.toInt))
      | .other => (-1, fp.withErrno .einval)

/-- `__fseek()`. -/
def fseekLocked (fp : File) (offset : Int32) (whence : Whence) (opens : Bool) : Int × File :=
  let fp := fp.clearerr
  if fp.read && fp.write then
    let (rc, fp) := fp.plusseek offset whence
    (rc, if rc = 0 then fp.withUngetch (-1) else fp)
  else
    let moved (newpos : Int) : Int × File :=
      if !fp.read then
        if newpos = toLong fp.filepos then fp.seekDone else (-1, fp.withErrno .espipe)
      else fp.seekRead newpos opens
    match whence with
    | .seekSet => moved offset.toInt
    | .seekCur => moved (toLong (toLong fp.filepos + offset.toInt))
    | .seekEnd =>
      if !fp.read then moved (toLong (toLong fp.filepos + offset.toInt))
      else (readOut (fp.left + 1) fp).seekDone
    | .other => (-1, fp)

/-- The error indicator a stream had before a seek, put back on it. -/
def hold (fp held : File) : File :=
  {fp with error := fp.error || held.error, enospc := fp.enospc || held.enospc}

/-- `fseek()`: the seek's own return value, and the error indicator as it was. -/
def fseek (fp : File) (offset : Int32) (whence : Whence) (opens : Bool) : Int × File :=
  let (rc, fp') := fp.fseekLocked offset whence opens
  (rc, fp'.hold fp)

/-- `ftell()`: on an `a+` stream the first call counts the data set. -/
def ftell (fp : File) : Int × File :=
  let fp := if fp.posEnd then (fp.fseek 0 .seekEnd true).2 else fp
  (toLong fp.filepos, fp)

end File

end Libc370.Stdio
