import Libc370.Stdio.Flush

/-! Reading a byte stream (`@@fgetc.c`, `@@fgets.c`, `@@fread.c`, `ungetc.c`), and
turning a `+` stream's DCB to reading (`@@fpswt.c`).

`__fgetc()` turns a writing DCB round first, and turning round reads on to the
position with `__fgetc()`. By then the DCB reads, so the definitions go in three
layers: `fgetcReading` is `__fgetc()` on a reading DCB, `fpswtIn` is the turn,
and `fgetc` is the whole function. -/
namespace Libc370.Stdio

/-- A text record loses its trailing X'00' bytes; one inside it is data. -/
def stripNul (data : Bytes) : Bytes := data.rdropWhile (· == 0)

namespace File

/-- `*fp->upto++`, and `fp->filepos++`. -/
def dogetc (fp : File) : Int × File :=
  ((fp.buf.getD fp.upto 0).toNat, (fp.withUpto (fp.upto + 1)).advance 1)

/-- The data of the record `__aread()` gave, by record format: F has its fixed
length, V the length its RDW names, U the length of the block. -/
def recordData (a : Attr) (dptr : Bytes) : Bytes :=
  match a.recfm with
  | .F => dptr.take a.lrecl
  | .V => (dptr.drop 4).take (rdwLength dptr - 4)
  | .U => dptr

/-- The record's bytes into the buffer, and a `'\n'` behind them on a text stream. -/
def load (fp : File) (data : Bytes) : File :=
  let data := if fp.binary then data else stripNul data
  let buf := data ++ fp.buf.drop data.length
  {fp with
    buf := if fp.binary then buf else buf.set data.length newline
    upto := 0
    endbuf := if fp.binary then data.length else data.length + 1}

/-- `__fgetc()` on a DCB that reads. -/
def fgetcReading (fp : File) : Int × File :=
  if !fp.read then (EOF, fp.withErrno .ebadf)
  else if fp.error then (EOF, fp.withErrno .eio)
  else if fp.record then (EOF, fp)
  -- a pushed-back character comes before the end of file, and is not counted
  else if fp.ungetch ≠ -1 then (fp.ungetch, fp.withUngetch (-1))
  else if fp.eof then (EOF, fp)
  else if fp.upto < fp.endbuf then fp.dogetc
  else
    -- a record overwritten in place goes back before the next is read
    let (err, fp) := if fp.dirty then fp.fflush else (0, fp)
    if err ≠ 0 then (EOF, fp)
    else
      let (rc, dptr, dcb) := fp.dcb.aread
      let fp := fp.withDcb dcb
      if rc > 0 then (EOF, fp.readFailed)
      else if rc < 0 then (EOF, fp.withEof true)
      -- `while (read < 0)` never repeats: `read` is unsigned
      else (fp.load (recordData fp.attr dptr)).dogetc

/-- More than the bytes a reader can still be given: enough steps for a loop to EOF. -/
def left (fp : File) : Nat :=
  (fp.endbuf - fp.upto) + ((fp.dcb.recs.drop fp.dcb.next).map (·.length + 1)).sum + 2

/-- `while (__fgetc(fp) != EOF) ;` in at most `n` steps. -/
def readToEnd : Nat → File → File
  | 0, fp => fp
  | n + 1, fp =>
    let (c, fp) := fp.fgetcReading
    if c = EOF then fp else readToEnd n fp

/-- `while (fp->filepos < pos) if (__fgetc(fp) == EOF) break;` in at most `n` steps. -/
def readTo (pos : Nat) : Nat → File → File
  | 0, fp => fp
  | n + 1, fp =>
    if fp.filepos < pos then
      let (c, fp) := fp.fgetcReading
      if c = EOF then fp else readTo pos n fp
    else fp

/-- `skipto()`: from the start of the data set to `pos`, or to its end for POSEND. -/
def skipto (fp : File) (pos : Nat) : File :=
  let fp := fp.withFilepos 0
  if fp.posEnd then {readToEnd fp.left fp with posEnd := false}
  else readTo pos pos fp

/-- `redcb()` where the OPEN succeeds: close the DCB and open the same DD again.
1 when the CLOSE could not write the last block. -/
def redcb (fp : File) (out : Bool) : Nat × File :=
  let rc := if fp.opened then fp.dcb.closeRc else 0
  let fp := {fp with opened := false, eof := false, dcbOut := out, errno := .none}.fpopen
  if rc ≠ 0 then (1, fp.withErrno (if rc = 12 then .enospc else .eio)) else (0, fp)

/-- `__fpswt(fp, 0)`: pending output goes out, the DD is opened for input and the
stream skips forward to where it was. -/
def fpswtIn (fp : File) : Int × File :=
  let pos := fp.filepos
  if !fp.opened then (-1, fp.withErrno .ebadf)
  else
    let (err, fp) := fp.fflush
    if err ≠ 0 then (-1, fp)
    else
      let (r, fp) := fp.redcb false
      let e := fp.errno
      let fp := fp.skipto pos
      if r > 0 then
        (-1, {fp with error := true, enospc := fp.enospc || e == .enospc, errno := e})
      else (0, fp)

/-- `__fgetc()`. -/
def fgetc (fp : File) : Int × File :=
  if !fp.read then (EOF, fp.withErrno .ebadf)
  else if fp.error then (EOF, fp.withErrno .eio)
  else if fp.dcbOut then
    let (rc, fp) := fp.fpswtIn
    if rc ≠ 0 then (EOF, fp) else fp.fgetcReading
  else fp.fgetcReading

/-- The loop of `__fgets()`: at most `n` characters, up to a newline; the last
character read says whether it ended at EOF. -/
def fgetsLoop : Nat → Int → File → Bytes × Int × File
  | 0, c, fp => ([], c, fp)
  | n + 1, _, fp =>
    let (c, fp) := fp.fgetc
    if c = EOF then ([], c, fp)
    else
      let b := UInt8.ofNat c.toNat
      if b = newline then ([b], c, fp)
      else
        let (s, c, fp) := fgetsLoop n c fp
        (b :: s, c, fp)

/-- `__fgets()`: the characters stored before the NUL, `none` for NULL. -/
def fgets (fp : File) (n : Int) : Option Bytes × File :=
  if fp.eof || fp.record then (none, fp)
  else if n < 1 then (none, fp)
  else
    let (s, c, fp) := fgetsLoop (n - 1).toNat 0 fp
    if s.length = 0 && c == EOF then (none, fp) else (some s, fp)

/-- One element of `__fread()`; `false` when EOF cut it short. -/
def freadElem : Nat → File → Bool × Bytes × File
  | 0, fp => (true, [], fp)
  | j + 1, fp =>
    let (c, fp) := fp.fgetc
    if c = EOF then (false, [], fp)
    else
      let (whole, p, fp) := freadElem j fp
      (whole, UInt8.ofNat c.toNat :: p, fp)

/-- The elements of `__fread()`: how many are whole, and every byte stored. -/
def freadLoop (size : Nat) : Nat → File → Nat × Bytes × File
  | 0, fp => (0, [], fp)
  | i + 1, fp =>
    let (whole, p, fp) := freadElem size fp
    if !whole then (0, p, fp)
    else
      let (n, q, fp) := freadLoop size i fp
      (n + 1, p ++ q, fp)

/-- `__fread()`: the return value and the bytes stored. -/
def fread (fp : File) (size nmemb : Nat) : Nat × Bytes × File :=
  if !fp.read then (0, [], fp.withErrno .ebadf)
  else if fp.error then (0, [], fp.withErrno .eio)
  else if fp.eof then (0, [], fp)
  else if fp.record then
    let (rc, dptr, dcb) := fp.dcb.aread
    let fp := fp.withDcb dcb
    if rc > 0 then (0, [], fp.readFailed)
    else if rc < 0 then (0, [], fp.withEof true)
    else
      let p := dptr.take (size * nmemb)
      (if size = 0 then 0 else p.length / size, p, fp.advance 1)
  else freadLoop size nmemb fp

/-- `ungetc()`. -/
def ungetc (fp : File) (c : Int) : Int × File :=
  if fp.ungetch ≠ -1 || c == EOF then (EOF, fp)
  else (c, (fp.withUngetch (c % 256)).withEof false)

end File

end Libc370.Stdio
