import Libc370.Stdio.Fseek

/-! Writing a byte stream (`@@fputc.c`, `@@fputs.c`, `@@fwrite.c`, `fclose.c`), turning
a `+` stream's DCB to writing and writing in place (`@@fpswt.c`).

All writing of bytes goes through `__fputc()`. On a DCB that writes, the byte goes
into the record buffer (`putOut`). On one that reads, an UPDAT stream replaces the
byte in the record it has read (`fpupc`), and only at the end of the data set does
the DCB turn round (`fpswtOut`). -/
namespace Libc370.Stdio.File

/-- `fp->upto--; fp->filepos--;` -/
def back (fp : File) : File :=
  (fp.withUpto (fp.upto - 1)).withFilepos ((fp.filepos + (wordSize - 1)) % wordSize)

/-- Before the turn to writing the stream must be at the end of the data set: `a+` reads
on to it, `r+` and `w+` look at the next byte and put it back. -/
def fpswtEnd (fp : File) : Bool × File :=
  if fp.eof then (true, fp)
  else if fp.append then
    let fp := getToEnd (fp.left + 1) fp
    (!fp.error, fp)
  else
    let had := fp.ungetch ≠ -1
    let (c, fp) := fp.fgetc
    if fp.error then (false, fp)
    else if c ≠ EOF then (false, (if had then fp.withUngetch c else fp.back).withErrno .eopnotsupp)
    else (true, fp)

/-- `__fpswt(fp, 1)` -/
def fpswtOut (fp : File) : Int × File :=
  if !fp.opened then (-1, fp.withErrno .ebadf)
  else if fp.member then (-1, fp.withErrno .eopnotsupp)
  else
    let (atEnd, fp) := fp.fpswtEnd
    if !atEnd then (-1, fp)
    else
      let pos := fp.filepos
      let (err, fp) := fp.fflush
      if err ≠ 0 then (-1, fp)
      else
        let (r, fp) := fp.redcb true
        let fp := fp.withFilepos pos
        if r > 0 then
          (-1, {fp with error := true, enospc := fp.enospc || fp.errno == .enospc})
        else (0, fp)

/-- `c` over the byte at the position, in the record that is in the buffer. -/
def overwrite (fp : File) (c : Int) : Int × File :=
  let text := !fp.binary
  let last := if text then fp.endbuf - 1 else fp.endbuf
  if text && last ≤ fp.upto then
    -- where the record's own newline is
    if c = newline.toNat then (0, (fp.withUpto (fp.upto + 1)).advance 1)
    else (-1, fp.withErrno .eopnotsupp)
  else if text && c == newline.toNat then
    if fp.attr.recfm ≠ .F then (-1, fp.withErrno .eopnotsupp)
    else
      -- the rest of the record becomes blanks
      let blanks := List.replicate (last - fp.upto) blank
      let fp := {fp with buf := fp.buf.take fp.upto ++ blanks ++ fp.buf.drop last, dirty := true}
      (0, (fp.advance (fp.endbuf - fp.upto)).withUpto fp.endbuf)
  else
    let fp := (fp.store (UInt8.ofNat (c % 256).toNat)).advance 1
    (0, {fp with dirty := true})

/-- `__fpupc()`: 0 when `c` was written in place, 1 when the DCB now writes at the end,
-1 on a refusal. -/
def fpupc (fp : File) (c : Int) : Int × File :=
  let fp := fp.withUngetch (-1)
  if fp.endbuf ≤ fp.upto then
    let (k, fp) := fp.fgetc
    if fp.error then (-1, fp)
    else if k = EOF then
      let (rc, fp) := fp.fpswtOut
      (if rc ≠ 0 then -1 else 1, fp)
    else fp.back.overwrite c
  else fp.overwrite c

/-- `__fputc()` once the DCB writes. -/
def putOut (fp : File) (c : Int) : Int × File :=
  if !fp.binary && c == newline.toNat then
    let (err, fp) := (fp.advance 1).fflnl
    (if err ≠ 0 then EOF else c, fp)
  else
    let (err, fp) := if fp.upto = fp.endbuf then fp.fflush else (0, fp)
    if err ≠ 0 then (EOF, fp)
    else (c, (fp.store (UInt8.ofNat (c % 256).toNat)).advance 1)

/-- `__fputc()` -/
def fputc (fp : File) (c : Int) : Int × File :=
  if !fp.write then (EOF, fp.withErrno .ebadf)
  else if fp.record then (c, fp)
  else if fp.error then (EOF, fp.failFast.2)
  else if fp.dcbOut then fp.putOut c
  else if fp.updat then
    let (r, fp) := fp.fpupc c
    if r < 0 then (EOF, fp) else if r = 0 then (c, fp) else fp.putOut c
  else
    let (rc, fp) := fp.fpswtOut
    if rc ≠ 0 then (EOF, fp) else fp.putOut c

/-- Bytes given to `__fputc()` one after the other, until one is refused: how many were not. -/
def putBytes (fp : File) : Bytes → Nat × File
  | [] => (0, fp)
  | b :: rest =>
    let (c, fp) := fp.fputc b.toNat
    if c = EOF then (0, fp)
    else
      let (n, fp) := putBytes fp rest
      (n + 1, fp)

/-- `__fputs()`: the bytes in front of the NUL. -/
def fputs (fp : File) (s : Bytes) : Int × File :=
  if fp.record then (EOF, fp)
  else
    let s := s.takeWhile (· ≠ 0)
    let (n, fp) := fp.putBytes s
    (if n < s.length then EOF else n, fp)

/-- The `i`-loop of `__fwrite()`: the elements wholly written. -/
def fwriteLoop (fp : File) (size : Nat) : Nat → Bytes → Nat × File
  | 0, _ => (0, fp)
  | i + 1, ptr =>
    let (n, fp) := fp.putBytes (ptr.takeD size 0)
    if n < size then (0, fp)
    else
      let (k, fp) := fwriteLoop fp size i (ptr.drop size)
      (k + 1, fp)

/-- The longest record `__awrite()` takes. -/
def maxRecord (a : Attr) : Nat := if a.recfm = .V && a.spanned then a.lrecl - 4 else a.lrecl

/-- The record part of `__fwrite()`. A record that does not fit is the caller's error, not
the stream's. -/
def fwriteRecord (fp : File) (ptr : Bytes) (size nmemb : Nat) : Nat × File :=
  let data := ptr.takeD (size * nmemb) 0
  if size = 0 || nmemb = 0 then (0, fp)
  else if maxRecord fp.attr / size < nmemb then (0, fp.withErrno .einval)
  else if fp.attr.recfm = .V && (size * nmemb < 4 || rdwLength data != size * nmemb
      || data.getD 2 0 != 0 || data.getD 3 0 != 0) then (0, fp.withErrno .einval)
  else
    let (err, fp) := fp.finwrite data
    if err ≠ 0 then (0, fp.failed err) else (1, fp.advance 1)

/-- `__fwrite()` -/
def fwrite (fp : File) (ptr : Bytes) (size nmemb : Nat) : Nat × File :=
  if !fp.write then (0, fp.withErrno .ebadf)
  else if fp.error then (0, fp.failFast.2)
  else if fp.record then fp.fwriteRecord ptr size nmemb
  else if size = 0 then (0, fp)
  else fp.fwriteLoop size nmemb ptr

/-- `fclose()`: the flush, and the final block at the CLOSE. -/
def fclose (fp : File) : Int × File :=
  if !fp.opened then (0, fp)
  else
    let (e, fp) := fp.fflush
    let err := fp.dcb.closeRc
    let fp := {fp with opened := false}
    if err ≠ 0 then (EOF, fp.withErrno (if err = 12 then .enospc else .eio))
    else (if e ≠ 0 then EOF else 0, fp)

end Libc370.Stdio.File
