import Libc370.Stdio.ByteView
import Libc370.Stdio.Output

/-! A data set as a file of bytes that is read, changed in place and added to.

A stream opened `"r+"`, `"w+"` or `"a+"` is meant to be this file: records, a position in
what they read back as, and, while it writes, the record being built. A byte is changed
within its record, which keeps its length; behind the last record a new one is built, and
any call that reads or moves ends it. What a `+` stream does beyond a byte file of its own is
in `patch`, where a record's end stands against the byte, and in `closing`, the bytes a text
record has beyond the ones put into it. -/
namespace Libc370.Stdio

structure ByteFile where
  recs : List Bytes
  /-- The record being built, while the stream writes. -/
  building : Option Bytes
  pos : Nat
  /-- An `"a+"` stream whose data set has not been counted yet. -/
  posEnd : Bool
  eof : Bool

namespace ByteFile
variable (a : Attr) (bin : Bool)

/-- What a record that ends without the caller's newline has in the byte view behind its bytes. -/
def closing (piece : Bytes) : Nat :=
  if bin then 0 else (stored a bin piece).length - piece.length + 1

/-- The record being built is on the data set. -/
def add (s : ByteFile) (piece : Bytes) : ByteFile :=
  {s with recs := s.recs ++ [stored a bin piece], building := some [], pos := s.pos + closing a bin piece}

/-- A record with bytes in it ends here. -/
def flush (s : ByteFile) : ByteFile :=
  match s.building with
  | none => s
  | some [] => s
  | some (b :: piece) => s.add a bin (b :: piece)

def size (s : ByteFile) : Nat := (byteView bin s.recs).length

/-- The stream reads, at `target` or where the data set ends before it. -/
def turn (s : ByteFile) (target : Nat) : ByteFile :=
  let recs := (s.flush a bin).recs
  let size := (byteView bin recs).length
  { recs := recs, building := none, pos := if s.posEnd then size else min target size
    posEnd := false, eof := false }

/-- The stream reads, where it was. -/
def reading (s : ByteFile) : ByteFile := if s.building.isSome then s.turn a bin s.pos else s

/-- The byte at the position. -/
def take (s : ByteFile) : Int × ByteFile :=
  match (byteView bin s.recs)[s.pos]? with
  | some b => (b.toNat, {s with pos := s.pos + 1})
  | none => (EOF, {s with eof := true})

def getc (s : ByteFile) : Int × ByteFile := (s.reading a bin).take bin

/-- A byte behind the last record, `piece` being the one under construction. -/
def put (s : ByteFile) (piece : Bytes) (b : UInt8) : ByteFile :=
  if !bin && b == newline then s.add a bin piece
  else if piece.length = a.cap then
    let s := s.add a bin piece
    {s with building := some [b], pos := s.pos + 1}
  else {s with building := some (piece ++ [b]), pos := s.pos + 1}

/-- A byte over the one at `j` of a record, and how far the position moves: a record keeps
its length, so only a newline goes where the record ends, and one before it must leave the
rest of the record in place. -/
def patch (data : Bytes) (j : Nat) (b : UInt8) : Option (Bytes × Nat) :=
  if !bin && decide (data.length ≤ j) then if b = newline then some (data, 1) else none
  else if !bin && b == newline then
    if a.recfm = .F then some (data.take j ++ List.replicate (data.length - j) blank, data.length + 1 - j)
    else none
  else some (data.set j b, 1)

/-- The same at byte `p` of the view. -/
def patchAt : List Bytes → Nat → UInt8 → Option (List Bytes × Nat)
  | [], _, _ => none
  | data :: rest, p, b =>
    let n := (recordView bin data).length
    if p < n then (patch a bin data p b).map (fun new => (new.1 :: rest, new.2))
    else (patchAt rest (p - n) b).map (fun new => (data :: new.1, new.2))

/-- `app` is `"a+"`, which writes behind the last record wherever it is. -/
def putc (app : Bool) (s : ByteFile) (b : UInt8) : Int × ByteFile :=
  match s.building with
  | some piece => (b.toNat, s.put a bin piece b)
  | none =>
    if app || decide (s.size bin ≤ s.pos) then
      (b.toNat, ({s with building := some [], pos := s.size bin, eof := false} : ByteFile).put a bin [] b)
    else
      match patchAt a bin s.recs s.pos b with
      | some (recs, moved) => (b.toNat, {s with recs := recs, pos := s.pos + moved})
      | none => (EOF, s)

def seekTo (s : ByteFile) (target : Int) : Int × ByteFile :=
  if target < 0 then (-1, s)
  else if target = s.pos then (0, s)
  else
    let s := s.turn a bin target.toNat
    (if s.pos = target then 0 else -1, s)

/-- Where a seek counts from: the end of what can be read, or the position. -/
def counted (s : ByteFile) (whence : Whence) : ByteFile :=
  if s.posEnd then s.turn a bin s.pos
  else if whence = .seekEnd && s.building.isNone then {s with pos := s.size bin}
  else s

/-- The seek, counted from where the file is. -/
def seekFrom (s : ByteFile) (offset : Int32) : Whence → Int × ByteFile
  | .seekSet => s.seekTo a bin offset.toInt
  | .seekCur => s.seekTo a bin (toLong (s.pos + offset.toInt))
  | .seekEnd => s.seekTo a bin (toLong (s.pos + offset.toInt))
  | .other => (-1, s)

/-- A file that is being written goes on so when it is asked where it is already. -/
def stays (s : ByteFile) (offset : Int32) (whence : Whence) : Bool :=
  s.building.isSome && !s.posEnd && whence ≠ .other &&
    toLong ((if whence = .seekSet then 0 else (s.pos : Int)) + offset.toInt) == s.pos

def seek (s : ByteFile) (offset : Int32) (whence : Whence) : Int × ByteFile :=
  let s := {s with eof := false}
  if s.stays offset whence then (0, s) else (s.counted a bin whence).seekFrom a bin offset whence

def tell (s : ByteFile) : Int × ByteFile :=
  let s := if s.posEnd then (s.seek a bin 0 .seekEnd).2 else s
  (s.pos, s)

end ByteFile

/-- The calls on a `+` stream. -/
inductive PlusCall
  | fgetc
  | fputc (b : UInt8)
  | fseek (offset : Int32) (whence : Whence)
  | ftell
  | fflush
  | feof

/-- The same on a file of bytes. -/
def ByteFile.call (a : Attr) (bin app : Bool) (s : ByteFile) : PlusCall → Int × ByteFile
  | .fgetc => s.getc a bin
  | .fputc b => s.putc a bin app b
  | .fseek offset whence => s.seek a bin offset whence
  | .ftell => s.tell a bin
  | .fflush => (0, s.flush a bin)
  | .feof => (s.eof.toNat, s)

/-- The modes that read and write. -/
inductive PlusMode | rplus | wplus | aplus
  deriving DecidableEq, Repr

namespace PlusMode

def mode : PlusMode → Mode
  | .rplus => .rplus
  | .wplus => .wplus
  | .aplus => .aplus

def app (m : PlusMode) : Bool := m == .aplus

/-- `fopen()` on a data set. -/
def fopen (m : PlusMode) (a : Attr) (bin : Bool) (recs : List Bytes) : File :=
  (fpmode m.mode bin false false (Dcb.closed a recs)).fpopen

end PlusMode

end Libc370.Stdio
