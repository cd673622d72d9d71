import Libc370.Ctype
import Libc370.Ext.Ary
import Libc370.Ext.Tok
import Libc370.Lib.Storage

/-! Allocation by keywords (`mvs/dynalloc/@@dsalc.c` and the text-unit builders it calls).

The keyword string is copied in upper case, its commas outside parentheses become
semicolons, and it is cut there into pieces. A piece is looked at for the keyword it holds,
and the value is what stands behind, at a place counted from the start of the piece. Then
the text units are built, in the order of the manual, and SVC 99 is issued with them.

A text unit is storage that is asked for; so are the list of them and the buffers. A
schedule says which request is granted. -/
namespace Libc370.Dynalloc

open Ext Storage

abbrev Bytes := List UInt8

def lparen : UInt8 := ebcdic '('
def rparen : UInt8 := ebcdic ')'
def comma : UInt8 := ebcdic ','
def semicolon : UInt8 := ebcdic ';'
def equals : UInt8 := ebcdic '='
def blank : UInt8 := ebcdic ' '

/-- `" ,"`. -/
def separators : Bytes := [blank, comma]

/-- `strstr(p, s) != NULL`. -/
def strstr (p : Bytes) (s : String) : Bool := decide (literal s <:+: p)

/-! ### The keyword string -/

/-- `isdsn()`. -/
def isdsn (tok : Bytes) : Bool :=
  let tok := tok.dropWhile (· = blank)
  (literal "DSN=").isPrefixOf tok || (literal "DSNAME=").isPrefixOf tok

/-- `unparen()` at a `(` that has `piece` in front of it and `rest` behind: the text in front
of the place that is returned, and the text from there on. -/
def unparen (piece rest : Bytes) : Bytes × Bytes :=
  if piece.getLast? ≠ some equals then
    (piece ++ equals :: rest.takeWhile (· ≠ rparen), (rest.dropWhile (· ≠ rparen)).tail)
  else
    -- the loop looks for the `)` behind the first character
    match rest with
    | [] => (piece, [])
    | c :: rest => (piece ++ c :: rest.takeWhile (· ≠ rparen), (rest.dropWhile (· ≠ rparen)).tail)

theorem unparen_length (piece rest : Bytes) : (unparen piece rest).2.length ≤ rest.length := by
  have hdrop : ∀ l : Bytes, (l.dropWhile (· ≠ rparen)).tail.length ≤ l.length := fun l =>
    ((List.tail_suffix _).trans (List.dropWhile_suffix _)).length_le
  unfold unparen
  split
  · exact hdrop rest
  · cases rest with
    | nil => exact Nat.le_refl 0
    | cons c rest => exact (hdrop rest).trans (Nat.le_succ _)

/-- The loop that converts `temp`, from the start of a piece: `piece` is what the loop has
behind it. -/
def convert (piece : Bytes) : Bytes → Bytes
  | [] => piece
  | c :: rest =>
    if c = lparen ∧ isdsn (piece ++ c :: rest) then
      match h : rest.dropWhile (· ≠ rparen) with
      | [] => piece ++ c :: rest
      | d :: after =>
        have : after.length < rest.length + 1 := by
          have hle := (List.dropWhile_suffix (· ≠ rparen) (l := rest)).length_le
          rw [h, List.length_cons] at hle
          omega
        convert (piece ++ c :: rest.takeWhile (· ≠ rparen) ++ [d]) after
    else if c = lparen then
      match h : unparen piece rest with
      | (front, []) => front
      | (front, d :: after) =>
        have : after.length < rest.length + 1 := by
          have hle := unparen_length piece rest
          rw [h, List.length_cons] at hle
          omega
        if d = comma ∨ d = semicolon then front ++ semicolon :: convert [] after else convert (front ++ [d]) after
    else if c = comma ∨ c = semicolon then piece ++ semicolon :: convert [] rest
    else convert (piece ++ [c]) rest
termination_by rest => rest.length

/-- `__DSALC`. -/
structure Dsalc where
  blksize : Option Bytes
  ddn : Option Bytes
  disp : Option Bytes
  dcbdsn : Option Bytes
  dsn : Option Bytes
  dsorg : Option Bytes
  lrecl : Option Bytes
  recfm : Option Bytes
  space : Option Bytes
  unit : Option Bytes
  volser : Option Bytes
  mount : Bool
  freeclose : Bool
deriving DecidableEq

def Dsalc.zero : Dsalc :=
  ⟨none, none, none, none, none, none, none, none, none, none, none, false, false⟩

/-- The keyword in a piece, and its value. -/
def keyword (d : Dsalc) (p : Bytes) : Dsalc :=
  if p = literal "MOUNT" then { d with mount := true }
  else if p = literal "FREE=CLOSE" then { d with freeclose := true }
  else if strstr p "BLKSIZE=" then { d with blksize := some (p.drop 8) }
  else if strstr p "DD=" then { d with ddn := some (p.drop 3) }
  else if strstr p "DDNAME=" then { d with ddn := some (p.drop 7) }
  else if strstr p "DISP=" then { d with disp := some (p.drop 5) }
  else if strstr p "DCBDSN=" then { d with dcbdsn := some (p.drop 7) }
  else if strstr p "DSN=" then { d with dsn := some (p.drop 4) }
  else if strstr p "DSNAME=" then { d with dsn := some (p.drop 7) }
  else if strstr p "DSORG=" then { d with dsorg := some (p.drop 6) }
  else if strstr p "RECFM=" then { d with recfm := some (p.drop 6) }
  else if strstr p "LRECL=" then { d with lrecl := some (p.drop 6) }
  else if strstr p "SPACE=" then { d with space := some (p.drop 6) }
  else if strstr p "UNIT=" then { d with unit := some (p.drop 5) }
  else if strstr p "VOLSER=" then { d with volser := some (p.drop 7) }
  else d

/-- The pieces of the string. No string is an empty one. -/
def pieces (opts : Option Bytes) : List Bytes :=
  let temp := convert [] ((opts.getD []).map toupper)
  tokens [semicolon] (temp.length + 1) (some temp)

/-- The keywords given. -/
def parse (opts : Option Bytes) : Dsalc := (pieces opts).foldl keyword .zero

/-! ### Values -/

/-- One digit of `strtol()` in base 10; the number is `none` when it is past `LONG_MAX`. -/
def accumulate (limit : Nat) (x : Option Nat) (c : UInt8) : Option Nat :=
  match x with
  | none => none
  | some x =>
    let d := digval c.toNat
    if limit / 10 < x ∨ (x = limit / 10 ∧ limit % 10 < d) then none else some (x * 10 + d)

/-- `atoi()`, which is `strtol()` in base 10. -/
def atoi (s : Bytes) : Int :=
  let s := s.dropWhile fun c => isspace c.toNat
  let neg := s.head? = some (ebcdic '-')
  let s := if neg ∨ s.head? = some (ebcdic '+') then s.tail else s
  let limit := if neg then 2 ^ 31 else 2 ^ 31 - 1
  let x := ((s.takeWhile fun c => digval c.toNat < 10).foldl (accumulate limit) (some 0)).getD limit
  if neg then -x else x

/-- The low `n` bytes of an `int`. -/
def low (n : Nat) (len : Int) : Bytes :=
  (List.range n).reverse.map fun i => UInt8.ofNat ((len % 2 ^ 32).toNat / 256 ^ i)

/-- A character of a record format, folded to upper case. -/
def recfmBit (c : UInt8) : UInt8 :=
  let c := c ||| blank
  if c = ebcdic 'M' ∨ c = ebcdic 'R' then 0x02
  else if c = ebcdic 'A' ∨ c = ebcdic 'G' then 0x04
  else if c = ebcdic 'S' then 0x08
  else if c = ebcdic 'B' then 0x10
  else if c = ebcdic 'D' ∨ c = ebcdic 'T' then 0x20
  else if c = ebcdic 'V' then 0x40
  else if c = ebcdic 'F' then 0x80
  else if c = ebcdic 'U' then 0xC0
  else 0

/-- The record format. -/
def recfmType (recfm : Bytes) : UInt8 := recfm.foldl (fun type c => type ||| recfmBit c) 0

/-- The table of `__txorg()`. -/
def orgTable : List (String × Nat) :=
  [("CQ", 0x0800), ("CX", 0x1000), ("DA", 0x2000), ("DAU", 0x2100), ("GS", 0x0080), ("MQ", 0x0400), ("PO", 0x0200),
    ("POU", 0x0300), ("PS", 0x4000), ("PSU", 0x4100), ("TCAM", 0x0004), ("3705", 0x0004), ("TQ", 0x0020),
    ("TX", 0x0040), ("VSAM", 0x0008)]

/-- `len` for `LRECL=`. -/
def lreclValue (lrecl : Bytes) : Int :=
  if ebcdic 'X' ∈ lrecl then 0x8000
  else if ebcdic 'K' ∈ lrecl then min ((atoi lrecl * 1024).bmod (2 ^ 32)) 32760
  else min (atoi lrecl) 32760

/-! ### Text units -/

/-- The keys of text units. -/
inductive Dal
  | ddnam | dsnam | membr | stats | ndisp | cdisp | trk | cyl | blkln | prime | secnd | dir | vlser | unit | close
  | dcbds | blksz | dsorg | lrecl | recfm | rtddn
deriving DecidableEq

/-- `TXT99`: a key, and the values, each with its length. -/
structure TXT99 where
  dal : Dal
  text : List Bytes
deriving DecidableEq

/-- The requests for storage of one call. No two requests for a text unit have the same key. -/
inductive Request
  | temp
  | txt99 (dal : Dal)
  | list
  | spaceBuf
  | volsBuf
  | volsTmp (n : Nat)
deriving DecidableEq

/-- A text unit in its storage. -/
structure Tu where
  block : Nat
  txt : TXT99

/-- The list of text units, and the storage of text units. -/
structure Work where
  txt99 : VArray Tu
  store : Store

def Work.start : Work := ⟨VArray.null, .empty⟩

/-- A builder: its return code, and what it leaves. -/
abbrev Builder := Work → Int × Work

section Builders
variable (grant : Request → Bool)

/-- `__nwtx99()` and `__nwtx9a()`. -/
def newTXT99 (txt : TXT99) (w : Work) : Option Tu × Work :=
  match request (fun _ => grant (.txt99 txt.dal)) w.store with
  | (none, store) => (none, ⟨w.txt99, store⟩)
  | (some b, store) => (some ⟨b, txt⟩, ⟨w.txt99, store⟩)

/-- A text unit that is built and added to the list. When there is no room for it, it is
freed by the builders that do so, and `code` is what the builder returns. -/
def addTXT99 (frees : Bool) (code : Int → Int) (txt : TXT99) : Builder := fun w =>
  match newTXT99 grant txt w with
  | (none, w) => (1, w)
  | (some tu, w) =>
    let (rc, txt99) := arrayadd (grant .list) w.txt99 tu
    if rc = 0 then (0, ⟨txt99, w.store⟩) else (code rc, ⟨txt99, if frees then release w.store tu.block else w.store⟩)

/-- The return code of `arrayadd()`. -/
def theirs : Int → Int := id

/-- Return code 1, whatever that of `arrayadd()`. -/
def ours : Int → Int := fun _ => 1

/-- A value that no text unit is built for. -/
def invalid : Builder := fun w => (1, w)

def txddn (ddname : Bytes) : Builder := addTXT99 grant false theirs ⟨.ddnam, [ddname]⟩

def txrddn : Builder := addTXT99 grant false theirs ⟨.rtddn, [List.replicate 8 0]⟩

def txdsn (dataset : Bytes) : Builder :=
  if 80 ≤ dataset.length then invalid
  else
    match dataset.dropWhile (· ≠ lparen) with
    | [] => addTXT99 grant true theirs ⟨.dsnam, [dataset]⟩
    | _ :: member => fun w =>
      let (err, w) := addTXT99 grant true ours ⟨.membr, [member.takeWhile (· ≠ rparen)]⟩ w
      if err ≠ 0 then (err, w) else addTXT99 grant true theirs ⟨.dsnam, [dataset.takeWhile (· ≠ lparen)]⟩ w

def txnew : Builder := addTXT99 grant false ours ⟨.stats, [[0x04]]⟩
def txold : Builder := addTXT99 grant false ours ⟨.stats, [[0x01]]⟩
def txmod : Builder := addTXT99 grant false ours ⟨.stats, [[0x02]]⟩
def txshr : Builder := addTXT99 grant false ours ⟨.stats, [[0x08]]⟩
def txdel : Builder := addTXT99 grant false theirs ⟨.ndisp, [[0x04]]⟩
def txucat : Builder := addTXT99 grant false theirs ⟨.ndisp, [[0x01]]⟩
def txcat : Builder := addTXT99 grant false theirs ⟨.ndisp, [[0x02]]⟩
def txkeep : Builder := addTXT99 grant false theirs ⟨.ndisp, [[0x08]]⟩
def txadel : Builder := addTXT99 grant false theirs ⟨.cdisp, [[0x04]]⟩
def txauca : Builder := addTXT99 grant false theirs ⟨.cdisp, [[0x01]]⟩
def txacat : Builder := addTXT99 grant false theirs ⟨.cdisp, [[0x02]]⟩
def txakee : Builder := addTXT99 grant false theirs ⟨.cdisp, [[0x08]]⟩

def txdcbd (dataset : Bytes) : Builder :=
  if dataset.length = 0 ∨ 44 < dataset.length then invalid else addTXT99 grant true theirs ⟨.dcbds, [dataset]⟩

def txorg (dsorg : Bytes) : Builder :=
  match orgTable.find? (fun e => literal e.1 = dsorg) with
  | none => invalid
  | some (_, type) => addTXT99 grant false theirs ⟨.dsorg, [low 2 type]⟩

def txrecf (recfm : Bytes) : Builder :=
  if recfmType recfm = 0 then invalid else addTXT99 grant false theirs ⟨.recfm, [[recfmType recfm]]⟩

def txlrec (lrecl : Bytes) : Builder := addTXT99 grant false theirs ⟨.lrecl, [low 2 (lreclValue lrecl)]⟩

def txbksz (blksize : Bytes) : Builder :=
  let len := min (atoi blksize) 32760
  if 0 < len then addTXT99 grant false theirs ⟨.blksz, [low 2 len]⟩ else invalid

def txcyl : Builder := addTXT99 grant false theirs ⟨.cyl, []⟩
def txtrk : Builder := addTXT99 grant false theirs ⟨.trk, []⟩

def txblk (blocks : Bytes) : Builder :=
  if atoi blocks ≠ 0 then addTXT99 grant false theirs ⟨.blkln, [low 3 (atoi blocks)]⟩ else invalid

/-- A quantity of `__txspac()`, 0 when it is not given. -/
def quantity (s : Option Bytes) : Int := (s.map atoi).getD 0

/-- The three quantities in a `SPACE=`. -/
def quantities (space : Bytes) : Int × Int × Int :=
  let (p, save) := tok separators (some space)
  let (s, save) := tok [comma] save
  let (d, _) := tok [] save
  (quantity p, quantity s, quantity d)

def txspac (space : Bytes) : Builder := fun w =>
  if space.length = 0 ∨ grant .spaceBuf = false then (1, w)
  else
    let (p, s, d) := quantities space
    let (err, w) := addTXT99 grant false theirs ⟨.prime, [low 3 p]⟩ w
    if err ≠ 0 then (err, w)
    else
      match newTXT99 grant ⟨.secnd, [low 3 s]⟩ w with
      | (none, w) => (1, w)
      | (some tu, w) =>
        let (err, txt99) := arrayadd (grant .list) w.txt99 tu
        -- with a directory quantity, this return code is lost
        if d ≠ 0 then addTXT99 grant false theirs ⟨.dir, [low 3 d]⟩ ⟨txt99, w.store⟩ else (err, ⟨txt99, w.store⟩)

def txunit (unit : Bytes) : Builder :=
  if unit.length ≠ 0 then addTXT99 grant false theirs ⟨.unit, [unit]⟩ else invalid

/-- The loop over the volumes; a volume for which there is no room is left out. -/
def placeVolumes : Nat → VArray Bytes → List Bytes → VArray Bytes
  | _, tmp, [] => tmp
  | n, tmp, p :: rest => placeVolumes (n + 1) (arrayadd (grant (.volsTmp n)) tmp p).2 rest

/-- The volumes in a `VOLSER=`. -/
def volumes (vols : Bytes) : List Bytes := tokens separators (vols.length + 1) (some vols)

def txvols (vols : Bytes) : Builder := fun w =>
  if vols.length = 0 ∨ grant .volsBuf = false then (1, w)
  else
    match placeVolumes grant 0 VArray.null (volumes vols) with
    | none => (1, w)
    | some tmp => addTXT99 grant false theirs ⟨.vlser, tmp.items⟩ w

def txclos : Builder := addTXT99 grant true ours ⟨.close, []⟩

/-! ### The request -/

/-- One builder after the other, up to one that fails. -/
def inTurn : List Builder → Builder
  | [], w => (0, w)
  | b :: rest, w =>
    let (err, w) := b w
    if err ≠ 0 then (err, w) else inTurn rest w

/-- A keyword that may be missing. -/
def given (value : Option Bytes) (b : Bytes → Builder) : Builder :=
  match value with
  | none => fun w => (0, w)
  | some v => b v

/-- The unit of a `SPACE=`, up to the first `=` or `,`. -/
def spaceUnit (space : Bytes) : Bytes := space.takeWhile (· ∉ [equals, comma])

/-- The quantities of a `SPACE=`, the parentheses around them dropped. -/
def spaceQty (space : Bytes) : Option Bytes :=
  match space.dropWhile (· ∉ [equals, comma]) with
  | [] => none
  | _ :: x => some ((x.dropWhile fun c => !isdigit c.toNat).takeWhile (· ≠ rparen))

/-- `dsspace()`. -/
def dsspace (space : Bytes) : Builder :=
  let unit := (spaceUnit space).take 11
  inTurn [if unit = literal "CYL" then txcyl grant else if unit = literal "TRK" then txtrk grant else txblk grant unit,
    given (spaceQty space) fun qty => txspac grant (qty.take 31)]

/-- The status of a `DISP=`. -/
def status : Option Bytes → Builder
  | none => txnew grant
  | some p =>
    if strstr p "NEW" then txnew grant
    else if strstr p "OLD" then txold grant
    else if strstr p "MOD" then txmod grant
    else if strstr p "SHR" then txshr grant
    else invalid

/-- A disposition of a `DISP=`. -/
def disposition (del ucat cat keep : Builder) (p : Bytes) : Builder :=
  if strstr p "DEL" then del
  else if strstr p "UNCAT" then ucat
  else if strstr p "CAT" then cat
  else if strstr p "KEEP" then keep
  else invalid

/-- `DISP=alloc[,normal[,abnormal]]`. -/
def dsdisp (disp : Bytes) : Builder :=
  let (p, save) := tok separators (some disp)
  let (q, save) := tok separators save
  let (r, _) := tok separators save
  inTurn [status grant p, given q (disposition (txdel grant) (txucat grant) (txcat grant) (txkeep grant)),
    given r (disposition (txadel grant) (txauca grant) (txacat grant) (txakee grant))]

/-- An empty value is none, for `DD=` and `DSN=`. -/
def nonempty (value : Option Bytes) : Option Bytes := value.filter (· ≠ [])

/-- The text units of all keywords. -/
def dsunits (d : Dsalc) : Builder :=
  inTurn [
    match nonempty d.ddn with
    | some ddn => txddn grant ddn
    | none => txrddn grant,
    given (nonempty d.dsn) (txdsn grant),
    given d.disp (dsdisp grant),
    given d.dcbdsn (txdcbd grant),
    given d.dsorg (txorg grant),
    given d.recfm (txrecf grant),
    given d.lrecl (txlrec grant),
    given d.blksize (txbksz grant),
    given d.space (dsspace grant),
    given d.unit (txunit grant),
    given d.volser (txvols grant),
    if d.freeclose then txclos grant else fun w => (0, w)]

/-- `RB99`: the flag against mount requests, and the text units. -/
structure RB99 where
  nomnt : Bool
  txtptr : List TXT99
deriving DecidableEq

/-- `FreeTXT99Array()`. -/
def freeTXT99Array (w : Work) : Store := w.txt99.list.foldl (fun store tu => release store tu.block) w.store

/-- What a call comes to: the return code, the request issued, and the storage. -/
structure Outcome where
  err : Int
  issued : Option RB99
  store : Store

/-- SVC 99 with the text units built, if none of the builders failed. -/
def issue (svc99 : RB99 → Int) (d : Dsalc) : Int × Work → Outcome
  | (err, w) =>
    if err ≠ 0 ∨ arraycount w.txt99 = 0 then ⟨err, none, freeTXT99Array w⟩
    else
      let rb99 : RB99 := ⟨(d.unit.isSome || d.volser.isSome) && !d.mount, w.txt99.list.map Tu.txt⟩
      ⟨svc99 rb99, some rb99, freeTXT99Array w⟩

/-- `__dsalc()`; `svc99` gives the return code of SVC 99. -/
def dsalc (svc99 : RB99 → Int) (opts : Option Bytes) : Outcome :=
  if grant .temp = false then ⟨1, none, .empty⟩ else issue svc99 (parse opts) (dsunits grant (parse opts) .start)

end Builders

end Libc370.Dynalloc
