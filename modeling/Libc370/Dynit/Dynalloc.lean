import Libc370.Dynit.Dynrq

/-! Dynamic allocation through a structure (`dynit/dynalloc.c`).

Each field of a `__dyn_t` that is given becomes a text unit of the request, in the order of
the source; the caller's own text units come behind them. What a request is to hold is said
without its areas (`units`), and when it may be issued (`Accepted`); the code adds just these
text units, or issues nothing (`dynalloc_request`).

`__svc99()` is a parameter. It is given the request block and what it points to, and may change
what is in the buffer. The fields that no function reads are in the structure as well, where the
documentation has something to say of them. -/
namespace Libc370.Dynit

open Bytes

/-! ### Keys -/

def DALDDNAM : Nat := 0x0001
def DALDSNAM : Nat := 0x0002
def DALMEMBR : Nat := 0x0003
def DALSTATS : Nat := 0x0004
def DALNDISP : Nat := 0x0005
def DALCDISP : Nat := 0x0006
def DALTRK : Nat := 0x0007
def DALCYL : Nat := 0x0008
def DALBLKLN : Nat := 0x0009
def DALPRIME : Nat := 0x000A
def DALSECND : Nat := 0x000B
def DALDIR : Nat := 0x000C
def DALRLSE : Nat := 0x000D
def DALSPFRM : Nat := 0x000E
def DALROUND : Nat := 0x000F
def DALVLSER : Nat := 0x0010
def DALVLRDS : Nat := 0x0014
def DALUNIT : Nat := 0x0015
def DALSYSOU : Nat := 0x0018
def DALSPGNM : Nat := 0x0019
def DALCLOSE : Nat := 0x001C
def DALDUMMY : Nat := 0x0024
def DALTERM : Nat := 0x0028
def DALDCBDS : Nat := 0x002C
def DALDCBDD : Nat := 0x002D
def DALBLKSZ : Nat := 0x0030
def DALDSORG : Nat := 0x003C
def DALKYLEN : Nat := 0x0040
def DALLRECL : Nat := 0x0042
def DALRECFM : Nat := 0x0049
def DALPASSW : Nat := 0x0050
def DALPERMA : Nat := 0x0052
def DALRTDDN : Nat := 0x0055
def DALRTDSN : Nat := 0x0056
def DALSHOLD : Nat := 0x0059

/-- `__DEF_CLASS`. -/
def DEF_CLASS : UInt8 := ebcdic '-'

/-- `__alcunit`. -/
def CYL : UInt8 := 1
def TRK : UInt8 := 2

/-- `__DSNT_PDS`. -/
def DSNT_PDS : UInt8 := 0x40

/-- `__misc_flags`. -/
def CLOSE : UInt8 := 0x01
def RELEASE : UInt8 := 0x02
def PERM : UInt8 := 0x04
def CONTIG : UInt8 := 0x08
def ROUND : UInt8 := 0x10
def TERM : UInt8 := 0x20
def DUMMY_DSN : UInt8 := 0x40
def HOLDQ : UInt8 := 0x80

/-- `S99VRBAL`, and the flags of a request. -/
def S99VRBAL : UInt8 := 0x01
def S99NOCNV : UInt8 := 0x40
def S99NOMNT : UInt8 := 0x20

/-! ### The structure -/

/-- `__dyn_t`. -/
structure Dyn where
  ddname : Option CString := none
  dsname : Option CString := none
  sysout : UInt8 := 0
  sysoutname : Option CString := none
  member : Option CString := none
  status : UInt8 := 0
  normdisp : UInt8 := 0
  conddisp : UInt8 := 0
  unit : Option CString := none
  volser : Option CString := none
  dsorg : Int16 := 0
  alcunit : UInt8 := 0
  primary : Int32 := 0
  secondary : Int32 := 0
  recfm : Int16 := 0
  blksize : Int16 := 0
  lrecl : UInt16 := 0
  volrefds : Option CString := none
  dcbrefds : Option CString := none
  dcbrefdd : Option CString := none
  miscFlags : UInt8 := 0
  password : Option CString := none
  miscitems : Option Items := none
  infocode : Int16 := 0
  errcode : Int16 := 0
  dirblk : Int32 := 0
  avgblk : Int32 := 0
  storclass : Option CString := none
  mgntclass : Option CString := none
  dataclass : Option CString := none
  recorg : UInt8 := 0
  keylength : Int16 := 0
  keyoffset : Int16 := 0
  refdd : Option CString := none
  like : Option CString := none
  dsntype : UInt8 := 0
  pathname : Option CString := none
  rls : UInt8 := 0
  retddn : Bytes8 := []
  retdsn : Bytes8 := []

/-- `RB99`, and what it points to. -/
structure RB99 where
  request : UInt8
  flag1 : UInt8
  tu : List Word
  buf : Bytes8
  deriving DecidableEq

/-- What SVC 99 comes to: its return code, its two codes, and the buffer. -/
structure Answer where
  rc : Int
  error : Int16
  info : Int16
  buf : Bytes8

/-- `__svc99()`. -/
structure Svc99 where
  call : RB99 → Answer
  keeps : ∀ rb, (call rb).buf.length = rb.buf.length

inductive Errno | enomem | einval
  deriving DecidableEq, Repr

/-- What `dynalloc()` comes to. -/
structure Out where
  rc : Int
  errno : Option Errno
  issued : Option RB99
  dyn : Option Dyn

/-! ### The code -/

abbrev Step := DYNRQ → Option DYNRQ

/-- One step after the other. -/
def run : List Step → Step
  | [], rq => some rq
  | f :: fs, rq => (f rq).bind (run fs)

/-- `if (c) f(rq)`. -/
def when (c : Prop) [Decidable c] (f : Step) : Step := fun rq => if c then f rq else some rq

/-- `rq->err = -2`. -/
def refuse : Step := fun rq => some {rq with err := -2}

/-- `given()`: a string field that is set. -/
def given (s : Option CString) : Bool := s.any fun s => s.val ≠ []

/-- `refused()`. -/
def refused (d : Dyn) : Bool :=
  given d.dataclass || d.recorg != 0 || d.keyoffset != 0 || given d.refdd || given d.like
    || (d.dsntype != 0 && d.dsntype != DSNT_PDS) || given d.pathname || d.rls != 0

/-- `__ddname` is `"????????"`. -/
def intoname (d : Dyn) : Bool := d.ddname.any fun s => s.val = literal "????????"

/-- A new data set without a name is a temporary one. -/
def temporary (d : Dyn) : Bool :=
  !given d.dsname && d.sysout == 0 && d.miscFlags &&& (DUMMY_DSN ||| TERM) == 0

section Code

variable (base : Base)

/-- `number()`. -/
def number (key : Nat) (v : Int) (n : Nat) : Step := fun rq =>
  if v ≤ 0 then some rq
  else if (if 4 ≤ n then 0xFFFFFFFF else 2 ^ (8 * n) - 1) < v.toNat then refuse rq
  else dynrqb base key v.toNat n rq

/-- `ddname()`. -/
def ddname (d : Dyn) (rq : DYNRQ) : Option (DYNRQ × Option Nat) :=
  if given d.ddname && !intoname d then (·, none) <$> dynrqs base DALDDNAM d.ddname 8 rq
  else dynrqr base DALRTDDN 8 rq

/-- `dcb()`. -/
def dcb (d : Dyn) : Step := run [
  dynrqs base DALDCBDS d.dcbrefds 44,
  dynrqs base DALDCBDD d.dcbrefdd 8,
  when (d.dsorg ≠ 0) (dynrqb base DALDSORG d.dsorg.toUInt16.toNat 2),
  number base DALRECFM d.recfm.toInt 1,
  when (d.recfm.toInt < 0) refuse,
  when (d.blksize ≠ 0) (dynrqb base DALBLKSZ d.blksize.toUInt16.toNat 2),
  when (d.lrecl ≠ 0) (dynrqb base DALLRECL d.lrecl.toNat 2),
  number base DALKYLEN d.keylength.toInt 1]

/-- `space()`. -/
def space (d : Dyn) : Step := run [
  fun rq =>
    if d.alcunit = CYL then dynrqb base DALCYL 0 0 rq
    else if d.alcunit = TRK then dynrqb base DALTRK 0 0 rq
    else when (d.alcunit ≠ 0) refuse rq,
  number base DALBLKLN d.avgblk.toInt 3,
  number base DALPRIME d.primary.toInt 3,
  number base DALSECND d.secondary.toInt 3,
  number base DALDIR d.dirblk.toInt 3]

/-- `flags()`. -/
def flags (f : UInt8) : Step := run [
  when (f &&& CLOSE ≠ 0) (dynrqb base DALCLOSE 0 0),
  when (f &&& RELEASE ≠ 0) (dynrqb base DALRLSE 0 0),
  when (f &&& PERM ≠ 0) (dynrqb base DALPERMA 0 0),
  when (f &&& CONTIG ≠ 0) (dynrqb base DALSPFRM 0x08 1),
  when (f &&& ROUND ≠ 0) (dynrqb base DALROUND 0 0),
  when (f &&& TERM ≠ 0) (dynrqb base DALTERM 0 0),
  when (f &&& DUMMY_DSN ≠ 0) (dynrqb base DALDUMMY 0 0),
  when (f &&& HOLDQ ≠ 0) (dynrqb base DALSHOLD 0 0)]

/-- `sysout()`. -/
def sysout (d : Dyn) : Step := when (d.sysout ≠ 0) (run [
  fun rq =>
    if d.sysout = DEF_CLASS then dynrqb base DALSYSOU 0 0 rq else dynrqb base DALSYSOU d.sysout.toNat 1 rq,
  dynrqs base DALSPGNM d.sysoutname 8])

/-- The fields between the DD name and what MVS returns. -/
def fields (d : Dyn) : Step := run [
  dynrqs base DALDSNAM d.dsname 44,
  dynrqs base DALMEMBR d.member 8,
  when (d.status ≠ 0) (dynrqb base DALSTATS d.status.toNat 1),
  when (d.normdisp ≠ 0) (dynrqb base DALNDISP d.normdisp.toNat 1),
  when (d.conddisp ≠ 0) (dynrqb base DALCDISP d.conddisp.toNat 1),
  sysout base d,
  dynrqs base DALUNIT d.unit 8,
  dynrqs base DALVLSER d.volser 6,
  dynrqs base DALVLRDS d.volrefds 44,
  dcb base d,
  space base d,
  flags base d.miscFlags,
  dynrqs base DALPASSW d.password 8]

/-- The place for the name of a temporary data set. -/
def retdsn (d : Dyn) (rq : DYNRQ) : Option (DYNRQ × Option Nat) :=
  if temporary d then dynrqr base DALRTDSN 44 rq else some (rq, none)

/-- The caller's text units. -/
def miscitems (d : Dyn) : Step := fun rq =>
  match d.miscitems with
  | none => some rq
  | some items => dynrqm items.val rq

/-- `__dynrqx()`: the request block, if the request is issued, or the error. -/
def dynrqx (rq : DYNRQ) (verb flag1 : UInt8) : Except Int RB99 :=
  let err := if rq.err = 0 ∧ rq.tu.length = 0 then -2 else rq.err
  if err ≠ 0 then .error err
  else .ok ⟨verb, flag1, rq.tu.modify (rq.tu.length - 1) (· ||| endMark), rq.buf⟩

/-- A string in an array. -/
def cstring (bs : Bytes8) : CString := ⟨bs.takeWhile (· ≠ 0), fun h => by simpa using List.mem_takeWhile_imp h⟩

/-- The generated DD name, into the structure. -/
def returnedDd (buf : Bytes8) (d : Dyn) : Option Nat → Option Dyn
  | none => some d
  | some o => do
    let retddn ← dynrqc buf o 9
    return {d with retddn, ddname := if intoname d then some (cstring retddn) else d.ddname}

/-- The generated data set name. -/
def returnedDsn (buf : Bytes8) (d : Dyn) : Option Nat → Option Dyn
  | none => some d
  | some o => do return {d with retdsn := ← dynrqc buf o 45}

/-- `flag1`. -/
def flag1 (d : Dyn) : UInt8 := S99NOCNV ||| if given d.unit || given d.volser then S99NOMNT else 0

/-- Behind SVC 99. -/
def answered (answer : Answer) (rb : RB99) (d : Dyn) (rtddn rtdsn : Option Nat) : Option Out := do
  let d := {d with errcode := answer.error, infocode := answer.info}
  if answer.rc = 0 then
    let d ← returnedDd answer.buf d rtddn
    return ⟨0, none, some rb, some (← returnedDsn answer.buf d rtdsn)⟩
  else return ⟨answer.rc, none, some rb, some d⟩

/-- `dynalloc()`, of a structure whose codes are clear. -/
def allocate (svc99 : Svc99) (d : Dyn) : Option Out := do
  let (rq, rtddn) ← ddname base d {err := if refused d then -2 else 0}
  let rq ← fields base d rq
  let (rq, rtdsn) ← retdsn base d rq
  let rq ← miscitems d rq
  match dynrqx rq S99VRBAL (flag1 d) with
  | .error err => return ⟨err, some (if err = -1 then .enomem else .einval), none, some d⟩
  | .ok rb => answered (svc99.call rb) rb d rtddn rtdsn

/-- `dynalloc()`. -/
def dynalloc (svc99 : Svc99) (d : Option Dyn) : Option Out :=
  match d with
  | none => some ⟨-2, some .einval, none, none⟩
  | some d => allocate base svc99 {d with errcode := 0, infocode := 0}

end Code

/-! ### What a request is to hold -/

/-- A name: in upper case, and at most so long. -/
def named (key max : Nat) (s : Option CString) : List TextUnit :=
  match s with
  | none => []
  | some s => if s.val = [] then [] else [⟨key, (s.val.take max).map toupper⟩]

/-- A quantity: nothing where it is 0 or less. -/
def quantity (key n : Nat) (v : Int) : List TextUnit := if 0 < v then [⟨key, bigEndian n v.toNat⟩] else []

/-- A code of `n` bytes. -/
def code (c : Prop) [Decidable c] (key n v : Nat) : List TextUnit := if c then [⟨key, bigEndian n v⟩] else []

/-- The text unit of the DD name: given, or returned. -/
def ddUnits (d : Dyn) : List TextUnit :=
  if given d.ddname && !intoname d then named DALDDNAM 8 d.ddname else [⟨DALRTDDN, List.replicate 8 blank⟩]

/-- The text units of a SYSOUT data set. The default class has no value. -/
def sysoutUnits (d : Dyn) : List TextUnit :=
  if d.sysout = 0 then []
  else (if d.sysout = DEF_CLASS then [⟨DALSYSOU, []⟩] else [⟨DALSYSOU, [d.sysout]⟩]) ++ named DALSPGNM 8 d.sysoutname

/-- The text units of the DCB. -/
def dcbUnits (d : Dyn) : List TextUnit := [
  named DALDCBDS 44 d.dcbrefds,
  named DALDCBDD 8 d.dcbrefdd,
  code (d.dsorg ≠ 0) DALDSORG 2 d.dsorg.toUInt16.toNat,
  quantity DALRECFM 1 d.recfm.toInt,
  code (d.blksize ≠ 0) DALBLKSZ 2 d.blksize.toUInt16.toNat,
  code (d.lrecl ≠ 0) DALLRECL 2 d.lrecl.toNat,
  quantity DALKYLEN 1 d.keylength.toInt].flatten

/-- The text units of the space. -/
def spaceUnits (d : Dyn) : List TextUnit := [
  if d.alcunit = CYL then [⟨DALCYL, []⟩] else if d.alcunit = TRK then [⟨DALTRK, []⟩] else [],
  quantity DALBLKLN 3 d.avgblk.toInt,
  quantity DALPRIME 3 d.primary.toInt,
  quantity DALSECND 3 d.secondary.toInt,
  quantity DALDIR 3 d.dirblk.toInt].flatten

/-- The text units of the flags. -/
def flagUnits (f : UInt8) : List TextUnit := [
  code (f &&& CLOSE ≠ 0) DALCLOSE 0 0,
  code (f &&& RELEASE ≠ 0) DALRLSE 0 0,
  code (f &&& PERM ≠ 0) DALPERMA 0 0,
  code (f &&& CONTIG ≠ 0) DALSPFRM 1 0x08,
  code (f &&& ROUND ≠ 0) DALROUND 0 0,
  code (f &&& TERM ≠ 0) DALTERM 0 0,
  code (f &&& DUMMY_DSN ≠ 0) DALDUMMY 0 0,
  code (f &&& HOLDQ ≠ 0) DALSHOLD 0 0].flatten

/-- The text unit that a temporary data set's name is returned in. -/
def dsnUnits (d : Dyn) : List TextUnit := if temporary d then [⟨DALRTDSN, List.replicate 44 blank⟩] else []

/-- The text units of the fields between them. -/
def fieldUnits (d : Dyn) : List TextUnit := [
  named DALDSNAM 44 d.dsname,
  named DALMEMBR 8 d.member,
  code (d.status ≠ 0) DALSTATS 1 d.status.toNat,
  code (d.normdisp ≠ 0) DALNDISP 1 d.normdisp.toNat,
  code (d.conddisp ≠ 0) DALCDISP 1 d.conddisp.toNat,
  sysoutUnits d,
  named DALUNIT 8 d.unit,
  named DALVLSER 6 d.volser,
  named DALVLRDS 44 d.volrefds,
  dcbUnits d,
  spaceUnits d,
  flagUnits d.miscFlags,
  named DALPASSW 8 d.password].flatten

/-- The text units of all fields. -/
def units (d : Dyn) : List TextUnit := ddUnits d ++ fieldUnits d ++ dsnUnits d

/-- The caller's text units. -/
def items (d : Dyn) : List Word :=
  match d.miscitems with
  | none => []
  | some items => listed items.val

/-- No field is refused: none that MVS 3.8j cannot do, and no number that its text unit does not take. -/
structure Accepted (d : Dyn) : Prop where
  possible : refused d = false
  recfm : 0 ≤ d.recfm.toInt ∧ d.recfm.toInt < 2 ^ 8
  keylength : d.keylength.toInt < 2 ^ 8
  alcunit : d.alcunit = 0 ∨ d.alcunit = CYL ∨ d.alcunit = TRK
  avgblk : d.avgblk.toInt < 2 ^ 24
  primary : d.primary.toInt < 2 ^ 24
  secondary : d.secondary.toInt < 2 ^ 24
  dirblk : d.dirblk.toInt < 2 ^ 24

/-- A request that holds the text units of the fields, each once, and the caller's behind them, of which just the last
pointer has the mark. -/
structure Request (base : Base) (d : Dyn) (rb : RB99) : Prop where
  verb : rb.request = S99VRBAL
  once : ((units d).map TextUnit.key).Nodup
  held : ∃ os : List Nat, os.length = (units d).length ∧
    rb.tu.map unmarked = os.map (fun o => BitVec.ofNat 32 (base.val + o)) ++ items d ∧
    ∀ v ∈ (units d).zip os, window rb.buf v.2 v.1.bytes.length = v.1.bytes
  last : ∀ (i : Nat) (p : Word), rb.tu[i]? = some p → (p &&& endMark ≠ 0 ↔ i + 1 = rb.tu.length)

/-! ### The fields add their text units -/

theorem bigEndian_one (c : UInt8) : bigEndian 1 c.toNat = [c] := by
  have hlt := c.toNat_lt
  rw [bigEndian, bigEndian, List.nil_append, Nat.mod_eq_of_lt hlt, UInt8.ofNat_toNat]

section Adds

variable {base : Base} {ok ok' : Prop} {more more' : List TextUnit} {f : Step} {fs : List Step}

theorem adds_nil : Adds base True ([] : List (List TextUnit)).flatten (run []) := adds_nothing base

theorem Adds.cons {rest : List (List TextUnit)} (hf : Adds base ok more f) (hfs : Adds base ok' rest.flatten (run fs)) :
    Adds base (ok ∧ ok') (more :: rest).flatten (run (f :: fs)) := by
  rw [List.flatten_cons]
  exact hf.bind hfs

theorem adds_dynrqb (key v n : Nat) : Adds base True [⟨key, bigEndian n v⟩] (dynrqb base key v n) :=
  adds_valued base ⟨key, bigEndian n v⟩

theorem adds_named (key max : Nat) (s : Option CString) : Adds base True (named key max s) (dynrqs base key s max) := by
  cases s with
  | none => exact adds_nothing base
  | some s =>
    by_cases hs : s.val = []
    · have hcode : dynrqs base key (some s) max = some := by
        funext rq
        rw [dynrqs, if_pos hs]
      rw [hcode, named, if_pos hs]
      exact adds_nothing base
    · have hcode : dynrqs base key (some s) max =
          fun rq => Prod.fst <$> valued base rq key ((s.val.take max).map toupper) := by
        funext rq
        rw [dynrqs, if_neg hs, Nat.min_comm, ← List.take_take, List.take_length]
      rw [hcode, named, if_neg hs]
      exact adds_valued base ⟨key, (s.val.take max).map toupper⟩

theorem Adds.when (hf : Adds base ok more f) (c : Prop) [Decidable c] :
    Adds base (c → ok) (if c then more else []) (when c f) := by
  by_cases hc : c
  · have hcode : Dynit.when c f = f := by
      funext rq
      rw [Dynit.when, if_pos hc]
    rw [hcode, if_pos hc]
    exact hf.congr ⟨fun h => h hc, fun h _ => h⟩ rfl
  · have hcode : Dynit.when c f = some := by
      funext rq
      rw [Dynit.when, if_neg hc]
    rw [hcode, if_neg hc]
    exact (adds_nothing base).congr ⟨fun _ => trivial, fun _ h => absurd h hc⟩ rfl

theorem adds_code (c : Prop) [Decidable c] (key n v : Nat) :
    Adds base True (code c key n v) (when c (dynrqb base key v n)) :=
  ((adds_dynrqb key v n).when c).congr (by simp) rfl

theorem adds_refuse (c : Prop) [Decidable c] : Adds base (¬ c) [] (when c refuse) :=
  ((adds_refusal base (-2) (by decide) []).when c).congr Iff.rfl (by split <;> rfl)

theorem adds_quantity (key n : Nat) (hn : n ≤ 3) (v : Int) :
    Adds base (v < 2 ^ (8 * n)) (quantity key n v) (number base key v n) := by
  by_cases hv : v ≤ 0
  · have hcode : number base key v n = some := by
      funext rq
      rw [number, if_pos hv]
    have hpos : (0 : Int) < 2 ^ (8 * n) := by positivity
    rw [hcode, quantity, if_neg (not_lt.mpr hv)]
    exact (adds_nothing base).congr ⟨fun _ => trivial, fun _ => by omega⟩ rfl
  · have hmax : (if 4 ≤ n then 0xFFFFFFFF else 2 ^ (8 * n) - 1) < v.toNat ↔ ¬ v < 2 ^ (8 * n) := by
      have hpos : 0 < 2 ^ (8 * n) := Nat.two_pow_pos _
      have hcast : ((2 ^ (8 * n) : Nat) : Int) = 2 ^ (8 * n) := by push_cast; rfl
      rw [if_neg (by omega)]
      omega
    rw [quantity, if_pos (not_le.mp hv)]
    by_cases hbig : v < 2 ^ (8 * n)
    · have hcode : number base key v n = dynrqb base key v.toNat n := by
        funext rq
        rw [number, if_neg hv, if_neg (fun h => hmax.mp h hbig)]
      rw [hcode]
      exact (adds_dynrqb key v.toNat n).congr ⟨fun _ => trivial, fun _ => hbig⟩ rfl
    · have hcode : number base key v n = refuse := by
        funext rq
        rw [number, if_neg hv, if_pos (hmax.mpr hbig)]
      rw [hcode]
      exact (adds_refusal base (-2) (by decide) _).congr ⟨fun h => hbig h, fun h => h.elim⟩ rfl

theorem adds_sysout (d : Dyn) : Adds base True (sysoutUnits d) (sysout base d) := by
  have hclass : Adds base True (if d.sysout = DEF_CLASS then [⟨DALSYSOU, []⟩] else [⟨DALSYSOU, [d.sysout]⟩]) fun rq =>
      if d.sysout = DEF_CLASS then dynrqb base DALSYSOU 0 0 rq else dynrqb base DALSYSOU d.sysout.toNat 1 rq := by
    split
    · exact adds_dynrqb DALSYSOU 0 0
    · exact (adds_dynrqb DALSYSOU d.sysout.toNat 1).congr Iff.rfl (by rw [bigEndian_one])
  have hboth := hclass.cons <|
    (adds_named DALSPGNM 8 d.sysoutname).cons adds_nil
  refine (hboth.when (d.sysout ≠ 0)).congr (by simp) ?_
  rw [sysoutUnits, ite_not, List.flatten_cons, List.flatten_singleton]

theorem adds_alcunit (d : Dyn) :
    Adds base (d.alcunit = 0 ∨ d.alcunit = CYL ∨ d.alcunit = TRK)
      (if d.alcunit = CYL then [⟨DALCYL, []⟩] else if d.alcunit = TRK then [⟨DALTRK, []⟩] else []) fun rq =>
        if d.alcunit = CYL then dynrqb base DALCYL 0 0 rq
        else if d.alcunit = TRK then dynrqb base DALTRK 0 0 rq
        else when (d.alcunit ≠ 0) refuse rq := by
  by_cases hcyl : d.alcunit = CYL
  · simp only [hcyl, if_true]
    exact (adds_dynrqb DALCYL 0 0).congr (by simp) rfl
  by_cases htrk : d.alcunit = TRK
  · simp only [htrk, if_true]
    exact (adds_dynrqb DALTRK 0 0).congr (by simp) rfl
  · simp only [hcyl, htrk, if_false]
    exact (adds_refuse (d.alcunit ≠ 0)).congr (by simp) rfl

theorem adds_dcb (d : Dyn) :
    Adds base ((0 ≤ d.recfm.toInt ∧ d.recfm.toInt < 2 ^ 8) ∧ d.keylength.toInt < 2 ^ 8) (dcbUnits d) (dcb base d) := by
  have hsteps := (@adds_named base DALDCBDS 44 d.dcbrefds).cons <|
    (adds_named DALDCBDD 8 d.dcbrefdd).cons <|
    (adds_code (d.dsorg ≠ 0) DALDSORG 2 d.dsorg.toUInt16.toNat).cons <|
    (adds_quantity DALRECFM 1 (by decide) d.recfm.toInt).cons <|
    (adds_refuse (d.recfm.toInt < 0)).cons <|
    (adds_code (d.blksize ≠ 0) DALBLKSZ 2 d.blksize.toUInt16.toNat).cons <|
    (adds_code (d.lrecl ≠ 0) DALLRECL 2 d.lrecl.toNat).cons <|
    (adds_quantity DALKYLEN 1 (by decide) d.keylength.toInt).cons adds_nil
  refine hsteps.congr ?_ rfl
  simp only [true_and, and_true, not_lt, Nat.mul_one]
  tauto

theorem adds_space (d : Dyn) :
    Adds base ((d.alcunit = 0 ∨ d.alcunit = CYL ∨ d.alcunit = TRK) ∧ d.avgblk.toInt < 2 ^ 24 ∧
        d.primary.toInt < 2 ^ 24 ∧ d.secondary.toInt < 2 ^ 24 ∧ d.dirblk.toInt < 2 ^ 24)
      (spaceUnits d) (space base d) := by
  have hsteps := (@adds_alcunit base d).cons <|
    (adds_quantity DALBLKLN 3 (by decide) d.avgblk.toInt).cons <|
    (adds_quantity DALPRIME 3 (by decide) d.primary.toInt).cons <|
    (adds_quantity DALSECND 3 (by decide) d.secondary.toInt).cons <|
    (adds_quantity DALDIR 3 (by decide) d.dirblk.toInt).cons adds_nil
  refine hsteps.congr ?_ rfl
  simp only [and_true, Nat.reduceMul]

theorem adds_flags (f : UInt8) : Adds base True (flagUnits f) (flags base f) := by
  have hsteps := (@adds_code base (f &&& CLOSE ≠ 0) _ DALCLOSE 0 0).cons <|
    (adds_code (f &&& RELEASE ≠ 0) DALRLSE 0 0).cons <|
    (adds_code (f &&& PERM ≠ 0) DALPERMA 0 0).cons <|
    (adds_code (f &&& CONTIG ≠ 0) DALSPFRM 1 0x08).cons <|
    (adds_code (f &&& ROUND ≠ 0) DALROUND 0 0).cons <|
    (adds_code (f &&& TERM ≠ 0) DALTERM 0 0).cons <|
    (adds_code (f &&& DUMMY_DSN ≠ 0) DALDUMMY 0 0).cons <|
    (adds_code (f &&& HOLDQ ≠ 0) DALSHOLD 0 0).cons adds_nil
  exact hsteps.congr (by simp only [and_true]) rfl

/-- What is accepted of the fields between the DD name and the caller's text units. -/
theorem adds_fields (d : Dyn) :
    Adds base (((0 ≤ d.recfm.toInt ∧ d.recfm.toInt < 2 ^ 8) ∧ d.keylength.toInt < 2 ^ 8) ∧
        (d.alcunit = 0 ∨ d.alcunit = CYL ∨ d.alcunit = TRK) ∧ d.avgblk.toInt < 2 ^ 24 ∧
        d.primary.toInt < 2 ^ 24 ∧ d.secondary.toInt < 2 ^ 24 ∧ d.dirblk.toInt < 2 ^ 24)
      (fieldUnits d) (fields base d) := by
  have hsteps := (@adds_named base DALDSNAM 44 d.dsname).cons <|
    (adds_named DALMEMBR 8 d.member).cons <|
    (adds_code (d.status ≠ 0) DALSTATS 1 d.status.toNat).cons <|
    (adds_code (d.normdisp ≠ 0) DALNDISP 1 d.normdisp.toNat).cons <|
    (adds_code (d.conddisp ≠ 0) DALCDISP 1 d.conddisp.toNat).cons <|
    (adds_sysout d).cons <| (adds_named DALUNIT 8 d.unit).cons <| (adds_named DALVLSER 6 d.volser).cons <|
    (adds_named DALVLRDS 44 d.volrefds).cons <| (adds_dcb d).cons <| (adds_space d).cons <|
    (adds_flags d.miscFlags).cons <| (adds_named DALPASSW 8 d.password).cons adds_nil
  exact hsteps.congr (by simp only [true_and, and_true]) rfl

theorem adds_ddname (d : Dyn) : Adds base True (ddUnits d) fun rq => Prod.fst <$> ddname base d rq := by
  by_cases hgiven : (given d.ddname && !intoname d) = true
  · have hcode : (fun rq => Prod.fst <$> ddname base d rq) = dynrqs base DALDDNAM d.ddname 8 := by
      funext rq
      rw [ddname, if_pos hgiven, ← comp_map]
      exact id_map _
    rw [hcode, ddUnits, if_pos hgiven]
    exact adds_named DALDDNAM 8 d.ddname
  · have hcode : ddname base d = dynrqr base DALRTDDN 8 := by
      funext rq
      rw [ddname, if_neg hgiven]
    rw [hcode, ddUnits, if_neg hgiven]
    exact adds_valued base ⟨DALRTDDN, List.replicate 8 blank⟩

theorem adds_retdsn (d : Dyn) : Adds base True (dsnUnits d) fun rq => Prod.fst <$> retdsn base d rq := by
  by_cases htemp : temporary d = true
  · have hcode : retdsn base d = dynrqr base DALRTDSN 44 := by
      funext rq
      rw [retdsn, if_pos htemp]
    rw [hcode, dsnUnits, if_pos htemp]
    exact adds_valued base ⟨DALRTDSN, List.replicate 44 blank⟩
  · have hcode : (fun rq => Prod.fst <$> retdsn base d rq) = some := by
      funext rq
      rw [retdsn, if_neg htemp]
      rfl
    rw [hcode, dsnUnits, if_neg htemp]
    exact adds_nothing base

end Adds

/-! ### What is returned -/

section Returned

variable {base : Base} {rq rq' : DYNRQ} {us : List TextUnit} {o : Nat}

/-- A place that MVS returns a value in lies in the buffer. -/
theorem dynrqr_place (h : Built base rq us) {key n : Nat} (hn : n ≠ 0)
    (heq : dynrqr base key n rq = some (rq', some o)) : o + 6 + n ≤ dynrqBuf := by
  have hused := h.used
  by_cases hfits : Fits (us ++ [⟨key, List.replicate n blank⟩])
  · have hvalued := h.valued_eq ⟨key, List.replicate n blank⟩ hfits
    have hsame := Option.some.inj (heq.symm.trans hvalued)
    obtain ⟨-, ho⟩ := Prod.mk.inj hsame
    have hbuffer := hfits.buffer
    have hle := TextUnit.length_le_size ⟨key, List.replicate n blank⟩
    have hbytes := TextUnit.bytes_length ⟨key, List.replicate n blank⟩
    rw [List.length_replicate, if_pos hn] at hbytes
    rw [sizes_append, sizes_singleton] at hbuffer
    cases ho
    omega
  · have hvalued := h.valued_refused ⟨key, List.replicate n blank⟩ hfits
    have hsame := Option.some.inj (heq.symm.trans hvalued)
    cases (Prod.mk.inj hsame).2

theorem dynrqc_eq {buf : Bytes8} (o size : Nat) (h : o + 6 + (size - 1) ≤ buf.length) :
    ∃ s, dynrqc buf o size = some s := by
  rw [dynrqc, read, if_pos (by omega)]
  simp only [Option.bind_eq_bind, Option.bind_some]
  rw [read, if_pos (by omega)]
  exact ⟨_, rfl⟩

theorem returnedDd_eq {buf : Bytes8} (hbuf : buf.length = dynrqBuf) (d : Dyn) {rtddn : Option Nat}
    (h : ∀ o ∈ rtddn, o + 6 + 8 ≤ dynrqBuf) : ∃ d', returnedDd buf d rtddn = some d' := by
  cases rtddn with
  | none => exact ⟨d, rfl⟩
  | some o =>
    obtain ⟨s, hs⟩ := dynrqc_eq o 9 (by rw [hbuf]; exact h o rfl)
    rw [returnedDd, hs]
    exact ⟨_, rfl⟩

theorem returnedDsn_eq {buf : Bytes8} (hbuf : buf.length = dynrqBuf) (d : Dyn) {rtdsn : Option Nat}
    (h : ∀ o ∈ rtdsn, o + 6 + 44 ≤ dynrqBuf) : ∃ d', returnedDsn buf d rtdsn = some d' := by
  cases rtdsn with
  | none => exact ⟨d, rfl⟩
  | some o =>
    obtain ⟨s, hs⟩ := dynrqc_eq o 45 (by rw [hbuf]; exact h o rfl)
    rw [returnedDsn, hs]
    exact ⟨_, rfl⟩

theorem ddname_place (h : Built base rq us) (d : Dyn) {place : Option Nat}
    (heq : ddname base d rq = some (rq', place)) : ∀ o ∈ place, o + 6 + 8 ≤ dynrqBuf := by
  intro o ho
  rw [Option.mem_def.mp ho, ddname] at heq
  split at heq
  · obtain ⟨rq'', -, hpair⟩ := Option.map_eq_some_iff.mp heq
    cases hpair
  · exact dynrqr_place h (by decide) heq

theorem retdsn_place (h : Built base rq us) (d : Dyn) {place : Option Nat}
    (heq : retdsn base d rq = some (rq', place)) : ∀ o ∈ place, o + 6 + 44 ≤ dynrqBuf := by
  intro o ho
  rw [Option.mem_def.mp ho, retdsn] at heq
  split at heq
  · exact dynrqr_place h (by decide) heq
  · cases heq

end Returned

/-! ### Sizes and keys -/

theorem size_le (u : TextUnit) : u.size ≤ 7 + u.value.length := by
  have hlen := u.bytes_length
  rw [TextUnit.size]
  split at hlen <;> omega

theorem sizes_named_le (key max : Nat) (s : Option CString) : sizes (named key max s) ≤ 7 + max := by
  cases s with
  | none => exact Nat.zero_le _
  | some s =>
    rw [named]
    split
    · exact Nat.zero_le _
    · rw [sizes_singleton]
      refine (size_le _).trans ?_
      rw [List.length_map, List.length_take]
      omega

theorem sizes_quantity_le (key n : Nat) (v : Int) : sizes (quantity key n v) ≤ 7 + n := by
  rw [quantity]
  split
  · rw [sizes_singleton]
    exact (size_le _).trans (by rw [bigEndian_length])
  · exact Nat.zero_le _

theorem sizes_code_le (c : Prop) [Decidable c] (key n v : Nat) : sizes (code c key n v) ≤ 7 + n := by
  rw [code]
  split
  · rw [sizes_singleton]
    exact (size_le _).trans (by rw [bigEndian_length])
  · exact Nat.zero_le _

/-- The buffer has room for all fields. -/
theorem sizes_units_le (d : Dyn) : sizes (units d) ≤ dynrqBuf := by
  have hdd : sizes (ddUnits d) ≤ 15 := by
    rw [ddUnits]
    split
    · exact sizes_named_le DALDDNAM 8 d.ddname
    · decide
  have hdsn : sizes (dsnUnits d) ≤ 51 := by
    rw [dsnUnits]
    split <;> decide
  have hsysout : sizes (sysoutUnits d) ≤ 23 := by
    have hname := sizes_named_le DALSPGNM 8 d.sysoutname
    rw [sysoutUnits]
    split
    · exact Nat.zero_le _
    · have hclass : sizes (if d.sysout = DEF_CLASS then [⟨DALSYSOU, []⟩] else [⟨DALSYSOU, [d.sysout]⟩]) ≤ 8 := by
        split
        · decide
        · exact (sizes_singleton _).trans_le (size_le ⟨DALSYSOU, [d.sysout]⟩)
      rw [sizes_append]
      omega
  have hunit : sizes (if d.alcunit = CYL then [⟨DALCYL, []⟩] else if d.alcunit = TRK then [⟨DALTRK, []⟩] else []) ≤
      4 := by
    split
    · decide
    · split <;> decide
  have hdcb : sizes (dcbUnits d) ≤ 109 := by
    have h1 := sizes_named_le DALDCBDS 44 d.dcbrefds
    have h2 := sizes_named_le DALDCBDD 8 d.dcbrefdd
    have h3 := sizes_code_le (d.dsorg ≠ 0) DALDSORG 2 d.dsorg.toUInt16.toNat
    have h4 := sizes_quantity_le DALRECFM 1 d.recfm.toInt
    have h5 := sizes_code_le (d.blksize ≠ 0) DALBLKSZ 2 d.blksize.toUInt16.toNat
    have h6 := sizes_code_le (d.lrecl ≠ 0) DALLRECL 2 d.lrecl.toNat
    have h7 := sizes_quantity_le DALKYLEN 1 d.keylength.toInt
    simp only [dcbUnits, List.flatten_cons, List.flatten_nil, sizes_append]
    have hnil : sizes [] = 0 := rfl
    omega
  have hspace : sizes (spaceUnits d) ≤ 44 := by
    have h1 := sizes_quantity_le DALBLKLN 3 d.avgblk.toInt
    have h2 := sizes_quantity_le DALPRIME 3 d.primary.toInt
    have h3 := sizes_quantity_le DALSECND 3 d.secondary.toInt
    have h4 := sizes_quantity_le DALDIR 3 d.dirblk.toInt
    simp only [spaceUnits, List.flatten_cons, List.flatten_nil, sizes_append]
    have hnil : sizes [] = 0 := rfl
    omega
  have hflags : sizes (flagUnits d.miscFlags) ≤ 57 := by
    have h1 := sizes_code_le (d.miscFlags &&& CLOSE ≠ 0) DALCLOSE 0 0
    have h2 := sizes_code_le (d.miscFlags &&& RELEASE ≠ 0) DALRLSE 0 0
    have h3 := sizes_code_le (d.miscFlags &&& PERM ≠ 0) DALPERMA 0 0
    have h4 := sizes_code_le (d.miscFlags &&& CONTIG ≠ 0) DALSPFRM 1 0x08
    have h5 := sizes_code_le (d.miscFlags &&& ROUND ≠ 0) DALROUND 0 0
    have h6 := sizes_code_le (d.miscFlags &&& TERM ≠ 0) DALTERM 0 0
    have h7 := sizes_code_le (d.miscFlags &&& DUMMY_DSN ≠ 0) DALDUMMY 0 0
    have h8 := sizes_code_le (d.miscFlags &&& HOLDQ ≠ 0) DALSHOLD 0 0
    simp only [flagUnits, List.flatten_cons, List.flatten_nil, sizes_append]
    have hnil : sizes [] = 0 := rfl
    omega
  have hfields : sizes (fieldUnits d) ≤ 480 := by
    have h1 := sizes_named_le DALDSNAM 44 d.dsname
    have h2 := sizes_named_le DALMEMBR 8 d.member
    have h3 := sizes_code_le (d.status ≠ 0) DALSTATS 1 d.status.toNat
    have h4 := sizes_code_le (d.normdisp ≠ 0) DALNDISP 1 d.normdisp.toNat
    have h5 := sizes_code_le (d.conddisp ≠ 0) DALCDISP 1 d.conddisp.toNat
    have h6 := sizes_named_le DALUNIT 8 d.unit
    have h7 := sizes_named_le DALVLSER 6 d.volser
    have h8 := sizes_named_le DALVLRDS 44 d.volrefds
    have h9 := sizes_named_le DALPASSW 8 d.password
    simp only [fieldUnits, List.flatten_cons, List.flatten_nil, sizes_append]
    have hnil : sizes [] = 0 := rfl
    omega
  rw [units, sizes_append, sizes_append, dynrqBuf]
  omega

section Keys

/-- The keys of some text units are among these, in their order. -/
def KeysIn (us : List TextUnit) (ks : List Nat) : Prop := (us.map TextUnit.key).Sublist ks

theorem KeysIn.append {us us' : List TextUnit} {ks ks' : List Nat} (h : KeysIn us ks) (h' : KeysIn us' ks') :
    KeysIn (us ++ us') (ks ++ ks') := by
  rw [KeysIn, List.map_append]
  exact List.Sublist.append h h'

theorem KeysIn.cons {us : List TextUnit} {uss : List (List TextUnit)} {ks ks' : List Nat} (h : KeysIn us ks)
    (h' : KeysIn uss.flatten ks') : KeysIn (us :: uss).flatten (ks ++ ks') := by
  rw [List.flatten_cons]
  exact h.append h'

theorem keysIn_nil : KeysIn ([] : List (List TextUnit)).flatten [] := List.Sublist.refl []

theorem keysIn_named (key max : Nat) (s : Option CString) : KeysIn (named key max s) [key] := by
  cases s with
  | none => exact List.nil_sublist _
  | some s =>
    rw [named]
    split
    · exact List.nil_sublist _
    · exact List.Sublist.refl _

theorem keysIn_quantity (key n : Nat) (v : Int) : KeysIn (quantity key n v) [key] := by
  rw [quantity]
  split
  · exact List.Sublist.refl _
  · exact List.nil_sublist _

theorem keysIn_code (c : Prop) [Decidable c] (key n v : Nat) : KeysIn (code c key n v) [key] := by
  rw [code]
  split
  · exact List.Sublist.refl _
  · exact List.nil_sublist _

/-- No text unit is there twice. -/
theorem units_nodup (d : Dyn) : ((units d).map TextUnit.key).Nodup := by
  have hdd : KeysIn (ddUnits d) [DALDDNAM, DALRTDDN] := by
    rw [ddUnits]
    split
    · exact (keysIn_named DALDDNAM 8 d.ddname).trans (List.sublist_append_left [DALDDNAM] [DALRTDDN])
    · exact List.sublist_append_right [DALDDNAM] [DALRTDDN]
  have hdsn : KeysIn (dsnUnits d) [DALRTDSN] := by
    rw [dsnUnits]
    split
    · exact List.Sublist.refl _
    · exact List.nil_sublist _
  have hsysout : KeysIn (sysoutUnits d) [DALSYSOU, DALSPGNM] := by
    rw [sysoutUnits]
    split
    · exact List.nil_sublist _
    · have hclass : KeysIn (if d.sysout = DEF_CLASS then [⟨DALSYSOU, []⟩] else [⟨DALSYSOU, [d.sysout]⟩])
          [DALSYSOU] := by
        split <;> exact List.Sublist.refl _
      exact hclass.append (keysIn_named DALSPGNM 8 d.sysoutname)
  have hunit : KeysIn (if d.alcunit = CYL then [⟨DALCYL, []⟩] else if d.alcunit = TRK then [⟨DALTRK, []⟩] else [])
      [DALCYL, DALTRK] := by
    split
    · exact List.sublist_append_left [DALCYL] [DALTRK]
    · split
      · exact List.sublist_append_right [DALCYL] [DALTRK]
      · exact List.nil_sublist _
  have hdcb : KeysIn (dcbUnits d) _ := (keysIn_named DALDCBDS 44 d.dcbrefds).cons <|
      (keysIn_named DALDCBDD 8 d.dcbrefdd).cons <|
    (keysIn_code (d.dsorg ≠ 0) DALDSORG 2 d.dsorg.toUInt16.toNat).cons <|
    (keysIn_quantity DALRECFM 1 d.recfm.toInt).cons <|
    (keysIn_code (d.blksize ≠ 0) DALBLKSZ 2 d.blksize.toUInt16.toNat).cons <|
    (keysIn_code (d.lrecl ≠ 0) DALLRECL 2 d.lrecl.toNat).cons <|
    (keysIn_quantity DALKYLEN 1 d.keylength.toInt).cons keysIn_nil
  have hspace : KeysIn (spaceUnits d) _ := hunit.cons <| (keysIn_quantity DALBLKLN 3 d.avgblk.toInt).cons <|
    (keysIn_quantity DALPRIME 3 d.primary.toInt).cons <| (keysIn_quantity DALSECND 3 d.secondary.toInt).cons <|
    (keysIn_quantity DALDIR 3 d.dirblk.toInt).cons keysIn_nil
  have hflags : KeysIn (flagUnits d.miscFlags) _ := (keysIn_code (d.miscFlags &&& CLOSE ≠ 0) DALCLOSE 0 0).cons <|
    (keysIn_code (d.miscFlags &&& RELEASE ≠ 0) DALRLSE 0 0).cons <|
    (keysIn_code (d.miscFlags &&& PERM ≠ 0) DALPERMA 0 0).cons <|
    (keysIn_code (d.miscFlags &&& CONTIG ≠ 0) DALSPFRM 1 0x08).cons <|
    (keysIn_code (d.miscFlags &&& ROUND ≠ 0) DALROUND 0 0).cons <|
    (keysIn_code (d.miscFlags &&& TERM ≠ 0) DALTERM 0 0).cons <|
    (keysIn_code (d.miscFlags &&& DUMMY_DSN ≠ 0) DALDUMMY 0 0).cons <|
    (keysIn_code (d.miscFlags &&& HOLDQ ≠ 0) DALSHOLD 0 0).cons keysIn_nil
  have hfields : KeysIn (fieldUnits d) _ := (keysIn_named DALDSNAM 44 d.dsname).cons <|
      (keysIn_named DALMEMBR 8 d.member).cons <|
    (keysIn_code (d.status ≠ 0) DALSTATS 1 d.status.toNat).cons <|
    (keysIn_code (d.normdisp ≠ 0) DALNDISP 1 d.normdisp.toNat).cons <|
    (keysIn_code (d.conddisp ≠ 0) DALCDISP 1 d.conddisp.toNat).cons <| hsysout.cons <|
    (keysIn_named DALUNIT 8 d.unit).cons <| (keysIn_named DALVLSER 6 d.volser).cons <|
    (keysIn_named DALVLRDS 44 d.volrefds).cons <| hdcb.cons <|
    hspace.cons <| hflags.cons <|
    (keysIn_named DALPASSW 8 d.password).cons keysIn_nil
  exact ((hdd.append hfields).append hdsn).nodup (by decide)

end Keys

/-! ### The request -/

section Marks

theorem unmarked_eq {p : Word} (h : p &&& endMark = 0) : unmarked p = p := by
  have hall : (0x7FFFFFFF : Word) ||| endMark = BitVec.allOnes 32 := by decide
  have hboth : (p &&& 0x7FFFFFFF) ||| (p &&& endMark) = p := by
    rw [← BitVec.and_or_distrib_left, hall, BitVec.and_allOnes]
  rw [h] at hboth
  exact (BitVec.or_zero (x := p &&& 0x7FFFFFFF)).symm.trans hboth

theorem unmarked_or (p : Word) : unmarked (p ||| endMark) = unmarked p := by
  have hapart : (0x7FFFFFFF : Word) &&& endMark = 0#32 := by decide
  rw [unmarked, BitVec.and_comm, BitVec.and_or_distrib_left, hapart, BitVec.or_zero, BitVec.and_comm]
  rfl

theorem unmarked_mark (p : Word) : unmarked p &&& endMark = 0 := by
  have hapart : (0x7FFFFFFF : Word) &&& endMark = 0#32 := by decide
  rw [unmarked, BitVec.and_assoc, hapart, BitVec.and_zero]
  rfl

theorem or_mark (p : Word) : (p ||| endMark) &&& endMark ≠ 0 := by
  intro h
  have hbit := congrArg (fun w : Word => w.getLsbD 31) h
  simp [endMark] at hbit

/-- A place of the buffer has no mark. -/
theorem place_mark {a : Nat} (h : a < 2 ^ 31) : BitVec.ofNat 32 a &&& endMark = 0 := by
  apply BitVec.eq_of_toNat_eq
  have hmark : endMark.toNat = 2 ^ 31 := by decide
  rw [BitVec.toNat_and, BitVec.toNat_ofNat, hmark, Nat.mod_eq_of_lt (by omega), Nat.and_two_pow,
    Nat.testBit_lt_two_pow h]
  rfl

theorem listed_mark (items : List Word) : ∀ p ∈ listed items, p &&& endMark = 0 := by
  induction items with
  | nil => intro p hp; cases hp
  | cons item items ih =>
    rw [listed]
    split
    · intro p hp
      cases hp
    · split
      · intro p hp
        rw [List.mem_singleton.mp hp]
        exact unmarked_mark item
      · intro p hp
        rcases List.mem_cons.mp hp with rfl | hp
        · exact unmarked_mark item
        · exact ih p hp

theorem items_mark (d : Dyn) : ∀ p ∈ items d, p &&& endMark = 0 := by
  rw [items]
  split
  · intro p hp
    cases hp
  · exact listed_mark _

end Marks

/-- What has been built so far, if all has been accepted and fits. -/
structure Stage (base : Base) (rq : DYNRQ) (ok : Prop) (us : List TextUnit) : Prop where
  built : ok → Fits us → Built base rq us
  stopped : ¬ (ok ∧ Fits us) → rq.err ≠ 0

theorem Stage.adds {base : Base} {rq : DYNRQ} {ok ok' : Prop} {us more : List TextUnit} {f : Step}
    (h : Stage base rq ok us) (hf : Adds base ok' more f) :
    ∃ rq', f rq = some rq' ∧ Stage base rq' (ok ∧ ok') (us ++ more) := by
  by_cases hso : ok ∧ Fits us
  · obtain ⟨rq', hrq', hbuilt, hrefused⟩ := hf.built rq us (h.built hso.1 hso.2)
    exact ⟨rq', hrq', fun hok hfits => hbuilt hok.2 hfits,
      fun hnot => hrefused fun hboth => hnot ⟨⟨hso.1, hboth.1⟩, hboth.2⟩⟩
  · obtain ⟨rq', hrq', herr⟩ := hf.refused rq (h.stopped hso)
    exact ⟨rq', hrq', fun hok hfits => absurd ⟨hok.1, hfits.front⟩ hso, fun _ => herr⟩

theorem Stage.start (base : Base) (d : Dyn) :
    Stage base {err := if refused d then -2 else 0} (refused d = false) [] := by
  refine ⟨fun hok _ => ?_, fun hnot => ?_⟩
  · rw [hok]
    exact Built.empty
  · have hrefused : refused d = true := by
      by_contra hok
      exact hnot ⟨Bool.eq_false_iff.mpr hok, Nat.zero_le _, Nat.zero_le _⟩
    rw [hrefused]
    exact (by decide : (-2 : Int) ≠ 0)

/-- The caller's text units go behind those of the fields, or the request is refused. -/
theorem Built.miscitems {base : Base} {rq : DYNRQ} {us : List TextUnit} (h : Built base rq us) (d : Dyn) :
    miscitems d rq = some {rq with tu := rq.tu ++ items d} ∧ us.length + (items d).length ≤ dynrqTu ∨
      (∃ rq', miscitems d rq = some rq' ∧ rq'.err ≠ 0) ∧ dynrqTu < us.length + (items d).length := by
  have hcount := h.count
  have hlist := h.fits.list
  rw [Dynit.miscitems, items]
  cases d.miscitems with
  | none =>
    dsimp only
    rw [List.append_nil]
    exact .inl ⟨rfl, hlist⟩
  | some items =>
    rw [← hcount]
    exact dynrqm_eq h.ok items (by omega)

theorem miscitems_stopped {rq : DYNRQ} (herr : rq.err ≠ 0) (d : Dyn) : miscitems d rq = some rq := by
  rw [miscitems]
  split
  · rfl
  · exact dynrqm_stopped herr _

theorem units_ne_nil (d : Dyn) : (units d).length ≠ 0 := by
  have hdd : (ddUnits d).length ≠ 0 := by
    rw [ddUnits]
    split
    · next hgiven =>
      rw [Bool.and_eq_true, given, Option.any_eq_true] at hgiven
      obtain ⟨⟨s, hs, hne⟩, -⟩ := hgiven
      rw [hs, named, if_neg (by simpa using hne)]
      exact Nat.one_ne_zero
    · exact Nat.one_ne_zero
  rw [units, List.length_append, List.length_append]
  omega

/-- The request block of what has been built, with the mark on the last pointer. -/
theorem Built.request {base : Base} {rq : DYNRQ} {d : Dyn} (h : Built base rq (units d)) (flag : UInt8) :
    ∃ rb, dynrqx {rq with tu := rq.tu ++ items d} S99VRBAL flag = .ok rb ∧ rb.buf = rq.buf ∧ Request base d rb := by
  have hcount := h.count
  have hne := units_ne_nil d
  have hok := h.ok
  have hlen : (rq.tu ++ items d).length = rq.tu.length + (items d).length := List.length_append
  have herr : (if rq.err = 0 ∧ (rq.tu ++ items d).length = 0 then (-2 : Int) else rq.err) = 0 := by
    rw [if_neg (by omega), hok]
  have hmarks : ∀ p ∈ rq.tu ++ items d, p &&& endMark = 0 := by
    intro p hp
    rcases List.mem_append.mp hp with hp | hp
    · rw [h.list] at hp
      obtain ⟨o, ho, rfl⟩ := List.mem_map.mp hp
      obtain ⟨i, hi⟩ := List.mem_iff_getElem?.mp ho
      have hbase := base.property
      have hplace : o + 4 ≤ dynrqBuf := by
        obtain ⟨hlt, hat⟩ := List.getElem?_eq_some_iff.mp hi
        have hunit : i < (units d).length := by rwa [places_length] at hlt
        have hmem : ((units d)[i], o) ∈ (units d).zip (places 0 (units d)) := by
          refine List.mem_iff_getElem?.mpr ⟨i, ?_⟩
          rw [List.getElem?_zip_eq_some]
          exact ⟨List.getElem?_eq_getElem hunit, hi⟩
        have hle := places_le hmem
        have hsize := ((units d)[i]).size_pos
        have hfits := h.fits.buffer
        dsimp only at hle
        omega
      exact place_mark (by omega)
    · exact items_mark d p hp
  refine ⟨_, by rw [dynrqx]; simp only; rw [herr, if_neg (by decide)], rfl, rfl, units_nodup d, ?_, ?_⟩
  · refine ⟨places 0 (units d), places_length 0 _, ?_, h.held⟩
    have hsame : ((rq.tu ++ items d).modify ((rq.tu ++ items d).length - 1) (· ||| endMark)).map unmarked =
        (rq.tu ++ items d).map unmarked := by
      apply List.ext_getElem?
      intro i
      rw [List.getElem?_map, List.getElem?_map, List.getElem?_modify]
      cases (rq.tu ++ items d)[i]? with
      | none => split <;> rfl
      | some p =>
        split
        · exact congrArg some (unmarked_or p)
        · rfl
    have hclear : (rq.tu ++ items d).map unmarked = rq.tu ++ items d :=
      (List.map_congr_left fun p hp => unmarked_eq (hmarks p hp)).trans (List.map_id _)
    rw [hsame, hclear, h.list]
  · intro i p hp
    dsimp only at hp ⊢
    rw [List.length_modify]
    rw [List.getElem?_modify] at hp
    obtain ⟨q, hq, hqp⟩ := Option.map_eq_some_iff.mp hp
    have hlt := (List.getElem?_eq_some_iff.mp hq).1
    by_cases hlast : (rq.tu ++ items d).length - 1 = i
    · rw [if_pos hlast] at hqp
      rw [← hqp]
      exact ⟨fun _ => by omega, fun _ => or_mark q⟩
    · rw [if_neg hlast] at hqp
      rw [← hqp]
      exact ⟨fun hmark => absurd (hmarks q (List.mem_of_getElem? hq)) hmark, fun hend => by omega⟩

theorem dynrqx_error {rq : DYNRQ} (herr : rq.err ≠ 0) (verb flag : UInt8) : dynrqx rq verb flag = .error rq.err := by
  have hsame : (if rq.err = 0 ∧ rq.tu.length = 0 then -2 else rq.err) = rq.err := if_neg fun h => herr h.1
  rw [dynrqx, hsame, if_pos herr]

/-- What fits the list fits the buffer. -/
theorem fits_units {d : Dyn} (h : (units d).length + (items d).length ≤ dynrqTu) : Fits (units d) :=
  ⟨by omega, sizes_units_le d⟩

theorem answered_eq (answer : Answer) (rb : RB99) (d : Dyn) {rtddn rtdsn : Option Nat}
    (hbuf : answer.buf.length = dynrqBuf) (hdd : ∀ o ∈ rtddn, o + 6 + 8 ≤ dynrqBuf)
    (hdsn : ∀ o ∈ rtdsn, o + 6 + 44 ≤ dynrqBuf) :
    ∃ out, answered answer rb d rtddn rtdsn = some out ∧ out.issued = some rb := by
  rw [answered]
  split
  · obtain ⟨d1, hd1⟩ := returnedDd_eq hbuf {d with errcode := answer.error, infocode := answer.info} hdd
    obtain ⟨d2, hd2⟩ := returnedDsn_eq hbuf d1 hdsn
    simp only [Option.bind_eq_bind]
    rw [hd1, Option.bind_some, hd2]
    exact ⟨_, rfl, rfl⟩
  · exact ⟨_, rfl, rfl⟩

theorem accepted_iff (d : Dyn) : Accepted d ↔
    ((refused d = false ∧ True) ∧ ((0 ≤ d.recfm.toInt ∧ d.recfm.toInt < 2 ^ 8) ∧ d.keylength.toInt < 2 ^ 8) ∧
      (d.alcunit = 0 ∨ d.alcunit = CYL ∨ d.alcunit = TRK) ∧ d.avgblk.toInt < 2 ^ 24 ∧
      d.primary.toInt < 2 ^ 24 ∧ d.secondary.toInt < 2 ^ 24 ∧ d.dirblk.toInt < 2 ^ 24) ∧ True :=
  ⟨fun h => ⟨⟨⟨h.1, trivial⟩, ⟨h.2, h.3⟩, h.4, h.5, h.6, h.7, h.8⟩, trivial⟩,
    fun h => ⟨h.1.1.1, h.1.2.1.1, h.1.2.1.2, h.1.2.2.1, h.1.2.2.2.1, h.1.2.2.2.2.1, h.1.2.2.2.2.2.1,
      h.1.2.2.2.2.2.2⟩⟩

theorem allocate_request (base : Base) (svc99 : Svc99) (d : Dyn) :
    ∃ out, allocate base svc99 d = some out ∧
      (out.issued.isSome = true ↔ Accepted d ∧ (units d).length + (items d).length ≤ dynrqTu) ∧
      ∀ rb, out.issued = some rb → Request base d rb := by
  obtain ⟨rq1, hfirst, hstage1⟩ := (Stage.start base d).adds (adds_ddname d)
  obtain ⟨⟨rq1', rtddn⟩, hddname, rfl⟩ := Option.map_eq_some_iff.mp hfirst
  obtain ⟨rq2, hfields, hstage2⟩ := hstage1.adds (adds_fields d)
  obtain ⟨rq3, hthird, hstage3⟩ := hstage2.adds (adds_retdsn d)
  obtain ⟨⟨rq3', rtdsn⟩, hretdsn, rfl⟩ := Option.map_eq_some_iff.mp hthird
  rw [List.nil_append, ← units, ← accepted_iff] at hstage3
  rw [allocate]
  simp only [Option.bind_eq_bind]
  rw [hddname]
  simp only [Option.bind_some]
  rw [hfields]
  simp only [Option.bind_some]
  rw [hretdsn]
  simp only [Option.bind_some]
  by_cases hso : Accepted d ∧ Fits (units d)
  · have hbuilt := hstage3.built hso.1 hso.2
    have hfront : Fits ([] ++ ddUnits d ++ fieldUnits d) := hso.2.front
    have hdd := ddname_place ((Stage.start base d).built hso.1.possible ⟨Nat.zero_le _, Nat.zero_le _⟩) d hddname
    have hdsn := retdsn_place (hstage2.built ((accepted_iff d).mp hso.1).1 hfront) d hretdsn
    rcases hbuilt.miscitems d with ⟨hmisc, hroom⟩ | ⟨⟨rq4, hmisc, herr⟩, hfull⟩
    · obtain ⟨rb, hrb, hbuf, hrequest⟩ := hbuilt.request (flag1 d)
      have hkept : (svc99.call rb).buf.length = dynrqBuf := by rw [svc99.keeps, hbuf, hbuilt.length]
      obtain ⟨out, hout, hissued⟩ := answered_eq (svc99.call rb) rb d hkept hdd hdsn
      rw [hmisc, Option.bind_some, hrb]
      refine ⟨out, hout, ⟨fun _ => ⟨hso.1, hroom⟩, fun _ => by rw [hissued]; rfl⟩, fun rb' hrb' => ?_⟩
      rw [← Option.some.inj (hissued.symm.trans hrb')]
      exact hrequest
    · rw [hmisc, Option.bind_some, dynrqx_error herr]
      refine ⟨_, rfl, ⟨fun h => absurd h (by simp), fun h => by omega⟩, fun rb h => by cases h⟩
  · have herr := hstage3.stopped hso
    rw [miscitems_stopped herr, Option.bind_some, dynrqx_error herr]
    refine ⟨_, rfl, ⟨fun h => absurd h (by simp), fun h => absurd ⟨h.1, fits_units h.2⟩ hso⟩, fun rb h => by cases h⟩

/-- **`dynalloc()` issues a whole request or none.** It never writes outside the two areas. SVC 99 is issued just
when no field is refused and the pointers fit their list, and the request then has the text unit of every field
that is given, once, behind them those of the caller's list, and one mark, on the last pointer. -/
theorem dynalloc_request (base : Base) (svc99 : Svc99) (d : Dyn) :
    ∃ out, dynalloc base svc99 (some d) = some out ∧
      (out.issued.isSome = true ↔ Accepted d ∧ (units d).length + (items d).length ≤ dynrqTu) ∧
      ∀ rb, out.issued = some rb → Request base d rb := by
  obtain ⟨out, hout, hissued, hrequest⟩ := allocate_request base svc99 {d with errcode := 0, infocode := 0}
  refine ⟨out, hout, hissued.trans (and_congr_left' ?_), fun rb hrb => ?_⟩
  · exact ⟨fun h => ⟨h.1, h.2, h.3, h.4, h.5, h.6, h.7, h.8⟩, fun h => ⟨h.1, h.2, h.3, h.4, h.5, h.6, h.7, h.8⟩⟩
  · have h := hrequest rb hrb
    exact ⟨h.verb, h.once, h.held, h.last⟩

/-- A request with a storage class. -/
def classed : Dyn := {dsname := some ⟨literal "A.B", by decide⟩, storclass := some ⟨literal "SC", by decide⟩}

/-- An SVC that does nothing. -/
def idle : Svc99 := ⟨fun rb => ⟨0, 0, 0, rb.buf⟩, fun _ => rfl⟩

/-- Nothing of the storage class is in the request that is issued. -/
theorem storclass_ignored :
    ¬ ∀ (base : Base) (svc99 : Svc99) (d : Dyn), given d.storclass = true →
      ∀ out out' : Out, dynalloc base svc99 (some d) = some out →
        dynalloc base svc99 (some {d with storclass := none}) = some out' →
        out.issued.isSome = true → out.issued ≠ out'.issued := by
  intro h
  have hsame : (dynalloc ⟨0, by decide⟩ idle (some classed)).map Out.issued =
      (dynalloc ⟨0, by decide⟩ idle (some {classed with storclass := none})).map Out.issued := by decide +kernel
  have hissued : ((dynalloc ⟨0, by decide⟩ idle (some classed)).bind Out.issued).isSome = true := by decide +kernel
  obtain ⟨rb, hrb⟩ := Option.isSome_iff_exists.mp hissued
  obtain ⟨out, hout, hout'⟩ := Option.bind_eq_some_iff.mp hrb
  rw [hout, Option.map_some] at hsame
  obtain ⟨out', hother, heq⟩ := Option.map_eq_some_iff.mp hsame.symm
  exact h _ idle classed (by decide) out out' hout hother (by rw [hout']; rfl) heq.symm

end Libc370.Dynit
