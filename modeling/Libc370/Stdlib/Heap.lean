import Libc370.Lib.Memory
import Libc370.Lib.Machine

/-! The heap (`stdlib/malloc.c`, `calloc.c`, `realloc.c`, `free.c`, `mvs/storage`).

Every request is a GETMAIN of its own. The eight bytes before the pointer a caller gets say
what to give back: a word with the subpool and the length, which is what FREEMAIN wants, and
a word with the size asked for, which `realloc()` copies by. `getmain()` and `freemain()`
keep the key of the storage beside the size. The supervisor is a parameter: what it answers
a GETMAIN for a length in a subpool. -/
namespace Libc370.Malloc

open Memory

abbrev Word := BitVec 32

/-- Storage that was got and not given back. -/
structure Area where
  addr : Nat
  lv : Nat
  sp : Nat
deriving DecidableEq

/-- What the supervisor answers a GETMAIN: a return code, or an address. -/
abbrev Supervisor := Nat → Nat → Except Nat Nat

structure Core where
  storage : Mem
  areas : List Area
  pswkey : Nat
  errno : Int
  console : List (List Char)

def ENOMEM : Int := 12

/-! ### Console messages -/

/-- As much of a text as the buffer has room for. -/
def wfput (max : Nat) (buf text : List Char) : List Char := buf ++ text.take (max - 1 - buf.length)

def wtofmt_str (max : Nat) (buf : List Char) (s : String) : List Char := wfput max buf s.toList

def wtofmt_dec (max : Nat) (buf : List Char) (v : Nat) : List Char := wfput max buf (Nat.toDigits 10 v)

/-- The low `digits` hex digits of `v`. -/
def wtofmt_hex (max : Nat) (buf : List Char) (v digits : Nat) : List Char :=
  wfput max buf ((List.range digits).reverse.map fun d => (Nat.digitChar (v / 16 ^ d % 16)).toUpper)

def Core.wto (s : Core) (msg : List Char) : Core := { s with console := s.console ++ [msg] }

/-! ### The heap subpool -/

/-- `PPAEYE`. -/
def ppaeye : List UInt8 := [0x7C, 0xD7, 0xD7, 0xC1]

/-- `heapppa()`: the PPA of the current TCB, or NULL. -/
def heapppa (m : Mem) : Nat :=
  let tcb := word m 0x21C
  if tcb = 0 then 0
  else
    let fsa := word m (tcb + 0x70) % 2 ^ 24
    if fsa = 0 then 0
    else
      let ppa := word m (fsa + 8)
      if ppa = 0 ∨ ppa > 0x00FFFFFF then 0
      else if load m ppa 4 ≠ ppaeye then 0
      else ppa

/-- `__getsp()`. -/
def getsp (s : Core) : Nat := if heapppa s.storage ≠ 0 then (s.storage (heapppa s.storage + 0x22)).toNat else 0

/-- `__setsp()`: the value before. -/
def setsp (sp : UInt8) (s : Core) : Nat × Core :=
  if heapppa s.storage = 0 then (0, s)
  else (getsp s, { s with storage := store s.storage (heapppa s.storage + 0x22) [sp] })

/-- The walk `@@GETM` makes for itself, from PSATOLD to PPAHEAPS. -/
def heapSubpool (m : Mem) : Nat :=
  let tcb := word m 0x21C
  let fsa := Bytes.number (load m (tcb + 0x71) 3)
  if fsa = 0 then 0
  else
    let ppa := word m (fsa + 8)
    if ppa = 0 then 0
    else if ppa > 16777215 then 0
    else if word m ppa ≠ Bytes.number ppaeye then 0
    else (m (ppa + 0x22)).toNat

/-! ### GETMAIN and FREEMAIN -/

/-- A GETMAIN that is granted. -/
def Core.gotten (s : Core) (a lv sp : Nat) : Core := { s with areas := ⟨a, lv, sp⟩ :: s.areas }

/-- FREEMAIN of a whole area; anything else is an abend. -/
def Core.freed (s : Core) (a lv sp : Nat) : Option Core :=
  if ⟨a, lv, sp⟩ ∈ s.areas then some { s with areas := s.areas.erase ⟨a, lv, sp⟩ } else none

/-- The two words before the pointer. -/
def Core.stamp (s : Core) (a w0 w1 : Nat) : Core := { s with storage := putWord (putWord s.storage a w0) (a + 4) w1 }

/-- A length with the eight bytes before it, in multiples of 64. -/
def rounded (size : Word) : Word := (size + 8 + (64 - 1)) &&& 0xFFFFFFC0

/-- The area an allocator asks for, and the pointer to what is behind its prefix. -/
def obtain (gm : Supervisor) (size : Word) (sp : Nat) (s : Core) : Nat × Core :=
  match gm (rounded size).toNat sp with
  | .error _ => (0, s)
  | .ok a =>
    (a + 8, (s.gotten a (rounded size).toNat sp).stamp a (sp * 2 ^ 24 + (rounded size).toNat) size.toNat)

/-- `@@GETM`. -/
def getm (gm : Supervisor) (size : Word) (s : Core) : Nat × Core :=
  if size.toInt ≤ 0 then (0, s)
  else if (rounded size).toNat > 0x00FFFFFF then (0, s)
  else obtain gm size (heapSubpool s.storage) s

/-- `__getmsp()`. -/
def getmsp (gm : Supervisor) (size : Word) (sp : UInt8) (s : Core) : Nat × Core :=
  if size = 0 ∨ size.toNat > 0x00FFFFFF then (0, s)
  else if (rounded size).toNat > 0x00FFFFFF then (0, s)
  else obtain gm size sp.toNat s

/-- `@@FREEM`. -/
def freem (ptr : Nat) (s : Core) : Option Core :=
  let r0 := word s.storage (ptr - 8)
  s.freed (ptr - 8) (r0 % 2 ^ 24) (r0 / 2 ^ 24)

/-! ### `malloc()`, `calloc()`, `realloc()` and `free()` -/

/-- `MAX_CHUNK`. -/
def MAX_CHUNK : Nat := 6 * 1024 * 1024

def outOfMemory (size : Word) : List Char :=
  wtofmt_dec 48 (wtofmt_str 48 [] "Out of memory, bytes needed=") size.toNat

/-- `malloc()`. -/
def malloc (gm : Supervisor) (size : Word) (s : Core) : Nat × Core :=
  if size = 0 then (0, s)
  else
    let (ptr, s) := if size.toNat > MAX_CHUNK then (0, s) else getm gm size s
    if ptr = 0 then (0, { s with errno := ENOMEM }.wto (outOfMemory size)) else (ptr, s)

/-- `n` bytes cleared by MVCL, whose lengths have 24 bits. -/
def Core.clear (s : Core) (a n : Nat) : Core := { s with storage := store s.storage a (List.replicate (n % 2 ^ 24) 0) }

/-- `memcpy()`, an MVCL. -/
def Core.memcpy (s : Core) (s1 s2 n : Nat) : Core :=
  { s with storage := store s.storage s1 (load s.storage s2 (n % 2 ^ 24)) }

/-- What `calloc()` asks `malloc()` for. -/
def total (nmemb size : Word) : Word := (nmemb * size + 7) &&& 0xFFFFFFF8

/-- `calloc()`. -/
def calloc (gm : Supervisor) (nmemb size : Word) (s : Core) : Nat × Core :=
  if size ≠ 0 ∧ nmemb > 0xFFFFFFF8 / size then (0, { s with errno := ENOMEM })
  else
    let (ptr, s) := malloc gm (total nmemb size) s
    if ptr ≠ 0 then (ptr, s.clear ptr (total nmemb size).toNat) else (0, s)

/-- `free()`. -/
def free (ptr : Nat) (s : Core) : Option Core := if ptr ≠ 0 then freem ptr s else some s

/-- `realloc()`. -/
def realloc (gm : Supervisor) (ptr : Nat) (size : Word) (s : Core) : Option (Nat × Core) :=
  if size = 0 then (free ptr s).map fun s => (0, s)
  else
    let (newptr, s) := malloc gm size s
    if newptr = 0 then some (0, s)
    else if ptr ≠ 0 then
      let oldsize := word s.storage (ptr - 4)
      (free ptr (s.memcpy newptr ptr (if oldsize < size.toNat then oldsize else size.toNat))).map fun s => (newptr, s)
    else some (newptr, s)

/-! ### `getmain()` and `freemain()` -/

/-- The message for a GETMAIN that failed. -/
def getmainFailed (lv sp rc : Nat) : List Char :=
  let msg := wtofmt_str 80 [] "getmain request for "
  let msg := wtofmt_str 80 (wtofmt_dec 80 msg lv) " bytes from sp="
  let msg := wtofmt_str 80 (wtofmt_dec 80 msg sp) " failed, rc=0x"
  let msg := wtofmt_str 80 (wtofmt_hex 80 msg rc 2) " ("
  wtofmt_str 80 (wtofmt_dec 80 msg rc) ")"

/-- `getmain()`. -/
def getmain (gm : Supervisor) (size sp : Word) (s : Core) : Nat × Core :=
  let lv := (rounded size).toNat
  let sp := sp.toNat % 256
  if size = 0 then (0, s)
  else if size.toNat > 0x00FFFFFF ∨ lv > 0x00FFFFFF then (0, s)
  else
    match gm lv sp with
    | .error rc => (0, s.wto (getmainFailed lv sp rc))
    | .ok a => (a + 8, ((s.gotten a lv sp).clear a lv).stamp a (sp * 2 ^ 24 + lv) (s.pswkey * 2 ^ 24 + size.toNat))

/-- `badprefix()`. -/
def badprefix (s : Core) (addr : Nat) (what : String) : List Char :=
  let msg := wtofmt_str 100 (wtofmt_str 100 [] "freemain ") what
  let msg := wtofmt_hex 100 (wtofmt_str 100 msg " at ") addr 8
  let msg := wtofmt_hex 100 (wtofmt_str 100 msg ", prefix ") (word s.storage addr) 8
  wtofmt_hex 100 (wtofmt_str 100 msg " ") (word s.storage (addr + 4)) 8

/-- `freemain()`. -/
def freemain (ptr : Nat) (s : Core) : Option (Int × Core) :=
  if ptr = 0 then some (0, s)
  else
    let addr := ptr - 8
    let sp := word s.storage addr / 2 ^ 24
    let lv := word s.storage addr % 2 ^ 24
    let size := word s.storage (addr + 4) % 2 ^ 24
    if lv = 0 ∨ size = 0 then some (-1, s.wto ( badprefix s addr "duplicate freemain"))
    else if (lv + 2 ^ 32 - (size + 8)) % 2 ^ 32 > 64 then some (-1, s.wto ( badprefix s addr "check storage prefix"))
    else ((s.clear addr lv).freed addr lv sp).map fun s => (0, s)

/-! ### Calls -/

inductive Call
  | malloc (size : Word)
  | calloc (nmemb size : Word)
  | realloc (ptr : Nat) (size : Word)
  | free (ptr : Nat)
  | getmsp (size : Word) (sp : UInt8)
  | getmain (size sp : Word)
  | freemain (ptr : Nat)
  | setsp (sp : UInt8)
  /-- The program stores in a block it has. -/
  | write (ptr off : Nat) (bs : List UInt8)
  /-- Something is stored outside the heap. -/
  | elsewhere (a : Nat) (bs : List UInt8)

inductive Answer
  | pointer (ptr : Nat)
  | code (rc : Int)
  | done
  | abend
deriving DecidableEq

/-- A call that returns a pointer. -/
def pointed (r : Nat × Core) : Answer × Core := (.pointer r.1, r.2)

/-- A call that may end in an abend. -/
def ended {α : Type*} (s : Core) (answer : α → Answer × Core) (r : Option α) : Answer × Core :=
  (r.map answer).getD (.abend, s)

/-- A call, and what the supervisor answers while it is made. -/
def step (s : Core) : Call × Supervisor → Answer × Core
  | (.malloc size, gm) => pointed (malloc gm size s)
  | (.calloc nmemb size, gm) => pointed (calloc gm nmemb size s)
  | (.realloc ptr size, gm) => ended s pointed (realloc gm ptr size s)
  | (.free ptr, _) => ended s (Prod.mk Answer.done) (free ptr s)
  | (.getmsp size sp, gm) => pointed (getmsp gm size sp s)
  | (.getmain size sp, gm) => pointed (getmain gm size sp s)
  | (.freemain ptr, _) => ended s (fun r => (.code r.1, r.2)) (freemain ptr s)
  | (.setsp sp, _) => pointed (setsp sp s)
  | (.write ptr off bs, _) => (.done, { s with storage := store s.storage (ptr + off) bs })
  | (.elsewhere a bs, _) => (.done, { s with storage := store s.storage a bs })

end Libc370.Malloc
