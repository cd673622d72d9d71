import Libc370.Ext.Ary
import Libc370.Lib.Keyed
import Libc370.Lib.Machine

/-! The socket table (`net/@@soadd.c`, `@@sodel.c`, `@@sofind.c`, `@@soupd.c`, `net/dyn75`).

Sockets live in the emulator, which knows nothing of programs: it keeps a socket until
somebody closes it. A program therefore lists the sockets it made by `socket()` and
`accept()`, with the names of both sides as far as it has been told them, and closes what is
left on the list when it ends. The emulator is a parameter: what it answers the requests of
a call. -/
namespace Libc370.Sockets

open Ext Keyed

/-- A `sockaddr`. -/
structure Sockaddr where
  bytes : List UInt8
  sixteen : bytes.length = 16
deriving DecidableEq

def Sockaddr.zero : Sockaddr := ⟨List.replicate 16 0, List.length_replicate⟩

/-- The first `n` bytes of `name` put over an address. -/
def Sockaddr.copy (addr name : Sockaddr) (n : Nat) : Sockaddr :=
  ⟨name.bytes.take n ++ addr.bytes.drop n, by
    rw [List.length_append, List.length_take, List.length_drop, name.sixteen, addr.sixteen]
    omega⟩

/-- No family and no port. -/
def Sockaddr.blank (a : Sockaddr) : Bool := a.bytes.take 4 == [0, 0, 0, 0]

/-- `sin_port`. -/
def Sockaddr.port (a : Sockaddr) : Nat := (a.bytes.getD 2 0).toNat * 256 + (a.bytes.getD 3 0).toNat

def Sockaddr.withPort (a : Sockaddr) (port : Nat) : Sockaddr :=
  ⟨(a.bytes.set 2 (UInt8.ofNat (port / 256))).set 3 (UInt8.ofNat port), by
    rw [List.length_set, List.length_set, a.sixteen]⟩

/-! ### The emulator -/

/-- The requests of X'75' that have to do with the table. -/
inductive Request
  | init
  | lastError
  | errorOf (ss : Int)
  | socket (af type protocol : Int)
  | bind (ss : Int) (name : Sockaddr)
  | connect (ss : Int) (tries : Nat) (name : Sockaddr)
  | accept (ss : Int)
  | close (ss : Int)
  | sockname (ss : Int)
  | peername (ss : Int)
deriving DecidableEq

/-- What a request finds in register 4, and what was put where register 6 points. -/
structure Reply where
  r4 : Int
  block : Option Sockaddr

/-- What the emulator answers the requests of a call, of which the first argument is the number. -/
abbrev Host := Nat → Request → Reply

/-- The sockets that are open behind a request. -/
def Request.effect (r : Request) (reply : Reply) (opened : List Int) : List Int :=
  match r with
  | .socket _ _ _ => if 0 ≤ reply.r4 then reply.r4 :: opened else opened
  | .accept _ => if 0 ≤ reply.r4 then reply.r4 :: opened else opened
  | .close ss => opened.filter (· ≠ ss)
  | _ => opened

/-- `CLIBSOCK`. -/
structure Clibsock where
  socket : Int
  name : Sockaddr
  peer : Sockaddr

/-- What a program has of the GRT for its sockets, and the sockets that are open in the
emulator, whoever made them. -/
structure Net where
  opened : List Int
  grtsock : VArray Clibsock
  sockinit : Bool
  errno : Int
  sent : List Request

/-- `__75()`. -/
def Net.asked (s : Net) (host : Host) (k : Nat) (r : Request) : Net :=
  { s with opened := r.effect (host k r) s.opened, sent := s.sent ++ [r] }

/-! ### The table -/

/-- The sockets a program lists. -/
def Net.listed (s : Net) : List Clibsock := s.grtsock.list

/-- `__soadd()`. Whether storage is granted is asked for the record and for the array. -/
def soadd (grant : Nat → Bool) (ss : Int) (name peer : Option Sockaddr) (s : Net) : Int × Net :=
  if grant 1 then
    (-1, { s with grtsock := (arrayadd (grant 2) s.grtsock ⟨ss, name.getD .zero, peer.getD .zero⟩).2 })
  else (-1, s)

/-- `__sofind()`: the number of the record, or 0. -/
def sofind (ss : Int) (s : Net) : Nat := ((place Clibsock.socket s.listed ss).map (· + 1)).getD 0

/-- `__sodel()`. -/
def sodel (ss : Int) (s : Net) : Net :=
  match place Clibsock.socket s.listed ss with
  | some n => { s with grtsock := (arraydel s.grtsock (n + 1)).2 }
  | none => s

/-- An array with one item changed. -/
def alter (v : VArray Clibsock) (n : Nat) (f : Clibsock → Clibsock) : VArray Clibsock :=
  v.map fun a => ⟨a.size, a.items.modify n f, by rw [List.length_modify]; exact a.fits⟩

/-- The names `__soupd()` puts into a record. -/
def Clibsock.named (name peer : Option Sockaddr) (x : Clibsock) : Clibsock :=
  ⟨x.socket, name.getD x.name, peer.getD x.peer⟩

/-- `__soupd()`. -/
def soupd (ss : Int) (name peer : Option Sockaddr) (s : Net) : Net :=
  if sofind ss s = 0 then s else { s with grtsock := alter s.grtsock (sofind ss s - 1) (Clibsock.named name peer) }

/-- `__75clr()`: the answer is not looked at. -/
def clr (host : Host) (ss : Int) (s : Net) : Net := s.asked host 0 (.close ss)

/-- `__soend()`, from the last record to the first. -/
def soend (host : Host) (s : Net) : Net :=
  { s.listed.foldr (fun x s => clr host x.socket s) s with grtsock := VArray.null }

/-! ### The calls -/

/-- `__75init()`. -/
def init75 (host : Host) (grant : Nat → Bool) (s : Net) : Net :=
  let s := if s.grtsock.isNone ∧ grant 0 then { s with grtsock := some (arraynew 1024) } else s
  { s.asked host 0 .init with sockinit := true }

/-- The errors `socket()` may take over: EMFILE, ENFILE, ENOBUFS, ENOMEM, EACCES, EAFNOSUPPORT,
EPROTONOSUPPORT, EPROTOTYPE and EINVAL. -/
def socketErrors : List Int := [24, 23, 55, 12, 13, 47, 43, 41, 22]

def ENOBUFS : Int := 55

def ECONNREFUSED : Int := 61

/-- `socket()`. -/
def socket (host : Host) (grant : Nat → Bool) (af type protocol : Int) (s : Net) : Int × Net :=
  let s := if s.sockinit then s else init75 host grant s
  let r := Request.socket af type protocol
  let ss := (host 0 r).r4
  let s := s.asked host 0 r
  if 0 ≤ ss then (ss, (soadd grant ss none none s).2)
  else
    let error := (host 0 .lastError).r4
    (ss, { s.asked host 0 .lastError with errno := if error ∈ socketErrors then error else ENOBUFS })

/-- `getsockname()` and `getpeername()`: what the record has, or what the emulator answers. -/
def getname (request : Int → Request) (field : Clibsock → Sockaddr) (host : Host) (ss : Int) (addr : Sockaddr)
    (addrlen : Int) (s : Net) : Int × Sockaddr × Net :=
  match look Clibsock.socket s.listed ss with
  | some x =>
    if (field x).blank then fromHost request host ss addr s
    else
      -- The length is compared without its sign.
      (0, addr.copy (field x) (if addrlen < 0 ∨ 16 < addrlen then 16 else addrlen.toNat), s)
  | none => fromHost request host ss addr s
where
  fromHost (request : Int → Request) (host : Host) (ss : Int) (addr : Sockaddr) (s : Net) : Int × Sockaddr × Net :=
    let reply := host 0 (request ss)
    let addr := reply.block.getD addr
    let s := s.asked host 0 (request ss)
    if reply.r4 = -1 then
      (-1, addr, { s.asked host 0 (.errorOf ss) with errno := (host 0 (.errorOf ss)).r4 })
    else (reply.r4, addr, s)

def getsockname := getname .sockname Clibsock.name

def getpeername := getname .peername Clibsock.peer

/-- `accept()` asks until it need not wait, here `patience` times at most. -/
def acceptLoop (host : Host) (ss : Int) : Nat → Nat → Net → Option (Reply × Net)
  | 0, _, _ => none
  | patience + 1, k, s =>
    let s := s.asked host k (.accept ss)
    if (host k (.accept ss)).r4 ≠ -2 then some (host k (.accept ss), s) else acceptLoop host ss patience (k + 1) s

/-- What `accept()` does with the answer. -/
def accepted (host : Host) (grant : Nat → Bool) (ss : Int) (name : Sockaddr) (reply : Reply) (s : Net) :
    Int × Sockaddr × Net :=
  let rc := reply.r4
  let name := reply.block.getD name
  if 0 ≤ rc then
    let (_, addr, s) := getsockname host rc .zero 16 s
    let s := (soadd grant rc (some addr) none s).2
    let (_, addr, s) := getpeername host rc addr 16 s
    (rc, name, soupd rc none (some addr) s)
  else if rc = -1 then (rc, name, { s.asked host 0 (.errorOf ss) with errno := (host 0 (.errorOf ss)).r4 })
  else (rc, name, s)

/-- `accept()`. -/
def accept (host : Host) (grant : Nat → Bool) (patience : Nat) (ss : Int) (name : Sockaddr) (s : Net) :
    Option (Int × Sockaddr × Net) :=
  (acceptLoop host ss patience 0 s).map fun r => accepted host grant ss name r.1 r.2

/-- `bind1()`. -/
def bind1 (host : Host) (k : Nat) (ss : Int) (name : Sockaddr) (s : Net) : Int × Net :=
  let rc := (host k (.bind ss name)).r4
  let s := s.asked host k (.bind ss name)
  if 0 ≤ rc then (rc, soupd ss (some name) none s)
  else (rc, { s.asked host k (.errorOf ss) with errno := (host k (.errorOf ss)).r4 })

/-- The next number of the generator `bind()` has for itself. -/
def nextSeed (seed : BitVec 32) : BitVec 32 := seed * 1103515245 + 12345

/-- The port a number stands for. -/
def portOf (seed : BitVec 32) : Nat := (seed >>> 16 &&& 0x7FFF).toNat + 10000

/-- The ports `bind()` tries when it may choose. -/
def portLoop (host : Host) (ss : Int) : Nat → BitVec 32 → Sockaddr → Net → Bool × Sockaddr × Net
  | 0, _, name, s => (false, name.withPort 0, s)
  | n + 1, seed, name, s =>
    let seed := nextSeed seed
    let name := name.withPort (portOf seed)
    let (rc, s) := bind1 host (n + 1) ss name s
    if rc = 0 then (true, name, s) else portLoop host ss n seed name s

/-- `bind()`; the seed is the time and the address of the name. -/
def bind (host : Host) (seed : BitVec 32) (ss : Int) (name : Sockaddr) (s : Net) : Int × Sockaddr × Net :=
  if name.port = 0 then
    let (bound, name, s) := portLoop host ss 100 seed name s
    if bound then (0, name, s)
    else
      let (rc, s) := bind1 host 0 ss name s
      (rc, name, s)
  else
    let (rc, s) := bind1 host 0 ss name s
    (rc, name, s)

/-- What `connect()` does when it is connected, or not. -/
def connected (host : Host) (ss : Int) (name : Sockaddr) (rc : Int) (s : Net) : Int × Net :=
  if 0 ≤ rc then
    let (_, addr, s) := getsockname host ss .zero 16 s
    (rc, soupd ss (some addr) (some name) s)
  else (rc, { s.asked host 0 (.errorOf ss) with errno := (host 0 (.errorOf ss)).r4 })

/-- `connect()`: it waits for the emulator once, and not a second time. -/
def connect (host : Host) (ss : Int) (name : Sockaddr) (s : Net) : Int × Net :=
  let first := (host 0 (.connect ss 1 name)).r4
  let s := s.asked host 0 (.connect ss 1 name)
  if first ≠ -2 then connected host ss name first s
  else
    let second := (host 0 (.connect ss 0 name)).r4
    let s := s.asked host 0 (.connect ss 0 name)
    if second ≠ -2 then connected host ss name second s else (-1, { s with errno := ECONNREFUSED })

/-- `closesocket()`. -/
def closesocket (host : Host) (ss : Int) (s : Net) : Int × Net := (0, sodel ss (clr host ss s))

/-! ### Runs -/

inductive Call
  | socket (af type protocol : Int)
  | accept (ss : Int) (name : Sockaddr) (patience : Nat)
  | bind (ss : Int) (name : Sockaddr) (seed : BitVec 32)
  | connect (ss : Int) (name : Sockaddr)
  | getsockname (ss : Int) (addr : Sockaddr) (addrlen : Int)
  | getpeername (ss : Int) (addr : Sockaddr) (addrlen : Int)
  | closesocket (ss : Int)
  /-- The program ends. -/
  | soend
  /-- Another program makes a socket, or closes one. -/
  | opens (ss : Int)
  | closes (ss : Int)

inductive Answer
  | code (rc : Int)
  | named (rc : Int) (addr : Sockaddr)
  | waiting
  | sent (rs : List Request)

/-- What a call finds: the answers of the emulator, and whether storage is granted. -/
structure Env where
  host : Host
  grant : Nat → Bool

def coded (r : Int × Net) : Answer × Net := (.code r.1, r.2)

def naming (r : Int × Sockaddr × Net) : Answer × Net := (.named r.1 r.2.1, r.2.2)

def step (s : Net) : Call × Env → Answer × Net
  | (.socket af type protocol, e) => coded (socket e.host e.grant af type protocol s)
  | (.accept ss name patience, e) => ((accept e.host e.grant patience ss name s).map naming).getD (.waiting, s)
  | (.bind ss name seed, e) => naming (bind e.host seed ss name s)
  | (.connect ss name, e) => coded (connect e.host ss name s)
  | (.getsockname ss addr addrlen, e) => naming (getsockname e.host ss addr addrlen s)
  | (.getpeername ss addr addrlen, e) => naming (getpeername e.host ss addr addrlen s)
  | (.closesocket ss, e) => coded (closesocket e.host ss s)
  | (.soend, e) => (.sent ((soend e.host s).sent.drop s.sent.length), soend e.host s)
  | (.opens ss, _) => (.code 0, { s with opened := ss :: s.opened })
  | (.closes ss, _) => (.code 0, { s with opened := s.opened.filter (· ≠ ss) })

end Libc370.Sockets
