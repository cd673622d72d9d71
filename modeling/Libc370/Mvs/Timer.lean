import Libc370.Ext.Ary

/-! The timer: its elements, and the functions that add, find, change and remove them.

`TMR` has an array of pointers to elements, which live in storage of their own. Storage that
is freed is gone: a function that reaches a freed element through a pointer stops there
(`Stop.freed`). An address stands for one allocation, so it is never used again. What
`rand()` returns is given as a list; a function stops (`Stop.loops`) where `tmr_id()` has not
found an id when the list is at its end.

Times are of any linear order. `plus` is the time some hundredths of a second from a
time, and `renew` the time a fired element with RESET expires next; nothing else is known
of the arithmetic of `TMRSEC`. Posting an ECB changes nothing here. -/
namespace Libc370.Timer

open Ext

/-- The address of an element. -/
abbrev Addr := Nat

/-- What `rand()` returns, 0 to `RAND_MAX`. -/
abbrev Rand := Fin 32768

def Rand.value (r : Rand) : UInt32 := UInt32.ofNat r.val

/-- `TQE`. -/
structure Tqe (τ : Type*) where
  id : UInt32
  keep : Bool
  reset : Bool
  disabled : Bool
  expires : τ
  bintvl : Nat
  func : Bool

/-- `TMR`, and the storage of its elements; no element was ever at `brk` or behind. -/
structure Tmr (τ : Type*) where
  id : UInt32
  tqe : VArray Addr
  heap : Addr → Option (Tqe τ)
  brk : Addr

/-- Why a function does not return: it touches a freed element, or looks for an id still. -/
inductive Stop
  | freed
  | loops
  deriving DecidableEq

variable {τ : Type*}

namespace Tmr

def setHeap (s : Tmr τ) (a : Addr) (x : Option (Tqe τ)) : Tmr τ := {s with heap := Function.update s.heap a x}

/-- `free()`. -/
def free (s : Tmr τ) (a : Addr) : Tmr τ := s.setHeap a none

/-- `array_del()` on the timer's array. -/
def del (s : Tmr τ) (index : Nat) : Tmr τ := {s with tqe := (arraydel s.tqe index).2}

end Tmr

/-- The loop that looks for an id: the place of the first element that has it. -/
def find (heap : Addr → Option (Tqe τ)) (id : UInt32) : List Addr → Except Stop (Option Nat)
  | [] => .ok none
  | a :: rest =>
    match heap a with
    | none => .error .freed
    | some x => if x.id = id then .ok (some 0) else (find heap id rest).map (Option.map (· + 1))

/-- One turn of the loop in `tmr_id()`: the new `tmr->id`, and the id made of it. -/
def idTurn (id : UInt32) (r r' : Rand) : UInt32 × UInt32 :=
  let tmrId := (id ^^^ r.value) &&& 0x00FFFFFF
  let made :=
    match (tmrId &&& 3).toNat with
    | 0 => tmrId - r'.value
    | 1 => tmrId ^^^ r'.value
    | 2 => tmrId % (r'.value + 1)
    | _ => tmrId * (r'.value &&& 0xFF)
  (tmrId, made &&& 0x00FFFFFF)

/-- `tmr_id()`, with what `rand()` returns in each turn: the id, and the timer. The loop goes
on until it comes to an id over 1000 that no element has. -/
def tmrId (s : Tmr τ) : List (Rand × Rand) → Except Stop (UInt32 × Tmr τ)
  | [] => .error .loops
  | (r, r') :: rest =>
    let (id, made) := idTurn s.id r r'
    if 1000 < made then
      match find s.heap made s.tqe.list with
      | .error e => .error e
      | .ok none => .ok (made, {s with id := made})
      | .ok (some _) => tmrId {s with id := id} rest
    else tmrId {s with id := id} rest

/-- The arguments of a function that adds an element, and what its calls come to: the clock,
`rand()`, and whether storage is granted. -/
structure Request (τ : Type*) where
  keep : Bool
  reset : Bool
  func : Bool
  bintvl : Nat
  clock : τ
  rands : List (Rand × Rand)
  alloc : Bool
  room : Bool

/-- `tqe_new()`: the address of the new element, or NULL. -/
def tqeNew (plus : τ → Nat → τ) (s : Tmr τ) (q : Request τ) : Except Stop (Option Addr × Tmr τ) :=
  if q.alloc then
    match tmrId s q.rands with
    | .error e => .error e
    | .ok (id, s') =>
      let x : Tqe τ := ⟨id, q.keep, q.reset, false, plus q.clock q.bintvl, q.bintvl, q.func⟩
      .ok (some s.brk, {s' with heap := Function.update s'.heap s.brk (some x), brk := s.brk + 1})
  else .ok (none, s)

/-- The second half of `tmr_func()`: the element is queued, or freed if there is no room. -/
def queue (s : Tmr τ) (a : Addr) (room : Bool) : Tmr τ :=
  let (rc, v) := arrayadd room s.tqe a
  if rc = 0 then {s with tqe := v} else s.free a

/-- The element that a function finds by its id, if there is one. -/
def lookup (s : Tmr τ) (id : UInt32) : Except Stop (Option (Nat × Addr × Tqe τ)) :=
  match find s.heap id s.tqe.list with
  | .error e => .error e
  | .ok none => .ok none
  | .ok (some i) => .ok ((s.tqe.list[i]?).bind (fun a => (s.heap a).map (i, a, ·)))

/-- `tqe_purge()`. -/
def tqePurge (s : Tmr τ) (id : UInt32) : Except Stop (Tmr τ) :=
  match lookup s id with
  | .error e => .error e
  | .ok none => .ok s
  | .ok (some (i, a, _)) => .ok ((s.del (i + 1)).free a)

/-- The element that a function finds by its id is changed. -/
def change (f : Tqe τ → Tqe τ) (s : Tmr τ) (id : UInt32) : Except Stop (Tmr τ) :=
  match lookup s id with
  | .error e => .error e
  | .ok none => .ok s
  | .ok (some (_, a, x)) => .ok (s.setHeap a (some (f x)))

/-- `tqe_reset()`. -/
def tqeReset (plus : τ → Nat → τ) (s : Tmr τ) (id : UInt32) (bintvl : Nat) (clock : τ) : Except Stop (Tmr τ) :=
  change (fun x =>
    let x := {x with bintvl := bintvl}
    if x.disabled = true ∨ bintvl = 0 then x else {x with expires := plus clock bintvl}) s id

/-- `tqe_enable()`. -/
def tqeEnable (plus : τ → Nat → τ) (s : Tmr τ) (id : UInt32) (clock : τ) : Except Stop (Tmr τ) :=
  change (fun x =>
    let x := {x with disabled := false}
    if x.bintvl = 0 then x else {x with expires := plus clock x.bintvl}) s id

/-- `tqe_disable()`. -/
def tqeDisable (s : Tmr τ) (id : UInt32) : Except Stop (Tmr τ) := change (fun x => {x with disabled := true}) s id

/-! ### Finding an id -/

/-- An id that is not found is none of those in the array. -/
theorem find_none {heap : Addr → Option (Tqe τ)} {id : UInt32} {l : List Addr} (h : find heap id l = .ok none) :
    ∀ a ∈ l, ∃ x, heap a = some x ∧ x.id ≠ id := by
  induction l with
  | nil => exact fun a ha => absurd ha List.not_mem_nil
  | cons a rest ih =>
    rw [find] at h
    cases hx : heap a with
    | none =>
      rw [hx] at h
      cases h
    | some x =>
      rw [hx] at h
      dsimp only at h
      split_ifs at h with hid
      · cases h
      · cases hrest : find heap id rest with
        | error e =>
          rw [hrest] at h
          cases h
        | ok o =>
          rw [hrest] at h
          cases o with
          | some i => cases h
          | none => exact List.forall_mem_cons.mpr ⟨⟨x, hx, hid⟩, ih hrest⟩

/-- An id that is found is that of the element there, and all elements in front of it were looked at. -/
theorem find_some {heap : Addr → Option (Tqe τ)} {id : UInt32} {l : List Addr} {i : Nat}
    (h : find heap id l = .ok (some i)) :
    (∃ a x, l[i]? = some a ∧ heap a = some x ∧ x.id = id) ∧ ∀ b ∈ l.take i, heap b ≠ none := by
  induction l generalizing i with
  | nil => cases h
  | cons a rest ih =>
    rw [find] at h
    cases hx : heap a with
    | none =>
      rw [hx] at h
      cases h
    | some x =>
      rw [hx] at h
      dsimp only at h
      split_ifs at h with hid
      · obtain rfl : 0 = i := by simpa using h
        exact ⟨⟨a, x, rfl, hx, hid⟩, fun b hb => absurd hb List.not_mem_nil⟩
      · cases hrest : find heap id rest with
        | error e =>
          rw [hrest] at h
          cases h
        | ok o =>
          rw [hrest] at h
          cases o with
          | none => cases h
          | some j =>
            obtain rfl : j + 1 = i := by simpa [Except.map] using h
            obtain ⟨hfound, hbefore⟩ := ih hrest
            refine ⟨hfound, ?_⟩
            rw [List.take_succ_cons]
            exact List.forall_mem_cons.mpr ⟨by rw [hx]; simp, hbefore⟩

theorem lookup_some {s : Tmr τ} {id : UInt32} {i : Nat} {a : Addr} {x : Tqe τ}
    (h : lookup s id = .ok (some (i, a, x))) :
    s.tqe.list[i]? = some a ∧ s.heap a = some x ∧ ∀ b ∈ s.tqe.list.take i, s.heap b ≠ none := by
  unfold lookup at h
  split at h
  · cases h
  · cases h
  · next j hfind =>
    obtain ⟨⟨b, y, hb, hy, -⟩, hbefore⟩ := find_some hfind
    rw [hb, Option.bind_some, hy, Option.map_some] at h
    obtain ⟨rfl, rfl, rfl⟩ : j = i ∧ b = a ∧ y = x := by simpa using h
    exact ⟨hb, hy, hbefore⟩

/-- The id `tmr_id()` comes to is none of the array's. -/
theorem tmrId_spec {s s' : Tmr τ} {id : UInt32} {rands : List (Rand × Rand)} (h : tmrId s rands = .ok (id, s')) :
    s' = {s with id := id} ∧ find s.heap id s.tqe.list = .ok none := by
  induction rands generalizing s with
  | nil => cases h
  | cons r rest ih =>
    obtain ⟨r, r'⟩ := r
    rw [tmrId] at h
    dsimp only at h
    split_ifs at h with hbig
    · cases hfind : find s.heap (idTurn s.id r r').2 s.tqe.list with
      | error e =>
        rw [hfind] at h
        cases h
      | ok o =>
        rw [hfind] at h
        cases o with
        | none =>
          obtain ⟨rfl, rfl⟩ := Prod.mk.inj (Except.ok.inj h)
          exact ⟨rfl, hfind⟩
        | some i => exact @ih {s with id := (idTurn s.id r r').1} h
    · exact @ih {s with id := (idTurn s.id r r').1} h

end Libc370.Timer
