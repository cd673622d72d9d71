import Libc370.Ext.Ary
import Libc370.Lib.Runs

/-! Mutexes: `mtxlock()`, `mtxtry()`, `mtxunlk()`, and the cleanup when a task ends.

A mutex is an ENQ of the system, with an owner and a nesting count beside it in storage.
A task that gets the ENQ also enters the mutex in a list of its own, which the cleanup at
its end walks. Any number of tasks run these calls on any number of mutexes; a step is one
statement of one of them, so that between any two statements all the others may run. The
calls are cut into statements by `Stage`.

ENQ is an exclusive lock: a task that asks for one it already holds gets return code 8, a
task that asks for one of another task waits, or gets 4 from `trylock_res()`. Every task
has a CLIBCRT, and `try()` calls its function.

`locks` does not decide anything: it counts, for a task and a mutex, the locks the task has
got and not undone, where an unlock undoes one lock of the caller, if there is one, and the
end of a task undoes all of its locks. -/
namespace Libc370.Mtx

open Ext

/-- A TCB address; it is never 0. -/
abbrev Task := Nat

/-- The address of a mutex. -/
abbrev Mutex := Nat

/-- `CLIBMUTX`; `none` is the owner 0, and the count is an `unsigned`. -/
structure Clibmutx where
  owner : Option Task
  count : Nat
  small : count < 2 ^ 32

/-- Who asks whether a mutex is held: `mtxunlk()`, or `cleanup_mutex()` at the end of a task. -/
inductive Caller
  | mtxunlk
  | cleanup
  deriving DecidableEq

/-- The statement that is next in a call; `fresh` says that the ENQ was not held before. -/
inductive Stage
  | setOwner (fresh : Bool)
  | addCount (fresh : Bool)
  | addList
  | testOwner (caller : Caller)
  | subCount
  | testCount
  | delList
  | clearOwner (caller : Caller)
  | clearCount
  | unlockRes (caller : Caller)
  deriving DecidableEq

/-- Where a task is: between two calls, in a call, in its cleanup, or at its end. -/
inductive Place
  | idle
  | within (m : Mutex) (stage : Stage)
  | ending
  | ended
  deriving DecidableEq

structure State where
  enq : Mutex → Option Task
  mutex : Mutex → Clibmutx
  crtmutx : Task → VArray Mutex
  place : Task → Place
  locks : Task → Mutex → Nat

namespace State

def setEnq (s : State) (m : Mutex) (e : Option Task) : State := {s with enq := Function.update s.enq m e}

def setOwner (s : State) (m : Mutex) (owner : Option Task) : State :=
  {s with mutex := Function.update s.mutex m {s.mutex m with owner := owner}}

def setCount (s : State) (m : Mutex) (count : Nat) : State :=
  {s with mutex := Function.update s.mutex m ⟨(s.mutex m).owner, count % 2 ^ 32, Nat.mod_lt _ (by decide)⟩}

def setList (s : State) (t : Task) (list : VArray Mutex) : State :=
  {s with crtmutx := Function.update s.crtmutx t list}

def goto (s : State) (t : Task) (p : Place) : State := {s with place := Function.update s.place t p}

def setLocks (s : State) (t : Task) (m : Mutex) (n : Nat) : State :=
  {s with locks := Function.update s.locks t (Function.update (s.locks t) m n)}

/-- `mtxlock()` or `mtxtry()` returns with the mutex locked. -/
def locked (s : State) (t : Task) (m : Mutex) : State := (s.setLocks t m (s.locks t m + 1)).goto t .idle

/-- `mtxunlk()` returns. -/
def unlocked (s : State) (t : Task) (m : Mutex) : State := (s.setLocks t m (s.locks t m - 1)).goto t .idle

end State

/-- The index `mtxunlk()` finds the mutex at, from the end of the list; 0 if it is not there. -/
def findLast (m : Mutex) (v : VArray Mutex) : Nat → Nat
  | 0 => 0
  | n + 1 => if arrayget v (n + 1) = some m then n + 1 else findLast m v n

/-- What a task does next: it calls, or ends, or goes on with the statement it stands at.
`alloc` says whether storage is granted, if the statement asks for some. -/
inductive Move
  | mtxlock (m : Mutex)
  | mtxtry (m : Mutex)
  | mtxunlk (m : Mutex)
  | finish
  | go (alloc : Bool)

/-- `lock_res()`, and `trylock_res()` when the ENQ is not held by another task. -/
def State.enter (s : State) (t : Task) (m : Mutex) : Option State :=
  match s.enq m with
  | none => some ((s.setEnq m (some t)).goto t (.within m (.setOwner true)))
  | some u => if u = t then some (s.goto t (.within m (.setOwner false))) else none

/-- The mutex is not held: the caller leaves it alone. -/
def State.leave (s : State) (t : Task) (m : Mutex) : Caller → State
  | .mtxunlk => s.unlocked t m
  | .cleanup => s.goto t .ending

/-- The first half of `mtxheld()`: `mutex->count != 0`. -/
def State.ask (s : State) (t : Task) (m : Mutex) (caller : Caller) : State :=
  if (s.mutex m).count = 0 then s.leave t m caller else s.goto t (.within m (.testOwner caller))

/-- The statement a task stands at in a call. -/
def State.statement (s : State) (t : Task) (m : Mutex) (alloc : Bool) : Stage → State
  | .setOwner fresh => (s.setOwner m (some t)).goto t (.within m (.addCount fresh))
  | .addCount fresh =>
    let s' := s.setCount m ((s.mutex m).count + 1)
    if fresh then s'.goto t (.within m .addList) else s'.locked t m
  | .addList => (s.setList t (arrayadd alloc (s.crtmutx t) m).2).locked t m
  | .testOwner caller =>
    if (s.mutex m).owner = some t then
      match caller with
      | .mtxunlk => s.goto t (.within m .subCount)
      | .cleanup => s.goto t (.within m (.clearOwner .cleanup))
    else s.leave t m caller
  | .subCount => (s.setCount m ((s.mutex m).count + (2 ^ 32 - 1))).goto t (.within m .testCount)
  | .testCount => if (s.mutex m).count = 0 then s.goto t (.within m .delList) else s.unlocked t m
  | .delList =>
    let v := s.crtmutx t
    (s.setList t (arraydel v (findLast m v (arraycount v))).2).goto t (.within m (.clearOwner .mtxunlk))
  | .clearOwner .mtxunlk => (s.setOwner m none).goto t (.within m (.unlockRes .mtxunlk))
  | .clearOwner .cleanup => (s.setOwner m none).goto t (.within m .clearCount)
  | .clearCount => (s.setCount m 0).goto t (.within m (.unlockRes .cleanup))
  | .unlockRes caller =>
    let s' := if s.enq m = some t then s.setEnq m none else s
    match caller with
    | .mtxunlk => s'.unlocked t m
    | .cleanup => (s'.setLocks t m 0).goto t .ending

/-- A round of the loop in `cleanup_thread()`: the last mutex of the list, or the end. -/
def State.cleanup (s : State) (t : Task) : State :=
  match arraydel (s.crtmutx t) (arraycount (s.crtmutx t)) with
  | (some m, v) => (s.setList t v).ask t m .cleanup
  | (none, _) => s.goto t .ended

/-- A step of a task; a task that waits, or is not where it can do this, does nothing. -/
def next (s : State) : Task × Move → Option State
  | (t, move) =>
    match s.place t, move with
    | .idle, .mtxlock m => s.enter t m
    | .idle, .mtxtry m => some ((s.enter t m).getD s)
    | .idle, .mtxunlk m => some (s.ask t m .mtxunlk)
    | .idle, .finish => some (s.goto t .ending)
    | .within m stage, .go alloc => some (s.statement t m alloc stage)
    | .ending, .go _ => some (s.cleanup t)
    | _, _ => none

/-- No task has done anything yet. -/
def start : State := ⟨fun _ => none, fun _ => ⟨none, 0, by decide⟩, fun _ => .null, fun _ => .idle, fun _ _ => 0⟩

end Libc370.Mtx
