import Libc370.Ext.Ary
import Libc370.Lib.Runs

/-! The thread manager: its queue, its workers, and the dispatch thread.

`Pool` is what the tasks share: the manager, the storage of its workers and of their
tasks, and the subtasks that run. A section under the manager's lock is a function on it, and
so is a statement or two outside. `System` has in addition where each task stands: the
dispatch thread in its loop (`Pc`), the caller of `cthread_manager_term()` (`Term`), and each
worker in `cthread_worker_wait()` (`Place`). An action is the next step of one of them, or a
call of `cthread_queue_add()` or `cthread_worker_add()` by any task, so a run is any
interleaving of the sections. Where the dispatch thread waits with the lock held
(`Pc.holds`), no other section runs.

An address stands for one allocation. A POST of a posted ECB has no effect. What the
environment decides comes with the action: whether storage is granted, what ATTACH does,
whether a second has passed, and whether a timed wait times out.

`live`, `accepted`, `handed` and `quiesced` decide nothing: the worker subtasks that were
started and have not ended, the items `cthread_queue_add()` returned 0 for, the items given
to workers, and whether `cthread_manager_term()` has set the state to QUIESCE. -/
namespace Libc370.Cthread

open Ext

abbrev Addr := Nat

/-- An ECB: not posted, or posted with a code. -/
abbrev Ecb (α : Type) := Option α

/-- `cthread_post()`. -/
def post {α : Type} (ecb : Ecb α) (code : α) : Ecb α := ecb.or (some code)

/-- `CTHDMGR_STATE_...`. -/
inductive MgrState
  | init
  | running
  | quiesce
  | stopped
  | waiting
  deriving DecidableEq

def MgrState.value : MgrState → Nat
  | init => 0
  | running => 1
  | quiesce => 2
  | stopped => 3
  | waiting => 4

/-- `CTHDWORK_STATE_...`. -/
inductive WorkState
  | init
  | running
  | waiting
  | dispatch
  | shutdown
  | stopped
  | stuck
  deriving DecidableEq

/-- `CTHDMGR_POST_...`. -/
inductive MgrPost
  | data
  | wait
  | quiesce
  | shutdown
  | timer
  deriving DecidableEq

/-- `CTHDWORK_POST_...`. -/
inductive WorkPost
  | request
  | timer
  | shutdown
  deriving DecidableEq

/-- `CTHDTASK`: whether it has a TCB, and whether `termecb` is posted. -/
structure Task where
  tcb : Bool
  termecb : Bool

/-- `CTHDWORK`, with its options `CTHDWORK_OPT_TIMER` and `CTHDWORK_OPT_NOWORK`. -/
structure Work where
  wait : Ecb WorkPost
  task : Option Addr
  queue : Option Addr
  state : WorkState
  timer : Bool
  nowork : Bool

structure Pool where
  state : MgrState
  wait : Ecb MgrPost
  worker : VArray Addr
  queue : VArray Addr
  mintask : Nat
  maxtask : Nat
  start : Nat
  freed : Bool
  works : Addr → Option Work
  tasks : Addr → Option Task
  brk : Addr
  live : List (Addr × Addr)
  accepted : List Addr
  handed : List (Addr × Addr)
  quiesced : Bool

namespace Pool

def setWork (p : Pool) (w : Addr) (x : Option Work) : Pool := {p with works := Function.update p.works w x}

def setTask (p : Pool) (t : Addr) (k : Option Task) : Pool := {p with tasks := Function.update p.tasks t k}

@[simp] theorem setWork_self (p : Pool) (w : Addr) (x : Option Work) : (p.setWork w x).works w = x :=
  Function.update_self _ _ _

theorem setWork_of_ne (p : Pool) {w w' : Addr} (h : w' ≠ w) (x : Option Work) : (p.setWork w x).works w' = p.works w' :=
  Function.update_of_ne h _ _

@[simp] theorem setTask_self (p : Pool) (t : Addr) (k : Option Task) : (p.setTask t k).tasks t = k :=
  Function.update_self _ _ _

theorem setTask_of_ne (p : Pool) {t t' : Addr} (h : t' ≠ t) (k : Option Task) : (p.setTask t k).tasks t' = p.tasks t' :=
  Function.update_of_ne h _ _

/-- The task of a worker. -/
def taskOf (p : Pool) (x : Work) : Option Task := x.task.bind p.tasks

/-- `task && task->tcb && !(task->termecb & 0x40000000)`. -/
def running (p : Pool) (x : Work) : Bool :=
  match p.taskOf x with
  | some k => k.tcb && !k.termecb
  | none => false

end Pool

/-- The loop that looks for an address in an array, and `arraydel()`. -/
def remove (v : VArray Addr) (a : Addr) : VArray Addr :=
  if a ∈ v.list then (arraydel v (v.list.idxOf a + 1)).2 else v

/-- `cthread_queue_del()`. -/
def queueDel (p : Pool) : Option Addr → Pool
  | none => p
  | some i => {p with queue := remove p.queue i}

/-- `cthread_delete()` for a task whose subtask does not run. -/
def taskDel (p : Pool) : Option Addr → Pool
  | none => p
  | some t => p.setTask t none

/-- What `cthread_worker_del()` does with a worker whose subtask does not run. -/
def dismantle (p : Pool) (w : Addr) (x : Work) : Pool :=
  (queueDel (taskDel {p with worker := remove p.worker w} x.task) x.queue).setWork w none

/-- `cthread_worker_del()`. A subtask that runs has its storage left alone. -/
def workerDel (p : Pool) (w : Addr) : Int × Pool :=
  match p.works w with
  | none => (0, p)
  | some x => if p.running x then (-1, p.setWork w (some {x with state := .stuck})) else (0, dismantle p w x)

/-- What comes of `cthread_create_ex()`: no handle, a handle without a subtask (ATTACH failed
with a return code, and `tcb` has what was in register 1), or a subtask that runs. -/
inductive Created
  | refused
  | unattached (tcb : Bool)
  | started
  deriving DecidableEq

/-- What a call of `cthread_worker_add()` is granted: the worker's storage, a longer array,
and its task. -/
structure Grant where
  work : Bool
  room : Bool
  task : Created

/-- The worker is entered in the list, if there is room. -/
def Pool.enlist (p : Pool) (room : Bool) : Pool :=
  {p with
    works := Function.update p.works p.brk (some ⟨none, none, none, .init, false, false⟩)
    worker := (arrayadd room p.worker p.brk).2
    brk := p.brk + 1}

@[simp] theorem Pool.enlist_self (p : Pool) (room : Bool) :
    (p.enlist room).works p.brk = some ⟨none, none, none, .init, false, false⟩ :=
  Function.update_self _ _ _

theorem Pool.enlist_of_ne (p : Pool) (room : Bool) {w : Addr} (h : w ≠ p.brk) : (p.enlist room).works w = p.works w :=
  Function.update_of_ne h _ _

/-- The worker `w` gets a task. -/
def Pool.hire (p : Pool) (w : Addr) (tcb : Bool) : Pool :=
  {p with
    works := Function.update p.works w ((p.works w).map (fun x => {x with task := some p.brk}))
    tasks := Function.update p.tasks p.brk (some ⟨tcb, false⟩)
    brk := p.brk + 1}

@[simp] theorem Pool.hire_self (p : Pool) (w : Addr) (tcb : Bool) :
    (p.hire w tcb).works w = (p.works w).map (fun x => {x with task := some p.brk}) :=
  Function.update_self _ _ _

theorem Pool.hire_of_ne (p : Pool) {w w' : Addr} (h : w' ≠ w) (tcb : Bool) : (p.hire w tcb).works w' = p.works w' :=
  Function.update_of_ne h _ _

/-- `cthread_worker_add()`. -/
def workerAdd (p : Pool) (g : Grant) : Int × Pool :=
  if p.state = .quiesce ∨ p.state = .stopped ∨ g.work = false then (-1, p)
  else
    match g.task with
    | .refused => (-1, (workerDel (p.enlist g.room) p.brk).2)
    | .unattached tcb => (0, (p.enlist g.room).hire p.brk tcb)
    | .started => (0, {(p.enlist g.room).hire p.brk true with live := p.live ++ [(p.brk, p.brk + 1)]})

/-- `cthread_queue_add()`; `alloc` and `room` say whether storage is granted for the item and
for a longer array. -/
def queueAdd (p : Pool) (alloc room : Bool) : Int × Pool :=
  if p.state = .quiesce ∨ p.state = .stopped ∨ alloc = false then (-1, p)
  else
    (0, {p with
      queue := (arrayadd room p.queue p.brk).2
      wait := post p.wait .data
      brk := p.brk + 1
      accepted := p.accepted ++ [p.brk]})

/-! ### The dispatch thread -/

/-- The loops that call `cthread_worker_add()` so many times. -/
def addWorkers (p : Pool) : List Grant → Pool
  | [] => p
  | g :: rest => addWorkers (workerAdd p g).2 rest

/-- One call of `cthread_worker_shutdown()`, from its `i`th look at the task on: whether it
returns 0 or -1, or goes on. It looks once, and fifty times more if there is a subtask. -/
def stop (p : Pool) (w : Addr) (i : Nat) : Option Int × Pool :=
  match p.works w with
  | none => (some 0, p)
  | some x =>
    let posted := p.setWork w (some {x with wait := post x.wait .shutdown})
    match x.task, p.taskOf x with
    | some t, some k =>
      if 50 < i then (some (-1), p.setWork w (some {x with state := .stuck}))
      else if k.termecb then (some 0, p.setTask t (some {k with tcb := false}))
      else if k.tcb then (none, posted)
      else (some 0, posted)
    | _, _ => (some 0, posted)

/-- A worker whose subtask has ended is deleted. -/
def reap (p : Pool) (w : Addr) (x : Work) (t : Addr) : Pool :=
  (workerDel ((p.setTask t none).setWork w (some {x with state := .stopped, task := none})) w).2

/-- The loop of `dispatch_thread_check()`: whether a timer is wanted or a worker was deleted. -/
def checkFrom (p : Pool) (rc : Bool) : List Addr → Bool × Pool
  | [] => (rc, p)
  | w :: rest =>
    match p.works w with
    | none => checkFrom p rc rest
    | some x =>
      match x.task, p.taskOf x with
      | some t, some k => if k.termecb then (true, reap p w x t) else checkFrom p (rc || x.timer) rest
      | _, _ => checkFrom p rc rest

/-- `dispatch_work()`; `timer` says whether a second has passed since the worker began to wait. -/
def dispatchWork (p : Pool) (timer : Bool) (w : Addr) : Pool :=
  match p.works w with
  | none => p
  | some x =>
    match p.taskOf x with
    | none => p
    | some k =>
      if k.termecb ∨ x.state ≠ .waiting then p
      else
        let request := !x.nowork && decide (0 < arraycount p.queue)
        if request = false ∧ x.timer = false then p
        else if request then
          let (item, queue) := arraydel p.queue 1
          {p with
            queue := queue
            works := Function.update p.works w (some {x with state := .dispatch, queue := item, wait := post x.wait .request})
            handed := p.handed ++ item.toList.map (·, w)}
        else if timer then p.setWork w (some {x with state := .dispatch, queue := none, wait := post x.wait .timer})
        else p

/-- The loops that call `dispatch_work()`. -/
def dispatchAll (timers : Addr → Bool) (p : Pool) : List Addr → Pool
  | [] => p
  | w :: rest => dispatchAll timers (dispatchWork p (timers w) w) rest

/-- All workers in turn, from the one behind where the last pass began. -/
def dispatchRound (p : Pool) (timers : Addr → Bool) : Pool :=
  let count := arraycount p.worker
  let start := if count ≤ p.start + 1 then 0 else p.start + 1
  if count = 0 then p else dispatchAll timers {p with start := start} (p.worker.list.drop start ++ p.worker.list.take start)

/-- The last half of `dispatch_thread_work()`: whether items are left in the queue. -/
def passWork (p : Pool) (timer : Bool) (timers : Addr → Bool) : Bool × Pool :=
  if timer = false ∧ arraycount p.queue = 0 then (false, p)
  else (0 < arraycount (dispatchRound p timers).queue, dispatchRound p timers)

/-- Whose call of `cthread_worker_shutdown()` it is: that of `dispatch_thread_work()`, with
the lock held and `count` workers, of `dispatch_thread_quiesce()`, or of `dispatch_thread_term()`. -/
inductive Caller
  | trim (count : Nat)
  | quiesce
  | term

/-- Where the dispatch thread stands. The variables `quiesce`, `pending` and `timer` of its
loop go along. -/
inductive Pc
  | init
  | pending
  | create
  | wait (quiesce : Bool)
  | waiting (quiesce : Bool)
  | woken (quiesce : Bool) (rc : MgrPost)
  | check (quiesce : Bool)
  | work (timer : Bool)
  | trim (timer : Bool) (n count : Nat)
  | quiesceCount
  | quiesce (n : Nat)
  | stopping (w : Addr) (i n : Nat) (timer : Bool) (caller : Caller)
  | term
  | termCount
  | termLoop (n : Nat)
  | ended

/-- The dispatch thread holds the lock where it stands. -/
def Pc.holds : Pc → Bool
  | trim .. => true
  | stopping _ _ _ _ (.trim _) => true
  | _ => false

/-- The caller of `cthread_manager_term()`: not in a call, in the first or the second loop, or
at `cleanup` with the dispatch thread joined. -/
inductive Term
  | idle
  | phase1 (n : Nat)
  | phase2 (n : Nat)
  | cleanup

/-- The next step of the call is a section under the lock. -/
def Term.locks : Term → Bool
  | idle => true
  | cleanup => true
  | _ => false

/-- A worker: outside of `cthread_worker_wait()`, behind `cthread_queue_del()`, in its wait, or
behind it. -/
inductive Place
  | outside
  | released
  | waiting
  | woken (rc : WorkPost)

structure System where
  pool : Pool
  pc : Pc
  term : Term
  place : Addr → Place

/-- What the environment decides in a step of the dispatch thread. -/
structure Choice where
  grants : Nat → Grant
  timers : Addr → Bool
  timeout : Bool

/-- What a call of `cthread_worker_shutdown()` leads to. -/
def stopped (p : Pool) (w : Addr) (n : Nat) (timer : Bool) (rc : Int) : Caller → Pool × Pc
  | .quiesce => (p, .quiesce n)
  | .term => (if rc = 0 then (workerDel p w).2 else p, .termLoop n)
  | .trim count =>
    if rc ≠ 0 then (p, .trim timer n count)
    else
      let p := (workerDel p w).2
      -- `break` leaves the loop, which is where it stands with `n = 0`.
      (p, .trim timer (if p.maxtask < count - 1 then n else 0) (count - 1))

/-- The next section of the dispatch thread. -/
def dispatch (p : Pool) (c : Choice) : Pc → Option (Pool × Pc)
  | .init =>
    let adds := p.mintask - arraycount p.worker
    some (addWorkers {p with state := .running} ((List.range adds).map c.grants), .wait false)
  | .pending =>
    let idle := p.worker.list.any (fun w => (p.works w).any (fun x => x.state = .init ∨ x.state = .waiting))
    some (p, if idle then .wait false else .create)
  | .create => some (if arraycount p.worker < p.maxtask then (workerAdd p (c.grants 0)).2 else p, .wait false)
  | .wait quiesce => some ({p with state := .waiting}, .waiting quiesce)
  | .waiting quiesce =>
    match p.wait with
    | some rc => some ({p with wait := none}, .woken quiesce rc)
    | none => if c.timeout then some (p, .woken quiesce .timer) else none
  | .woken quiesce rc =>
    some ({p with state := .running}, if rc = .shutdown then .term else .check (quiesce || decide (rc = .quiesce)))
  | .check quiesce =>
    let (timer, p) := checkFrom p false p.worker.list
    some (p, if quiesce then .quiesceCount else .work timer)
  | .work timer =>
    let p := if arraycount p.worker < p.mintask then (workerAdd p (c.grants 0)).2 else p
    let count := arraycount p.worker
    some (p, .trim timer (if p.maxtask < count then count else 0) count)
  | .trim timer 0 _ =>
    let (pending, p) := passWork p timer c.timers
    some (p, if pending then .pending else .wait false)
  | .trim timer (n + 1) count =>
    match arrayget p.worker (n + 1) with
    | none => some (p, .trim timer n count)
    | some w =>
      let waits := (p.works w).any (fun x => x.state = .waiting)
      some (p, if waits then .stopping w 0 n timer (.trim count) else .trim timer n count)
  | .quiesceCount => some (p, if arraycount p.worker = 0 then .term else .quiesce (arraycount p.worker))
  | .quiesce 0 => some (p, .wait true)
  | .quiesce (n + 1) =>
    match arrayget p.worker (n + 1) with
    | none => some (p, .quiesce n)
    | some w =>
      let waits := (p.works w).any (fun x => x.state = .waiting && (p.taskOf x).any (fun k => !k.termecb))
      some (p, if waits then .stopping w 0 n false .quiesce else .quiesce n)
  | .stopping w i n timer caller =>
    match stop p w i with
    | (none, p) => some (p, .stopping w (i + 1) n timer caller)
    | (some rc, p) => some (stopped p w n timer rc caller)
  | .term => some ({p with state := .quiesce}, .termCount)
  | .termCount => some (p, .termLoop (arraycount p.worker))
  | .termLoop 0 => some ({p with state := .stopped}, .ended)
  | .termLoop (n + 1) =>
    match arrayget p.worker (n + 1) with
    | none => some (p, .termLoop n)
    | some w => some (p, .stopping w 0 n false .term)
  | .ended => none

/-! ### The other tasks -/

/-- `cthread_manager_term()` asks the dispatch thread to drain and end. -/
def askQuiesce (p : Pool) : Pool :=
  let below := decide (p.state.value < MgrState.quiesce.value)
  {p with
    state := if below then .quiesce else p.state
    wait := post p.wait .quiesce
    quiesced := p.quiesced || below}

/-- The workers that `cthread_manager_term()` counts as stuck. -/
def stuck (p : Pool) : Bool := p.worker.list.any (fun w => (p.works w).any p.running)

/-- The next step of the caller of `cthread_manager_term()`; `ended` says that the dispatch
thread has ended. With a worker that is stuck the storage of the manager is retained. -/
def term (p : Pool) (ended : Bool) : Term → Pool × Term
  | .idle => (askQuiesce p, .phase1 0)
  | .phase1 n =>
    if 20 + 10 * p.maxtask ≤ n then ({p with wait := post p.wait .shutdown}, .phase2 0)
    else if ended then (p, .cleanup)
    else (askQuiesce p, .phase1 (n + 1))
  | .phase2 n =>
    if 50 + 60 * p.maxtask ≤ n then (p, .idle)
    else if ended then (p, .cleanup)
    else ({p with wait := post p.wait .shutdown}, .phase2 (n + 1))
  | .cleanup => if stuck p then (p, .idle) else ({p with freed := true}, .idle)

/-- What a worker's subtask does: the next step of `cthread_worker_wait()`, its options, or
its end. -/
inductive Move
  | wait
  | options (timer nowork : Bool)
  | finish

/-- The next step of the worker `w`, whose storage is `x`; `holds` says that the lock is not
free. -/
def waitStep (p : Pool) (holds : Bool) (w : Addr) (x : Work) : Place → Option (Pool × Place)
  | .outside =>
    match x.queue with
    | none => some (p, .released)
    | some i => if holds then none else some ((queueDel p (some i)).setWork w (some {x with queue := none}), .released)
  | .released => some ({p.setWork w (some {x with state := .waiting}) with wait := post p.wait .wait}, .waiting)
  | .waiting => x.wait.map (fun rc => (p.setWork w (some {x with wait := none}), .woken rc))
  | .woken rc => some (p.setWork w (some {x with state := if rc = .shutdown then .shutdown else .running}), .outside)

/-- The subtask of the worker `w` with the task `t` ends; the system posts `termecb`. -/
def finish (p : Pool) (w t : Addr) : Pool :=
  {p with
    live := p.live.erase (w, t)
    tasks := Function.update p.tasks t ((p.tasks t).map (fun k => {k with termecb := true}))}

/-- Who takes the next step. -/
inductive Action
  | dispatch (c : Choice)
  | queueAdd (alloc room : Bool)
  | workerAdd (g : Grant)
  | term
  | worker (w t : Addr) (m : Move)

/-- The step of a worker's subtask, as long as it runs. -/
def workerStep (s : System) (w t : Addr) (x : Work) : Move → Option System
  | .wait =>
    (waitStep s.pool s.pc.holds w x (s.place w)).map (fun r => {s with pool := r.1, place := Function.update s.place w r.2})
  | .options timer nowork => some {s with pool := s.pool.setWork w (some {x with timer := timer, nowork := nowork})}
  | .finish => some {s with pool := finish s.pool w t}

/-- The dispatch thread has ended. -/
def Pc.isEnded : Pc → Bool
  | ended => true
  | _ => false

/-- One step; once the storage of the manager is freed, there is no manager any more. -/
def next (s : System) (a : Action) : Option System :=
  if s.pool.freed then none
  else
    match a with
    | .dispatch c => (dispatch s.pool c s.pc).map (fun r => {s with pool := r.1, pc := r.2})
    | .queueAdd alloc room => if s.pc.holds then none else some {s with pool := (queueAdd s.pool alloc room).2}
    | .workerAdd g => if s.pc.holds then none else some {s with pool := (workerAdd s.pool g).2}
    | .term =>
      if s.pc.holds && s.term.locks then none
      else
        let (p, t) := term s.pool s.pc.isEnded s.term
        some {s with pool := p, term := t}
    | .worker w t m =>
      if (w, t) ∈ s.pool.live then (s.pool.works w).bind (fun x => workerStep s w t x m) else none

/-- `cthread_manager_init()`, when the storage and the dispatch thread are granted. -/
def start (count : Nat) : System where
  pool :=
    { state := .init
      wait := none
      worker := .null
      queue := .null
      mintask := if 5 < count then 3 else if 3 < count then 1 else 0
      maxtask := count
      start := 0
      freed := false
      works := fun _ => none
      tasks := fun _ => none
      brk := 0
      live := []
      accepted := []
      handed := []
      quiesced := false }
  pc := .init
  term := .idle
  place := fun _ => .outside

/-! ### What a step can do -/

/-- The sections of the dispatch thread that set the state to RUNNING or WAITING. -/
def Pc.restarts : Pc → Bool
  | init => true
  | wait _ => true
  | woken .. => true
  | _ => false

/-- What a section of the dispatch thread does to the pool. -/
inductive Effect (p : Pool) (c : Choice) : Pc → Pool → Prop
  | init : Effect p c .init
      (addWorkers {p with state := .running} ((List.range (p.mintask - arraycount p.worker)).map c.grants))
  | wait (quiesce : Bool) : Effect p c (.wait quiesce) {p with state := .waiting}
  | waiting (quiesce : Bool) : Effect p c (.waiting quiesce) {p with wait := none}
  | woken (quiesce : Bool) (rc : MgrPost) : Effect p c (.woken quiesce rc) {p with state := .running}
  | create (h : arraycount p.worker < p.maxtask) : Effect p c .create (workerAdd p (c.grants 0)).2
  | work (timer : Bool) (h : arraycount p.worker < p.mintask) : Effect p c (.work timer) (workerAdd p (c.grants 0)).2
  | check (quiesce : Bool) : Effect p c (.check quiesce) (checkFrom p false p.worker.list).2
  | pass (timer : Bool) (count : Nat) : Effect p c (.trim timer 0 count) (passWork p timer c.timers).2
  | stop (w : Addr) (i n : Nat) (timer : Bool) (caller : Caller) : Effect p c (.stopping w i n timer caller) (stop p w i).2
  | delete (w : Addr) (i n : Nat) (timer : Bool) (caller : Caller) :
      Effect p c (.stopping w i n timer caller) (workerDel (Cthread.stop p w i).2 w).2
  | term : Effect p c .term {p with state := .quiesce}
  | ended : Effect p c (.termLoop 0) {p with state := .stopped}
  | same (pc : Pc) (h : pc.restarts = false) : Effect p c pc p

theorem stopped_effect (p : Pool) (w : Addr) (n : Nat) (timer : Bool) (rc : Int) (caller : Caller) :
    (stopped p w n timer rc caller).1 = p ∨ (stopped p w n timer rc caller).1 = (workerDel p w).2 := by
  unfold stopped
  cases caller with
  | quiesce => exact .inl rfl
  | term =>
    dsimp only
    split_ifs
    · exact .inr rfl
    · exact .inl rfl
  | trim count =>
    dsimp only
    by_cases hrc : rc ≠ 0
    · rw [if_pos hrc]
      exact .inl rfl
    · rw [if_neg hrc]
      exact .inr rfl

theorem dispatch_effect {p p' : Pool} {c : Choice} {pc pc' : Pc} (h : dispatch p c pc = some (p', pc')) :
    Effect p c pc p' := by
  cases pc with
  | init =>
    cases h
    exact .init
  | pending =>
    cases h
    exact .same _ rfl
  | create =>
    cases h
    split_ifs with hcount
    · exact .create hcount
    · exact .same _ rfl
  | wait quiesce =>
    cases h
    exact .wait quiesce
  | waiting quiesce =>
    rw [dispatch] at h
    split at h
    · cases h
      exact .waiting quiesce
    · split_ifs at h
      cases h
      exact .same _ rfl
  | woken quiesce rc =>
    cases h
    exact .woken quiesce rc
  | check quiesce =>
    cases h
    exact .check quiesce
  | work timer =>
    cases h
    split_ifs with hcount
    · exact .work timer hcount
    · exact .same _ rfl
  | trim timer n count =>
    cases n with
    | zero =>
      cases h
      exact .pass timer count
    | succ n =>
      rw [dispatch] at h
      split at h
      all_goals
        cases h
        exact .same _ rfl
  | quiesceCount =>
    cases h
    exact .same _ rfl
  | quiesce n =>
    cases n with
    | zero =>
      cases h
      exact .same _ rfl
    | succ n =>
      rw [dispatch] at h
      split at h
      all_goals
        cases h
        exact .same _ rfl
  | stopping w i n timer caller =>
    rw [dispatch] at h
    split at h
    · next p₁ hp₁ =>
      cases h
      have heq : p' = (stop p w i).2 := by rw [hp₁]
      rw [heq]
      exact .stop w i n timer caller
    · next rc p₁ hp₁ =>
      have heq : p₁ = (stop p w i).2 := by rw [hp₁]
      have hdone := stopped_effect p₁ w n timer rc caller
      rw [Option.some.inj h, heq] at hdone
      rcases hdone with hsame | hdel
      · rw [show p' = _ from hsame]
        exact .stop w i n timer caller
      · rw [show p' = _ from hdel]
        exact .delete w i n timer caller
  | term =>
    cases h
    exact .term
  | termCount =>
    cases h
    exact .same _ rfl
  | termLoop n =>
    cases n with
    | zero =>
      cases h
      exact .ended
    | succ n =>
      rw [dispatch] at h
      split at h
      all_goals
        cases h
        exact .same _ rfl
  | ended => cases h

/-- What a step of the system is, by who takes it. -/
inductive Took (s : System) : Action → System → Prop
  | dispatch {c : Choice} {p : Pool} {pc : Pc} (h : dispatch s.pool c s.pc = some (p, pc)) :
      Took s (.dispatch c) {s with pool := p, pc := pc}
  | queueAdd (alloc room : Bool) : Took s (.queueAdd alloc room) {s with pool := (queueAdd s.pool alloc room).2}
  | workerAdd (g : Grant) : Took s (.workerAdd g) {s with pool := (workerAdd s.pool g).2}
  | term : Took s .term
      {s with pool := (Cthread.term s.pool s.pc.isEnded s.term).1, term := (Cthread.term s.pool s.pc.isEnded s.term).2}
  | worker {w t : Addr} {m : Move} {x : Work} {s' : System} (hlive : (w, t) ∈ s.pool.live) (hx : s.pool.works w = some x)
      (h : workerStep s w t x m = some s') : Took s (.worker w t m) s'

theorem next_took {s t : System} {a : Action} (h : next s a = some t) : s.pool.freed = false ∧ Took s a t := by
  unfold next at h
  by_cases hfreed : s.pool.freed = true
  · rw [if_pos hfreed] at h
    cases h
  rw [if_neg hfreed] at h
  refine ⟨Bool.eq_false_iff.mpr hfreed, ?_⟩
  cases a with
  | dispatch c =>
    obtain ⟨⟨p, pc⟩, hr, rfl⟩ := Option.map_eq_some_iff.mp h
    exact .dispatch hr
  | queueAdd alloc room =>
    dsimp only at h
    split_ifs at h
    cases h
    exact .queueAdd alloc room
  | workerAdd g =>
    dsimp only at h
    split_ifs at h
    cases h
    exact .workerAdd g
  | term =>
    dsimp only at h
    split_ifs at h
    cases h
    exact .term
  | worker w u m =>
    dsimp only at h
    split_ifs at h with hlive
    obtain ⟨x, hx, hstep⟩ := Option.bind_eq_some_iff.mp h
    exact .worker hlive hx hstep

end Libc370.Cthread
