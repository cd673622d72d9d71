import Libc370.Ext.Ary
import Libc370.Lib.Machine

/-! Functions called at the end of a program (`stdlib/atexit.c`, `stdlib/on@exit.c`,
`mvs/crt/@@exit.c`).

A registration puts a function into one array of the program's area and its argument into
another. `__exit()` counts the first array once, and then goes down from there, so what a
function registers while it runs is behind the place the loop has come to and is never
called. The functions registered before are all called, each with its own argument and the
last one first, whatever the functions do to the arrays. Hence the calls are those of a
stack exactly when no function that `__exit()` calls registers another (`exit_lifo_iff`). -/
namespace Libc370.Exit

open Ext

/-- An address; 0 is NULL. -/
abbrev Addr := Nat

/-- The two arrays in the program's area. -/
structure Grt where
  grtexit : VArray Addr
  grtexita : VArray Addr

def Grt.empty : Grt := ⟨VArray.null, VArray.null⟩

/-- A function with the argument it was registered with. -/
structure Reg where
  func : Addr
  arg : Addr
deriving DecidableEq

/-- `on_exit()`. `alloc` and `alloca` say whether the two arrays get storage, where they
ask for some. -/
def on_exit (alloc alloca : Bool) (grt : Grt) (func arg : Addr) : Int × Grt :=
  if func ≠ 0 then
    let (rc, grtexit) := arrayadd alloc grt.grtexit func
    if rc = 0 then
      let (rc, grtexita) := arrayadd alloca grt.grtexita arg
      -- the arrays stay paired
      if rc ≠ 0 then (rc, ⟨(arraydel grtexit (arraycount grtexit)).2, grtexita⟩)
      else (rc, ⟨grtexit, grtexita⟩)
    else (rc, ⟨grtexit, grt.grtexita⟩)
  else (-1, grt)

/-- `atexit()`: the argument is NULL. -/
def atexit (alloc alloca : Bool) (grt : Grt) (func : Addr) : Int × Grt := on_exit alloc alloca grt func 0

/-- A call of `atexit()` or `on_exit()`. -/
inductive Request
  | atexit (alloc alloca : Bool) (func : Addr)
  | on_exit (alloc alloca : Bool) (func arg : Addr)

/-- What is registered, when the call reports success. -/
def Request.reg : Request → Reg
  | .atexit _ _ func => ⟨func, 0⟩
  | .on_exit _ _ func arg => ⟨func, arg⟩

def Request.call (grt : Grt) : Request → Int × Grt
  | .atexit alloc alloca func => Exit.atexit alloc alloca grt func
  | .on_exit alloc alloca func arg => Exit.on_exit alloc alloca grt func arg

/-- A registration, when it reported success. -/
def register (grt : Grt) (r : Request) : Option Reg × Grt :=
  let (rc, grt) := r.call grt
  (if rc = 0 then some r.reg else none, grt)

/-- The registrations that reported success, in order. -/
def registered (grt : Grt) (rs : List Request) : List Reg := (Machine.answers register grt rs).filterMap id

/-- A call made by `__exit()`, with what the function registered meanwhile. -/
structure Call where
  status : Int
  reg : Reg
  registered : List Reg
deriving DecidableEq

/-- `array[index] = 0`. -/
def zero : VArray Addr → Nat → VArray Addr
  | none, _ => none
  | some a, index => some ⟨a.size, a.items.set index 0, by rw [List.length_set]; exact a.fits⟩

section Run
/- What a function asks to be registered while it runs may depend on everything that was
called before it. -/
variable (does : Int → List Reg → List Request) (status : Int)

/-- The loop of `__exit()`, with `count` places to go and the calls made so far. -/
def loop : Nat → List Reg → Grt → List Call × Grt
  | 0, _, grt => ([], grt)
  | count + 1, past, grt =>
    let func := grt.grtexit.list.getD count 0
    let reg : Reg := ⟨func, grt.grtexita.list.getD count 0⟩
    let cleared : Grt → Grt := fun grt => ⟨zero grt.grtexit count, zero grt.grtexita count⟩
    if func ≠ 0 then
      let requests := does status (past ++ [reg])
      let (calls, final) := loop count (past ++ [reg]) (cleared (Machine.final register grt requests))
      (⟨status, reg, Exit.registered grt requests⟩ :: calls, final)
    else loop count past (cleared grt)

/-- `__exit()`, as far as the functions go: the calls it makes. -/
def exit (grt : Grt) : List Call × Grt :=
  match grt.grtexit with
  | none => ([], grt)
  | some _ => ((loop does status (arraycount grt.grtexit) [] grt).1, .empty)

end Run

/-! ### Registrations -/

/-- A registration adds to both arrays or to none. -/
theorem on_exit_cases (alloc alloca : Bool) (grt : Grt) (func arg : Addr) :
    ((on_exit alloc alloca grt func arg).1 = 0 ∧ func ≠ 0 ∧
        (on_exit alloc alloca grt func arg).2.grtexit.list = grt.grtexit.list ++ [func] ∧
        (on_exit alloc alloca grt func arg).2.grtexita.list = grt.grtexita.list ++ [arg]) ∨
      ((on_exit alloc alloca grt func arg).1 ≠ 0 ∧
        (on_exit alloc alloca grt func arg).2.grtexit.list = grt.grtexit.list ∧
        (on_exit alloc alloca grt func arg).2.grtexita.list = grt.grtexita.list) := by
  unfold on_exit
  by_cases hfunc : func ≠ 0
  · rw [if_pos hfunc]
    dsimp only
    rcases arrayadd_cases alloc grt.grtexit func with ⟨hrc, hlist⟩ | ⟨-, hrc, hsame⟩
    · rw [if_pos hrc]
      rcases arrayadd_cases alloca grt.grtexita arg with ⟨hrca, hlista⟩ | ⟨-, hrca, hsamea⟩
      · rw [if_neg (not_not.mpr hrca)]
        exact .inl ⟨hrca, hfunc, hlist, hlista⟩
      · have hne : (arrayadd alloca grt.grtexita arg).1 ≠ 0 := by
          rw [hrca]
          decide
        rw [if_pos hne]
        refine .inr ⟨hne, ?_, by rw [hsamea]⟩
        rw [(arraydel_last _).2, hlist, List.dropLast_concat]
    · have hne : (arrayadd alloc grt.grtexit func).1 ≠ 0 := by
        rw [hrc]
        decide
      rw [if_neg hne]
      exact .inr ⟨hne, by rw [hsame], rfl⟩
  · rw [if_neg hfunc]
    exact .inr ⟨show (-1 : Int) ≠ 0 by decide, rfl, rfl⟩

theorem register_cases (grt : Grt) (r : Request) :
    ((register grt r).1 = some r.reg ∧ r.reg.func ≠ 0 ∧
        (register grt r).2.grtexit.list = grt.grtexit.list ++ [r.reg.func] ∧
        (register grt r).2.grtexita.list = grt.grtexita.list ++ [r.reg.arg]) ∨
      ((register grt r).1 = none ∧ (register grt r).2.grtexit.list = grt.grtexit.list ∧
        (register grt r).2.grtexita.list = grt.grtexita.list) := by
  have hcases : ((r.call grt).1 = 0 ∧ r.reg.func ≠ 0 ∧
        (r.call grt).2.grtexit.list = grt.grtexit.list ++ [r.reg.func] ∧
        (r.call grt).2.grtexita.list = grt.grtexita.list ++ [r.reg.arg]) ∨
      ((r.call grt).1 ≠ 0 ∧ (r.call grt).2.grtexit.list = grt.grtexit.list ∧
        (r.call grt).2.grtexita.list = grt.grtexita.list) := by
    cases r with
    | atexit alloc alloca func => exact on_exit_cases alloc alloca grt func 0
    | on_exit alloc alloca func arg => exact on_exit_cases alloc alloca grt func arg
  rcases hcases with ⟨hrc, h⟩ | ⟨hrc, h⟩
  · exact .inl ⟨if_pos hrc, h⟩
  · exact .inr ⟨if_neg hrc, h⟩

/-- Before `__exit()`, the arrays hold what was registered. -/
theorem registered_lists (requests : List Request) :
    let grt := Machine.final register .empty requests
    grt.grtexit.list = (registered .empty requests).map Reg.func ∧
      grt.grtexita.list = (registered .empty requests).map Reg.arg ∧
      ∀ r ∈ registered .empty requests, r.func ≠ 0 := by
  refine Machine.history_invariant (fun _ answers (grt : Grt) => grt.grtexit.list =
    (answers.filterMap id).map Reg.func ∧
    grt.grtexita.list = (answers.filterMap id).map Reg.arg ∧ ∀ r ∈ answers.filterMap id, r.func ≠ 0) ?_
    ⟨rfl, rfl, fun _ hr => absurd hr List.not_mem_nil⟩ requests
  intro _ answers grt r ⟨hfuncs, hargs, hne⟩
  rcases register_cases grt r with ⟨hreg, hfunc, hlist, hlista⟩ | ⟨hreg, hlist, hlista⟩
  · rw [hlist, hlista, hreg, List.filterMap_append, hfuncs, hargs]
    refine ⟨by simp, by simp, fun q hq => ?_⟩
    rcases List.mem_append.mp hq with hq | hq
    · exact hne q hq
    · rw [List.mem_singleton.mp hq]
      exact hfunc
  · rw [hlist, hlista, hreg, List.filterMap_append, List.filterMap_cons_none rfl, List.filterMap_nil, List.append_nil]
    exact ⟨hfuncs, hargs, hne⟩

/-! ### The loop -/

/-- The functions still to be called are where they were put, whatever is behind them. -/
structure Holds (grt : Grt) (regs : List Reg) : Prop where
  funcs : regs.map Reg.func <+: grt.grtexit.list
  args : regs.map Reg.arg <+: grt.grtexita.list

theorem Holds.registered {grt : Grt} {regs : List Reg} (h : Holds grt regs) (r : Request) :
    Holds (Exit.register grt r).2 regs := by
  rcases register_cases grt r with ⟨-, -, hlist, hlista⟩ | ⟨-, hlist, hlista⟩
  · exact ⟨by rw [hlist]; exact h.funcs.trans (List.prefix_append _ _),
      by rw [hlista]; exact h.args.trans (List.prefix_append _ _)⟩
  · exact ⟨by rw [hlist]; exact h.funcs, by rw [hlista]; exact h.args⟩

theorem Holds.final {grt : Grt} {regs : List Reg} (h : Holds grt regs) (requests : List Request) :
    Holds (Machine.final Exit.register grt requests) regs := by
  have hstep : ∀ grt, ∀ r ∈ requests, Holds grt regs → Holds (Exit.register grt r).2 regs :=
    fun _ r _ h => h.registered r
  exact Machine.final_invariant hstep h

theorem zero_list (v : VArray Addr) (index : Nat) : (zero v index).list = v.list.set index 0 := by
  cases v <;> rfl

/-- The place behind a prefix is cleared: the prefix stays. -/
theorem prefix_set {l m : List Addr} {x : Addr} (h : l ++ [x] <+: m) : l <+: m.set l.length 0 := by
  obtain ⟨rest, rfl⟩ := h
  rw [List.append_assoc, List.set_append_right _ _ (Nat.le_refl _)]
  exact List.prefix_append _ _

theorem prefix_getD {l m : List Addr} {x : Addr} (h : l ++ [x] <+: m) : m.getD l.length 0 = x := by
  obtain ⟨rest, rfl⟩ := h
  simp

theorem Holds.zero {grt : Grt} {regs : List Reg} {r : Reg} (h : Holds grt (regs ++ [r])) :
    Holds ⟨zero grt.grtexit regs.length, zero grt.grtexita regs.length⟩ regs := by
  obtain ⟨hfuncs, hargs⟩ := h
  rw [List.map_append] at hfuncs hargs
  refine ⟨?_, ?_⟩
  · have hset := prefix_set hfuncs
    rwa [List.length_map, ← zero_list] at hset
  · have hset := prefix_set hargs
    rwa [List.length_map, ← zero_list] at hset

section Run
variable (does : Int → List Reg → List Request) (status : Int)

/-- Each function registered before is called once, the last one first, with its argument. -/
theorem loop_calls {regs : List Reg} (hne : ∀ r ∈ regs, r.func ≠ 0) (past : List Reg) {grt : Grt} (h : Holds grt regs) :
    (loop does status regs.length past grt).1.map Call.reg = regs.reverse := by
  induction regs using List.reverseRecOn generalizing past grt with
  | nil => rfl
  | append_singleton regs r ih =>
    obtain ⟨hbefore, hlast⟩ := List.forall_mem_append.mp hne
    have hfunc : grt.grtexit.list.getD regs.length 0 = r.func := by
      have hget := prefix_getD (by simpa using h.funcs)
      rwa [List.length_map] at hget
    have harg : grt.grtexita.list.getD regs.length 0 = r.arg := by
      have hget := prefix_getD (by simpa using h.args)
      rwa [List.length_map] at hget
    have hr : r.func ≠ 0 := hlast r (List.mem_singleton_self r)
    rw [List.length_append, List.length_singleton, loop]
    simp only [hfunc, harg]
    rw [if_pos hr, List.reverse_append, List.reverse_singleton, List.singleton_append, List.map_cons]
    rw [ih hbefore _ (h.final _).zero]

theorem exit_calls (requests : List Request) :
    (exit does status (Machine.final register .empty requests)).1.map Call.reg =
    (registered .empty requests).reverse := by
  obtain ⟨hfuncs, hargs, hne⟩ := registered_lists requests
  generalize Machine.final register .empty requests = grt at hfuncs hargs
  have hcount : arraycount grt.grtexit = (registered .empty requests).length := by
    rw [arraycount, hfuncs, List.length_map]
  have hholds : Holds grt (registered .empty requests) := ⟨hfuncs ▸ List.prefix_rfl, hargs ▸ List.prefix_rfl⟩
  have hcalls := loop_calls does status hne [] hholds
  unfold exit
  split
  · next hnull =>
    rw [hnull] at hcount
    rw [List.length_eq_zero_iff.mp hcount.symm]
    rfl
  · rw [hcount]
    exact hcalls

end Run

/-! ### The calls against a stack -/

/-- The stack of functions still to be called, after some calls: each call takes the top
off, and puts on what is registered during it. There is none if a call is not the top's. -/
def replay : List Reg → List Call → Option (List Reg)
  | stack, [] => some stack
  | [], _ :: _ => none
  | top :: stack, c :: rest => if c.reg = top then replay (c.registered.reverse ++ stack) rest else none

/-- Each function is called exactly once, with its own argument, in the reverse order of
registration: the calls take one function after the other off the stack, and leave none. -/
def Lifo (before : List Reg) (calls : List Call) : Prop := replay before.reverse calls = some []

instance (before : List Reg) (calls : List Call) : Decidable (Lifo before calls) :=
  inferInstanceAs (Decidable (_ = _))

theorem replay_length {stack left : List Reg} {calls : List Call} (h : replay stack calls = some left) :
    left.length + calls.length = stack.length + (calls.flatMap Call.registered).length := by
  induction calls generalizing stack with
  | nil =>
    rw [replay] at h
    rw [Option.some.inj h]
    rfl
  | cons c rest ih =>
    cases stack with
    | nil => cases h
    | cons top stack =>
      rw [replay] at h
      split_ifs at h
      have hrest := ih h
      simp only [List.length_append, List.length_reverse, List.length_cons, List.flatMap_cons] at hrest ⊢
      omega

theorem replay_quiet {calls : List Call} (h : ∀ c ∈ calls, c.registered = []) :
    replay (calls.map Call.reg) calls = some [] := by
  induction calls with
  | nil => rfl
  | cons c rest ih =>
    obtain ⟨hc, hrest⟩ := List.forall_mem_cons.mp h
    rw [List.map_cons, replay, if_pos rfl, hc]
    exact ih hrest

/-- **`__exit()` calls the functions as a stack exactly when none of them registers
another.** -/
theorem exit_lifo_iff (requests : List Request) (does : Int → List Reg → List Request) (status : Int) :
    Lifo (registered .empty requests) (exit does status (Machine.final register .empty requests)).1 ↔
      ∀ c ∈ (exit does status (Machine.final register .empty requests)).1, c.registered = [] := by
  have hcalls := exit_calls does status requests
  generalize (exit does status (Machine.final register .empty requests)).1 = calls at hcalls
  unfold Lifo
  rw [← hcalls]
  constructor
  · intro h
    have hlength := replay_length h
    rw [List.length_nil, List.length_map] at hlength
    have hnone : calls.flatMap Call.registered = [] := List.length_eq_zero_iff.mp (by omega)
    exact List.flatMap_eq_nil_iff.mp hnone
  · exact replay_quiet

/-- A function registers another, which is not called. -/
theorem registered_while_exiting_lost :
    ¬ Lifo (registered .empty [.atexit true true 1])
      (exit (fun _ past => if past = [⟨1, 0⟩] then [.on_exit true true 2 7] else []) 0
        (Machine.final register .empty [.atexit true true 1])).1 := by
  decide +kernel

end Libc370.Exit
