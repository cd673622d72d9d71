import Libc370.Lib.Runs

/-! `try()` and its ESTAE levels.

RTM has a stack of exits. The library counts them in `crtestct`, and keeps in
`crtestpl`, for each level, the C function that an exit calls: RTM hands an exit the address
of its entry there. An abend drives the newest exit first. `failed()`, the exit of
`try()`, asks for a retry in the `call()` that made it; the one of `abendrpt()` percolates; one
that a program makes does either. RTM removes an exit that percolates, and nobody tells
`crtestct`.

A run is a list of what the program does. The functions called by the tries in
progress are known by these tries alone, innermost first. `returned`, which decides nothing,
has what each `try()` found when it returned. When RTM enters the exits to clean up only,
the task ends and no `try()` returns any more, so that is left out. -/
namespace Libc370.Recovery

open Runs

/-- The C function of an exit: `failed()` with the registers of a `call()`, `recovery()` of
`abendrpt()`, or one of the program, made with so many tries in progress. -/
inductive Exit
  | failed (regs : Nat)
  | recovery
  | user (tries : Nat)
  deriving DecidableEq

/-- The words of `CLIBCRT` for recovery. -/
structure Crt where
  crtestct : Nat
  crtestpl : Nat → Option Exit
  crttryrc : UInt32

/-- A `call()` in progress: the registers it keeps for the retry, and the levels when it
was entered. -/
structure Try where
  regs : Nat
  entry : Nat

/-- A `try()` that returned: its return code, the levels when it was entered, and the levels
and the exits established when it returned. -/
structure Return where
  rc : Int
  entry : Nat
  levels : Nat
  exits : Nat
  deriving DecidableEq

/-- `exits` is the stack of RTM, newest first, each exit by its entry in `crtestpl`. -/
structure State where
  crt : Crt
  exits : List Nat
  tries : List Try
  regs : Nat
  returned : List Return

/-- `estae(ESTAE_CREATE, ..)`: the return code; `rc` is that of the system. -/
def create (s : State) (fp : Option Exit) (rc : Nat) : Int × State :=
  match fp with
  | none => (-1, s)
  | some fp =>
    if 10 ≤ s.crt.crtestct then (-1, s)
    else
      let crtestpl := Function.update s.crt.crtestpl s.crt.crtestct (some fp)
      if rc = 0 then
        (0, {s with
          crt := {s.crt with crtestpl := crtestpl, crtestct := s.crt.crtestct + 1}
          exits := s.crt.crtestct :: s.exits})
      else (rc, {s with crt := {s.crt with crtestpl := crtestpl}})

/-- `estae(ESTAE_DELETE, ..)`: the newest exit is removed, if there is one. -/
def delete (s : State) : State :=
  {s with
    crt := {s.crt with crtestct := s.crt.crtestct - 1}
    exits := s.exits.tail}

/-- A `try()` returns. -/
def State.ret (s : State) (rc : Int) (entry : Nat) : State :=
  {s with returned := s.returned ++ [⟨rc, entry, s.crt.crtestct, s.exits.length⟩]}

/-- `call()` up to the function: the tries clear `crttryrc`, and where the exit is refused
they return a negative code. -/
def enter (s : State) (rc : Nat) : State :=
  let cleared : State :=
    {s with
      crt := {s.crt with crttryrc := 0}
      regs := s.regs + 1}
  let (rc', s') := create cleared (some (.failed s.regs)) rc
  if rc' = 0 then {s' with tries := ⟨s.regs, s.crt.crtestct⟩ :: s.tries}
  else s'.ret (if 0 < rc' then -rc' else rc') s.crt.crtestct

/-- The function of the innermost `try()` returns. -/
def leave (s : State) : Option State :=
  match s.tries with
  | [] => none
  | t :: rest => some ({delete s with tries := rest}.ret 0 t.entry)

/-- Whether an exit percolates; `retries` says what the program's own ones ask for. -/
def percolates (s : State) (retries : Nat → Bool) (slot : Nat) : Bool :=
  match s.crt.crtestpl slot with
  | some (.failed _) => false
  | some (.user _) => !retries slot
  | _ => true

/-- What is left of the stack when an exit asks for a retry. -/
def driven (s : State) (retries : Nat → Bool) : List Nat := s.exits.dropWhile (percolates s retries)

/-- An abend code as `call()` returns it: without one, `failed()` leaves the -1 there. -/
def abendRc (code : UInt32) : UInt32 :=
  (if code &&& 0x00FFFFFF = 0 then 0xFFFFFFFF else code &&& 0x00FFFFFF) &&& 0x00FFFFFF

/-- The retry in the `call()` with these registers, and its return. Tries within it are
abandoned. Once that `call()` has returned, its registers are gone. -/
def retry (s : State) (code : UInt32) (regs : Nat) : Option State :=
  match s.tries.dropWhile (fun t => t.regs ≠ regs) with
  | [] => none
  | t :: rest =>
    some ((delete {s with
      crt := {s.crt with crttryrc := abendRc code}
      tries := rest}).ret (abendRc code).toNat t.entry)

/-- An abend. Without an exit that asks for a retry the task ends. -/
def abend (s : State) (code : UInt32) (retries : Nat → Bool) : Option State :=
  match driven s retries with
  | [] => none
  | slot :: rest =>
    match s.crt.crtestpl slot with
    | some (.failed regs) => retry {s with exits := slot :: rest} code regs
    | some (.user tries) =>
      some {s with
        exits := slot :: rest
        tries := s.tries.drop (s.tries.length - tries)}
    | _ => none

/-- What a program does. -/
inductive Event
  | estaeCreate (fp : Bool) (rc : Nat)
  | abendrptCreate (rc : Nat)
  | delete
  | enter (rc : Nat)
  | leave
  | abend (code : UInt32) (retries : Nat → Bool)

def next (s : State) : Event → Option State
  | .estaeCreate fp rc => some (create s (if fp then some (.user s.tries.length) else none) rc).2
  | .abendrptCreate rc => some (create s (some .recovery) rc).2
  | .delete => some (delete s)
  | .enter rc => some (enter s rc)
  | .leave => leave s
  | .abend code retries => abend s code retries

/-- No exit, and no `try()`. -/
def start : State := ⟨⟨0, fun _ => none, 0⟩, [], [], 0, []⟩

/-- When the `try()` returned, the levels were the exits established, and those when it was
entered. -/
def Return.Right (r : Return) : Prop := r.levels = r.exits ∧ r.levels = r.entry

/-- A step meets the condition: the function of a `try()` returns with as many exits below
the newest as there were when the `try()` was entered, and no exit percolates before another
asks for a retry. -/
def Meets (s : State) : Event → Prop
  | .leave => ∀ t rest, s.tries = t :: rest → s.exits.tail.length = t.entry
  | .abend _ retries => driven s retries = s.exits
  | _ => True

/-! ### The invariant -/

/-- The exits are one for each level. -/
structure Inv (s : State) : Prop where
  levels : s.exits = (List.range s.crt.crtestct).reverse
  entry : ∀ slot regs, s.crt.crtestpl slot = some (.failed regs) → ∀ t ∈ s.tries, t.regs = regs → t.entry = slot
  listed : ∀ slot regs, s.crt.crtestpl slot = some (.failed regs) → regs < s.regs
  fresh : ∀ t ∈ s.tries, t.regs < s.regs
  right : ∀ r ∈ s.returned, r.Right

theorem range_tail (n : Nat) : (List.range n).reverse.tail = (List.range (n - 1)).reverse := by
  cases n with
  | zero => rfl
  | succ n => rw [List.range_succ, List.reverse_append]; rfl

theorem Inv.length {s : State} (h : Inv s) : s.exits.length = s.crt.crtestct := by
  rw [h.levels, List.length_reverse, List.length_range]

theorem Inv.create {s : State} (h : Inv s) {fp : Option Exit} (hfp : ∀ regs, fp ≠ some (.failed regs)) (rc : Nat) :
    Inv (create s fp rc).2 := by
  unfold Recovery.create
  cases fp with
  | none => exact h
  | some fp =>
    have hentry : ∀ slot regs, Function.update s.crt.crtestpl s.crt.crtestct (some fp) slot = some (.failed regs) →
        s.crt.crtestpl slot = some (.failed regs) := by
      intro slot regs hslot
      by_cases heq : slot = s.crt.crtestct
      · rw [heq, Function.update_self] at hslot
        exact absurd hslot (hfp regs)
      · rwa [Function.update_of_ne heq] at hslot
    dsimp only
    split_ifs
    · exact h
    · refine ⟨?_, fun slot regs hslot => h.entry slot regs (hentry slot regs hslot),
        fun slot regs hslot => h.listed slot regs (hentry slot regs hslot), h.fresh, h.right⟩
      rw [h.levels, List.range_succ, List.reverse_append]
      rfl
    · exact ⟨h.levels, fun slot regs hslot => h.entry slot regs (hentry slot regs hslot),
        fun slot regs hslot => h.listed slot regs (hentry slot regs hslot), h.fresh, h.right⟩

theorem Inv.delete {s : State} (h : Inv s) : Inv (delete s) where
  levels := by
    show s.exits.tail = _
    rw [h.levels, range_tail]
    rfl
  entry := h.entry
  listed := h.listed
  fresh := h.fresh
  right := h.right

/-- A `try()` that returns to the levels it was entered with. -/
theorem Inv.ret {s : State} (h : Inv s) (rc : Int) {entry : Nat} (hentry : s.crt.crtestct = entry) :
    Inv (s.ret rc entry) where
  levels := h.levels
  entry := h.entry
  listed := h.listed
  fresh := h.fresh
  right := fun r hr => by
    rcases List.mem_append.mp hr with hold | hnew
    · exact h.right r hold
    · rw [List.mem_singleton.mp hnew]
      exact ⟨h.length.symm, hentry⟩

/-- Tries are abandoned, or return. -/
theorem Inv.fewer {s : State} (h : Inv s) {tries : List Try} (hsub : tries.Sublist s.tries) (crttryrc : UInt32) :
    Inv {s with crt := {s.crt with crttryrc := crttryrc}, tries := tries} where
  levels := h.levels
  entry := fun slot regs hslot t ht => h.entry slot regs hslot t (hsub.subset ht)
  listed := h.listed
  fresh := fun t ht => h.fresh t (hsub.subset ht)
  right := h.right

/-- What `create` writes in the table for a `try()` that is entered: it is the entry of that
`call()`, or of none in progress. -/
theorem Inv.written {s : State} (h : Inv s) {slot regs : Nat}
    (hslot : Function.update s.crt.crtestpl s.crt.crtestct (some (.failed s.regs)) slot = some (.failed regs)) :
    (slot = s.crt.crtestct ∧ regs = s.regs) ∨ (s.crt.crtestpl slot = some (.failed regs) ∧ regs < s.regs) := by
  by_cases heq : slot = s.crt.crtestct
  · rw [heq, Function.update_self] at hslot
    exact .inl ⟨heq, (Exit.failed.inj (Option.some.inj hslot)).symm⟩
  · rw [Function.update_of_ne heq] at hslot
    exact .inr ⟨hslot, h.listed slot regs hslot⟩

theorem Inv.enter {s : State} (h : Inv s) (rc : Nat) : Inv (enter s rc) := by
  have hlisted : ∀ slot regs,
      Function.update s.crt.crtestpl s.crt.crtestct (some (.failed s.regs)) slot = some (.failed regs) →
        regs < s.regs + 1 := by
    intro slot regs hslot
    rcases h.written hslot with ⟨-, rfl⟩ | ⟨-, hlt⟩
    · exact Nat.lt_succ_self _
    · exact Nat.lt_succ_of_lt hlt
  have hentry : ∀ slot regs,
      Function.update s.crt.crtestpl s.crt.crtestct (some (.failed s.regs)) slot = some (.failed regs) →
        ∀ t ∈ s.tries, t.regs = regs → t.entry = slot := by
    intro slot regs hslot t ht hregs
    rcases h.written hslot with ⟨-, rfl⟩ | ⟨hold, -⟩
    · exact absurd hregs (h.fresh t ht).ne
    · exact h.entry slot regs hold t ht hregs
  have hfresh : ∀ t ∈ s.tries, t.regs < s.regs + 1 := fun t ht => Nat.lt_succ_of_lt (h.fresh t ht)
  unfold Recovery.enter Recovery.create
  dsimp only
  by_cases hten : 10 ≤ s.crt.crtestct
  · -- Ten levels are in use: the function is not called.
    rw [if_pos hten]
    refine Inv.ret ?_ _ rfl
    exact ⟨h.levels, h.entry, fun slot regs hslot => Nat.lt_succ_of_lt (h.listed slot regs hslot), hfresh, h.right⟩
  · rw [if_neg hten]
    by_cases hrc : rc = 0
    · rw [if_pos hrc]
      refine ⟨?_, fun slot regs hslot t ht hregs => ?_, hlisted, fun t ht => ?_, h.right⟩
      · show s.crt.crtestct :: s.exits = (List.range (s.crt.crtestct + 1)).reverse
        rw [h.levels, List.range_succ, List.reverse_append]
        rfl
      · rcases List.mem_cons.mp ht with rfl | hold
        · rcases h.written hslot with ⟨rfl, -⟩ | ⟨-, hlt⟩
          · rfl
          · exact absurd hregs hlt.ne'
        · exact hentry slot regs hslot t hold hregs
      · rcases List.mem_cons.mp ht with rfl | hold
        · exact Nat.lt_succ_self _
        · exact hfresh t hold
    · -- RTM refuses the exit.
      rw [if_neg hrc, if_neg (by simpa using hrc)]
      refine Inv.ret ?_ _ rfl
      exact ⟨h.levels, hentry, hlisted, hfresh, h.right⟩

theorem Inv.leave {s t : State} (h : Inv s) (hstep : leave s = some t) (hmeets : Meets s .leave) : Inv t := by
  unfold Recovery.leave at hstep
  split at hstep
  · cases hstep
  · next try_ rest htries =>
    cases hstep
    have hsub : rest.Sublist s.tries := htries ▸ List.sublist_cons_self try_ rest
    refine ((h.delete).fewer hsub s.crt.crttryrc).ret 0 ?_
    exact (h.delete).length.symm.trans (hmeets try_ rest htries)

/-- A retry in a `call()` whose exit is the newest. -/
theorem Inv.retry {s t : State} (h : Inv s) {slot regs : Nat} {rest : List Nat} (hexits : s.exits = slot :: rest)
    (hslot : s.crt.crtestpl slot = some (.failed regs)) {code : UInt32} (hstep : retry s code regs = some t) :
    Inv t := by
  unfold Recovery.retry at hstep
  split at hstep
  · cases hstep
  · next try_ others htries =>
    cases hstep
    have hsub : (try_ :: others).Sublist s.tries := htries ▸ List.dropWhile_sublist _
    have hregs : try_.regs = regs := by
      have hnot := List.head?_dropWhile_not (p := fun t : Try => decide (t.regs ≠ regs)) (l := s.tries)
      rw [htries] at hnot
      simpa using hnot
    -- The slot of the newest exit is one below the number of levels.
    have hcount : s.crt.crtestct - 1 = slot := by
      have hlevels := h.levels
      rw [hexits] at hlevels
      cases hct : s.crt.crtestct with
      | zero =>
        rw [hct] at hlevels
        cases hlevels
      | succ n =>
        rw [hct, List.range_succ, List.reverse_append] at hlevels
        exact (List.cons.inj hlevels).1.symm
    have hentry := h.entry slot regs hslot try_ (hsub.subset List.mem_cons_self) hregs
    exact ((h.fewer ((List.sublist_cons_self _ _).trans hsub) (abendRc code)).delete).ret _ (hcount.trans hentry.symm)

theorem Inv.abend {s t : State} (h : Inv s) {code : UInt32} {retries : Nat → Bool}
    (hstep : abend s code retries = some t)
    (hmeets : driven s retries = s.exits) : Inv t := by
  unfold Recovery.abend at hstep
  rw [hmeets] at hstep
  split at hstep
  · cases hstep
  · next slot rest hexits =>
    have hsame : {s with exits := slot :: rest} = s := by rw [← hexits]
    split at hstep
    · next regs hslot =>
      rw [hsame] at hstep
      exact h.retry hexits hslot hstep
    · cases hstep
      rw [← hexits]
      exact h.fewer (List.drop_sublist _ _) s.crt.crttryrc
    · cases hstep

theorem Inv.next {s t : State} {e : Event} (h : Inv s) (hstep : next s e = some t) (hmeets : Meets s e) : Inv t := by
  cases e with
  | estaeCreate fp rc =>
    cases hstep
    refine h.create (fun regs hfp => ?_) rc
    split_ifs at hfp
    cases hfp
  | abendrptCreate rc =>
    cases hstep
    exact h.create (fun regs hfp => Exit.noConfusion (Option.some.inj hfp)) rc
  | delete =>
    cases hstep
    exact h.delete
  | enter rc =>
    cases hstep
    exact h.enter rc
  | leave => exact h.leave hstep hmeets
  | abend code retries => exact h.abend hstep hmeets

theorem start_inv : Inv start :=
  ⟨rfl, fun _ _ _ _ ht => absurd ht List.not_mem_nil, fun _ _ hslot => absurd hslot (Option.some_ne_none _).symm,
    fun _ ht => absurd ht List.not_mem_nil, fun _ hr => absurd hr List.not_mem_nil⟩

/-- **A `try()` returns to the levels it was entered with.** In every run in which no exit
percolates before another asks for a retry, and the functions of tries return with their
exits deleted: whenever a `try()` returns, `crtestct` is the number of exits established, and
what it was when that `try()` was entered. -/
theorem tries_return_right (events : List Event) (hmeets : ∀ v ∈ visits next start events, Meets v.1 v.2) :
    ∀ s ∈ states next start events, ∀ r ∈ s.returned, r.Right :=
  fun s hs => (always (fun _ _ _ h hstep hm => Inv.next h hstep hm) start_inv events hmeets s hs).right

/-- A `try()` in a `try()`; the inner function abends, the outer one returns. -/
def nested : List Event := [.enter 0, .enter 0, .abend 0x0C1000 (fun _ => false), .leave]

theorem nested_return_right :
    ⟨0x0C1000, 1, 1, 1⟩ ∈ (final next start nested).returned ∧ (⟨0x0C1000, 1, 1, 1⟩ : Return).Right := by
  have hreturned : ⟨0x0C1000, 1, 1, 1⟩ ∈ (final next start nested).returned := by decide +kernel
  refine ⟨hreturned, tries_return_right nested ?_ _ (final_mem_states _ _) _ hreturned⟩
  refine List.forall_mem_cons.mpr ⟨trivial, List.forall_mem_cons.mpr ⟨trivial, List.forall_mem_cons.mpr ⟨rfl, ?_⟩⟩⟩
  refine List.forall_mem_singleton.mpr fun t rest htries => ?_
  obtain rfl : _ = t := (List.cons.inj htries).1
  rfl

/-- The function of a `try()` calls `abendrpt()` for a report, and abends: a level is left over. -/
theorem report_leaves_level :
    ¬ ∀ s ∈ states next start [.enter 0, .abendrptCreate 0, .abend 0x0C1000 (fun _ => false)], ∀ r ∈ s.returned,
      r.Right := by
  intro h
  have hright := h _ (final_mem_states _ _) ⟨0x0C1000, 0, 1, 0⟩ (by decide +kernel)
  exact absurd hright.1 (by decide)

end Libc370.Recovery
