import Libc370.Mvs.ThreadQuiesce

/-! No storage is freed under a running subtask.

Every worker subtask that runs is in the manager's list with its storage and its task
(`Kept`). `cthread_worker_del()` leaves such a worker alone, and `cthread_manager_term()`
counts it and keeps the manager. A worker for which the list had no room is started
nevertheless, and nobody knows of it. -/
namespace Libc370.Cthread

open Ext Runs

/-- Every worker subtask that was started and has not ended is in the manager's list, and its
storage, that of its task, and the manager's are there; so is the manager's as long as the
dispatch thread has not ended. -/
structure Retained (s : System) : Prop where
  manager : s.pool.live ≠ [] ∨ s.pc.isEnded = false → s.pool.freed = false
  listed : ∀ w t, (w, t) ∈ s.pool.live → w ∈ s.pool.worker.list
  work : ∀ w t, (w, t) ∈ s.pool.live → s.pool.works w ≠ none
  task : ∀ w t, (w, t) ∈ s.pool.live → s.pool.tasks t ≠ none

/-- A call of `cthread_worker_add()` that starts a subtask has room for its worker in the list. -/
def Listed (p : Pool) (g : Grant) : Prop :=
  (workerAdd p g).1 = 0 → g.task = .started → (arrayadd g.room p.worker p.brk).1 = 0

/-- So do all the calls of a loop. -/
def AllListed : Pool → List Grant → Prop
  | _, [] => True
  | p, g :: rest => Listed p g ∧ AllListed (workerAdd p g).2 rest

/-- The calls of `cthread_worker_add()` in a section of the dispatch thread. -/
def adds (p : Pool) (c : Choice) : Pc → Pool × List Grant
  | .init => ({p with state := .running}, (List.range (p.mintask - arraycount p.worker)).map c.grants)
  | .create => (p, if arraycount p.worker < p.maxtask then [c.grants 0] else [])
  | .work _ => (p, if arraycount p.worker < p.mintask then [c.grants 0] else [])
  | _ => (p, [])

/-- A step meets the condition: a worker that is started is entered in the list. -/
def MeetsListed (s : System) : Action → Prop
  | .dispatch c => AllListed (adds s.pool c s.pc).1 (adds s.pool c s.pc).2
  | .workerAdd g => Listed s.pool g
  | _ => True

/-- What `Retained` says, with the worker's task, and with no two subtasks of the same task. -/
structure Kept (p : Pool) : Prop where
  listed : ∀ w t, (w, t) ∈ p.live → w ∈ p.worker.list
  working : ∀ w t, (w, t) ∈ p.live → ∃ x, p.works w = some x ∧ x.task = some t
  alive : ∀ w t, (w, t) ∈ p.live → p.tasks t = some ⟨true, false⟩
  once : (p.live.map Prod.snd).Nodup
  below : ∀ w ∈ p.worker.list, w < p.brk
  tasks : ∀ w t, (w, t) ∈ p.live → t < p.brk

/-- A function leaves the running subtasks, their workers and their tasks alone. -/
structure Still (p p' : Pool) : Prop where
  live : p'.live = p.live
  listed : ∀ w t, (w, t) ∈ p.live → w ∈ p.worker.list → w ∈ p'.worker.list
  working : ∀ w t, (w, t) ∈ p.live → ∀ x, p.works w = some x → ∃ x', p'.works w = some x' ∧ x'.task = x.task
  tasks : ∀ w t, (w, t) ∈ p.live → p'.tasks t = p.tasks t
  below : ∀ w ∈ p'.worker.list, w ∈ p.worker.list ∨ w < p'.brk
  brk : p.brk ≤ p'.brk

theorem Still.refl (p : Pool) : Still p p :=
  ⟨rfl, fun _ _ _ hw => hw, fun _ _ _ x hx => ⟨x, hx, rfl⟩, fun _ _ _ => rfl, fun _ hw => .inl hw, le_rfl⟩

theorem Kept.still {p p' : Pool} (h : Kept p) (hs : Still p p') : Kept p' where
  listed := fun w t hwt => by
    rw [hs.live] at hwt
    exact hs.listed w t hwt (h.listed w t hwt)
  working := fun w t hwt => by
    rw [hs.live] at hwt
    obtain ⟨x, hx, htask⟩ := h.working w t hwt
    obtain ⟨x', hx', htask'⟩ := hs.working w t hwt x hx
    exact ⟨x', hx', htask'.trans htask⟩
  alive := fun w t hwt => by
    rw [hs.live] at hwt
    exact (hs.tasks w t hwt).trans (h.alive w t hwt)
  once := by
    rw [hs.live]
    exact h.once
  below := fun w hw => by
    rcases hs.below w hw with hold | hnew
    · exact (h.below w hold).trans_le hs.brk
    · exact hnew
  tasks := fun w t hwt => by
    rw [hs.live] at hwt
    exact (h.tasks w t hwt).trans_le hs.brk

theorem Still.trans {p p' p'' : Pool} (h : Still p p') (h' : Still p' p'') : Still p p'' where
  live := h'.live.trans h.live
  listed := fun w t hwt hw => h'.listed w t (h.live ▸ hwt) (h.listed w t hwt hw)
  working := fun w t hwt x hx => by
    obtain ⟨x', hx', htask⟩ := h.working w t hwt x hx
    obtain ⟨x'', hx'', htask'⟩ := h'.working w t (h.live ▸ hwt) x' hx'
    exact ⟨x'', hx'', htask'.trans htask⟩
  tasks := fun w t hwt => (h'.tasks w t (h.live ▸ hwt)).trans (h.tasks w t hwt)
  below := fun w hw => by
    rcases h'.below w hw with hold | hnew
    · exact (h.below w hold).imp_right (fun hlt => hlt.trans_le h'.brk)
    · exact .inr hnew
  brk := h.brk.trans h'.brk

/-! ### Whose subtask runs -/

theorem Kept.running {p : Pool} (h : Kept p) {w t : Addr} (hwt : (w, t) ∈ p.live) {x : Work} (hx : p.works w = some x) :
    p.running x = true := by
  obtain ⟨y, hy, htask⟩ := h.working w t hwt
  obtain rfl := Option.some.inj (hx.symm.trans hy)
  rw [Pool.running, Pool.taskOf, htask, Option.bind_some, h.alive w t hwt]
  rfl

/-- A worker whose subtask does not run is none of those that do, nor is its task. -/
theorem Kept.apart {p : Pool} (h : Kept p) {w : Addr} {x : Work} (hx : p.works w = some x) (hno : p.running x = false)
    {w' t' : Addr} (hwt : (w', t') ∈ p.live) : w' ≠ w ∧ x.task ≠ some t' := by
  constructor
  · rintro rfl
    rw [h.running hwt hx] at hno
    cases hno
  · intro htask
    rw [Pool.running, Pool.taskOf, htask, Option.bind_some, h.alive w' t' hwt] at hno
    cases hno

theorem remove_list (v : VArray Addr) (a : Addr) : (remove v a).list = v.list.erase a := by
  unfold remove
  split_ifs with hmem
  · rw [(arraydel_list v (Nat.succ_pos _)).2, Nat.succ_sub_one, List.erase_eq_eraseIdx_of_idxOf rfl]
  · exact (List.erase_of_not_mem hmem).symm

/-! ### The sections -/

theorem setWork_still {p : Pool} {w : Addr} {x x' : Work} (hx : p.works w = some x) (htask : x'.task = x.task) :
    Still p (p.setWork w (some x')) := by
  refine {Still.refl p with working := fun w' t' _ y hy => ?_}
  by_cases heq : w' = w
  · subst heq
    obtain rfl := Option.some.inj (hx.symm.trans hy)
    exact ⟨x', p.setWork_self w' _, htask⟩
  · exact ⟨y, (p.setWork_of_ne heq _).trans hy, rfl⟩

/-- The storage of a worker whose subtask does not run is freed, or changed. -/
theorem setWork_idle_still {p : Pool} {w : Addr} (h : ∀ w' t', (w', t') ∈ p.live → w' ≠ w) (x : Option Work) :
    Still p (p.setWork w x) :=
  {Still.refl p with working := fun w' t' hwt y hy => ⟨y, (p.setWork_of_ne (h w' t' hwt) x).trans hy, rfl⟩}

theorem setTask_still {p : Pool} {t : Addr} (h : ∀ w' t', (w', t') ∈ p.live → t' ≠ t) (k : Option Task) :
    Still p (p.setTask t k) :=
  {Still.refl p with tasks := fun w' t' hwt => p.setTask_of_ne (h w' t' hwt) k}

theorem taskDel_still {p : Pool} {t : Option Addr} (h : ∀ w' t', (w', t') ∈ p.live → t ≠ some t') :
    Still p (taskDel p t) := by
  cases t with
  | none => exact .refl p
  | some t => exact setTask_still (fun w' t' hwt heq => h w' t' hwt (congrArg some heq.symm)) none

theorem queueDel_still (p : Pool) (i : Option Addr) : Still p (queueDel p i) := by
  cases i with
  | none => exact .refl p
  | some i => exact {Still.refl p with}

theorem remove_still {p : Pool} {w : Addr} (h : ∀ w' t', (w', t') ∈ p.live → w' ≠ w) :
    Still p {p with worker := remove p.worker w} := by
  refine {Still.refl p with listed := fun w' t' hwt hw => ?_, below := fun w' hw => .inl ?_}
  · show w' ∈ (remove p.worker w).list
    rw [remove_list]
    exact (List.mem_erase_of_ne (h w' t' hwt)).mpr hw
  · rw [show ({p with worker := remove p.worker w} : Pool).worker.list = _ from remove_list p.worker w] at hw
    exact List.mem_of_mem_erase hw

theorem dismantle_still {p : Pool} (h : Kept p) {w : Addr} {x : Work} (hx : p.works w = some x)
    (hno : p.running x = false) :
    Still p (dismantle p w x) := by
  have hapart : ∀ w' t', (w', t') ∈ p.live → w' ≠ w ∧ x.task ≠ some t' := fun w' t' hwt => h.apart hx hno hwt
  have hlist := remove_still (fun w' t' hwt => (hapart w' t' hwt).1)
  have htask := hlist.trans (taskDel_still (p := {p with worker := remove p.worker w})
      (fun w' t' hwt => (hapart w' t' hwt).2))
  have hqueue := htask.trans (queueDel_still _ x.queue)
  exact hqueue.trans (setWork_idle_still (fun w' t' hwt => (hapart w' t' (hqueue.live ▸ hwt)).1) none)

theorem workerDel_still {p : Pool} (h : Kept p) (w : Addr) : Still p (workerDel p w).2 := by
  unfold workerDel
  cases hx : p.works w with
  | none => exact .refl p
  | some x =>
    dsimp only
    split_ifs with hrun
    · exact setWork_still hx rfl
    · exact dismantle_still h hx (Bool.eq_false_iff.mpr hrun)

theorem enlist_list (p : Pool) (room : Bool) :
    (p.enlist room).worker.list = p.worker.list ∨ (p.enlist room).worker.list = p.worker.list ++ [p.brk] := by
  rcases arrayadd_cases room p.worker p.brk with ⟨-, hlist⟩ | ⟨-, -, hsame⟩
  · exact .inr hlist
  · exact .inl (congrArg VArray.list hsame)

theorem enlist_still {p : Pool} (h : Kept p) (room : Bool) : Still p (p.enlist room) := by
  refine ⟨rfl, fun w t hwt hw => ?_, fun w t hwt x hx => ⟨x, ?_, rfl⟩, fun _ _ _ => rfl, fun w hw => ?_, Nat.le_succ _⟩
  · rcases enlist_list p room with hlist | hlist
    · rwa [hlist]
    · rw [hlist]
      exact List.mem_append_left _ hw
  · rw [p.enlist_of_ne room (h.below w (h.listed w t hwt)).ne, hx]
  · rcases enlist_list p room with hlist | hlist
    · rw [hlist] at hw
      exact .inl hw
    · rw [hlist, List.mem_append, List.mem_singleton] at hw
      rcases hw with hold | rfl
      · exact .inl hold
      · exact .inr (Nat.lt_succ_self _)

theorem hire_still {p : Pool} (h : Kept p) {w : Addr} (hw : ∀ w' t', (w', t') ∈ p.live → w' ≠ w) (tcb : Bool) :
    Still p (p.hire w tcb) := by
  refine ⟨rfl, fun _ _ _ hw => hw, fun w' t' hwt x hx => ⟨x, ?_, rfl⟩, fun w' t' hwt => ?_, fun _ hw => .inl hw,
    Nat.le_succ _⟩
  · rw [p.hire_of_ne (hw w' t' hwt), hx]
  · exact Function.update_of_ne (h.tasks w' t' hwt).ne _ _

/-- A worker that is entered in the list gets a subtask. -/
theorem started_kept {p : Pool} (h : Kept p) {room : Bool} (hroom : (arrayadd room p.worker p.brk).1 = 0) :
    Kept {(p.enlist room).hire p.brk true with live := p.live ++ [(p.brk, p.brk + 1)]} := by
  have henlist := enlist_still h room
  have hnew : ∀ w' t', (w', t') ∈ (p.enlist room).live → w' ≠ p.brk :=
      fun w' t' hwt => (h.below w' (h.listed w' t' hwt)).ne
  have hq := (h.still henlist).still (hire_still (h.still henlist) hnew true)
  have hlist : (p.enlist room).worker.list = p.worker.list ++ [p.brk] := by
    rcases arrayadd_cases room p.worker p.brk with ⟨-, hlist⟩ | ⟨-, hrc, -⟩
    · exact hlist
    · rw [hroom] at hrc
      cases hrc
  have hmem : ∀ w t, (w, t) ∈ p.live ++ [(p.brk, p.brk + 1)] → (w, t) ∈ p.live ∨ (w = p.brk ∧ t = p.brk + 1) := by
    intro w t hwt
    rcases List.mem_append.mp hwt with hold | hone
    · exact .inl hold
    · exact .inr (Prod.mk.inj (List.mem_singleton.mp hone))
  refine ⟨fun w t hwt => ?_, fun w t hwt => ?_, fun w t hwt => ?_, ?_, hq.below, fun w t hwt => ?_⟩
  · rcases hmem w t hwt with hold | ⟨rfl, -⟩
    · exact hq.listed w t hold
    · show p.brk ∈ (p.enlist room).worker.list
      rw [hlist]
      exact List.mem_append_right _ (List.mem_singleton_self _)
  · rcases hmem w t hwt with hold | ⟨rfl, rfl⟩
    · exact hq.working w t hold
    · refine ⟨_, (Pool.hire_self _ _ true).trans (congrArg _ (p.enlist_self room)), rfl⟩
  · rcases hmem w t hwt with hold | ⟨-, rfl⟩
    · exact hq.alive w t hold
    · exact Function.update_self _ _ _
  · rw [List.map_append, List.nodup_append']
    refine ⟨h.once, List.nodup_singleton _, fun t hold hone => ?_⟩
    obtain ⟨⟨w, t'⟩, hwt, rfl⟩ := List.mem_map.mp hold
    have hlt := h.tasks w t' hwt
    rw [show t' = p.brk + 1 from List.mem_singleton.mp hone] at hlt
    exact absurd hlt (Nat.not_lt.mpr (Nat.le_succ _))
  · rcases hmem w t hwt with hold | ⟨-, rfl⟩
    · exact hq.tasks w t hold
    · exact Nat.lt_succ_self _

theorem workerAdd_kept {p : Pool} (h : Kept p) {g : Grant} (hlisted : Listed p g) : Kept (workerAdd p g).2 := by
  have henlist := enlist_still h g.room
  have hkept := h.still henlist
  have hnew : ∀ w' t', (w', t') ∈ (p.enlist g.room).live → w' ≠ p.brk :=
      fun w' t' hwt => (h.below w' (h.listed w' t' hwt)).ne
  unfold Listed at hlisted
  unfold workerAdd at hlisted ⊢
  split_ifs at hlisted ⊢
  · exact h
  · cases htask : g.task with
    | refused => exact hkept.still (workerDel_still hkept p.brk)
    | unattached tcb => exact hkept.still (hire_still hkept hnew tcb)
    | started =>
      rw [htask] at hlisted
      exact started_kept h (hlisted rfl rfl)

theorem addWorkers_kept {p : Pool} (h : Kept p) {gs : List Grant} (hlisted : AllListed p gs) :
    Kept (addWorkers p gs) := by
  induction gs generalizing p with
  | nil => exact h
  | cons g rest ih => exact ih (workerAdd_kept h hlisted.1) hlisted.2

theorem stop_still {p : Pool} (h : Kept p) (w : Addr) (i : Nat) : Still p (stop p w i).2 := by
  unfold stop
  cases hx : p.works w with
  | none => exact .refl p
  | some x =>
    dsimp only
    split
    · next t k htask hk =>
      split_ifs with hlast hended
      · exact setWork_still hx rfl
      · refine setTask_still (fun w' t' hwt heq => ?_) _
        -- A task with `termecb` posted is none of those that run.
        rw [Pool.taskOf, htask, Option.bind_some, ← heq, h.alive w' t' hwt] at hk
        rw [← Option.some.inj hk] at hended
        cases hended
      · exact setWork_still hx rfl
      · exact setWork_still hx rfl
    · exact setWork_still hx rfl

theorem reap_still {p : Pool} (h : Kept p) {w : Addr} {x : Work} (hx : p.works w = some x) {t : Addr} {k : Task}
    (htask : x.task = some t) (hk : p.taskOf x = some k) (hended : k.termecb = true) : Still p (reap p w x t) := by
  have hno : p.running x = false := by
    rw [Pool.running, hk]
    dsimp only
    rw [hended, Bool.not_true, Bool.and_false]
  have hapart : ∀ w' t', (w', t') ∈ p.live → w' ≠ w ∧ x.task ≠ some t' := fun w' t' hwt => h.apart hx hno hwt
  have hfree : Still p (p.setTask t none) :=
    setTask_still (fun w' t' hwt heq => (hapart w' t' hwt).2 (htask.trans (congrArg some heq.symm))) none
  have hwork := hfree.trans (setWork_idle_still (p := p.setTask t none) (fun w' t' hwt => (hapart w' t' hwt).1)
    (some {x with state := .stopped, task := none}))
  exact hwork.trans (workerDel_still (h.still hwork) w)

theorem checkFrom_still {p : Pool} (h : Kept p) (rc : Bool) (l : List Addr) : Still p (checkFrom p rc l).2 := by
  induction l generalizing rc with
  | nil => exact .refl p
  | cons w rest ih =>
    rw [checkFrom]
    split
    · exact ih rc
    · next x hx =>
      split
      · next t k htask hk =>
        split_ifs with hended
        · exact reap_still h hx htask hk hended
        · exact ih _
      · exact ih rc

theorem dispatchWork_still (p : Pool) (timer : Bool) (w : Addr) : Still p (dispatchWork p timer w) := by
  unfold dispatchWork
  split
  · exact .refl p
  · next x hx =>
    split
    · exact .refl p
    · dsimp only
      split_ifs
      · exact .refl p
      · exact .refl p
      · have hset : Still p (p.setWork w (some {x with
            state := .dispatch
            queue := (arraydel p.queue 1).1
            wait := post x.wait .request})) := setWork_still hx rfl
        exact ⟨hset.live, hset.listed, hset.working, hset.tasks, hset.below, hset.brk⟩
      · exact setWork_still hx rfl
      · exact .refl p

theorem passWork_still (p : Pool) (timer : Bool) (timers : Addr → Bool) : Still p (passWork p timer timers).2 := by
  have hall : ∀ (l : List Addr) (p : Pool), Still p (dispatchAll timers p l) := by
    intro l
    induction l with
    | nil => exact .refl
    | cons w rest ih => exact fun p => (dispatchWork_still p (timers w) w).trans (ih _)
  have hstart : ∀ start, Still p {p with start := start} := fun _ => {Still.refl p with}
  unfold passWork dispatchRound
  dsimp only
  split_ifs
  · exact .refl p
  · exact .refl p
  · exact (hstart _).trans (hall _ _)
  · exact (hstart _).trans (hall _ _)

theorem waitStep_still {p p' : Pool} {holds : Bool} {w : Addr} {x : Work} (hx : p.works w = some x) {pl pl' : Place}
    (hstep : waitStep p holds w x pl = some (p', pl')) : Still p p' := by
  unfold waitStep at hstep
  cases pl with
  | outside =>
    cases hq : x.queue with
    | none =>
      rw [hq] at hstep
      cases hstep
      exact .refl p
    | some i =>
      rw [hq] at hstep
      dsimp only at hstep
      split_ifs at hstep
      cases hstep
      exact (queueDel_still p (some i)).trans (setWork_still (p := queueDel p (some i)) hx rfl)
  | released =>
    cases hstep
    have hset : Still p (p.setWork w (some {x with state := .waiting})) := setWork_still hx rfl
    exact ⟨hset.live, hset.listed, hset.working, hset.tasks, hset.below, hset.brk⟩
  | waiting =>
    obtain ⟨rc, -, heq⟩ := Option.map_eq_some_iff.mp hstep
    cases heq
    exact setWork_still hx rfl
  | woken rc =>
    cases hstep
    exact setWork_still hx rfl

/-- A subtask ends; it is the only one of its task. -/
theorem finish_kept {p : Pool} (h : Kept p) {w t : Addr} (hwt : (w, t) ∈ p.live) : Kept (finish p w t) := by
  have hnodup : p.live.Nodup := h.once.of_map _
  have hmem : ∀ w' t', (w', t') ∈ p.live.erase (w, t) → (w', t') ∈ p.live ∧ t' ≠ t := by
    intro w' t' hin
    have hold := List.mem_of_mem_erase hin
    refine ⟨hold, ?_⟩
    rintro rfl
    have heq := List.inj_on_of_nodup_map h.once hold hwt rfl
    rw [heq] at hin
    exact hnodup.not_mem_erase hin
  refine ⟨fun w' t' hin => h.listed w' t' (hmem w' t' hin).1, fun w' t' hin => h.working w' t' (hmem w' t' hin).1,
    fun w' t' hin => ?_, h.once.sublist (List.erase_sublist.map _), h.below,
      fun w' t' hin => h.tasks w' t' (hmem w' t' hin).1⟩
  exact (Function.update_of_ne (hmem w' t' hin).2 _ _).trans (h.alive w' t' (hmem w' t' hin).1)

theorem workerStep_kept {s s' : System} (h : Kept s.pool) {w t : Addr} (hwt : (w, t) ∈ s.pool.live) {x : Work}
    (hx : s.pool.works w = some x) {m : Move} (hstep : workerStep s w t x m = some s') : Kept s'.pool := by
  unfold workerStep at hstep
  cases m with
  | wait =>
    obtain ⟨r, hr, rfl⟩ := Option.map_eq_some_iff.mp hstep
    exact h.still (waitStep_still hx hr)
  | options timer nowork =>
    cases hstep
    exact h.still (setWork_still hx rfl)
  | finish =>
    cases hstep
    exact finish_kept h hwt

theorem queueAdd_still (p : Pool) (alloc room : Bool) : Still p (queueAdd p alloc room).2 := by
  unfold queueAdd
  split_ifs
  · exact .refl p
  · exact ⟨rfl, fun _ _ _ hw => hw, fun _ _ _ x hx => ⟨x, hx, rfl⟩, fun _ _ _ => rfl, fun _ hw => .inl hw,
      Nat.le_succ _⟩

theorem Effect.keeps {p p' : Pool} {c : Choice} {pc : Pc} (h : Kept p) (he : Effect p c pc p')
    (hlisted : AllListed (adds p c pc).1 (adds p c pc).2) : Kept p' := by
  have hstate : ∀ state wait, Kept {p with state := state, wait := wait} := fun _ _ => {h with}
  cases he with
  | init => exact addWorkers_kept (hstate .running p.wait) hlisted
  | wait quiesce => exact hstate _ _
  | waiting quiesce => exact hstate _ _
  | woken quiesce rc => exact hstate _ _
  | create hcount =>
    rw [adds, if_pos hcount] at hlisted
    exact workerAdd_kept h hlisted.1
  | work timer hcount =>
    rw [adds, if_pos hcount] at hlisted
    exact workerAdd_kept h hlisted.1
  | check quiesce => exact h.still (checkFrom_still h false p.worker.list)
  | pass timer count => exact h.still (passWork_still p timer c.timers)
  | stop w i n timer caller => exact h.still (stop_still h w i)
  | delete w i n timer caller =>
    have hstop := h.still (stop_still h w i)
    exact hstop.still (workerDel_still hstop w)
  | term => exact hstate _ _
  | ended => exact hstate _ _
  | same _ _ => exact h

/-! ### A worker that is not in the list -/

/-- The list has new workers only, and no running subtask is forgotten. -/
structure Grows (p p' : Pool) : Prop where
  listed : ∀ w ∈ p'.worker.list, w ∈ p.worker.list ∨ p.brk ≤ w
  live : p.live ⊆ p'.live
  brk : p.brk ≤ p'.brk

theorem workerDel_grows (p : Pool) (w : Addr) : Grows p (workerDel p w).2 := by
  unfold workerDel
  cases hx : p.works w with
  | none => exact ⟨fun _ hw => .inl hw, fun _ h => h, le_rfl⟩
  | some x =>
    dsimp only
    split_ifs
    · exact ⟨fun _ hw => .inl hw, fun _ h => h, le_rfl⟩
    · have hsame : ∀ (q : Pool) (t i : Option Addr), (queueDel (taskDel q t) i).worker = q.worker ∧
          (queueDel (taskDel q t) i).live = q.live ∧ (queueDel (taskDel q t) i).brk = q.brk := by
        intro q t i
        cases t <;> cases i <;> exact ⟨rfl, rfl, rfl⟩
      obtain ⟨hworker, hlive, hbrk⟩ := hsame {p with worker := remove p.worker w} x.task x.queue
      refine ⟨fun w' hw' => .inl ?_, fun v hv => ?_, hbrk.ge⟩
      · rw [show (dismantle p w x).worker = _ from hworker, remove_list] at hw'
        exact List.mem_of_mem_erase hw'
      · rw [show (dismantle p w x).live = _ from hlive]
        exact hv

theorem workerAdd_grows (p : Pool) (g : Grant) : Grows p (workerAdd p g).2 := by
  have henlist : ∀ w ∈ (p.enlist g.room).worker.list, w ∈ p.worker.list ∨ p.brk ≤ w := by
    intro w hw
    rcases enlist_list p g.room with hlist | hlist
    · rw [hlist] at hw
      exact .inl hw
    · rw [hlist, List.mem_append, List.mem_singleton] at hw
      exact hw.imp_right Eq.ge
  unfold workerAdd
  split_ifs
  · exact ⟨fun _ hw => .inl hw, fun _ h => h, le_rfl⟩
  · cases g.task with
    | refused =>
      have hdel := workerDel_grows (p.enlist g.room) p.brk
      refine ⟨fun w hw => ?_, hdel.live, (Nat.le_succ _).trans hdel.brk⟩
      rcases hdel.listed w hw with hold | hnew
      · exact henlist w hold
      · exact .inr ((Nat.le_succ _).trans hnew)
    | unattached tcb => exact ⟨henlist, fun _ h => h, (Nat.le_succ _).trans (Nat.le_succ _)⟩
    | started => exact ⟨henlist, fun _ h => List.mem_append_left _ h, (Nat.le_succ _).trans (Nat.le_succ _)⟩

theorem addWorkers_grows (p : Pool) (gs : List Grant) : Grows p (addWorkers p gs) := by
  induction gs generalizing p with
  | nil => exact ⟨fun _ hw => .inl hw, fun _ h => h, le_rfl⟩
  | cons g rest ih =>
    have hadd := workerAdd_grows p g
    have hrest := ih (workerAdd p g).2
    refine ⟨fun w hw => ?_, fun _ h => hrest.live (hadd.live h), hadd.brk.trans hrest.brk⟩
    rcases hrest.listed w hw with hold | hnew
    · exact hadd.listed w hold
    · exact .inr (hadd.brk.trans hnew)

/-- The subtask of a worker that the list had no room for runs, and its worker is not in the list. -/
theorem workerAdd_unlisted {p : Pool} (h : Kept p) {g : Grant} (hno : ¬ Listed p g) :
    (p.brk, p.brk + 1) ∈ (workerAdd p g).2.live ∧ p.brk ∉ (workerAdd p g).2.worker.list ∧
    p.brk < (workerAdd p g).2.brk := by
  unfold Listed at hno
  obtain ⟨hrc, hno⟩ := Classical.not_imp.mp hno
  obtain ⟨htask, hroom⟩ := Classical.not_imp.mp hno
  unfold workerAdd at hrc ⊢
  split_ifs at hrc ⊢
  · cases hrc
  · rw [htask]
    refine ⟨List.mem_append_right _ (List.mem_singleton_self _), fun hin => ?_, Nat.lt_succ_of_lt (Nat.lt_succ_self _)⟩
    have hsame : (arrayadd g.room p.worker p.brk).2 = p.worker := by
      rcases arrayadd_cases g.room p.worker p.brk with ⟨hrc', -⟩ | ⟨-, -, hsame⟩
      · exact absurd hrc' hroom
      · exact hsame
    have hin' : p.brk ∈ (arrayadd g.room p.worker p.brk).2.list := hin
    rw [hsame] at hin'
    exact absurd (h.below _ hin') (Nat.lt_irrefl _)

theorem addWorkers_unlisted {p : Pool} (h : Kept p) {gs : List Grant} (hno : ¬ AllListed p gs) :
    ∃ w t, (w, t) ∈ (addWorkers p gs).live ∧ w ∉ (addWorkers p gs).worker.list := by
  induction gs generalizing p with
  | nil => exact absurd trivial hno
  | cons g rest ih =>
    by_cases hg : Listed p g
    · exact ih (workerAdd_kept h hg) (fun hrest => hno ⟨hg, hrest⟩)
    · obtain ⟨hlive, hout, hbrk⟩ := workerAdd_unlisted h hg
      have hgrows := addWorkers_grows (workerAdd p g).2 rest
      refine ⟨p.brk, p.brk + 1, hgrows.live hlive, fun hin => ?_⟩
      rcases hgrows.listed _ hin with hold | hnew
      · exact hout hold
      · exact absurd hbrk (Nat.not_lt.mpr hnew)

/-- A section that calls `cthread_worker_add()` does nothing else that matters. -/
theorem dispatch_adds {p p' : Pool} {c : Choice} {pc pc' : Pc} (h : dispatch p c pc = some (p', pc'))
    (hadds : (adds p c pc).2 ≠ []) : p' = addWorkers (adds p c pc).1 (adds p c pc).2 := by
  cases pc with
  | init =>
    cases h
    rfl
  | create =>
    unfold adds at hadds ⊢
    unfold dispatch at h
    dsimp only at hadds h ⊢
    by_cases hcount : arraycount p.worker < p.maxtask
    · rw [if_pos hcount] at h ⊢
      cases h
      rfl
    · rw [if_neg hcount] at hadds
      exact absurd rfl hadds
  | work timer =>
    unfold adds at hadds ⊢
    unfold dispatch at h
    dsimp only at hadds h ⊢
    by_cases hcount : arraycount p.worker < p.mintask
    · rw [if_pos hcount] at h ⊢
      cases h
      rfl
    · rw [if_neg hcount] at hadds
      exact absurd rfl hadds
  | _ => exact absurd rfl hadds

/-! ### Every run -/

/-- No section of the dispatch thread frees the manager. -/
theorem Effect.freed {p p' : Pool} {c : Choice} {pc : Pc} (h : Effect p c pc p') : p'.freed = p.freed := by
  cases h with
  | init => exact (addWorkers_sameState {p with state := .running} _).freed
  | create hcount => exact (workerAdd_sameState p _).freed
  | work timer hcount => exact (workerAdd_sameState p _).freed
  | check quiesce => exact (checkFrom_sameState p false p.worker.list).freed
  | pass timer count => exact (passWork_sameState p timer c.timers).freed
  | stop w i n timer caller => exact (stop_sameState p w i).freed
  | delete w i n timer caller => exact ((stop_sameState p w i).trans (workerDel_sameState _ w)).freed
  | _ => rfl

/-- What holds as long as every worker that is started is entered in the list. -/
structure Safe (s : System) : Prop where
  kept : Kept s.pool
  freed : s.pool.freed = true → s.pool.live = [] ∧ s.pc.isEnded = true
  joined : s.term = .cleanup → s.pc.isEnded = true

theorem Safe.retained {s : System} (h : Safe s) : Retained s where
  manager := fun hin => by
    by_contra hfreed
    obtain ⟨hlive, hended⟩ := h.freed (Bool.eq_true_of_not_eq_false hfreed)
    rcases hin with hne | hrun
    · exact hne hlive
    · rw [hended] at hrun
      cases hrun
  listed := h.kept.listed
  work := fun w t hwt => by
    obtain ⟨x, hx, -⟩ := h.kept.working w t hwt
    rw [hx]
    exact Option.some_ne_none x
  task := fun w t hwt => by
    rw [h.kept.alive w t hwt]
    exact Option.some_ne_none _

/-- Without a worker that is stuck no subtask runs. -/
theorem Kept.none_stuck {p : Pool} (h : Kept p) (hstuck : stuck p = false) : p.live = [] := by
  refine List.eq_nil_iff_forall_not_mem.mpr (fun ⟨w, t⟩ hwt => ?_)
  obtain ⟨x, hx, -⟩ := h.working w t hwt
  have hrun : (p.works w).any p.running = true := by
    rw [hx]
    exact h.running hwt hx
  rw [stuck, List.any_eq_false] at hstuck
  exact hstuck w (h.listed w t hwt) hrun

theorem term_safe {s : System} (h : Safe s) (hfreed : s.pool.freed = false) :
    Safe {s with pool := (term s.pool s.pc.isEnded s.term).1, term := (term s.pool s.pc.isEnded s.term).2} := by
  have hstate : ∀ state wait quiesced, Kept {s.pool with state := state, wait := wait, quiesced := quiesced} :=
    fun _ _ _ => {h.kept with}
  have hno : ∀ {P : Prop}, s.pool.freed = true → P := fun htrue => absurd (hfreed.symm.trans htrue) Bool.false_ne_true
  unfold term
  cases hterm : s.term with
  | idle => exact ⟨hstate _ _ _, hno, fun hc => Term.noConfusion hc⟩
  | phase1 n =>
    dsimp only
    split_ifs with hlast hended
    · exact ⟨hstate _ _ _, hno, fun hc => Term.noConfusion hc⟩
    · exact ⟨h.kept, hno, fun _ => hended⟩
    · exact ⟨hstate _ _ _, hno, fun hc => Term.noConfusion hc⟩
  | phase2 n =>
    dsimp only
    split_ifs with hlast hended
    · exact ⟨h.kept, hno, fun hc => Term.noConfusion hc⟩
    · exact ⟨h.kept, hno, fun _ => hended⟩
    · exact ⟨hstate _ _ _, hno, fun hc => Term.noConfusion hc⟩
  | cleanup =>
    dsimp only
    split_ifs with hstuck
    · exact ⟨h.kept, hno, fun hc => Term.noConfusion hc⟩
    · exact ⟨{h.kept with}, fun _ => ⟨h.kept.none_stuck (Bool.eq_false_iff.mpr hstuck), h.joined hterm⟩,
        fun hc => Term.noConfusion hc⟩

theorem next_safe {s t : System} {a : Action} (h : Safe s) (hstep : next s a = some t) (hmeets : MeetsListed s a) :
    Safe t := by
  obtain ⟨hfreed, htook⟩ := next_took hstep
  have hno : ∀ {P : Prop}, s.pool.freed = true → P := fun htrue => absurd (hfreed.symm.trans htrue) Bool.false_ne_true
  cases htook with
  | @dispatch c p pc hr =>
    have heffect := dispatch_effect hr
    refine ⟨heffect.keeps h.kept hmeets, fun htrue => hno (heffect.freed.symm.trans htrue), fun hc => ?_⟩
    -- The dispatch thread, which takes a step, has not ended.
    have hended := h.joined hc
    cases hpc : s.pc with
    | ended =>
      rw [hpc] at hr
      cases hr
    | _ =>
      rw [hpc] at hended
      cases hended
  | queueAdd alloc room =>
    exact ⟨h.kept.still (queueAdd_still s.pool alloc room),
      fun htrue => hno ((queueAdd_sameState s.pool alloc room).freed.symm.trans htrue), h.joined⟩
  | workerAdd g =>
    exact ⟨workerAdd_kept h.kept hmeets, fun htrue => hno ((workerAdd_sameState s.pool g).freed.symm.trans htrue),
      h.joined⟩
  | term => exact term_safe h hfreed
  | worker hlive hx hw =>
    have hsame : t.term = s.term ∧ t.pc = s.pc := by
      unfold workerStep at hw
      split at hw
      · obtain ⟨r, -, rfl⟩ := Option.map_eq_some_iff.mp hw
        exact ⟨rfl, rfl⟩
      · cases hw
        exact ⟨rfl, rfl⟩
      · cases hw
        exact ⟨rfl, rfl⟩
    refine ⟨workerStep_kept h.kept hlive hx hw, fun htrue => hno ((workerStep_sameState hw).freed.symm.trans htrue), ?_⟩
    rw [hsame.1, hsame.2]
    exact h.joined

/-- A worker that is started and not entered in the list is unknown to the manager. -/
theorem unlisted_breaks {s t : System} {a : Action} (h : Safe s) (hstep : next s a = some t)
    (hmeets : ¬ MeetsListed s a) :
    ¬ Retained t := by
  intro hretained
  cases (next_took hstep).2 with
  | @dispatch c p pc hr =>
    have hne : (adds s.pool c s.pc).2 ≠ [] := by
      intro hnil
      rw [MeetsListed, hnil] at hmeets
      exact hmeets trivial
    have hkept : Kept (adds s.pool c s.pc).1 := by
      cases s.pc <;> exact {h.kept with}
    obtain ⟨w, u, hwu, hout⟩ := addWorkers_unlisted hkept hmeets
    rw [← dispatch_adds hr hne] at hwu hout
    exact hout (hretained.listed w u hwu)
  | workerAdd g =>
    obtain ⟨hlive, hout, -⟩ := workerAdd_unlisted h.kept hmeets
    exact hout (hretained.listed _ _ hlive)
  | _ => exact absurd trivial hmeets

theorem start_safe (count : Nat) : Safe (start count) :=
  ⟨⟨fun _ _ h => absurd h List.not_mem_nil, fun _ _ h => absurd h List.not_mem_nil,
    fun _ _ h => absurd h List.not_mem_nil,
    List.nodup_nil, fun _ h => absurd h List.not_mem_nil, fun _ _ h => absurd h List.not_mem_nil⟩,
    fun h => absurd h Bool.false_ne_true, fun h => Term.noConfusion h⟩

/-- **No storage is freed under a running subtask, as long as the list has room for its
worker.** In every run of a thread manager, whenever workers end and whatever is granted: every
worker subtask that was started is in the manager's list until it has ended, and until then
none of its worker's storage, its task's and the manager's is freed, exactly when no worker is
started that the list had no room for. -/
theorem storage_retained_iff (count : Nat) (actions : List Action) :
    (∀ s ∈ states next (start count) actions, Retained s) ↔
      ∀ v ∈ visits next (start count) actions, MeetsListed v.1 v.2 :=
  always_iff (fun _ (h : Safe _) => h.retained) (fun _ _ _ h hstep hm => next_safe h hstep hm)
    (fun _ _ _ h hstep hm => unlisted_breaks h hstep hm) (start_safe count) actions

/-- The first worker, with no storage for the list: its subtask runs, and nobody knows. -/
theorem first_worker_unknown :
    ¬ ∀ s ∈ states next (start 1) [.workerAdd ⟨true, false, .started⟩], Retained s := by
  intro h
  have hin := (h _ (final_mem_states _ _)).listed 0 1 List.mem_cons_self
  exact absurd hin (by decide)

end Libc370.Cthread
