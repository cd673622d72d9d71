import Libc370.Mvs.Threads

/-! No item is lost, doubled or given twice.

An item that `cthread_queue_add()` took is in the queue, or was handed to a worker. The
queue and what was handed have every item once between them (`Items`); the sections move
an item from the one to the other and touch nothing else (`Quiet`). An item for which the
array had no room is in neither, and the caller is told that it is queued. -/
namespace Libc370.Cthread

open Ext Runs

/-- The items that were handed to workers, in order. -/
def Pool.given (p : Pool) : List Addr := p.handed.map Prod.fst

/-- An item is in the queue exactly once and was handed to nobody, or it is not there and was
handed to exactly one worker. -/
def Pool.Holds (p : Pool) (i : Addr) : Prop :=
  (p.queue.list.count i = 1 ∧ p.given.count i = 0) ∨ (p.queue.list.count i = 0 ∧ p.given.count i = 1)

/-- Before the manager is terminated, every item that was taken is held. -/
def Accounted (s : System) : Prop := s.pool.freed = false → ∀ i ∈ s.pool.accepted, s.pool.Holds i

/-- A step meets the condition: an item is taken only if there is room for it in the array. -/
def MeetsRoom (s : System) : Action → Prop
  | .queueAdd alloc room => (queueAdd s.pool alloc room).1 = 0 → (arrayadd room s.pool.queue s.pool.brk).1 = 0
  | _ => True

/-- The items in the queue and those handed are all different, and all those taken are among
them. -/
structure Items (p : Pool) : Prop where
  once : (p.queue.list ++ p.given).Nodup
  known : ∀ i ∈ p.queue.list ++ p.given, i < p.brk
  slots : ∀ w x i, p.works w = some x → x.queue = some i → i ∈ p.given
  taken : ∀ i ∈ p.accepted, i ∈ p.queue.list ++ p.given

/-- A function leaves the items where they are. -/
structure Quiet (p p' : Pool) : Prop where
  queue : p'.queue.list = p.queue.list
  handed : p'.handed = p.handed
  accepted : p'.accepted = p.accepted
  brk : p.brk ≤ p'.brk
  slots : ∀ w x' i, p'.works w = some x' → x'.queue = some i → ∃ x, p.works w = some x ∧ x.queue = some i

theorem Quiet.refl (p : Pool) : Quiet p p := ⟨rfl, rfl, rfl, le_rfl, fun _ x _ hx hi => ⟨x, hx, hi⟩⟩

theorem Quiet.trans {p p' p'' : Pool} (h : Quiet p p') (h' : Quiet p' p'') : Quiet p p'' where
  queue := h'.queue.trans h.queue
  handed := h'.handed.trans h.handed
  accepted := h'.accepted.trans h.accepted
  brk := h.brk.trans h'.brk
  slots := fun w x i hx hi => by
    obtain ⟨x', hx', hi'⟩ := h'.slots w x i hx hi
    exact h.slots w x' i hx' hi'

theorem Items.quiet {p p' : Pool} (h : Items p) (hq : Quiet p p') : Items p' := by
  have hgiven : p'.given = p.given := congrArg (List.map Prod.fst) hq.handed
  refine ⟨?_, fun i hi => ?_, fun w x i hx hi => ?_, fun i hi => ?_⟩
  · rw [hq.queue, hgiven]
    exact h.once
  · rw [hq.queue, hgiven] at hi
    exact (h.known i hi).trans_le hq.brk
  · obtain ⟨x', hx', hi'⟩ := hq.slots w x i hx hi
    rw [hgiven]
    exact h.slots w x' i hx' hi'
  · rw [hq.accepted] at hi
    rw [hq.queue, hgiven]
    exact h.taken i hi

theorem Items.holds {p : Pool} (h : Items p) {i : Addr} (hi : i ∈ p.accepted) : p.Holds i := by
  obtain ⟨hqueue, hgiven, hapart⟩ := List.nodup_append'.mp h.once
  rcases List.mem_append.mp (h.taken i hi) with hin | hin
  · exact .inl ⟨List.count_eq_one_of_mem hqueue hin, List.count_eq_zero.mpr (fun hg => hapart hin hg)⟩
  · exact .inr ⟨List.count_eq_zero.mpr (fun hq => hapart hq hin), List.count_eq_one_of_mem hgiven hin⟩

/-- An item that a worker has is not in the queue any more. -/
theorem Items.out {p : Pool} (h : Items p) {w : Addr} {x : Work} {i : Addr} (hx : p.works w = some x)
    (hi : x.queue = some i) :
    i ∉ p.queue.list :=
  fun hin => (List.nodup_append'.mp h.once).2.2 hin (h.slots w x i hx hi)

/-! ### The sections that leave the items where they are -/

theorem setWork_quiet {p : Pool} {w : Addr} {x : Work} (hx : p.works w = some x) {x' : Work}
    (hqueue : x'.queue = x.queue ∨ x'.queue = none) : Quiet p (p.setWork w (some x')) := by
  refine ⟨rfl, rfl, rfl, le_rfl, fun w' y i hy hi => ?_⟩
  by_cases heq : w' = w
  · subst heq
    rw [Pool.setWork_self] at hy
    obtain rfl := Option.some.inj hy
    rcases hqueue with hsame | hnone
    · exact ⟨x, hx, hsame.symm.trans hi⟩
    · rw [hnone] at hi
      cases hi
  · exact ⟨y, (p.setWork_of_ne heq _).symm.trans hy, hi⟩

theorem queueDel_none {p : Pool} {i : Option Addr} (h : ∀ a, i = some a → a ∉ p.queue.list) : queueDel p i = p := by
  cases i with
  | none => rfl
  | some a => rw [queueDel, remove, if_neg (h a rfl)]

theorem taskDel_quiet (p : Pool) (t : Option Addr) : Quiet p (taskDel p t) := by
  cases t with
  | none => exact .refl p
  | some t => exact ⟨rfl, rfl, rfl, le_rfl, fun _ x _ hx hi => ⟨x, hx, hi⟩⟩

theorem dismantle_quiet {p : Pool} (h : Items p) {w : Addr} {x : Work} (hx : p.works w = some x) :
    Quiet p (dismantle p w x) := by
  have hworker : Quiet p {p with worker := remove p.worker w} :=
    ⟨rfl, rfl, rfl, le_rfl, fun _ x _ hx hi => ⟨x, hx, hi⟩⟩
  have hdel := hworker.trans (taskDel_quiet {p with worker := remove p.worker w} x.task)
  unfold dismantle
  rw [queueDel_none (fun i hi => by
    rw [hdel.queue]
    exact h.out hx hi)]
  refine ⟨hdel.queue, hdel.handed, hdel.accepted, hdel.brk, fun w' y i hy hi => ?_⟩
  by_cases heq : w' = w
  · subst heq
    rw [Pool.setWork_self] at hy
    cases hy
  · exact hdel.slots w' y i ((Pool.setWork_of_ne _ heq _).symm.trans hy) hi

theorem workerDel_quiet {p : Pool} (h : Items p) (w : Addr) : Quiet p (workerDel p w).2 := by
  unfold workerDel
  cases hx : p.works w with
  | none => exact .refl p
  | some x =>
    dsimp only
    split_ifs
    · exact setWork_quiet hx (.inl rfl)
    · exact dismantle_quiet h hx

theorem enlist_quiet (p : Pool) (room : Bool) : Quiet p (p.enlist room) := by
  refine ⟨rfl, rfl, rfl, Nat.le_succ _, fun w x i hx hi => ?_⟩
  by_cases heq : w = p.brk
  · subst heq
    rw [Pool.enlist_self] at hx
    obtain rfl := Option.some.inj hx
    cases hi
  · exact ⟨x, (p.enlist_of_ne room heq).symm.trans hx, hi⟩

theorem hire_quiet (p : Pool) (w : Addr) (tcb : Bool) : Quiet p (p.hire w tcb) := by
  refine ⟨rfl, rfl, rfl, Nat.le_succ _, fun w' x i hx hi => ?_⟩
  by_cases heq : w' = w
  · subst heq
    rw [Pool.hire_self] at hx
    obtain ⟨y, hy, rfl⟩ := Option.map_eq_some_iff.mp hx
    exact ⟨y, hy, hi⟩
  · exact ⟨x, (p.hire_of_ne heq tcb).symm.trans hx, hi⟩

theorem workerAdd_quiet {p : Pool} (h : Items p) (g : Grant) : Quiet p (workerAdd p g).2 := by
  have henlist := enlist_quiet p g.room
  unfold workerAdd
  split_ifs
  · exact .refl p
  · cases g.task with
    | refused => exact henlist.trans (workerDel_quiet (h.quiet henlist) p.brk)
    | unattached tcb => exact henlist.trans (hire_quiet _ p.brk tcb)
    | started =>
      have hhire := henlist.trans (hire_quiet (p.enlist g.room) p.brk true)
      exact ⟨hhire.queue, hhire.handed, hhire.accepted, hhire.brk, hhire.slots⟩

theorem addWorkers_quiet {p : Pool} (h : Items p) (gs : List Grant) : Quiet p (addWorkers p gs) := by
  induction gs generalizing p with
  | nil => exact .refl p
  | cons g rest ih =>
    have hadd := workerAdd_quiet h g
    exact hadd.trans (ih (h.quiet hadd))

theorem stop_quiet (p : Pool) (w : Addr) (i : Nat) : Quiet p (stop p w i).2 := by
  unfold stop
  cases hx : p.works w with
  | none => exact .refl p
  | some x =>
    dsimp only
    split
    · split_ifs
      · exact setWork_quiet hx (.inl rfl)
      · exact ⟨rfl, rfl, rfl, le_rfl, fun _ y _ hy hi => ⟨y, hy, hi⟩⟩
      · exact setWork_quiet hx (.inl rfl)
      · exact setWork_quiet hx (.inl rfl)
    · exact setWork_quiet hx (.inl rfl)

theorem reap_quiet {p : Pool} (h : Items p) {w : Addr} {x : Work} (hx : p.works w = some x) (t : Addr) :
    Quiet p (reap p w x t) := by
  have htask : Quiet p (p.setTask t none) := ⟨rfl, rfl, rfl, le_rfl, fun _ y _ hy hi => ⟨y, hy, hi⟩⟩
  have hset : Quiet (p.setTask t none) ((p.setTask t none).setWork w (some {x with state := .stopped, task := none})) :=
    setWork_quiet (p := p.setTask t none) hx (.inl rfl)
  have hwork := htask.trans hset
  exact hwork.trans (workerDel_quiet (h.quiet hwork) w)

theorem checkFrom_quiet {p : Pool} (h : Items p) (rc : Bool) (l : List Addr) : Quiet p (checkFrom p rc l).2 := by
  induction l generalizing rc with
  | nil => exact .refl p
  | cons w rest ih =>
    rw [checkFrom]
    split
    · exact ih rc
    · next x hx =>
      split
      · next t k htask hk =>
        split_ifs
        · exact reap_quiet h hx t
        · exact ih _
      · exact ih rc

theorem finish_quiet (p : Pool) (w t : Addr) : Quiet p (finish p w t) :=
  ⟨rfl, rfl, rfl, le_rfl, fun _ x _ hx hi => ⟨x, hx, hi⟩⟩

theorem waitStep_quiet {p p' : Pool} (h : Items p) {holds : Bool} {w : Addr} {x : Work} (hx : p.works w = some x)
    {pl pl' : Place} (hstep : waitStep p holds w x pl = some (p', pl')) : Quiet p p' := by
  unfold waitStep at hstep
  cases pl with
  | outside =>
    cases hq : x.queue with
    | none =>
      rw [hq] at hstep
      cases hstep
      exact .refl p
    | some i =>
      rw [hq] at hstep
      dsimp only at hstep
      split_ifs at hstep
      cases hstep
      rw [queueDel_none (fun a ha => by
        obtain rfl := Option.some.inj ha
        exact h.out hx hq)]
      exact setWork_quiet hx (.inr rfl)
  | released =>
    cases hstep
    have hset : Quiet p (p.setWork w (some {x with state := .waiting})) := setWork_quiet hx (.inl rfl)
    exact ⟨hset.queue, hset.handed, hset.accepted, hset.brk, hset.slots⟩
  | waiting =>
    obtain ⟨rc, -, heq⟩ := Option.map_eq_some_iff.mp hstep
    cases heq
    exact setWork_quiet hx (.inl rfl)
  | woken rc =>
    cases hstep
    exact setWork_quiet hx (.inl rfl)

theorem workerStep_quiet {s s' : System} (h : Items s.pool) {w t : Addr} {x : Work} (hx : s.pool.works w = some x)
    {m : Move}
    (hstep : workerStep s w t x m = some s') : Quiet s.pool s'.pool := by
  unfold workerStep at hstep
  cases m with
  | wait =>
    obtain ⟨r, hr, rfl⟩ := Option.map_eq_some_iff.mp hstep
    exact waitStep_quiet h hx hr
  | options timer nowork =>
    cases hstep
    exact setWork_quiet hx (.inl rfl)
  | finish =>
    cases hstep
    exact finish_quiet s.pool w t

theorem term_quiet (p : Pool) (ended : Bool) (t : Term) : Quiet p (term p ended t).1 := by
  have hpool : ∀ p' : Pool, p'.queue = p.queue → p'.handed = p.handed → p'.accepted = p.accepted → p'.brk = p.brk →
      p'.works = p.works → Quiet p p' := fun p' hq hh ha hb hw =>
    ⟨congrArg _ hq, hh, ha, hb.ge, fun w x i hx hi => ⟨x, (congrFun hw w).symm.trans hx, hi⟩⟩
  unfold term
  cases t with
  | idle => exact hpool _ rfl rfl rfl rfl rfl
  | phase1 n =>
    dsimp only
    split_ifs <;> exact hpool _ rfl rfl rfl rfl rfl
  | phase2 n =>
    dsimp only
    split_ifs <;> exact hpool _ rfl rfl rfl rfl rfl
  | cleanup =>
    dsimp only
    split_ifs <;> exact hpool _ rfl rfl rfl rfl rfl

/-! ### The sections that move an item -/

/-- The first item is taken out of the queue and handed to a worker. -/
theorem Items.hand {p p' : Pool} (h : Items p) {i w : Addr} {rest : List Addr} (hlist : p.queue.list = i :: rest)
    (hqueue : p'.queue.list = rest) (hhanded : p'.handed = p.handed ++ [(i, w)]) (haccepted : p'.accepted = p.accepted)
    (hbrk : p'.brk = p.brk)
    (hslots : ∀ w' x j, p'.works w' = some x → x.queue = some j → j = i ∨ ∃ y, p.works w' = some y ∧ y.queue = some j) :
    Items p' := by
  have hgiven : p'.given = p.given ++ [i] := by
    rw [Pool.given, hhanded, List.map_append]
    rfl
  have hperm : (p.queue.list ++ p.given).Perm (p'.queue.list ++ p'.given) := by
    rw [hlist, hqueue, hgiven, ← List.append_assoc]
    exact (List.perm_append_singleton i (rest ++ p.given)).symm
  refine ⟨hperm.nodup_iff.mp h.once, fun j hj => ?_, fun w' x j hx hj => ?_, fun j hj => ?_⟩
  · rw [hbrk]
    exact h.known j (hperm.mem_iff.mpr hj)
  · rw [hgiven, List.mem_append, List.mem_singleton]
    rcases hslots w' x j hx hj with heq | ⟨y, hy, hyj⟩
    · exact .inr heq
    · exact .inl (h.slots w' y j hy hyj)
  · rw [haccepted] at hj
    exact hperm.mem_iff.mp (h.taken j hj)

theorem dispatchWork_items {p : Pool} (h : Items p) (timer : Bool) (w : Addr) : Items (dispatchWork p timer w) := by
  unfold dispatchWork
  split
  · exact h
  · next x hx =>
    split
    · exact h
    · dsimp only
      split_ifs with hbusy hno hrequest htimer
      · exact h
      · exact h
      · have hcount : p.queue.list ≠ [] := by
          intro hnil
          simp [arraycount, hnil] at hrequest
        obtain ⟨i, rest, hlist⟩ := List.exists_cons_of_ne_nil hcount
        obtain ⟨hitem, hrest⟩ := arraydel_list p.queue Nat.one_pos
        rw [hlist] at hitem hrest
        refine h.hand (w := w) hlist hrest ?_ rfl rfl (fun w' y j hy hj => ?_)
        · show p.handed ++ _ = _
          rw [hitem]
          rfl
        · by_cases heq : w' = w
          · subst heq
            have hself := (Function.update_self _ _ p.works).symm.trans hy
            obtain rfl := Option.some.inj hself
            exact .inl (Option.some.inj (hj.symm.trans hitem))
          · exact .inr ⟨y, (Function.update_of_ne heq _ _).symm.trans hy, hj⟩
      · exact h.quiet (setWork_quiet hx (.inr rfl))
      · exact h

theorem passWork_items {p : Pool} (h : Items p) (timer : Bool) (timers : Addr → Bool) :
    Items (passWork p timer timers).2 := by
  have hall : ∀ (l : List Addr) (p : Pool), Items p → Items (dispatchAll timers p l) := by
    intro l
    induction l with
    | nil => exact fun _ h => h
    | cons w rest ih => exact fun p h => ih _ (dispatchWork_items h (timers w) w)
  have hstart : ∀ start, Items {p with start := start} := fun _ => ⟨h.once, h.known, h.slots, h.taken⟩
  unfold passWork dispatchRound
  dsimp only
  split_ifs
  · exact h
  · exact h
  · exact hall _ _ (hstart _)
  · exact hall _ _ (hstart _)

theorem Effect.items {p p' : Pool} {c : Choice} {pc : Pc} (h : Items p) (he : Effect p c pc p') : Items p' := by
  have hstate : ∀ state wait, Items {p with state := state, wait := wait} :=
      fun _ _ => ⟨h.once, h.known, h.slots, h.taken⟩
  cases he with
  | init =>
    have hrunning := hstate .running p.wait
    exact hrunning.quiet (addWorkers_quiet hrunning _)
  | wait quiesce => exact hstate _ _
  | waiting quiesce => exact hstate _ _
  | woken quiesce rc => exact hstate _ _
  | create hcount => exact h.quiet (workerAdd_quiet h _)
  | work timer hcount => exact h.quiet (workerAdd_quiet h _)
  | check quiesce => exact h.quiet (checkFrom_quiet h false p.worker.list)
  | pass timer count => exact passWork_items h timer c.timers
  | stop w i n timer caller => exact h.quiet (stop_quiet p w i)
  | delete w i n timer caller =>
    have hstop := h.quiet (stop_quiet p w i)
    exact hstop.quiet (workerDel_quiet hstop w)
  | term => exact hstate _ _
  | ended => exact hstate _ _
  | same _ _ => exact h

/-- An item is taken, and there is room for it. -/
theorem queueAdd_items {p : Pool} (h : Items p) {alloc room : Bool}
    (hroom : (queueAdd p alloc room).1 = 0 → (arrayadd room p.queue p.brk).1 = 0) :
    Items (queueAdd p alloc room).2 := by
  unfold queueAdd at hroom ⊢
  split_ifs at hroom ⊢ with hrefused
  · exact h
  · have hlist : (arrayadd room p.queue p.brk).2.list = p.queue.list ++ [p.brk] := by
      rcases arrayadd_cases room p.queue p.brk with ⟨-, hlist⟩ | ⟨-, hrc, -⟩
      · exact hlist
      · rw [hroom rfl] at hrc
        cases hrc
    have hperm : ((arrayadd room p.queue p.brk).2.list ++ p.given).Perm (p.brk :: (p.queue.list ++ p.given)) := by
      rw [hlist, List.append_assoc]
      exact List.perm_middle
    refine ⟨hperm.nodup_iff.mpr (List.nodup_cons.mpr ⟨fun hin => ?_, h.once⟩), fun i hi => ?_, h.slots, fun i hi => ?_⟩
    · exact absurd (h.known _ hin) (Nat.lt_irrefl _)
    · rcases List.mem_cons.mp (hperm.mem_iff.mp hi) with rfl | hold
      · exact Nat.lt_succ_self _
      · exact Nat.lt_succ_of_lt (h.known i hold)
    · refine hperm.mem_iff.mpr ?_
      rcases List.mem_append.mp hi with hold | hnew
      · exact List.mem_cons_of_mem _ (h.taken i hold)
      · rw [List.mem_singleton.mp hnew]
        exact List.mem_cons_self

/-! ### Every run -/

theorem next_items {s t : System} {a : Action} (h : Items s.pool) (hstep : next s a = some t) (hmeets : MeetsRoom s a) :
    Items t.pool := by
  cases (next_took hstep).2 with
  | dispatch hr => exact (dispatch_effect hr).items h
  | queueAdd alloc room => exact queueAdd_items h hmeets
  | workerAdd g => exact h.quiet (workerAdd_quiet h g)
  | term => exact h.quiet (term_quiet s.pool _ s.term)
  | worker hlive hx hw => exact h.quiet (workerStep_quiet h hx hw)

/-- An item that is taken without room for it is nowhere. -/
theorem taken_without_room {s t : System} {a : Action} (h : Items s.pool) (hstep : next s a = some t)
    (hmeets : ¬ MeetsRoom s a) : ¬ Accounted t := by
  obtain ⟨hfreed, htook⟩ := next_took hstep
  cases htook with
  | queueAdd alloc room =>
    obtain ⟨hrc, hroom⟩ := Classical.not_imp.mp hmeets
    intro hall
    have hout : s.pool.brk ∉ s.pool.queue.list ++ s.pool.given := fun hin => absurd (h.known _ hin) (Nat.lt_irrefl _)
    rw [List.mem_append, not_or] at hout
    unfold queueAdd at hrc hall
    split_ifs at hrc hall with hrefused
    · cases hrc
    · have hsame : (arrayadd room s.pool.queue s.pool.brk).2 = s.pool.queue := by
        rcases arrayadd_cases room s.pool.queue s.pool.brk with ⟨hrc', -⟩ | ⟨-, -, hsame⟩
        · exact absurd hrc' hroom
        · exact hsame
      have hcount := hall hfreed s.pool.brk (List.mem_append_right _ (List.mem_singleton_self _))
      unfold Pool.Holds at hcount
      dsimp only at hcount
      rw [hsame, List.count_eq_zero.mpr hout.1] at hcount
      have hgiven : s.pool.given.count s.pool.brk = 0 := List.count_eq_zero.mpr hout.2
      rcases hcount with ⟨hone, -⟩ | ⟨-, hone⟩
      · cases hone
      · exact absurd (hgiven.symm.trans hone) (by decide)
  | _ => exact absurd trivial hmeets

theorem start_items (count : Nat) : Items (start count).pool :=
  ⟨List.nodup_nil, fun _ hi => absurd hi List.not_mem_nil, fun _ _ _ hx => absurd hx (Option.some_ne_none _).symm,
    fun _ hi => absurd hi List.not_mem_nil⟩

/-- **No item is lost, doubled or given twice, as long as there is room for it.** In every
interleaving: at every moment before the manager is terminated, every item for which
`cthread_queue_add()` returned 0 is in the queue exactly once, or was handed to exactly one
worker, exactly when no call returned 0 for an item the array had no room for. -/
theorem items_accounted_iff (count : Nat) (actions : List Action) :
    (∀ s ∈ states next (start count) actions, Accounted s) ↔
      ∀ v ∈ visits next (start count) actions, MeetsRoom v.1 v.2 := by
  have hgood : ∀ s : System, Items s.pool → Accounted s := fun _ h _ _ hi => h.holds hi
  exact always_iff hgood (fun _ _ _ h hstep hm => next_items h hstep hm)
    (fun _ _ _ h hstep hm => taken_without_room h hstep hm) (start_items count) actions

/-- The first item, with no storage for the array: the call returns 0, and the item is lost. -/
theorem first_item_lost : ¬ ∀ s ∈ states next (start 1) [.queueAdd true false], Accounted s := by
  intro h
  have hholds := h _ (final_mem_states _ _) rfl 0 List.mem_cons_self
  rcases hholds with ⟨hin, -⟩ | ⟨-, hgiven⟩
  · exact absurd hin (by decide)
  · exact absurd hgiven (by decide)

end Libc370.Cthread
