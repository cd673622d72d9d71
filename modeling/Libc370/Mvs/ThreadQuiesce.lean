import Libc370.Mvs.Threads

/-! Whether QUIESCE stays.

`cthread_manager_term()` sets the manager's state to QUIESCE, and from then on nothing is to
be added. The dispatch thread sets the state to WAITING and back to RUNNING around each wait,
whatever it was. -/
namespace Libc370.Cthread

open Ext Runs

/-- A function leaves the state alone, and does not free the manager. -/
structure SameState (p p' : Pool) : Prop where
  state : p'.state = p.state
  quiesced : p'.quiesced = p.quiesced
  freed : p'.freed = p.freed

theorem SameState.refl (p : Pool) : SameState p p := ⟨rfl, rfl, rfl⟩

theorem SameState.trans {p p' p'' : Pool} (h : SameState p p') (h' : SameState p' p'') : SameState p p'' :=
  ⟨h'.state.trans h.state, h'.quiesced.trans h.quiesced, h'.freed.trans h.freed⟩

theorem queueDel_sameState (p : Pool) (i : Option Addr) : SameState p (queueDel p i) := by
  cases i <;> exact ⟨rfl, rfl, rfl⟩

theorem taskDel_sameState (p : Pool) (t : Option Addr) : SameState p (taskDel p t) := by
  cases t <;> exact ⟨rfl, rfl, rfl⟩

theorem dismantle_sameState (p : Pool) (w : Addr) (x : Work) : SameState p (dismantle p w x) := by
  have htask := taskDel_sameState {p with worker := remove p.worker w} x.task
  have hqueue := queueDel_sameState (taskDel {p with worker := remove p.worker w} x.task) x.queue
  exact ⟨(htask.trans hqueue).state, (htask.trans hqueue).quiesced, (htask.trans hqueue).freed⟩

theorem workerDel_sameState (p : Pool) (w : Addr) : SameState p (workerDel p w).2 := by
  unfold workerDel
  cases p.works w with
  | none => exact .refl p
  | some x =>
    dsimp only
    split_ifs
    · exact ⟨rfl, rfl, rfl⟩
    · exact dismantle_sameState p w x

theorem workerAdd_sameState (p : Pool) (g : Grant) : SameState p (workerAdd p g).2 := by
  unfold workerAdd
  split_ifs
  · exact .refl p
  · cases g.task with
    | refused => exact (⟨rfl, rfl, rfl⟩ : SameState p (p.enlist g.room)).trans (workerDel_sameState _ p.brk)
    | unattached tcb => exact ⟨rfl, rfl, rfl⟩
    | started => exact ⟨rfl, rfl, rfl⟩

theorem addWorkers_sameState (p : Pool) (gs : List Grant) : SameState p (addWorkers p gs) := by
  induction gs generalizing p with
  | nil => exact .refl p
  | cons g rest ih => exact (workerAdd_sameState p g).trans (ih _)

theorem queueAdd_sameState (p : Pool) (alloc room : Bool) : SameState p (queueAdd p alloc room).2 := by
  unfold queueAdd
  split_ifs <;> exact ⟨rfl, rfl, rfl⟩

theorem stop_sameState (p : Pool) (w : Addr) (i : Nat) : SameState p (stop p w i).2 := by
  unfold stop
  cases p.works w with
  | none => exact .refl p
  | some x =>
    dsimp only
    split
    · split_ifs <;> exact ⟨rfl, rfl, rfl⟩
    · exact ⟨rfl, rfl, rfl⟩

theorem reap_sameState (p : Pool) (w : Addr) (x : Work) (t : Addr) : SameState p (reap p w x t) := by
  have hdel := workerDel_sameState ((p.setTask t none).setWork w (some {x with state := .stopped, task := none})) w
  exact ⟨hdel.state, hdel.quiesced, hdel.freed⟩

theorem checkFrom_sameState (p : Pool) (rc : Bool) (l : List Addr) : SameState p (checkFrom p rc l).2 := by
  induction l generalizing rc with
  | nil => exact .refl p
  | cons w rest ih =>
    rw [checkFrom]
    split
    · exact ih rc
    · next x hx =>
      split
      · next t k htask hk =>
        split_ifs
        · exact reap_sameState p w x t
        · exact ih _
      · exact ih rc

theorem dispatchWork_sameState (p : Pool) (timer : Bool) (w : Addr) : SameState p (dispatchWork p timer w) := by
  unfold dispatchWork
  split
  · exact .refl p
  · split
    · exact .refl p
    · dsimp only
      split_ifs <;> exact ⟨rfl, rfl, rfl⟩

theorem dispatchAll_sameState (timers : Addr → Bool) (p : Pool) (l : List Addr) :
    SameState p (dispatchAll timers p l) := by
  induction l generalizing p with
  | nil => exact .refl p
  | cons w rest ih => exact (dispatchWork_sameState p (timers w) w).trans (ih _)

theorem passWork_sameState (p : Pool) (timer : Bool) (timers : Addr → Bool) :
    SameState p (passWork p timer timers).2 := by
  unfold passWork dispatchRound
  dsimp only
  split_ifs
  · exact .refl p
  · exact .refl p
  all_goals
    have hall := dispatchAll_sameState timers
    exact ⟨(hall _ _).state, (hall _ _).quiesced, (hall _ _).freed⟩

/-- A section that sets the state to RUNNING or WAITING. -/
theorem Effect.restarted {p p' : Pool} {c : Choice} {pc : Pc} (hpc : pc.restarts = true) (h : Effect p c pc p') :
    p'.quiesced = p.quiesced ∧ (p'.state = .running ∨ p'.state = .waiting) := by
  cases h with
  | init =>
    have hsame := addWorkers_sameState {p with state := .running}
        ((List.range (p.mintask - arraycount p.worker)).map c.grants)
    exact ⟨hsame.quiesced, .inl hsame.state⟩
  | wait quiesce => exact ⟨rfl, .inr rfl⟩
  | woken quiesce rc => exact ⟨rfl, .inl rfl⟩
  | same _ hno =>
    rw [hpc] at hno
    cases hno
  | _ => cases hpc

/-- The other sections leave the state alone, or take it on to QUIESCE and STOPPED. -/
theorem Effect.kept {p p' : Pool} {c : Choice} {pc : Pc} (hpc : pc.restarts = false) (h : Effect p c pc p') :
    p'.quiesced = p.quiesced ∧ (p'.state = p.state ∨ p'.state = .quiesce ∨ p'.state = .stopped) := by
  have hsame : SameState p p' → p'.quiesced = p.quiesced ∧
      (p'.state = p.state ∨ p'.state = .quiesce ∨ p'.state = .stopped) :=
    fun hs => ⟨hs.quiesced, .inl hs.state⟩
  cases h with
  | init => cases hpc
  | wait quiesce => cases hpc
  | woken quiesce rc => cases hpc
  | waiting quiesce => exact ⟨rfl, .inl rfl⟩
  | create hcount => exact hsame (workerAdd_sameState p _)
  | work timer hcount => exact hsame (workerAdd_sameState p _)
  | check quiesce => exact hsame (checkFrom_sameState p false p.worker.list)
  | pass timer count => exact hsame (passWork_sameState p timer c.timers)
  | stop w i n timer caller => exact hsame (stop_sameState p w i)
  | delete w i n timer caller => exact hsame ((stop_sameState p w i).trans (workerDel_sameState _ w))
  | term => exact ⟨rfl, .inr (.inl rfl)⟩
  | ended => exact ⟨rfl, .inr (.inr rfl)⟩
  | same _ _ => exact hsame (.refl p)

theorem waitStep_sameState {p p' : Pool} {holds : Bool} {w : Addr} {x : Work} {pl pl' : Place}
    (h : waitStep p holds w x pl = some (p', pl')) : SameState p p' := by
  unfold waitStep at h
  cases pl with
  | outside =>
    cases hq : x.queue with
    | none =>
      rw [hq] at h
      cases h
      exact .refl p
    | some i =>
      rw [hq] at h
      dsimp only at h
      split_ifs at h
      cases h
      exact ⟨rfl, rfl, rfl⟩
  | released =>
    cases h
    exact ⟨rfl, rfl, rfl⟩
  | waiting =>
    obtain ⟨rc, -, heq⟩ := Option.map_eq_some_iff.mp h
    cases heq
    exact ⟨rfl, rfl, rfl⟩
  | woken rc =>
    cases h
    exact ⟨rfl, rfl, rfl⟩

theorem workerStep_sameState {s s' : System} {w t : Addr} {x : Work} {m : Move} (h : workerStep s w t x m = some s') :
    SameState s.pool s'.pool := by
  unfold workerStep at h
  cases m with
  | wait =>
    obtain ⟨r, hr, rfl⟩ := Option.map_eq_some_iff.mp h
    exact waitStep_sameState hr
  | options timer nowork =>
    cases h
    exact ⟨rfl, rfl, rfl⟩
  | finish =>
    cases h
    exact ⟨rfl, rfl, rfl⟩

/-! ### Every run -/

/-- Once QUIESCE is set, the state is not below it, and nothing is added. -/
def Stays (s : System) : Prop :=
  s.pool.quiesced = true → MgrState.quiesce.value ≤ s.pool.state.value ∧
    (∀ alloc room, (queueAdd s.pool alloc room).1 ≠ 0) ∧ ∀ g, (workerAdd s.pool g).1 ≠ 0

/-- A step meets the condition: once QUIESCE is set, the dispatch thread neither begins nor
ends a wait, nor starts. -/
def MeetsQuiesce (s : System) : Action → Prop
  | .dispatch _ => s.pc.restarts = true → s.pool.quiesced = false
  | _ => True

/-- Once QUIESCE is set, the state is QUIESCE or STOPPED. -/
def Quiesced (p : Pool) : Prop := p.quiesced = true → p.state = .quiesce ∨ p.state = .stopped

theorem Quiesced.same {p p' : Pool} (h : Quiesced p) (hs : SameState p p') : Quiesced p' := by
  rw [Quiesced, hs.quiesced, hs.state]
  exact h

theorem Quiesced.stays {s : System} (h : Quiesced s.pool) : Stays s := by
  intro hq
  have hrefused := h hq
  refine ⟨?_, fun alloc room => ?_, fun g => ?_⟩
  · rcases hrefused with hs | hs
    · rw [hs]
    · rw [hs]
      decide
  · rw [queueAdd, if_pos (by tauto)]
    exact (by decide : (-1 : Int) ≠ 0)
  · rw [workerAdd, if_pos (by tauto)]
    exact (by decide : (-1 : Int) ≠ 0)

theorem askQuiesce_quiesced {p : Pool} (h : Quiesced p) : Quiesced (askQuiesce p) := by
  intro hq
  by_cases hbelow : p.state.value < MgrState.quiesce.value
  · exact .inl (if_pos (decide_eq_true hbelow))
  · have hold : p.quiesced = true := by simpa [askQuiesce, hbelow] using hq
    have hsame : (askQuiesce p).state = p.state := if_neg (by simpa using hbelow)
    rw [hsame]
    exact h hold

theorem term_quiesced {p : Pool} (h : Quiesced p) (ended : Bool) (t : Term) : Quiesced (term p ended t).1 := by
  cases t with
  | idle => exact askQuiesce_quiesced h
  | phase1 n =>
    unfold term
    dsimp only
    split_ifs
    · exact h
    · exact h
    · exact askQuiesce_quiesced h
  | phase2 n =>
    unfold term
    dsimp only
    split_ifs <;> exact h
  | cleanup =>
    unfold term
    dsimp only
    split_ifs <;> exact h

theorem next_quiesced {s t : System} {a : Action} (h : Quiesced s.pool) (hstep : next s a = some t)
    (hmeets : MeetsQuiesce s a) :
    Quiesced t.pool := by
  cases (next_took hstep).2 with
  | @dispatch c p' pc' hr =>
    have heffect := dispatch_effect hr
    intro hq'
    cases hpc : s.pc.restarts with
    | true =>
      have hq := (heffect.restarted hpc).1
      rw [show p'.quiesced = true from hq', hmeets hpc] at hq
      cases hq
    | false =>
      obtain ⟨hq, hsame | hnew⟩ := heffect.kept hpc
      · have hold := h (hq.symm.trans hq')
        rw [← hsame] at hold
        exact hold
      · exact hnew
  | queueAdd alloc room => exact h.same (queueAdd_sameState s.pool alloc room)
  | workerAdd g => exact h.same (workerAdd_sameState s.pool g)
  | term => exact term_quiesced h _ s.term
  | worker hlive hx hw => exact h.same (workerStep_sameState hw)

/-- A section that sets the state to RUNNING or WAITING breaks what QUIESCE is for. -/
theorem restart_breaks {s t : System} {a : Action} (hstep : next s a = some t) (hmeets : ¬ MeetsQuiesce s a) :
    ¬ Stays t := by
  intro hstays
  cases (next_took hstep).2 with
  | @dispatch c p' pc' hr =>
    obtain ⟨hpc, hq⟩ : s.pc.restarts = true ∧ s.pool.quiesced = true := by
      simpa [MeetsQuiesce] using hmeets
    obtain ⟨hq', hstate⟩ := (dispatch_effect hr).restarted hpc
    obtain ⟨hvalue, hadd, -⟩ := hstays (hq'.trans hq)
    dsimp only at hvalue hadd
    rcases hstate with hrunning | hwaiting
    · rw [hrunning] at hvalue
      exact absurd hvalue (by decide)
    · refine hadd true true ?_
      rw [queueAdd, hwaiting, if_neg (by simp)]
  | _ => exact hmeets trivial

/-- **QUIESCE stays exactly when the dispatch thread waits no more.** In every run of a thread
manager: once `cthread_manager_term()` has set the state to QUIESCE it never goes below that
again, and no item and no worker is added any more, exactly when from then on the dispatch
thread runs none of the sections that set the state to WAITING or RUNNING. -/
theorem quiesce_stays_iff (count : Nat) (actions : List Action) :
    (∀ s ∈ states next (start count) actions, Stays s) ↔
      ∀ v ∈ visits next (start count) actions, MeetsQuiesce v.1 v.2 := by
  have hgood : ∀ s : System, Quiesced s.pool → Stays s := fun _ h => h.stays
  have hstart : Quiesced (start count).pool := fun hq => absurd hq Bool.false_ne_true
  exact always_iff hgood (fun _ _ _ h hstep hm => next_quiesced h hstep hm)
    (fun _ _ _ _ hstep hm => restart_breaks hstep hm) hstart actions

/-- Nothing is granted, and nothing times out. -/
def refusals : Choice := ⟨fun _ => ⟨false, false, .refused⟩, fun _ => false, false⟩

/-- `cthread_manager_term()` is called before the dispatch thread begins its first wait: the
wait sets the state to WAITING, and items are taken again. -/
theorem first_wait_breaks :
    ¬ ∀ s ∈ states next (start 1) [.dispatch refusals, .term, .dispatch refusals], Stays s := by
  intro h
  have hlast := h _ (final_mem_states _ _) rfl
  exact hlast.2.1 true true rfl

end Libc370.Cthread
