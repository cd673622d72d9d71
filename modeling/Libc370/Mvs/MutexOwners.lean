import Libc370.Mvs.Mutex

/-! What the mutexes are for, in every interleaving.

The four places a mutex is kept in agree: at each statement of a call, `Holding` says what
owner, count and number of locks are for the task that has the ENQ. A step changes one
mutex and one task only (`State.put`), so an invariant of every pair of a task and a mutex
(`Fits`) has to be checked for that pair only (`Inv.put`).

The list of a task matters at its end only. `arrayadd()` may fail to enter a mutex, and
`mtxlock()` and `mtxtry()` do not look: a task that ends with such a mutex leaves it locked
for ever. That, and a count that wraps, is all a run must avoid (`Meets`). -/
namespace Libc370.Mtx

open Ext

/-- Where the task is in a call on the mutex, if it is in one. -/
def Place.stageOf (p : Place) (m : Mutex) : Option Stage :=
  match p with
  | .within m' stage => if m' = m then some stage else none
  | _ => none

/-- A task that has the ENQ: what owner, count and number of locks are at each statement. -/
def Holding (t : Task) (owner : Option Task) (count locks : Nat) : Option Stage → Prop
  | none | some (.setOwner false) | some (.addCount false) | some (.testOwner _) | some .subCount | some
      (.clearOwner .cleanup) =>
    owner = some t ∧ 0 < count ∧ count = locks
  | some (.setOwner true) => owner = none ∧ count = 0 ∧ locks = 0
  | some (.addCount true) => owner = some t ∧ count = 0 ∧ locks = 0
  | some .addList => owner = some t ∧ count = 1 ∧ locks = 0
  | some .testCount => owner = some t ∧ count + 1 = locks
  | some .delList | some (.clearOwner .mtxunlk) => owner = some t ∧ count = 0 ∧ locks = 1
  | some .clearCount => owner = none
  | some (.unlockRes .mtxunlk) => owner = none ∧ count = 0 ∧ locks = 1
  | some (.unlockRes .cleanup) => owner = none ∧ count = 0

/-- The statements of a task that has the ENQ. -/
def Stage.holds : Stage → Bool
  | .testOwner _ => false
  | _ => true

/-- The statements of the cleanup at the end of a task. -/
def Place.cleans : Place → Bool
  | .within _ (.testOwner .cleanup) | .within _ (.clearOwner .cleanup) | .within _ .clearCount
  | .within _ (.unlockRes .cleanup) | .ending => true
  | _ => false

/-- What holds of a task and a mutex: of the ENQ, the mutex, the task's locks of it, and the
task's place and list. -/
structure Fits (t : Task) (m : Mutex) (e : Option Task) (x : Clibmutx) (n : Nat) (p : Place) (l : VArray Mutex) :
    Prop where
  holding : e = some t → Holding t x.owner x.count n (p.stageOf m)
  free : e = none → x.owner = none ∧ x.count = 0
  holds : ∀ stage, p.stageOf m = some stage → stage.holds = true → e = some t
  apart : e ≠ some t → n = 0
  cleans : p.cleans = true → e = some t → m ∈ l.list ∨ p.stageOf m ≠ none
  ended : p = .ended → e ≠ some t

def Inv (s : State) : Prop :=
  ∀ t m, Fits t m (s.enq m) (s.mutex m) (s.locks t m) (s.place t) (s.crtmutx t)

/-- The statement the task stands at does not count a mutex past the last `unsigned`. -/
def State.counts (s : State) (t : Task) : Bool :=
  match s.place t with
  | .within m (.addCount _) => (s.mutex m).count + 1 < 2 ^ 32
  | _ => true

/-- A step meets the condition: a task that ends has its mutexes in its list, and no mutex is
locked 2^32 times. -/
def Meets (s : State) : Task × Move → Prop
  | (t, .finish) => ∀ m, s.enq m = some t → m ∈ (s.crtmutx t).list
  | (t, .go _) => s.counts t = true
  | _ => True

/-- The state after a step of `t` on `m`. -/
def State.put (s : State) (t : Task) (m : Mutex) (e : Option Task) (x : Clibmutx) (n : Nat) (p : Place)
    (l : VArray Mutex) :
    State where
  enq := Function.update s.enq m e
  mutex := Function.update s.mutex m x
  crtmutx := Function.update s.crtmutx t l
  place := Function.update s.place t p
  locks := Function.update s.locks t (Function.update (s.locks t) m n)

/-- The invariant after a step, from what it makes of the task and the mutex it is about. -/
theorem Inv.put {s : State} (h : Inv s) {t : Task} {m : Mutex} {e : Option Task} {x : Clibmutx} {n : Nat} {p : Place}
    {l : VArray Mutex} (hfits : Fits t m e x n p l) (hbefore : ∀ m', m' ≠ m → (s.place t).stageOf m' = none)
    (hafter : ∀ m', m' ≠ m → p.stageOf m' = none)
    (hforeign : e = s.enq m ∧ x = s.mutex m ∨ ∀ t', t' ≠ t → s.enq m ≠ some t' ∧ e ≠ some t')
    (hcleans : p.cleans = true → ∀ m', m' ≠ m → s.enq m' = some t → m' ∈ l.list)
    (hended : p = .ended → ∀ m', m' ≠ m → s.enq m' ≠ some t) : Inv (s.put t m e x n p l) := by
  intro t' m'
  have hold := h t' m'
  unfold State.put
  dsimp only
  by_cases hm : m' = m
  · subst hm
    rw [Function.update_self, Function.update_self]
    by_cases ht : t' = t
    · subst ht
      rw [Function.update_self, Function.update_self, Function.update_self, Function.update_self]
      exact hfits
    · rw [Function.update_of_ne ht, Function.update_of_ne ht, Function.update_of_ne ht]
      rcases hforeign with ⟨he, hx⟩ | hforeign
      · rw [he, hx]
        exact hold
      · -- the mutex is none of the other task's, before and after
        obtain ⟨hnot, hnot'⟩ := hforeign t' ht
        exact ⟨fun he => absurd he hnot', hfits.free, fun stage hs hh => absurd (hold.holds stage hs hh) hnot,
          fun _ => hold.apart hnot, fun _ he => absurd he hnot', fun _ => hnot'⟩
  · rw [Function.update_of_ne hm, Function.update_of_ne hm]
    by_cases ht : t' = t
    · subst ht
      rw [Function.update_self, Function.update_self, Function.update_self, Function.update_of_ne hm]
      refine ⟨fun he => ?_, hold.free, fun stage hs => ?_, hold.apart, fun hc he => .inl (hcleans hc m' hm he),
        fun hp => hended hp m' hm⟩
      · rw [hafter m' hm, ← hbefore m' hm]
        exact hold.holding he
      · rw [hafter m' hm] at hs
        cases hs
    · rw [Function.update_of_ne ht, Function.update_of_ne ht, Function.update_of_ne ht]
      exact hold

theorem Place.stageOf_within (m m' : Mutex) (stage : Stage) :
    (Place.within m stage).stageOf m' = if m = m' then some stage else none := rfl

variable {t : Task} {m : Mutex} {e : Option Task} {x : Clibmutx} {n : Nat} {p : Place} {l : VArray Mutex}

/-- The task has the ENQ. -/
theorem fits_held (hh : Holding t x.owner x.count n (p.stageOf m))
    (hc : p.cleans = true → m ∈ l.list ∨ p.stageOf m ≠ none)
    (hne : p ≠ .ended) : Fits t m (some t) x n p l :=
  ⟨fun _ => hh, fun h => absurd h (by simp), fun _ _ _ => rfl, fun h => absurd rfl h, fun h _ => hc h,
    fun h => absurd h hne⟩

/-- The task does not have the ENQ. -/
theorem fits_apart (he : e ≠ some t) (hfree : e = none → x.owner = none ∧ x.count = 0)
    (hs : ∀ stage, p.stageOf m = some stage → stage.holds = false) : Fits t m e x 0 p l :=
  ⟨fun h => absurd h he, hfree, fun stage h h' => (by rw [hs stage h] at h'; cases h'), fun _ => rfl,
    fun _ h => absurd h he,
    fun _ => he⟩

/-- A task in its cleanup has its other mutexes in its list. -/
theorem Inv.cleaning {s : State} (h : Inv s) (hc : (s.place t).cleans = true)
    (hbefore : ∀ m', m' ≠ m → (s.place t).stageOf m' = none) :
    ∀ m', m' ≠ m → s.enq m' = some t → m' ∈ (s.crtmutx t).list := fun m' hm' he =>
  ((h t m').cleans hc he).resolve_right (fun hne => hne (hbefore m' hm'))

/-- A step to a statement of a call by the task that has the ENQ. -/
theorem Inv.within {s : State} (h : Inv s) {stage : Stage} (hbefore : ∀ m', m' ≠ m → (s.place t).stageOf m' = none)
    (he : s.enq m = some t) (hh : Holding t x.owner x.count n (some stage))
    (hc : (Place.within m stage).cleans = true → (s.place t).cleans = true ∧ l = s.crtmutx t) :
    Inv (s.put t m (some t) x n (.within m stage) l) := by
  have hstage : (Place.within m stage).stageOf m = some stage := if_pos rfl
  refine h.put (fits_held (by rw [hstage]; exact hh) (fun _ => .inr (by rw [hstage]; simp))
    (by simp)) hbefore ?_ ?_ ?_ (by simp)
  · exact fun m' hm' => if_neg (Ne.symm hm')
  · refine .inr fun t' ht' => ⟨?_, ?_⟩
    · rw [he]
      simpa using Ne.symm ht'
    · simpa using Ne.symm ht'
  · intro hcleans
    obtain ⟨hcleans', hl⟩ := hc hcleans
    rw [hl]
    exact h.cleaning hcleans' hbefore

/-- The owner of a mutex has its ENQ. -/
theorem Inv.owner {s : State} (h : Inv s) (ho : (s.mutex m).owner = some t) : s.enq m = some t := by
  cases he : s.enq m with
  | none =>
    rw [((h t m).free he).1] at ho
    cases ho
  | some u =>
    have hh := (h u m).holding he
    have howner : (s.mutex m).owner = some u ∨ (s.mutex m).owner = none := by
      revert hh
      unfold Holding
      split <;> intro hh
      · exact .inl hh.1
      · exact .inl hh.1
      · exact .inl hh.1
      · exact .inl hh.1
      · exact .inl hh.1
      · exact .inl hh.1
      · exact .inr hh.1
      · exact .inl hh.1
      · exact .inl hh.1
      · exact .inl hh.1
      · exact .inl hh.1
      · exact .inl hh.1
      · exact .inr hh
      · exact .inr hh.1
      · exact .inr hh.1
    rcases howner with howner | howner
    · rw [ho] at howner
      exact howner.symm
    · rw [ho] at howner
      cases howner

/-- A step out of a call, to its caller or on in the cleanup. -/
theorem Inv.returns {s : State} (h : Inv s) (hbefore : ∀ m', m' ≠ m → (s.place t).stageOf m' = none)
    (hfits : Fits t m e x n p l)
    (hforeign : e = s.enq m ∧ x = s.mutex m ∨ s.enq m = some t ∧ (e = none ∨ e = some t))
    (hout : p = .idle ∨ p = .ending ∧ ∀ m', m' ≠ m → s.enq m' = some t → m' ∈ l.list) : Inv (s.put t m e x n p l) := by
  refine h.put hfits hbefore ?_ (hforeign.imp_right ?_) ?_ ?_
  · intro m' hm'
    rcases hout with rfl | ⟨rfl, -⟩ <;> rfl
  · rintro ⟨he, he'⟩ t' ht'
    refine ⟨by rw [he]; simpa using Ne.symm ht', ?_⟩
    rcases he' with rfl | rfl
    · simp
    · simpa using Ne.symm ht'
  · intro hcleans
    rcases hout with rfl | ⟨rfl, hlist⟩
    · cases hcleans
    · exact hlist
  · rintro rfl
    rcases hout with hout | ⟨hout, -⟩ <;> cases hout

/-- The mutex is none of the task's, which leaves it alone. -/
theorem Inv.leaves {s : State} (h : Inv s) (hbefore : ∀ m', m' ≠ m → (s.place t).stageOf m' = none)
    (he : s.enq m ≠ some t)
    (caller : Caller) (hc : caller = .cleanup → ∀ m', m' ≠ m → s.enq m' = some t → m' ∈ l.list) :
    Inv ((s.setList t l).leave t m caller) := by
  have hfits := h t m
  have hlocks := hfits.apart he
  cases caller with
  | mtxunlk =>
    have hput : (s.setList t l).leave t m .mtxunlk = s.put t m (s.enq m) (s.mutex m) 0 .idle l := by
      simp [State.leave, State.setList, State.unlocked, State.setLocks, State.goto, State.put, hlocks]
    rw [hput]
    exact h.returns hbefore (fits_apart he hfits.free (fun _ hs => nomatch hs)) (.inl ⟨rfl, rfl⟩) (.inl rfl)
  | cleanup =>
    have hput : (s.setList t l).leave t m .cleanup = s.put t m (s.enq m) (s.mutex m) 0 .ending l := by
      simp [State.leave, State.setList, State.goto, State.put, ← hlocks]
    rw [hput]
    exact h.returns hbefore (fits_apart he hfits.free (fun _ hs => nomatch hs)) (.inl ⟨rfl, rfl⟩) (.inr ⟨rfl, hc rfl⟩)

theorem State.setList_self (s : State) (t : Task) : s.setList t (s.crtmutx t) = s := by
  simp [State.setList]

/-- What the statements of a call do to the rest of the state. -/
theorem statement_inv {s : State} {stage : Stage} (h : Inv s) (hp : s.place t = .within m stage)
    (alloc : Bool) (hcount : ∀ fresh, stage = .addCount fresh → (s.mutex m).count + 1 < 2 ^ 32) :
    Inv (s.statement t m alloc stage) := by
  have hfits := h t m
  have hstage : (s.place t).stageOf m = some stage := by rw [hp, Place.stageOf_within, if_pos rfl]
  have hheld : stage.holds = true → s.enq m = some t ∧
      Holding t (s.mutex m).owner (s.mutex m).count (s.locks t m) (some stage) := by
    intro hholds
    have he := hfits.holds _ hstage hholds
    rw [← hstage]
    exact ⟨he, hfits.holding he⟩
  have hbefore : ∀ m', m' ≠ m → (s.place t).stageOf m' = none := by
    intro m' hm'
    rw [hp]
    exact if_neg (Ne.symm hm')
  have hsmall := (s.mutex m).small
  cases stage with
  | setOwner fresh =>
    obtain ⟨he, hh⟩ := hheld rfl
    have hput : s.statement t m alloc (.setOwner fresh) =
        s.put t m (some t) {s.mutex m with owner := some t} (s.locks t m) (.within m (.addCount fresh))
          (s.crtmutx t) := by
      simp [State.statement, State.setOwner, State.goto, State.put, ← he]
    rw [hput]
    refine h.within hbefore he ?_ (by simp [Place.cleans])
    cases fresh with
    | true => exact ⟨rfl, hh.2⟩
    | false => exact ⟨rfl, hh.2⟩
  | addCount fresh =>
    obtain ⟨he, hh⟩ := hheld rfl
    have hmod := Nat.mod_eq_of_lt (hcount fresh rfl)
    cases fresh with
    | true =>
      obtain ⟨ho, hzero, hlocks⟩ := hh
      have hput : s.statement t m alloc (.addCount true) =
          s.put t m (some t) ⟨some t, 1, by decide⟩ (s.locks t m) (.within m .addList) (s.crtmutx t) := by
        simp [State.statement, State.setCount, State.goto, State.put, ← he, ho, hzero]
      rw [hput]
      exact h.within hbefore he ⟨rfl, rfl, hlocks⟩ (by simp [Place.cleans])
    | false =>
      obtain ⟨ho, hpos, hlocks⟩ := hh
      have hput : s.statement t m alloc (.addCount false) =
          s.put t m (some t) ⟨some t, (s.mutex m).count + 1, hcount _ rfl⟩ (s.locks t m + 1) .idle (s.crtmutx t) := by
        simp only [State.statement, State.setCount, State.locked, State.setLocks, State.goto, State.put, hmod, ho]
        simp [← he]
      rw [hput]
      exact h.returns hbefore (fits_held ⟨rfl, Nat.succ_pos _, congrArg (· + 1) hlocks⟩ (by simp [Place.cleans])
        (by simp))
        (.inr ⟨he, .inr rfl⟩) (.inl rfl)
  | addList =>
    obtain ⟨he, ho, hone, hlocks⟩ := hheld rfl
    have hput : s.statement t m alloc .addList =
        s.put t m (some t) (s.mutex m) 1 .idle (arrayadd alloc (s.crtmutx t) m).2 := by
      simp [State.statement, State.setList, State.locked, State.setLocks, State.goto, State.put, ← he, hlocks]
    rw [hput]
    exact h.returns hbefore (fits_held ⟨ho, by omega, hone⟩ (by simp [Place.cleans]) (by simp)) (.inr ⟨he, .inr rfl⟩)
      (.inl rfl)
  | testOwner caller =>
    unfold State.statement
    dsimp only
    split_ifs with ho
    · have he := h.owner ho
      have hh := hfits.holding he
      rw [hstage] at hh
      cases caller with
      | mtxunlk =>
        have hput : s.goto t (.within m .subCount) =
            s.put t m (some t) (s.mutex m) (s.locks t m) (.within m .subCount) (s.crtmutx t) := by
          simp [State.goto, State.put, ← he]
        rw [hput]
        exact h.within hbefore he hh (by simp [Place.cleans])
      | cleanup =>
        have hput : s.goto t (.within m (.clearOwner .cleanup)) =
            s.put t m (some t) (s.mutex m) (s.locks t m) (.within m (.clearOwner .cleanup)) (s.crtmutx t) := by
          simp [State.goto, State.put, ← he]
        rw [hput]
        exact h.within hbefore he hh (fun _ => ⟨by rw [hp]; rfl, rfl⟩)
    · rw [← s.setList_self t]
      refine h.leaves hbefore (fun he => ho ?_) caller (fun hc => h.cleaning (by rw [hp, hc]; rfl) hbefore)
      have hh := hfits.holding he
      rw [hstage] at hh
      exact hh.1
  | subCount =>
    obtain ⟨he, ho, hpos, hlocks⟩ := hheld rfl
    have hmod : ((s.mutex m).count + (2 ^ 32 - 1)) % 2 ^ 32 = (s.mutex m).count - 1 := by omega
    have hput : s.statement t m alloc .subCount =
        s.put t m (some t) ⟨some t, (s.mutex m).count - 1, by omega⟩ (s.locks t m) (.within m .testCount)
          (s.crtmutx t) := by
      simp only [State.statement, State.setCount, State.goto, State.put, hmod, ho]
      simp [← he]
    rw [hput]
    exact h.within hbefore he ⟨rfl, by show (s.mutex m).count - 1 + 1 = s.locks t m; omega⟩ (by simp [Place.cleans])
  | testCount =>
    obtain ⟨he, ho, hlocks⟩ := hheld rfl
    unfold State.statement
    dsimp only
    split_ifs with hzero
    · have hput : s.goto t (.within m .delList) =
          s.put t m (some t) (s.mutex m) (s.locks t m) (.within m .delList) (s.crtmutx t) := by
        simp [State.goto, State.put, ← he]
      rw [hput]
      exact h.within hbefore he ⟨ho, hzero, by omega⟩ (by simp [Place.cleans])
    · have hput : s.unlocked t m = s.put t m (some t) (s.mutex m) (s.mutex m).count .idle (s.crtmutx t) := by
        simp [State.unlocked, State.setLocks, State.goto, State.put, ← he, ← hlocks]
      rw [hput]
      exact h.returns hbefore (fits_held ⟨ho, by omega, rfl⟩ (by simp [Place.cleans]) (by simp)) (.inr ⟨he, .inr rfl⟩)
        (.inl rfl)
  | delList =>
    obtain ⟨he, ho, hzero, hlocks⟩ := hheld rfl
    have hput : s.statement t m alloc .delList =
        s.put t m (some t) (s.mutex m) (s.locks t m) (.within m (.clearOwner .mtxunlk))
          (arraydel (s.crtmutx t) (findLast m (s.crtmutx t) (arraycount (s.crtmutx t)))).2 := by
      simp [State.statement, State.setList, State.goto, State.put, ← he]
    rw [hput]
    exact h.within hbefore he ⟨ho, hzero, hlocks⟩ (by simp [Place.cleans])
  | clearOwner caller =>
    obtain ⟨he, hh⟩ := hheld rfl
    cases caller with
    | mtxunlk =>
      have hput : s.statement t m alloc (.clearOwner .mtxunlk) =
          s.put t m (some t) {s.mutex m with owner := none} (s.locks t m) (.within m (.unlockRes .mtxunlk))
            (s.crtmutx t) := by
        simp [State.statement, State.setOwner, State.goto, State.put, ← he]
      rw [hput]
      exact h.within hbefore he ⟨rfl, hh.2⟩ (by simp [Place.cleans])
    | cleanup =>
      have hput : s.statement t m alloc (.clearOwner .cleanup) =
          s.put t m (some t) {s.mutex m with owner := none} (s.locks t m) (.within m .clearCount) (s.crtmutx t) := by
        simp [State.statement, State.setOwner, State.goto, State.put, ← he]
      rw [hput]
      exact h.within hbefore he rfl (fun _ => ⟨by rw [hp]; rfl, rfl⟩)
  | clearCount =>
    obtain ⟨he, hh⟩ := hheld rfl
    have hput : s.statement t m alloc .clearCount =
        s.put t m (some t) ⟨none, 0, by decide⟩ (s.locks t m) (.within m (.unlockRes .cleanup)) (s.crtmutx t) := by
      have ho : (s.mutex m).owner = none := hh
      simp [State.statement, State.setCount, State.goto, State.put, ← he, ho]
    rw [hput]
    exact h.within hbefore he ⟨rfl, rfl⟩ (fun _ => ⟨by rw [hp]; rfl, rfl⟩)
  | unlockRes caller =>
    obtain ⟨he, hh⟩ := hheld rfl
    cases caller with
    | mtxunlk =>
      obtain ⟨ho, hzero, hlocks⟩ := hh
      have hput : s.statement t m alloc (.unlockRes .mtxunlk) = s.put t m none (s.mutex m) 0 .idle (s.crtmutx t) := by
        simp [State.statement, State.setEnq, State.unlocked, State.setLocks, State.goto, State.put, he, hlocks]
      rw [hput]
      exact h.returns hbefore (fits_apart (by simp) (fun _ => ⟨ho, hzero⟩) (fun _ hs => nomatch hs))
        (.inr ⟨he, .inl rfl⟩) (.inl rfl)
    | cleanup =>
      obtain ⟨ho, hzero⟩ := hh
      have hput : s.statement t m alloc (.unlockRes .cleanup) = s.put t m none (s.mutex m) 0 .ending (s.crtmutx t) := by
        simp [State.statement, State.setEnq, State.setLocks, State.goto, State.put, he]
      rw [hput]
      exact h.returns hbefore (fits_apart (by simp) (fun _ => ⟨ho, hzero⟩) (fun _ hs => nomatch hs))
        (.inr ⟨he, .inl rfl⟩)
        (.inr ⟨rfl, h.cleaning (by rw [hp]; rfl) hbefore⟩)

/-- `mtxheld()` is asked, between two calls or in the cleanup. -/
theorem ask_inv {s : State} (h : Inv s) (hout : ∀ m', (s.place t).stageOf m' = none) (caller : Caller)
    (hl : caller = .mtxunlk → l = s.crtmutx t)
    (hc : caller = .cleanup → ∀ m', m' ≠ m → s.enq m' = some t → m' ∈ l.list) :
    Inv ((s.setList t l).ask t m caller) := by
  have hfits := h t m
  have hbefore : ∀ m', m' ≠ m → (s.place t).stageOf m' = none := fun m' _ => hout m'
  unfold State.ask
  split_ifs with hzero
  · refine h.leaves hbefore (fun he => ?_) caller hc
    have hh := hfits.holding he
    rw [hout m] at hh
    exact absurd (show (s.mutex m).count = 0 from hzero) hh.2.1.ne'
  · have hput : (s.setList t l).goto t (.within m (.testOwner caller)) =
        s.put t m (s.enq m) (s.mutex m) (s.locks t m) (.within m (.testOwner caller)) l := by
      simp [State.setList, State.goto, State.put]
    rw [hput]
    have hstage : (Place.within m (.testOwner caller)).stageOf m = some (.testOwner caller) := if_pos rfl
    refine h.put ?_ hbefore (fun m' hm' => if_neg (Ne.symm hm')) (.inl ⟨rfl, rfl⟩) (fun hcleans => ?_) (by simp)
    · refine ⟨fun he => ?_, hfits.free, fun stage hs hh => ?_, hfits.apart, fun _ _ => .inr (by rw [hstage]; simp),
        by simp⟩
      · have hh := hfits.holding he
        rw [hout m] at hh
        rw [hstage]
        exact hh
      · rw [hstage] at hs
        rw [← Option.some.inj hs] at hh
        cases hh
    · cases caller with
      | mtxunlk => cases hcleans
      | cleanup => exact hc rfl

/-- The ENQ is asked for. -/
theorem enter_inv {s s' : State} (h : Inv s) (hout : ∀ m', (s.place t).stageOf m' = none)
    (hs : s.enter t m = some s') : Inv s' := by
  have hfits := h t m
  have hbefore : ∀ m', m' ≠ m → (s.place t).stageOf m' = none := fun m' _ => hout m'
  unfold State.enter at hs
  split at hs
  · next he =>
    obtain rfl := Option.some.inj hs
    have hlocks := hfits.apart (by rw [he]; simp)
    have hput : (s.setEnq m (some t)).goto t (.within m (.setOwner true)) =
        s.put t m (some t) (s.mutex m) (s.locks t m) (.within m (.setOwner true)) (s.crtmutx t) := by
      simp [State.setEnq, State.goto, State.put]
    rw [hput]
    have hstage : (Place.within m (.setOwner true)).stageOf m = some (.setOwner true) := if_pos rfl
    refine h.put (fits_held ?_ (fun _ => .inr (by rw [hstage]; simp))
      (by simp)) hbefore (fun m' hm' => if_neg (Ne.symm hm'))
      (.inr fun t' ht' => ⟨by rw [he]; simp, by simpa using Ne.symm ht'⟩) (by simp [Place.cleans]) (by simp)
    rw [hstage]
    exact ⟨(hfits.free he).1, (hfits.free he).2, hlocks⟩
  · next u he =>
    split_ifs at hs with hu
    subst hu
    obtain rfl := Option.some.inj hs
    have hput : s.goto u (.within m (.setOwner false)) =
        s.put u m (some u) (s.mutex m) (s.locks u m) (.within m (.setOwner false)) (s.crtmutx u) := by
      simp [State.goto, State.put, ← he]
    rw [hput]
    have hh := hfits.holding he
    rw [hout m] at hh
    exact h.within hbefore he hh (by simp [Place.cleans])

/-- A step of a task that is in no call and touches no mutex. -/
theorem Inv.goto {s : State} (h : Inv s) (hout : ∀ m', (s.place t).stageOf m' = none)
    (hfits : ∀ m', Fits t m' (s.enq m') (s.mutex m') (s.locks t m') p (s.crtmutx t)) : Inv (s.goto t p) := by
  intro t' m'
  by_cases ht : t' = t
  · subst ht
    have hfits' := hfits m'
    simpa [State.goto] using hfits'
  · have hfits' := h t' m'
    simpa [State.goto, Function.update_of_ne ht] using hfits'

/-- A round of the cleanup. -/
theorem cleanup_inv {s : State} (h : Inv s) (hp : s.place t = .ending) : Inv (s.cleanup t) := by
  have hout : ∀ m', (s.place t).stageOf m' = none := fun m' => by rw [hp]; rfl
  have hlist : ∀ m', s.enq m' = some t → m' ∈ (s.crtmutx t).list := fun m' he =>
    ((h t m').cleans (by rw [hp]; rfl) he).resolve_right (fun hne => hne (hout m'))
  obtain ⟨hitem, hrest⟩ := arraydel_last (s.crtmutx t)
  unfold State.cleanup
  revert hitem hrest
  generalize arraydel (s.crtmutx t) (arraycount (s.crtmutx t)) = r
  obtain ⟨o, v⟩ := r
  intro hitem hrest
  dsimp only at hitem hrest
  cases o with
  | none =>
    -- the list is empty, so the task has no mutex
    have hnil : (s.crtmutx t).list = [] := List.getLast?_eq_none_iff.mp hitem.symm
    have hnot : ∀ m', s.enq m' ≠ some t := by
      intro m' he
      have hmem := hlist m' he
      rw [hnil] at hmem
      cases hmem
    refine h.goto hout (fun m' => ?_)
    have hfits := h t m'
    exact ⟨fun he => absurd he (hnot m'), hfits.free, (fun _ hs => nomatch hs), hfits.apart, (fun hc => nomatch hc),
      fun _ => hnot m'⟩
  | some m =>
    refine ask_inv h hout .cleanup (fun hc => nomatch hc) (fun _ m' hm' he => ?_)
    rw [hrest]
    have hmem := hlist m' he
    obtain ⟨l', hl'⟩ := List.getLast?_eq_some_iff.mp hitem.symm
    rw [hl', List.mem_append, List.mem_singleton] at hmem
    rw [hl', List.dropLast_concat]
    exact hmem.resolve_right hm'

/-- **Every step that meets the condition keeps the invariant.** -/
theorem next_inv {s s' : State} {a : Task × Move} (h : Inv s) (hn : next s a = some s') (hm : Meets s a) : Inv s' := by
  obtain ⟨t, move⟩ := a
  unfold next at hn
  dsimp only at hn
  cases hp : s.place t with
  | idle =>
    have hout : ∀ m', (s.place t).stageOf m' = none := fun m' => by rw [hp]; rfl
    rw [hp] at hn
    cases move with
    | mtxlock m => exact enter_inv h hout hn
    | mtxtry m =>
      obtain rfl := Option.some.inj hn
      cases he : s.enter t m with
      | none => exact h
      | some s' => exact enter_inv h hout he
    | mtxunlk m =>
      obtain rfl := Option.some.inj hn
      rw [← s.setList_self t]
      exact ask_inv h hout .mtxunlk (fun _ => rfl) (fun hc => nomatch hc)
    | finish =>
      obtain rfl := Option.some.inj hn
      refine h.goto hout (fun m' => ?_)
      have hfits := h t m'
      refine ⟨fun he => ?_, hfits.free, (fun _ hs => nomatch hs), hfits.apart, fun _ he => .inl (hm m' he),
        (fun hc => nomatch hc)⟩
      have hh := hfits.holding he
      rw [hout m'] at hh
      exact hh
    | go alloc => cases hn
  | within m stage =>
    rw [hp] at hn
    cases move with
    | go alloc =>
      obtain rfl := Option.some.inj hn
      refine statement_inv h hp alloc (fun fresh hs => ?_)
      have hcounts : s.counts t = true := hm
      unfold State.counts at hcounts
      rw [hp, hs] at hcounts
      exact of_decide_eq_true hcounts
    | _ => cases hn
  | ending =>
    rw [hp] at hn
    cases move with
    | go alloc =>
      obtain rfl := Option.some.inj hn
      exact cleanup_inv h hp
    | _ => cases hn
  | ended =>
    rw [hp] at hn
    cases move <;> cases hn

theorem start_inv : Inv start := fun _ _ =>
  ⟨(fun he => nomatch he), fun _ => ⟨rfl, rfl⟩, (fun _ hs => nomatch hs), fun _ => rfl, (fun hc => nomatch hc),
    (fun hp => nomatch hp)⟩

/-- No task is in a call on the mutex. -/
def Quiet (s : State) (m : Mutex) : Prop := ∀ t, (s.place t).stageOf m = none

/-- What the mutexes are for. Of the tasks that have got a mutex and not undone it there is
at most one. Between calls, a mutex has its ENQ exactly when its count is positive; the
owner has the ENQ, and the count is the number of its locks. A task that has ended has
neither the ENQ nor is it the owner of any mutex. -/
structure Sound (s : State) : Prop where
  exclusive : ∀ m t t', 0 < s.locks t m → 0 < s.locks t' m → t = t'
  enq_iff : ∀ m, Quiet s m → (s.enq m ≠ none ↔ 0 < (s.mutex m).count)
  owner_iff : ∀ m, Quiet s m → ∀ t, (s.mutex m).owner = some t ↔ s.enq m = some t
  count_eq : ∀ m, Quiet s m → ∀ t, s.enq m = some t → (s.mutex m).count = s.locks t m
  others : ∀ m t, s.enq m ≠ some t → s.locks t m = 0
  ended : ∀ t, s.place t = .ended → ∀ m, s.enq m ≠ some t ∧ (s.mutex m).owner ≠ some t

theorem Inv.sound {s : State} (h : Inv s) : Sound s := by
  have hquiet : ∀ m, Quiet s m → ∀ t, s.enq m = some t →
      (s.mutex m).owner = some t ∧ 0 < (s.mutex m).count ∧ (s.mutex m).count = s.locks t m := by
    intro m hq t he
    have hh := (h t m).holding he
    rw [hq t] at hh
    exact hh
  have hothers : ∀ m t, s.enq m ≠ some t → s.locks t m = 0 := fun m t he => (h t m).apart he
  refine ⟨?_, ?_, ?_, ?_, hothers, ?_⟩
  · intro m t t' ht ht'
    have he : s.enq m = some t := by_contra fun he => ht.ne' (hothers m t he)
    have he' : s.enq m = some t' := by_contra fun he => ht'.ne' (hothers m t' he)
    exact Option.some.inj (he.symm.trans he')
  · intro m hq
    cases he : s.enq m with
    | none => simp [((h 0 m).free he).2]
    | some t => simp [(hquiet m hq t he).2.1]
  · exact fun m hq t => ⟨fun ho => h.owner ho, fun he => (hquiet m hq t he).1⟩
  · exact fun m hq t he => (hquiet m hq t he).2.2
  · intro t hp m
    have hnot := (h t m).ended hp
    exact ⟨hnot, fun ho => hnot (h.owner ho)⟩

end Libc370.Mtx
