import Libc370.Mvs.Timer

/-! One expiry pass of `tmr_thread()`.

The pass walks the array by index from its end. An element that has expired is fired: its
function is called, which may add elements, and purge, reset, enable or disable any of them,
its own included. Then the element is discarded, or disabled, or reset. The pass still has
its index and its pointer from before the call.

The pass keeps a history, which decides nothing: the elements added, purged, discarded and
kept. `Moved` says what a stretch of the pass has done to the array and the storage, in
terms of the elements added and gone, and `Right` is what the pass owes. It is right as long
as the functions leave the index and the pointer alone (`Firing.Meets`); where one does not,
the pass comes to a freed element, at once or at a lower index (`Broken`). -/
namespace Libc370.Timer

open Ext

variable {τ : Type*}

/-- What a timer function may do with the timer. -/
inductive Op (τ : Type*)
  | tmrFunc (q : Request τ)
  | purge (id : UInt32)
  | reset (id : UInt32) (bintvl : Nat) (clock : τ)
  | enable (id : UInt32) (clock : τ)
  | disable (id : UInt32)

/-- The timer, with the elements added to the array and those purged. -/
structure Step (τ : Type*) where
  timer : Tmr τ
  added : List Addr
  purged : List Addr

/-- The array has a new element at its end, or the element is freed. -/
def queued (s : Tmr τ) : Option Addr → Bool → Step τ
  | none, _ => ⟨s, [], []⟩
  | some a, room => ⟨queue s a room, if (arrayadd room s.tqe a).1 = 0 then [a] else [], []⟩

variable (plus : τ → Nat → τ)

/-- One of these calls. -/
def Op.run (s : Tmr τ) : Op τ → Except Stop (Step τ)
  | .tmrFunc q =>
    match tqeNew plus s q with
    | .error e => .error e
    | .ok (o, s') => .ok (queued s' o q.room)
  | .purge id =>
    match lookup s id, tqePurge s id with
    | .ok (some (_, a, _)), .ok s' => .ok ⟨s', [], [a]⟩
    | .ok none, .ok s' => .ok ⟨s', [], []⟩
    | .error e, _ => .error e
    | _, .error e => .error e
  | .reset id bintvl clock => (tqeReset plus s id bintvl clock).map (⟨·, [], []⟩)
  | .enable id clock => (tqeEnable plus s id clock).map (⟨·, [], []⟩)
  | .disable id => (tqeDisable s id).map (⟨·, [], []⟩)

/-- All the calls of a timer function, in order. -/
def runOps (s : Tmr τ) : List (Op τ) → Except Stop (Step τ)
  | [] => .ok ⟨s, [], []⟩
  | op :: ops =>
    match op.run plus s with
    | .error e => .error e
    | .ok r =>
      match runOps r.timer ops with
      | .error e => .error e
      | .ok r' => .ok ⟨r'.timer, r.added ++ r'.added, r.purged ++ r'.purged⟩

/-! ### What is added and what is gone -/

/-- The array has elements that are there, once each. -/
structure Intact (s : Tmr τ) : Prop where
  live : ∀ a ∈ s.tqe.list, s.heap a ≠ none
  below : ∀ a ∈ s.tqe.list, a < s.brk
  once : s.tqe.list.Nodup

/-- From `s` to `s'` the elements `added` came into the array and the elements `gone` were
removed and freed, each once, and no others. -/
structure Moved (s s' : Tmr τ) (added gone : List Addr) : Prop where
  list : s'.tqe.list = (s.tqe.list ++ added).filter (· ∉ gone)
  fresh : ∀ a ∈ added, s.brk ≤ a ∧ a < s'.brk
  addedOnce : added.Nodup
  from_list : ∀ a ∈ gone, a ∈ s.tqe.list ++ added
  goneOnce : gone.Nodup
  freed : ∀ a ∈ gone, s'.heap a = none
  live : ∀ a ∈ s'.tqe.list, s'.heap a ≠ none
  keeps : ∀ a ∈ s.tqe.list, a ∉ gone → ∀ x, s.heap a = some x → ∃ x', s'.heap a = some x' ∧ x'.keep = x.keep
  dead : ∀ a, a < s.brk → s.heap a = none → s'.heap a = none
  brk : s.brk ≤ s'.brk

theorem Moved.mem {s s' : Tmr τ} {added gone : List Addr} (h : Moved s s' added gone) {a : Addr} :
    a ∈ s'.tqe.list ↔ (a ∈ s.tqe.list ∨ a ∈ added) ∧ a ∉ gone := by
  rw [h.list, List.mem_filter, List.mem_append, decide_eq_true_iff]

theorem Moved.refl {s : Tmr τ} (h : Intact s) : Moved s s [] [] where
  list := by simp
  fresh := by simp
  addedOnce := List.nodup_nil
  from_list := by simp
  goneOnce := List.nodup_nil
  freed := by simp
  live := h.live
  keeps := fun a _ _ x hx => ⟨x, hx, rfl⟩
  dead := fun _ _ ha => ha
  brk := le_rfl

theorem Moved.intact {s s' : Tmr τ} {added gone : List Addr} (h : Moved s s' added gone) (hs : Intact s) :
    Intact s' where
  live := h.live
  below := fun a ha => by
    rcases (h.mem.mp ha).1 with hold | hnew
    · exact (hs.below a hold).trans_le h.brk
    · exact (h.fresh a hnew).2
  once := by
    rw [h.list]
    refine (List.nodup_append'.mpr ⟨hs.once, h.addedOnce, ?_⟩).filter _
    exact fun a hold hnew => absurd (hs.below a hold) (Nat.not_lt.mpr (h.fresh a hnew).1)

/-- What is gone was allocated before. -/
theorem Moved.gone_below {s s' : Tmr τ} {added gone : List Addr} (h : Moved s s' added gone) (hs : Intact s) {a : Addr}
    (ha : a ∈ gone) : a < s'.brk := by
  rcases List.mem_append.mp (h.from_list a ha) with hold | hnew
  · exact (hs.below a hold).trans_le h.brk
  · exact (h.fresh a hnew).2

theorem Moved.trans {s s' s'' : Tmr τ} {added gone added' gone' : List Addr} (hs : Intact s) (h : Moved s s' added gone)
    (h' : Moved s' s'' added' gone') : Moved s s'' (added ++ added') (gone ++ gone') := by
  -- An address given out in the second stretch is none of those gone in the first.
  have hnew : ∀ a ∈ added', a ∉ gone := fun a ha hgone =>
    absurd (h.gone_below hs hgone) (Nat.not_lt.mpr (h'.fresh a ha).1)
  have hfrom : ∀ a ∈ gone', a ∉ gone ∧ (a ∈ s.tqe.list ∨ a ∈ added ∨ a ∈ added') := by
    intro a ha
    rcases List.mem_append.mp (h'.from_list a ha) with hold | hadd
    · obtain ⟨hin, hout⟩ := h.mem.mp hold
      exact ⟨hout, hin.imp_right Or.inl⟩
    · exact ⟨hnew a hadd, Or.inr (Or.inr hadd)⟩
  refine ⟨?_, fun a ha => ?_, ?_, fun a ha => ?_, ?_, fun a ha => ?_, h'.live, fun a ha hgone x hx => ?_,
    fun a ha hx => ?_,
    h.brk.trans h'.brk⟩
  · have hkeep : added'.filter (· ∉ gone) = added' :=
      List.filter_eq_self.mpr (fun a ha => decide_eq_true (hnew a ha))
    rw [h'.list, h.list, ← List.append_assoc]
    conv_lhs => rw [← hkeep, ← List.filter_append, List.filter_filter]
    refine List.filter_congr (fun a _ => ?_)
    rw [Bool.eq_iff_iff]
    simp only [Bool.and_eq_true, decide_eq_true_eq, List.mem_append, not_or]
    exact and_comm
  · rcases List.mem_append.mp ha with hfirst | hsecond
    · exact ⟨(h.fresh a hfirst).1, (h.fresh a hfirst).2.trans_le h'.brk⟩
    · exact ⟨h.brk.trans (h'.fresh a hsecond).1, (h'.fresh a hsecond).2⟩
  · refine List.nodup_append'.mpr ⟨h.addedOnce, h'.addedOnce, fun a hfirst hsecond => ?_⟩
    exact absurd (h.fresh a hfirst).2 (Nat.not_lt.mpr (h'.fresh a hsecond).1)
  · rw [← List.append_assoc, List.mem_append]
    rcases List.mem_append.mp ha with hgone | hgone
    · exact .inl (h.from_list a hgone)
    · rcases (hfrom a hgone).2 with hin | hin | hin
      · exact .inl (List.mem_append_left _ hin)
      · exact .inl (List.mem_append_right _ hin)
      · exact .inr hin
  · exact List.nodup_append'.mpr ⟨h.goneOnce, h'.goneOnce, fun a hfirst hsecond => (hfrom a hsecond).1 hfirst⟩
  · rcases List.mem_append.mp ha with hgone | hgone
    · exact h'.dead a (h.gone_below hs hgone) (h.freed a hgone)
    · exact h'.freed a hgone
  · rw [List.mem_append, not_or] at hgone
    obtain ⟨x', hx', hkeep⟩ := h.keeps a ha hgone.1 x hx
    obtain ⟨x'', hx'', hkeep'⟩ := h'.keeps a (h.mem.mpr ⟨.inl ha, hgone.1⟩) hgone.2 x' hx'
    exact ⟨x'', hx'', hkeep'.trans hkeep⟩
  · exact h'.dead a (Nat.lt_of_lt_of_le ha h.brk) (h.dead a ha hx)

/-- The order in which they are gone is of no account. -/
theorem Moved.perm {s s' : Tmr τ} {added gone gone' : List Addr} (h : Moved s s' added gone) (hp : gone.Perm gone') :
    Moved s s' added gone' where
  list := by
    rw [h.list]
    exact List.filter_congr (fun a _ => by rw [Bool.eq_iff_iff, decide_eq_true_iff, decide_eq_true_iff, hp.mem_iff])
  fresh := h.fresh
  addedOnce := h.addedOnce
  from_list := fun a ha => h.from_list a (hp.mem_iff.mpr ha)
  goneOnce := hp.nodup_iff.mp h.goneOnce
  freed := fun a ha => h.freed a (hp.mem_iff.mpr ha)
  live := h.live
  keeps := fun a ha hgone => h.keeps a ha (fun hin => hgone (hp.mem_iff.mp hin))
  dead := h.dead
  brk := h.brk

theorem split_at {l : List Addr} {i : Nat} {a : Addr} (h : l[i]? = some a) {l' : List Addr} :
    l ++ l' = l.take i ++ a :: (l.drop (i + 1) ++ l') := by
  obtain ⟨hlt, rfl⟩ := List.getElem?_eq_some_iff.mp h
  rw [← List.cons_append, ← List.drop_eq_getElem_cons hlt, ← List.append_assoc, List.take_append_drop]

/-- An element that stays has the place it had if those in front of it stay. -/
theorem Moved.place {s s' : Tmr τ} {added gone : List Addr} (h : Moved s s' added gone) {i : Nat} {a : Addr}
    (hi : s.tqe.list[i]? = some a) (ha : a ∉ gone) (hfront : ∀ b ∈ s.tqe.list.take i, b ∉ gone) :
    s'.tqe.list[i]? = some a := by
  have htake : (s.tqe.list.take i).filter (· ∉ gone) = s.tqe.list.take i :=
    List.filter_eq_self.mpr (fun b hb => decide_eq_true (hfront b hb))
  have hlen : (s.tqe.list.take i).length = i := List.length_take_of_le (List.getElem?_eq_some_iff.mp hi).1.le
  rw [h.list, split_at hi, List.filter_append, htake, List.filter_cons, if_pos (decide_eq_true ha),
    List.getElem?_append_right hlen.le, hlen, Nat.sub_self]
  rfl

/-- An element that stays moves up when one in front of it is gone. -/
theorem Moved.moved_up {s s' : Tmr τ} {added gone : List Addr} (h : Moved s s' added gone) {i : Nat} {a : Addr}
    (hi : s.tqe.list[i]? = some a) (ha : a ∉ gone) (hfront : ∃ b ∈ s.tqe.list.take i, b ∈ gone) :
    ∃ j < i, s'.tqe.list[j]? = some a := by
  obtain ⟨b, hb, hgone⟩ := hfront
  have hlen : ((s.tqe.list.take i).filter (· ∉ gone)).length < i := by
    refine (List.length_filter_lt_length_iff_exists.mpr ⟨b, hb, by simp [hgone]⟩).trans_le ?_
    exact List.length_take_le i s.tqe.list
  refine ⟨_, hlen, ?_⟩
  rw [h.list, split_at hi, List.filter_append, List.filter_cons, if_pos (decide_eq_true ha),
    List.getElem?_append_right le_rfl, Nat.sub_self]
  rfl

/-! ### What the calls of a function do -/

theorem discard_moved {s : Tmr τ} (h : Intact s) {i : Nat} {a : Addr} (hi : s.tqe.list[i]? = some a) :
    Moved s ((s.free a).del (i + 1)) [] [a] := by
  obtain ⟨hlt, hget⟩ := List.getElem?_eq_some_iff.mp hi
  have hlist : ((s.free a).del (i + 1)).tqe.list = (s.tqe.list ++ []).filter (· ∉ [a]) := by
    rw [List.append_nil, ← hget]
    refine ((arraydel_list s.tqe i.succ_pos).2.trans ?_)
    rw [Nat.succ_sub_one, ← h.once.erase_getElem i hlt, h.once.erase_eq_filter]
    refine List.filter_congr (fun b _ => ?_)
    rw [Bool.eq_iff_iff, bne_iff_ne, decide_eq_true_iff, List.mem_singleton]
  have hheap : ∀ b, b ≠ a → ((s.free a).del (i + 1)).heap b = s.heap b := fun b hb => Function.update_of_ne hb _ _
  refine ⟨hlist, by simp, List.nodup_nil, fun b hb => ?_, List.nodup_singleton a, fun b hb => ?_, fun b hb => ?_,
    fun b _ hb x hx => ?_, fun b _ hb => ?_, le_rfl⟩
  · rw [List.append_nil, List.mem_singleton.mp hb]
    exact List.mem_of_getElem? hi
  · rw [List.mem_singleton.mp hb]
    exact Function.update_self _ _ _
  · rw [hlist, List.mem_filter, decide_eq_true_iff, List.append_nil, List.mem_singleton] at hb
    rw [hheap b hb.2]
    exact h.live b hb.1
  · rw [List.mem_singleton] at hb
    exact ⟨x, (hheap b hb).trans hx, rfl⟩
  · by_cases hba : b = a
    · rw [hba]
      exact Function.update_self _ _ _
    · exact (hheap b hba).trans hb

theorem setHeap_moved {s : Tmr τ} (h : Intact s) {a : Addr} {x x' : Tqe τ} (hx : s.heap a = some x)
    (hkeep : x'.keep = x.keep) :
    Moved s (s.setHeap a (some x')) [] [] := by
  have hself : (s.setHeap a (some x')).heap a = some x' := Function.update_self _ _ _
  have hheap : ∀ b, b ≠ a → (s.setHeap a (some x')).heap b = s.heap b := fun b hb => Function.update_of_ne hb _ _
  refine {Moved.refl h with live := fun b hb => ?_, freed := by simp, keeps := fun b hb _ y hy => ?_, dead :=
    fun b hb hdead => ?_}
  · by_cases hba : b = a
    · rw [hba, hself]
      exact Option.some_ne_none x'
    · rw [hheap b hba]
      exact h.live b hb
  · by_cases hba : b = a
    · subst hba
      exact ⟨x', hself, by rw [hkeep, Option.some.inj (hx.symm.trans hy)]⟩
    · exact ⟨y, (hheap b hba).trans hy, rfl⟩
  · by_cases hba : b = a
    · subst hba
      rw [hdead] at hx
      cases hx
    · exact (hheap b hba).trans hdead

/-- A new element comes to the end of the array, or is freed again. -/
theorem queued_moved {s : Tmr τ} (h : Intact s) (id : UInt32) (x : Tqe τ) (room : Bool) :
    Moved s (queued ⟨id, s.tqe, Function.update s.heap s.brk (some x), s.brk + 1⟩ (some s.brk) room).timer
      (queued ⟨id, s.tqe, Function.update s.heap s.brk (some x), s.brk + 1⟩ (some s.brk) room).added [] := by
  have hold : ∀ a ∈ s.tqe.list, a ≠ s.brk := fun a ha => (h.below a ha).ne
  unfold queued queue
  rcases arrayadd_cases room s.tqe s.brk with ⟨hrc, hlist⟩ | ⟨-, hrc, hsame⟩
  · simp only [hrc, if_true]
    refine ⟨by simp [hlist], by simp, List.nodup_singleton _, by simp, List.nodup_nil, by simp, fun a ha => ?_,
      fun a ha _ y hy => ?_,
      fun a ha hdead => ?_, Nat.le_succ _⟩
    · rw [hlist, List.mem_append, List.mem_singleton] at ha
      rcases ha with ha | rfl
      · dsimp only
        rw [Function.update_of_ne (hold a ha)]
        exact h.live a ha
      · dsimp only
        rw [Function.update_self]
        exact Option.some_ne_none x
    · exact ⟨y, (Function.update_of_ne (hold a ha) _ _).trans hy, rfl⟩
    · exact (Function.update_of_ne ha.ne _ _).trans hdead
  · simp only [hrc, Int.reduceNeg, Int.reduceEq, if_false, Tmr.free, Tmr.setHeap, Function.update_idem]
    refine ⟨by simp, by simp, List.nodup_nil, by simp, List.nodup_nil, by simp, fun a ha => ?_, fun a ha _ y hy => ?_,
      fun a ha hdead => ?_, Nat.le_succ _⟩
    · dsimp only
      rw [Function.update_of_ne (hold a ha)]
      exact h.live a ha
    · exact ⟨y, (Function.update_of_ne (hold a ha) _ _).trans hy, rfl⟩
    · exact (Function.update_of_ne ha.ne _ _).trans hdead

theorem lookup_none_or {s : Tmr τ} {id : UInt32} {o : Option (Nat × Addr × Tqe τ)} (h : lookup s id = .ok o) :
    o = none ∨ ∃ i a x, o = some (i, a, x) ∧ s.tqe.list[i]? = some a ∧ s.heap a = some x := by
  match o, h with
  | none, _ => exact .inl rfl
  | some (i, a, x), h => exact .inr ⟨i, a, x, rfl, (lookup_some h).1, (lookup_some h).2.1⟩

theorem change_moved {f : Tqe τ → Tqe τ} (hf : ∀ x, (f x).keep = x.keep) {s s' : Tmr τ} (hs : Intact s) {id : UInt32}
    (h : change f s id = .ok s') : Moved s s' [] [] := by
  unfold change at h
  split at h
  · cases h
  · cases h
    exact Moved.refl hs
  · next i a x hlook =>
    cases h
    exact setHeap_moved hs (lookup_some hlook).2.1 (hf x)

theorem run_moved {s : Tmr τ} (hs : Intact s) {op : Op τ} {r : Step τ} (h : op.run plus s = .ok r) :
    Moved s r.timer r.added r.purged := by
  have hchange : ∀ {f : Tqe τ → Tqe τ} {id : UInt32}, (∀ x, (f x).keep = x.keep) →
      (change f s id).map (⟨·, [], []⟩) = Except.ok r → Moved s r.timer r.added r.purged := by
    intro f id hf h
    cases hc : change f s id with
    | error e =>
      rw [hc] at h
      cases h
    | ok s' =>
      rw [hc] at h
      cases h
      exact change_moved hf hs hc
  cases op with
  | tmrFunc q =>
    simp only [Op.run, tqeNew] at h
    by_cases halloc : q.alloc
    · rw [if_pos halloc] at h
      cases hid : tmrId s q.rands with
      | error e =>
        rw [hid] at h
        cases h
      | ok made =>
        obtain ⟨id, s'⟩ := made
        obtain rfl := (tmrId_spec hid).1
        rw [hid] at h
        cases h
        exact queued_moved hs id _ q.room
    · rw [if_neg halloc] at h
      cases h
      exact Moved.refl hs
  | purge id =>
    simp only [Op.run, tqePurge] at h
    cases hlook : lookup s id with
    | error e =>
      rw [hlook] at h
      cases h
    | ok o =>
      rw [hlook] at h
      rcases lookup_none_or hlook with rfl | ⟨i, a, x, rfl, hi, hx⟩
      · cases h
        exact Moved.refl hs
      · cases h
        exact discard_moved hs hi
  | reset id bintvl clock =>
    refine hchange (fun x => ?_) h
    dsimp only
    split_ifs <;> rfl
  | enable id clock =>
    refine hchange (fun x => ?_) h
    dsimp only
    split_ifs <;> rfl
  | disable id => exact hchange (f := fun x => {x with disabled := true}) (fun _ => rfl) h

theorem runOps_moved {s : Tmr τ} (hs : Intact s) {ops : List (Op τ)} {r : Step τ} (h : runOps plus s ops = .ok r) :
    Moved s r.timer r.added r.purged := by
  induction ops generalizing s r with
  | nil =>
    cases h
    exact Moved.refl hs
  | cons op ops ih =>
    rw [runOps] at h
    cases hop : op.run plus s with
    | error e =>
      rw [hop] at h
      cases h
    | ok r₁ =>
      rw [hop] at h
      dsimp only at h
      have hfirst := run_moved plus hs hop
      cases hrest : runOps plus r₁.timer ops with
      | error e =>
        rw [hrest] at h
        cases h
      | ok r₂ =>
        rw [hrest] at h
        cases h
        exact hfirst.trans hs (ih (hfirst.intact hs) hrest)

/-! ### A function comes to no freed element where none is in the array -/

theorem find_ok {heap : Addr → Option (Tqe τ)} {l : List Addr} (hlive : ∀ a ∈ l, heap a ≠ none) (id : UInt32) :
    ∃ o, find heap id l = .ok o := by
  induction l with
  | nil => exact ⟨none, rfl⟩
  | cons a rest ih =>
    obtain ⟨x, hx⟩ := Option.ne_none_iff_exists'.mp (hlive a List.mem_cons_self)
    rw [find, hx]
    dsimp only
    split_ifs
    · exact ⟨_, rfl⟩
    · obtain ⟨o, ho⟩ := ih (fun b hb => hlive b (List.mem_cons_of_mem _ hb))
      exact ⟨o.map (· + 1), by rw [ho]; rfl⟩

theorem lookup_ok {s : Tmr τ} (hs : Intact s) (id : UInt32) : ∃ o, lookup s id = .ok o := by
  obtain ⟨o, ho⟩ := find_ok hs.live id
  rw [lookup, ho]
  cases o with
  | none => exact ⟨_, rfl⟩
  | some i => exact ⟨_, rfl⟩

theorem tmrId_error {s : Tmr τ} (hlive : ∀ a ∈ s.tqe.list, s.heap a ≠ none) {rands : List (Rand × Rand)} {e : Stop}
    (h : tmrId s rands = .error e) : e = .loops := by
  induction rands generalizing s with
  | nil => exact (Except.error.inj h).symm
  | cons r rest ih =>
    obtain ⟨r, r'⟩ := r
    rw [tmrId] at h
    dsimp only at h
    obtain ⟨o, ho⟩ := find_ok hlive (idTurn s.id r r').2
    rw [ho] at h
    split_ifs at h
    · cases o with
      | none => cases h
      | some i => exact @ih {s with id := (idTurn s.id r r').1} hlive h
    · exact @ih {s with id := (idTurn s.id r r').1} hlive h

theorem run_error {s : Tmr τ} (hs : Intact s) {op : Op τ} {e : Stop} (h : op.run plus s = .error e) : e = .loops := by
  have hchange : ∀ {f : Tqe τ → Tqe τ} {id : UInt32},
      (change f s id).map (fun s' => (⟨s', [], []⟩ : Step τ)) ≠ Except.error e := by
    intro f id h
    obtain ⟨o, ho⟩ := lookup_ok hs id
    rw [change, ho] at h
    cases o <;> cases h
  cases op with
  | tmrFunc q =>
    simp only [Op.run, tqeNew] at h
    by_cases halloc : q.alloc
    · rw [if_pos halloc] at h
      cases hid : tmrId s q.rands with
      | error e' =>
        rw [hid] at h
        cases h
        exact tmrId_error hs.live hid
      | ok made =>
        rw [hid] at h
        cases h
    · rw [if_neg halloc] at h
      cases h
  | purge id =>
    obtain ⟨o, ho⟩ := lookup_ok hs id
    simp only [Op.run, tqePurge, ho] at h
    cases o <;> cases h
  | reset id bintvl clock => exact absurd h hchange
  | enable id clock => exact absurd h hchange
  | disable id => exact absurd h hchange

theorem runOps_error {s : Tmr τ} (hs : Intact s) {ops : List (Op τ)} {e : Stop} (h : runOps plus s ops = .error e) :
    e = .loops := by
  induction ops generalizing s with
  | nil => cases h
  | cons op ops ih =>
    rw [runOps] at h
    cases hop : op.run plus s with
    | error e' =>
      rw [hop] at h
      cases h
      exact run_error plus hs hop
    | ok r₁ =>
      rw [hop] at h
      dsimp only at h
      cases hrest : runOps plus r₁.timer ops with
      | error e' =>
        rw [hrest] at h
        cases h
        exact ih ((run_moved plus hs hop).intact hs) hrest
      | ok r₂ =>
        rw [hrest] at h
        cases h

/-! ### A freed element in the array stays there -/

/-- A freed element is left in the array below index `n` (counted from 1 up to `n`). -/
def Broken (n : Nat) (s : Tmr τ) : Prop := ∃ i a, i < n ∧ s.tqe.list[i]? = some a ∧ s.heap a = none ∧ a < s.brk

theorem find_dead {heap : Addr → Option (Tqe τ)} {l : List Addr} {i : Nat} {a : Addr} (hi : l[i]? = some a)
    (hdead : heap a = none) (id : UInt32) : find heap id l ≠ .ok none := by
  intro h
  obtain ⟨x, hx, -⟩ := find_none h a (List.mem_of_getElem? hi)
  rw [hdead] at hx
  cases hx

/-- The element found is in front of a freed one. -/
theorem lookup_front {s : Tmr τ} {id : UInt32} {i j : Nat} {a b : Addr} {x : Tqe τ}
    (h : lookup s id = .ok (some (j, b, x)))
    (hi : s.tqe.list[i]? = some a) (hdead : s.heap a = none) : j < i := by
  obtain ⟨hj, hx, hbefore⟩ := lookup_some h
  by_contra hle
  rcases Nat.lt_or_eq_of_le (Nat.not_lt.mp hle) with hlt | rfl
  · obtain ⟨hlen, hget⟩ := List.getElem?_eq_some_iff.mp hi
    have hmem : a ∈ s.tqe.list.take j := by
      rw [← hget]
      exact List.mem_take_iff_getElem.mpr ⟨i, by omega, rfl⟩
    exact hbefore a hmem hdead
  · obtain rfl : a = b := Option.some.inj (hi.symm.trans hj)
    rw [hdead] at hx
    cases hx

theorem tmrId_dead {s : Tmr τ} {i : Nat} {a : Addr} (hi : s.tqe.list[i]? = some a) (hdead : s.heap a = none)
    (rands : List (Rand × Rand)) (made : UInt32 × Tmr τ) : tmrId s rands ≠ .ok made := by
  intro h
  exact find_dead hi hdead made.1 (tmrId_spec h).2

theorem setHeap_broken {s : Tmr τ} {n : Nat} (h : Broken n s) {b : Addr} {x : Tqe τ} (hb : s.heap b = some x)
    (x' : Tqe τ) :
    Broken n (s.setHeap b (some x')) := by
  obtain ⟨i, a, hin, hi, hdead, hbrk⟩ := h
  have hne : a ≠ b := by
    rintro rfl
    rw [hdead] at hb
    cases hb
  exact ⟨i, a, hin, hi, (Function.update_of_ne hne _ _).trans hdead, hbrk⟩

theorem free_dead {s : Tmr τ} {a : Addr} (h : s.heap a = none) (b : Addr) : (s.free b).heap a = none := by
  by_cases hab : a = b
  · subst hab
    exact Function.update_self _ _ _
  · exact (Function.update_of_ne hab _ _).trans h

/-- The element at one place is freed and another one taken out, or one is discarded where
another is freed already. -/
theorem discard_broken {s : Tmr τ} {n i j : Nat} {a b : Addr} (hin : i < n) (hi : s.tqe.list[i]? = some a)
    (hdead : (s.free b).heap a = none) (hbrk : a < s.brk) (hne : i ≠ j) : Broken n ((s.free b).del (j + 1)) := by
  have hlist : ((s.free b).del (j + 1)).tqe.list = s.tqe.list.eraseIdx j := (arraydel_list s.tqe j.succ_pos).2
  rcases Nat.lt_or_gt_of_ne hne with hlt | hgt
  · exact ⟨i, a, hin, by rw [hlist, List.getElem?_eraseIdx_of_lt hlt]; exact hi, hdead, hbrk⟩
  · refine ⟨i - 1, a, by omega, ?_, hdead, hbrk⟩
    rw [hlist, List.getElem?_eraseIdx_of_ge (by omega), Nat.sub_add_cancel (by omega)]
    exact hi

theorem run_broken {s : Tmr τ} {n : Nat} (hb : Broken n s) {op : Op τ} {r : Step τ} (h : op.run plus s = .ok r) :
    Broken n r.timer := by
  have hb' := hb
  obtain ⟨i, a, hin, hi, hdead, hbrk⟩ := hb
  have hchange : ∀ {f : Tqe τ → Tqe τ} {id : UInt32},
      (change f s id).map (⟨·, [], []⟩) = Except.ok r → Broken n r.timer := by
    intro f id h
    cases hlook : lookup s id with
    | error e =>
      rw [change, hlook] at h
      cases h
    | ok o =>
      rw [change, hlook] at h
      rcases lookup_none_or hlook with rfl | ⟨j, b, x, rfl, hj, hx⟩
      · cases h
        exact hb'
      · cases h
        exact setHeap_broken hb' hx _
  cases op with
  | tmrFunc q =>
    simp only [Op.run, tqeNew] at h
    by_cases halloc : q.alloc
    · rw [if_pos halloc] at h
      cases hid : tmrId s q.rands with
      | error e =>
        rw [hid] at h
        cases h
      | ok made => exact absurd hid (tmrId_dead hi hdead q.rands made)
    · rw [if_neg halloc] at h
      cases h
      exact hb'
  | purge id =>
    simp only [Op.run, tqePurge] at h
    cases hlook : lookup s id with
    | error e =>
      rw [hlook] at h
      cases h
    | ok o =>
      rw [hlook] at h
      rcases lookup_none_or hlook with rfl | ⟨j, b, x, rfl, hj, hx⟩
      · cases h
        exact hb'
      · cases h
        exact discard_broken hin hi (free_dead hdead b) hbrk (lookup_front hlook hi hdead).ne'
  | reset id bintvl clock => exact hchange h
  | enable id clock => exact hchange h
  | disable id => exact hchange h

theorem runOps_broken {s : Tmr τ} {n : Nat} (hb : Broken n s) {ops : List (Op τ)} {r : Step τ}
    (h : runOps plus s ops = .ok r) :
    Broken n r.timer := by
  induction ops generalizing s r with
  | nil =>
    cases h
    exact hb
  | cons op ops ih =>
    rw [runOps] at h
    cases hop : op.run plus s with
    | error e =>
      rw [hop] at h
      cases h
    | ok r₁ =>
      rw [hop] at h
      dsimp only at h
      cases hrest : runOps plus r₁.timer ops with
      | error e =>
        rw [hrest] at h
        cases h
      | ok r₂ =>
        rw [hrest] at h
        cases h
        have hbroken := ih (run_broken plus hb hop) hrest
        exact hbroken

/-! ### The pass -/

/-- A pass in progress: the timer, what the timer functions still to be called will do, and
the history. -/
structure Pass (τ : Type*) where
  timer : Tmr τ
  calls : List (List (Op τ))
  added : List Addr := []
  purged : List Addr := []
  discarded : List Addr := []
  kept : List (Addr × Tqe τ) := []

variable (renew : τ → Nat → τ) (now : τ)

/-- What the function of the element does. -/
def Pass.ops (p : Pass τ) (x : Tqe τ) : List (Op τ) := if x.func then p.calls.headD [] else []

/-- The function of the element `x` has done `r`. -/
def Pass.called (p : Pass τ) (x : Tqe τ) (r : Step τ) : Pass τ :=
  {p with
    timer := r.timer
    calls := if x.func then p.calls.tail else p.calls
    added := p.added ++ r.added
    purged := p.purged ++ r.purged}

/-- What is behind the call of the function: the element is discarded, disabled or reset. -/
def Pass.settle (p : Pass τ) (n : Nat) (a : Addr) : Except Stop (Pass τ) :=
  match p.timer.heap a with
  | none => .error .freed
  | some x =>
    if x.keep = false then
      .ok {p with timer := (p.timer.free a).del n, discarded := p.discarded ++ [a]}
    else
      let x' := if x.reset = false then {x with disabled := true} else {x with expires := renew now x.bintvl}
      .ok {p with timer := p.timer.setHeap a (some x'), kept := p.kept ++ [(a, x')]}

/-- A KEEP element that was fired is disabled, or reset. -/
def Settled (x : Tqe τ) : Prop :=
  (x.reset = false → x.disabled = true) ∧ (x.reset = true → x.expires = renew now x.bintvl)

/-- What one expiry pass owes: of the elements that were in the array or were added,
exactly those that a function purged and the one-shot elements that fired are removed and
freed, each once; a KEEP element that fired was disabled or reset, and stays until a
function purges it. -/
structure Right (s : Tmr τ) (p : Pass τ) : Prop where
  moved : Moved s p.timer p.added (p.purged ++ p.discarded)
  kept : ∀ a x, (a, x) ∈ p.kept → Settled renew now x ∧
    (a ∈ p.purged ∨ a ∈ p.timer.tqe.list ∧ ∃ y, p.timer.heap a = some y ∧ y.keep = true)

/-- Behind the call the element is discarded, or it is changed and stays. -/
theorem settle_cases {p : Pass τ} {n : Nat} {a : Addr} {x : Tqe τ} (hx : p.timer.heap a = some x) :
    (x.keep = false ∧
        p.settle renew now n a = .ok {p with timer := (p.timer.free a).del n, discarded := p.discarded ++ [a]}) ∨
      (x.keep = true ∧ ∃ x', x'.keep = true ∧ Settled renew now x' ∧
        p.settle renew now n a = .ok {p with timer := p.timer.setHeap a (some x'), kept := p.kept ++ [(a, x')]}) := by
  unfold Pass.settle
  rw [hx]
  dsimp only
  by_cases hkeep : x.keep = false
  · rw [if_pos hkeep]
    exact .inl ⟨hkeep, rfl⟩
  · have hkeep' := Bool.eq_true_of_not_eq_false hkeep
    rw [if_neg hkeep]
    by_cases hreset : x.reset = false
    · rw [if_pos hreset]
      exact .inr ⟨hkeep', {x with disabled := true}, hkeep',
        ⟨fun _ => rfl, fun h => absurd (hreset.symm.trans h) (by decide)⟩, rfl⟩
    · rw [if_neg hreset]
      exact .inr ⟨hkeep', {x with expires := renew now x.bintvl}, hkeep', ⟨fun h => absurd h hreset, fun _ => rfl⟩, rfl⟩

/-- A stretch of the pass that discards one-shot elements only. -/
theorem Right.step {s : Tmr τ} (hs : Intact s) {p : Pass τ} (hp : Right renew now s p) {t : Tmr τ}
    {added purged discarded : List Addr} (hm : Moved p.timer t added (purged ++ discarded))
    (honce : ∀ a ∈ discarded, ∃ x, p.timer.heap a = some x ∧ x.keep = false) (kept : List (Addr × Tqe τ))
    (hkept : ∀ a x, (a, x) ∈ kept → Settled renew now x ∧ a ∈ t.tqe.list ∧ ∃ y, t.heap a = some y ∧ y.keep = true)
    (calls : List (List (Op τ))) :
    Right renew now s ⟨t, calls, p.added ++ added, p.purged ++ purged, p.discarded ++ discarded, p.kept ++ kept⟩ := by
  have hperm : ((p.purged ++ p.discarded) ++ (purged ++ discarded)).Perm
      ((p.purged ++ purged) ++ (p.discarded ++ discarded)) := by
    rw [List.append_assoc, List.append_assoc]
    refine List.Perm.append_left _ ?_
    rw [← List.append_assoc, ← List.append_assoc]
    exact List.perm_append_comm.append_right _
  refine ⟨(hp.moved.trans hs hm).perm hperm, fun a x ha => ?_⟩
  rcases List.mem_append.mp ha with hold | hnew
  · obtain ⟨hset, hwhere⟩ := hp.kept a x hold
    refine ⟨hset, ?_⟩
    rcases hwhere with hpurged | ⟨hlist, y, hy, hkeep⟩
    · exact .inl (List.mem_append_left _ hpurged)
    · by_cases hgone : a ∈ purged
      · exact .inl (List.mem_append_right _ hgone)
      · have hstay : a ∉ purged ++ discarded := by
          rw [List.mem_append, not_or]
          refine ⟨hgone, fun hd => ?_⟩
          obtain ⟨z, hz, hone⟩ := honce a hd
          rw [Option.some.inj (hz.symm.trans hy), hkeep] at hone
          cases hone
        obtain ⟨y', hy', hkeep'⟩ := hm.keeps a hlist hstay y hy
        exact .inr ⟨hm.mem.mpr ⟨.inl hlist, hstay⟩, y', hy', hkeep'.trans hkeep⟩
  · obtain ⟨hset, hwhere⟩ := hkept a x hnew
    exact ⟨hset, .inr hwhere⟩

variable [LinearOrder τ]

/-- The element at index `n`, if it has expired. -/
def Pass.due (p : Pass τ) (n : Nat) : Except Stop (Option (Addr × Tqe τ)) :=
  match arrayget p.timer.tqe n with
  | none => .ok none
  | some a =>
    match p.timer.heap a with
    | none => .error .freed
    | some x => .ok (if x.disabled = true ∨ now < x.expires then none else some (a, x))

/-- A turn of the `for` loop, at index `n`. -/
def Pass.visit (p : Pass τ) (n : Nat) : Except Stop (Pass τ) :=
  match p.due now n with
  | .error e => .error e
  | .ok none => .ok p
  | .ok (some (a, x)) =>
    match runOps plus p.timer (p.ops x) with
    | .error e => .error e
    | .ok r => (p.called x r).settle renew now n a

/-- The `for` loop, from index `n` down. -/
def Pass.walk (p : Pass τ) : Nat → Except Stop (Pass τ)
  | 0 => .ok p
  | n + 1 =>
    match p.visit plus renew now (n + 1) with
    | .error e => .error e
    | .ok p' => p'.walk n

/-- One expiry pass; `calls` is what the timer functions called in it do, in order. -/
def expiryPass (s : Tmr τ) (calls : List (List (Op τ))) : Except Stop (Pass τ) :=
  Pass.walk plus renew now ⟨s, calls, [], [], [], []⟩ (arraycount s.tqe)

/-- A fired element, the index of the pass and the timer before its function is called, and
what the function purges. -/
structure Firing (τ : Type*) where
  timer : Tmr τ
  index : Nat
  addr : Addr
  tqe : Tqe τ
  purged : List Addr

/-- The firing of a turn, if there is one. -/
def Pass.fired (p : Pass τ) (n : Nat) : List (Firing τ) :=
  match p.due now n with
  | .ok (some (a, x)) =>
    match runOps plus p.timer (p.ops x) with
    | .ok r => [⟨p.timer, n, a, x, r.purged⟩]
    | .error _ => []
  | _ => []

/-- The firings of the loop, up to where it stops. -/
def Pass.firings (p : Pass τ) : Nat → List (Firing τ)
  | 0 => []
  | n + 1 =>
    p.fired plus now (n + 1) ++
      match p.visit plus renew now (n + 1) with
      | .error _ => []
      | .ok p' => p'.firings n

/-- The firings of a pass. -/
def firings (s : Tmr τ) (calls : List (List (Op τ))) : List (Firing τ) :=
  Pass.firings plus renew now ⟨s, calls, [], [], [], []⟩ (arraycount s.tqe)

/-- The function does not purge its own element, nor, if that is a one-shot element, one in
front of it in the array. -/
def Firing.Meets (f : Firing τ) : Prop :=
  f.addr ∉ f.purged ∧ (f.tqe.keep = false → ∀ b ∈ f.timer.tqe.list.take (f.index - 1), b ∉ f.purged)

theorem due_some {p : Pass τ} {n : Nat} {a : Addr} {x : Tqe τ} (h : p.due now (n + 1) = .ok (some (a, x))) :
    p.timer.tqe.list[n]? = some a ∧ p.timer.heap a = some x := by
  unfold Pass.due at h
  rw [arrayget_eq p.timer.tqe n.succ_pos, Nat.succ_sub_one] at h
  split at h
  · cases h
  · next b hb =>
    split at h
    · cases h
    · next y hy =>
      split_ifs at h
      · cases h
      · obtain ⟨rfl, rfl⟩ : b = a ∧ y = x := by simpa using h
        exact ⟨hb, hy⟩

theorem due_ok {p : Pass τ} (hs : Intact p.timer) (n : Nat) : ∃ o, p.due now (n + 1) = .ok o := by
  unfold Pass.due
  rw [arrayget_eq p.timer.tqe n.succ_pos]
  cases ha : p.timer.tqe.list[n + 1 - 1]? with
  | none => exact ⟨_, rfl⟩
  | some a =>
    obtain ⟨x, hx⟩ := Option.ne_none_iff_exists'.mp (hs.live a (List.mem_of_getElem? ha))
    dsimp only
    rw [hx]
    exact ⟨_, rfl⟩

/-- A turn that ends does nothing, or fires an element. -/
theorem visit_cases {p p' : Pass τ} {n : Nat} (h : p.visit plus renew now (n + 1) = .ok p') :
    (p' = p ∧ p.fired plus now (n + 1) = []) ∨
      ∃ a x r, p.timer.tqe.list[n]? = some a ∧ p.timer.heap a = some x ∧ runOps plus p.timer (p.ops x) = .ok r ∧
        (p.called x r).settle renew now (n + 1) a = .ok p' ∧
        p.fired plus now (n + 1) = [⟨p.timer, n + 1, a, x, r.purged⟩] := by
  unfold Pass.visit at h
  unfold Pass.fired
  split at h
  · cases h
  · next hdue =>
    rw [hdue]
    exact .inl ⟨(Except.ok.inj h).symm, rfl⟩
  · next a x hdue =>
    obtain ⟨ha, hx⟩ := due_some now hdue
    rw [hdue]
    dsimp only
    split at h
    · cases h
    · next r hr =>
      rw [hr]
      exact .inr ⟨a, x, r, ha, hx, hr, h, rfl⟩

/-- A pass that comes to a freed element in the array does not end. -/
theorem walk_broken {p : Pass τ} {n : Nat} (h : Broken n p.timer) (p' : Pass τ) : p.walk plus renew now n ≠ .ok p' := by
  induction n generalizing p with
  | zero =>
    obtain ⟨i, a, hi, -⟩ := h
    exact absurd hi (Nat.not_lt_zero i)
  | succ n ih =>
    intro hwalk
    rw [Pass.walk] at hwalk
    cases hvisit : p.visit plus renew now (n + 1) with
    | error e =>
      rw [hvisit] at hwalk
      cases hwalk
    | ok p₁ =>
      rw [hvisit] at hwalk
      refine ih ?_ hwalk
      obtain ⟨i, a, hin, hi, hdead, hbrk⟩ := h
      -- The turn at `n` itself does not end where the freed element is there.
      have hlt : i ≠ n := by
        rintro rfl
        rw [Pass.visit, Pass.due, arrayget_eq p.timer.tqe i.succ_pos, Nat.succ_sub_one, hi] at hvisit
        dsimp only at hvisit
        rw [hdead] at hvisit
        cases hvisit
      have hb : Broken n p.timer := ⟨i, a, by omega, hi, hdead, hbrk⟩
      rcases visit_cases plus renew now hvisit with ⟨rfl, -⟩ | ⟨b, x, r, hb', hx, hr, hsettle, -⟩
      · exact hb
      · obtain ⟨j, c, hjn, hj, hcdead, hcbrk⟩ := runOps_broken plus hb hr
        cases hy : r.timer.heap b with
        | none =>
          rw [Pass.settle, Pass.called, hy] at hsettle
          cases hsettle
        | some y =>
          rcases settle_cases renew now (p := p.called x r) (n := n + 1) hy with ⟨-, hs⟩ | ⟨-, x', -, -, hs⟩
          · cases hs.symm.trans hsettle
            exact discard_broken hjn hj (free_dead hcdead b) hcbrk hjn.ne
          · cases hs.symm.trans hsettle
            exact setHeap_broken ⟨j, c, hjn, hj, hcdead, hcbrk⟩ hy x'

/-- A function that leaves the index and the pointer alone: the turn does what it owes. -/
theorem visit_right {s : Tmr τ} (hs : Intact s) {p : Pass τ} (hp : Right renew now s p) {n : Nat}
    (hmeets : ∀ f ∈ p.fired plus now (n + 1), f.Meets) (hloops : p.visit plus renew now (n + 1) ≠ .error .loops) :
    ∃ p', p.visit plus renew now (n + 1) = .ok p' ∧ Right renew now s p' := by
  have hi := hp.moved.intact hs
  obtain ⟨o, hdue⟩ := due_ok now hi n
  unfold Pass.visit at hloops ⊢
  unfold Pass.fired at hmeets
  rw [hdue] at hloops hmeets ⊢
  cases o with
  | none => exact ⟨p, rfl, hp⟩
  | some ax =>
    obtain ⟨a, x⟩ := ax
    obtain ⟨ha, hx⟩ := due_some now hdue
    dsimp only at hloops hmeets ⊢
    cases hr : runOps plus p.timer (p.ops x) with
    | error e =>
      obtain rfl := runOps_error plus hi hr
      rw [hr] at hloops
      exact absurd rfl hloops
    | ok r =>
      rw [hr] at hmeets
      obtain ⟨hown, hfront⟩ : Firing.Meets _ := hmeets _ (List.mem_singleton_self _)
      dsimp only at hown hfront ⊢
      have hmoved := runOps_moved plus hi hr
      have hi' := hmoved.intact hi
      obtain ⟨y, hy, hkeep⟩ := hmoved.keeps a (List.mem_of_getElem? ha) hown x hx
      have hlist := hmoved.mem.mpr ⟨.inl (List.mem_of_getElem? ha), hown⟩
      rcases settle_cases renew now (p := p.called x r)
          (n := n + 1) hy with ⟨hone, hsettle⟩ | ⟨hkeepy, y', hkeep', hset, hsettle⟩
      · have hplace := hmoved.place ha hown (hfront (hkeep.symm.trans hone))
        have hgone := hmoved.trans hi (discard_moved hi' hplace)
        rw [List.append_nil] at hgone
        have hright := hp.step renew now hs hgone
          (fun b hb => ⟨x, by rw [List.mem_singleton.mp hb, hx], hkeep.symm.trans hone⟩) [] (by simp)
          (p.called x r).calls
        rw [List.append_nil] at hright
        exact ⟨_, hsettle, hright⟩
      · have hstay := hmoved.trans hi (setHeap_moved hi' hy (hkeep'.trans hkeepy.symm))
        rw [List.append_nil] at hstay
        have hright := hp.step renew now hs hstay (by simp) [(a, y')] (fun b z hb => ?_) (p.called x r).calls
        · rw [List.append_nil] at hright
          exact ⟨_, hsettle, hright⟩
        · obtain ⟨rfl, rfl⟩ := Prod.mk.inj (List.mem_singleton.mp hb)
          exact ⟨hset, hlist, z, Function.update_self _ _ _, hkeep'⟩

/-- A function that touches the index or the pointer: the turn does not end, or a freed
element is left in the array. -/
theorem visit_broken {p p' : Pass τ} (hs : Intact p.timer) {n : Nat} (h : p.visit plus renew now (n + 1) = .ok p')
    {f : Firing τ} (hf : f ∈ p.fired plus now (n + 1)) (hmeets : ¬ f.Meets) : Broken n p'.timer := by
  rcases visit_cases plus renew now h with ⟨-, hnone⟩ | ⟨a, x, r, ha, hx, hr, hsettle, hone⟩
  · rw [hnone] at hf
    exact absurd hf List.not_mem_nil
  · rw [hone] at hf
    obtain rfl := List.mem_singleton.mp hf
    have hmoved := runOps_moved plus hs hr
    have hs' := hmoved.intact hs
    have hown : a ∉ r.purged := by
      intro hpurged
      rw [Pass.settle, Pass.called, hmoved.freed a hpurged] at hsettle
      cases hsettle
    obtain ⟨y, hy, hkeep⟩ := hmoved.keeps a (List.mem_of_getElem? ha) hown x hx
    have hfront : ∃ b ∈ p.timer.tqe.list.take n, b ∈ r.purged := by
      by_contra hno
      exact hmeets ⟨hown, fun _ b hb hpurged => hno ⟨b, hb, hpurged⟩⟩
    have hone : x.keep = false := by
      by_contra hk
      exact hmeets ⟨hown, fun hf => absurd hf hk⟩
    -- The element has moved to a place in front of `n`, and it is the one at `n` that is taken out.
    obtain ⟨i, hin, hi⟩ := hmoved.moved_up ha hown hfront
    rcases settle_cases renew now (p := p.called x r) (n := n + 1) hy with ⟨-, hdone⟩ | ⟨hkept, -⟩
    · cases hdone.symm.trans hsettle
      exact discard_broken hin hi (Function.update_self _ _ _) (hs'.below a (List.mem_of_getElem? hi)) hin.ne
    · rw [hkeep, hone] at hkept
      cases hkept

/-! ### Every pass -/

theorem walk_right {s : Tmr τ} (hs : Intact s) {p : Pass τ} (hp : Right renew now s p) {n : Nat}
    (hmeets : ∀ f ∈ p.firings plus renew now n, f.Meets) (hloops : p.walk plus renew now n ≠ .error .loops) :
    ∃ p', p.walk plus renew now n = .ok p' ∧ Right renew now s p' := by
  induction n generalizing p with
  | zero => exact ⟨p, rfl, hp⟩
  | succ n ih =>
    rw [Pass.firings] at hmeets
    rw [Pass.walk] at hloops ⊢
    obtain ⟨p₁, hvisit, hp₁⟩ := visit_right plus renew now hs hp (fun f hf => hmeets f (List.mem_append_left _ hf)) (by
      intro h
      rw [h] at hloops
      exact hloops rfl)
    rw [hvisit] at hmeets hloops ⊢
    exact ih hp₁ (fun f hf => hmeets f (List.mem_append_right _ hf)) hloops

theorem walk_meets {s : Tmr τ} (hs : Intact s) {p p' : Pass τ} (hp : Right renew now s p) {n : Nat}
    (h : p.walk plus renew now n = .ok p') : ∀ f ∈ p.firings plus renew now n, f.Meets := by
  induction n generalizing p with
  | zero => exact fun f hf => absurd hf List.not_mem_nil
  | succ n ih =>
    rw [Pass.walk] at h
    cases hvisit : p.visit plus renew now (n + 1) with
    | error e =>
      rw [hvisit] at h
      cases h
    | ok p₁ =>
      rw [hvisit] at h
      have hfired : ∀ f ∈ p.fired plus now (n + 1), f.Meets := by
        intro f hf
        by_contra hmeets
        exact walk_broken plus renew now (visit_broken plus renew now (hp.moved.intact hs) hvisit hf hmeets) p' h
      obtain ⟨p₂, hvisit', hp₁⟩ := visit_right plus renew now hs hp hfired (by
        rw [hvisit]
        exact fun hloops => nomatch hloops)
      cases hvisit.symm.trans hvisit'
      rw [Pass.firings, hvisit]
      exact List.forall_mem_append.mpr ⟨hfired, ih hp₁ h⟩

/-- **A pass does what it owes exactly when the functions leave its index and its pointer
alone.** For a timer whose array has elements that are there, once each, and for functions
that do whatever they like with the timer and return: the pass ends, comes to no freed
element, and leaves the right elements in the array, exactly when no function purges its own
element, and no function of a one-shot element purges an element in front of it. -/
theorem expiryPass_right_iff (s : Tmr τ) (hs : Intact s) (calls : List (List (Op τ)))
    (hreturn : expiryPass plus renew now s calls ≠ .error .loops) :
    (∃ p, expiryPass plus renew now s calls = .ok p ∧ Right renew now s p) ↔
      ∀ f ∈ firings plus renew now s calls, f.Meets := by
  have hstart : Right renew now s ⟨s, calls, [], [], [], []⟩ :=
      ⟨Moved.refl hs, fun a x ha => absurd ha List.not_mem_nil⟩
  constructor
  · rintro ⟨p, hp, -⟩
    exact walk_meets plus renew now hs hstart hp
  · exact fun hmeets => walk_right plus renew now hs hstart hmeets hreturn

/-- A timer with one one-shot element, which has a function and expires at 5. -/
def lone : Tmr Nat where
  id := 2001
  tqe := some ⟨arrayDefault, [0], by decide⟩
  heap a := if a = 0 then some ⟨2001, false, false, false, 5, 0, true⟩ else none
  brk := 1

theorem lone_intact : Intact lone :=
  ⟨fun a ha => by rw [List.mem_singleton.mp ha]; exact Option.some_ne_none _,
    fun a ha => by rw [List.mem_singleton.mp ha]; exact Nat.one_pos, List.nodup_singleton 0⟩

/-- Its function disables it; the pass discards it. -/
theorem lone_right :
    expiryPass (· + ·) (· + ·) 10 lone [[.disable 2001]] ≠ .error .loops ∧
      ((∃ p, expiryPass (· + ·) (· + ·) 10 lone [[.disable 2001]] = .ok p ∧ Right (· + ·) 10 lone p) ↔
        ∀ f ∈ firings (· + ·) (· + ·) 10 lone [[.disable 2001]], f.Meets) :=
  have hreturn : expiryPass (· + ·) (· + ·) 10 lone [[.disable 2001]] ≠ .error .loops := fun h => nomatch h
  ⟨hreturn, expiryPass_right_iff _ _ 10 lone lone_intact _ hreturn⟩

/-- The function of an element purges it: the pass reads the freed element. -/
theorem purge_own_not_right :
    ¬ ∃ p, expiryPass (· + ·) (· + ·) 10 lone [[.purge 2001]] = .ok p ∧ Right (· + ·) 10 lone p := by
  rintro ⟨p, hp, -⟩
  have hfreed : expiryPass (· + ·) (· + ·) 10 lone [[.purge 2001]] = .error .freed := rfl
  rw [hfreed] at hp
  cases hp

end Libc370.Timer
