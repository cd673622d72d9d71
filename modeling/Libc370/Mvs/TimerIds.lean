import Libc370.Lib.Runs
import Libc370.Mvs.Timer

/-! The ids of the timer's elements, in every interleaving.

`tmr_func()` takes the timer's lock twice: `tmr_id()` chooses an id that no element in the
array has, and a later section puts the element there. Between the two, other tasks add
elements, and purges and expiries take some away. So what an element's id was checked
against is the array as it was when the id was chosen (`seen`); an element that came into
the array since then may have the same one. -/
namespace Libc370.Timer

open Ext

variable {τ : Type*}

abbrev Task := Nat

/-- The timer, and for each task the element it has made and not yet put into the array.
`seen`, which decides nothing, is the array when the element's id was chosen. -/
structure System (τ : Type*) where
  timer : Tmr τ
  made : Task → Option (Addr × List Addr)

/-- A section under the timer's lock. -/
inductive Move (τ : Type*)
  | tqeNew (t : Task) (q : Request τ)
  | queue (t : Task) (room : Bool)
  | purge (id : UInt32)
  | reset (id : UInt32) (bintvl : Nat) (clock : τ)
  | enable (id : UInt32) (clock : τ)
  | disable (id : UInt32)
  | expire (index : Nat)

/-- A fired element is discarded. -/
def discard (s : Tmr τ) (index : Nat) : Option (Tmr τ) :=
  (arrayget s.tqe index).map (fun a => (s.free a).del index)

def next (plus : τ → Nat → τ) (s : System τ) : Move τ → Option (System τ)
  | .tqeNew t q =>
    match s.made t with
    | some _ => none
    | none => (tqeNew plus s.timer q).toOption.map (fun r => ⟨r.2,
        Function.update s.made t (r.1.map (·, s.timer.tqe.list))⟩)
  | .queue t room =>
    match s.made t with
    | none => none
    | some (a, _) => some ⟨queue s.timer a room, Function.update s.made t none⟩
  | .purge id => (tqePurge s.timer id).toOption.map (fun r => {s with timer := r})
  | .reset id bintvl clock => (tqeReset plus s.timer id bintvl clock).toOption.map (fun r => {s with timer := r})
  | .enable id clock => (tqeEnable plus s.timer id clock).toOption.map (fun r => {s with timer := r})
  | .disable id => (tqeDisable s.timer id).toOption.map (fun r => {s with timer := r})
  | .expire index => (discard s.timer index).map (fun r => {s with timer := r})

/-- No element yet; `id` is what `tmr_init()` made of `rand()`. -/
def start (id : UInt32) : System τ := ⟨⟨id, .null, fun _ => none, 0⟩, fun _ => none⟩

/-- The id of the element at an address. -/
def Tmr.idAt (s : Tmr τ) (a : Addr) : Option UInt32 := (s.heap a).map Tqe.id

/-- The ids in the array are pairwise distinct, and looking for an element's id finds it. -/
structure Distinct (s : Tmr τ) : Prop where
  nodup : (s.tqe.list.map s.idAt).Nodup
  reaches : ∀ i a x, s.tqe.list[i]? = some a → s.heap a = some x → find s.heap x.id s.tqe.list = .ok (some i)

/-- A step meets the condition: an element is put into the array only if none that came
there since its id was chosen has the same id. -/
def Meets (s : System τ) : Move τ → Prop
  | .queue t room => ∀ a seen, s.made t = some (a, seen) → (arrayadd room s.timer.tqe a).1 = 0 →
      ∀ b ∈ s.timer.tqe.list, b ∉ seen → s.timer.idAt b ≠ s.timer.idAt a
  | _ => True

/-- Among distinct ids, looking for one finds the element that has it. -/
theorem find_nodup {heap : Addr → Option (Tqe τ)} {l : List Addr} (h : (l.map (fun a => (heap a).map Tqe.id)).Nodup)
    (hlive : ∀ a ∈ l, heap a ≠ none) {i : Nat} {a : Addr} {x : Tqe τ} (hi : l[i]? = some a) (hx : heap a = some x) :
    find heap x.id l = .ok (some i) := by
  induction l generalizing i with
  | nil => cases hi
  | cons b rest ih =>
    rw [List.map_cons, List.nodup_cons] at h
    obtain ⟨hnot, hrest⟩ := h
    obtain ⟨y, hy⟩ := Option.ne_none_iff_exists'.mp (hlive b List.mem_cons_self)
    rw [find, hy]
    dsimp only
    cases i with
    | zero =>
      obtain rfl : b = a := by simpa using hi
      obtain rfl := Option.some.inj (hy.symm.trans hx)
      rw [if_pos rfl]
    | succ i =>
      have hi' : rest[i]? = some a := by simpa using hi
      have hne : y.id ≠ x.id := by
        intro hid
        refine hnot (List.mem_map.mpr ⟨a, List.mem_of_getElem? hi', ?_⟩)
        rw [hx, hy, Option.map_some, Option.map_some, hid]
      rw [if_neg hne, ih hrest (fun a ha => hlive a (List.mem_cons_of_mem _ ha)) hi']
      rfl

theorem of_toOption {α : Type*} {x : Except Stop α} {y : α} (h : x.toOption = some y) : x = .ok y := by
  cases x with
  | error e => cases h
  | ok z => exact congrArg _ (Option.some.inj h)

/-! ### The invariant -/

/-- The array of the timer: its elements are there, once each, with distinct ids. -/
structure Sound (s : Tmr τ) : Prop where
  live : ∀ a ∈ s.tqe.list, s.heap a ≠ none
  below : ∀ a, s.heap a ≠ none → a < s.brk
  once : s.tqe.list.Nodup
  ids : (s.tqe.list.map s.idAt).Nodup

/-- An element that is made and not queued has an id that none of the elements it was
checked against has. -/
structure Pending (s : Tmr τ) (a : Addr) (seen : List Addr) : Prop where
  live : s.heap a ≠ none
  out : a ∉ s.tqe.list
  checked : ∀ b ∈ s.tqe.list, b ∈ seen → s.idAt b ≠ s.idAt a
  old : ∀ b ∈ seen, b < s.brk

structure Inv (s : System τ) : Prop where
  sound : Sound s.timer
  pending : ∀ t a seen, s.made t = some (a, seen) → Pending s.timer a seen
  apart : ∀ t t' a seen seen', s.made t = some (a, seen) → s.made t' = some (a, seen') → t = t'
  unseen : ∀ t t' a a' seen seen', s.made t = some (a, seen) → s.made t' = some (a', seen') → a ∉ seen'

theorem Sound.distinct {s : Tmr τ} (h : Sound s) : Distinct s :=
  ⟨h.ids, fun _ _ _ hi hx => find_nodup h.ids h.live hi hx⟩

/-- What removes elements and frees them, and changes nothing of the ids of the others, keeps
the array as it has to be. -/
theorem Sound.shrink {s s' : Tmr τ} (h : Sound s) (hlist : s'.tqe.list.Sublist s.tqe.list)
    (hids : ∀ a, s'.heap a ≠ none → s'.idAt a = s.idAt a ∧ s.heap a ≠ none)
    (hlive : ∀ a ∈ s'.tqe.list, s'.heap a ≠ none)
    (hbrk : s'.brk = s.brk) : Sound s' := by
  refine ⟨hlive, fun a ha => ?_, h.once.sublist hlist, ?_⟩
  · rw [hbrk]
    exact h.below a (hids a ha).2
  · have hmap : s'.tqe.list.map s'.idAt = s'.tqe.list.map s.idAt :=
      List.map_congr_left (fun a ha => (hids a (hlive a ha)).1)
    rw [hmap]
    exact h.ids.sublist (hlist.map s.idAt)

theorem Pending.shrink {s s' : Tmr τ} {a : Addr} {seen : List Addr} (h : Pending s a seen)
    (hlist : s'.tqe.list.Sublist s.tqe.list) (hids : ∀ b, s'.heap b ≠ none → s'.idAt b = s.idAt b ∧ s.heap b ≠ none)
    (hlive : ∀ b ∈ s'.tqe.list, s'.heap b ≠ none) (hbrk : s'.brk = s.brk) (ha : s'.heap a ≠ none) :
    Pending s' a seen := by
  refine ⟨ha, fun hmem => h.out (hlist.subset hmem), fun b hb hseen => ?_, fun b hb => ?_⟩
  · rw [(hids b (hlive b hb)).1, (hids a ha).1]
    exact h.checked b (hlist.subset hb) hseen
  · rw [hbrk]
    exact h.old b hb

/-- A step that removes elements and frees them, or changes them but for their ids, and makes
none. -/
theorem Inv.shrink {s s' : System τ} (h : Inv s) (hmade : ∀ t x, s'.made t = some x → s.made t = some x)
    (hlist : s'.timer.tqe.list.Sublist s.timer.tqe.list)
    (hids : ∀ a, s'.timer.heap a ≠ none → s'.timer.idAt a = s.timer.idAt a ∧ s.timer.heap a ≠ none)
    (hlive : ∀ a ∈ s'.timer.tqe.list, s'.timer.heap a ≠ none) (hbrk : s'.timer.brk = s.timer.brk)
    (hkept : ∀ t a seen, s'.made t = some (a, seen) → s'.timer.heap a ≠ none) : Inv s' := by
  refine ⟨h.sound.shrink hlist hids hlive hbrk, fun t a seen ha => ?_, fun t t' a seen seen' ha ha' => ?_,
    fun t t' a a' seen seen' ha ha' => ?_⟩
  · exact (h.pending t a seen (hmade t _ ha)).shrink hlist hids hlive hbrk (hkept t a seen ha)
  · exact h.apart t t' a seen seen' (hmade t _ ha) (hmade t' _ ha')
  · exact h.unseen t t' a a' seen seen' (hmade t _ ha) (hmade t' _ ha')

/-- An element that is in the array is taken out of it, and freed. -/
theorem Inv.remove {s : System τ} {r : Tmr τ} (h : Inv s) {i : Nat} {a : Addr} (hi : s.timer.tqe.list[i]? = some a)
    (hlist : r.tqe.list = s.timer.tqe.list.eraseIdx i) (hheap : r.heap = Function.update s.timer.heap a none)
    (hbrk : r.brk = s.timer.brk) : Inv {s with timer := r} := by
  have hother : ∀ b, b ≠ a → r.heap b = s.timer.heap b := by
    intro b hb
    rw [hheap, Function.update_of_ne hb]
  have hself : r.heap a = none := by rw [hheap, Function.update_self]
  have hgone : a ∉ r.tqe.list := by
    rw [hlist]
    obtain ⟨hlt, rfl⟩ := List.getElem?_eq_some_iff.mp hi
    intro hmem
    obtain ⟨j, hj, hne, heq⟩ := List.mem_eraseIdx_iff_getElem.mp hmem
    exact hne ((List.Nodup.getElem_inj_iff h.sound.once).mp heq)
  refine h.shrink (fun _ _ hx => hx) ?_ (fun b hb => ?_) (fun b hb => ?_) hbrk (fun t b seen hmade => ?_)
  · show r.tqe.list.Sublist _
    rw [hlist]
    exact List.eraseIdx_sublist _ i
  · have hne : b ≠ a := by
      rintro rfl
      exact hb hself
    have hb' : r.heap b ≠ none := hb
    rw [hother b hne] at hb'
    exact ⟨congrArg (Option.map Tqe.id) (hother b hne), hb'⟩
  · have hne : b ≠ a := by
      rintro rfl
      exact hgone hb
    have hb' : b ∈ r.tqe.list := hb
    rw [hlist] at hb'
    show r.heap b ≠ none
    rw [hother b hne]
    exact h.sound.live b (List.mem_of_mem_eraseIdx hb')
  · have hpending := h.pending t b seen hmade
    have hne : b ≠ a := by
      rintro rfl
      exact hpending.out (List.mem_of_getElem? hi)
    show r.heap b ≠ none
    rw [hother b hne]
    exact hpending.live

/-- An element is changed, but for its id. -/
theorem Inv.change {s : System τ} {r : Tmr τ} (h : Inv s) {f : Tqe τ → Tqe τ} (hf : ∀ x, (f x).id = x.id) {id : UInt32}
    (hr : Timer.change f s.timer id = .ok r) : Inv {s with timer := r} := by
  unfold Timer.change at hr
  split at hr
  · cases hr
  · obtain rfl := Except.ok.inj hr
    exact h
  · next a x hlookup =>
      obtain ⟨-, hx, -⟩ := lookup_some hlookup
      obtain rfl := Except.ok.inj hr
      have hids : ∀ b, (s.timer.setHeap a (some (f x))).idAt b = s.timer.idAt b := by
        intro b
        by_cases hb : b = a
        · subst hb
          simp [Tmr.idAt, Tmr.setHeap, hx, hf]
        · simp [Tmr.idAt, Tmr.setHeap, Function.update_of_ne hb]
      have hlive : ∀ b, s.timer.heap b ≠ none → (s.timer.setHeap a (some (f x))).heap b ≠ none := by
        intro b hb
        by_cases hba : b = a
        · subst hba
          simp [Tmr.setHeap]
        · simpa [Tmr.setHeap, Function.update_of_ne hba] using hb
      refine h.shrink (fun _ _ hx => hx) (List.Sublist.refl _) (fun b hb => ⟨hids b, ?_⟩)
        (fun b hb => hlive b (h.sound.live b hb))
        rfl (fun t b seen hmade => hlive b (h.pending t b seen hmade).live)
      by_cases hba : b = a
      · rw [hba, hx]
        simp
      · simpa [Tmr.setHeap, Function.update_of_ne hba] using hb

/-- A task makes an element: its id is none of those in the array. -/
theorem Inv.tqeNew {s : System τ} (h : Inv s) {plus : τ → Nat → τ} {t : Task} (ht : s.made t = none) {q : Request τ}
    {o : Option Addr} {r : Tmr τ} (hr : Timer.tqeNew plus s.timer q = .ok (o, r)) :
    Inv ⟨r, Function.update s.made t (o.map (·, s.timer.tqe.list))⟩ := by
  unfold Timer.tqeNew at hr
  split_ifs at hr with halloc
  · split at hr
    · cases hr
    · next id s' hid =>
      obtain ⟨rfl, hfind⟩ := tmrId_spec hid
      obtain ⟨rfl, rfl⟩ := Prod.mk.inj (Except.ok.inj hr)
      have hnew : s.timer.heap s.timer.brk = none := by
        by_contra hne
        exact lt_irrefl _ (h.sound.below _ hne)
      have hold : ∀ b, s.timer.heap b ≠ none → b ≠ s.timer.brk := by
        rintro b hb rfl
        exact hb hnew
      have hout : s.timer.brk ∉ s.timer.tqe.list := fun hmem => h.sound.live _ hmem hnew
      have hlist : ∀ b ∈ s.timer.tqe.list, b ≠ s.timer.brk := fun b hb => hold b (h.sound.live b hb)
      generalize hx : (⟨id, q.keep, q.reset, false, plus q.clock q.bintvl, q.bintvl, q.func⟩ : Tqe τ) = x
      have hself : Function.update s.timer.heap s.timer.brk (some x) s.timer.brk = some x := Function.update_self ..
      have hother : ∀ b, b ≠ s.timer.brk → Function.update s.timer.heap s.timer.brk (some x) b = s.timer.heap b :=
        fun b hb => Function.update_of_ne hb ..
      have hmade : ∀ t' a seen, t' ≠ t → Function.update s.made t (some (s.timer.brk, s.timer.tqe.list)) t' = some (a,
          seen) →
          s.made t' = some (a, seen) := by
        intro t' a seen ht' ha
        rwa [Function.update_of_ne ht'] at ha
      have hmine : ∀ a seen, Function.update s.made t (some (s.timer.brk, s.timer.tqe.list)) t = some (a, seen) →
          a = s.timer.brk ∧ seen = s.timer.tqe.list := by
        intro a seen ha
        rw [Function.update_self] at ha
        obtain ⟨rfl, rfl⟩ := Prod.mk.inj (Option.some.inj ha)
        exact ⟨rfl, rfl⟩
      refine ⟨⟨fun b hb => ?_, fun b hb => ?_, h.sound.once, ?_⟩, fun t' a seen ha => ?_,
        fun t' t'' a seen seen' ha ha' => ?_,
        fun t' t'' a a' seen seen' ha ha' => ?_⟩
      · show Function.update s.timer.heap s.timer.brk (some x) b ≠ none
        rw [hother b (hlist b hb)]
        exact h.sound.live b hb
      · show b < s.timer.brk + 1
        by_cases hb' : b = s.timer.brk
        · exact Nat.lt_succ_of_le hb'.le
        · have hlive : Function.update s.timer.heap s.timer.brk (some x) b ≠ none := hb
          rw [hother b hb'] at hlive
          exact Nat.lt_succ_of_lt (h.sound.below b hlive)
      · refine (List.map_congr_left (fun b hb => ?_)).symm ▸ h.sound.ids
        exact congrArg (Option.map Tqe.id) (hother b (hlist b hb))
      · by_cases ht' : t' = t
        · subst ht'
          obtain ⟨rfl, rfl⟩ := hmine a seen ha
          refine ⟨by show Function.update s.timer.heap s.timer.brk (some x) s.timer.brk ≠ none; rw [hself]; simp,
            hout, fun b hb _ => ?_, fun b hb => ?_⟩
          · obtain ⟨y, hy, hne⟩ := find_none hfind b hb
            show (Function.update s.timer.heap s.timer.brk (some x) b).map Tqe.id ≠
              (Function.update s.timer.heap s.timer.brk (some x) s.timer.brk).map Tqe.id
            rw [hother b (hlist b hb), hself, ← hx]
            have hy' : s.timer.heap b = some y := hy
            rw [hy']
            exact fun hid => hne (Option.some.inj hid)
          · exact Nat.lt_succ_of_lt (h.sound.below b (h.sound.live b hb))
        · have hpending := h.pending t' a seen (hmade t' a seen ht' ha)
          have hne := hold a hpending.live
          refine ⟨?_, hpending.out, fun b hb hseen => ?_, fun b hb => Nat.lt_succ_of_lt (hpending.old b hb)⟩
          · show Function.update s.timer.heap s.timer.brk (some x) a ≠ none
            rw [hother a hne]
            exact hpending.live
          · show (Function.update s.timer.heap s.timer.brk (some x) b).map Tqe.id ≠
              (Function.update s.timer.heap s.timer.brk (some x) a).map Tqe.id
            rw [hother b (hlist b hb), hother a hne]
            exact hpending.checked b hb hseen
      · by_cases ht' : t' = t <;> by_cases ht'' : t'' = t
        · rw [ht', ht'']
        · subst ht'
          have hpending := h.pending t'' a seen' (hmade t'' a seen' ht'' ha')
          exact absurd (hmine a seen ha).1 (hold a hpending.live)
        · subst ht''
          have hpending := h.pending t' a seen (hmade t' a seen ht' ha)
          exact absurd (hmine a seen' ha').1 (hold a hpending.live)
        · exact h.apart t' t'' a seen seen' (hmade t' a seen ht' ha) (hmade t'' a seen' ht'' ha')
      · by_cases ht' : t' = t <;> by_cases ht'' : t'' = t
        · subst ht'
          subst ht''
          rw [(hmine a seen ha).1, (hmine a' seen' ha').2]
          exact hout
        · subst ht'
          rw [(hmine a seen ha).1]
          exact fun hmem => lt_irrefl _ ((h.pending t'' a' seen' (hmade t'' a' seen' ht'' ha')).old _ hmem)
        · subst ht''
          rw [(hmine a' seen' ha').2]
          exact (h.pending t' a seen (hmade t' a seen ht' ha)).out
        · exact h.unseen t' t'' a a' seen seen' (hmade t' a seen ht' ha) (hmade t'' a' seen' ht'' ha')
  · obtain ⟨rfl, rfl⟩ := Prod.mk.inj (Except.ok.inj hr)
    have hsame : Function.update s.made t ((none : Option Addr).map (·, s.timer.tqe.list)) = s.made := by
      rw [Option.map_none, ← ht, Function.update_eq_self]
    rw [hsame]
    exact h

/-- A task queues its element, or frees it. -/
theorem Inv.queue {s : System τ} (h : Inv s) {t : Task} {a : Addr} {seen : List Addr} (ht : s.made t = some (a, seen))
    (room : Bool)
    (hm : (arrayadd room s.timer.tqe a).1 = 0 → ∀ b ∈ s.timer.tqe.list, b ∉ seen → s.timer.idAt b ≠ s.timer.idAt a) :
    Inv ⟨Timer.queue s.timer a room, Function.update s.made t none⟩ := by
  have hpending := h.pending t a seen ht
  have hmade : ∀ t' x, Function.update s.made t none t' = some x → t' ≠ t ∧ s.made t' = some x := by
    intro t' x hx
    by_cases ht' : t' = t
    · subst ht'
      rw [Function.update_self] at hx
      cases hx
    · rw [Function.update_of_ne ht'] at hx
      exact ⟨ht', hx⟩
  rcases arrayadd_cases room s.timer.tqe a with ⟨hrc, hlist⟩ | ⟨-, hrc, -⟩
  · have hqueue : Timer.queue s.timer a room = {s.timer with tqe := (arrayadd room s.timer.tqe a).2} := if_pos hrc
    rw [hqueue]
    refine ⟨⟨fun b hb => ?_, h.sound.below, ?_, ?_⟩, fun t' a' seen' ha' => ?_,
      fun t' t'' a' seen' seen'' ha' ha'' => ?_,
      fun t' t'' a' a'' seen' seen'' ha' ha'' => ?_⟩
    · have hb' : b ∈ (arrayadd room s.timer.tqe a).2.list := hb
      rw [hlist, List.mem_append, List.mem_singleton] at hb'
      rcases hb' with hb' | rfl
      · exact h.sound.live b hb'
      · exact hpending.live
    · show (arrayadd room s.timer.tqe a).2.list.Nodup
      rw [hlist, ← List.concat_eq_append]
      exact h.sound.once.concat hpending.out
    · show ((arrayadd room s.timer.tqe a).2.list.map s.timer.idAt).Nodup
      rw [hlist, List.map_append, List.map_singleton, ← List.concat_eq_append]
      refine h.sound.ids.concat (fun hmem => ?_)
      obtain ⟨b, hb, hid⟩ := List.mem_map.mp hmem
      by_cases hseen : b ∈ seen
      · exact hpending.checked b hb hseen hid
      · exact hm hrc b hb hseen hid
    · obtain ⟨ht', hmade'⟩ := hmade t' _ ha'
      have hpending' := h.pending t' a' seen' hmade'
      refine ⟨hpending'.live, ?_, fun b hb hseen => ?_, hpending'.old⟩
      · show a' ∉ (arrayadd room s.timer.tqe a).2.list
        rw [hlist, List.mem_append, List.mem_singleton]
        rintro (hmem | rfl)
        · exact hpending'.out hmem
        · exact ht' (h.apart t' t a' seen' seen hmade' ht)
      · have hb' : b ∈ (arrayadd room s.timer.tqe a).2.list := hb
        rw [hlist, List.mem_append, List.mem_singleton] at hb'
        rcases hb' with hb' | rfl
        · exact hpending'.checked b hb' hseen
        · exact absurd hseen (h.unseen t t' b a' seen seen' ht hmade')
    · exact h.apart t' t'' a' seen' seen'' (hmade t' _ ha').2 (hmade t'' _ ha'').2
    · exact h.unseen t' t'' a' a'' seen' seen'' (hmade t' _ ha').2 (hmade t'' _ ha'').2
  · have hqueue : Timer.queue s.timer a room = s.timer.free a := by
      unfold Timer.queue
      dsimp only
      rw [if_neg (by rw [hrc]; decide)]
    rw [hqueue]
    have hother : ∀ b, b ≠ a → (s.timer.free a).heap b = s.timer.heap b := fun b hb => Function.update_of_ne hb ..
    have hself : (s.timer.free a).heap a = none := Function.update_self ..
    refine h.shrink (fun t' x hx => (hmade t' x hx).2) (List.Sublist.refl _) (fun b hb => ?_) (fun b hb => ?_) rfl
      (fun t' b seen' hb => ?_)
    · have hne : b ≠ a := by
        rintro rfl
        exact hb hself
      have hb' : (s.timer.free a).heap b ≠ none := hb
      rw [hother b hne] at hb'
      exact ⟨congrArg (Option.map Tqe.id) (hother b hne), hb'⟩
    · have hne : b ≠ a := by
        rintro rfl
        exact hpending.out hb
      show (s.timer.free a).heap b ≠ none
      rw [hother b hne]
      exact h.sound.live b hb
    · obtain ⟨ht', hmade'⟩ := hmade t' _ hb
      have hne : b ≠ a := by
        rintro rfl
        exact ht' (h.apart t' t b seen' seen hmade' ht)
      show (s.timer.free a).heap b ≠ none
      rw [hother b hne]
      exact (h.pending t' b seen' hmade').live

/-- **A step that meets the condition keeps the invariant.** -/
theorem next_inv {plus : τ → Nat → τ} {s s' : System τ} {i : Move τ} (h : Inv s) (hn : next plus s i = some s')
    (hm : Meets s i) : Inv s' := by
  cases i with
  | tqeNew t q =>
    rw [next] at hn
    cases ht : s.made t with
    | some x =>
      rw [ht] at hn
      cases hn
    | none =>
      rw [ht] at hn
      obtain ⟨⟨o, r⟩, hr, rfl⟩ := Option.map_eq_some_iff.mp hn
      exact h.tqeNew ht (of_toOption hr)
  | queue t room =>
    rw [next] at hn
    cases ht : s.made t with
    | none =>
      rw [ht] at hn
      cases hn
    | some x =>
      obtain ⟨a, seen⟩ := x
      rw [ht] at hn
      obtain rfl := Option.some.inj hn
      exact h.queue ht room (hm a seen ht)
  | purge id =>
    obtain ⟨r, hr, rfl⟩ := Option.map_eq_some_iff.mp hn
    have hr := of_toOption hr
    unfold tqePurge at hr
    split at hr
    · cases hr
    · obtain rfl := Except.ok.inj hr
      exact h
    · next i a x hlookup =>
      obtain rfl := Except.ok.inj hr
      exact h.remove (lookup_some hlookup).1 (arraydel_list s.timer.tqe (Nat.succ_pos i)).2 rfl rfl
  | reset id bintvl clock =>
    obtain ⟨r, hr, rfl⟩ := Option.map_eq_some_iff.mp hn
    refine h.change (fun x => ?_) (of_toOption hr)
    dsimp only
    split <;> rfl
  | enable id clock =>
    obtain ⟨r, hr, rfl⟩ := Option.map_eq_some_iff.mp hn
    refine h.change (fun x => ?_) (of_toOption hr)
    dsimp only
    split <;> rfl
  | disable id =>
    obtain ⟨r, hr, rfl⟩ := Option.map_eq_some_iff.mp hn
    exact @Inv.change _ s r h (fun x => {x with disabled := true}) (fun _ => rfl) id (of_toOption hr)
  | expire index =>
    obtain ⟨r, hr, rfl⟩ := Option.map_eq_some_iff.mp hn
    obtain ⟨a, ha, rfl⟩ := Option.map_eq_some_iff.mp hr
    have hpos : 0 < index := by
      by_contra hzero
      rw [arrayget, if_neg (fun hin => hzero hin.1)] at ha
      cases ha
    rw [arrayget_eq _ hpos] at ha
    exact h.remove ha (arraydel_list s.timer.tqe hpos).2 rfl rfl

/-- A step that does not meet the condition puts an id into the array a second time. -/
theorem next_breaks {plus : τ → Nat → τ} {s s' : System τ} {i : Move τ} (hn : next plus s i = some s')
    (hm : ¬ Meets s i) :
    ¬ Distinct s'.timer := by
  cases i with
  | queue t room =>
    unfold Meets at hm
    push Not at hm
    obtain ⟨a, seen, ht, hrc, b, hb, -, hid⟩ := hm
    rw [next, ht] at hn
    obtain rfl := Option.some.inj hn
    have hlist : (arrayadd room s.timer.tqe a).2.list = s.timer.tqe.list ++ [a] := by
      rcases arrayadd_cases room s.timer.tqe a with ⟨-, hlist⟩ | ⟨-, hrc', -⟩
      · exact hlist
      · rw [hrc] at hrc'
        cases hrc'
    have hqueue : Timer.queue s.timer a room = {s.timer with tqe := (arrayadd room s.timer.tqe a).2} := if_pos hrc
    intro hdistinct
    have hnodup := hdistinct.nodup
    dsimp only at hnodup
    rw [hqueue] at hnodup
    have hnodup' : ((arrayadd room s.timer.tqe a).2.list.map s.timer.idAt).Nodup := hnodup
    rw [hlist, List.map_append, List.nodup_append] at hnodup'
    exact hnodup'.2.2 _ (List.mem_map_of_mem hb) _ List.mem_cons_self hid
  | _ => exact absurd trivial hm

theorem start_inv (id : UInt32) : Inv (start id : System τ) :=
  ⟨⟨fun _ hb => absurd hb List.not_mem_nil, fun _ hb => absurd rfl hb, List.nodup_nil, List.nodup_nil⟩,
    (fun _ _ _ ha => nomatch ha), (fun _ _ _ _ _ ha => nomatch ha), (fun _ _ _ _ _ _ ha => nomatch ha)⟩

/-- **The ids in the array are distinct in all states of a run exactly when no element is put
there under the id of one that came there since its own was chosen.** -/
theorem ids_distinct_iff (plus : τ → Nat → τ) (id : UInt32) (moves : List (Move τ)) :
    (∀ s ∈ Runs.states (next plus) (start id) moves, Distinct s.timer) ↔
      ∀ v ∈ Runs.visits (next plus) (start id) moves, Meets v.1 v.2 :=
  Runs.always_iff (fun _ h => h.sound.distinct) (fun _ _ _ h hn hm => next_inv h hn hm)
    (fun _ _ _ _ hn hm => next_breaks hn hm) (start_inv id) moves

/-- A request for a one-shot element, with these values of `rand()`. -/
def request (r r' : Rand) : Request Nat := ⟨false, false, true, 100, 0, [(r, r')], true, true⟩

/-- Two tasks choose the same id before either has put its element into the array. -/
def sameId : List (Move Nat) :=
  [.tqeNew 1 (request 1 2000), .tqeNew 2 (request 4 4), .queue 1 true, .queue 2 true]

theorem same_id_not_distinct : ¬ ∀ s ∈ Runs.states (next (· + ·)) (start 0) sameId, Distinct s.timer := by
  intro h
  have hnodup := (h _ (Runs.final_mem_states (start 0) sameId)).nodup
  exact absurd hnodup (by decide +kernel)

end Libc370.Timer
