import Libc370.Jes2.RecordWalk

/-! The walk over a block, and over the blocks of a chain.

The records of a block follow one another until one ends the walk, each behind the one
before it; so a block is as it was read from where the walk is, whatever the callback
does to the lines behind. What holds of a record holds of all of them, and the moves of
the records are one run of the assembly, over all blocks. -/
namespace Libc370.Jes2

variable {σ : Type}

/-- A walk has come through `blk`, which is ahead of it as it was. -/
structure Intact (blk : List UInt8) (x : Scan σ) : Prop where
  ok : x.pb.Ok
  len : x.blk.length = blk.length
  ahead : x.blk.drop x.p = blk.drop x.p

theorem Intact.start {blk : List UInt8} {x : Scan σ} (h : x.pb.Ok) : Intact blk (start blk x) :=
  ⟨⟨⟨h.buf, h.line, h.total⟩, h.has⟩, rfl, rfl⟩

/-- What is ahead of a record is ahead of the next one. -/
theorem Intact.next {blk : List UInt8} {x x' : Scan σ} (h : Intact blk x) (hok : x'.pb.Ok)
    (hlen : x'.blk.length = x.blk.length) (hp : x.p ≤ x'.p) (hahead : x'.blk.drop x'.p = x.blk.drop x'.p) :
    Intact blk x' := by
  refine ⟨hok, hlen.trans h.len, ?_⟩
  obtain ⟨k, hk⟩ := Nat.exists_eq_add_of_le hp
  rw [hahead, hk, ← List.drop_drop, ← List.drop_drop, h.ahead]

/-- The moves of some records. -/
def moves (xs : List (Scan σ)) : List (Bool × Assembly UInt8) := xs.map fun x => (opens x, x.view)

/-- A walk that has come to a result: it has made the moves of its records. -/
structure Walked (x : Scan σ) (xs : List (Scan σ)) (rc : Int) (x' : Scan σ) : Prop where
  ends : rc = 0 ∨ rc = -1
  ok : x'.pb.Ok
  run : x.view.Run (moves xs) (x'.endView rc)

/-- One turn of the loop of `__jesprb()`. -/
theorem recordTurn_step (emit : Emit σ) (calloc : Nat → Bool) (blk : List UInt8) {x : Scan σ} (h : Intact blk x) :
    (∃ x', recordTurn emit calloc x = .again x' ∧ Intact blk x' ∧ blk.length - x'.p < blk.length - x.p ∧
        x.view.Moves (opens x) x'.view) ∨
      ∃ rc x', recordTurn emit calloc x = .leave (some (rc, x')) ∧ x'.blk.length = blk.length ∧ Walked x [x] rc x' := by
  obtain ⟨t, ht, hfollows⟩ := record_follows emit calloc h.ok
  unfold recordTurn
  rw [ht]
  cases hfollows with
  | @again x' len room p ahead ok moves =>
    have hlen := h.len
    exact .inl ⟨x', rfl, h.next ok len (by omega) ahead, by omega, moves⟩
  | @leave rc x' len ok ends moves => exact .inr ⟨rc, x', rfl, len.trans h.len, ends, ok, .one moves⟩

/-- **The walk over a block** comes to a result, at every record inside a block that is
ahead as it was read. -/
theorem jesprb_spec (emit : Emit σ) (calloc : Nat → Bool) (blk : List UInt8) {x : Scan σ} (h : x.pb.Ok) :
    (∃ rc x', jesprb emit calloc blk x = some (rc, x') ∧ x'.blk.length = blk.length ∧
        Walked x (recordStates emit calloc blk x) rc x') ∧
      ∀ y ∈ recordStates emit calloc blk x, Intact blk y := by
  have hstep : ∀ n y, n = blk.length - y.p ∧ Intact blk y →
      (∃ y' m, recordTurn emit calloc y = .again y' ∧ m < n ∧ (m = blk.length - y'.p ∧ Intact blk y') ∧
        ∀ ys r, ((∃ rc x', r = some (rc, x') ∧ x'.blk.length = blk.length ∧ Walked y' ys rc x') ∧
            ∀ z ∈ ys, Intact blk z) →
          (∃ rc x', r = some (rc, x') ∧ x'.blk.length = blk.length ∧ Walked y (y :: ys) rc x') ∧
            ∀ z ∈ y :: ys, Intact blk z) ∨
      ∃ r, recordTurn emit calloc y = .leave r ∧
        (∃ rc x', r = some (rc, x') ∧ x'.blk.length = blk.length ∧ Walked y [y] rc x') ∧ ∀ z ∈ [y], Intact blk z := by
    rintro n y ⟨rfl, hy⟩
    rcases recordTurn_step emit calloc blk hy with ⟨y', hturn, hy', hless, hmoves⟩ | ⟨rc, x', hturn, hlen, hwalked⟩
    · refine .inl ⟨y', _, hturn, hless, ⟨rfl, hy'⟩, ?_⟩
      rintro ys r ⟨⟨rc, x', hr, hlen, hwalked⟩, hys⟩
      refine ⟨⟨rc, x', hr, hlen, hwalked.ends, hwalked.ok, ?_⟩, List.forall_mem_cons.mpr ⟨hy, hys⟩⟩
      exact .cons hmoves hwalked.run
    · exact .inr ⟨_, hturn, ⟨rc, x', rfl, hlen, hwalked⟩, List.forall_mem_singleton.mpr hy⟩
  obtain ⟨⟨rc, x', hrun, hlen, hwalked⟩, hintact⟩ :=
    Loop.run_history _ _ hstep ⟨rfl, .start h⟩ (show blk.length - 10 < blk.length + 1 by omega)
  exact ⟨⟨rc, x', hrun, hlen, hwalked.ends, hwalked.ok, hwalked.run⟩, hintact⟩

/-- The walk over the blocks of a chain is one run, at every record within its bounds. -/
theorem jesprbChain_spec (emit : Emit σ) (calloc : Nat → Bool) (blocks : List (List UInt8)) {x : Scan σ}
    (h : x.pb.Ok) :
    (∃ rc x', jesprbChain emit calloc blocks x = some (rc, x') ∧ Walked x (chainStates emit calloc blocks x) rc x') ∧
      ∀ y ∈ chainStates emit calloc blocks x, y.pb.Ok := by
  induction blocks generalizing x with
  | nil =>
    refine ⟨⟨0, x, rfl, .inl rfl, h, ?_⟩, by simp [chainStates]⟩
    rw [endView_zero]
    exact .nil _
  | cons blk rest ih =>
    obtain ⟨⟨rc, x', hrun, -, hwalked⟩, hintact⟩ := jesprb_spec emit calloc blk h
    rcases hwalked.ends with rfl | rfl
    · obtain ⟨⟨rc', x'', hrest, hwalked'⟩, hall⟩ := ih hwalked.ok
      have hstates : chainStates emit calloc (blk :: rest) x =
          recordStates emit calloc blk x ++ chainStates emit calloc rest x' := by
        rw [chainStates, hrun]
        rfl
      have hfirst := hwalked.run
      rw [endView_zero] at hfirst
      rw [hstates]
      refine ⟨⟨rc', x'', ?_, hwalked'.ends, hwalked'.ok, ?_⟩, ?_⟩
      · rw [jesprbChain, hrun]
        exact hrest
      · rw [moves, List.map_append]
        exact hfirst.append hwalked'.run
      · intro y hy
        rcases List.mem_append.mp hy with hy | hy
        · exact (hintact y hy).ok
        · exact hall y hy
    · have hstates : chainStates emit calloc (blk :: rest) x = recordStates emit calloc blk x := by
        rw [chainStates, hrun]
        exact List.append_nil _
      rw [hstates]
      refine ⟨⟨-1, x', ?_, .inr rfl, hwalked.ok, hwalked.run⟩, fun y hy => (hintact y hy).ok⟩
      rw [jesprbChain, hrun]
      rfl

/-- A walk before its first block: `JESPRB` is zeroed. -/
def fresh (s : σ) : Scan σ := { blk := [], p := 0, pb := {}, s }

theorem fresh_ok (s : σ) : (fresh s).pb.Ok := ⟨⟨by simp [fresh], by simp [fresh], by simp [fresh]⟩, by simp [fresh]⟩

/-- **Any bytes can be walked.** Over the successive blocks of any chain, with any
callback, `__jesprb()` terminates, having read inside the blocks and written inside the
buffer only; at every record and in the end an open line is within what was announced
for it, which is within the buffer. -/
theorem jesprbChain_safe (emit : Emit σ) (calloc : Nat → Bool) (blocks : List (List UInt8)) (s : σ) :
    (∃ rc x', jesprbChain emit calloc blocks (fresh s) = some (rc, x') ∧ x'.pb.Ok) ∧
      ∀ y ∈ chainStates emit calloc blocks (fresh s), y.pb.Ok := by
  obtain ⟨⟨rc, x', hrun, hwalked⟩, hstates⟩ := jesprbChain_spec emit calloc blocks (fresh_ok s)
  exact ⟨⟨rc, x', hrun, hwalked.ok⟩, hstates⟩

end Libc370.Jes2
