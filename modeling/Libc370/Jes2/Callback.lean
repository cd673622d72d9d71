import Libc370.Jes2.BlockWalk

/-! The state of a callback.

A walk changes the state of its callback by calling it, and in no other way, and the block
only by what the callback makes of a line: what the calls keep, of the state, the lines handed
out so far and the block, holds after every walk. A callback that leaves the lines as they are
leaves the block as it is. -/
namespace Libc370.Jes2

open Bytes

variable {σ : Type}

/-- The state behind a call. -/
def Emit.after (emit : Emit σ) (s : σ) (c : Call) : σ := (emit.call s c.place c.cc c.line).1

/-- What is said of a state, of the calls before it and of the block, and kept by a call. -/
structure Emit.Keeps (emit : Emit σ) (P : σ → List Call → List UInt8 → Prop) : Prop where
  block : ∀ s calls blk d cc n, d + n ≤ blk.length → P s calls blk →
    P (emit.after s ⟨.block d, cc, window blk d n⟩) (calls ++ [⟨.block d, cc, window blk d n⟩])
      (patch blk d (emit.call s (.block d) cc (window blk d n)).2.1)
  prbuf : ∀ s calls blk cc line, P s calls blk → P (emit.after s ⟨.prbuf, cc, line⟩) (calls ++ [⟨.prbuf, cc, line⟩]) blk

/-- It holds of a walk. -/
def Scan.Says (P : σ → List Call → List UInt8 → Prop) (x : Scan σ) : Prop := P x.s x.handed x.blk

/-- It holds behind a turn. -/
def TurnSays (P : σ → List Call → List UInt8 → Prop) : Loop.Turn (Scan σ) (Int × Scan σ) → Prop
  | .again x => x.Says P
  | .leave r => r.2.Says P

section Walks

variable {emit : Emit σ} {P : σ → List Call → List UInt8 → Prop} (hP : emit.Keeps P) {x : Scan σ} (h : x.Says P)

include hP h

theorem emitBlk_says {d n : Nat} {r : Int × Scan σ} (hr : emitBlk emit x d n = some r) : r.2.Says P := by
  obtain ⟨line, hline, hr⟩ := Option.bind_eq_some_iff.mp hr
  obtain ⟨blk, hblk, hr⟩ := Option.bind_eq_some_iff.mp hr
  unfold read at hline
  split at hline
  · next hroom =>
    unfold write at hblk
    split at hblk
    · rw [← Option.some.inj hr, ← Option.some.inj hblk, ← Option.some.inj hline]
      exact hP.block x.s x.handed x.blk d x.pb.cc n hroom h
    · cases hblk
  · cases hline

theorem emitBuf_says {r : Int × Scan σ} (hr : emitBuf emit x = some r) : r.2.Says P := by
  obtain ⟨buf, -, hr⟩ := Option.bind_eq_some_iff.mp hr
  obtain ⟨line, -, hr⟩ := Option.bind_eq_some_iff.mp hr
  obtain ⟨buf', -, hr⟩ := Option.bind_eq_some_iff.mp hr
  rw [← Option.some.inj hr]
  exact hP.prbuf x.s x.handed x.blk x.pb.cc line h

theorem giveup_says {reason : Reason} {r : Int × Scan σ} (hr : giveup emit reason x = some r) : r.2.Says P := by
  obtain ⟨⟨rc, y⟩, hy, hr⟩ := Option.bind_eq_some_iff.mp hr
  have hsays : y.Says P := by
    unfold fragment at hy
    split at hy
    · refine emitBuf_says hP ?_ hy
      exact h
    · rw [← (Prod.mk.inj (Option.some.inj hy)).2]
      exact h
  dsimp only at hr
  split at hr <;> (rw [← Option.some.inj hr]; exact hsays)

theorem lastPart_says {next : Nat} {t : Loop.Turn (Scan σ) (Int × Scan σ)} (ht : lastPart emit next x = some t) :
    TurnSays P t := by
  obtain ⟨⟨rc, y⟩, hy, ht⟩ := Option.bind_eq_some_iff.mp ht
  have hsays : y.Says P := by
    refine emitBuf_says hP ?_ hy
    exact h
  dsimp only at ht
  split at ht <;> (rw [← Option.some.inj ht]; exact hsays)

/-- Giving up ends the turn. -/
theorem givenUp_says {reason : Reason} {t : Loop.Turn (Scan σ) (Int × Scan σ)}
    (ht : (.leave <$> giveup emit reason x) = some t) : TurnSays P t := by
  obtain ⟨r, hr, rfl⟩ := Option.map_eq_some_iff.mp ht
  exact giveup_says hP h hr

theorem takePart_says {flags : UInt8} {d len2 : Nat} {t : Loop.Turn (Scan σ) (Int × Scan σ)}
    (ht : takePart emit flags d len2 x = some t) : TurnSays P t := by
  obtain ⟨data, -, ht⟩ := Option.bind_eq_some_iff.mp ht
  obtain ⟨buf, -, ht⟩ := Option.bind_eq_some_iff.mp ht
  obtain ⟨buf', -, ht⟩ := Option.bind_eq_some_iff.mp ht
  dsimp only at ht
  split at ht
  · refine lastPart_says hP ?_ ht
    exact h
  · rw [← Option.some.inj ht]
    exact h

theorem spanPart_says {flags : UInt8} {d : Nat} {t : Loop.Turn (Scan σ) (Int × Scan σ)}
    (ht : spanPart emit flags d x = some t) : TurnSays P t := by
  unfold spanPart at ht
  split at ht
  · exact givenUp_says hP h ht
  · obtain ⟨len2, -, ht⟩ := Option.bind_eq_some_iff.mp ht
    split at ht
    · exact givenUp_says hP h ht
    · split at ht
      · exact givenUp_says hP h ht
      · exact takePart_says hP h ht

theorem span_says {calloc : Nat → Bool} {flags : UInt8} {t : Loop.Turn (Scan σ) (Int × Scan σ)}
    (ht : span emit calloc flags x = some t) : TurnSays P t := by
  unfold span at ht
  split at ht
  · exact givenUp_says hP h ht
  · split at ht
    · split at ht
      · exact givenUp_says hP h ht
      · obtain ⟨newblock, -, ht⟩ := Option.bind_eq_some_iff.mp ht
        dsimp only at ht
        split at ht
        · rw [← Option.some.inj ht]
          exact h
        · obtain ⟨spancc, -, ht⟩ := Option.bind_eq_some_iff.mp ht
          refine spanPart_says hP ?_ ht
          exact h
    · exact spanPart_says hP h ht

theorem plainLine_says {len flags : UInt8} {d : Nat} {t : Loop.Turn (Scan σ) (Int × Scan σ)}
    (ht : plainLine emit len flags d x = some t) : TurnSays P t := by
  obtain ⟨cc, -, ht⟩ := Option.bind_eq_some_iff.mp ht
  obtain ⟨⟨rc, y⟩, hy, ht⟩ := Option.bind_eq_some_iff.mp ht
  have hsays : y.Says P := by
    refine emitBlk_says hP ?_ hy
    exact h
  dsimp only at ht
  split at ht <;> (rw [← Option.some.inj ht]; exact hsays)

theorem plain_says {len flags : UInt8} {t : Loop.Turn (Scan σ) (Int × Scan σ)}
    (ht : plain emit len flags x = some t) : TurnSays P t := by
  unfold plain at ht
  generalize (if flags &&& 0x80 ≠ 0 then x.p + 3 + 1 else x.p + 3) = d at ht
  dsimp only at ht
  split at ht
  · exact givenUp_says hP h ht
  · exact plainLine_says hP h ht

theorem record_says {calloc : Nat → Bool} {t : Loop.Turn (Scan σ) (Int × Scan σ)}
    (ht : record emit calloc x = some t) : TurnSays P t := by
  unfold record at ht
  split at ht
  · rw [← Option.some.inj ht]
    exact h
  · obtain ⟨len, -, ht⟩ := Option.bind_eq_some_iff.mp ht
    split at ht
    · rw [← Option.some.inj ht]
      exact h
    · obtain ⟨flags, -, ht⟩ := Option.bind_eq_some_iff.mp ht
      split at ht
      · exact span_says hP h ht
      · exact plain_says hP h ht

omit h in
/-- **What the calls keep holds after a walk over a block.** -/
theorem jesprb_says {calloc : Nat → Bool} {blk : List UInt8} (hblk : P x.s x.handed blk) {r : Int × Scan σ}
    (hr : jesprb emit calloc blk x = some r) : r.2.Says P := by
  refine Loop.run_keeps (fun y : Scan σ => y.Says P) (fun out => ∀ r, out = some r → r.2.Says P) ?_ ?_ ?_
    (show (start blk x).Says P from hblk) (blk.length + 1) r hr
  · intro y hy r hr
    cases hr
  · intro y y' hy hturn
    unfold recordTurn at hturn
    cases ht : record emit calloc y with
    | none =>
      rw [ht] at hturn
      cases hturn
    | some t =>
      rw [ht] at hturn
      have hsays := record_says hP hy ht
      cases t with
      | again z =>
        cases hturn
        exact hsays
      | leave r => cases hturn
  · intro y out hy hturn r hout
    unfold recordTurn at hturn
    cases ht : record emit calloc y with
    | none =>
      rw [ht] at hturn
      cases hturn
      cases hout
    | some t =>
      rw [ht] at hturn
      have hsays := record_says hP hy ht
      cases t with
      | again z => cases hturn
      | leave r' =>
        cases hturn
        cases hout
        exact hsays

end Walks

/-- A callback that leaves the lines as they are. -/
def Emit.Quiet (emit : Emit σ) : Prop := ∀ s place cc line, (emit.call s place cc line).2.1 = line

theorem patch_window {blk : List UInt8} {d n : Nat} (h : d + n ≤ blk.length) : patch blk d (window blk d n) = blk := by
  rw [patch, window_length h, window, ← List.drop_drop, List.append_assoc, List.take_append_drop,
    List.take_append_drop]

/-- What a call keeps of the state and the calls, it keeps beside the block, if it is quiet. -/
theorem Emit.Quiet.keeps {emit : Emit σ} (h : emit.Quiet) {P : σ → List Call → Prop}
    (hP : ∀ s calls c, P s calls → P (emit.after s c) (calls ++ [c])) (blk : List UInt8) :
    emit.Keeps fun s calls b => P s calls ∧ b = blk := by
  refine ⟨fun s calls b d cc n hroom hsays => ⟨hP _ _ _ hsays.1, ?_⟩, fun s calls b cc line hsays =>
    ⟨hP _ _ _ hsays.1, hsays.2⟩⟩
  rw [h, patch_window hroom]
  exact hsays.2

/-- What the calls of a quiet callback keep holds after a walk over a chain. -/
theorem jesprbChain_says {emit : Emit σ} (h : emit.Quiet) {P : σ → List Call → Prop}
    (hP : ∀ s calls c, P s calls → P (emit.after s c) (calls ++ [c])) {calloc : Nat → Bool}
    {blocks : List (List UInt8)} {x : Scan σ} (hx : P x.s x.handed) {r : Int × Scan σ}
    (hr : jesprbChain emit calloc blocks x = some r) : P r.2.s r.2.handed := by
  induction blocks generalizing x with
  | nil =>
    rw [← Option.some.inj hr]
    exact hx
  | cons blk rest ih =>
    obtain ⟨⟨rc, y⟩, hy, hr⟩ := Option.bind_eq_some_iff.mp hr
    have hsays : P y.s y.handed ∧ y.blk = blk := jesprb_says (h.keeps hP blk) ⟨hx, rfl⟩ hy
    dsimp only at hr
    split at hr
    · rw [← Option.some.inj hr]
      exact hsays.1
    · exact ih hsays.1 hr

/-- A quiet callback leaves a block as it was. -/
theorem jesprb_quiet {emit : Emit σ} (h : emit.Quiet) {calloc : Nat → Bool} {blk : List UInt8} {x : Scan σ}
    {r : Int × Scan σ} (hr : jesprb emit calloc blk x = some r) : r.2.blk = blk := by
  have hsays : True ∧ r.2.blk = blk :=
    jesprb_says (h.keeps (P := fun _ _ => True) (fun _ _ _ _ => trivial) blk) ⟨trivial, rfl⟩ hr
  exact hsays.2

end Libc370.Jes2
