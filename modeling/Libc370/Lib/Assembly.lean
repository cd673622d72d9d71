import Mathlib

/-! Lines put together from parts.

Parts come in one after the other; the first part of a line opens it. `lines` are the
lines that a list of parts makes. An `Assembly` is what has been taken in, what has been
handed out, and the line that is open. `Moves` is what may be done to it: a move either
hands out what it closes or, opening a line over one that is open, loses that. What is
taken in is handed out, held or lost; and while nothing is lost, the lines that are
handed out are those of the parts. A run of moves from nothing (`Run`) has handed out all
that it has taken in just if none of its moves loses anything and nothing is held in the
end. -/
namespace Libc370

/-- A part of a line. -/
structure Piece (α : Type*) where
  first : Bool
  data : List α

/-- What has been taken in, the lines that have been handed out, and the open line. -/
structure Assembly (α : Type*) where
  taken : List (Piece α)
  handed : List (List α)
  held : Option (List α)

namespace Assembly

variable {α : Type*}

/-- One more part: a new line, or more of the last one. -/
def addPart (ls : List (List α)) (q : Piece α) : List (List α) :=
  if q.first then ls ++ [q.data] else ls.dropLast ++ [ls.getLastD [] ++ q.data]

/-- The lines of a list of parts. -/
def lines (parts : List (Piece α)) : List (List α) := parts.foldl addPart []

/-- An open line is given up: what is there of it is handed out. -/
def givenUp (a : Assembly α) : Assembly α :=
  { a with handed := a.handed ++ (a.held.toList.filter fun l => !l.isEmpty), held := none }

/-- The open line is closed without a trace. -/
def dropped (a : Assembly α) : Assembly α := { a with held := none }

/-- A part is taken in, for the line `held`. -/
def took (a : Assembly α) (q : Piece α) (held : List α) : Assembly α :=
  { a with taken := a.taken ++ [q], held := some (held ++ q.data) }

/-- The line is complete. -/
def completed (a : Assembly α) : Assembly α := { a with handed := a.handed ++ a.held.toList, held := none }

/-- What may be done to an assembly; `anew` if a line is opened, over what is there. -/
inductive Moves (a : Assembly α) : Bool → Assembly α → Prop
  | stay : Moves a false a
  | giveUp : Moves a false a.givenUp
  | drop : Moves a true a.dropped
  | more (data held : List α) (h : a.held = some held) : Moves a false (a.took ⟨false, data⟩ held)
  | last (data held : List α) (h : a.held = some held) : Moves a false (a.took ⟨false, data⟩ held).completed
  | first (data : List α) : Moves a true (a.took ⟨true, data⟩ [])
  | whole (data : List α) : Moves a true (a.took ⟨true, data⟩ []).completed

/-- How much of a line is open. -/
def heldLength (a : Assembly α) : Nat := (a.held.getD []).length

/-- How much of all has been taken in. -/
def takenLength (a : Assembly α) : Nat := (a.taken.map fun q => q.data.length).sum

/-- How much of all has been handed out. -/
def handedLength (a : Assembly α) : Nat := (a.handed.map List.length).sum

/-- What a move loses. -/
def lost (anew : Bool) (a : Assembly α) : Nat := if anew then a.heldLength else 0

/-- **Nothing vanishes**: what a move takes in, it hands out, holds or loses. -/
theorem Moves.conserves {anew : Bool} {a a' : Assembly α} (h : Moves a anew a') :
    a'.takenLength + a.handedLength + a.heldLength =
      a.takenLength + a'.handedLength + a'.heldLength + lost anew a := by
  cases h with
  | stay => simp [lost]
  | giveUp =>
    cases hheld : a.held with
    | none => simp [givenUp, takenLength, handedLength, heldLength, lost, hheld]
    | some l => cases l <;> simp [givenUp, takenLength, handedLength, heldLength, lost, hheld]; omega
  | drop => simp [dropped, takenLength, handedLength, heldLength, lost]
  | more data held h =>
    simp [took, takenLength, handedLength, heldLength, lost, h]
    omega
  | last data held h =>
    simp [took, completed, takenLength, handedLength, heldLength, lost, h]
    omega
  | first data =>
    simp [took, takenLength, handedLength, heldLength, lost]
    omega
  | whole data =>
    simp [took, completed, takenLength, handedLength, heldLength, lost]
    omega

/-- The lines with something in them. -/
def filled (ls : List (List α)) : List (List α) := ls.filter fun l => !l.isEmpty

@[simp] theorem filled_append (ls ls' : List (List α)) : filled (ls ++ ls') = filled ls ++ filled ls' :=
  List.filter_append ..

@[simp] theorem filled_nil : filled ([] : List (List α)) = [] := rfl

/-- All that has been handed out are the lines of the parts, but for an open one. -/
def Faithful (a : Assembly α) : Prop :=
  match a.held with
  | none => filled a.handed = filled (lines a.taken)
  | some l => ∃ ls, lines a.taken = ls ++ [l] ∧ filled a.handed = filled ls

theorem lines_snoc (parts : List (Piece α)) (q : Piece α) : lines (parts ++ [q]) = addPart (lines parts) q :=
  List.foldl_append

theorem Faithful.filled_eq {a : Assembly α} (h : a.Faithful) :
    filled (lines a.taken) = filled a.handed ++ filled a.held.toList := by
  unfold Faithful at h
  cases hheld : a.held with
  | none =>
    rw [hheld] at h
    simp [h]
  | some l =>
    rw [hheld] at h
    obtain ⟨ls, hlines, hhanded⟩ := h
    rw [hlines, hhanded, filled_append]
    rfl

/-- An open line that nothing is in may be opened over. -/
theorem Faithful.of_empty {a : Assembly α} (h : a.Faithful) (hheld : a.heldLength = 0) :
    filled (lines a.taken) = filled a.handed := by
  rw [h.filled_eq]
  cases hl : a.held with
  | none => simp
  | some l =>
    have hnil : l = [] := by
      rw [heldLength, hl] at hheld
      exact List.length_eq_zero_iff.mp hheld
    simp [hnil, filled]

/-- **While nothing is lost, lines come out as they came in.** -/
theorem Moves.faithful {anew : Bool} {a a' : Assembly α} (h : Moves a anew a') (hlost : lost anew a = 0)
    (ha : a.Faithful) : a'.Faithful := by
  cases h with
  | stay => exact ha
  | giveUp =>
    have hfilled := ha.filled_eq
    have hagain : filled (filled a.held.toList) = filled a.held.toList := by simp [filled]
    show filled (a.handed ++ filled a.held.toList) = filled (lines a.taken)
    rw [filled_append, hagain, hfilled]
  | drop => exact (ha.of_empty hlost).symm
  | more data held h =>
    unfold Faithful at ha
    rw [h] at ha
    obtain ⟨ls, hlines, hhanded⟩ := ha
    refine ⟨ls, ?_, hhanded⟩
    show lines (a.taken ++ [⟨false, data⟩]) = ls ++ [held ++ data]
    rw [lines_snoc, hlines]
    simp [addPart]
  | last data held h =>
    unfold Faithful at ha
    rw [h] at ha
    obtain ⟨ls, hlines, hhanded⟩ := ha
    show filled (a.handed ++ [held ++ data]) = filled (lines (a.taken ++ [⟨false, data⟩]))
    rw [lines_snoc, hlines, filled_append, hhanded]
    simp [addPart]
  | first data =>
    refine ⟨lines a.taken, ?_, (ha.of_empty hlost).symm⟩
    show lines (a.taken ++ [⟨true, data⟩]) = lines a.taken ++ [[] ++ data]
    rw [lines_snoc]
    rfl
  | whole data =>
    show filled (a.handed ++ [[] ++ data]) = filled (lines (a.taken ++ [⟨true, data⟩]))
    rw [lines_snoc, filled_append, ← ha.of_empty hlost]
    simp [addPart]

/-- The lines of some parts are as long as the parts. -/
theorem lines_length (parts : List (Piece α)) :
    ((lines parts).map List.length).sum = (parts.map fun q => q.data.length).sum := by
  induction parts using List.reverseRecOn with
  | nil => rfl
  | append_singleton parts q ih =>
    rw [lines_snoc, List.map_append, List.sum_append, ← ih, addPart]
    split
    · simp
    · rcases List.eq_nil_or_concat (lines parts) with hnil | ⟨ls, l, hls⟩
      · simp [hnil]
      · simp [hls]
        omega

theorem filled_length (ls : List (List α)) : ((filled ls).map List.length).sum = (ls.map List.length).sum := by
  induction ls with
  | nil => rfl
  | cons l ls ih =>
    cases l with
    | nil => simpa [filled] using ih
    | cons b l => simpa [filled] using ih

/-- All that was taken in has been handed out, in the lines that the parts make. -/
def Delivered (a : Assembly α) : Prop := filled a.handed = filled (lines a.taken)

instance [DecidableEq α] (a : Assembly α) : Decidable a.Delivered := inferInstanceAs (Decidable (_ = _))

theorem Delivered.length_eq {a : Assembly α} (h : a.Delivered) : a.handedLength = a.takenLength := by
  rw [handedLength, takenLength, ← lines_length, ← filled_length a.handed, h, filled_length]

/-- A run of moves, with where each starts from and whether it opens a line. -/
inductive Run : Assembly α → List (Bool × Assembly α) → Assembly α → Prop
  | nil (a : Assembly α) : Run a [] a
  | cons {anew : Bool} {a a' b : Assembly α} {trail : List (Bool × Assembly α)} (h : Moves a anew a')
    (rest : Run a' trail b) : Run a ((anew, a) :: trail) b

theorem Run.one {anew : Bool} {a b : Assembly α} (h : Moves a anew b) : Run a [(anew, a)] b := .cons h (.nil b)

theorem Run.append {a b c : Assembly α} {trail trail' : List (Bool × Assembly α)} (h : Run a trail b)
    (h' : Run b trail' c) : Run a (trail ++ trail') c := by
  induction h with
  | nil a => exact h'
  | cons hmove rest ih => exact .cons hmove (ih h')

/-- What a run takes in, it hands out, holds in the end, or one of its moves loses it. -/
theorem Run.conserves {a b : Assembly α} {trail : List (Bool × Assembly α)} (h : Run a trail b) :
    b.takenLength + a.handedLength + a.heldLength =
      a.takenLength + b.handedLength + b.heldLength + (trail.map fun q => lost q.1 q.2).sum := by
  induction h with
  | nil a => simp
  | cons hmove rest ih =>
    have hone := hmove.conserves
    rw [List.map_cons, List.sum_cons]
    dsimp only
    omega

theorem Run.faithful {a b : Assembly α} {trail : List (Bool × Assembly α)} (h : Run a trail b)
    (hlost : ∀ q ∈ trail, lost q.1 q.2 = 0) (ha : a.Faithful) : b.Faithful := by
  induction h with
  | nil a => exact ha
  | cons hmove rest ih =>
    exact ih (fun q hq => hlost q (List.mem_cons_of_mem _ hq)) (hmove.faithful (hlost _ List.mem_cons_self) ha)

/-- An assembly that nothing has been done to. -/
def empty : Assembly α := ⟨[], [], none⟩

/-- **A run delivers what it takes in** just if none of its moves loses anything, and
nothing is held in the end. -/
theorem Run.delivered_iff {b : Assembly α} {trail : List (Bool × Assembly α)} (h : Run empty trail b) :
    b.Delivered ↔ (∀ q ∈ trail, lost q.1 q.2 = 0) ∧ b.heldLength = 0 := by
  constructor
  · intro hdelivered
    have hlength := hdelivered.length_eq
    have hconserves : b.takenLength + 0 + 0 =
        0 + b.handedLength + b.heldLength + (trail.map fun q => lost q.1 q.2).sum := h.conserves
    have hsum : (trail.map fun q => lost q.1 q.2).sum = 0 := by omega
    refine ⟨?_, by omega⟩
    intro q hq
    exact List.sum_eq_zero_iff.mp hsum _ (List.mem_map_of_mem hq)
  · rintro ⟨hlost, hheld⟩
    exact ((h.faithful hlost rfl).of_empty hheld).symm

end Assembly

end Libc370
