import Mathlib

/-! Records cut into segments.

A segment is a whole record, or the first, a middle or the last part of one. `Joins`
is what putting a list of segments together comes to: from the record that is open
(`none` if none is) to the records that are complete and the one that is then open.
A list that is out of sequence joins to nothing. -/
namespace Libc370

inductive Span
  | whole
  | first
  | last
  | middle
  deriving DecidableEq, Repr

structure Segment (α : Type*) where
  span : Span
  data : List α
  deriving DecidableEq

namespace Segment

variable {α : Type*}

/-- `Joins held segs records held'`: with `held` open, the segments complete `records`. -/
inductive Joins : Option (List α) → List (Segment α) → List (List α) → Option (List α) → Prop
  | nil {held} : Joins held [] [] held
  | whole {data segs records held} (h : Joins none segs records held) :
    Joins none (⟨.whole, data⟩ :: segs) (data :: records) held
  | first {data segs records held} (h : Joins (some data) segs records held) :
    Joins none (⟨.first, data⟩ :: segs) records held
  | middle {open' data segs records held} (h : Joins (some (open' ++ data)) segs records held) :
    Joins (some open') (⟨.middle, data⟩ :: segs) records held
  | last {open' data segs records held} (h : Joins none segs records held) :
    Joins (some open') (⟨.last, data⟩ :: segs) ((open' ++ data) :: records) held

theorem Joins.append {held held' held'' : Option (List α)} {segs segs' : List (Segment α)}
    {records records' : List (List α)}
    (h : Joins held segs records held') (h' : Joins held' segs' records' held'') :
    Joins held (segs ++ segs') (records ++ records') held'' := by
  induction h with
  | nil => exact h'
  | whole _ ih => exact .whole (ih h')
  | first _ ih => exact .first (ih h')
  | middle _ ih => exact .middle (ih h')
  | last _ ih => exact .last (ih h')

/-- A record that is open becomes the first of the records. -/
theorem Joins.prefix {h : List α} {segs : List (Segment α)} {records : List (List α)}
    (hjoins : Joins (some h) segs records none) :
    ∃ r rs, records = r :: rs ∧ h <+: r := by
  induction segs generalizing h with
  | nil => cases hjoins
  | cons s segs ih =>
    cases hjoins with
    | middle hrest =>
      obtain ⟨r, rs, rfl, hprefix⟩ := ih hrest
      exact ⟨r, rs, rfl, (List.prefix_append _ _).trans hprefix⟩
    | last hrest => exact ⟨_, _, rfl, List.prefix_append _ _⟩

/-- Nothing joins to nothing. -/
theorem Joins.of_nil {segs : List (Segment α)} (hjoins : Joins none segs [] none) : segs = [] := by
  cases hjoins with
  | nil => rfl
  | first h =>
    obtain ⟨r, rs, heq, -⟩ := h.prefix
    cases heq

/-- The last segment of a list that is whole is a record of its own. -/
theorem Joins.split_last {held : Option (List α)} {segs : List (Segment α)} {data : List α} {records : List (List α)}
    (h : Joins held (segs ++ [⟨.whole, data⟩]) records none) : ∃ records',
    records = records' ++ [data] ∧ Joins held segs records' none := by
  induction segs generalizing held records with
  | nil =>
    cases h with
    | whole h =>
      cases h
      exact ⟨[], rfl, .nil⟩
  | cons seg segs ih =>
    cases h with
    | whole h =>
      obtain ⟨records', rfl, hjoins⟩ := ih h
      exact ⟨_ :: records', rfl, .whole hjoins⟩
    | first h =>
      obtain ⟨records', rfl, hjoins⟩ := ih h
      exact ⟨records', rfl, .first hjoins⟩
    | middle h =>
      obtain ⟨records', rfl, hjoins⟩ := ih h
      exact ⟨records', rfl, .middle hjoins⟩
    | last h =>
      obtain ⟨records', rfl, hjoins⟩ := ih h
      exact ⟨_ :: records', rfl, .last hjoins⟩

end Segment

end Libc370
