import Mathlib

/-! Bisection of a range of numbers.

`search above low high` looks for the place in `low .. high` up to which `above` is false.
It probes the middle, the upper one of two, and goes on in one of the halves; `probes`
lists the places it looks at. Nothing is asked of `above`: what is found is a place where
it changes (`search_spec`). Two searches of one range come to the same place exactly when
their predicates agree on the probes of one of them (`search_eq_iff`). -/
namespace Libc370.Bisect

/-- The middle of a range, never its lower end. -/
def middle (low high : Nat) : Nat := low + (high - low) / 2 + 1

theorem low_lt_middle (low high : Nat) : low < middle low high := by
  unfold middle
  omega

theorem middle_le {low high : Nat} (h : low < high) : middle low high ≤ high := by
  unfold middle
  omega

/-- The place that is found. -/
def search (above : Nat → Bool) (low high : Nat) : Nat :=
  if low < high then
    if above (middle low high) then search above low (middle low high - 1)
    else search above (middle low high) high
  else low
termination_by high - low
decreasing_by all_goals unfold middle; omega

/-- The places looked at. -/
def probes (above : Nat → Bool) (low high : Nat) : List Nat :=
  if low < high then
    middle low high ::
      if above (middle low high) then probes above low (middle low high - 1)
      else probes above (middle low high) high
  else []
termination_by high - low
decreasing_by all_goals unfold middle; omega

variable {above other : Nat → Bool}

theorem search_done {low high : Nat} (h : ¬ low < high) : search above low high = low := by
  rw [search, if_neg h]

theorem search_down {low high : Nat} (h : low < high) (ha : above (middle low high) = true) :
    search above low high = search above low (middle low high - 1) := by
  rw [search, if_pos h, if_pos ha]

theorem search_up {low high : Nat} (h : low < high) (ha : above (middle low high) = false) :
    search above low high = search above (middle low high) high := by
  rw [search, if_pos h, if_neg (Bool.eq_false_iff.mp ha)]

theorem search_mem (above : Nat → Bool) {low high : Nat} (h : low ≤ high) :
    low ≤ search above low high ∧ search above low high ≤ high := by
  induction low, high using search.induct above with
  | case1 low high hlt ha ih =>
    rw [search_down hlt ha]
    have hmiddle := low_lt_middle low high
    have hle := middle_le hlt
    have hrest := ih (by omega)
    omega
  | case2 low high hlt ha ih =>
    rw [search_up hlt (Bool.eq_false_iff.mpr ha)]
    have hmiddle := low_lt_middle low high
    have hrest := ih (middle_le hlt)
    omega
  | case3 low high hge =>
    rw [search_done hge]
    exact ⟨Nat.le_refl _, h⟩

/-- `above` is false where the search ends, and true behind; but for the ends of the range. -/
theorem search_spec (above : Nat → Bool) {low high : Nat} (h : low ≤ high) :
    (search above low high = low ∨ above (search above low high) = false) ∧
      (search above low high = high ∨ above (search above low high + 1) = true) := by
  induction low, high using search.induct above with
  | case1 low high hlt ha ih =>
    rw [search_down hlt ha]
    have hmiddle := low_lt_middle low high
    obtain ⟨hbelow, hbehind⟩ := ih (by omega)
    refine ⟨hbelow, .inr ?_⟩
    rcases hbehind with hend | hbehind
    · rw [hend, Nat.sub_add_cancel (by omega)]
      exact ha
    · exact hbehind
  | case2 low high hlt ha ih =>
    rw [search_up hlt (Bool.eq_false_iff.mpr ha)]
    obtain ⟨hbelow, hbehind⟩ := ih (middle_le hlt)
    refine ⟨.inr ?_, hbehind⟩
    rcases hbelow with hend | hbelow
    · rw [hend]
      exact Bool.eq_false_iff.mpr ha
    · exact hbelow
  | case3 low high hge =>
    rw [search_done hge]
    exact ⟨.inl rfl, .inl (by omega)⟩

/-- **Two searches come to the same place exactly when they agree on the probes of one.**
Where they differ first, one of them stays below the probe for good and the other above. -/
theorem search_eq_iff {low high : Nat} (h : low ≤ high) :
    search other low high = search above low high ↔ ∀ m ∈ probes above low high, other m = above m := by
  induction low, high using search.induct above with
  | case1 low high hlt ha ih =>
    have hmiddle := low_lt_middle low high
    have hle : low ≤ middle low high - 1 := by omega
    rw [probes, if_pos hlt, if_pos ha, List.forall_mem_cons, search_down hlt ha, ha]
    cases ho : other (middle low high) with
    | true =>
      rw [search_down hlt ho, and_iff_right rfl]
      exact ih hle
    | false =>
      have hother := (search_mem other (middle_le hlt)).1
      have habove := (search_mem above hle).2
      rw [search_up hlt ho]
      exact iff_of_false (by omega) (fun hall => Bool.false_ne_true hall.1)
  | case2 low high hlt ha ih =>
    have ha' : above (middle low high) = false := Bool.eq_false_iff.mpr ha
    have hmiddle := low_lt_middle low high
    have hle : low ≤ middle low high - 1 := by omega
    rw [probes, if_pos hlt, if_neg ha, List.forall_mem_cons, search_up hlt ha', ha']
    cases ho : other (middle low high) with
    | true =>
      have hother := (search_mem other hle).2
      have habove := (search_mem above (middle_le hlt)).1
      rw [search_down hlt ho]
      exact iff_of_false (by omega) (fun hall => Bool.false_ne_true hall.1.symm)
    | false =>
      rw [search_up hlt ho, and_iff_right rfl]
      exact ih (middle_le hlt)
  | case3 low high hge =>
    rw [probes, if_neg hge, search_done hge, search_done hge]
    exact iff_of_true rfl (fun _ hm => absurd hm List.not_mem_nil)

end Libc370.Bisect
