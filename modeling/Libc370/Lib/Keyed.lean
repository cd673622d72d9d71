import Mathlib

/-! Lists of records as maps by key.

`look key l k` is the record of a list that has the key `k`. As long as no two records share
a key, adding a record, taking out the one found and changing the one found are an update of
the map. -/
namespace Libc370.Keyed

variable {κ β : Type*} [DecidableEq κ] (key : β → κ)

/-- The record with a key. -/
def look (l : List β) (k : κ) : Option β := l.find? fun x => key x = k

/-- Where the record with a key is. -/
def place (l : List β) (k : κ) : Option Nat := l.findIdx? fun x => key x = k

variable {key} {l : List β} {k : κ} {x : β} {i : Nat}

theorem look_nil (k : κ) : look key [] k = none := rfl

theorem look_cons (x : β) (l : List β) (k : κ) : look key (x :: l) k = if key x = k then some x else look key l k := by
  rw [look, List.find?_cons]
  by_cases h : key x = k
  · simp [h]
  · simp [h, look]

theorem place_cons (x : β) (l : List β) (k : κ) :
    place key (x :: l) k = if key x = k then some 0 else (place key l k).map (· + 1) := by
  rw [place, List.findIdx?_cons]
  by_cases h : key x = k
  · simp [h]
  · simp [h, place]

theorem look_key (h : look key l k = some x) : key x = k := by simpa using List.find?_some h

theorem look_mem (h : look key l k = some x) : x ∈ l := List.mem_of_find?_eq_some h

theorem look_none : look key l k = none ↔ k ∉ l.map key := by
  rw [look, List.find?_eq_none, List.mem_map, not_exists]
  simp only [decide_eq_true_eq, not_and]

theorem place_none : place key l k = none ↔ look key l k = none := by
  rw [place, look, List.findIdx?_eq_none_iff, List.find?_eq_none]
  simp

/-- A record with a new key. -/
theorem look_append (hfresh : key x ∉ l.map key) :
    look key (l ++ [x]) = Function.update (look key l) (key x) (some x) := by
  funext k
  by_cases hk : k = key x
  · subst hk
    rw [Function.update_self, look, List.find?_append, ← look, look_none.mpr hfresh]
    simp
  · rw [Function.update_of_ne hk, look, List.find?_append, ← look]
    cases look key l k with
    | some y => rfl
    | none => simpa using fun h => hk h.symm

omit [DecidableEq κ] in
theorem map_eraseIdx_sublist (l : List β) (i : Nat) : ((l.eraseIdx i).map key).Sublist (l.map key) :=
  (List.eraseIdx_sublist l i).map key

/-- The record found is taken out. -/
theorem look_erase (hnodup : (l.map key).Nodup) (hi : place key l k = some i) :
    look key (l.eraseIdx i) = Function.update (look key l) k none := by
  induction l generalizing i with
  | nil => simp [place] at hi
  | cons x l ih =>
    rw [List.map_cons, List.nodup_cons] at hnodup
    rw [place_cons] at hi
    by_cases hx : key x = k
    · rw [if_pos hx] at hi
      obtain rfl := Option.some.inj hi
      funext m
      rw [List.eraseIdx_cons_zero]
      by_cases hm : m = k
      · rw [hm, Function.update_self, ← hx, look_none]
        exact hnodup.1
      · rw [Function.update_of_ne hm, look_cons, if_neg (fun h => hm (h.symm.trans hx))]
    · rw [if_neg hx] at hi
      obtain ⟨j, hj, rfl⟩ := Option.map_eq_some_iff.mp hi
      have hrest := ih hnodup.2 hj
      funext m
      rw [List.eraseIdx_cons_succ, look_cons, hrest]
      by_cases hm : m = k
      · rw [hm, Function.update_self, Function.update_self, if_neg hx]
      · rw [Function.update_of_ne hm, Function.update_of_ne hm, look_cons]

/-- The record found is changed and keeps its key. -/
theorem look_modify {f : β → β} (hf : ∀ x, key (f x) = key x) (hi : place key l k = some i) :
    look key (l.modify i f) = Function.update (look key l) k ((look key l k).map f) := by
  induction l generalizing i with
  | nil => simp [place] at hi
  | cons x l ih =>
    rw [place_cons] at hi
    by_cases hx : key x = k
    · rw [if_pos hx] at hi
      obtain rfl := Option.some.inj hi
      funext m
      rw [List.modify_zero_cons, look_cons, hf]
      by_cases hm : m = k
      · rw [hm, Function.update_self, if_pos hx, look_cons, if_pos hx, Option.map_some]
      · rw [Function.update_of_ne hm, look_cons, if_neg (fun h => hm (h.symm.trans hx)),
          if_neg (fun h => hm (h.symm.trans hx))]
    · rw [if_neg hx] at hi
      obtain ⟨j, hj, rfl⟩ := Option.map_eq_some_iff.mp hi
      have hrest := ih hj
      funext m
      rw [List.modify_succ_cons, look_cons, hrest]
      by_cases hm : m = k
      · rw [hm, Function.update_self, Function.update_self, if_neg hx, look_cons, if_neg hx]
      · rw [Function.update_of_ne hm, Function.update_of_ne hm, look_cons]

omit [DecidableEq κ] in
theorem map_modify {f : β → β} (hf : ∀ x, key (f x) = key x) (l : List β) (i : Nat) :
    (l.modify i f).map key = l.map key := by
  induction l generalizing i with
  | nil => cases i <;> rfl
  | cons x l ih =>
    cases i with
    | zero => simp [hf]
    | succ i => simp [ih]

end Libc370.Keyed
