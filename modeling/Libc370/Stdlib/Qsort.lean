import Libc370.Lib.Loop

/-! `qsort()` and `bsearch()` (`stdlib/qsort.c`, `stdlib/bsearch.c`).

The elements of an array are blocks of bytes in a memory, one behind the other. A comparator
sees two of them; it is a total preorder on what they can hold. `qsort()` moves two indices
towards each other, exchanging elements byte by byte, until everything up to the one is not
above the middle element and everything behind not below. It calls itself for the shorter
part and goes round again for the other. The model keeps the addresses the comparator is
called with and the ones that are stored to. -/
namespace Libc370.Qsort

open Loop

abbrev Mem := Nat → UInt8

/-- What an element holds. -/
abbrev Elem (size : Nat) := Fin size → UInt8

/-- A comparator whose answers are those of a total preorder. -/
structure Comparator (size : Nat) where
  compar : Elem size → Elem size → Int
  flips : ∀ x y, 0 < compar x y ↔ compar y x < 0
  trans : ∀ x y z, compar x y ≤ 0 → compar y z ≤ 0 → compar x z ≤ 0

/-- The element at an address. -/
def elem (size : Nat) (mem : Mem) (p : Nat) : Elem size := fun k => mem (p + k)

/-- A sort under way: the memory, the addresses the comparator was called with, and those stored to. -/
structure Sorting where
  mem : Mem
  compared : List (Nat × Nat)
  stored : List Nat

section Code
variable {size : Nat} (C : Comparator size)

/-- `(*compar)(p, q)`. -/
def Sorting.compare (s : Sorting) (p q : Nat) : Int × Sorting :=
  (C.compar (elem size s.mem p) (elem size s.mem q), { s with compared := s.compared ++ [(p, q)] })

/-- `base2[p] = v`. -/
def Sorting.store (s : Sorting) (p : Nat) (v : UInt8) : Sorting :=
  { s with mem := Function.update s.mem p v, stored := s.stored ++ [p] }

/-- `b--`. -/
def pred (b : Nat) : Nat := if b = 0 then 2 ^ 32 - 1 else b - 1

/-- `while ((*compar)(&base2[size*c],&base2[size*a]) > 0) a++;` -/
def upTurn (base c : Nat) (x : Nat × Sorting) : Turn (Nat × Sorting) (Option (Nat × Sorting)) :=
  let (a, s) := x
  let (res, s) := s.compare C (base + size * c) (base + size * a)
  if 0 < res then .again (a + 1, s) else .leave (some (a, s))

/-- `while ((*compar)(&base2[size*c],&base2[size*b]) < 0) b--;` -/
def downTurn (base c : Nat) (x : Nat × Sorting) : Turn (Nat × Sorting) (Option (Nat × Sorting)) :=
  let (b, s) := x
  let (res, s) := s.compare C (base + size * c) (base + size * b)
  if res < 0 then .again (pred b, s) else .leave (some (b, s))

/-- The loop that exchanges two elements, for `i` from 0 on. -/
def swap (p q : Nat) : Nat → Sorting → Sorting
  | 0, s => s
  | i + 1, s =>
    let s := swap p q i s
    let tmp := s.mem (p + i)
    (s.store (p + i) (s.mem (q + i))).store (q + i) tmp

/-- The indices of the partition, and the middle element's. -/
structure Cursors where
  a : Nat
  b : Nat
  c : Nat
  sort : Sorting

/-- One turn of `for (;;)`. -/
def partTurn (base nmemb : Nat) (x : Cursors) : Turn Cursors (Option (Nat × Sorting)) :=
  match run (fun _ => none) (upTurn C base x.c) (nmemb + 1) (x.a, x.sort) with
  | none => .leave none
  | some (a, s) =>
    match run (fun _ => none) (downTurn C base x.c) (nmemb + 1) (x.b, s) with
    | none => .leave none
    | some (b, s) =>
      if b ≤ a then .leave (some (b, s))
      else
        let s := swap (base + size * a) (base + size * b) size s
        -- the middle element is followed
        let c := if x.c = a then b else if x.c = b then a else x.c
        .again ⟨a + 1, pred b, c, s⟩

/-- The partition: where the right part starts. -/
def partition (base nmemb : Nat) (s : Sorting) : Option (Nat × Sorting) := do
  let (b, s) ← run (fun _ => none) (partTurn C base nmemb) (nmemb + 1)
    ⟨0, nmemb - 1, (0 + (nmemb - 1)) / 2, s⟩
  return (b + 1, s)

/-- `qsort()`, with so many calls and turns inside one another; it is `none` if they are
used up. The `while` loop goes round again with the larger part. -/
def qsortFrom : Nat → Nat → Nat → Sorting → Option Sorting
  | 0, _, nmemb, s => if 1 < nmemb then none else some s
  | k + 1, base, nmemb, s =>
    if 1 < nmemb then do
      let (b, s) ← partition C base nmemb s
      if b < nmemb - b then
        let s ← qsortFrom k base b s
        qsortFrom k (base + size * b) (nmemb - b) s
      else
        let s ← qsortFrom k (base + size * b) (nmemb - b) s
        qsortFrom k base b s
    else some s

/-- `qsort()`. -/
def qsort (base nmemb : Nat) (mem : Mem) : Option Sorting := qsortFrom C nmemb base nmemb ⟨mem, [], []⟩

/-- The loop of `bsearch()`. -/
def bsearchTurn (key : Elem size) (mem : Mem) (x : Nat × Nat) : Turn (Nat × Nat) (Option (Option Nat)) :=
  let (base, nmemb) := x
  if 0 < nmemb then
    let half := nmemb / 2
    let ptr := base + half * size
    let res := C.compar key (elem size mem ptr)
    if res = 0 then .leave (some (some ptr))
    else if 0 < res then .again (ptr + size, nmemb - half - 1)
    else .again (base, half)
  else .leave (some none)

/-- `bsearch()`: the address of the element, or NULL. -/
def bsearch (key : Elem size) (base nmemb : Nat) (mem : Mem) : Option (Option Nat) :=
  run (fun _ => none) (bsearchTurn C key mem) (nmemb + 1) (base, nmemb)

end Code

variable {size : Nat} {C : Comparator size}

theorem Comparator.self (C : Comparator size) (x : Elem size) : C.compar x x = 0 := by
  have hflips := C.flips x x
  omega

/-! ### Arrays -/

/-- The elements of an array of `n`. -/
def elems (size : Nat) (mem : Mem) (base n : Nat) : List (Elem size) :=
  (List.range n).map fun i => elem size mem (base + size * i)

/-- The addresses of the elements. -/
def IsElem (size base n p : Nat) : Prop := ∃ i < n, p = base + size * i

theorem elem_congr {mem mem' : Mem} {p : Nat} (h : ∀ k < size, mem' (p + k) = mem (p + k)) :
    elem size mem' p = elem size mem p := by
  funext k
  exact h k k.isLt

theorem mem_elems {mem : Mem} {base n : Nat} {x : Elem size} :
    x ∈ elems size mem base n ↔ ∃ i < n, elem size mem (base + size * i) = x := by
  simp [elems]

/-- The first elements, and those behind them. -/
theorem elems_append (mem : Mem) (base b n : Nat) :
    elems size mem base (b + n) = elems size mem base b ++ elems size mem (base + size * b) n := by
  simp only [elems, List.range_add, List.map_append, List.map_map]
  congr 1
  refine List.map_congr_left fun i _ => ?_
  rw [Function.comp_apply, Nat.mul_add, Nat.add_assoc]

theorem elems_congr {mem mem' : Mem} {base n : Nat}
    (h : ∀ p, base ≤ p → p < base + size * n → mem' p = mem p) :
    elems size mem' base n = elems size mem base n := by
  refine List.map_congr_left fun i hi => elem_congr fun k hk => h _ (by omega) ?_
  have hi : size * (i + 1) ≤ size * n := Nat.mul_le_mul_left _ (List.mem_range.mp hi)
  rw [Nat.mul_add] at hi
  omega

/-- Elements in the places of others are the same elements. -/
theorem elems_perm {mem mem' : Mem} {base n : Nat} (σ : Equiv.Perm Nat) (hσ : ∀ i, σ i < n ↔ i < n)
    (h : ∀ i < n, elem size mem' (base + size * i) = elem size mem (base + size * σ i)) :
    (elems size mem' base n).Perm (elems size mem base n) := by
  have heq : elems size mem' base n =
      ((List.range n).map σ).map fun i => elem size mem (base + size * i) := by
    rw [List.map_map]
    exact List.map_congr_left fun i hi => h i (List.mem_range.mp hi)
  rw [heq]
  refine List.Perm.map _ ?_
  refine (List.perm_ext_iff_of_nodup (List.nodup_range.map σ.injective) List.nodup_range).mpr fun i => ?_
  rw [List.mem_map, List.mem_range]
  constructor
  · rintro ⟨j, hj, rfl⟩
    exact (hσ j).mpr (List.mem_range.mp hj)
  · intro hi
    refine ⟨σ.symm i, List.mem_range.mpr ((hσ _).mp ?_), σ.apply_symm_apply i⟩
    rwa [σ.apply_symm_apply]

/-! ### What a part of the sort may do -/

/-- From the one state to the other the array of `n` elements was sorted about: nothing was
stored outside, only elements compared, and none lost. -/
structure Moved (size base n : Nat) (s s' : Sorting) : Prop where
  kept : ∀ p, p < base ∨ base + size * n ≤ p → s'.mem p = s.mem p
  perm : (elems size s'.mem base n).Perm (elems size s.mem base n)
  compared : ∀ pq ∈ s'.compared, pq ∈ s.compared ∨ (IsElem size base n pq.1 ∧ IsElem size base n pq.2)
  stored : ∀ p ∈ s'.stored, p ∈ s.stored ∨ (base ≤ p ∧ p < base + size * n)

theorem Moved.refl (size base n : Nat) (s : Sorting) : Moved size base n s s where
  kept _ _ := rfl
  perm := .refl _
  compared _ := .inl
  stored _ := .inl

theorem Moved.trans {base n : Nat} {s s' s'' : Sorting} (h : Moved size base n s s')
    (h' : Moved size base n s' s'') : Moved size base n s s'' where
  kept p hp := (h'.kept p hp).trans (h.kept p hp)
  perm := h'.perm.trans h.perm
  compared pq hpq := (h'.compared pq hpq).elim (h.compared pq) .inr
  stored p hp := (h'.stored p hp).elim (h.stored p) .inr

/-- What moves a part of an array moves the array. -/
theorem Moved.widen {base b m n : Nat} {s s' : Sorting} (h : Moved size (base + size * b) m s s')
    (hle : b + m ≤ n) : Moved size base n s s' := by
  obtain ⟨r, rfl⟩ := Nat.le.dest hle
  have hn : size * (b + m + r) = size * b + size * m + size * r := by ring
  refine ⟨fun p hp => h.kept p (by omega), ?_, fun pq hpq => ?_, fun p hp => ?_⟩
  · have hfront : elems size s'.mem base b = elems size s.mem base b :=
      elems_congr fun p _ hp => h.kept p (.inl hp)
    have hback : elems size s'.mem (base + size * (b + m)) r = elems size s.mem (base + size * (b + m)) r :=
      elems_congr fun p hp _ => h.kept p (.inr (by rw [Nat.mul_add] at hp; omega))
    rw [elems_append, elems_append, elems_append, elems_append, hfront, hback]
    exact (h.perm.append_left _).append_right _
  · refine (h.compared pq hpq).imp_right ?_
    have hwide : ∀ p, IsElem size (base + size * b) m p → IsElem size base (b + m + r) p := by
      rintro p ⟨i, hi, rfl⟩
      exact ⟨b + i, by omega, by ring⟩
    exact And.imp (hwide _) (hwide _)
  · refine (h.stored p hp).imp_right fun hin => ?_
    omega

theorem Moved.front {base m n : Nat} {s s' : Sorting} (h : Moved size base m s s') (hle : m ≤ n) :
    Moved size base n s s' := by
  have hzero : Moved size (base + size * 0) m s s' := by simpa using h
  exact hzero.widen (by omega)

theorem Moved.compare {base n : Nat} (s : Sorting) {i j : Nat} (hi : i < n) (hj : j < n) :
    Moved size base n s (s.compare C (base + size * i) (base + size * j)).2 where
  kept _ _ := rfl
  perm := .refl _
  compared pq hpq := by
    rcases List.mem_append.mp hpq with hpq | hpq
    · exact .inl hpq
    · obtain rfl := List.mem_singleton.mp hpq
      exact .inr ⟨⟨i, hi, rfl⟩, ⟨j, hj, rfl⟩⟩
  stored _ := .inl

/-! ### The exchange -/

/-- After `i` bytes of two blocks were exchanged. -/
theorem swap_mem (s : Sorting) {p q : Nat} (i : Nat) (h : p + i ≤ q) (r : Nat) :
    (swap p q i s).mem r =
      if p ≤ r ∧ r < p + i then s.mem (q + (r - p)) else if q ≤ r ∧ r < q + i then s.mem (p + (r - q))
      else s.mem r := by
  induction i generalizing r with
  | zero =>
    rw [swap, if_neg (by omega), if_neg (by omega)]
  | succ i ih =>
    have hrest := ih (by omega)
    have hp : (swap p q i s).mem (p + i) = s.mem (p + i) := by
      rw [hrest, if_neg (by omega), if_neg (by omega)]
    have hq : (swap p q i s).mem (q + i) = s.mem (q + i) := by
      rw [hrest, if_neg (by omega), if_neg (by omega)]
    simp only [swap, Sorting.store, Function.update_apply, hp, hq]
    by_cases hatq : r = q + i
    · subst hatq
      rw [if_pos rfl, if_neg (by omega), if_pos (by omega), Nat.add_sub_cancel_left]
    · rw [if_neg hatq]
      by_cases hatp : r = p + i
      · subst hatp
        rw [if_pos rfl, if_pos (by omega), Nat.add_sub_cancel_left]
      · have hpi : (p ≤ r ∧ r < p + (i + 1)) ↔ (p ≤ r ∧ r < p + i) := by omega
        have hqi : (q ≤ r ∧ r < q + (i + 1)) ↔ (q ≤ r ∧ r < q + i) := by omega
        rw [if_neg hatp, hrest]
        simp only [hpi, hqi]

@[simp] theorem swap_compared (p q i : Nat) (s : Sorting) : (swap p q i s).compared = s.compared := by
  induction i with
  | zero => rfl
  | succ i ih => exact ih

theorem swap_stored (p q i : Nat) (s : Sorting) {r : Nat} (h : r ∈ (swap p q i s).stored) :
    r ∈ s.stored ∨ (p ≤ r ∧ r < p + i) ∨ (q ≤ r ∧ r < q + i) := by
  induction i with
  | zero => exact .inl h
  | succ i ih =>
    simp only [swap, Sorting.store, List.mem_append, List.mem_singleton] at h
    rcases h with (h | rfl) | rfl
    · rcases ih h with h | h
      · exact .inl h
      · exact .inr (by omega)
    · exact .inr (.inl (by omega))
    · exact .inr (.inr (by omega))

/-- The elements do not overlap. -/
theorem block_le (size : Nat) {i j : Nat} (h : i < j) : size * i + size ≤ size * j := by
  have hle : size * (i + 1) ≤ size * j := Nat.mul_le_mul_left _ h
  rwa [Nat.mul_add, Nat.mul_one] at hle

/-- The two elements are in each other's place, and every other one in its own. -/
theorem swap_elem (s : Sorting) (base : Nat) {a b : Nat} (hab : a < b) (i : Nat) :
    elem size (swap (base + size * a) (base + size * b) size s).mem (base + size * i) =
      elem size s.mem (base + size * Equiv.swap a b i) := by
  have hblock := block_le size hab
  have hmem := swap_mem s size (p := base + size * a) (q := base + size * b) (by omega)
  funext k
  have hk := k.isLt
  simp only [elem, hmem]
  rcases eq_or_ne i a with rfl | hia
  · rw [Equiv.swap_apply_left, if_pos (by omega)]
    congr 1
    omega
  rcases eq_or_ne i b with rfl | hib
  · rw [Equiv.swap_apply_right, if_neg (by omega), if_pos (by omega)]
    congr 1
    omega
  have ha : size * i + size ≤ size * a ∨ size * a + size ≤ size * i :=
    (Nat.lt_or_gt_of_ne hia).imp (block_le size) (block_le size)
  have hb : size * i + size ≤ size * b ∨ size * b + size ≤ size * i :=
    (Nat.lt_or_gt_of_ne hib).imp (block_le size) (block_le size)
  rw [Equiv.swap_apply_of_ne_of_ne hia hib, if_neg (by omega), if_neg (by omega)]

theorem Moved.swap {base n : Nat} (s : Sorting) {a b : Nat} (hab : a < b) (hb : b < n) :
    Moved size base n s (swap (base + size * a) (base + size * b) size s) := by
  have hblock := block_le size hab
  have hlast := block_le size hb
  refine ⟨fun p hp => ?_, ?_, fun pq hpq => .inl (by simpa using hpq), fun p hp => ?_⟩
  · rw [swap_mem s size (by omega), if_neg (by omega), if_neg (by omega)]
  · refine elems_perm (Equiv.swap a b) (fun i => ?_) fun i _ => swap_elem s base hab i
    rw [Equiv.swap_apply_def]
    split_ifs <;> omega
  · refine (swap_stored _ _ _ s hp).imp_right fun hin => ?_
    omega

/-! ### The partition -/

/-- The element with an index. -/
def item (size : Nat) (s : Sorting) (base i : Nat) : Elem size := elem size s.mem (base + size * i)

/-- Looking upward ends at the latest where an element is not below the middle one. -/
theorem up_spec {base n c a j : Nat} (s : Sorting) (hc : c < n) (hj : j < n) (haj : a ≤ j)
    (hstop : C.compar (item size s base c) (item size s base j) ≤ 0) :
    ∃ a' s', run (fun _ => none) (upTurn C base c) (n + 1) (a, s) = some (a', s') ∧ s'.mem = s.mem ∧
      Moved size base n s s' ∧ a ≤ a' ∧ a' ≤ j ∧
      (∀ i, a ≤ i → i < a' → 0 < C.compar (item size s base c) (item size s base i)) ∧
      C.compar (item size s base c) (item size s base a') ≤ 0 := by
  refine run_rank (s := (a, s))
    (fun m (x : Nat × Sorting) => m = j - x.1 ∧ x.2.mem = s.mem ∧ Moved size base n s x.2 ∧ a ≤ x.1 ∧ x.1 ≤ j ∧
      ∀ i, a ≤ i → i < x.1 → 0 < C.compar (item size s base c) (item size s base i))
    (fun r => ∃ a' s', r = some (a', s') ∧ s'.mem = s.mem ∧ Moved size base n s s' ∧ a ≤ a' ∧ a' ≤ j ∧
      (∀ i, a ≤ i → i < a' → 0 < C.compar (item size s base c) (item size s base i)) ∧
      C.compar (item size s base c) (item size s base a') ≤ 0)
    ?_ ⟨rfl, rfl, .refl size base n s, le_refl a, haj, fun i hi hlt => absurd hi (by omega)⟩ (by omega : j - a < n + 1)
  rintro m ⟨i, t⟩ ⟨rfl, hmem, hmoved, hai, hij, hbelow⟩
  have hnext : Moved size base n s (t.compare C (base + size * c) (base + size * i)).2 :=
    hmoved.trans (.compare t hc (by omega))
  have hres : (t.compare C (base + size * c) (base + size * i)).1 =
      C.compar (item size s base c) (item size s base i) := by
    rw [Sorting.compare, hmem]
    rfl
  simp only [upTurn, hres]
  by_cases hup : 0 < C.compar (item size s base c) (item size s base i)
  · have hne : i ≠ j := by
      rintro rfl
      omega
    rw [if_pos hup]
    refine .inl ⟨_, j - (i + 1), rfl, by omega, rfl, hmem, hnext, by omega, by omega, fun i' hi' hlt => ?_⟩
    rcases Nat.lt_succ_iff_lt_or_eq.mp hlt with hlt | rfl
    · exact hbelow i' hi' hlt
    · exact hup
  · rw [if_neg hup]
    exact .inr ⟨_, rfl, i, _, rfl, hmem, hnext, hai, hij, hbelow, by omega⟩

/-- Looking downward ends at the latest where an element is not above the middle one. -/
theorem down_spec {base n c b j : Nat} (s : Sorting) (hc : c < n) (hb : b < n) (hjb : j ≤ b)
    (hstop : 0 ≤ C.compar (item size s base c) (item size s base j)) :
    ∃ b' s', run (fun _ => none) (downTurn C base c) (n + 1) (b, s) = some (b', s') ∧ s'.mem = s.mem ∧
      Moved size base n s s' ∧ j ≤ b' ∧ b' ≤ b ∧
      (∀ i, b' < i → i ≤ b → C.compar (item size s base c) (item size s base i) < 0) ∧
      0 ≤ C.compar (item size s base c) (item size s base b') := by
  refine run_rank (s := (b, s))
    (fun m (x : Nat × Sorting) => m = x.1 - j ∧ x.2.mem = s.mem ∧ Moved size base n s x.2 ∧ j ≤ x.1 ∧ x.1 ≤ b ∧
      ∀ i, x.1 < i → i ≤ b → C.compar (item size s base c) (item size s base i) < 0)
    (fun r => ∃ b' s', r = some (b', s') ∧ s'.mem = s.mem ∧ Moved size base n s s' ∧ j ≤ b' ∧ b' ≤ b ∧
      (∀ i, b' < i → i ≤ b → C.compar (item size s base c) (item size s base i) < 0) ∧
      0 ≤ C.compar (item size s base c) (item size s base b'))
    ?_ ⟨rfl, rfl, .refl size base n s, hjb, le_refl b, fun i hi hle => absurd hi (by omega)⟩ (by omega : b - j < n + 1)
  rintro m ⟨i, t⟩ ⟨rfl, hmem, hmoved, hji, hib, habove⟩
  have hnext : Moved size base n s (t.compare C (base + size * c) (base + size * i)).2 :=
    hmoved.trans (.compare t hc (by omega))
  have hres : (t.compare C (base + size * c) (base + size * i)).1 =
      C.compar (item size s base c) (item size s base i) := by
    rw [Sorting.compare, hmem]
    rfl
  simp only [downTurn, hres]
  by_cases hdown : C.compar (item size s base c) (item size s base i) < 0
  · have hne : i ≠ j := by
      rintro rfl
      omega
    -- the stop is below, so the index does not go round
    have hpred : pred i = i - 1 := if_neg (by omega)
    rw [if_pos hdown, hpred]
    refine .inl ⟨_, i - 1 - j, rfl, by omega, rfl, hmem, hnext, by omega, by omega, fun i' hi' hle => ?_⟩
    rcases eq_or_ne i' i with rfl | hi
    · exact hdown
    · exact habove i' (by omega) hle
  · rw [if_neg hdown]
    exact .inr ⟨_, rfl, i, _, rfl, hmem, hnext, hji, hib, habove, by omega⟩

/-- What holds when the partition goes round: what is behind the indices is on its side of
`x`, the middle element. At first nothing is; then there is something behind each. -/
structure Split (C : Comparator size) (base n : Nat) (s : Sorting) (x : Elem size) (r : Cursors) : Prop where
  moved : Moved size base n s r.sort
  middle : r.c < n ∧ item size r.sort base r.c = x
  meet : r.a ≤ r.b + 1
  low : ∀ i < r.a, 0 ≤ C.compar x (item size r.sort base i)
  high : ∀ i, r.b < i → i < n → C.compar x (item size r.sort base i) ≤ 0
  rest : (0 < r.a ∧ r.b + 1 < n) ∨ (r.a = 0 ∧ r.b + 1 = n ∧ r.c + 1 < n)

/-- One part is not above the middle element, and the other not below. -/
def Parted (C : Comparator size) (base n b : Nat) (s : Sorting) : Prop :=
  ∃ x, (∀ i < b, 0 ≤ C.compar x (item size s base i)) ∧ ∀ i, b ≤ i → i < n → C.compar x (item size s base i) ≤ 0

theorem Split.turn {base n : Nat} {s : Sorting} {x : Elem size} {r : Cursors} (h : Split C base n s x r) :
    (∃ r', partTurn C base n r = .again r' ∧ r'.b + 1 - r'.a < r.b + 1 - r.a ∧ Split C base n s x r') ∨
      ∃ b s', partTurn C base n r = .leave (some (b, s')) ∧ b + 1 < n ∧ Moved size base n s s' ∧
        Parted C base n (b + 1) s' := by
  obtain ⟨a, b, c, t⟩ := r
  obtain ⟨hmoved, ⟨hc, hx⟩, hmeet, hlow, hhigh, hrest⟩ := h
  simp only at hmoved hc hx hmeet hlow hhigh hrest
  have hself := C.self x
  have hup : ∃ j, j < n ∧ a ≤ j ∧ C.compar x (item size t base j) ≤ 0 ∧ (a = 0 → j + 1 < n) := by
    rcases hrest with ⟨ha, hb⟩ | ⟨ha, hb, hcn⟩
    · exact ⟨b + 1, hb, hmeet, hhigh _ (by omega) hb, by omega⟩
    · exact ⟨c, hc, by omega, by rw [hx]; omega, fun _ => hcn⟩
  have hdown : ∃ j, j ≤ b ∧ 0 ≤ C.compar x (item size t base j) := by
    rcases hrest with ⟨ha, hb⟩ | ⟨ha, hb, hcn⟩
    · exact ⟨a - 1, by omega, hlow _ (by omega)⟩
    · exact ⟨c, by omega, by rw [hx]; omega⟩
  obtain ⟨j, hj, haj, hstopup, hfirst⟩ := hup
  obtain ⟨l, hlb, hstopdown⟩ := hdown
  obtain ⟨a', t', hrun, hmem, hmoved', ha, ha'j, hbelow, hata⟩ :=
    up_spec t hc hj haj (by rw [hx]; exact hstopup)
  have hat : ∀ i, item size t' base i = item size t base i := fun i => by rw [item, item, hmem]
  obtain ⟨b', t'', hrun', hmem', hmoved'', hb', hb'b, habove, hatb⟩ :=
    down_spec t' (b := b) (j := l) hc (by omega) hlb (by rw [hat, hat, hx]; exact hstopdown)
  have hat' : ∀ i, item size t'' base i = item size t base i := fun i => by rw [item, hmem', ← item, hat]
  simp only [hat, hx] at hbelow hata habove hatb
  have hall : Moved size base n s t'' := (hmoved.trans hmoved').trans hmoved''
  have hleft : ∀ i < a', 0 ≤ C.compar x (item size t base i) := fun i hi => by
    rcases Nat.lt_or_ge i a with hlt | hge
    · exact hlow i hlt
    · exact (hbelow i hge hi).le
  have hright : ∀ i, b' < i → i < n → C.compar x (item size t base i) ≤ 0 := fun i hi hin => by
    rcases Nat.lt_or_ge b i with hlt | hge
    · exact hhigh i hlt hin
    · exact (habove i hi hge).le
  simp only [partTurn, hrun, hrun']
  by_cases hle : b' ≤ a'
  · rw [if_pos hle]
    refine .inr ⟨b', t'', rfl, by omega, hall, x, fun i hi => ?_, fun i hi hin => ?_⟩
    · rw [hat']
      rcases Nat.lt_or_ge i a' with hlt | hge
      · exact hleft i hlt
      · obtain rfl : i = b' := by omega
        exact hatb
    · rw [hat']
      exact hright i hi hin
  · have hlt : a' < b' := by omega
    have hpred : pred b' = b' - 1 := if_neg (by omega)
    have hswap : ∀ i, item size (swap (base + size * a') (base + size * b') size t'') base i =
        item size t base (Equiv.swap a' b' i) := fun i => by
      rw [item, swap_elem t'' base hlt, ← item, hat']
    rw [if_neg hle, hpred]
    refine .inl ⟨_, rfl, by simp only; omega, hall.trans (.swap t'' hlt (by omega)), ?_, by simp only; omega,
      fun i hi => ?_, fun i hi hin => ?_, .inl (by simp only; omega)⟩
    · simp only [hswap]
      refine ⟨by split_ifs <;> omega, ?_⟩
      rw [← hx]
      split_ifs with hca hcb
      · rw [Equiv.swap_apply_right, hca]
      · rw [Equiv.swap_apply_left, hcb]
      · rw [Equiv.swap_apply_of_ne_of_ne hca hcb]
    · simp only [hswap]
      rcases Nat.lt_succ_iff_lt_or_eq.mp hi with hi | rfl
      · rw [Equiv.swap_apply_of_ne_of_ne (by omega) (by omega)]
        exact hleft i hi
      · rw [Equiv.swap_apply_left]
        exact hatb
    · simp only at hi
      simp only [hswap]
      rcases eq_or_ne i b' with rfl | hi'
      · rw [Equiv.swap_apply_right]
        exact hata
      · rw [Equiv.swap_apply_of_ne_of_ne (by omega) hi']
        exact hright i (by omega) hin

/-- The parts are both smaller than the array. -/
theorem partition_spec (C : Comparator size) (base : Nat) {n : Nat} (s : Sorting) (hn : 1 < n) :
    ∃ b s', partition C base n s = some (b, s') ∧ 0 < b ∧ b < n ∧ Moved size base n s s' ∧
      Parted C base n b s' := by
  have hrun : ∃ b s', run (fun _ => none) (partTurn C base n) (n + 1) ⟨0, n - 1, (0 + (n - 1)) / 2, s⟩ =
      some (b, s') ∧ b + 1 < n ∧ Moved size base n s s' ∧ Parted C base n (b + 1) s' := by
    refine run_rank
      (fun m r => m = r.b + 1 - r.a ∧ Split C base n s (item size s base ((0 + (n - 1)) / 2)) r)
      (fun o => ∃ b s', o = some (b, s') ∧ b + 1 < n ∧ Moved size base n s s' ∧ Parted C base n (b + 1) s')
      ?_ ⟨rfl, ?_⟩ (by simp only; omega)
    · rintro m r ⟨rfl, hsplit⟩
      rcases hsplit.turn with ⟨r', hagain, hrank, hnext⟩ | ⟨b, s', hleave, hpost⟩
      · exact .inl ⟨r', _, hagain, hrank, rfl, hnext⟩
      · exact .inr ⟨_, hleave, b, s', rfl, hpost⟩
    · exact ⟨.refl size base n s, ⟨by simp only; omega, rfl⟩, by simp only; omega, by simp, by simp only; omega,
        .inr ⟨rfl, by simp only; omega, by simp only; omega⟩⟩
  obtain ⟨b, s', hrun, hb, hpost⟩ := hrun
  refine ⟨b + 1, s', ?_, by omega, hb, hpost⟩
  simp only [partition, hrun, Option.bind_eq_bind, Option.bind_some, Option.pure_def]

/-! ### The sort -/

/-- In non-decreasing order. -/
def Sorted (C : Comparator size) (base n : Nat) (mem : Mem) : Prop :=
  (elems size mem base n).Pairwise fun x y => C.compar x y ≤ 0

theorem Sorted.of_le_one {base n : Nat} (mem : Mem) (h : n ≤ 1) : Sorted C base n mem := by
  have hlen : (elems size mem base n).length ≤ 1 := by simpa [elems] using h
  unfold Sorted
  match elems size mem base n, hlen with
  | [], _ => exact .nil
  | [x], _ => exact List.pairwise_singleton _ x

/-- A parted array stays parted when elements change their places inside the parts. -/
theorem Parted.moved {base n b : Nat} {s s' : Sorting} (h : Parted C base n b s) (hb : b ≤ n)
    (hleft : (elems size s'.mem base b).Perm (elems size s.mem base b))
    (hright : (elems size s'.mem (base + size * b) (n - b)).Perm (elems size s.mem (base + size * b) (n - b))) :
    ∀ x ∈ elems size s'.mem base b, ∀ y ∈ elems size s'.mem (base + size * b) (n - b), C.compar x y ≤ 0 := by
  obtain ⟨z, hlow, hhigh⟩ := h
  intro x hx y hy
  obtain ⟨i, hi, rfl⟩ := mem_elems.mp (hleft.mem_iff.mp hx)
  obtain ⟨j, hj, rfl⟩ := mem_elems.mp (hright.mem_iff.mp hy)
  have hz := hlow i hi
  have hz' := hhigh (b + j) (by omega) (by omega)
  have hflips := C.flips (elem size s.mem (base + size * i)) z
  refine C.trans _ z _ ?_ ?_
  · rw [item] at hz
    omega
  · rw [item, Nat.mul_add, ← Nat.add_assoc] at hz'
    exact hz'

theorem Sorted.append {base n b : Nat} {mem : Mem} (hb : b ≤ n) (hleft : Sorted C base b mem)
    (hright : Sorted C (base + size * b) (n - b) mem)
    (hcross : ∀ x ∈ elems size mem base b, ∀ y ∈ elems size mem (base + size * b) (n - b), C.compar x y ≤ 0) :
    Sorted C base n mem := by
  have hn : n = b + (n - b) := by omega
  rw [Sorted, hn, elems_append]
  exact List.pairwise_append.mpr ⟨hleft, hright, hcross⟩

/-- Two parts that were sorted, in whatever order, make a sorted whole. -/
theorem Sorted.parts {base n b : Nat} {s s₁ s₂ : Sorting} (hb : b ≤ n) (hparted : Parted C base n b s)
    (h : (Moved size base b s s₁ ∧ Sorted C base b s₁.mem ∧ Moved size (base + size * b) (n - b) s₁ s₂ ∧
        Sorted C (base + size * b) (n - b) s₂.mem) ∨
      (Moved size (base + size * b) (n - b) s s₁ ∧ Sorted C (base + size * b) (n - b) s₁.mem ∧
        Moved size base b s₁ s₂ ∧ Sorted C base b s₂.mem)) :
    Moved size base n s s₂ ∧ Sorted C base n s₂.mem := by
  -- sorting the one part leaves the other as it is
  have hleftkept : ∀ {t t' : Sorting}, Moved size (base + size * b) (n - b) t t' →
      elems size t'.mem base b = elems size t.mem base b :=
    fun hmoved => elems_congr fun p _ hp => hmoved.kept p (.inl hp)
  have hrightkept : ∀ {t t' : Sorting}, Moved size base b t t' →
      elems size t'.mem (base + size * b) (n - b) = elems size t.mem (base + size * b) (n - b) :=
    fun hmoved => elems_congr fun p hp _ => hmoved.kept p (.inr hp)
  rcases h with ⟨hleft, hsorted, hright, hsorted'⟩ | ⟨hright, hsorted, hleft, hsorted'⟩
  · refine ⟨(hleft.front hb).trans (hright.widen (by omega)), .append hb ?_ hsorted' ?_⟩
    · rwa [Sorted, hleftkept hright]
    · refine hparted.moved hb ?_ (hrightkept hleft ▸ hright.perm)
      rw [hleftkept hright]
      exact hleft.perm
  · refine ⟨(hright.widen (by omega)).trans (hleft.front hb), .append hb hsorted' ?_ ?_⟩
    · rwa [Sorted, hrightkept hleft]
    · refine hparted.moved hb (hleftkept hright ▸ hleft.perm) ?_
      rw [hrightkept hleft]
      exact hright.perm

/-- **The sort.** Both parts are smaller than the array, so it comes to an end. -/
theorem qsortFrom_spec (k base n : Nat) (s : Sorting) (hk : n ≤ k + 1) :
    ∃ s', qsortFrom C k base n s = some s' ∧ Moved size base n s s' ∧ Sorted C base n s'.mem := by
  induction k generalizing base n s with
  | zero =>
    rw [qsortFrom, if_neg (by omega)]
    exact ⟨s, rfl, .refl size base n s, .of_le_one _ (by omega)⟩
  | succ k ih =>
    by_cases hn : 1 < n
    · obtain ⟨b, t, hpartition, hpos, hb, hmoved, hparted⟩ := partition_spec C base s hn
      simp only [qsortFrom, if_pos hn, hpartition, Option.bind_eq_bind, Option.bind_some]
      by_cases hsmaller : b < n - b
      · obtain ⟨t₁, hleft, hleftmoved, hleftsorted⟩ := ih base b t (by omega)
        obtain ⟨t₂, hright, hrightmoved, hrightsorted⟩ := ih (base + size * b) (n - b) t₁ (by omega)
        have hall := Sorted.parts hb.le hparted (.inl ⟨hleftmoved, hleftsorted, hrightmoved, hrightsorted⟩)
        rw [if_pos hsmaller, hleft, Option.bind_some]
        exact ⟨t₂, hright, hmoved.trans hall.1, hall.2⟩
      · obtain ⟨t₁, hright, hrightmoved, hrightsorted⟩ := ih (base + size * b) (n - b) t (by omega)
        obtain ⟨t₂, hleft, hleftmoved, hleftsorted⟩ := ih base b t₁ (by omega)
        have hall := Sorted.parts hb.le hparted (.inr ⟨hrightmoved, hrightsorted, hleftmoved, hleftsorted⟩)
        rw [if_neg hsmaller, hright, Option.bind_some]
        exact ⟨t₂, hleft, hmoved.trans hall.1, hall.2⟩
    · rw [qsortFrom, if_neg hn]
      exact ⟨s, rfl, .refl size base n s, .of_le_one _ (by omega)⟩

/-! ### The search -/

/-- An element the key is equal to. -/
def Found (C : Comparator size) (key : Elem size) (base n : Nat) (mem : Mem) (p : Nat) : Prop :=
  IsElem size base n p ∧ C.compar key (elem size mem p) = 0

/-- Among elements in order the search comes to an equal one if there is one: those in front
of what is left are below the key, those behind above it. -/
theorem bsearch_spec {base n : Nat} {mem : Mem} (h : Sorted C base n mem) (key : Elem size) :
    ∃ r, bsearch C key base n mem = some r ∧ (∀ p, r = some p → Found C key base n mem p) ∧
      (r = none → ∀ p, ¬ Found C key base n mem p) := by
  have hsorted : ∀ i j, i < j → j < n →
      C.compar (elem size mem (base + size * i)) (elem size mem (base + size * j)) ≤ 0 := fun i j hij hj => by
    have hpair := List.pairwise_iff_getElem.mp h i j (by simp [elems]; omega) (by simpa [elems] using hj) hij
    simpa [elems] using hpair
  refine run_rank (s := (base, n))
    (fun m (x : Nat × Nat) => m = x.2 ∧ ∃ k, x.1 = base + size * k ∧ k + x.2 ≤ n ∧
      (∀ i < k, 0 < C.compar key (elem size mem (base + size * i))) ∧
      ∀ i, k + x.2 ≤ i → i < n → C.compar key (elem size mem (base + size * i)) < 0)
    (fun o => ∃ r, o = some r ∧ (∀ p, r = some p → Found C key base n mem p) ∧
      (r = none → ∀ p, ¬ Found C key base n mem p))
    ?_ ⟨rfl, 0, by simp, by simp, by simp, fun i hi hin => absurd hi (by simp only; omega)⟩ (Nat.lt_succ_self n)
  rintro l ⟨q, _⟩ ⟨rfl, k, rfl, hkl, hbelow, habove⟩
  simp only at hkl hbelow habove
  simp only [bsearchTurn]
  have hptr : base + size * k + l / 2 * size = base + size * (k + l / 2) := by ring
  by_cases hpos : 0 < l
  · rw [if_pos hpos, hptr]
    rcases lt_trichotomy (C.compar key (elem size mem (base + size * (k + l / 2)))) 0 with hlt | heq | hgt
    · rw [if_neg hlt.ne, if_neg (by omega)]
      refine .inl ⟨_, l / 2, rfl, by omega, rfl, k, rfl, by simp only; omega, hbelow, fun i hi hin => ?_⟩
      simp only at hi
      rcases Nat.eq_or_lt_of_le hi with rfl | hi
      · exact hlt
      -- what is not below this one is above the key
      by_contra hnot
      have hflips := C.flips (elem size mem (base + size * i)) key
      have hflips' := C.flips (elem size mem (base + size * (k + l / 2))) key
      have hle := C.trans _ _ key (hsorted _ i hi hin) (by omega)
      omega
    · rw [if_pos heq]
      refine .inr ⟨_, rfl, _, rfl, fun p hp => ?_, fun hnone => by cases hnone⟩
      cases hp
      exact ⟨⟨k + l / 2, by omega, rfl⟩, heq⟩
    · rw [if_neg hgt.ne', if_pos hgt]
      refine .inl ⟨_, l - l / 2 - 1, rfl, by omega, rfl, k + l / 2 + 1, by simp only; ring, by simp only; omega,
        fun i hi => ?_, fun i hi hin => habove i (by simp only at hi; omega) hin⟩
      rcases Nat.lt_succ_iff_lt_or_eq.mp hi with hi | rfl
      · by_contra hnot
        have hle := C.trans key _ _ (by omega) (hsorted i (k + l / 2) hi (by omega))
        omega
      · exact hgt
  · rw [if_neg hpos]
    refine .inr ⟨_, rfl, none, rfl, fun p hp => (Option.some_ne_none p hp.symm).elim, ?_⟩
    rintro - p ⟨⟨i, hi, rfl⟩, heq⟩
    rcases Nat.lt_or_ge i k with hik | hik
    · have hlow := hbelow i hik
      omega
    · have hhigh := habove i (by omega) hi
      omega

/-! ### An array, sorted and searched -/

/-- What `qsort()` and `bsearch()` owe: the sort comes to an end, has looked only at elements and
stored only inside the array, which is the same elements in order; and a search of it comes to an
end, with an element that is equal to the key, if there is one. -/
structure SortsAndFinds (C : Comparator size) (base n : Nat) (mem : Mem) (s : Sorting) : Prop where
  returns : qsort C base n mem = some s
  compared : ∀ pq ∈ s.compared, IsElem size base n pq.1 ∧ IsElem size base n pq.2
  stored : ∀ p ∈ s.stored, base ≤ p ∧ p < base + size * n
  outside : ∀ p, p < base ∨ base + size * n ≤ p → s.mem p = mem p
  perm : (elems size s.mem base n).Perm (elems size mem base n)
  sorted : Sorted C base n s.mem
  finds : ∀ key, ∃ r, bsearch C key base n s.mem = some r ∧ (∀ p, r = some p → Found C key base n s.mem p) ∧
    (r.isSome ↔ ∃ p, Found C key base n s.mem p)

/-- **`qsort()` sorts, and `bsearch()` finds**: any array, with any comparator that is a total
preorder. -/
theorem qsort_bsearch (C : Comparator size) (base n : Nat) (mem : Mem) :
    ∃ s, SortsAndFinds C base n mem s := by
  obtain ⟨s, hrun, hmoved, hsorted⟩ := qsortFrom_spec (C := C) n base n ⟨mem, [], []⟩ (by omega)
  refine ⟨s, hrun, fun pq hpq => ?_, fun p hp => ?_, hmoved.kept, hmoved.perm, hsorted, fun key => ?_⟩
  · exact (hmoved.compared pq hpq).resolve_left List.not_mem_nil
  · exact (hmoved.stored p hp).resolve_left List.not_mem_nil
  · obtain ⟨r, hsearch, hfound, hnone⟩ := bsearch_spec hsorted key
    refine ⟨r, hsearch, hfound, fun hsome => ?_, ?_⟩
    · obtain ⟨p, rfl⟩ := Option.isSome_iff_exists.mp hsome
      exact ⟨p, hfound p rfl⟩
    · rintro ⟨p, hp⟩
      by_contra hnot
      exact hnone (by simpa using hnot) p hp

end Libc370.Qsort
