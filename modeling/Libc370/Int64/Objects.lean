import Libc370.Int64

/-! The 64-bit operations on objects (`ext/int64`), whatever their arguments alias.

A pointer is the name of an object and a store gives every object its value, so
arguments that alias are equal names. The locals of a call are further names, which
hold anything when the call starts. The operations read and write the store in the
order of the source, halfword by halfword where the source does.

All of them but `__64_pow()` have read their operands before they write the result.
`__64_pow()` clears the result first. -/
namespace Libc370.Int64.Objects

open Function (update)

abbrev Store (ι : Type*) := ι → U64

section Calls
variable {ι L : Type*}

/-- The store of a call: the caller's objects and its own locals. -/
def enter (junk : U64) (s : Store ι) : Store (ι ⊕ L) := Sum.elim s (fun _ => junk)

/-- What a call leaves to its caller. -/
def leave (f : Store (ι ⊕ L)) : Store ι := fun p => f (.inl p)

@[simp] theorem leave_enter (junk : U64) (s : Store ι) : leave (enter junk s : Store (ι ⊕ L)) = s := rfl

@[simp] theorem enter_object (junk : U64) (s : Store ι) (p : ι) :
    (enter junk s : Store (ι ⊕ L)) (.inl p) = s p := rfl

@[simp] theorem leave_apply (f : Store (ι ⊕ L)) (p : ι) : leave f p = f (.inl p) := rfl

variable [DecidableEq ι] [DecidableEq L]

@[simp] theorem leave_update_local (f : Store (ι ⊕ L)) (l : L) (v : U64) :
    leave (update f (.inr l) v) = leave f := by
  funext p
  exact Function.update_of_ne Sum.inl_ne_inr _ _

@[simp] theorem leave_update_object (f : Store (ι ⊕ L)) (p : ι) (v : U64) :
    leave (update f (.inl p) v) = update (leave f) p v :=
  Function.update_comp_eq_of_injective f Sum.inl_injective p v

end Calls

variable {ι : Type*} [DecidableEq ι]

/-- `__64_init()`. -/
def init (n : ι) (s : Store ι) : Store ι := update s n 0

/-- `__64_copy()`. -/
def copy (src dst : ι) (s : Store ι) : Store ι := update s dst (s src)

/-- `__64_from_u32()`. -/
def fromU32 (n : ι) (i : Nat) (s : Store ι) : Store ι := update s n (Int64.fromU32 i)

/-- `__64_from_i32()`. -/
def fromI32 (n : ι) (i : BitVec 32) (s : Store ι) : Store ι := update s n (Int64.fromI32 i)

/-- `__64_inc()`. -/
def inc (n : ι) (s : Store ι) : Store ι := update s n (Int64.inc (s n))

/-- `__64_dec()`. -/
def dec (n : ι) (s : Store ι) : Store ι := update s n (Int64.dec (s n))

/-- `__64_lshift_one_bit()`. -/
def lshiftOneBit (a : ι) (s : Store ι) : Store ι := update s a (Int64.lshiftOneBit (s a))

/-- `__64_rshift_one_bit()`. -/
def rshiftOneBit (a : ι) (s : Store ι) : Store ι := update s a (Int64.rshiftOneBit (s a))

/-- `__64_lshift_word()`. -/
def lshiftWord (a : ι) (nwords : Int) (s : Store ι) : Store ι := update s a (Int64.lshiftWord (s a) nwords)

/-- `__64_or()`. -/
def or (a b c : ι) (s : Store ι) : Store ι := update s c (Int64.or (s a) (s b))

/-- The loop of `__64_add()` and `__64_sub()`: from `array[3]` to `array[0]`, with what
is carried from one halfword to the next. -/
def sweep (f : Nat → Nat → Nat → Nat × Nat) (a b c : ι) (s : Store ι) : Store ι :=
  ([3, 2, 1, 0].foldl (fun (x : Nat × Store ι) i =>
    let out := f (array (x.2 a) i) (array (x.2 b) i) x.1
    (out.2, update x.2 c (setArray (x.2 c) i out.1))) (0, s)).2

/-- `__64_add()`: the sum of two halfwords, and the carry. -/
def addLimb (x y carry : Nat) : Nat × Nat :=
  let tmp := x + y + carry
  (tmp, if 0xFFFF < tmp then 1 else 0)

/-- `__64_sub()`: the difference of two halfwords, and the borrow. -/
def subLimb (x y borrow : Nat) : Nat × Nat :=
  let tmp1 := x + 0x10000
  let tmp2 := y + borrow
  let res := tmp1 - tmp2
  (res, if res ≤ 0xFFFF then 1 else 0)

/-- `__64_add()`. -/
def add (a b c : ι) (s : Store ι) : Store ι := sweep addLimb a b c s

/-- `__64_sub()`. -/
def sub (a b c : ι) (s : Store ι) : Store ι := sweep subLimb a b c s

inductive MulLocal
  | row
  | tmp
  | result
  deriving DecidableEq

/-- One product of `__64_mul()`, added to the row. -/
def mulProduct (a b : ι) (i : Nat) (f : Store (ι ⊕ MulLocal)) (j : Nat) : Store (ι ⊕ MulLocal) :=
  let k := i + j
  if 2 < k then
    let intermediate := array (f (.inl a)) i * array (f (.inl b)) j
    if intermediate ≠ 0 then
      let f := fromU32 (.inr .tmp) intermediate f
      let f := lshiftWord (.inr .tmp) (6 - k : Nat) f
      add (.inr .tmp) (.inr .row) (.inr .row) f
    else f
  else f

/-- One row of `__64_mul()`, added to the result. -/
def mulRow (a b : ι) (f : Store (ι ⊕ MulLocal)) (i : Nat) : Store (ι ⊕ MulLocal) :=
  let f := [3, 2, 1, 0].foldl (mulProduct a b i) (init (.inr .row) f)
  add (.inr .result) (.inr .row) (.inr .result) f

/-- `__64_mul()`. -/
def mul (junk : U64) (a b c : ι) (s : Store ι) : Store ι :=
  let f := init (.inr .result) (enter junk s)
  let f := [3, 2, 1, 0].foldl (mulRow a b) f
  leave (copy (.inr .result) (.inl c) f)

/-- `__64_lshift()` and `__64_rshift()`: first by whole halfwords, then by bits. -/
def shift (word : U64 → Int → U64) (bits : U64 → Nat → U64) (a b : ι) (nbits : Int) (s : Store ι) : Store ι :=
  if 0 ≤ nbits then
    let nwords := nbits / 16
    let s := copy a b s
    let (s, nbits) :=
      if nwords ≠ 0 then (update s b (word (s b) nwords), nbits - nwords * 16) else (s, nbits)
    if nbits ≠ 0 then update s b (bits (s b) nbits.toNat) else s
  else s

/-- `__64_lshift()`. -/
def lshift (a b : ι) (nbits : Int) (s : Store ι) : Store ι := shift Int64.lshiftWord lshiftBits a b nbits s

/-- `__64_rshift()`. -/
def rshift (a b : ι) (nbits : Int) (s : Store ι) : Store ι := shift Int64.rshiftWord rshiftBits a b nbits s

inductive DivLocal
  | current
  | denom
  | tmp
  deriving DecidableEq

/-- The first loop of `__64_div()`; it says whether it stopped for an overflow. -/
def growTurn (a : ι) (f : Store (ι ⊕ DivLocal)) :
    Loop.Turn (Store (ι ⊕ DivLocal)) (Option (Bool × Store (ι ⊕ DivLocal))) :=
  if cmp (f (.inr .denom)) (f (.inl a)) ≠ .gt then
    if 0x8000 ≤ array (f (.inr .denom)) 0 then .leave (some (true, f))
    else
      let f := lshiftOneBit (.inr .current) f
      .again (lshiftOneBit (.inr .denom) f)
  else .leave (some (false, f))

/-- The second loop of `__64_div()`. -/
def subtractTurn (c : ι) (f : Store (ι ⊕ DivLocal)) :
    Loop.Turn (Store (ι ⊕ DivLocal)) (Option (Store (ι ⊕ DivLocal))) :=
  if !isZero (f (.inr .current)) then
    let f :=
      if cmp (f (.inr .tmp)) (f (.inr .denom)) ≠ .lt then
        let f := sub (.inr .tmp) (.inr .denom) (.inr .tmp) f
        or (.inl c) (.inr .current) (.inl c) f
      else f
    let f := rshiftOneBit (.inr .current) f
    .again (rshiftOneBit (.inr .denom) f)
  else .leave (some f)

/-- `__64_div()`: whether it set `errno` to `EDOM`, and the store. It is `none` if a
loop were to go on for more turns than these. -/
def div (junk : U64) (a b c : ι) (s : Store ι) : Option (Bool × Store ι) :=
  if isZero (s b) then some (true, init c s)
  else do
    let f := fromI32 (.inr .current) 1 (enter junk s)
    let f := copy (.inl b) (.inr .denom) f
    let f := copy (.inl a) (.inr .tmp) f
    let (overflow, f) ← Loop.run (fun _ => none) (growTurn a) 65 f
    let f := if overflow then f else rshiftOneBit (.inr .current) (rshiftOneBit (.inr .denom) f)
    let f := init (.inl c) f
    let f ← Loop.run (fun _ => none) (subtractTurn c) 66 f
    return (false, leave f)

inductive DivmodLocal
  | tmp
  | tmpc
  deriving DecidableEq

/-- `__64_divmod()`. -/
def divmod (junk : U64) (a b c d : ι) (s : Store ι) : Option (Bool × Store ι) := do
  let (edom, f) ← div junk (.inl a) (.inl b) (.inr DivmodLocal.tmpc) (enter junk s)
  let f := mul junk (.inr .tmpc) (.inl b) (.inr .tmp) f
  let f := sub (.inl a) (.inr .tmp) (.inl d) f
  return (edom, leave (copy (.inr .tmpc) (.inl c) f))

inductive ModLocal
  | tmp
  deriving DecidableEq

/-- `__64_mod()`. -/
def mod (junk : U64) (a b c : ι) (s : Store ι) : Option (Bool × Store ι) := do
  let (edom, f) ← divmod junk (.inl a) (.inl b) (.inr ModLocal.tmp) (.inl c) (enter junk s)
  return (edom, leave f)

inductive PowLocal
  | tmp
  | bcopy
  deriving DecidableEq

/-- The loop of `__64_pow()`. -/
def powTurn (junk : U64) (a c : ι) (f : Store (ι ⊕ PowLocal)) :
    Loop.Turn (Store (ι ⊕ PowLocal)) (Option (Store (ι ⊕ PowLocal))) :=
  if !isZero (f (.inr .bcopy)) then
    let f := mul junk (.inr .tmp) (.inl a) (.inl c) f
    let f := dec (.inr .bcopy) f
    .again (copy (.inl c) (.inr .tmp) f)
  else .leave (some f)

/-- `__64_pow()`. The result is cleared before the operands are read. -/
def pow (junk : U64) (a b c : ι) (s : Store ι) : Option (Store ι) :=
  let s := init c s
  if cmp (s b) (s c) = .eq then some (inc c s)
  else do
    let f := copy (.inl b) (.inr .bcopy) (enter junk s)
    let f := copy (.inl a) (.inr .tmp) f
    let f := dec (.inr .bcopy) f
    let f ← Loop.run (fun _ => none) (powTurn junk a c) (s b).toNat f
    return leave (copy (.inr .tmp) (.inl c) f)

/-! ### Halfword by halfword is all at once -/

/-- A halfword that is not written yet is still the operand's, aliased or not. -/
theorem array_update (s : Store ι) (p c : ι) {i j : Nat} (hj : j < i) (hi : i ≤ 3) (v : Nat) :
    array (update s c (setArray (s c) i v) p) j = array (s p) j := by
  by_cases hp : p = c
  · subst hp
    rw [Function.update_self, array_setArray _ _ hi (by omega), if_neg (by omega)]
  · rw [Function.update_of_ne hp]

theorem setArray_all (n : U64) (v₃ v₂ v₁ v₀ : Nat) :
    setArray (setArray (setArray (setArray n 3 v₃) 2 v₂) 1 v₁) 0 v₀ =
      ofLimbs [v₃ % 2 ^ 16, v₂ % 2 ^ 16, v₁ % 2 ^ 16, v₀ % 2 ^ 16] := by
  rw [setArray, limbs_setArray, limbs_setArray, limbs_setArray]
  rfl

/-- The limbs a sweep stores, the lowest first. -/
def swept (f : Nat → Nat → Nat → Nat × Nat) : List Nat → List Nat → Nat → List Nat
  | x :: xs, y :: ys, carry => (f x y carry).1 % 2 ^ 16 :: swept f xs ys (f x y carry).2
  | _, _, _ => []

theorem sweep_eq (f : Nat → Nat → Nat → Nat × Nat) (a b c : ι) (s : Store ι) :
    sweep f a b c s = update s c (ofLimbs (swept f (limbs (s a)) (limbs (s b)) 0)) := by
  simp only [sweep, List.foldl_cons, List.foldl_nil, array_update, Nat.reduceLT, Nat.reduceLeDiff]
  rw [Function.update_idem, Function.update_idem, Function.update_idem]
  simp only [Function.update_self, setArray_all]
  rfl

theorem swept_addLimb (xs ys : List Nat) (carry : Nat) :
    swept addLimb xs ys carry = Limbs.add (2 ^ 16) xs ys carry := by
  induction xs generalizing ys carry with
  | nil => cases ys <;> rfl
  | cons x xs ih =>
    cases ys with
    | nil => rfl
    | cons y ys => rw [swept, Limbs.add, ih]; rfl

theorem swept_subLimb (xs ys : List Nat) (borrow : Nat) :
    swept subLimb xs ys borrow = Limbs.sub (2 ^ 16) xs ys borrow := by
  induction xs generalizing ys borrow with
  | nil => cases ys <;> rfl
  | cons x xs ih =>
    cases ys with
    | nil => rfl
    | cons y ys =>
      rw [swept, Limbs.sub, ih]
      simp only [subLimb, ← Nat.lt_succ_iff]
      rfl

theorem add_spec (a b c : ι) (s : Store ι) : add a b c s = update s c (s a + s b) := by
  rw [add, sweep_eq, swept_addLimb, ← add_eq]
  rfl

theorem sub_spec (a b c : ι) (s : Store ι) : sub a b c s = update s c (s a - s b) := by
  rw [sub, sweep_eq, swept_subLimb, ← sub_eq]
  rfl

/-! ### Multiplication -/

theorem mulProduct_spec (a b : ι) (i j : Nat) (f : Store (ι ⊕ MulLocal)) :
    leave (mulProduct a b i f j) = leave f ∧
      mulProduct a b i f j (.inr .result) = f (.inr .result) ∧
      mulProduct a b i f j (.inr .row) =
        (if 2 < i + j then addProduct (f (.inr .row)) (array (f (.inl a)) i * array (f (.inl b)) j) (6 - (i + j))
          else f (.inr .row)) := by
  simp only [mulProduct, addProduct]
  split
  · split
    · simp only [add_spec, fromU32, lshiftWord]
      refine ⟨by simp, by simp, ?_⟩
      rw [Function.update_self, Function.update_self, add_eq]
      simp
    · exact ⟨rfl, rfl, rfl⟩
  · exact ⟨rfl, rfl, rfl⟩

/-- A frame in which a row is summed up: nothing else changes but `tmp`. -/
structure InRow (s : Store ι) (result : U64) (f : Store (ι ⊕ MulLocal)) (row : U64) : Prop where
  objects : leave f = s
  result_eq : f (.inr .result) = result
  row_eq : f (.inr .row) = row

/-- A frame in which the rows are summed up. -/
structure InMul (s : Store ι) (f : Store (ι ⊕ MulLocal)) (result : U64) : Prop where
  objects : leave f = s
  result_eq : f (.inr .result) = result

theorem mulRow_spec (a b : ι) (i : Nat) {s : Store ι} {f : Store (ι ⊕ MulLocal)} {result : U64}
    (h : InMul s f result) :
    InMul s (mulRow a b f i) (Int64.add result (Int64.mulRow (s a) (s b) i)) := by
  have hstart : InRow s result (init (.inr .row) f) 0 := by
    refine ⟨?_, ?_, ?_⟩
    · rw [init, leave_update_local, h.objects]
    · rw [init, Function.update_of_ne (by simp), h.result_eq]
    · rw [init, Function.update_self]
  have hrow : InRow s result ([3, 2, 1, 0].foldl (mulProduct a b i) (init (.inr .row) f))
      (Int64.mulRow (s a) (s b) i) := by
    refine @List.foldl_rel _ _ _ _ _ _ _ _ (InRow s result) hstart ?_
    rintro j - g row hg
    obtain ⟨hleave, hresult, hrow⟩ := mulProduct_spec a b i j g
    refine ⟨hleave.trans hg.objects, hresult.trans hg.result_eq, ?_⟩
    rw [hrow, hg.row_eq, ← leave_apply g, ← leave_apply g, hg.objects]
  rw [mulRow, add_spec]
  refine ⟨by rw [leave_update_local, hrow.objects], ?_⟩
  rw [Function.update_self, hrow.result_eq, hrow.row_eq, add_eq]

theorem mul_spec (junk : U64) (a b c : ι) (s : Store ι) : mul junk a b c s = update s c (s a * s b) := by
  have hstart : InMul s (init (.inr .result) (enter junk s)) 0 :=
    ⟨by rw [init, leave_update_local, leave_enter], by rw [init, Function.update_self]⟩
  have hmul : InMul s ([3, 2, 1, 0].foldl (mulRow a b) (init (.inr .result) (enter junk s)))
      (Int64.mul (s a) (s b)) := by
    refine @List.foldl_rel _ _ _ _ _ _ _ _ (InMul s) hstart ?_
    rintro i - g result hg
    exact mulRow_spec a b i hg
  rw [mul, copy, leave_update_object, hmul.objects, hmul.result_eq, mul_eq]

/-! ### Shifts -/

/-- A shift is by the halfwords and by the bits of its count. -/
theorem shift_spec {word : U64 → Int → U64} {bits : U64 → Nat → U64} (hword : ∀ x, word x 0 = x)
    (hbits : ∀ x, bits x 0 = x) (a b : ι) (n : Nat) (s : Store ι) :
    shift word bits a b n s = update s b (bits (word (s a) (n / 16 : Nat)) (n % 16)) := by
  have hfirst : (if (n : Int) / 16 ≠ 0 then
        (update (copy a b s) b (word (copy a b s b) ((n : Int) / 16)), (n : Int) - n / 16 * 16)
      else (copy a b s, (n : Int))) =
      (update s b (word (s a) (n / 16 : Nat)), ((n % 16 : Nat) : Int)) := by
    split
    · rw [copy, Function.update_self, Function.update_idem]
      refine Prod.ext rfl ?_
      dsimp only
      omega
    · have hzero : n / 16 = 0 := by omega
      rw [hzero, Nat.cast_zero, hword]
      refine Prod.ext rfl ?_
      dsimp only
      omega
  simp only [shift, Int.natCast_nonneg, if_true, hfirst]
  split
  · rw [Function.update_self, Function.update_idem, Int.toNat_natCast]
  · have hzero : n % 16 = 0 := by omega
    rw [hzero, hbits]

theorem lshift_spec (a b : ι) (n : Nat) (s : Store ι) :
    lshift a b n s = update s b (BitVec.ofNat 64 ((s a).toNat * 2 ^ n)) := by
  have hbits : ∀ x, lshiftBits x 0 = x := by
    intro x
    apply BitVec.eq_of_toNat_eq
    rw [lshiftBits_toNat x (Nat.zero_le 16), pow_zero, Nat.mul_one, Nat.mod_eq_of_lt x.isLt]
  have hbelow : n % 16 ≤ 16 := by omega
  rw [lshift, shift_spec (fun _ => rfl) hbits]
  refine congrArg (update s b) (BitVec.eq_of_toNat_eq ?_)
  rw [lshiftBits_toNat _ hbelow, lshiftWord_toNat, BitVec.toNat_ofNat, Nat.mod_mul_mod, Nat.mul_assoc, ← pow_add,
    Nat.div_add_mod]

theorem rshift_spec (a b : ι) (n : Nat) (s : Store ι) :
    rshift a b n s = update s b (BitVec.ofNat 64 ((s a).toNat / 2 ^ n)) := by
  have hbits : ∀ x, rshiftBits x 0 = x := by
    intro x
    apply BitVec.eq_of_toNat_eq
    rw [rshiftBits_toNat x (Nat.zero_le 16), pow_zero, Nat.div_one]
  have hbelow : n % 16 ≤ 16 := by omega
  have hlt : (s a).toNat / 2 ^ n < 2 ^ 64 := Nat.lt_of_le_of_lt (Nat.div_le_self _ _) (s a).isLt
  rw [rshift, shift_spec (fun _ => rfl) hbits]
  refine congrArg (update s b) (BitVec.eq_of_toNat_eq ?_)
  rw [rshiftBits_toNat _ hbelow, rshiftWord_toNat, BitVec.toNat_ofNat, Nat.mod_eq_of_lt hlt, Nat.div_div_eq_div_mul,
    ← pow_add, Nat.div_add_mod]

/-! ### Division -/

/-- The first loop turns as the loop on its two variables does. -/
theorem growTurn_view (a : ι) (f : Store (ι ⊕ DivLocal)) :
    growTurn a f =
      match Int64.growTurn (f (.inl a)) (f (.inr .current), f (.inr .denom)) with
      | .again (current, denom) => .again (update (update f (.inr .current) current) (.inr .denom) denom)
      | .leave (overflow, _, _) => .leave (some (overflow, f)) := by
  simp only [growTurn, Int64.growTurn]
  split
  · split
    · rfl
    · rw [lshiftOneBit, lshiftOneBit, Function.update_of_ne (by simp)]
  · rfl

/-- The second loop turns as the loop on its variables and the result does. -/
theorem subtractTurn_view (c : ι) (f : Store (ι ⊕ DivLocal)) :
    subtractTurn c f =
      match Int64.subtractTurn (f (.inr .current), f (.inr .denom), f (.inr .tmp), f (.inl c)) with
      | .again (current, denom, tmp, q) =>
        .again (update (update (update (update f (.inr .tmp) tmp) (.inl c) q) (.inr .current) current)
          (.inr .denom) denom)
      | .leave _ => .leave (some f) := by
  simp only [subtractTurn, Int64.subtractTurn]
  split
  · split
    · rw [sub_spec, sub_eq]
      simp [or, rshiftOneBit]
    · simp [rshiftOneBit]
  · rfl

/-- The frame of the first loop. -/
structure GrowFrame (s : Store ι) (a b : ι) (n : Nat) (f : Store (ι ⊕ DivLocal)) : Prop where
  objects : leave f = s
  dividend : f (.inr .tmp) = s a
  growing : Growing (s b).toNat n (f (.inr .current), f (.inr .denom))

/-- The frame the first loop ends with. -/
def GrowOut (s : Store ι) (a b : ι) (out : Option (Bool × Store (ι ⊕ DivLocal))) : Prop :=
  ∃ overflow f, out = some (overflow, f) ∧ leave f = s ∧ f (.inr .tmp) = s a ∧
    GrownOut (s a).toNat (s b).toNat (overflow, f (.inr .current), f (.inr .denom))

theorem growFrame_start (junk : U64) (a b : ι) (s : Store ι) :
    GrowFrame s a b 64
      (copy (.inl a) (.inr .tmp) (copy (.inl b) (.inr .denom) (fromI32 (.inr .current) 1 (enter junk s)))) := by
  have ha : enter (L := DivLocal) junk s (.inl a) = s a := rfl
  have hb : enter (L := DivLocal) junk s (.inl b) = s b := rfl
  refine ⟨?_, ?_, ?_⟩
  · simp only [copy, fromI32, leave_update_local, leave_enter]
  · simp only [copy, fromI32, Function.update_self, ne_eq, reduceCtorEq, not_false_eq_true, Function.update_of_ne,
      ha]
  · have hstart := growing_start (s b)
    simpa only [copy, fromI32, Function.update_self, ne_eq, reduceCtorEq, not_false_eq_true,
      Function.update_of_ne, Sum.inr.injEq, hb] using hstart

theorem growFrame_turn {s : Store ι} {a b : ι} (hb : 0 < (s b).toNat) {n : Nat} {f : Store (ι ⊕ DivLocal)}
    (h : GrowFrame s a b n f) :
    (∃ f' m, growTurn a f = .again f' ∧ m < n ∧ GrowFrame s a b m f') ∨
      ∃ out, growTurn a f = .leave out ∧ GrowOut s a b out := by
  have ha : f (.inl a) = s a := congrFun h.objects a
  rw [growTurn_view, ha]
  rcases growing_turn (a := s a) hb h.growing with ⟨⟨current, denom⟩, m, hturn, hm, hgrow⟩ | ⟨out, hturn, hx, hout⟩
  · rw [hturn]
    refine .inl ⟨_, m, rfl, hm, ?_, ?_, ?_⟩
    · simp only [leave_update_local, h.objects]
    · simp [h.dividend]
    · simpa using hgrow
  · obtain ⟨overflow, current, denom⟩ := out
    rw [hturn]
    obtain ⟨rfl, rfl⟩ := Prod.ext_iff.mp hx
    exact .inr ⟨_, rfl, overflow, f, rfl, h.objects, h.dividend, hout⟩

/-- The frame of the second loop: of the objects, only the result changes. -/
structure SubtractFrame (s : Store ι) (a b : Nat) (c : ι) (n : Nat) (f : Store (ι ⊕ DivLocal)) : Prop where
  objects : leave f = update s c (f (.inl c))
  subtracting : SubtractingIn a b n (f (.inr .current), f (.inr .denom), f (.inr .tmp), f (.inl c))

/-- The frame the second loop ends with. -/
def SubtractOut (s : Store ι) (a b : Nat) (c : ι) (out : Option (Store (ι ⊕ DivLocal))) : Prop :=
  ∃ f, out = some f ∧ leave f = update s c (f (.inl c)) ∧ (f (.inl c)).toNat = a / b

theorem subtractFrame_turn {s : Store ι} {a b : Nat} (hb : 0 < b) {c : ι} {n : Nat} {f : Store (ι ⊕ DivLocal)}
    (h : SubtractFrame s a b c n f) :
    (∃ f' m, subtractTurn c f = .again f' ∧ m < n ∧ SubtractFrame s a b c m f') ∨
      ∃ out, subtractTurn c f = .leave out ∧ SubtractOut s a b c out := by
  rw [subtractTurn_view]
  rcases subtracting_turn hb h.subtracting with
    ⟨⟨current, denom, tmp, q⟩, m, hturn, hm, hsub⟩ | ⟨q, hturn, hq, hout⟩
  · rw [hturn]
    refine .inl ⟨_, m, rfl, hm, ?_, ?_⟩
    · simp [h.objects]
    · simpa using hsub
  · rw [hturn]
    subst hq
    exact .inr ⟨_, rfl, f, rfl, h.objects, hout⟩

theorem div_spec (junk : U64) (a b c : ι) (s : Store ι) :
    div junk a b c s = some (isZero (s b), update s c (s a / s b)) := by
  by_cases hzero : isZero (s b) = true
  · have hb := (isZero_iff (s b)).mp hzero
    have hquot : s a / s b = 0 := by
      rw [hb]
      exact BitVec.udiv_zero
    rw [div, if_pos hzero, hzero, init, hquot]
  · have hb : 0 < (s b).toNat := by
      rw [isZero, beq_iff_eq] at hzero
      omega
    have hgrow : GrowOut s a b (Loop.run (fun _ => none) (growTurn a) 65 _) :=
      Loop.run_rank (GrowFrame s a b) (GrowOut s a b) (fun n f h => growFrame_turn hb h)
        (growFrame_start junk a b s) (by decide : 64 < 65)
    obtain ⟨overflow, f, hrun, hobj, htmp, hout⟩ := hgrow
    simp only [div, if_neg hzero, hrun, Option.bind_eq_bind, Option.bind_some]
    -- the step back that the overflow makes unnecessary
    generalize hg : (if overflow = true then f
      else rshiftOneBit (.inr .current) (rshiftOneBit (.inr .denom) f)) = g
    have hstart : leave g = s ∧ g (.inr .tmp) = s a ∧
        Grown (s a).toNat (s b).toNat (g (.inr .current)) (g (.inr .denom)) := by
      subst hg
      cases overflow
      · refine ⟨?_, ?_, ?_⟩
        · simp [rshiftOneBit, hobj]
        · simp [rshiftOneBit, htmp]
        · simpa [GrownOut, rshiftOneBit] using hout
      · exact ⟨hobj, htmp, hout⟩
    obtain ⟨hobj, htmp, hgrown⟩ := hstart
    obtain ⟨n, hn, hsub⟩ := @subtracting_start _ _ _ _ (s a) rfl hgrown
    have hframe : SubtractFrame s (s a).toNat (s b).toNat c n (init (.inl c) g) := by
      refine ⟨?_, ?_⟩
      · rw [init, leave_update_object, hobj, Function.update_self]
      · simpa [init, htmp] using hsub
    have hsubtract : SubtractOut s (s a).toNat (s b).toNat c
        (Loop.run (fun _ => none) (subtractTurn c) 66 (init (.inl c) g)) :=
      Loop.run_rank (SubtractFrame s _ _ c) (SubtractOut s _ _ c) (fun n f h => subtractFrame_turn hb h) hframe hn
    obtain ⟨f', hrun', hobj', hq⟩ := hsubtract
    have hquot : f' (.inl c) = s a / s b := by
      apply BitVec.eq_of_toNat_eq
      rw [hq, BitVec.toNat_udiv]
    rw [hrun', Option.bind_some, hobj', hquot, Bool.eq_false_iff.mpr hzero]
    rfl

/-- Quotient and remainder, into objects that may be operands. -/
theorem divmod_spec (junk : U64) (a b c d : ι) (s : Store ι) :
    divmod junk a b c d s = some (isZero (s b), update (update s d (s a % s b)) c (s a / s b)) := by
  have hmod : s a - s a / s b * s b = s a % s b := by
    by_cases hb : s b = 0
    · rw [hb]
      simp
    · have h := divmod_eq (s a) (s b) hb
      rw [Int64.divmod, mul_eq, sub_eq, div_eq _ _ hb] at h
      exact (Prod.ext_iff.mp h).2
  simp only [divmod, div_spec, Option.bind_eq_bind, Option.bind_some, mul_spec, sub_spec, copy, leave_update_object,
    leave_update_local, leave_enter, enter_object, Function.update_self, ne_eq, reduceCtorEq, not_false_eq_true,
    Function.update_of_ne, Sum.inr.injEq, hmod]
  rfl

theorem mod_spec (junk : U64) (a b c : ι) (s : Store ι) :
    mod junk a b c s = some (isZero (s b), update s c (s a % s b)) := by
  simp only [mod, divmod_spec, Option.bind_eq_bind, Option.bind_some, leave_update_object, leave_update_local,
    leave_enter, enter_object]
  rfl

/-- What is asked of the divisions: `q` and `r` with `a = b * q + r` and `r < b`,
or 0 and `a` for a zero divisor. -/
def Divides (a b q r : U64) : Prop :=
  if b = 0 then q = 0 ∧ r = a else a.toNat = b.toNat * q.toNat + r.toNat ∧ r.toNat < b.toNat

theorem divides (a b : U64) : Divides a b (a / b) (a % b) := by
  unfold Divides
  split
  · next hb => rw [hb]; simp
  · next hb =>
    have hpos : 0 < b.toNat := Nat.pos_of_ne_zero (fun h0 => hb (BitVec.eq_of_toNat_eq h0))
    rw [BitVec.toNat_udiv, BitVec.toNat_umod]
    exact ⟨(Nat.div_add_mod _ _).symm, Nat.mod_lt _ hpos⟩

/-- **The divisions.** They come to an end and store quotient and remainder of the
operands' original values, whatever the objects; the quotient is the last store. -/
theorem divisions (junk : U64) (a b c d : ι) (s : Store ι) :
    ∃ q r, Divides (s a) (s b) q r ∧
      div junk a b c s = some (isZero (s b), update s c q) ∧
      mod junk a b c s = some (isZero (s b), update s c r) ∧
      divmod junk a b c d s = some (isZero (s b), update (update s d r) c q) :=
  ⟨s a / s b, s a % s b, divides (s a) (s b), div_spec junk a b c s, mod_spec junk a b c s,
    divmod_spec junk a b c d s⟩

/-! ### Powers -/

/-- The frame of the powering: of the objects only the result changes, and `tmp` is
the next in `powers`. -/
structure PowFrame (s : Store ι) (c : ι) (powers : Nat → U64) (b n : Nat) (f : Store (ι ⊕ PowLocal)) : Prop where
  objects : leave f = update s c (f (.inl c))
  left : (f (.inr .bcopy)).toNat = n
  done : ∃ k, k + n = b ∧ f (.inr .tmp) = powers k

/-- The frame the powering ends with. -/
def PowOut (s : Store ι) (c : ι) (powers : Nat → U64) (b : Nat) (out : Option (Store (ι ⊕ PowLocal))) : Prop :=
  ∃ f, out = some f ∧ leave f = update s c (f (.inl c)) ∧ f (.inr .tmp) = powers b

theorem powFrame_turn (junk : U64) {a c : ι} {s : Store ι} {powers : Nat → U64} {b n : Nat}
    (hstep : ∀ f : Store (ι ⊕ PowLocal), ∀ k, leave f = update s c (f (.inl c)) → f (.inr .tmp) = powers k →
      f (.inr .tmp) * f (.inl a) = powers (k + 1))
    {f : Store (ι ⊕ PowLocal)} (h : PowFrame s c powers b n f) :
    (∃ f' m, powTurn junk a c f = .again f' ∧ m < n ∧ PowFrame s c powers b m f') ∨
      ∃ out, powTurn junk a c f = .leave out ∧ PowOut s c powers b out := by
  obtain ⟨k, hk, htmp⟩ := h.done
  by_cases hzero : isZero (f (.inr .bcopy)) = true
  · have hn : n = 0 := by
      rw [← h.left, (isZero_iff _).mp hzero]
      rfl
    refine .inr ⟨_, by rw [powTurn, hzero]; rfl, f, rfl, h.objects, ?_⟩
    rw [htmp]
    congr 1
    omega
  · have hn : 0 < n := by
      rw [isZero, beq_iff_eq, h.left] at hzero
      omega
    refine .inl ⟨_, n - 1, by rw [powTurn, Bool.eq_false_iff.mpr hzero]; rfl, by omega, ?_, ?_, k + 1, by omega, ?_⟩
    · simp [mul_spec, copy, dec, h.objects]
    · have := h.left
      have := (f (.inr .bcopy)).isLt
      simp only [copy, dec, mul_spec, dec_eq]
      simp
      omega
    · simp only [copy, dec, mul_spec]
      simpa using hstep f k h.objects htmp

/-- The loop goes through the powers from the first on. -/
theorem pow_loop (junk : U64) {a b c : ι} {s : Store ι} {powers : Nat → U64} (hcb : b ≠ c) (hb : s b ≠ 0)
    (hone : init c s a = powers 1)
    (hstep : ∀ f : Store (ι ⊕ PowLocal), ∀ k, leave f = update s c (f (.inl c)) → f (.inr .tmp) = powers k →
      f (.inr .tmp) * f (.inl a) = powers (k + 1)) :
    pow junk a b c s = some (update s c (powers (s b).toNat)) := by
  have hbc : init c s b = s b := Function.update_of_ne hcb _ _
  have hpos : 0 < (s b).toNat := Nat.pos_of_ne_zero (fun h0 => hb (BitVec.eq_of_toNat_eq h0))
  have hdec : (s b - 1).toNat = (s b).toNat - 1 := by
    have := (s b).isLt
    rw [BitVec.toNat_sub]
    simp
    omega
  have hne : ¬ cmp (init c s b) (init c s c) = .eq := by
    rw [hbc, init, Function.update_self, cmp, compare_eq_iff_eq]
    exact Nat.pos_iff_ne_zero.mp hpos
  have hframe : PowFrame s c powers (s b).toNat ((s b).toNat - 1)
      (dec (.inr .bcopy) (copy (.inl a) (.inr .tmp) (copy (.inl b) (.inr .bcopy) (enter junk (init c s))))) := by
    refine ⟨?_, ?_, 1, by omega, ?_⟩
    · simp [dec, copy, init]
    · simpa [dec, copy, hbc, dec_eq] using hdec
    · simpa [dec, copy] using hone
  have hout : PowOut s c powers (s b).toNat (Loop.run (fun _ => none) (powTurn junk a c) (s b).toNat _) :=
    Loop.run_rank (PowFrame s c powers _) (PowOut s c powers _) (fun n f h => powFrame_turn junk hstep h) hframe
      (by omega)
  obtain ⟨f, hrun, hobj, htmp⟩ := hout
  simp only [pow, if_neg hne]
  rw [hbc, hrun]
  simp [copy, hobj, htmp]

/-- An exponent that is 0 once the result is cleared. -/
theorem pow_zero_left (junk : U64) (a : ι) {b c : ι} {s : Store ι} (h : init c s b = 0) :
    pow junk a b c s = some (update s c 1) := by
  have heq : cmp (init c s b) (init c s c) = .eq := by
    rw [h, init, Function.update_self]
    rfl
  rw [pow, if_pos heq, inc, init, Function.update_self, Function.update_idem, inc_eq]
  rfl

/-- The result over the exponent. -/
theorem pow_onto_exponent (junk : U64) (a b : ι) (s : Store ι) : pow junk a b b s = some (update s b 1) :=
  pow_zero_left junk a (Function.update_self b 0 s)

/-- The result over the base: all the products are 0. -/
theorem pow_onto_base (junk : U64) {a b : ι} (hab : b ≠ a) (s : Store ι) :
    pow junk a b a s = some (update s a (if s b = 0 then 1 else 0)) := by
  split
  · next hb => exact pow_zero_left junk a (by rw [init, Function.update_of_ne hab, hb])
  · next hb =>
    have hone : init a s a = 0 := Function.update_self a 0 s
    refine @pow_loop _ _ junk _ _ _ _ (fun _ => 0) hab hb hone ?_
    intro f k _ h
    rw [h]
    exact BitVec.zero_mul

theorem pow_spec (junk : U64) {a b c : ι} (hac : a ≠ c) (hbc : b ≠ c) (s : Store ι) :
    pow junk a b c s = some (update s c (BitVec.ofNat 64 ((s a).toNat ^ (s b).toNat))) := by
  by_cases hb : s b = 0
  · rw [pow_zero_left junk a (by rw [init, Function.update_of_ne hbc, hb]), hb]
    rfl
  · refine @pow_loop _ _ junk _ _ _ _ (fun k => BitVec.ofNat 64 ((s a).toNat ^ k)) hbc hb ?_ ?_
    · rw [init, Function.update_of_ne hac, pow_one, BitVec.ofNat_toNat, BitVec.setWidth_eq]
    · intro f k hobj h
      have ha : f (.inl a) = s a := by
        rw [← leave_apply f a, hobj, Function.update_of_ne hac]
      rw [h, ha]
      apply BitVec.eq_of_toNat_eq
      rw [BitVec.toNat_mul, BitVec.toNat_ofNat, BitVec.toNat_ofNat, pow_succ (s a).toNat, Nat.mod_mul_mod]

/-! ### All the operations -/

/-- What is asked of the operations on objects: the result on the operands' original
values, modulo `2 ^ 64`. -/
structure Arithmetic (junk : U64) (a b c : ι) (nbits : Nat) (s : Store ι) : Prop where
  add_eq : add a b c s = update s c (s a + s b)
  sub_eq : sub a b c s = update s c (s a - s b)
  mul_eq : mul junk a b c s = update s c (s a * s b)
  pow_eq : pow junk a b c s = some (update s c (BitVec.ofNat 64 ((s a).toNat ^ (s b).toNat)))
  lshift_eq : lshift a c nbits s = update s c (BitVec.ofNat 64 ((s a).toNat * 2 ^ nbits))
  rshift_eq : rshift a c nbits s = update s c (BitVec.ofNat 64 ((s a).toNat / 2 ^ nbits))
  shifted_out : 64 ≤ nbits → lshift a c nbits s = update s c 0 ∧ rshift a c nbits s = update s c 0

/-- The result of `__64_pow()` is neither operand; or it is one, and the power happens
to be what is stored all the same. -/
def PowKeeps (a b c : ι) (s : Store ι) : Prop :=
  if b = c then orderOf ((s a).toNat : ZMod (2 ^ 64)) ∣ (s b).toNat
  else if a = c then s b = 0 ∨ s a = 0 ∨ 64 ≤ (s b).toNat * padicValNat 2 (s a).toNat
  else True

theorem update_eq_iff (s : Store ι) (c : ι) (v : U64) (n : Nat) :
    some (update s c v) = some (update s c (BitVec.ofNat 64 n)) ↔ n % 2 ^ 64 = v.toNat := by
  rw [Option.some_inj, (Function.update_injective s c).eq_iff, ← BitVec.toNat_inj, BitVec.toNat_ofNat, eq_comm]

/-- The powers that are 1. -/
theorem orderOf_dvd_iff (x n : Nat) : orderOf (x : ZMod (2 ^ 64)) ∣ n ↔ x ^ n % 2 ^ 64 = 1 := by
  rw [orderOf_dvd_iff_pow_eq_one, ← Nat.cast_pow, ← Nat.cast_one, ZMod.natCast_eq_natCast_iff']
  rfl

/-- The powers that are 0. -/
theorem pow_vanishes_iff (x : Nat) {n : Nat} (hn : n ≠ 0) :
    x ^ n % 2 ^ 64 = 0 ↔ x = 0 ∨ 64 ≤ n * padicValNat 2 x := by
  rw [← Nat.dvd_iff_mod_eq_zero, padicValNat_dvd_iff_of_ne_one (by decide), padicValNat.pow, pow_eq_zero_iff hn]

theorem powKeeps_iff (junk : U64) (a b c : ι) (s : Store ι) :
    pow junk a b c s = some (update s c (BitVec.ofNat 64 ((s a).toNat ^ (s b).toNat))) ↔ PowKeeps a b c s := by
  unfold PowKeeps
  split
  · next hbc =>
    subst hbc
    rw [pow_onto_exponent, update_eq_iff, orderOf_dvd_iff]
    rfl
  · next hbc =>
    split
    · next hac =>
      subst hac
      rw [pow_onto_base junk hbc, update_eq_iff]
      by_cases hb : s b = 0
      · simp [hb]
      · have hb' : (s b).toNat ≠ 0 := fun h0 => hb (BitVec.eq_of_toNat_eq h0)
        have ha : s a = 0 ↔ (s a).toNat = 0 := (BitVec.toNat_inj (x := s a) (y := 0)).symm
        rw [if_neg hb, or_iff_right hb, ha]
        exact pow_vanishes_iff (s a).toNat hb'
    · next hac => exact iff_true_intro (pow_spec junk hac hbc s)

/-- **The operations.** Each gives its result whatever its arguments alias, but for
`__64_pow()`, which does if and only if `PowKeeps` holds. -/
theorem arithmetic_iff (junk : U64) (a b c : ι) (nbits : Nat) (s : Store ι) :
    Arithmetic junk a b c nbits s ↔ PowKeeps a b c s := by
  rw [← powKeeps_iff junk]
  refine ⟨fun h => h.pow_eq, fun h => ?_⟩
  refine ⟨add_spec a b c s, sub_spec a b c s, mul_spec junk a b c s, h, lshift_spec a c nbits s,
    rshift_spec a c nbits s, fun hn => ?_⟩
  have hpow : 2 ^ 64 ≤ 2 ^ nbits := Nat.pow_le_pow_right (by decide) hn
  obtain ⟨k, rfl⟩ := Nat.exists_eq_add_of_le hn
  have hleft : BitVec.ofNat 64 ((s a).toNat * 2 ^ (64 + k)) = 0 := by
    apply BitVec.eq_of_toNat_eq
    rw [BitVec.toNat_ofNat, pow_add, Nat.mul_left_comm, Nat.mul_mod_right]
    rfl
  have hright : (s a).toNat / 2 ^ (64 + k) = 0 := Nat.div_eq_of_lt (Nat.lt_of_lt_of_le (s a).isLt hpow)
  rw [lshift_spec, rshift_spec, hleft, hright]
  exact ⟨rfl, rfl⟩

/-- `2 ^ 3` stored over the 2 comes to 0. -/
theorem pow_over_base :
    ¬ Arithmetic 0 (0 : Fin 2) 1 0 0 (fun p => if p = 0 then 2 else 3) := by
  intro h
  have hpow := h.pow_eq
  rw [pow_onto_base 0 (by decide), update_eq_iff] at hpow
  revert hpow
  decide

end Libc370.Int64.Objects
