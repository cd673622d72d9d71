import Libc370.Int64.Objects
import Libc370.Ctype

/-! The 64-bit operations on objects: text (`ext/int64/@@64tstr.c`, `@@64fstr.c`).

`__64_to_string()` divides by ten until nothing is left, with a digit a turn into an array of its
own, and copies the digits to the caller's buffer the other way round; both loops know the size
of the buffer. `__64_from_string()` takes digits from the left, in decimal or behind `0x` or `0b`.

An array is the list of its bytes. What is read or written outside of it is a fault. -/
namespace Libc370.Int64.Objects

open Function (update)

abbrev Bytes := List UInt8

/-- A byte put into an array. -/
def put (i : Nat) (c : UInt8) (array : Bytes) : Option Bytes := if i < array.length then some (array.set i c) else none

variable {ι : Type} [DecidableEq ι]

/-! ### `__64_to_string()` -/

inductive ToStringLocal
  | base
  | tmp
  | rem
  deriving DecidableEq

/-- The loop that divides, with so many bytes of the buffer left: the number of digits, and `work`. -/
def divideLoop (junk : U64) : Nat → Nat → Bytes → Store (ι ⊕ ToStringLocal) →
    Option (Nat × Bytes × Store (ι ⊕ ToStringLocal))
  | 0, x, work, f => some (x, work, f)
  | k + 1, x, work, f =>
    if isZero (f (.inr .tmp)) then some (x, work, f)
    else do
      let (_, f) ← divmod junk (.inr .tmp) (.inr .base) (.inr .tmp) (.inr .rem) f
      let c ← (literal "0123456789" ++ [0])[array (f (.inr .rem)) 3]?
      let work ← put x c work
      divideLoop junk k (x + 1) work f

/-- The loop that copies, with so many digits left: the number of bytes in the buffer, and the buffer. -/
def copyLoop (nbytes : Int) (work : Bytes) : Nat → Nat → Bytes → Option (Nat × Bytes)
  | 0, i, str => some (i, str)
  | x + 1, i, str =>
    if i < nbytes then do
      let c ← work[x]?
      let str ← put i c str
      copyLoop nbytes work x (i + 1) str
    else some (i, str)

/-- `work` as it is declared. -/
def work : Bytes := ebcdic '0' :: List.replicate 49 0

/-- The end of `__64_to_string()`, with `x` digits in `work`. -/
def deliver (nbytes : Int) (x : Nat) (work str : Bytes) : Option Bytes := do
  let (i, str) ←
    if x = 0 then
      if 0 < nbytes then (put 0 (ebcdic '0') str).map fun str => (1, str) else some (0, str)
    else copyLoop nbytes work x 0 str
  if i < nbytes then put i 0 str else some str

/-- `__64_to_string()`: the objects, and the array at `str`. -/
def toString (junk : U64) (n : Option ι) (str : Option Bytes) (nbytes : Int) (s : Store ι) :
    Option (Store ι × Option Bytes) :=
  match n, str with
  | some n, some str => do
    let f := fromI32 (.inr .base) 10 (enter junk s)
    let f := copy (.inl n) (.inr .tmp) f
    let (x, work, f) ← divideLoop junk nbytes.toNat 0 work f
    let str ← deliver nbytes x work str
    return (leave f, some str)
  | _, _ => some (s, str)

/-! ### `__64_from_string()` -/

inductive AddU32Local
  | tmp
  deriving DecidableEq

/-- `__64_add_u32()`. -/
def addU32 (junk : U64) (a : ι) (b : Nat) (c : ι) (s : Store ι) : Store ι :=
  let f := fromU32 (.inr AddU32Local.tmp) b (enter junk s)
  leave (add (.inl a) (.inr .tmp) (.inl c) f)

inductive FromStringLocal
  | base
  deriving DecidableEq

/-- The table of the digits, their base, and the string behind the prefix. -/
def prefixed (str : Bytes) : Bytes × BitVec 32 × Bytes :=
  if str.take 2 = literal "0x" then (literal "0123456789abcdef", 16, str.drop 2)
  else if str.take 2 = literal "0b" then (literal "01", 2, str.drop 2)
  else (literal "0123456789", 10, str)

/-- The loop over the digits. -/
def digitsLoop (junk : U64) (table : Bytes) (n : ι) : Bytes → Store (ι ⊕ FromStringLocal) → Store (ι ⊕ FromStringLocal)
  | [], f => f
  | ch :: str, f =>
    match table.findIdx? (fun d => (d.toNat : Int) = tolower ch.toNat) with
    | none => f
    | some tmp =>
      let f := mul junk (.inl n) (.inr .base) (.inl n) f
      digitsLoop junk table n str (addU32 junk (.inl n) tmp (.inl n) f)

/-- `__64_from_string()` of the string up to its NUL. -/
def fromString (junk : U64) (n : Option ι) (str : Bytes) (s : Store ι) : Store ι :=
  let (table, base, str) := prefixed (str.dropWhile (· = ebcdic ' '))
  match n with
  | none => s
  | some n =>
    let f := fromI32 (.inr FromStringLocal.base) base (enter junk s)
    leave (digitsLoop junk table n str (init (.inl n) f))

/-! ### The digits -/

/-- A decimal digit. -/
def figure (d : Nat) : UInt8 := ebcdic '0' + UInt8.ofNat d

/-- The decimal digits of a number, the last one first; zero has one too. -/
def decimals (n : Nat) : List Nat := if n = 0 then [0] else Nat.digits 10 n

/-- The decimal text of a number. -/
def decimalText (n : Nat) : Bytes := (decimals n).reverse.map figure

theorem decimals_lt (n : Nat) : ∀ d ∈ decimals n, d < 10 := by
  intro d hd
  rw [decimals] at hd
  split_ifs at hd
  · rw [List.mem_singleton.mp hd]
    decide
  · exact Nat.digits_lt_base (by decide) hd

theorem ofDigits_decimals (n : Nat) : Nat.ofDigits 10 (decimals n) = n := by
  rw [decimals]
  split_ifs with hn
  · rw [hn]
    rfl
  · exact Nat.ofDigits_digits 10 n

/-- Twenty digits do for every object. -/
theorem digits_length (n : U64) : (Nat.digits 10 n.toNat).length ≤ 20 :=
  (Nat.digits_length_le_iff (by decide) _).mpr (n.isLt.trans_le (by norm_num))

theorem put_at (done rest : Bytes) (r c : UInt8) : put done.length c (done ++ r :: rest) =
    some (done ++ c :: rest) := by
  rw [put, if_pos (by simp), List.set_append_right _ _ le_rfl, Nat.sub_self, List.set_cons_zero]

theorem figure_at : ∀ d < 10, (literal "0123456789" ++ [0])[d]? = some (figure d) := by decide

theorem array_small {x : U64} (hx : x.toNat < 2 ^ 16) : array x 3 = x.toNat := by
  rw [array, Nat.sub_self, Nat.mul_zero, pow_zero, Nat.div_one, Nat.mod_eq_of_lt hx]

/-- What the loop puts into `work`: the last digits, as many as the buffer has bytes. -/
theorem divideLoop_spec (junk : U64) (k : Nat) (done rest : Bytes) (f : Store (ι ⊕ ToStringLocal))
    (hbase : f (.inr .base) = 10)
    {ds : List Nat} (hds : (Nat.digits 10 (f (.inr .tmp)).toNat).take k = ds) (hroom : ds.length ≤ rest.length) :
    ∃ f', leave f' = leave f ∧ divideLoop junk k done.length (done ++ rest) f =
      some (done.length + ds.length, done ++ ds.map figure ++ rest.drop ds.length, f') := by
  induction k generalizing done rest f ds with
  | zero =>
    subst hds
    exact ⟨f, rfl, by simp [divideLoop]⟩
  | succ k ih =>
    rw [divideLoop]
    by_cases hzero : f (.inr .tmp) = 0
    · rw [if_pos ((isZero_iff _).mpr hzero)]
      rw [hzero] at hds
      subst hds
      exact ⟨f, rfl, by simp⟩
    · have hpos : 0 < (f (.inr .tmp)).toNat := Nat.pos_of_ne_zero fun h => hzero (BitVec.eq_of_toNat_eq h)
      rw [Nat.digits_def' (by decide : 1 < 10) hpos, List.take_succ_cons] at hds
      subst hds
      cases rest with
      | nil => exact absurd hroom (by simp)
      | cons r rest =>
        have hlast : array (f (.inr .tmp) % f (.inr .base)) 3 = (f (.inr .tmp)).toNat % 10 := by
          rw [hbase, array_small, BitVec.toNat_umod]
          · rfl
          · rw [BitVec.toNat_umod]
            exact (Nat.mod_lt _ (by decide)).trans (by decide)
        rw [if_neg fun h => hzero ((isZero_iff _).mp h), divmod_spec]
        simp only [Option.bind_eq_bind, Option.bind_some, ne_eq, Sum.inr.injEq, reduceCtorEq, not_false_eq_true,
          Function.update_of_ne, Function.update_self]
        rw [hlast, figure_at _ (Nat.mod_lt _ (by decide)), Option.bind_some, put_at, Option.bind_some]
        have hquot : (f (.inr .tmp) / f (.inr .base)).toNat = (f (.inr .tmp)).toNat / 10 := by
          rw [hbase, BitVec.toNat_udiv]
          rfl
        -- the turns that are left start with the quotient in `tmp`
        obtain ⟨f', hleave, hrun⟩ := ih (done ++ [figure ((f (.inr .tmp)).toNat % 10)]) rest
          (update (update f (.inr .rem) (f (.inr .tmp) % f (.inr .base))) (.inr .tmp) (f (.inr .tmp) / f (.inr .base)))
          (by simpa using hbase) rfl (by simpa [hquot] using hroom)
        refine ⟨f', by rw [hleave, leave_update_local, leave_update_local], ?_⟩
        rw [Function.update_self, hquot, List.length_append, List.length_singleton, List.append_assoc,
          List.singleton_append] at hrun
        rw [hrun]
        simp only [List.length_cons, List.drop_succ_cons, List.map_cons, List.append_assoc, List.cons_append,
          List.nil_append,
          Nat.add_assoc, Nat.add_comm 1]

/-- What the loop puts into the buffer: the digits from the last one in `work` down, as many as there is room for. -/
theorem copyLoop_spec {nbytes : Int} {work : Bytes} (x : Nat) (hx : x ≤ work.length) (done rest : Bytes)
    (hroom : nbytes ≤ (done.length + rest.length : Nat)) {text : Bytes}
    (htext : (work.take x).reverse.take (nbytes - done.length).toNat = text) :
    copyLoop nbytes work x done.length (done ++ rest) = some (done.length + text.length,
      done ++ text ++ rest.drop text.length) := by
  induction x generalizing done rest text with
  | zero =>
    subst htext
    simp [copyLoop]
  | succ x ih =>
    rw [copyLoop]
    have hlast : work.take (x + 1) = work.take x ++ [work[x]] := by simp
    rw [hlast, List.reverse_append, List.reverse_singleton, List.singleton_append] at htext
    by_cases hmore : (done.length : Int) < nbytes
    · rw [if_pos hmore]
      obtain ⟨k, hk⟩ : ∃ k, (nbytes - done.length).toNat = k + 1 := ⟨(nbytes - done.length).toNat - 1, by omega⟩
      rw [hk, List.take_succ_cons] at htext
      subst htext
      cases rest with
      | nil => 
        rw [List.length_nil] at hroom
        omega
      | cons r rest =>
        rw [List.length_cons] at hroom
        have hnext : nbytes ≤ ((done ++ [work[x]]).length + rest.length : Nat) := by
          rw [List.length_append, List.length_singleton]
          omega
        have hrun := ih (by omega) (done ++ [work[x]]) rest hnext rfl
        have hleft : (nbytes - (done ++ [work[x]]).length).toNat = k := by
          rw [List.length_append, List.length_singleton]
          omega
        rw [hleft, List.length_append, List.length_singleton, List.append_assoc, List.singleton_append] at hrun
        simp only [Option.bind_eq_bind]
        rw [List.getElem?_eq_getElem (by omega : x < work.length), Option.bind_some, put_at, Option.bind_some, hrun]
        simp only [List.length_cons, List.drop_succ_cons, List.append_assoc, List.cons_append, List.nil_append,
          Nat.add_assoc, Nat.add_comm 1]
    · have hk : (nbytes - done.length).toNat = 0 := by omega
      rw [hk, List.take_zero] at htext
      subst htext
      rw [if_neg hmore]
      simp

/-- The bytes of a number in a buffer of a size: its digits, the last ones of them where there is no room for all. -/
def shown (n : Nat) (room : Nat) : Bytes := ((decimals n).take room).reverse.map figure

theorem shown_room {n room : Nat} (h : (decimals n).length ≤ room) : shown n room = decimalText n := by
  rw [shown, List.take_of_length_le h, decimalText]

theorem shown_length (n room : Nat) : (shown n room).length = min room (decimals n).length := by
  rw [shown, List.length_map, List.length_reverse, List.length_take]

/-- A buffer with a text at its front, and a NUL behind it where there is room. -/
def filled (text : Bytes) (nbytes : Int) (str : Bytes) : Bytes :=
  text ++ if text.length < nbytes then 0 :: str.drop (text.length + 1) else str.drop text.length

/-- The last store of `__64_to_string()`. -/
theorem put_nul {text str : Bytes} {nbytes : Int} (hroom : nbytes ≤ str.length) :
    (if text.length < nbytes then put text.length 0 (text ++ str.drop text.length) else some
    (text ++ str.drop text.length)) =
      some (filled text nbytes str) := by
  rw [filled]
  by_cases hlt : (text.length : Int) < nbytes
  · rw [if_pos hlt, if_pos hlt, List.drop_eq_getElem_cons (by omega : text.length < str.length), put_at]
  · rw [if_neg hlt, if_neg hlt]

/-- The digits, and a NUL where there is room for it. -/
theorem deliver_spec {n : Nat} {nbytes : Int} {str rest : Bytes} (hroom : nbytes ≤ str.length) {ds : List Nat}
    (hds : (Nat.digits 10 n).take nbytes.toNat = ds) :
    deliver nbytes ds.length (ds.map figure ++ rest) str = some (filled (shown n nbytes.toNat) nbytes str) := by
  rw [deliver]
  by_cases hnil : ds = []
  · subst hnil
    rw [List.length_nil, if_pos rfl]
    by_cases hpos : 0 < nbytes
    · obtain ⟨k, hk⟩ : ∃ k, nbytes.toNat = k + 1 := ⟨nbytes.toNat - 1, by omega⟩
      have hzero : n = 0 := by
        have hnone := List.take_eq_nil_iff.mp hds
        exact Nat.digits_eq_nil_iff_eq_zero.mp (hnone.resolve_left (by omega))
      have hshown : shown n nbytes.toNat = [ebcdic '0'] := by
        rw [hzero, hk, shown, decimals, if_pos rfl, List.take_succ_cons, List.take_nil]
        decide
      cases str with
      | nil =>
        rw [List.length_nil] at hroom
        omega
      | cons c str =>
        have hput : put 0 (ebcdic '0') (c :: str) = some (ebcdic '0' :: str) := put_at [] str c _
        rw [if_pos hpos, hput, hshown]
        exact @put_nul [ebcdic '0'] (c :: str) nbytes hroom
    · have hshown : shown n nbytes.toNat = [] := by
        rw [Int.toNat_eq_zero.mpr (by omega)]
        rfl
      rw [if_neg hpos, hshown]
      exact @put_nul [] str nbytes hroom
  · have hn : n ≠ 0 := by
      rintro rfl
      exact hnil (by rw [← hds, Nat.digits_zero, List.take_nil])
    have hlength : ds.length ≤ nbytes.toNat := by
      rw [← hds]
      exact List.length_take_le _ _
    have hshown : shown n nbytes.toNat = (ds.map figure).reverse := by
      rw [shown, decimals, if_neg hn, hds, List.map_reverse]
    have htaken : ((ds.map figure ++ rest).take ds.length).reverse.take (nbytes - ([] : Bytes).length).toNat =
        shown n nbytes.toNat := by
      have hfront : (ds.map figure ++ rest).take ds.length = ds.map figure := List.take_left' (List.length_map _)
      rw [hfront, hshown, List.take_of_length_le]
      simpa using hlength
    have hcopy := copyLoop_spec ds.length (by simp) [] str (by simpa using hroom) htaken
    rw [List.length_nil, List.nil_append, List.nil_append, Nat.zero_add] at hcopy
    rw [if_neg (by simpa using hnil), hcopy]
    exact put_nul hroom

theorem toString_spec (junk : U64) (n : ι) {str : Bytes} {nbytes : Int} (hroom : nbytes ≤ str.length) (s : Store ι) :
    toString junk (some n) (some str) nbytes s = some (s,
      some (filled (shown (s n).toNat nbytes.toNat) nbytes str)) := by
  have hlength := digits_length (s n)
  obtain ⟨f', hleave, hrun⟩ := divideLoop_spec junk nbytes.toNat [] work
    (copy (.inl n) (.inr .tmp) (fromI32 (.inr .base) 10 (enter junk s)))
    (by rw [copy, fromI32, Function.update_of_ne (by simp), Function.update_self]; rfl) rfl
    (by simp only [copy, fromI32, Function.update_self, ne_eq, reduceCtorEq, not_false_eq_true, Function.update_of_ne,
    enter_object,
          List.length_take, work, List.length_cons, List.length_replicate]
        omega)
  have htmp : copy (.inl n) (.inr .tmp) (fromI32 (.inr .base) 10 (enter junk s)) (.inr ToStringLocal.tmp) = s n := by
    simp only [copy, fromI32, Function.update_self, ne_eq, reduceCtorEq, not_false_eq_true, Function.update_of_ne,
      enter_object]
  have hobjects : leave (copy (.inl n) (.inr ToStringLocal.tmp) (fromI32 (.inr .base) 10 (enter junk s))) = s := by
    rw [copy, leave_update_local, fromI32, leave_update_local, leave_enter]
  rw [htmp, List.length_nil, List.nil_append, List.nil_append, Nat.zero_add] at hrun
  rw [toString]
  simp only [Option.bind_eq_bind]
  rw [hrun, Option.bind_some]
  dsimp only
  rw [deliver_spec hroom rfl, Option.bind_some, hleave, hobjects]
  rfl

/-! ### Back -/

theorem findIdx_figure : ∀ d < 10, (literal "0123456789").findIdx? (fun c => (c.toNat : Int) =
    tolower (figure d).toNat) = some d := by
  decide

theorem addU32_spec (junk : U64) (a : ι) {b : Nat} (hb : b < 2 ^ 32) (c : ι) (s : Store ι) :
    addU32 junk a b c s = update s c (s a + BitVec.ofNat 64 b) := by
  rw [addU32, add_spec, leave_update_object, fromU32, leave_update_local, leave_enter, Function.update_of_ne (by simp),
    Function.update_self, enter_object, fromU32_eq hb]
  rfl

theorem digitsLoop_spec (junk : U64) (n : ι) {ds : List Nat} (hds : ∀ d ∈ ds, d < 10) (v : Nat)
    (f : Store (ι ⊕ FromStringLocal))
    (hbase : f (.inr .base) = 10) (hv : f (.inl n) = BitVec.ofNat 64 v) :
    leave (digitsLoop junk (literal "0123456789") n (ds.map figure) f) =
      update (leave f) n (BitVec.ofNat 64 (ds.foldl (fun v d => v * 10 + d) v)) := by
  induction ds generalizing v f with
  | nil =>
    rw [List.foldl_nil, ← hv]
    exact (Function.update_eq_self n (leave f)).symm
  | cons d ds ih =>
    have hd := hds d (List.mem_cons_self ..)
    rw [List.map_cons, digitsLoop, findIdx_figure d hd]
    dsimp only
    rw [mul_spec, addU32_spec junk _ (by omega), Function.update_self, Function.update_idem, hv, hbase]
    have hnext : BitVec.ofNat 64 v * 10 + BitVec.ofNat 64 d = BitVec.ofNat 64 (v * 10 + d) := by
      rw [BitVec.ofNat_add, BitVec.ofNat_mul]
      rfl
    rw [hnext, List.foldl_cons]
    have hrest := ih (fun d hd => hds d (List.mem_cons_of_mem _ hd)) (v * 10 + d)
        (update f (.inl n) (BitVec.ofNat 64 (v * 10 + d)))
      (by rw [Function.update_of_ne (by simp), hbase]) (Function.update_self ..)
    rw [hrest, leave_update_object, Function.update_idem]

theorem figure_range : ∀ d < 10, ebcdic '0' ≤ figure d ∧ figure d ≤ ebcdic '9' := by decide

theorem mem_decimalText {n : Nat} {c : UInt8} (hc : c ∈ decimalText n) : ebcdic '0' ≤ c ∧ c ≤ ebcdic '9' := by
  obtain ⟨d, hd, rfl⟩ := List.mem_map.mp hc
  exact figure_range d (decimals_lt n d (List.mem_reverse.mp hd))

/-- A decimal text starts with no blank and no prefix. -/
theorem prefixed_decimalText (n : Nat) :
    prefixed ((decimalText n).dropWhile (· = ebcdic ' ')) = (literal "0123456789", 10, decimalText n) := by
  have hblank : (decimalText n).dropWhile (· = ebcdic ' ') = decimalText n := by
    cases htext : decimalText n with
    | nil => rfl
    | cons c text =>
      have hc := mem_decimalText (htext ▸ List.mem_cons_self : c ∈ decimalText n)
      rw [List.dropWhile_cons_of_neg]
      rw [decide_eq_true_eq]
      rintro rfl
      exact absurd hc (by decide)
  have hcut (x : UInt8) (hx : ¬ (ebcdic '0' ≤ x ∧ x ≤ ebcdic '9')) : (decimalText n).take 2 ≠ [ebcdic '0', x] := by
    intro htake
    have hmem : x ∈ (decimalText n).take 2 := by
      rw [htake]
      simp
    exact hx (mem_decimalText (List.mem_of_mem_take hmem))
  have hhex : literal "0x" = [ebcdic '0', ebcdic 'x'] := by decide
  have hbinary : literal "0b" = [ebcdic '0', ebcdic 'b'] := by decide
  rw [hblank, prefixed, hhex, hbinary, if_neg (hcut _ (by decide)), if_neg (hcut _ (by decide))]

/-- The value the loop puts together. -/
theorem foldl_reverse_eq_ofDigits (ds : List Nat) : ds.reverse.foldl (fun v d => v * 10 + d) 0 =
    Nat.ofDigits 10 ds := by
  rw [List.foldl_reverse, Nat.ofDigits_eq_foldr]
  congr 1
  funext d v
  rw [Nat.cast_id]
  ring

/-- **A decimal text gives its number.** -/
theorem fromString_spec (junk : U64) (n : ι) (v : U64) (s : Store ι) :
    fromString junk (some n) (decimalText v.toNat) s = update s n v := by
  have hdigits : ∀ d ∈ (decimals v.toNat).reverse, d < 10 := fun d hd => decimals_lt _ d (List.mem_reverse.mp hd)
  have hrun := digitsLoop_spec junk n hdigits 0
    (init (.inl n) (fromI32 (.inr FromStringLocal.base) 10 (enter junk s)))
    (by rw [init, Function.update_of_ne (by simp), fromI32, Function.update_self]; rfl)
    (by rw [init, Function.update_self]; rfl)
  rw [foldl_reverse_eq_ofDigits, ofDigits_decimals, BitVec.ofNat_toNat, BitVec.setWidth_eq, init, leave_update_object,
    fromI32,
    leave_update_local, leave_enter, Function.update_idem] at hrun
  rw [fromString, prefixed_decimalText]
  exact hrun

/-! ### The round trip -/

/-- A buffer takes the digits of a number and the NUL. -/
def Sufficient (nbytes : Int) (n : U64) : Prop := ((decimals n.toNat).length : Int) < nbytes

theorem sufficient_of_le {nbytes : Int} (h : 21 ≤ nbytes) (n : U64) : Sufficient nbytes n := by
  have hlength : (decimals n.toNat).length ≤ 20 := by
    rw [decimals]
    split_ifs
    · decide
    · exact digits_length n
  rw [Sufficient]
  omega

theorem filled_length {text str : Bytes} {nbytes : Int} (htext : text.length ≤ nbytes.toNat)
    (hroom : nbytes ≤ str.length) :
    (filled text nbytes str).length = str.length := by
  rw [filled]
  by_cases hlt : (text.length : Int) < nbytes
  · rw [if_pos hlt, List.length_append, List.length_cons, List.length_drop]
    omega
  · rw [if_neg hlt, List.length_append, List.length_drop]
    omega

theorem filled_drop {text : Bytes} {nbytes : Int} (htext : text.length ≤ nbytes.toNat) (str : Bytes) :
    (filled text nbytes str).drop nbytes.toNat = str.drop nbytes.toNat := by
  rw [filled, List.drop_append, List.drop_of_length_le htext, List.nil_append]
  by_cases hlt : (text.length : Int) < nbytes
  · have hleft : nbytes.toNat - text.length = nbytes.toNat - (text.length + 1) + 1 := by omega
    rw [if_pos hlt, hleft, List.drop_succ_cons, List.drop_drop]
    congr 1
    omega
  · rw [if_neg hlt, List.drop_drop]
    congr 1
    omega

/-- **The text of an object.** `__64_to_string()` stays in the bytes it is given and touches no object; with
a buffer that suffices its text is read back as the number. -/
theorem string_round_trip (junk : U64) (nbytes : Int) (s : Store ι) :
    (∀ n : Option ι, toString junk n none nbytes s = some (s, none)) ∧
      ∀ (n : Option ι) (str : Bytes), nbytes ≤ str.length → ∃ str',
        toString junk n (some str) nbytes s = some (s, some str') ∧
        str'.length = str.length ∧ str'.drop nbytes.toNat = str.drop nbytes.toNat ∧
        ∀ p, n = some p → Sufficient nbytes (s p) → ∃ text rest, str' = text ++ 0 :: rest ∧ 0 ∉ text ∧
          ∀ (junk' : U64) (m : ι) (s' : Store ι), fromString junk' (some m) text s' = update s' m (s p) := by
  refine ⟨fun n => by cases n <;> rfl, fun n str hroom => ?_⟩
  cases n with
  | none => exact ⟨str, rfl, rfl, rfl, fun p hp => absurd hp (by simp)⟩
  | some n =>
    have hshown := shown_length (s n).toNat nbytes.toNat
    refine ⟨filled (shown (s n).toNat nbytes.toNat) nbytes str, toString_spec junk n hroom s,
      filled_length (by omega) hroom, filled_drop (by omega) str, fun p hp hsufficient => ?_⟩
    obtain rfl := Option.some.inj hp
    rw [Sufficient] at hsufficient
    have htext : shown (s n).toNat nbytes.toNat = decimalText (s n).toNat := shown_room (by omega)
    have hlength : ((decimalText (s n).toNat).length : Int) < nbytes := by
      rw [← htext, hshown]
      omega
    refine ⟨decimalText (s n).toNat, str.drop ((decimalText (s n).toNat).length + 1), ?_, ?_, fun junk' m s' =>
      fromString_spec junk' m (s n) s'⟩
    · rw [htext, filled, if_pos hlength]
    · exact fun hnul => absurd (mem_decimalText hnul) (by decide)

theorem string_round_trip_all_ones :
    Sufficient 21 (BitVec.allOnes 64) ∧
      ∃ str', toString 0 (some 0) (some (List.replicate 24 0xFF)) 21 (fun _ : Nat => BitVec.allOnes 64) =
          some (fun _ => BitVec.allOnes 64, some str') ∧ str'.drop 21 = [0xFF, 0xFF, 0xFF] ∧
        ∃ text rest, str' = text ++ 0 :: rest ∧
          fromString 0 (some 1) text (fun _ : Nat => 0) = update (fun _ => 0) 1 (BitVec.allOnes 64) := by
  have hsufficient := sufficient_of_le le_rfl (BitVec.allOnes 64)
  obtain ⟨str', hrun, -, hdrop, hback⟩ := (string_round_trip 0 21 (fun _ : Nat => BitVec.allOnes 64)).2 (some 0)
    (List.replicate 24 0xFF) (by rw [List.length_replicate]; decide)
  obtain ⟨text, rest, hstr, -, hfrom⟩ := hback 0 rfl hsufficient
  exact ⟨hsufficient, str', hrun, hdrop, text, rest, hstr, hfrom 0 1 _⟩

end Libc370.Int64.Objects
