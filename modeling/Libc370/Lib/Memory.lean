import Libc370.Lib.Bytes

/-! Storage as addresses with a byte each, and what is handed out of it.

`load m a n` are the `n` bytes from an address on, and `store m a bs` is the storage with
`bs` put there. A store shows in what is loaded from where it went (`load_store_inside`) and
nowhere else (`Kept.load`). A word is four bytes, the highest first.

An abstract heap says which blocks are live and what they hold. Blocks handed out where
nothing is live never overlap (`Spread.put`). -/
namespace Libc370.Memory

open Bytes

abbrev Mem := Nat → UInt8

/-- Two pieces of storage that share no address. -/
def Apart (a m b n : Nat) : Prop := a + m ≤ b ∨ b + n ≤ a

theorem Apart.symm {a m b n : Nat} (h : Apart a m b n) : Apart b n a m := Or.symm h

/-- What is inside pieces that are apart is apart. -/
theorem Apart.inside {a m b n a' m' b' n' : Nat} (h : Apart a m b n) (ha : a ≤ a') (ham : a' + m' ≤ a + m)
    (hb : b ≤ b') (hbn : b' + n' ≤ b + n) : Apart a' m' b' n' := by
  rcases h with h | h
  · exact Or.inl (by omega)
  · exact Or.inr (by omega)

/-- Pieces of some length that are apart begin at different addresses. -/
theorem Apart.ne {a m b n : Nat} (h : Apart a m b n) (hm : 0 < m) (hn : 0 < n) : a ≠ b := by
  rcases h with h | h <;> omega

/-! ### Bytes -/

def load (m : Mem) (a n : Nat) : List UInt8 := (List.range n).map fun i => m (a + i)

def store (m : Mem) (a : Nat) (bs : List UInt8) : Mem := fun x => if a ≤ x then bs.getD (x - a) (m x) else m x

variable {m : Mem} {a b n : Nat} {bs : List UInt8}

@[simp] theorem load_length (m : Mem) (a n : Nat) : (load m a n).length = n := by simp [load]

theorem load_getElem? (m : Mem) (a n i : Nat) : (load m a n)[i]? = if i < n then some (m (a + i)) else none := by
  rw [load, List.getElem?_map]
  split
  · next hi => rw [List.getElem?_range hi]; rfl
  · next hi => rw [List.getElem?_eq_none (by rw [List.length_range]; omega)]; rfl

theorem store_inside {i : Nat} (hi : i < bs.length) : store m a bs (a + i) = bs[i] := by
  rw [store, if_pos (Nat.le_add_right a i), Nat.add_sub_cancel_left, List.getD_eq_getElem _ _ hi]

theorem store_outside {x : Nat} (hx : x < a ∨ a + bs.length ≤ x) : store m a bs x = m x := by
  rw [store]
  split
  · next hax => rw [List.getD_eq_default _ _ (by omega)]
  · rfl

/-- A store inside a piece of storage shows in what is loaded from it. -/
theorem load_store_inside {off : Nat} (h : off + bs.length ≤ n) :
    load (store m (a + off) bs) a n = patch (load m a n) off bs := by
  have hroom : off + bs.length ≤ (load m a n).length := by rw [load_length]; exact h
  apply List.ext_getElem?
  intro i
  rw [load_getElem?]
  split
  · next hi =>
    by_cases hin : off ≤ i ∧ i < off + bs.length
    · obtain ⟨k, rfl⟩ := Nat.exists_eq_add_of_le hin.1
      have hk : k < bs.length := by omega
      rw [patch_getElem?_inside hroom hk, ← Nat.add_assoc, store_inside hk, List.getElem?_eq_getElem hk]
    · rw [patch_getElem?_outside hroom (by omega), load_getElem?, if_pos hi, store_outside (by omega)]
  · next hi =>
    rw [List.getElem?_eq_none (by rw [patch_length hroom, load_length]; omega)]

@[simp] theorem load_store_self : load (store m a bs) a bs.length = bs := by
  have hinside : load (store m (a + 0) bs) a bs.length = patch (load m a bs.length) 0 bs := load_store_inside (by omega)
  rw [Nat.add_zero] at hinside
  rw [hinside, patch, List.take_zero, List.nil_append, List.drop_eq_nil_of_le (by rw [load_length]; omega),
    List.append_nil]

theorem load_take (m : Mem) (a n k : Nat) : (load m a n).take k = load m a (min k n) := by
  rw [load, ← List.map_take, List.take_range, load]

/-- Two storages that differ among the `n` addresses from `a` on only. -/
def Kept (m m' : Mem) (a n : Nat) : Prop := ∀ x, x < a ∨ a + n ≤ x → m' x = m x

theorem kept_store (m : Mem) {a n off : Nat} {bs : List UInt8} (h : off + bs.length ≤ n) :
    Kept m (store m (a + off) bs) a n := by
  intro x hx
  apply store_outside
  omega

theorem kept_store_front (m : Mem) {a n : Nat} {bs : List UInt8} (h : bs.length ≤ n) : Kept m (store m a bs) a n := by
  intro x hx
  apply store_outside
  omega

theorem kept_self (m : Mem) (a : Nat) (bs : List UInt8) : Kept m (store m a bs) a bs.length :=
  fun _ hx => store_outside hx

theorem Kept.trans {m m' m'' : Mem} (h : Kept m m' a n) (h' : Kept m' m'' a n) : Kept m m'' a n :=
  fun x hx => (h' x hx).trans (h x hx)

/-- What is apart from a change loads as before. -/
theorem Kept.load {m' : Mem} {k : Nat} (h : Kept m m' a n) (hapart : Apart a n b k) : load m' b k = load m b k := by
  apply List.ext_getElem?
  intro i
  rw [load_getElem?, load_getElem?]
  split
  · next hi =>
    rcases hapart with hlow | hhigh
    · rw [h (b + i) (Or.inr (by omega))]
    · rw [h (b + i) (Or.inl (by omega))]
  · rfl

/-! ### Words -/

/-- The four bytes of a word. -/
def wordBytes (w : Nat) : List UInt8 :=
  [UInt8.ofNat (w / 2 ^ 24), UInt8.ofNat (w / 2 ^ 16), UInt8.ofNat (w / 2 ^ 8), UInt8.ofNat w]

@[simp] theorem wordBytes_length (w : Nat) : (wordBytes w).length = 4 := rfl

theorem number_wordBytes {w : Nat} (h : w < 2 ^ 32) : number (wordBytes w) = w := by
  simp only [number, wordBytes, List.foldl_cons, List.foldl_nil, UInt8.toNat_ofNat']
  omega

/-- The word at an address. -/
def word (m : Mem) (a : Nat) : Nat := number (load m a 4)

def putWord (m : Mem) (a w : Nat) : Mem := store m a (wordBytes w)

theorem word_lt (m : Mem) (a : Nat) : word m a < 2 ^ 32 := by
  have h := number_lt (load m a 4)
  rw [load_length] at h
  exact h

@[simp] theorem word_putWord {w : Nat} (h : w < 2 ^ 32) : word (putWord m a w) a = w := by
  have hload : load (store m a (wordBytes w)) a 4 = wordBytes w := load_store_self
  rw [word, putWord, hload, number_wordBytes h]

theorem Kept.word {m' : Mem} (h : Kept m m' a n) (hapart : Apart a n b 4) : word m' b = word m b := by
  rw [Memory.word, h.load hapart, Memory.word]

theorem word_putWord_apart {w : Nat} (h : Apart a 4 b 4) : word (putWord m a w) b = word m b :=
  (kept_self m a (wordBytes w)).word h

/-- A word cut to a multiple of `2 ^ k` by a mask. -/
theorem multiple_toNat {w : Nat} (x : BitVec w) (k : Nat) :
    (x &&& BitVec.allOnes w <<< k).toNat = x.toNat / 2 ^ k * 2 ^ k := by
  have hshift : x &&& BitVec.allOnes w <<< k = (x >>> k) <<< k := by
    ext i hi
    by_cases hik : i < k
    · simp [hik]
    · have hback : k + (i - k) = i := by omega
      simp [hik, hback, hi]
  have hle : x.toNat / 2 ^ k * 2 ^ k < 2 ^ w := (Nat.div_mul_le_self _ _).trans_lt x.isLt
  rw [hshift, BitVec.toNat_shiftLeft, BitVec.toNat_ushiftRight, Nat.shiftLeft_eq, Nat.shiftRight_eq_div_pow,
    Nat.mod_eq_of_lt hle]

/-! ### Heaps -/

/-- A live block: how it was asked for, and what it holds. -/
structure Block (κ : Type*) where
  tag : κ
  bytes : List UInt8

/-- The live blocks by the address they begin at. -/
def Heap (κ : Type*) := Nat → Option (Block κ)

namespace Heap

variable {κ : Type*}

def empty : Heap κ := fun _ => none

def put (h : Heap κ) (p : Nat) (x : Block κ) : Heap κ := fun q => if q = p then some x else h q

def drop (h : Heap κ) (p : Nat) : Heap κ := fun q => if q = p then none else h q

/-- Nothing live has an address among the `n` from `p` on. -/
def Vacant (h : Heap κ) (p n : Nat) : Prop := ∀ q x, h q = some x → Apart p n q x.bytes.length

/-- No two live blocks share an address. -/
def Spread (h : Heap κ) : Prop :=
  ∀ p q x y, h p = some x → h q = some y → p ≠ q → Apart p x.bytes.length q y.bytes.length

variable {h : Heap κ} {p q : Nat} {x : Block κ}

@[simp] theorem put_self : h.put p x p = some x := if_pos rfl

theorem put_ne (hq : q ≠ p) : h.put p x q = h q := if_neg hq

@[simp] theorem drop_self : h.drop p p = none := if_pos rfl

theorem drop_ne (hq : q ≠ p) : h.drop p q = h q := if_neg hq

theorem put_put (h : Heap κ) (p : Nat) (x y : Block κ) : (h.put p x).put p y = h.put p y := by
  funext q
  by_cases hq : q = p
  · rw [hq, put_self, put_self]
  · rw [put_ne hq, put_ne hq, put_ne hq]

theorem drop_absent (hp : h p = none) : h.drop p = h := by
  funext q
  by_cases hq : q = p
  · rw [hq, drop_self, hp]
  · exact drop_ne hq

theorem spread_empty : Spread (empty : Heap κ) := fun _ _ _ _ hp => absurd hp (Option.some_ne_none _).symm

theorem Spread.put (hs : Spread h) (hv : h.Vacant p x.bytes.length) : Spread (h.put p x) := by
  intro q r y z hq hr hne
  by_cases hqp : q = p
  · subst hqp
    rw [put_self] at hq
    rw [put_ne hne.symm] at hr
    rw [← Option.some.inj hq]
    exact hv r z hr
  · rw [put_ne hqp] at hq
    by_cases hrp : r = p
    · subst hrp
      rw [put_self] at hr
      rw [← Option.some.inj hr]
      exact (hv q y hq).symm
    · rw [put_ne hrp] at hr
      exact hs q r y z hq hr hne

theorem Spread.drop (hs : Spread h) (p : Nat) : Spread (h.drop p) := by
  have hkept : ∀ q y, h.drop p q = some y → h q = some y := by
    intro q y hq
    by_cases hqp : q = p
    · rw [hqp, drop_self] at hq
      cases hq
    · rwa [drop_ne hqp] at hq
  exact fun q r y z hq hr => hs q r y z (hkept q y hq) (hkept r z hr)

/-- A block overwritten in its own length. -/
theorem Spread.overwrite {y : Block κ} (hs : Spread h) (hp : h p = some x) (hlen : y.bytes.length = x.bytes.length) :
    Spread (h.put p y) := by
  intro q r u v hq hr hne
  have hsame : ∀ q u, h.put p y q = some u → ∃ w, h q = some w ∧ w.bytes.length = u.bytes.length := by
    intro q u hq
    by_cases hqp : q = p
    · subst hqp
      rw [put_self] at hq
      exact ⟨x, hp, by rw [← Option.some.inj hq, hlen]⟩
    · exact ⟨u, by rwa [put_ne hqp] at hq, rfl⟩
  obtain ⟨u', hu, hulen⟩ := hsame q u hq
  obtain ⟨v', hv, hvlen⟩ := hsame r v hr
  rw [← hulen, ← hvlen]
  exact hs q r u' v' hu hv hne

end Heap

end Libc370.Memory
