import Libc370.Lib.Blocks
import Libc370.Ext.Ary

/-! Dynamic arrays in storage (`ext/array`).

Here an array is what `arraynew()` allocates: an eye catcher, the size and the count, and
behind them the items. The caller's pointer leads to the first item, and the functions step
back from it to the header. A call is `none` where it would read or write outside of a live
block, or free what is not live.

Call by call this storage is the array of `Ext.Ary` (`Leads`), and over any sequence of calls
it is a list (`Behaves`). -/
namespace Libc370.Ext.Stored

open Blocks

/-! ### Storage -/

/-- A word: a number or an address, with a byte offset in its block. -/
inductive Val
  | int (n : BitVec 32)
  | ptr (b ofs : Nat)
  deriving DecidableEq, Repr

def NULL : Val := .int 0

/-- A block of words, or of the characters of a string. -/
inductive Block
  | words (w : List Val)
  | text (s : List UInt8)
  deriving DecidableEq

/-- The caller's `varray`, the heap, the requests that were refused, and `errno`. -/
structure State where
  carray : Option Val
  heap : Heap Block
  refused : Nat
  errno : Int

def EINVAL : Int := 22
def ENOMEM : Int := 12

/-- The word some bytes behind an address. -/
def load (h : Heap Block) (p : Val) (d : Nat) : Option Val :=
  match p with
  | .int _ => none
  | .ptr b ofs =>
    match h.block b with
    | some (.words w) => if (ofs + d) % 4 = 0 then w[(ofs + d) / 4]? else none
    | _ => none

def loadInt (h : Heap Block) (p : Val) (d : Nat) : Option (BitVec 32) :=
  match load h p d with
  | some (.int n) => some n
  | _ => none

def store (h : Heap Block) (p : Val) (d : Nat) (v : Val) : Option (Heap Block) :=
  match p with
  | .int _ => none
  | .ptr b ofs =>
    match h.block b with
    | some (.words w) =>
      if (ofs + d) % 4 = 0 ∧ (ofs + d) / 4 < w.length then h.put b (.words (w.set ((ofs + d) / 4) v)) else none
    | _ => none

/-- `free()`, which takes the address of a block. -/
def free (h : Heap Block) (p : Val) : Option (Heap Block) :=
  match p with
  | .ptr b 0 => h.free b
  | _ => none

/-- `memcpy()` of whole words from the start of one block to the start of another. -/
def memcpy (h : Heap Block) (dst src : Val) (bytes : Nat) : Option (Heap Block) :=
  match dst, src with
  | .ptr d 0, .ptr b 0 =>
    match h.block d, h.block b with
    | some (.words old), some (.words w) =>
      if bytes % 4 = 0 ∧ bytes / 4 ≤ old.length ∧ bytes / 4 ≤ w.length then
        h.put d (.words (w.take (bytes / 4) ++ old.drop (bytes / 4)))
      else none
    | _, _ => none
  | _, _ => none

/-- `MAX_CHUNK` of `malloc()`. -/
def MAX_CHUNK : Nat := 6 * 1024 * 1024

section
variable (grant : Nat → Nat → Bool)

/-- `calloc()`: `grant` says of a request, by its number and bytes, whether GETMAIN has the
storage, and `zeros` what a block of so many zero bytes is. -/
def calloc (zeros : Nat → Block) (s : State) (nmemb size : Nat) : Val × State :=
  if size ≠ 0 ∧ 0xFFFFFFF8 / size < nmemb then (NULL, {s with refused := s.refused + 1, errno := ENOMEM})
  else
    let total := (nmemb * size + 7) / 8 * 8
    if total = 0 then (NULL, {s with refused := s.refused + 1})
    else if total ≤ MAX_CHUNK ∧ grant (s.heap.next + s.refused) total then
      (.ptr s.heap.next 0, {s with heap := s.heap.alloc (zeros total)})
    else (NULL, {s with refused := s.refused + 1, errno := ENOMEM})

def zeroWords (bytes : Nat) : Block := .words (List.replicate (bytes / 4) (.int 0))

def zeroText (bytes : Nat) : Block := .text (List.replicate bytes 0)

/-! ### The functions -/

/-- `ARRAY_EYE`. -/
def ARRAY_EYE : BitVec 32 := 0xC1D9D9E8#32

def ARRAY_DEFAULT : BitVec 32 := 20

/-- `sizeof(ARRAY)`. -/
def sizeofARRAY : Nat := 12

/-- `ARRAY_SIZE`. -/
def ARRAY_SIZE : BitVec 32 := 3

/-- The members of the header. -/
def eye : Nat := 0
def size : Nat := 4
def count : Nat := 8

/-- `(char *)p + sizeof(ARRAY)`. -/
def items : Val → Val
  | .int n => .int (n + 12)
  | .ptr b ofs => .ptr b (ofs + sizeofARRAY)

/-- `(ARRAY *)((char *)*carray - sizeof(ARRAY))`. -/
def header : Val → Option Val
  | .int _ => none
  | .ptr b ofs => if sizeofARRAY ≤ ofs then some (.ptr b (ofs - sizeofARRAY)) else none

/-- `arraynew()`. -/
def arraynew (s : State) (n : BitVec 32) : Option (Val × State) :=
  let n := if n = 0 then ARRAY_DEFAULT else n
  let (vnew, s) := calloc grant zeroWords s (n + ARRAY_SIZE).toNat 4
  if vnew = NULL then some (NULL, s)
  else do
    let h ← store s.heap vnew eye (.int ARRAY_EYE)
    let h ← store h vnew size (.int n)
    let h ← store h vnew count (.int 0)
    return (items vnew, {s with heap := h})

/-- The last steps of `arrayadd()`: `(*carray)[array->count++] = vitem`. -/
def append (s : State) (p array vitem : Val) : Option (Int × State) := do
  let n ← loadInt s.heap array count
  let h ← store s.heap array count (.int (n + 1))
  let h ← store h p (4 * n.toNat) vitem
  return (0, {s with carray := some p, heap := h})

/-- `arrayadd()` from where there is an array. -/
def addTo (s : State) (p vitem : Val) : Option (Int × State) := do
  let array ← header p
  let e ← loadInt s.heap array eye
  if e ≠ ARRAY_EYE then return (-1, {s with errno := EINVAL})
  else
    let n ← loadInt s.heap array size
    let c ← loadInt s.heap array count
    if n ≤ c then
      let oldbytes := (ARRAY_SIZE + n) * 4
      let newbytes := (ARRAY_SIZE + ARRAY_DEFAULT + n) * 4
      let (vnew, s) := calloc grant zeroWords s 1 newbytes.toNat
      if vnew = NULL then return (-1, {s with errno := ENOMEM})
      else
        let h ← memcpy s.heap vnew array oldbytes.toNat
        let h ← free h array
        let n ← loadInt h vnew size
        let h ← store h vnew size (.int (n + ARRAY_DEFAULT))
        append {s with carray := some (items vnew), heap := h} (items vnew) vnew vitem
    else append s p array vitem

/-- `arrayadd()`. -/
def arrayadd (s : State) (vitem : Val) : Option (Int × State) :=
  match s.carray with
  | none => some (-1, {s with errno := EINVAL})
  | some p => do
    let (p, s) ← if p = NULL then arraynew grant s ARRAY_DEFAULT else some (p, s)
    let s := {s with carray := some p}
    if p = NULL then return (-1, {s with errno := ENOMEM})
    else addTo grant s p vitem

/-- The second `vsnprintf()` of `arrayaddf()`: the text and a NUL. -/
def vsnprintf (h : Heap Block) (p : Val) (text : List UInt8) : Option (Heap Block) :=
  match p with
  | .ptr b 0 =>
    match h.block b with
    | some (.text old) =>
      if text.length + 1 ≤ old.length then h.put b (.text (text ++ 0 :: old.drop (text.length + 1))) else none
    | _ => none
  | _ => none

/-- `arrayaddf()`, given what `vsnprintf()` makes of its format and arguments. -/
def arrayaddf (s : State) (text : Option (List UInt8)) : Option (Int × State) :=
  match s.carray with
  | none => some (-1, s)
  | some _ =>
    match text with
    | none => some (-1, s)
    | some text =>
      let (vnew, s) := calloc grant zeroText s 1 (text.length + 1)
      if vnew = NULL then some (-1, {s with errno := ENOMEM})
      else do
        let h ← vsnprintf s.heap vnew text
        let (rc, s) ← arrayadd grant {s with heap := h} vnew
        if rc ≠ 0 then
          let h ← free s.heap vnew
          return (rc, {s with heap := h})
        else return (rc, s)

end

/-- Whether `*carray` leads to an array, and what its count is. -/
def counted (s : State) : Option (Option (Val × BitVec 32)) :=
  match s.carray with
  | none => some none
  | some p =>
    if p = NULL then some none
    else do
      let array ← header p
      let e ← loadInt s.heap array eye
      if e = ARRAY_EYE then
        let c ← loadInt s.heap array count
        return some (p, c)
      else return none

/-- `arraycount()`. -/
def arraycount (s : State) : Option (BitVec 32) := (counted s).map fun found => (found.map Prod.snd).getD 0

/-- `arrayget()`. -/
def arrayget (s : State) (index : BitVec 32) : Option Val := do
  match ← counted s with
  | none => return NULL
  | some (p, c) => if 0 < index ∧ index ≤ c then load s.heap p (4 * (index - 1).toNat) else return NULL

/-- `for (; index + 1 < array->count; index++) (*carray)[index] = (*carray)[index + 1]`,
with so many turns to go. -/
def shift (h : Heap Block) (p : Val) : Nat → Nat → Option (Heap Block)
  | 0, _ => some h
  | n + 1, index => do
    let v ← load h p (4 * (index + 1))
    let h ← store h p (4 * index) v
    shift h p n (index + 1)

/-- `arraydel()`. -/
def arraydel (s : State) (index : BitVec 32) : Option (Val × State) := do
  match ← counted s with
  | none => return (NULL, s)
  | some (p, c) =>
    if 0 < index ∧ index ≤ c then
      let array ← header p
      let index := index - 1
      let vitem ← load s.heap p (4 * index.toNat)
      let h ← shift s.heap p (c.toNat - (index.toNat + 1)) index.toNat
      let h ← store h array count (.int (c - 1))
      let h ← store h p (4 * (c - 1).toNat) NULL
      return (vitem, {s with heap := h})
    else return (NULL, s)

/-- The turns of `arrayeach()` from item `n` on, so many of them to go. -/
def eachFrom {σ : Type} (h : Heap Block) (p : Val) (fn : Nat → Val → σ → Int × σ) : Nat → Nat → σ → Option (Int × σ)
  | 0, _, udata => some (0, udata)
  | k + 1, n, udata => do
    let v ← load h p (4 * n)
    let (rc, udata) := fn n v udata
    if rc ≠ 0 then return (rc, udata) else eachFrom h p fn k (n + 1) udata

/-- `arrayeach()`. -/
def arrayeach {σ : Type} (s : State) (fn : Nat → Val → σ → Int × σ) (udata : σ) : Option (Int × σ) := do
  match ← counted s with
  | none => return (0, udata)
  | some (p, c) => eachFrom s.heap p fn c.toNat 0 udata

/-! ### What is in storage is an array -/

/-- The block of an array. -/
def arrayBlock (n c : BitVec 32) (slots : List Val) : Block := .words (.int ARRAY_EYE :: .int n :: .int c :: slots)

/-- A pointer that is not NULL. -/
def held (a : Ary Val) : VArray Val := some a

/-- The caller's pointer leads to the array. -/
inductive Leads (h : Heap Block) : Val → VArray Val → Prop
  | null : Leads h NULL VArray.null
  | array {b : Nat} {n c : BitVec 32} {a : Ary Val} {rest : List Val}
      (block : h.block b = some (arrayBlock n c (a.items ++ rest))) (size : n.toNat = a.size)
      (count : c.toNat = a.items.length) (room : a.size ≤ a.items.length + rest.length)
      (chunk : 4 * (a.size + 3) ≤ MAX_CHUNK) : Leads h (.ptr b 12) (held a)

/-- Strings stay what they are. -/
def KeepsText (h h' : Heap Block) : Prop := ∀ b t, h.block b = some (.text t) → h'.block b = some (.text t)

theorem KeepsText.refl (h : Heap Block) : KeepsText h h := fun _ _ ht => ht

theorem KeepsText.trans {h h' h'' : Heap Block} (h₁ : KeepsText h h') (h₂ : KeepsText h' h'') : KeepsText h h'' :=
  fun b t ht => h₂ b t (h₁ b t ht)

/-- Another block of words, or none, in place of one. -/
theorem KeepsText.changed {h h' : Heap Block} {b : Nat} {w : List Val} {x : Option Block}
    (hb : h.block b = some (.words w)) (hch : Changed h b x h') : KeepsText h h' := by
  intro c t ht
  have hne : c ≠ b := by
    intro heq
    rw [heq, hb] at ht
    cases ht
  rw [hch.elsewhere c hne]
  exact ht

theorem KeepsText.alloc (h : Heap Block) (x : Block) : KeepsText h (h.alloc x) := fun _ _ ht => alloc_live ht x

section
variable {h : Heap Block} {b : Nat} {n c m : BitVec 32} {slots : List Val} {v : Val}

/-! The members of the header and the items. -/

theorem load_member {w : List Val} (hb : h.block b = some (.words w)) (i : Nat) :
    load h (.ptr b 0) (4 * i) = w[i]? := by
  have hmod : (0 + 4 * i) % 4 = 0 := by omega
  have hdiv : (0 + 4 * i) / 4 = i := by omega
  simp only [load, hb]
  rw [if_pos hmod, hdiv]

theorem loadInt_eye (hb : h.block b = some (arrayBlock n c slots)) : loadInt h (.ptr b 0) eye = some ARRAY_EYE := by
  rw [loadInt, show eye = 4 * 0 from rfl, load_member hb]
  rfl

theorem loadInt_size (hb : h.block b = some (arrayBlock n c slots)) : loadInt h (.ptr b 0) size = some n := by
  rw [loadInt, show size = 4 * 1 from rfl, load_member hb]
  rfl

theorem loadInt_count (hb : h.block b = some (arrayBlock n c slots)) : loadInt h (.ptr b 0) count = some c := by
  rw [loadInt, show count = 4 * 2 from rfl, load_member hb]
  rfl

theorem load_item (hb : h.block b = some (arrayBlock n c slots)) (i : Nat) :
    load h (.ptr b 12) (4 * i) = slots[i]? := by
  have hmod : (12 + 4 * i) % 4 = 0 := by omega
  have hdiv : (12 + 4 * i) / 4 = i + 3 := by omega
  simp only [load, hb, arrayBlock]
  rw [if_pos hmod, hdiv]
  rfl

theorem store_word {w : List Val} (hb : h.block b = some (.words w)) {ofs i d : Nat} (hofs : ofs % 4 = 0)
    (hd : ofs + d = 4 * i) (hi : i < w.length) (v : Val) :
    ∃ h', store h (.ptr b ofs) d v = some h' ∧ Changed h b (some (.words (w.set i v))) h' := by
  obtain ⟨h', hput, hch⟩ := put_some hb (.words (w.set i v))
  refine ⟨h', ?_, hch⟩
  have hmod : (ofs + d) % 4 = 0 := by omega
  have hdiv : (ofs + d) / 4 = i := by omega
  simp only [store, hb]
  rw [hdiv, if_pos ⟨hmod, hi⟩, hput]

theorem store_size (hb : h.block b = some (arrayBlock n c slots)) (m : BitVec 32) :
    ∃ h', store h (.ptr b 0) size (.int m) = some h' ∧ Changed h b (some (arrayBlock m c slots)) h' :=
  store_word hb (i := 1) rfl rfl (by simp) _

theorem store_count (hb : h.block b = some (arrayBlock n c slots)) (m : BitVec 32) :
    ∃ h', store h (.ptr b 0) count (.int m) = some h' ∧ Changed h b (some (arrayBlock n m slots)) h' :=
  store_word hb (i := 2) rfl rfl (by simp) _

theorem store_item (hb : h.block b = some (arrayBlock n c slots)) {i : Nat} (hi : i < slots.length) (v : Val) :
    ∃ h', store h (.ptr b 12) (4 * i) v = some h' ∧ Changed h b (some (arrayBlock n c (slots.set i v))) h' :=
  store_word hb (i := i + 3) rfl (by omega) (by simpa using hi) _

end

/-! ### `calloc()` and `arraynew()` -/

section
variable (grant : Nat → Nat → Bool)

/-- A request gets a fresh block of zeros, or NULL. -/
theorem calloc_cases (zeros : Nat → Block) (s : State) (nmemb size : Nat) :
    (∃ total, nmemb * size ≤ total ∧ total ≤ MAX_CHUNK ∧ total % 8 = 0 ∧
      calloc grant zeros s nmemb size = (.ptr s.heap.next 0, {s with heap := s.heap.alloc (zeros total)})) ∨
    ∃ e, calloc grant zeros s nmemb size = (NULL, {s with refused := s.refused + 1, errno := e}) := by
  unfold calloc
  by_cases hbig : size ≠ 0 ∧ 0xFFFFFFF8 / size < nmemb
  · rw [if_pos hbig]
    exact .inr ⟨_, rfl⟩
  · rw [if_neg hbig]
    dsimp only
    by_cases hzero : (nmemb * size + 7) / 8 * 8 = 0
    · rw [if_pos hzero]
      exact .inr ⟨s.errno, rfl⟩
    · rw [if_neg hzero]
      by_cases hgrant : (nmemb * size + 7) / 8 * 8 ≤ MAX_CHUNK ∧
          grant (s.heap.next + s.refused) ((nmemb * size + 7) / 8 * 8)
      · rw [if_pos hgrant]
        exact .inl ⟨_, by omega, hgrant.1, by omega, rfl⟩
      · rw [if_neg hgrant]
        exact .inr ⟨_, rfl⟩

/-- The words a new array takes, for a size that does not wrap. -/
theorem arraynew_cases (s : State) {n : BitVec 32} (hn : n ≠ 0) (hwrap : n.toNat + 3 < 2 ^ 32) :
    (∃ h', arraynew grant s n = some (.ptr s.heap.next 12, {s with heap := h'}) ∧
      Leads h' (.ptr s.heap.next 12) (held (Ext.arraynew n.toNat)) ∧ KeepsText s.heap h') ∨
    ∃ e, arraynew grant s n = some (NULL, {s with refused := s.refused + 1, errno := e}) := by
  have hsize : (n + ARRAY_SIZE).toNat = n.toNat + 3 := by
    rw [BitVec.toNat_add]
    exact Nat.mod_eq_of_lt hwrap
  unfold arraynew
  rw [if_neg hn]
  dsimp only
  rw [hsize]
  rcases calloc_cases grant zeroWords s (n.toNat + 3) 4 with ⟨total, hle, hcap, hmod, hcall⟩ | ⟨e, hcall⟩
  · left
    rw [hcall]
    dsimp only
    rw [if_neg (by simp [NULL])]
    have hlen : 4 * (n.toNat + 3) ≤ total := by omega
    obtain ⟨k, hk⟩ : ∃ k, total / 4 = k + 3 := ⟨total / 4 - 3, by omega⟩
    have hblock : (s.heap.alloc (zeroWords total)).block s.heap.next =
        some (.words (.int 0 :: .int 0 :: .int 0 :: List.replicate k (.int 0))) := by
      rw [alloc_block, zeroWords, hk]
      rfl
    obtain ⟨h₁, hstore₁, hch₁⟩ := store_word hblock rfl (show 0 + eye = 4 * 0 from rfl) (by simp) (.int ARRAY_EYE)
    obtain ⟨h₂, hstore₂, hch₂⟩ := store_word hch₁.here rfl (show 0 + size = 4 * 1 from rfl) (by simp) (.int n)
    obtain ⟨h₃, hstore₃, hch₃⟩ := store_word hch₂.here rfl (show 0 + count = 4 * 2 from rfl) (by simp) (.int 0)
    refine ⟨h₃, ?_, ?_, ?_⟩
    · simp only [hstore₁, hstore₂, hstore₃, Option.bind_eq_bind, Option.bind_some]
      rfl
    · have hpos : n.toNat ≠ 0 := fun h0 => hn (BitVec.eq_of_toNat_eq (by simpa using h0))
      have hnew : (Ext.arraynew n.toNat : Ary Val).size = n.toNat := if_neg hpos
      refine @Leads.array h₃ s.heap.next n 0 _ (List.replicate k (.int 0)) hch₃.here hnew.symm rfl ?_ ?_
      · rw [hnew, List.length_replicate]
        omega
      · rw [hnew]
        omega
    · exact (KeepsText.alloc _ _).trans (.changed hblock ((hch₁.trans hch₂).trans hch₃))
  · right
    rw [hcall]
    exact ⟨e, rfl⟩

/-! ### `arrayadd()` -/

/-- The item behind the last one, where there is room. -/
theorem append_spec {s : State} {b : Nat} {n c : BitVec 32} {a : Ary Val} {rest : List Val} (vitem : Val)
    (block : s.heap.block b = some (arrayBlock n c (a.items ++ rest))) (hsize : n.toNat = a.size)
    (hcount : c.toNat = a.items.length) (room : a.size ≤ a.items.length + rest.length)
    (chunk : 4 * (a.size + 3) ≤ MAX_CHUNK) (hlt : a.items.length < a.size) :
    ∃ h', append s (.ptr b 12) (.ptr b 0) vitem = some (0, {s with carray := some (.ptr b 12), heap := h'}) ∧
      Leads h' (.ptr b 12) (held (a.push vitem hlt)) ∧ KeepsText s.heap h' := by
  cases rest with
  | nil =>
    rw [List.length_nil] at room
    omega
  | cons r rest =>
    obtain ⟨h₁, hstore₁, hch₁⟩ := store_count block (c + 1)
    have hin : a.items.length < (a.items ++ r :: rest).length := by
      rw [List.length_append, List.length_cons]
      omega
    obtain ⟨h₂, hstore₂, hch₂⟩ := store_item hch₁.here hin vitem
    refine ⟨h₂, ?_, ?_, KeepsText.changed block (hch₁.trans hch₂)⟩
    · simp only [append, loadInt_count block, hstore₁, hcount, hstore₂, Option.bind_eq_bind, Option.bind_some]
      rfl
    · have hslots : (a.items ++ r :: rest).set a.items.length vitem = (a.push vitem hlt).items ++ rest := by
        rw [List.set_append_right _ _ le_rfl, Nat.sub_self]
        simp [Ary.push]
      have hblock := hch₂.here
      rw [hslots] at hblock
      have hsum : (c + 1).toNat = a.items.length + 1 := by
        have hone : (1 : BitVec 32).toNat = 1 := rfl
        have hcap : MAX_CHUNK = 6291456 := rfl
        rw [BitVec.toNat_add, hcount, hone, Nat.mod_eq_of_lt (by omega)]
      refine .array hblock hsize ?_ ?_ chunk
      · rw [hsum]
        exact (@List.length_append _ a.items [vitem]).symm
      · show a.size ≤ (a.items ++ [vitem]).length + rest.length
        rw [List.length_append]
        simp only [List.length_cons, List.length_nil] at *
        omega

/-- The sizes `arrayadd()` computes do not wrap. -/
theorem grown_bytes {n : BitVec 32} {k : Nat} (hn : n.toNat = k) (chunk : 4 * (k + 3) ≤ MAX_CHUNK) :
    ((ARRAY_SIZE + n) * 4).toNat = 4 * (k + 3) ∧ ((ARRAY_SIZE + ARRAY_DEFAULT + n) * 4).toNat = 4 * (k + 23) ∧
      (n + ARRAY_DEFAULT).toNat = k + 20 := by
  have hcap : MAX_CHUNK = 6291456 := rfl
  simp only [ARRAY_SIZE, ARRAY_DEFAULT]
  bv_omega

/-- An array copied to larger storage of its own. -/
theorem memcpy_array {h : Heap Block} {b d : Nat} {n c : BitVec 32} {a : Ary Val} {rest : List Val} {k : Nat}
    (block : h.block b = some (arrayBlock n c (a.items ++ rest))) (hfull : a.items.length = a.size)
    (hnew : h.block d = some (.words (List.replicate (a.size + 3 + k) (.int 0)))) :
    ∃ h', memcpy h (.ptr d 0) (.ptr b 0) (4 * (a.size + 3)) = some h' ∧
      Changed h d (some (arrayBlock n c (a.items ++ List.replicate k (.int 0)))) h' := by
  obtain ⟨h', hput, hch⟩ := put_some hnew (arrayBlock n c (a.items ++ List.replicate k (.int 0)))
  refine ⟨h', ?_, hch⟩
  have hmod : 4 * (a.size + 3) % 4 = 0 := by omega
  have hdiv : 4 * (a.size + 3) / 4 = a.size + 3 := by omega
  have htake : (Val.int ARRAY_EYE :: .int n :: .int c :: (a.items ++ rest)).take (a.size + 3) =
      .int ARRAY_EYE :: .int n :: .int c :: a.items := by
    simp only [List.take_succ_cons, ← hfull, List.take_left']
  have hdrop : (List.replicate (a.size + 3 + k) (Val.int 0)).drop (a.size + 3) = List.replicate k (.int 0) := by
    rw [List.drop_replicate, Nat.add_sub_cancel_left]
  have hold : a.size + 3 ≤ (Val.int ARRAY_EYE :: .int n :: .int c :: (a.items ++ rest)).length := by
    simp only [List.length_cons, List.length_append]
    omega
  have hfits : a.size + 3 ≤ (List.replicate (a.size + 3 + k) (Val.int 0)).length := by
    rw [List.length_replicate]
    omega
  simp only [memcpy, hnew, block, arrayBlock]
  rw [hdiv, if_pos ⟨hmod, hfits, hold⟩, htake, hdrop]
  exact hput

/-- What becomes of the caller's array, by the array of `Ext.Ary`. -/
inductive Added (s : State) (v : VArray Val) (vitem : Val) : Int → State → Prop
  | added {s' : State} {p : Val} (pointer : s'.carray = some p) (leads : Leads s'.heap p (Ext.arrayadd true v vitem).2)
      (text : KeepsText s.heap s'.heap) : Added s v vitem 0 s'
  | refused {s' : State} (refused : s.refused < s'.refused) (pointer : s'.carray = s.carray) (heap : s'.heap = s.heap) :
      Added s v vitem (-1) s'

theorem arrayadd_push (a : Ary Val) (vitem : Val) (hlt : a.items.length < a.size) :
    (Ext.arrayadd true (held a) vitem).2 = held (a.push vitem hlt) := by
  unfold Ext.arrayadd held
  dsimp only
  rw [dif_pos hlt]

theorem arrayadd_grow (a : Ary Val) (vitem : Val) (hfull : ¬ a.items.length < a.size) :
    (Ext.arrayadd true (held a) vitem).2 = held (a.grow.push vitem a.grow_room) := by
  unfold Ext.arrayadd held
  dsimp only
  rw [dif_neg hfull]
  rfl

/-- Where there is room an item is added. -/
theorem addTo_room {s : State} {b : Nat} {a : Ary Val} (vitem : Val) (h : Leads s.heap (.ptr b 12) (held a))
    (hlt : a.items.length < a.size) :
    ∃ h', addTo grant s (.ptr b 12) vitem = some (0, {s with carray := some (.ptr b 12), heap := h'}) ∧
      Leads h' (.ptr b 12) (held (a.push vitem hlt)) ∧ KeepsText s.heap h' := by
  cases h with
  | @array _ n c _ rest block hsize hcount room chunk =>
    have hhead : header (.ptr b 12) = some (.ptr b 0) := rfl
    have hle : ¬ n ≤ c := by
      rw [BitVec.le_def, hsize, hcount]
      omega
    simp only [addTo, hhead, loadInt_eye block, loadInt_size block, loadInt_count block, Option.bind_eq_bind,
      Option.bind_some, ne_eq, not_true_eq_false, if_false]
    rw [if_neg hle]
    exact append_spec vitem block hsize hcount room chunk hlt

/-- A full array is moved to larger storage, or storage is refused and all is as it was. -/
theorem addTo_full {s : State} {b : Nat} {a : Ary Val} (vitem : Val) (h : Leads s.heap (.ptr b 12) (held a))
    (hfull : ¬ a.items.length < a.size) :
    ∃ rc s', addTo grant s (.ptr b 12) vitem = some (rc, s') ∧ Added s (held a) vitem rc s' := by
  cases h with
  | @array _ n c _ rest block hsize hcount room chunk =>
    have hhead : header (.ptr b 12) = some (.ptr b 0) := rfl
    have heq : a.items.length = a.size := le_antisymm a.fits (not_lt.mp hfull)
    have hle : n ≤ c := by rw [BitVec.le_def, hsize, hcount, heq]
    obtain ⟨hold, hnew, hgrown⟩ := grown_bytes hsize chunk
    simp only [addTo, hhead, loadInt_eye block, loadInt_size block, loadInt_count block, Option.bind_eq_bind,
      Option.bind_some, ne_eq, not_true_eq_false, if_false]
    rw [if_pos hle, hold, hnew]
    rcases calloc_cases grant zeroWords s 1 (4 * (a.size + 23)) with ⟨total, htotal, hcap, hmod, hcall⟩ | ⟨e, hcall⟩
    · rw [hcall]
      dsimp only
      rw [if_neg (by simp [NULL])]
      obtain ⟨k, hk⟩ : ∃ k, total / 4 = a.size + 3 + k := ⟨total / 4 - (a.size + 3), by omega⟩
      have hfresh : (s.heap.alloc (zeroWords total)).block s.heap.next =
          some (.words (List.replicate (a.size + 3 + k) (.int 0))) := by
        rw [alloc_block, zeroWords, hk]
      have hlive := alloc_live block (zeroWords total)
      obtain ⟨h₁, hcopy, hch₁⟩ := memcpy_array hlive heq hfresh
      have hne : b ≠ s.heap.next := (block_lt block).ne
      have hstill := (hch₁.elsewhere b hne).trans hlive
      obtain ⟨h₂, hfree, hch₂⟩ := free_some hstill
      have hgive : free h₁ (.ptr b 0) = some h₂ := hfree
      have hmoved := (hch₂.elsewhere _ hne.symm).trans hch₁.here
      obtain ⟨h₃, hstore, hch₃⟩ := store_size hmoved (n + ARRAY_DEFAULT)
      have hroom : a.grow.size ≤ a.grow.items.length + (List.replicate k (Val.int 0)).length := by
        rw [List.length_replicate]
        show a.size + 20 ≤ a.items.length + k
        omega
      have hchunk : 4 * (a.grow.size + 3) ≤ MAX_CHUNK := by
        show 4 * (a.size + 20 + 3) ≤ MAX_CHUNK
        omega
      obtain ⟨h₄, happend, hleads, htext⟩ := append_spec (a := a.grow)
        (s := {s with carray := some (items (.ptr s.heap.next 0)), heap := h₃}) vitem hch₃.here hgrown hcount hroom
        hchunk a.grow_room
      have hkeep : KeepsText s.heap h₃ := (KeepsText.alloc _ _).trans ((KeepsText.changed hfresh hch₁).trans
        ((KeepsText.changed hstill hch₂).trans (KeepsText.changed hmoved hch₃)))
      refine ⟨0, {s with carray := some (.ptr s.heap.next 12), heap := h₄}, ?_,
        .added (p := .ptr s.heap.next 12) rfl ?_ ?_⟩
      · simp only [hcopy, hgive, loadInt_size hmoved, hstore, Option.bind_some]
        exact happend
      · rw [arrayadd_grow a vitem hfull]
        exact hleads
      · exact hkeep.trans htext
    · rw [hcall]
      exact ⟨_, _, rfl, .refused (Nat.lt_succ_self _) rfl rfl⟩

/-- **`arrayadd()` adds the item to the array, or is refused storage and leaves all as it was.** -/
theorem arrayadd_spec {s : State} {p : Val} {v : VArray Val} (vitem : Val) (hcarray : s.carray = some p)
    (h : Leads s.heap p v) :
    ∃ rc s', arrayadd grant s vitem = some (rc, s') ∧ Added s v vitem rc s' := by
  unfold arrayadd
  rw [hcarray]
  dsimp only
  cases h with
  | null =>
    rw [if_pos rfl]
    rcases arraynew_cases grant s (n := ARRAY_DEFAULT) (by decide) (by decide) with
      ⟨h', hnew, hleads, htext⟩ | ⟨e, hnew⟩
    · rw [hnew]
      simp only [Option.bind_eq_bind, Option.bind_some]
      rw [if_neg (by simp [NULL])]
      have hroom : (Ext.arraynew ARRAY_DEFAULT.toNat : Ary Val).items.length <
          (Ext.arraynew ARRAY_DEFAULT.toNat : Ary Val).size := by
        decide
      obtain ⟨h'', hadd, hleads', htext'⟩ := addTo_room grant vitem hleads hroom
        (s := {s with carray := some (.ptr s.heap.next 12), heap := h'})
      exact ⟨_, _, hadd, .added rfl hleads' (htext.trans htext')⟩
    · rw [hnew]
      simp only [Option.bind_eq_bind, Option.bind_some]
      rw [if_pos trivial]
      exact ⟨_, _, rfl, .refused (Nat.lt_succ_self _) hcarray.symm rfl⟩
  | @array b n c a rest block hsize hcount room chunk =>
    rw [if_neg (by simp [NULL])]
    simp only [Option.bind_eq_bind, Option.bind_some]
    rw [if_neg (by simp [NULL])]
    have hsame : {s with carray := some (.ptr b 12)} = s := by rw [← hcarray]
    have hleads : Leads s.heap (.ptr b 12) (held a) := .array block hsize hcount room chunk
    rw [hsame]
    by_cases hlt : a.items.length < a.size
    · obtain ⟨h', hadd, hleads', htext⟩ := addTo_room grant vitem hleads hlt
      rw [← arrayadd_push] at hleads'
      exact ⟨_, _, hadd, .added rfl hleads' htext⟩
    · exact addTo_full grant vitem hleads hlt

end

/-! ### Looking and deleting -/

section
variable {s : State} {p : Val} {v : VArray Val} {index : BitVec 32}

theorem counted_null (hcarray : s.carray = some NULL) : counted s = some none := by
  unfold counted
  rw [hcarray]
  rfl

theorem counted_array {b : Nat} {n c : BitVec 32} {slots : List Val} (hcarray : s.carray = some (.ptr b 12))
    (block : s.heap.block b = some (arrayBlock n c slots)) : counted s = some (some (.ptr b 12, c)) := by
  have hhead : header (.ptr b 12) = some (.ptr b 0) := rfl
  unfold counted
  rw [hcarray]
  dsimp only
  rw [if_neg (by simp [NULL])]
  simp only [hhead, loadInt_eye block, loadInt_count block, Option.bind_eq_bind, Option.bind_some, if_true]
  rfl

/-- Whether an index of 32 bits is one of the array's. -/
theorem index_in {c : BitVec 32} {k : Nat} (hc : c.toNat = k) :
    (0 < index ∧ index ≤ c) ↔ 0 < index.toNat ∧ index.toNat ≤ k := by
  rw [BitVec.lt_def, BitVec.le_def, hc]
  rfl

theorem index_pred (h : 0 < index.toNat) : (index - 1).toNat = index.toNat - 1 := by
  bv_omega

theorem arraycount_spec (hcarray : s.carray = some p) (h : Leads s.heap p v) :
    ∃ c, arraycount s = some c ∧ c.toNat = Ext.arraycount v := by
  cases h with
  | null => exact ⟨0, by rw [arraycount, counted_null hcarray]; rfl, rfl⟩
  | array block hsize hcount room chunk => exact ⟨_, by rw [arraycount, counted_array hcarray block]; rfl, hcount⟩

theorem arrayget_spec (hcarray : s.carray = some p) (h : Leads s.heap p v) :
    arrayget s index = some ((Ext.arrayget v index.toNat).getD NULL) := by
  cases h with
  | null =>
    rw [arrayget, counted_null hcarray, Ext.arrayget, if_neg]
    · rfl
    · rintro ⟨hpos, hle⟩
      exact absurd hle (not_le.mpr hpos)
  | @array b n c a rest block hsize hcount room chunk =>
    rw [arrayget, counted_array hcarray block]
    simp only [Option.bind_eq_bind, Option.bind_some]
    by_cases hin : 0 < index.toNat ∧ index.toNat ≤ a.items.length
    · have hlt : index.toNat - 1 < a.items.length := by omega
      have hget : Ext.arrayget (held a) index.toNat = a.items[index.toNat - 1]? := if_pos hin
      rw [if_pos ((index_in hcount).mpr hin), index_pred hin.1, load_item block, List.getElem?_append_left hlt, hget,
        List.getElem?_eq_getElem hlt]
      rfl
    · have hget : Ext.arrayget (held a) index.toNat = none := if_neg hin
      rw [if_neg fun hc => hin ((index_in hcount).mp hc), hget]
      rfl

/-- So many turns of the loop of `arraydel()` move as many items one to the left. -/
theorem shift_spec {h : Heap Block} {b : Nat} {n c : BitVec 32} {slots : List Val} (k i : Nat)
    (block : h.block b = some (arrayBlock n c slots)) (hlen : i + k < slots.length) :
    ∃ h', shift h (.ptr b 12) k i = some h' ∧
      Changed h b (some (arrayBlock n c (slots.take i ++ (slots.drop (i + 1)).take k ++ slots.drop (i + k)))) h' := by
  induction k generalizing h slots i with
  | zero =>
    refine ⟨h, rfl, rfl, ?_, fun _ _ => rfl⟩
    rw [List.take_zero, List.append_nil, Nat.add_zero, List.take_append_drop]
    exact block
  | succ k ih =>
    have hlt : i + 1 < slots.length := by omega
    obtain ⟨h₁, hstore, hch₁⟩ := store_item block (i := i) (by omega) slots[i + 1]
    obtain ⟨h₂, hshift, hch₂⟩ := ih (i + 1) hch₁.here (by rw [List.length_set]; omega)
    refine ⟨h₂, ?_, ?_⟩
    · have hload : load h (.ptr b 12) (4 * (i + 1)) = some slots[i + 1] := by
        rw [load_item block, List.getElem?_eq_getElem hlt]
      simp only [shift, hload, hstore, Option.bind_eq_bind, Option.bind_some]
      exact hshift
    · have hmoved : (slots.set i slots[i + 1]).take (i + 1) = slots.take i ++ [slots[i + 1]] := by
        rw [List.take_set, List.take_succ_eq_append_getElem (by omega),
          List.set_append_right _ _ (by rw [List.length_take]; omega)]
        have hmin : min i slots.length = i := min_eq_left (by omega)
        simp [hmin]
      have hnext : (slots.drop (i + 1)).take (k + 1) = slots[i + 1] :: (slots.drop (i + 1 + 1)).take k := by
        rw [List.drop_eq_getElem_cons hlt, List.take_succ_cons]
      have hshape : (slots.set i slots[i + 1]).take (i + 1) ++ ((slots.set i slots[i + 1]).drop (i + 1 + 1)).take k ++
          (slots.set i slots[i + 1]).drop (i + 1 + k) =
          slots.take i ++ (slots.drop (i + 1)).take (k + 1) ++ slots.drop (i + (k + 1)) := by
        rw [hmoved, hnext, List.drop_set_of_lt (by omega), List.drop_set_of_lt (by omega), Nat.add_right_comm i 1 k,
          Nat.add_assoc i k 1]
        simp only [List.append_assoc, List.singleton_append]
      rw [← hshape]
      exact hch₁.trans hch₂

/-- The slots after `arraydel()`: the items without the one deleted, and a NULL where the last one was. -/
theorem shifted_items (items rest : List Val) {i : Nat} (hi : i < items.length) :
    ((items ++ rest).take i ++ ((items ++ rest).drop (i + 1)).take (items.length - (i + 1)) ++
      (items ++ rest).drop (i + (items.length - (i + 1)))).set (items.length - 1) NULL =
      items.eraseIdx i ++ NULL :: rest := by
  have hlast : i + (items.length - (i + 1)) = items.length - 1 := by omega
  have hkept : (items ++ rest).take i ++ ((items ++ rest).drop (i + 1)).take (items.length - (i + 1)) =
      items.eraseIdx i := by
    have htail : (items.drop (i + 1)).length = items.length - (i + 1) := List.length_drop
    rw [List.take_append_of_le_length hi.le, List.drop_append_of_le_length hi, ← htail, List.take_left,
      List.eraseIdx_eq_take_drop_succ]
  have hlen : (items.eraseIdx i).length = items.length - 1 := List.length_eraseIdx_of_lt hi
  rw [hkept, hlast, List.set_append_right _ _ (by omega), hlen, Nat.sub_self, List.drop_append_of_le_length (by omega),
    List.drop_eq_getElem_cons (by omega)]
  have hnil : items.drop (items.length - 1 + 1) = [] := List.drop_eq_nil_of_le (by omega)
  rw [hnil]
  rfl

/-- **`arraydel()` is that of the array**, and outside of it changes nothing. -/
theorem arraydel_spec (hcarray : s.carray = some p) (h : Leads s.heap p v) :
    ∃ s', arraydel s index = some ((Ext.arraydel v index.toNat).1.getD NULL, s') ∧ s'.carray = some p ∧
      Leads s'.heap p (Ext.arraydel v index.toNat).2 ∧ KeepsText s.heap s'.heap ∧
      (¬ (0 < index.toNat ∧ index.toNat ≤ v.list.length) → s' = s) := by
  cases h with
  | null => exact ⟨s, by rw [arraydel, counted_null hcarray]; rfl, hcarray, .null, .refl _, fun _ => rfl⟩
  | @array b n c a rest block hsize hcount room chunk =>
    by_cases hin : 0 < index.toNat ∧ index.toNat ≤ a.items.length
    · have hlt : index.toNat - 1 < a.items.length := by omega
      have hhead : header (.ptr b 12) = some (.ptr b 0) := rfl
      have hload : load s.heap (.ptr b 12) (4 * (index.toNat - 1)) = some a.items[index.toNat - 1] := by
        rw [load_item block, List.getElem?_append_left hlt, List.getElem?_eq_getElem hlt]
      obtain ⟨h₁, hshift, hch₁⟩ := shift_spec (a.items.length - (index.toNat - 1 + 1)) (index.toNat - 1) block
        (by rw [List.length_append]; omega)
      obtain ⟨h₂, hstore₂, hch₂⟩ := store_count hch₁.here (c - 1)
      have hone : (c - 1).toNat = a.items.length - 1 := by
        rw [index_pred (by omega), hcount]
      obtain ⟨h₃, hstore₃, hch₃⟩ := store_item hch₂.here (i := a.items.length - 1)
        (by simp only [List.length_append, List.length_take, List.length_drop]; omega) NULL
      rw [shifted_items a.items rest hlt] at hch₃
      have hfits := (List.length_eraseIdx_le a.items (index.toNat - 1)).trans a.fits
      have hdel : Ext.arraydel (held a) index.toNat =
          (a.items[index.toNat - 1]?, held ⟨a.size, a.items.eraseIdx (index.toNat - 1), hfits⟩) := if_pos hin
      have hlen : (a.items.eraseIdx (index.toNat - 1)).length = a.items.length - 1 := List.length_eraseIdx_of_lt hlt
      rw [hdel]
      refine ⟨{s with heap := h₃}, ?_, hcarray, .array hch₃.here hsize ?_ ?_ chunk,
        .changed block ((hch₁.trans hch₂).trans hch₃), fun hout => absurd hin hout⟩
      · rw [arraydel, counted_array hcarray block]
        simp only [Option.bind_eq_bind, Option.bind_some, hhead]
        rw [if_pos ((index_in hcount).mpr hin)]
        simp only [index_pred hin.1, hcount, hload, hshift, hstore₂, hone, hstore₃, Option.bind_some]
        rw [List.getElem?_eq_getElem hlt]
        rfl
      · rw [hone]
        exact hlen.symm
      · show a.size ≤ (a.items.eraseIdx (index.toNat - 1)).length + (NULL :: rest).length
        rw [hlen, List.length_cons]
        omega
    · have hdel : Ext.arraydel (held a) index.toNat = (none, held a) := if_neg hin
      rw [hdel]
      refine ⟨s, ?_, hcarray, .array block hsize hcount room chunk, .refl _, fun _ => rfl⟩
      rw [arraydel, counted_array hcarray block]
      simp only [Option.bind_eq_bind, Option.bind_some]
      rw [if_neg fun hc => hin ((index_in hcount).mp hc)]
      rfl

/-- The items given to a function in turn, until it answers other than 0. -/
def each {σ : Type} (fn : Nat → Val → σ → Int × σ) : List Val → Nat → σ → Int × σ
  | [], _, udata => (0, udata)
  | v :: rest, n, udata =>
    let (rc, udata) := fn n v udata
    if rc ≠ 0 then (rc, udata) else each fn rest (n + 1) udata

theorem eachFrom_spec {σ : Type} {h : Heap Block} {b : Nat} {n c : BitVec 32} {slots : List Val}
    (block : h.block b = some (arrayBlock n c slots)) (fn : Nat → Val → σ → Int × σ) (k i : Nat)
    (hlen : i + k ≤ slots.length) (udata : σ) :
    eachFrom h (.ptr b 12) fn k i udata = some (each fn ((slots.drop i).take k) i udata) := by
  induction k generalizing i udata with
  | zero => rfl
  | succ k ih =>
    have hlt : i < slots.length := by omega
    rw [List.drop_eq_getElem_cons hlt, List.take_succ_cons]
    simp only [eachFrom, load_item block, List.getElem?_eq_getElem hlt, Option.bind_eq_bind, Option.bind_some, each]
    by_cases hrc : (fn i slots[i] udata).1 ≠ 0
    · rw [if_pos hrc, if_pos hrc]
      rfl
    · rw [if_neg hrc, if_neg hrc]
      exact ih (i + 1) (by omega) _

theorem arrayeach_spec {σ : Type} (hcarray : s.carray = some p) (h : Leads s.heap p v) (fn : Nat → Val → σ → Int × σ)
    (udata : σ) :
    arrayeach s fn udata = some (each fn v.list 0 udata) := by
  cases h with
  | null =>
    rw [arrayeach, counted_null hcarray]
    rfl
  | @array b n c a rest block hsize hcount room chunk =>
    rw [arrayeach, counted_array hcarray block]
    simp only [Option.bind_eq_bind, Option.bind_some]
    rw [hcount, eachFrom_spec block fn a.items.length 0 (by rw [List.length_append]; omega), List.drop_zero,
      List.take_left]
    rfl

end

/-! ### Over any calls it is a list -/

/-- What was added: a pointer of the caller's, or a text. -/
inductive Item
  | value (v : Val)
  | text (t : List UInt8)

/-- A pointer is the item: for a text, it leads to a string of that text. -/
def Item.Is (h : Heap Block) : Item → Val → Prop
  | .value w, v => v = w
  | .text t, v => ∃ b rest, v = .ptr b 0 ∧ h.block b = some (.text (t ++ 0 :: rest))

theorem Item.Is.keeps {h h' : Heap Block} (hkeep : KeepsText h h') :
    ∀ {item : Item} {v : Val}, item.Is h v → item.Is h' v
  | .value _, _, heq => heq
  | .text _, _, ⟨b, rest, hptr, ht⟩ => ⟨b, rest, hptr, hkeep b _ ht⟩

/-- The caller's array, as the list of what was added. -/
def Holds (s : State) (l : List Item) : Prop :=
  ∃ p v, s.carray = some p ∧ Leads s.heap p v ∧ List.Forall₂ (Item.Is s.heap) l v.list

/-- The calls; for `arrayaddf()` what `vsnprintf()` makes of its format and arguments. -/
inductive Call (σ : Type)
  | add (vitem : Val)
  | addf (text : Option (List UInt8))
  | del (index : BitVec 32)
  | get (index : BitVec 32)
  | count
  | each (fn : Nat → Val → σ → Int × σ) (udata : σ)

inductive Answer (σ : Type)
  | code (rc : Int)
  | pointer (p : Val)
  | number (n : BitVec 32)
  | visited (rc : Int) (udata : σ)

variable {σ : Type}

section
variable (grant : Nat → Nat → Bool)

def call (s : State) : Call σ → Option (Answer σ × State)
  | .add vitem => (arrayadd grant s vitem).map fun r => (.code r.1, r.2)
  | .addf text => (arrayaddf grant s text).map fun r => (.code r.1, r.2)
  | .del index => (arraydel s index).map fun r => (.pointer r.1, r.2)
  | .get index => (arrayget s index).map fun p => (.pointer p, s)
  | .count => (arraycount s).map fun n => (.number n, s)
  | .each fn udata => (arrayeach s fn udata).map fun r => (.visited r.1 r.2, s)

def run : State → List (Call σ) → Option (List (Answer σ) × State)
  | s, [] => some ([], s)
  | s, c :: rest => do
    let (a, s) ← call grant s c
    let (as, s) ← run s rest
    return (a :: as, s)

end

/-- The caller's pointer and everything allocated are as they were. -/
def Untouched (s s' : State) : Prop := s'.carray = s.carray ∧ ∀ b, s'.heap.block b = s.heap.block b

/-- What a call answers of a list, and the list it leaves. -/
inductive Does (s s' : State) (l : List Item) : Call σ → Answer σ → List Item → Prop
  | added {vitem : Val} : Does s s' l (.add vitem) (.code 0) (l ++ [.value vitem])
  | refused {vitem : Val} (refused : s.refused < s'.refused) (same : Untouched s s') :
      Does s s' l (.add vitem) (.code (-1)) l
  | formatted {text : List UInt8} : Does s s' l (.addf (some text)) (.code 0) (l ++ [.text text])
  | refusedText {text : List UInt8} (refused : s.refused < s'.refused) (same : Untouched s s') :
      Does s s' l (.addf (some text)) (.code (-1)) l
  | unformatted (same : s' = s) : Does s s' l (.addf none) (.code (-1)) l
  | deleted {index : BitVec 32} {item : Item} {p : Val} (pos : 0 < index.toNat)
      (at_index : l[index.toNat - 1]? = some item)
      (is : item.Is s.heap p) : Does s s' l (.del index) (.pointer p) (l.eraseIdx (index.toNat - 1))
  | outDeleted {index : BitVec 32} (out : ¬ (0 < index.toNat ∧ index.toNat ≤ l.length)) (same : s' = s) :
      Does s s' l (.del index) (.pointer NULL) l
  | got {index : BitVec 32} {item : Item} {p : Val} (pos : 0 < index.toNat) (at_index : l[index.toNat - 1]? = some item)
      (is : item.Is s.heap p) (same : s' = s) : Does s s' l (.get index) (.pointer p) l
  | outGot {index : BitVec 32} (out : ¬ (0 < index.toNat ∧ index.toNat ≤ l.length)) (same : s' = s) :
      Does s s' l (.get index) (.pointer NULL) l
  | counted {n : BitVec 32} (number : n.toNat = l.length) (same : s' = s) : Does s s' l .count (.number n) l
  | visited {fn : Nat → Val → σ → Int × σ} {udata : σ} {vs : List Val} (items : List.Forall₂ (Item.Is s.heap) l vs)
      (same : s' = s) :
      Does s s' l (.each fn udata) (.visited (Stored.each fn vs 0 udata).1 (Stored.each fn vs 0 udata).2) l

/-- A run of calls, with the list before and after. -/
inductive Behaves : State → List Item → List (Call σ) → List (Answer σ) → State → List Item → Prop
  | nil {s : State} {l : List Item} : Behaves s l [] [] s l
  | cons {s s' s'' : State} {l l' l'' : List Item} {c : Call σ} {a : Answer σ} {cs : List (Call σ)}
      {as : List (Answer σ)}
      (first : Does s s' l c a l') (rest : Behaves s' l' cs as s'' l'') : Behaves s l (c :: cs) (a :: as) s'' l''

theorem holds_keeps {h h' : Heap Block} {l : List Item} {vs : List Val} (hkeep : KeepsText h h')
    (hl : List.Forall₂ (Item.Is h) l vs) :
    List.Forall₂ (Item.Is h') l vs := hl.imp fun _ _ => Item.Is.keeps hkeep

/-- `arrayadd()` on an array that is a list. -/
theorem add_holds (grant : Nat → Nat → Bool) {s : State} {l : List Item} (h : Holds s l) (vitem : Val) :
    ∃ rc s', arrayadd grant s vitem = some (rc, s') ∧
      ((rc = 0 ∧ KeepsText s.heap s'.heap ∧ ∀ item : Item, item.Is s'.heap vitem → Holds s' (l ++ [item])) ∨
        (rc = -1 ∧ s.refused < s'.refused ∧ s'.carray = s.carray ∧ s'.heap = s.heap)) := by
  obtain ⟨p, v, hcarray, hleads, hitems⟩ := h
  obtain ⟨rc, s', hadd, hadded⟩ := arrayadd_spec grant vitem hcarray hleads
  refine ⟨rc, s', hadd, ?_⟩
  cases hadded with
  | added pointer leads text =>
    refine .inl ⟨rfl, text, fun item his => ⟨_, _, pointer, leads, ?_⟩⟩
    rw [(arrayadd_granted v vitem).2]
    exact List.rel_append (holds_keeps text hitems) (.cons his .nil)
  | refused refused pointer heap => exact .inr ⟨rfl, refused, pointer, heap⟩

theorem Holds.untouched {s s' : State} {l : List Item} (h : Holds s l) (hsame : Untouched s s') : Holds s' l := by
  obtain ⟨p, v, hcarray, hleads, hitems⟩ := h
  have hkeep : KeepsText s.heap s'.heap := fun b t ht => (hsame.2 b).trans ht
  refine ⟨p, v, hsame.1.trans hcarray, ?_, holds_keeps hkeep hitems⟩
  cases hleads with
  | null => exact .null
  | array block hsize hcount room chunk => exact .array ((hsame.2 _).trans block) hsize hcount room chunk

/-- `arrayaddf()` on an array that is a list. -/
theorem addf_holds (grant : Nat → Nat → Bool) {s : State} {l : List Item} (h : Holds s l) (text : List UInt8) :
    ∃ rc s', arrayaddf grant s (some text) = some (rc, s') ∧
      ((rc = 0 ∧ Holds s' (l ++ [.text text])) ∨ (rc = -1 ∧ s.refused < s'.refused ∧ Untouched s s')) := by
  obtain ⟨p, v, hcarray, hleads, hitems⟩ := id h
  simp only [arrayaddf, hcarray]
  rcases calloc_cases grant zeroText s 1 (text.length + 1) with ⟨total, htotal, hcap, hmod, hcall⟩ | ⟨e, hcall⟩
  · rw [hcall]
    dsimp only
    rw [if_neg (by simp [NULL])]
    have hfresh : (s.heap.alloc (zeroText total)).block s.heap.next = some (.text (List.replicate total 0)) :=
        alloc_block _ _
    obtain ⟨h₁, hput, hch⟩ := put_some hfresh (.text (text ++ 0 :: (List.replicate total 0).drop (text.length + 1)))
    have hprint : vsnprintf (s.heap.alloc (zeroText total)) (.ptr s.heap.next 0) text = some h₁ := by
      have hroom : text.length + 1 ≤ (List.replicate total (0 : UInt8)).length := by
        rw [List.length_replicate]
        omega
      simp only [vsnprintf, hfresh]
      rw [if_pos hroom]
      exact hput
    have hold : ∀ b ≠ s.heap.next, h₁.block b = s.heap.block b :=
        fun b hb => (hch.elsewhere b hb).trans (alloc_other _ _ hb)
    have hkeep : KeepsText s.heap h₁ := fun b t ht => (hold b (block_lt ht).ne).trans ht
    have hholds : Holds {s with heap := h₁} l := by
      refine ⟨p, v, hcarray, ?_, holds_keeps hkeep hitems⟩
      cases hleads with
      | null => exact .null
      | array block hsize hcount room chunk =>
        exact .array ((hold _ (block_lt block).ne).trans block) hsize hcount room chunk
    obtain ⟨rc, s', hadd, hcase⟩ := add_holds grant hholds (.ptr s.heap.next 0)
    simp only [hprint, hadd, Option.bind_eq_bind, Option.bind_some]
    rcases hcase with ⟨rfl, htext, hadded⟩ | ⟨rfl, hrefused, hpointer, hheap⟩
    · rw [if_neg (by decide)]
      exact ⟨0, s', rfl, .inl ⟨rfl, hadded _ ⟨_, _, rfl, htext _ _ hch.here⟩⟩⟩
    · have hhere : s'.heap.block s.heap.next =
          some (.text (text ++ 0 :: (List.replicate total 0).drop (text.length + 1))) := by
        rw [hheap]
        exact hch.here
      obtain ⟨h₂, hfree, hch₂⟩ := free_some hhere
      have hgive : free s'.heap (.ptr s.heap.next 0) = some h₂ := hfree
      rw [if_pos (by decide), hgive]
      refine ⟨-1, {s' with heap := h₂}, rfl, .inr ⟨rfl, hrefused, hpointer, fun b => ?_⟩⟩
      by_cases hb : b = s.heap.next
      · rw [hb, block_next]
        exact hch₂.here
      · exact (hch₂.elsewhere b hb).trans ((congrArg (·.block b) hheap).trans (hold b hb))
  · rw [hcall]
    exact ⟨-1, _, rfl, .inr ⟨rfl, Nat.lt_succ_self _, rfl, fun _ => rfl⟩⟩

/-- The item at an index, in the list and in storage. -/
theorem item_at {h : Heap Block} {l : List Item} {vs : List Val} (hl : List.Forall₂ (Item.Is h) l vs) {i : Nat}
    (hi : i < l.length) :
    ∃ item p, l[i]? = some item ∧ vs[i]? = some p ∧ item.Is h p := by
  have hlen := hl.length_eq
  refine ⟨l[i], vs[i], List.getElem?_eq_getElem hi, List.getElem?_eq_getElem (hlen ▸ hi), ?_⟩
  exact List.Forall₂.get hl hi (hlen ▸ hi)

theorem forall₂_eraseIdx {h : Heap Block} {l : List Item} {vs : List Val} (hl : List.Forall₂ (Item.Is h) l vs)
    (i : Nat) :
    List.Forall₂ (Item.Is h) (l.eraseIdx i) (vs.eraseIdx i) := by
  rw [List.eraseIdx_eq_take_drop_succ, List.eraseIdx_eq_take_drop_succ]
  exact List.rel_append (List.forall₂_take i hl) (List.forall₂_drop (i + 1) hl)

/-- **A call does to the array what it does to a list.** -/
theorem call_does (grant : Nat → Nat → Bool) {s : State} {l : List Item} (h : Holds s l) (c : Call σ) :
    ∃ a s' l', call grant s c = some (a, s') ∧ Does s s' l c a l' ∧ Holds s' l' := by
  obtain ⟨p, v, hcarray, hleads, hitems⟩ := id h
  have hlen : l.length = v.list.length := hitems.length_eq
  cases c with
  | add vitem =>
    obtain ⟨rc, s', hadd, ⟨rfl, -, hadded⟩ | ⟨rfl, hrefused, hpointer, hheap⟩⟩ := add_holds grant h vitem
    · exact ⟨_, s', _, by rw [call, hadd]; rfl, .added, hadded (.value vitem) rfl⟩
    · have hsame : Untouched s s' := ⟨hpointer, fun b => by rw [hheap]⟩
      exact ⟨_, s', l, by rw [call, hadd]; rfl, .refused hrefused hsame, h.untouched hsame⟩
  | addf text =>
    cases text with
    | none => exact ⟨_, s, l, by simp only [call, arrayaddf, hcarray]; rfl, .unformatted rfl, h⟩
    | some text =>
      obtain ⟨rc, s', hadd, ⟨rfl, hadded⟩ | ⟨rfl, hrefused, hsame⟩⟩ := addf_holds grant h text
      · exact ⟨_, s', _, by rw [call, hadd]; rfl, .formatted, hadded⟩
      · exact ⟨_, s', l, by rw [call, hadd]; rfl, .refusedText hrefused hsame, h.untouched hsame⟩
  | del index =>
    obtain ⟨s', hdel, hpointer, hleads', htext, hout⟩ := @arraydel_spec s p v index hcarray hleads
    by_cases hin : 0 < index.toNat ∧ index.toNat ≤ l.length
    · obtain ⟨item, q, hitem, hq, his⟩ := item_at hitems (i := index.toNat - 1) (by omega)
      obtain ⟨hfirst, hrest⟩ := arraydel_list v hin.1
      refine ⟨.pointer q, s', _, ?_, .deleted hin.1 hitem his, p, _, hpointer, hleads', ?_⟩
      · rw [call, hdel, hfirst, hq]
        rfl
      · rw [hrest]
        exact holds_keeps htext (forall₂_eraseIdx hitems _)
    · have hsame := hout (by rw [← hlen]; exact hin)
      refine ⟨.pointer NULL, s', l, ?_, .outDeleted hin hsame, hsame ▸ h⟩
      have hnone : (Ext.arraydel v index.toNat).1 = none := by
        cases v with
        | none => rfl
        | some a =>
          have hlist : ¬ (0 < index.toNat ∧ index.toNat ≤ a.items.length) := fun hc => hin (hlen ▸ hc)
          unfold Ext.arraydel
          dsimp only
          rw [if_neg hlist]
      rw [call, hdel, hnone]
      rfl
  | get index =>
    have hget := @arrayget_spec s p v index hcarray hleads
    by_cases hin : 0 < index.toNat ∧ index.toNat ≤ l.length
    · obtain ⟨item, q, hitem, hq, his⟩ := item_at hitems (i := index.toNat - 1) (by omega)
      refine ⟨.pointer q, s, l, ?_, .got hin.1 hitem his rfl, h⟩
      rw [call, hget, arrayget_eq v hin.1, hq]
      rfl
    · refine ⟨.pointer NULL, s, l, ?_, .outGot hin rfl, h⟩
      have hnone : Ext.arrayget v index.toNat = none := if_neg fun hc => hin (hlen ▸ hc)
      rw [call, hget, hnone]
      rfl
  | count =>
    obtain ⟨n, hcount, hn⟩ := arraycount_spec hcarray hleads
    exact ⟨.number n, s, l, by rw [call, hcount]; rfl, .counted (hn.trans hlen.symm) rfl, h⟩
  | each fn udata =>
    refine ⟨_, s, l, ?_, .visited hitems rfl, h⟩
    rw [call, arrayeach_spec hcarray hleads]
    rfl

/-- What calls do one by one, they do in a run. -/
theorem run_behaves (grant : Nat → Nat → Bool) {s : State} {l : List Item} (h : Holds s l) (calls : List (Call σ)) :
    ∃ answers s' l', run grant s calls = some (answers, s') ∧ Behaves s l calls answers s' l' ∧ Holds s' l' := by
  induction calls generalizing s l with
  | nil => exact ⟨[], s, l, rfl, .nil, h⟩
  | cons c rest ih =>
    obtain ⟨a, s₁, l₁, hcall, hdoes, hholds⟩ := call_does grant h c
    obtain ⟨answers, s', l', hrun, hbehaves, hholds'⟩ := ih hholds
    refine ⟨a :: answers, s', l', ?_, .cons hdoes hbehaves, hholds'⟩
    simp only [run, hcall, hrun, Option.bind_eq_bind, Option.bind_some]
    rfl

/-- An array that was allocated for a number of items is the empty list too. -/
theorem arraynew_holds (grant : Nat → Nat → Bool) (s : State) {n : BitVec 32} (hn : n ≠ 0)
    (hwrap : n.toNat + 3 < 2 ^ 32) :
    ∃ p s', arraynew grant s n = some (p, s') ∧ Holds {s' with carray := some p} [] := by
  rcases arraynew_cases grant s hn hwrap with ⟨h', hnew, hleads, -⟩ | ⟨e, hnew⟩
  · exact ⟨_, _, hnew, _, _, rfl, hleads, .nil⟩
  · exact ⟨_, _, hnew, NULL, VArray.null, rfl, .null, .nil⟩

/-- **From a NULL pointer on, and whatever storage is granted, the array is a list.** -/
theorem array_is_list (grant : Nat → Nat → Bool) (heap : Heap Block) (refused : Nat) (errno : Int)
    (calls : List (Call σ)) :
    ∃ answers s' l', run grant ⟨some NULL, heap, refused, errno⟩ calls = some (answers, s') ∧
      Behaves ⟨some NULL, heap, refused, errno⟩ [] calls answers s' l' ∧ Holds s' l' :=
  run_behaves grant ⟨NULL, VArray.null, rfl, .null, .nil⟩ calls

end Libc370.Ext.Stored
