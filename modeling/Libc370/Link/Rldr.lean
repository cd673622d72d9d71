import Libc370.Lib.Bytes
import Libc370.Lib.Loop

/-! The relocation of a module copied to high storage (`relocate_load()`, `process_rldr()`).

`__loadhi()` copies a loaded module from `lowlp` to `highlp` and goes through the
records of its member again. An RLD record names address constants: an item is 8 bytes,
or 4 when the one before it says that it has the same ids. Every constant that is named
is fetched from the module that was loaded, and goes into the copy with the distance
added.

A record is the storage from its first byte on, and its length: what `__aread()` leaves
behind a short record is there to be read. `items` is the format on its own; the walk
goes through the items of the bytes that the record has. -/
namespace Libc370.Link

open Bytes

/-- A record as `__aread()` hands it over: the storage it is in, and how long it is. -/
structure Record where
  byte : Nat → UInt8
  len : Nat

/-- The module that was loaded, and the two load points. -/
structure LoadModule where
  text : List UInt8
  lowlp : BitVec 32
  highlp : BitVec 32

/-- `GET3`. -/
def get3 (a b c : UInt8) : Nat := a.toNat <<< 16 ||| b.toNat <<< 8 ||| c.toNat

/-- `fetch()`. -/
def fetch (bs : List UInt8) : BitVec 32 := bs.foldl (fun value b => value <<< 8 ||| b.toBitVec.setWidth 32) 0

/-- The bytes of a word as they lie in storage. -/
def wordBytes (value : BitVec 32) : List UInt8 :=
  [24, 16, 8, 0].map fun k => UInt8.ofNat (value.toNat / 2 ^ k)

/-- `store()`, of the last bytes of a word. -/
def store (copy : List UInt8) (offset : Nat) (value : BitVec 32) (size : Nat) : List UInt8 :=
  patch copy offset ((wordBytes value).drop (4 - size))

/-- The length of the constant, from `RLD_FLAG_LL`. -/
def isize (flag : UInt8) : Option Nat :=
  if flag &&& 0x0C = 0x04 then some 2
  else if flag &&& 0x0C = 0x08 then some 3
  else if flag &&& 0x0C = 0x0C then some 4
  else none

/-- What `process_rldr()` does with an item: the copy, and whether it was refused. -/
def relocate (m : LoadModule) (copy : List UInt8) (flag : UInt8) (offset : Nat) : List UInt8 × Nat :=
  if flag &&& 0x80 ≠ 0 then (copy, 0)
  else
    match isize flag with
    | none => (copy, 0)
    | some size =>
      if m.text.length < offset + size then (copy, 1)
      else
        let value := fetch (window m.text offset size)
        let value := value - m.lowlp
        let value := value + m.highlp
        (store copy offset value size, 0)

/-- The variables of `process_rldr()`, and the bytes of the record that it has read. -/
structure Walk where
  p : Nat
  same : Bool
  copy : List UInt8
  rejected : Nat
  reads : List Nat

/-- The loop of `process_rldr()`. -/
def walkTurn (m : LoadModule) (r : Record) (stop : Nat) (x : Walk) : Loop.Turn Walk Walk :=
  if x.p + 4 ≤ stop then
    if !x.same && stop < x.p + 8 then .leave x
    else
      let p := if x.same then x.p else x.p + 4
      let flag := r.byte p
      let offset := get3 (r.byte (p + 1)) (r.byte (p + 2)) (r.byte (p + 3))
      let (copy, refused) := relocate m x.copy flag offset
      .again ⟨p + 4, flag &&& 0x01 != 0, copy, x.rejected + refused, x.reads ++ [p, p + 1, p + 2, p + 3]⟩
  else .leave x

/-- `rldcnt` of the record. -/
def Record.rldcnt (r : Record) : Nat := number [r.byte 6, r.byte 7]

/-- The bytes of RLD data that are walked. -/
def Record.count (r : Record) : Nat :=
  if 16 < r.len ∧ r.len - 16 < r.rldcnt then r.len - 16 else r.rldcnt

/-- `process_rldr()`. The walk goes on by 4 bytes or more with every turn. -/
def processRldr (m : LoadModule) (copy : List UInt8) (r : Record) : Walk :=
  Loop.run id (walkTurn m r (16 + r.count)) (r.count + 1) ⟨16, false, copy, 0, [6, 7]⟩

/-- What `relocate_load()` keeps between records, and the walks it has made. -/
structure Load where
  loadtext : Bool
  bad : Nat
  copy : List UInt8
  walks : List (Record × List Nat)

/-- A record of the member in `relocate_load()`. A control record is followed by text. -/
def loadRecord (m : LoadModule) (s : Load) (r : Record) : Load :=
  if s.loadtext then { s with loadtext := false }
  else
    let s := if r.byte 0 &&& 0x01 = 0x01 then { s with loadtext := true } else s
    if r.byte 0 &&& 0x02 = 0x02 then
      let w := processRldr m s.copy r
      { s with bad := s.bad + w.rejected, copy := w.copy, walks := s.walks ++ [(r, w.reads)] }
    else s

/-- `relocate_load()` on a fresh copy, up to the end of the member. -/
def relocateLoad (m : LoadModule) (records : List Record) : Load :=
  records.foldl (loadRecord m) ⟨false, 0, m.text, []⟩

/-- Its return code. -/
def Load.rc (s : Load) : Nat := if s.bad ≠ 0 then 4 else 0

/-! ### The format -/

/-- An item of RLD data. -/
structure Item where
  flag : UInt8
  offset : Nat

/-- The items of RLD data; `same` if the first has the ids of the one before. -/
def items : Bool → List UInt8 → List Item
  | true, flag :: a :: b :: c :: rest => ⟨flag, get3 a b c⟩ :: items (flag &&& 0x01 != 0) rest
  | false, _ :: _ :: _ :: _ :: flag :: a :: b :: c :: rest => ⟨flag, get3 a b c⟩ :: items (flag &&& 0x01 != 0) rest
  | _, _ => []

/-- The RLD data of a record: as much as it claims and has. -/
def Record.data (r : Record) : List UInt8 := (List.range (min r.rldcnt (r.len - 16))).map fun k => r.byte (16 + k)

/-- The RLD records of a member: the text behind a control record is no record. -/
def rldRecords : Bool → List Record → List Record
  | _, [] => []
  | true, _ :: rest => rldRecords false rest
  | false, r :: rest =>
    (if r.byte 0 &&& 0x02 = 0x02 then [r] else []) ++ rldRecords (r.byte 0 &&& 0x01 == 0x01) rest

def rldItems (records : List Record) : List Item := (rldRecords false records).flatMap fun r => items false r.data

/-- The constant that an item names, its place and its length: of a resolved item, and
inside the module. -/
def Item.constant (size : Nat) (i : Item) : Option (Nat × Nat) :=
  if i.flag &&& 0x80 ≠ 0 then none
  else (isize i.flag).bind fun n => if i.offset + n ≤ size then some (i.offset, n) else none

/-- The sign of the relocation, from `RLD_FLAG_NEG`. -/
def Item.sign (i : Item) : Int := if i.flag &&& 0x02 ≠ 0 then -1 else 1

/-! ### The walk goes through the items -/

theorem isize_bounds {flag : UInt8} {n : Nat} (h : isize flag = some n) : 2 ≤ n ∧ n ≤ 4 := by
  unfold isize at h
  split at h
  · cases h
    omega
  · split at h
    · cases h
      omega
    · split at h
      · cases h
        omega
      · cases h

theorem constant_bounds {size o n : Nat} {i : Item} (h : i.constant size = some (o, n)) :
    2 ≤ n ∧ n ≤ 4 ∧ o + n ≤ size := by
  unfold Item.constant at h
  split at h
  · cases h
  · rw [Option.bind_eq_some_iff] at h
    obtain ⟨n', hn', h⟩ := h
    split at h
    · next hfit =>
      cases h
      exact ⟨(isize_bounds hn').1, (isize_bounds hn').2, hfit⟩
    · cases h

/-- The copy after an item. -/
theorem relocate_fst (m : LoadModule) (copy : List UInt8) (i : Item) :
    (relocate m copy i.flag i.offset).1 =
      match i.constant m.text.length with
      | none => copy
      | some (o, n) => store copy o (fetch (window m.text o n) - m.lowlp + m.highlp) n := by
  unfold relocate Item.constant
  split
  · rfl
  · cases isize i.flag with
    | none => rfl
    | some n =>
      rw [Option.bind_some]
      by_cases hfit : i.offset + n ≤ m.text.length
      · rw [if_pos hfit]
        dsimp only
        rw [if_neg (by omega)]
      · rw [if_neg hfit]
        dsimp only
        rw [if_pos (by omega)]

/-- The bytes of a record in a range. -/
def slice (r : Record) (p n : Nat) : List UInt8 := (List.range n).map fun k => r.byte (p + k)

theorem slice_succ (r : Record) (p n : Nat) : slice r p (n + 1) = r.byte p :: slice r (p + 1) n := by
  rw [slice, List.range_succ_eq_map, List.map_cons, List.map_map, Nat.add_zero]
  congr 1
  apply List.map_congr_left
  intro k _
  dsimp only [Function.comp]
  congr 1
  omega

theorem slice_four (r : Record) (p n : Nat) :
    slice r p (n + 4) = r.byte p :: r.byte (p + 1) :: r.byte (p + 2) :: r.byte (p + 3) :: slice r (p + 4) n := by
  rw [slice_succ, slice_succ, slice_succ, slice_succ]

/-- Fewer than 4 bytes are no item, and without ids fewer than 8. -/
theorem items_short {same : Bool} {bs : List UInt8} (h : bs.length < 4 ∨ same = false ∧ bs.length < 8) :
    items same bs = [] := by
  unfold items
  split
  · simp only [List.length_cons, Bool.true_eq_false, false_and, or_false] at h
    omega
  · simp only [List.length_cons] at h
    omega
  · rfl

/-- What becomes of the copy, item by item. -/
def relocateItems (m : LoadModule) (copy : List UInt8) (is : List Item) : List UInt8 :=
  is.foldl (fun copy i => (relocate m copy i.flag i.offset).1) copy

/-- What is left to do of a walk: the items from where it is. -/
structure Walking (m : LoadModule) (r : Record) (stop : Nat) (total : List UInt8) (n : Nat) (x : Walk) : Prop where
  rank : n = stop - x.p
  le : x.p ≤ stop
  copy : relocateItems m x.copy (items x.same (slice r x.p (stop - x.p))) = total
  reads : ∀ i ∈ x.reads, i < 8 ∨ i < stop

theorem walkTurn_walking {m : LoadModule} {r : Record} {stop : Nat} {total : List UInt8} {n : Nat} {x : Walk}
    (h : Walking m r stop total n x) :
    (∃ x' n', walkTurn m r stop x = .again x' ∧ n' < n ∧ Walking m r stop total n' x' ∧ x.reads ⊆ x'.reads) ∨
      walkTurn m r stop x = .leave x ∧ x.copy = total := by
  obtain ⟨hrank, hle, hcopy, hreads⟩ := h
  have hlen : (slice r x.p (stop - x.p)).length = stop - x.p := by rw [slice, List.length_map, List.length_range]
  by_cases hfour : x.p + 4 ≤ stop
  · by_cases height : (!x.same && decide (stop < x.p + 8)) = true
    · rw [items_short (.inr (by simp at height; exact ⟨height.1, by omega⟩))] at hcopy
      exact .inr ⟨by rw [walkTurn, if_pos hfour, if_pos height], hcopy⟩
    · refine .inl ⟨_, _, by rw [walkTurn, if_pos hfour, if_neg height], ?_, ⟨rfl, ?_, ?_, ?_⟩, ?_⟩
      · dsimp only
        split <;> omega
      · cases hsame : x.same
        · simp [hsame] at height ⊢
          omega
        · simp
          omega
      · rw [← hcopy]
        cases hsame : x.same
        · simp [hsame] at height
          obtain ⟨k, hk⟩ : ∃ k, stop - x.p = k + 4 + 4 := ⟨stop - x.p - 8, by omega⟩
          have hk' : stop - (x.p + 4 + 4) = k := by omega
          rw [hk, slice_four, slice_four]
          simp [items, hk', relocateItems]
        · obtain ⟨k, hk⟩ : ∃ k, stop - x.p = k + 4 := ⟨stop - x.p - 4, by omega⟩
          have hk' : stop - (x.p + 4) = k := by omega
          rw [hk, slice_four]
          simp [items, hk', relocateItems]
      · intro i hi
        rw [List.mem_append] at hi
        rcases hi with hi | hi
        · exact hreads i hi
        · right
          cases hsame : x.same
          · simp [hsame] at hi height
            omega
          · simp [hsame] at hi
            omega
      · exact List.subset_append_left _ _
  · rw [items_short (.inl (by omega))] at hcopy
    exact .inr ⟨by rw [walkTurn, if_neg hfour], hcopy⟩

/-- The walk from any place: the copy it ends with, and where it reads. -/
theorem walk_spec {m : LoadModule} {r : Record} {stop : Nat} {total : List UInt8} {n k : Nat} {x : Walk}
    (h : Walking m r stop total n x) (hk : n < k) :
    (Loop.run id (walkTurn m r stop) k x).copy = total ∧
      (∀ i ∈ (Loop.run id (walkTurn m r stop) k x).reads, i < 8 ∨ i < stop) ∧
      x.reads ⊆ (Loop.run id (walkTurn m r stop) k x).reads := by
  refine Loop.run_rank (fun n y => Walking m r stop total n y ∧ x.reads ⊆ y.reads)
    (fun out : Walk => out.copy = total ∧ (∀ i ∈ out.reads, i < 8 ∨ i < stop) ∧ x.reads ⊆ out.reads) ?_
    ⟨h, List.Subset.refl _⟩ hk
  rintro n y ⟨hy, hbase⟩
  rcases walkTurn_walking hy with ⟨y', n', hturn, hlt, hy', hreads⟩ | ⟨hturn, hcopy⟩
  · exact .inl ⟨y', n', hturn, hlt, hy', fun i hi => hreads (hbase hi)⟩
  · exact .inr ⟨y, hturn, hcopy, hy.reads, hbase⟩

/-- **The walk goes through the items** of the bytes it is given, and reads nothing else
than these and the header. -/
theorem processRldr_spec (m : LoadModule) (copy : List UInt8) (r : Record) :
    (processRldr m copy r).copy = relocateItems m copy (items false (slice r 16 r.count)) ∧
      (∀ i ∈ (processRldr m copy r).reads, i < 8 ∨ i < 16 + r.count) ∧ 7 ∈ (processRldr m copy r).reads ∧
      (8 ≤ r.count → 23 ∈ (processRldr m copy r).reads) := by
  have hstart : Walking m r (16 + r.count) (relocateItems m copy (items false (slice r 16 r.count))) r.count
      ⟨16, false, copy, 0, [6, 7]⟩ := by
    refine ⟨by dsimp only; omega, by dsimp only; omega, by rw [Nat.add_sub_cancel_left], ?_⟩
    simp
  obtain ⟨hcopy, hreads, hbase⟩ := walk_spec hstart (Nat.lt_succ_self _)
  refine ⟨hcopy, hreads, hbase (by simp), ?_⟩
  intro hcount
  -- the first item is there, and is read
  rcases walkTurn_walking hstart with ⟨x', n', hturn, hlt, hx', -⟩ | ⟨hturn, -⟩
  · have hx : 23 ∈ x'.reads := by
      have hgo := hturn
      rw [walkTurn, if_pos (by dsimp only; omega), if_neg (by simp; omega)] at hgo
      cases hgo
      simp
    rw [processRldr, Loop.run_again hturn]
    exact (walk_spec hx' (by omega)).2.2 hx
  · rw [walkTurn, if_pos (by dsimp only; omega), if_neg (by simp; omega)] at hturn
    cases hturn

/-- A record without room for an item is not read further. -/
theorem processRldr_short {m : LoadModule} {copy : List UInt8} {r : Record} (h : r.count < 8) :
    (processRldr m copy r).reads = [6, 7] := by
  have hturn : walkTurn m r (16 + r.count) ⟨16, false, copy, 0, [6, 7]⟩ = .leave ⟨16, false, copy, 0, [6, 7]⟩ := by
    unfold walkTurn
    split
    · rw [if_pos (by simp; omega)]
    · rfl
  rw [processRldr, Loop.run_leave hturn]

/-- The walk stays inside the record: the header is there, and so is data, or no item is
claimed. -/
def Record.Bounded (r : Record) : Prop := 8 ≤ r.len ∧ (16 < r.len ∨ r.rldcnt < 8)

theorem reads_bounded_iff (m : LoadModule) (copy : List UInt8) (r : Record) :
    (∀ i ∈ (processRldr m copy r).reads, i < r.len) ↔ r.Bounded := by
  obtain ⟨-, hreads, hheader, hfirst⟩ := processRldr_spec m copy r
  constructor
  · intro h
    have hlen := h 7 hheader
    refine ⟨hlen, ?_⟩
    by_contra hnot
    have hcount : r.count = r.rldcnt := by
      rw [Record.count, if_neg (by omega)]
    have := h 23 (hfirst (by omega))
    omega
  · rintro ⟨hlen, hdata⟩ i hi
    by_cases hlong : 16 < r.len
    · have hcount : 16 + r.count ≤ r.len := by
        unfold Record.count
        split <;> omega
      have := hreads i hi
      omega
    · have hcount : r.count < 8 := by
        rw [Record.count, if_neg (by omega)]
        omega
      rw [processRldr_short hcount] at hi
      simp at hi
      omega

/-- What is walked of such a record is its data. -/
theorem items_data {r : Record} (h : r.Bounded) : items false (slice r 16 r.count) = items false r.data := by
  by_cases hlong : 16 < r.len
  · have hcount : r.count = min r.rldcnt (r.len - 16) := by
      unfold Record.count
      split <;> omega
    rw [hcount]
    rfl
  · have hcount : r.count < 8 := by
      have := h.2
      rw [Record.count, if_neg (by omega)]
      omega
    rw [items_short, items_short]
    · refine .inr ⟨rfl, ?_⟩
      rw [Record.data, List.length_map, List.length_range]
      omega
    · refine .inr ⟨rfl, ?_⟩
      rw [slice, List.length_map, List.length_range]
      exact hcount

end Libc370.Link
