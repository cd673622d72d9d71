import Libc370.Ext.Ary
import Libc370.Lib.Loop

/-! Reading the master trace table (`cmttget.c`).

The table is a buffer that wraps: from the current entry on to the end of the entry area its
entries get older, and the oldest ones stand between the wrap pointer and the current entry.
Each entry gives its own length. `cmtt_get_array()` walks both parts in a copy of the table
and makes an array of the entries, which it then puts in order from the oldest on, leaving
out the first one, which is often only part of a record.

Addresses are 32 bits, and `storage` has the byte at each of them. -/
namespace Libc370.Mtt

open Ext Loop

/-- `MTTABLE`: the members that are read here. -/
structure Mttable where
  mttcurpt : BitVec 32
  mttentpt : BitVec 32
  mttendpt : BitVec 32
  mttwrppt : BitVec 32
  mttdarea : BitVec 32

/-- `CMTT`. -/
structure Cmtt where
  mttable : Option Mttable
  array : VArray (BitVec 32)

variable (storage : BitVec 32 → BitVec 8) (t : Mttable)

/-- `mtentry->mtentlen`, a signed halfword. -/
def mtentlen (e : BitVec 32) : BitVec 16 := storage (e + 8) ++ storage (e + 9)

/-- `INBOUNDS`. -/
def INBOUNDS (e : BitVec 32) : Bool := t.mttentpt ≤ e ∧ e < t.mttendpt

/-- A walk: where it is, the array so far, the calls of `array_add()` and the entries whose
length was read. -/
structure Walk where
  mtentry : BitVec 32
  array : VArray (BitVec 32)
  adds : Nat
  read : List (BitVec 32)

/-- The address behind an entry. -/
def behind (e : BitVec 32) : BitVec 32 := e + (mtentlen storage e).signExtend 32 + 10

/-- The entry is whole: its length is not negative, and it ends inside the area. -/
def whole (e : BitVec 32) : Bool :=
  0 ≤ (mtentlen storage e).toInt ∧ e + 10 + (mtentlen storage e).signExtend 32 ≤ t.mttendpt

/-- One turn of either loop: `stop` is what the second one asks besides. -/
def turn (grant : Nat → Bool) (stop : BitVec 32 → Bool) (w : Walk) : Turn Walk (Option Walk) :=
  let e := w.mtentry
  if INBOUNDS t e ∧ stop e = false then
    let w := {w with read := w.read ++ [e]}
    if whole storage t e then
      .again {w with
        mtentry := behind storage e
        array := (arrayadd (grant (w.adds + 1)) w.array e).2
        adds := w.adds + 1}
    else .leave (some w)
  else .leave (some w)

/-- A loop, which is `none` where it never ends: there are no more than so many places. -/
def walk (grant : Nat → Bool) (stop : BitVec 32 → Bool) (w : Walk) : Option Walk :=
  run (fun _ => none) (turn storage t grant stop) (2 ^ 32) w

/-- The loops of `cmtt_get_array()`, one after the other. -/
def walks (grant : Nat → Bool) (array : VArray (BitVec 32)) : Option Walk := do
  let w ← walk storage t grant (fun _ => false) ⟨t.mttcurpt, array, 0, []⟩
  walk storage t grant (fun e => t.mttcurpt ≤ e) {w with mtentry := t.mttwrppt}

section
variable {α : Type}

/-- `temp = arr[n]; arr[n] = arr[m]; arr[m] = temp`. -/
def exchange (arr : List α) (n m : Nat) : List α :=
  match arr[n]?, arr[m]? with
  | some x, some y => (arr.set n y).set m x
  | _, _ => arr

theorem exchange_length (arr : List α) (n m : Nat) : (exchange arr n m).length = arr.length := by
  unfold exchange
  split
  · rw [List.length_set, List.length_set]
  · rfl

/-- The first `k` turns of the loop of `reverse_mtentry_array()`. -/
def exchanges (arr : List α) (k : Nat) : List α :=
  (List.range k).foldl (fun a n => exchange a n (arr.length - n - 1)) arr

theorem exchanges_succ (arr : List α) (k : Nat) :
    exchanges arr (k + 1) = exchange (exchanges arr k) k (arr.length - k - 1) := by
  rw [exchanges, List.range_succ, List.foldl_append]
  rfl

theorem exchanges_length (arr : List α) (k : Nat) : (exchanges arr k).length = arr.length := by
  induction k with
  | zero => rfl
  | succ k ih => rw [exchanges_succ, exchange_length, ih]

/-- `reverse_mtentry_array()`. -/
def reverseMtentryArray : VArray α → VArray α
  | none => none
  | some a => some ⟨a.size, exchanges a.items (a.items.length / 2), by rw [exchanges_length]; exact a.fits⟩

end

/-- What a call leaves: the array it returns, the handle, and the entries whose length was read. -/
structure Got where
  array : VArray (BitVec 32)
  cmtt : Option Cmtt
  read : List (BitVec 32)

/-- `cmtt_get_array()`: `grant` says which requests for storage are granted, the first one
that of `array_new()`. -/
def cmttGetArray (grant : Nat → Bool) : Option Cmtt → Option Got
  | none => some ⟨none, none, []⟩
  | some cmtt =>
    match cmtt.mttable with
    | none => some ⟨none, some cmtt, []⟩
    | some t =>
      match cmtt.array with
      | some a => some ⟨some a, some cmtt, []⟩
      | none => do
        let size := max (t.mttdarea.toNat / 80) 10
        let w ← walks storage t grant (if grant 0 then some (arraynew size) else none)
        let array := if 1 < arraycount w.array then (arraydel (reverseMtentryArray w.array) 1).2 else w.array
        return ⟨array, some {cmtt with array}, w.read⟩

/-! ### The reversal -/

section
variable {α : Type}

theorem exchange_get {arr : List α} {n m : Nat} (hn : n < m) (hm : m < arr.length) (i : Nat) :
    (exchange arr n m)[i]? = if i = n then arr[m]? else if i = m then arr[n]? else arr[i]? := by
  have hlt := hn.trans hm
  simp only [exchange, List.getElem?_eq_getElem hm, List.getElem?_eq_getElem hlt, List.getElem?_set, List.length_set]
  by_cases him : m = i
  · subst him
    rw [if_pos rfl, if_pos hm, if_neg (by omega), if_pos rfl]
  · rw [if_neg him, if_neg (Ne.symm him)]
    by_cases hin : n = i
    · subst hin
      rw [if_pos rfl, if_pos hlt, if_pos rfl]
    · rw [if_neg hin, if_neg (Ne.symm hin)]

/-- So far the items outside of the middle have changed places with those opposite. -/
theorem exchanges_get (arr : List α) {k : Nat} (hk : k ≤ arr.length / 2) {i : Nat} (hi : i < arr.length) :
    (exchanges arr k)[i]? = if i < k ∨ arr.length - k ≤ i then arr[arr.length - 1 - i]? else arr[i]? := by
  induction k generalizing i with
  | zero =>
    rw [if_neg (by omega)]
    rfl
  | succ k ih =>
    have hlen := exchanges_length arr k
    have hnm : k < arr.length - k - 1 := by omega
    rw [exchanges_succ, exchange_get hnm (by omega)]
    by_cases hik : i = k
    · rw [if_pos hik, if_pos (by omega), ih (by omega) (by omega), if_neg (by omega), hik, Nat.sub_right_comm]
    · rw [if_neg hik]
      by_cases him : i = arr.length - k - 1
      · have hopp : arr.length - 1 - i = k := by omega
        rw [if_pos him, if_pos (by omega), ih (by omega) (by omega), if_neg (by omega), hopp]
      · rw [if_neg him, ih (by omega) hi]
        have hiff : (i < k ∨ arr.length - k ≤ i) ↔ (i < k + 1 ∨ arr.length - (k + 1) ≤ i) := by omega
        simp only [hiff]

/-- **The loop of `reverse_mtentry_array()` reverses.** -/
theorem exchanges_half (arr : List α) : exchanges arr (arr.length / 2) = arr.reverse := by
  refine List.ext_getElem? fun i => ?_
  by_cases hi : i < arr.length
  · rw [exchanges_get arr le_rfl hi, List.getElem?_reverse hi]
    by_cases hout : i < arr.length / 2 ∨ arr.length - arr.length / 2 ≤ i
    · rw [if_pos hout]
    · have hmid : arr.length - 1 - i = i := by omega
      rw [if_neg hout, hmid]
  · rw [List.getElem?_eq_none (by rw [exchanges_length]; omega),
      List.getElem?_eq_none (by rw [List.length_reverse]; omega)]

theorem reverse_list (v : VArray α) : (reverseMtentryArray v).list = v.list.reverse := by
  cases v with
  | none => rfl
  | some a => exact exchanges_half a.items

end

/-! ### The walks -/

/-- The bytes of an entry's data. -/
def dataLength (e : BitVec 32) : Nat := (mtentlen storage e).toInt.toNat

/-- An entry lies in the entry area, from its header to the end of its data. -/
def Inside (e : BitVec 32) : Prop :=
  0 ≤ (mtentlen storage e).toInt ∧ t.mttentpt.toNat ≤ e.toNat ∧ e.toNat + 10 + dataLength storage e ≤ t.mttendpt.toNat

/-- The entries from a place on, each behind the one before, up to one that is not whole or not in the area. -/
inductive Entries (stop : BitVec 32 → Bool) : BitVec 32 → List (BitVec 32) → Prop
  | done {e : BitVec 32} (left : ¬ (INBOUNDS t e ∧ stop e = false ∧ whole storage t e)) : Entries stop e []
  | entry {e : BitVec 32} {rest : List (BitVec 32)} (here : INBOUNDS t e ∧ stop e = false ∧ whole storage t e)
      (next : Entries stop (behind storage e) rest) : Entries stop e (e :: rest)

variable {storage t} {stop : BitVec 32 → Bool} {grant : Nat → Bool} {e : BitVec 32}

theorem INBOUNDS_iff : INBOUNDS t e = true ↔ t.mttentpt.toNat ≤ e.toNat ∧ e.toNat < t.mttendpt.toNat := by
  rw [INBOUNDS, decide_eq_true_iff, BitVec.le_def, BitVec.lt_def]

/-- In a table that is in storage no address wraps. -/
theorem whole_inside (hend : t.mttendpt.toNat ≤ 2 ^ 24) (hin : INBOUNDS t e) (hwhole : whole storage t e) :
    Inside storage t e ∧ (behind storage e).toNat = e.toNat + 10 + dataLength storage e := by
  rw [INBOUNDS_iff] at hin
  rw [whole, decide_eq_true_iff] at hwhole
  obtain ⟨hpos, hle⟩ := hwhole
  have hext : ((mtentlen storage e).signExtend 32).toNat = dataLength storage e := by
    have hint : ((mtentlen storage e).signExtend 32).toInt = (mtentlen storage e).toInt :=
      BitVec.toInt_signExtend_of_le (by decide)
    have hcases := BitVec.toInt_eq_toNat_cond ((mtentlen storage e).signExtend 32)
    rw [hint] at hcases
    rw [dataLength]
    have hlt := ((mtentlen storage e).signExtend 32).isLt
    split_ifs at hcases with hsmall
    · omega
    · omega
  have hlen : dataLength storage e < 2 ^ 15 := by
    have hlt := BitVec.toInt_lt (x := mtentlen storage e)
    rw [dataLength]
    omega
  have hsum : (e + 10 + (mtentlen storage e).signExtend 32).toNat = e.toNat + 10 + dataLength storage e := by
    have hten : (10 : BitVec 32).toNat = 10 := rfl
    rw [BitVec.toNat_add, BitVec.toNat_add, hext, hten]
    omega
  have hbehind : behind storage e = e + 10 + (mtentlen storage e).signExtend 32 := by
    rw [behind, add_right_comm]
  rw [BitVec.le_def, hsum] at hle
  exact ⟨⟨hpos, hin.1, hle⟩, by rw [hbehind, hsum]⟩

/-- The entries of a walk lie in the area, where the loop goes on, and one behind the other. -/
theorem Entries.spec (hend : t.mttendpt.toNat ≤ 2 ^ 24) {es : List (BitVec 32)} (h : Entries storage t stop e es) :
    (∀ x ∈ es, e.toNat ≤ x.toNat ∧ stop x = false ∧ Inside storage t x) ∧
    es.Pairwise (fun x y => x.toNat < y.toNat) := by
  induction h with
  | done left => exact ⟨fun x hx => absurd hx List.not_mem_nil, .nil⟩
  | @entry e rest here next ih =>
    obtain ⟨hin, hstop, hwhole⟩ := here
    obtain ⟨hinside, hbehind⟩ := whole_inside hend hin hwhole
    obtain ⟨hall, hsorted⟩ := ih
    constructor
    · intro x hx
      rcases List.mem_cons.mp hx with rfl | hx
      · exact ⟨le_rfl, hstop, hinside⟩
      · obtain ⟨hle, hgo, hx⟩ := hall x hx
        exact ⟨by omega, hgo, hx⟩
    · refine List.pairwise_cons.mpr ⟨fun x hx => ?_, hsorted⟩
      have hle := (hall x hx).1
      omega

/-- What a walk leaves: the array has kept what it was given of the entries, and lengths were read
of entries that start in the area. -/
structure Walked (storage : BitVec 32 → BitVec 8) (t : Mttable) (grant : Nat → Bool) (stop : BitVec 32 → Bool)
    (w w' : Walk) (es kept : List (BitVec 32)) : Prop where
  entries : Entries storage t stop w.mtentry es
  array : w'.array.list = w.array.list ++ kept
  sub : kept.Sublist es
  all : (∀ i, grant i = true) → kept = es
  read : ∀ x ∈ w'.read, x ∈ w.read ∨ INBOUNDS t x

/-- **A loop comes to an end.** -/
theorem run_walked (hend : t.mttendpt.toNat ≤ 2 ^ 24) (k : Nat) (w : Walk)
    (hk : t.mttendpt.toNat - w.mtentry.toNat < k) :
    ∃ es kept w', run (fun _ => none) (turn storage t grant stop) k w = some w' ∧
      Walked storage t grant stop w w' es kept := by
  induction k generalizing w with
  | zero => omega
  | succ k ih =>
    by_cases hgo : INBOUNDS t w.mtentry ∧ stop w.mtentry = false
    · by_cases hwhole : whole storage t w.mtentry
      · obtain ⟨⟨-, -, hle⟩, hbehind⟩ := whole_inside hend hgo.1 hwhole
        have hturn : turn storage t grant stop w = .again
            { mtentry := behind storage w.mtentry
              array := (arrayadd (grant (w.adds + 1)) w.array w.mtentry).2
              adds := w.adds + 1
              read := w.read ++ [w.mtentry] } := by
          simp only [turn]
          rw [if_pos hgo, if_pos hwhole]
        obtain ⟨es, kept, w', hrun, hw⟩ := ih
          { mtentry := behind storage w.mtentry
            array := (arrayadd (grant (w.adds + 1)) w.array w.mtentry).2
            adds := w.adds + 1
            read := w.read ++ [w.mtentry] } (by simp only [hbehind]; omega)
        have hread : ∀ x ∈ w'.read, x ∈ w.read ∨ INBOUNDS t x := by
          intro x hx
          rcases hw.read x hx with hx | hx
          · rcases List.mem_append.mp hx with hx | hx
            · exact .inl hx
            · rw [List.mem_singleton.mp hx]
              exact .inr hgo.1
          · exact .inr hx
        rw [run_again hturn]
        rcases arrayadd_cases (grant (w.adds + 1)) w.array w.mtentry with ⟨-, hadd⟩ | ⟨hgrant, -, hadd⟩
        · refine ⟨w.mtentry :: es, w.mtentry :: kept, w', hrun, .entry ⟨hgo.1, hgo.2, hwhole⟩ hw.entries, ?_,
            hw.sub.cons_cons _,
            fun hall => congrArg _ (hw.all hall), hread⟩
          rw [hw.array, hadd, List.append_assoc]
          rfl
        · refine ⟨w.mtentry :: es, kept, w', hrun, .entry ⟨hgo.1, hgo.2, hwhole⟩ hw.entries, ?_, hw.sub.cons _,
            fun hall => ?_, hread⟩
          · rw [hw.array, hadd]
          · rw [hall] at hgrant
            cases hgrant
      · have hturn : turn storage t grant stop w = .leave (some {w with read := w.read ++ [w.mtentry]}) := by
          simp only [turn]
          rw [if_pos hgo, if_neg hwhole]
        rw [run_leave hturn]
        refine ⟨[], [], _, rfl, .done fun h => hwhole h.2.2, (List.append_nil _).symm, .slnil, fun _ => rfl,
          fun x hx => ?_⟩
        rcases List.mem_append.mp hx with hx | hx
        · exact .inl hx
        · rw [List.mem_singleton.mp hx]
          exact .inr hgo.1
    · have hturn : turn storage t grant stop w = .leave (some w) := by
        simp only [turn]
        rw [if_neg hgo]
      rw [run_leave hturn]
      exact ⟨[], [], w, rfl, .done fun h => hgo ⟨h.1, h.2.1⟩, (List.append_nil _).symm, .slnil, fun _ => rfl,
        fun x hx => .inl hx⟩

theorem walk_walked (hend : t.mttendpt.toNat ≤ 2 ^ 24) (w : Walk) :
    ∃ es kept w', walk storage t grant stop w = some w' ∧ Walked storage t grant stop w w' es kept :=
  run_walked hend (2 ^ 32) w (by omega)

/-! ### The array -/

/-- The entries from the oldest on; of more than one the oldest is left out. -/
def oldestFirst (newestFirst : List (BitVec 32)) : List (BitVec 32) :=
  if 1 < newestFirst.length then newestFirst.reverse.tail else newestFirst

theorem arraydel_reverse (v : VArray (BitVec 32)) :
    (if 1 < arraycount v then (arraydel (reverseMtentryArray v) 1).2 else v).list = oldestFirst v.list := by
  rw [oldestFirst]
  by_cases hcount : 1 < v.list.length
  · have hcode : 1 < arraycount v := hcount
    rw [if_pos hcode, if_pos hcount, (arraydel_list _ Nat.one_pos).2, reverse_list]
    exact List.eraseIdx_zero
  · have hcode : ¬ 1 < arraycount v := hcount
    rw [if_neg hcode, if_neg hcount]

theorem oldestFirst_sublist (es : List (BitVec 32)) : (oldestFirst es).Sublist es.reverse := by
  rw [oldestFirst]
  split_ifs with hcount
  · exact List.tail_sublist _
  · match es, hcount with
    | [], _ => exact .slnil
    | [x], _ => exact .refl _
    | x :: y :: rest, hcount => exact absurd (by simp) hcount

/-- The entries of the table: those from the current one on, and the older ones from the wrap pointer. -/
structure Table (storage : BitVec 32 → BitVec 8) (t : Mttable) (newer older : List (BitVec 32)) : Prop where
  current : Entries storage t (fun _ => false) t.mttcurpt newer
  wrapped : Entries storage t (fun e => t.mttcurpt ≤ e) t.mttwrppt older

theorem Table.nodup (hend : t.mttendpt.toNat ≤ 2 ^ 24) {newer older : List (BitVec 32)}
    (h : Table storage t newer older) :
    (newer ++ older).Nodup := by
  obtain ⟨hnewer, hsorted⟩ := h.current.spec hend
  obtain ⟨holder, hsorted'⟩ := h.wrapped.spec hend
  have hne : ∀ x y : BitVec 32, x.toNat < y.toNat → x ≠ y :=
      fun x y hlt heq => absurd hlt (by rw [heq]; exact lt_irrefl _)
  refine List.nodup_append.mpr ⟨hsorted.imp (hne _ _), hsorted'.imp (hne _ _), fun x hx y hy heq => ?_⟩
  have hge := (hnewer x hx).1
  have hstop := (holder y hy).2.1
  rw [decide_eq_false_iff_not, BitVec.le_def, ← heq] at hstop
  exact hstop hge

/-- **The entries of a copied table.** Where the entry area lies in the copy, and whatever else the
header and the entries hold, the call comes to an end and returns entries inside the area, none
twice, from the oldest to the newest, of more than one all but the oldest. -/
theorem get_array_entries (storage : BitVec 32 → BitVec 8) (t : Mttable) (grant : Nat → Bool) {copy size : Nat}
    (hstart : copy ≤ t.mttentpt.toNat) (hend : t.mttendpt.toNat ≤ copy + size) (hstorage : copy + size ≤ 2 ^ 24) :
    ∃ newer older kept got, Table storage t newer older ∧ kept.Sublist (newer ++ older) ∧
      ((∀ i, grant i = true) → kept = newer ++ older) ∧
      cmttGetArray storage grant (some ⟨some t, VArray.null⟩) = some got ∧ got.array.list = oldestFirst kept ∧
      got.cmtt = some ⟨some t, got.array⟩ ∧ got.array.list.Nodup ∧
      (∀ e ∈ got.array.list, Inside storage t e ∧ copy ≤ e.toNat ∧ e.toNat + 10 + dataLength storage e ≤ copy + size) ∧
      ∀ e ∈ got.read, copy ≤ e.toNat ∧ e.toNat < t.mttendpt.toNat := by
  have hin := hend.trans hstorage
  obtain ⟨newer, kept, w, hwalk, hw⟩ := @walk_walked storage t (fun _ => false) grant hin
    ⟨t.mttcurpt, if grant 0 then some (arraynew (max (t.mttdarea.toNat / 80) 10)) else none, 0, []⟩
  obtain ⟨older, kept', w', hwalk', hw'⟩ := @walk_walked storage t (fun e => t.mttcurpt ≤ e) grant hin
    {w with mtentry := t.mttwrppt}
  have htable : Table storage t newer older := ⟨hw.entries, hw'.entries⟩
  have hempty : ∀ b : Bool, VArray.list (if b then some (arraynew (max (t.mttdarea.toNat / 80) 10)) else none) =
      ([] : List (BitVec 32)) := by
    intro b
    cases b <;> rfl
  have hlist : w'.array.list = kept ++ kept' := by
    rw [hw'.array, hw.array, hempty]
    rfl
  have hsub : (kept ++ kept').Sublist (newer ++ older) := hw.sub.append hw'.sub
  have hresult : cmttGetArray storage grant (some ⟨some t, VArray.null⟩) =
      some ⟨if 1 < arraycount w'.array then (arraydel (reverseMtentryArray w'.array) 1).2 else w'.array,
        some ⟨some t, if 1 < arraycount w'.array then (arraydel (reverseMtentryArray w'.array) 1).2 else w'.array⟩,
          w'.read⟩ := by
    simp only [cmttGetArray, VArray.null, walks, hwalk, hwalk', Option.bind_eq_bind, Option.bind_some]
    rfl
  have hgot := arraydel_reverse w'.array
  rw [hlist] at hgot
  have hmem : ∀ e ∈ oldestFirst (kept ++ kept'), e ∈ newer ++ older := fun e he =>
    hsub.subset (List.mem_reverse.mp ((oldestFirst_sublist _).subset he))
  refine ⟨newer, older, kept ++ kept', _, htable, hsub, fun hall => ?_, hresult, hgot, rfl, ?_, ?_, ?_⟩
  · rw [hw.all hall, hw'.all hall]
  · rw [hgot]
    exact (oldestFirst_sublist _).nodup (List.nodup_reverse.mpr (hsub.nodup (htable.nodup hin)))
  · rw [hgot]
    intro e he
    have hinside : Inside storage t e := by
      rcases List.mem_append.mp (hmem e he) with he | he
      · exact ((htable.current.spec hin).1 e he).2.2
      · exact ((htable.wrapped.spec hin).1 e he).2.2
    exact ⟨hinside, hstart.trans hinside.2.1, hinside.2.2.trans hend⟩
  · intro e he
    rcases hw'.read e he with he | he
    · rcases hw.read e he with he | he
      · cases he
      · rw [INBOUNDS_iff] at he
        exact ⟨hstart.trans he.1, he.2⟩
    · rw [INBOUNDS_iff] at he
      exact ⟨hstart.trans he.1, he.2⟩

/-- Three entries without data: the array starts with an older one than the current. And behind a
copy of 158 bytes a header whose end lies 20 bytes further is believed. -/
theorem not_newest_first :
    ((cmttGetArray (fun _ => 0) (fun _ => true) (some ⟨some ⟨128, 128, 158, 158, 0⟩, VArray.null⟩)).map (·.array.list) =
      some [138, 128]) ∧
    (cmttGetArray (fun _ => 0) (fun _ => true) (some ⟨some ⟨128, 128, 178, 178, 0⟩, VArray.null⟩)).map (·.read) =
      some [128, 138, 148, 158, 168] := by
  decide +kernel

/-- The first of the tables above. -/
theorem get_array_entries_three :
    ∃ newer older kept got, Table (fun _ => 0) ⟨128, 128, 158, 158, 0⟩ newer older ∧ kept.Sublist (newer ++ older) ∧
      ((∀ i, (fun _ : Nat => true) i = true) → kept = newer ++ older) ∧
      cmttGetArray (fun _ => 0) (fun _ => true) (some ⟨some ⟨128, 128, 158, 158, 0⟩, VArray.null⟩) = some got ∧
      got.array.list = oldestFirst kept ∧ got.cmtt = some ⟨some ⟨128, 128, 158, 158, 0⟩, got.array⟩ ∧
        got.array.list.Nodup ∧
      (∀ e ∈ got.array.list, Inside (fun _ => 0) ⟨128, 128, 158, 158, 0⟩ e ∧ 0 ≤ e.toNat ∧
        e.toNat + 10 + dataLength (fun _ => 0) e ≤ 0 + 158) ∧
      ∀ e ∈ got.read, 0 ≤ e.toNat ∧ e.toNat < (158 : BitVec 32).toNat :=
  get_array_entries _ _ _ (by decide) (by decide) (by decide)

end Libc370.Mtt
