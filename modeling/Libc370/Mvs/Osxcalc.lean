import Mathlib

/-! Where a block of a data set is on the disk (`osxcalc.c`).

A data set is a number of extents, each so many tracks from a cylinder and head on. Blocks are
numbered over the tracks of all extents, the same number on every track; `osxcalc()` finds the
extent of a block and gives its cylinder, head and record as the seek address of an EXCP. -/
namespace Libc370.Osio

/-- `DEBDASD`: an extent. -/
structure Debdasd where
  debbinum : BitVec 16
  debstrcc : BitVec 16
  debstrhh : BitVec 16
  debnmtrk : BitVec 16

/-- What is read of the DCB and its DEB; `debnmext` is one byte. -/
structure Dcb where
  dcbdevt : BitVec 8
  extents : List Debdasd
  debnmext : extents.length < 2 ^ 8

/-- `trkscyl`, the tracks per cylinder by device type, 0 for a device that is not supported. -/
def trkscyl : List Nat := [0, 10, 0, 0, 0, 0, 8, 8, 20, 19, 12, 30, 12, 19, 15, 15]

def Dcb.trkcyl (d : Dcb) : Nat := trkscyl.getD (d.dcbdevt &&& 0x0F#8).toNat 0

/-- The low byte of a number, `(char)`. -/
def char (n : Int) : BitVec 8 := BitVec.ofInt 8 n

/-- The address of a track of an extent, for a record. `/` and `%` are those of C. -/
def mbbcchhrOf (trkcyl : Int) (i : Nat) (x : Debdasd) (track : Int) (record : BitVec 32) : List (BitVec 8) :=
  let bb : Int := x.debbinum.toNat
  let cc : Int := x.debstrcc.toNat
  let hh : Int := x.debstrhh.toNat + track
  let cc := cc + hh.tdiv trkcyl
  let hh := hh.tmod trkcyl
  [char i, char (bb / 2 ^ 8), char bb, char (cc / 2 ^ 8), char cc, char (hh / 2 ^ 8), char hh, char record.toInt]

/-- The loop of `osxcalc()` over the extents, from extent `i` on. -/
def search (trkcyl : Int) (record : BitVec 32) : Nat → Int → List Debdasd → Option (Int × List (BitVec 8))
  | _, _, [] => none
  | i, track, x :: rest =>
    if track < x.debnmtrk.toNat then some (record.toInt, mbbcchhrOf trkcyl i x track record)
    else search trkcyl record (i + 1) (track - x.debnmtrk.toNat) rest

/-- `osxcalc()`: its return code, and `mbbcchhr`. -/
def osxcalc (d : Dcb) (blkstrk block : BitVec 32) (mbbcchhr : List (BitVec 8)) : Int × List (BitVec 8) :=
  let track : Int := if blkstrk ≠ 0 then (block / blkstrk).toInt else 0
  let record := if blkstrk ≠ 0 then block % blkstrk else 0
  if d.trkcyl = 0 then (-1, mbbcchhr)
  else (search d.trkcyl (record + 1) 0 track d.extents).getD (-1, mbbcchhr)

/-! ### The block positions -/

/-- Rows of the same length, one after the other. -/
def grid {α : Type} (rows cols : Nat) (f : Nat → Nat → α) : List α :=
  (List.range rows).flatMap fun r => (List.range cols).map (f r)

section
variable {α : Type} (rows cols : Nat) (f : Nat → Nat → α)

theorem grid_succ : grid (rows + 1) cols f = grid rows cols f ++ (List.range cols).map (f rows) := by
  rw [grid, List.range_succ, List.flatMap_append]
  simp [grid]

theorem grid_length : (grid rows cols f).length = rows * cols := by
  induction rows with
  | zero => simp [grid]
  | succ rows ih =>
    rw [grid_succ, List.length_append, ih, List.length_map, List.length_range]
    ring

/-- An item of a grid, by the division of its number by the length of a row. -/
theorem grid_get {i : Nat} (hi : i < rows * cols) : (grid rows cols f)[i]? = some (f (i / cols) (i % cols)) := by
  induction rows with
  | zero => omega
  | succ rows ih =>
    rw [grid_succ]
    by_cases hlt : i < rows * cols
    · rw [List.getElem?_append_left (by rw [grid_length]; exact hlt)]
      exact ih hlt
    · have hcol : i - rows * cols < cols := by
        rw [Nat.add_mul, Nat.one_mul] at hi
        omega
      have hsplit : i = i - rows * cols + cols * rows := by
        rw [Nat.mul_comm cols]
        omega
      have hdiv : i / cols = rows := by
        rw [hsplit, Nat.add_mul_div_left _ _ (by omega), Nat.div_eq_of_lt hcol, Nat.zero_add]
      have hmod : i % cols = i - rows * cols := by
        rw [hsplit, Nat.add_mul_mod_self_left, Nat.mod_eq_of_lt (by omega)]
        omega
      rw [List.getElem?_append_right (by rw [grid_length]; omega), grid_length, List.getElem?_map,
        List.getElem?_range hcol, hdiv, hmod]
      rfl

theorem mem_grid {x : α} : x ∈ grid rows cols f ↔ ∃ r < rows, ∃ c < cols, x = f r c := by
  simp only [grid, List.mem_flatMap, List.mem_range, List.mem_map]
  exact ⟨fun ⟨r, hr, c, hc, h⟩ => ⟨r, hr, c, hc, h.symm⟩, fun ⟨r, hr, c, hc, h⟩ => ⟨r, hr, c, hc, h.symm⟩⟩

theorem grid_nodup (hf : ∀ r c r' c', c < cols → c' < cols → f r c = f r' c' → r = r' ∧ c = c') :
    (grid rows cols f).Nodup := by
  rw [List.nodup_iff_getElem?_ne_getElem?]
  intro i j hij hj heq
  rw [grid_length] at hj
  have hcols : 0 < cols := by
    by_contra h0
    have hzero : cols = 0 := by omega
    rw [hzero, Nat.mul_zero] at hj
    omega
  rw [grid_get rows cols f (by omega), grid_get rows cols f hj, Option.some.injEq] at heq
  obtain ⟨hdiv, hmod⟩ := hf _ _ _ _ (Nat.mod_lt _ hcols) (Nat.mod_lt _ hcols) heq
  have hi := Nat.div_add_mod i cols
  rw [hdiv, hmod, Nat.div_add_mod] at hi
  omega

end

/-- A place for a block: the extent, its bin, the cylinder, the head and the record. -/
structure Position where
  extent : Nat
  bin : Nat
  cylinder : Nat
  head : Nat
  record : Nat
  deriving DecidableEq, Repr

/-- The first track of an extent, counted over the cylinders of the volume. -/
def Debdasd.start (trkcyl : Nat) (x : Debdasd) : Nat := x.debstrcc.toNat * trkcyl + x.debstrhh.toNat

/-- The positions of an extent: its tracks in order, and on each the records from 1 on. -/
def extentPositions (trkcyl blkstrk i : Nat) (x : Debdasd) : List Position :=
  grid x.debnmtrk.toNat blkstrk fun t r =>
    ⟨i, x.debbinum.toNat, (x.start trkcyl + t) / trkcyl, (x.start trkcyl + t) % trkcyl, r + 1⟩

/-- The positions of the extents in order, from extent `i` on. -/
def positionsFrom (trkcyl blkstrk : Nat) : Nat → List Debdasd → List Position
  | _, [] => []
  | i, x :: rest => extentPositions trkcyl blkstrk i x ++ positionsFrom trkcyl blkstrk (i + 1) rest

def positions (d : Dcb) (blkstrk : Nat) : List Position := positionsFrom d.trkcyl blkstrk 0 d.extents

/-- The tracks of all extents. -/
def totalTracks (xs : List Debdasd) : Nat := (xs.map fun x => x.debnmtrk.toNat).sum

/-- A position lies on a track of its extent, behind no more than so many blocks. -/
def Position.Inside (trkcyl blkstrk : Nat) (x : Debdasd) (p : Position) : Prop :=
  p.head < trkcyl ∧ x.start trkcyl ≤ p.cylinder * trkcyl + p.head ∧
    p.cylinder * trkcyl + p.head < x.start trkcyl + x.debnmtrk.toNat ∧ 1 ≤ p.record ∧ p.record ≤ blkstrk

/-- The position an address has, but for the record, of which it has the low byte. -/
def Position.StoredIn (p : Position) (mbbcchhr : List (BitVec 8)) : Prop :=
  mbbcchhr.map BitVec.toNat = [p.extent, p.bin / 2 ^ 8, p.bin % 2 ^ 8, p.cylinder / 2 ^ 8, p.cylinder % 2 ^ 8,
    p.head / 2 ^ 8, p.head % 2 ^ 8, p.record % 2 ^ 8]

section
variable {trkcyl blkstrk i : Nat} {x : Debdasd} {xs : List Debdasd} {p : Position}

theorem positionsFrom_length : (positionsFrom trkcyl blkstrk i xs).length = blkstrk * totalTracks xs := by
  induction xs generalizing i with
  | nil => rfl
  | cons x rest ih =>
    rw [positionsFrom, List.length_append, ih, extentPositions, grid_length, totalTracks, totalTracks, List.map_cons,
      List.sum_cons]
    ring

theorem mem_extentPositions (hp : p ∈ extentPositions trkcyl blkstrk i x) (hcyl : 0 < trkcyl) :
    p.extent = i ∧ p.bin = x.debbinum.toNat ∧ p.Inside trkcyl blkstrk x := by
  rw [extentPositions, mem_grid] at hp
  obtain ⟨t, ht, r, hr, rfl⟩ := hp
  have hdiv := Nat.div_add_mod' (x.start trkcyl + t) trkcyl
  refine ⟨rfl, rfl, Nat.mod_lt _ hcyl, ?_, ?_, Nat.le_add_left _ _, hr⟩
  · show x.start trkcyl ≤ (x.start trkcyl + t) / trkcyl * trkcyl + (x.start trkcyl + t) % trkcyl
    omega
  · show (x.start trkcyl + t) / trkcyl * trkcyl + (x.start trkcyl + t) % trkcyl < _
    omega

/-- Every position is one of an extent, inside of it. -/
theorem mem_positionsFrom (hp : p ∈ positionsFrom trkcyl blkstrk i xs) (hcyl : 0 < trkcyl) :
    ∃ x, i ≤ p.extent ∧ xs[p.extent - i]? = some x ∧ p.bin = x.debbinum.toNat ∧ p.Inside trkcyl blkstrk x := by
  induction xs generalizing i with
  | nil => cases hp
  | cons x rest ih =>
    rcases List.mem_append.mp hp with hp | hp
    · obtain ⟨hext, hbin, hin⟩ := mem_extentPositions hp hcyl
      exact ⟨x, hext.ge, by rw [hext, Nat.sub_self]; rfl, hbin, hin⟩
    · obtain ⟨y, hle, hget, hbin, hin⟩ := ih hp
      refine ⟨y, by omega, ?_, hbin, hin⟩
      have hsub : p.extent - i = p.extent - (i + 1) + 1 := by omega
      rw [hsub, List.getElem?_cons_succ]
      exact hget

theorem positionsFrom_nodup (hcyl : 0 < trkcyl) : (positionsFrom trkcyl blkstrk i xs).Nodup := by
  induction xs generalizing i with
  | nil => exact List.nodup_nil
  | cons x rest ih =>
    refine List.nodup_append.mpr ⟨grid_nodup _ _ _ fun t r t' r' _ _ heq => ?_, ih, fun p hp q hq heq => ?_⟩
    · simp only [Position.mk.injEq, true_and] at heq
      obtain ⟨hdiv, hmod, hrec⟩ := heq
      have h := Nat.div_add_mod (x.start trkcyl + t) trkcyl
      rw [hdiv, hmod, Nat.div_add_mod] at h
      omega
    · obtain ⟨hext, -⟩ := mem_extentPositions hp hcyl
      obtain ⟨-, hle, -⟩ := mem_positionsFrom hq hcyl
      rw [heq] at hext
      omega

end

/-! ### The search -/

/-- The last cylinder of an extent has a number of two bytes. -/
def OnVolume (trkcyl : Nat) (x : Debdasd) : Prop := x.start trkcyl + x.debnmtrk.toNat ≤ 2 ^ 16 * trkcyl

theorem char_toNat (n : Nat) : (char (n : Int)).toNat = n % 2 ^ 8 := by
  rw [char, BitVec.ofInt_natCast, BitVec.toNat_ofNat]

section
variable {trkcyl blkstrk i : Nat} {x : Debdasd} {xs : List Debdasd} {record : BitVec 32}

/-- The address `osxcalc()` makes of a track of an extent. -/
theorem mbbcchhr_storedIn (hcyl : 0 < trkcyl) (hcyl' : trkcyl < 2 ^ 8) (hi : i < 2 ^ 8) (hvol : OnVolume trkcyl x)
    {t r : Nat}
    (ht : t < x.debnmtrk.toNat) (hrec : record.toInt = r + 1) :
    Position.StoredIn ⟨i, x.debbinum.toNat, (x.start trkcyl + t) / trkcyl, (x.start trkcyl + t) % trkcyl, r + 1⟩
      (mbbcchhrOf trkcyl i x t record) := by
  have hcc : ((x.debstrcc.toNat : Int) + ((x.debstrhh.toNat : Int) + (t : Int)).tdiv trkcyl) =
      ((x.start trkcyl + t) / trkcyl : Nat) := by
    have hdiv : (x.start trkcyl + t) / trkcyl = x.debstrcc.toNat + (x.debstrhh.toNat + t) / trkcyl := by
      have hsplit : x.start trkcyl + t = x.debstrhh.toNat + t + trkcyl * x.debstrcc.toNat := by
        rw [Debdasd.start]
        ring
      rw [hsplit, Nat.add_mul_div_left _ _ hcyl, Nat.add_comm]
    rw [hdiv, Int.tdiv_eq_ediv_of_nonneg (by omega)]
    push_cast
    rfl
  have hhh : ((x.debstrhh.toNat : Int) + (t : Int)).tmod trkcyl = ((x.start trkcyl + t) % trkcyl : Nat) := by
    have hmod : (x.start trkcyl + t) % trkcyl = (x.debstrhh.toNat + t) % trkcyl := by
      have hsplit : x.start trkcyl + t = x.debstrhh.toNat + t + trkcyl * x.debstrcc.toNat := by
        rw [Debdasd.start]
        ring
      rw [hsplit, Nat.add_mul_mod_self_left]
    rw [hmod, Int.tmod_eq_emod_of_nonneg (by omega)]
    push_cast
    rfl
  have hbin := x.debbinum.isLt
  have hlast : (x.start trkcyl + t) / trkcyl < 2 ^ 16 := by
    rw [Nat.div_lt_iff_lt_mul hcyl]
    unfold OnVolume at hvol
    omega
  have hhead := Nat.mod_lt (x.start trkcyl + t) hcyl
  have hrec' : record.toInt = ((r + 1 : Nat) : Int) := by rw [hrec]; push_cast; rfl
  unfold Position.StoredIn mbbcchhrOf
  dsimp only
  rw [hcc, hhh, hrec']
  have hbyte : ∀ n : Nat, (n : Int) / 2 ^ 8 = ((n / 2 ^ 8 : Nat) : Int) := fun n => by push_cast; rfl
  simp only [List.map_cons, List.map_nil, hbyte, char_toNat]
  rw [Nat.mod_eq_of_lt hi, Nat.mod_eq_of_lt (show x.debbinum.toNat / 2 ^ 8 < 2 ^ 8 by omega),
    Nat.mod_eq_of_lt (show (x.start trkcyl + t) / trkcyl / 2 ^ 8 < 2 ^ 8 by omega),
    Nat.mod_eq_of_lt (show (x.start trkcyl + t) % trkcyl / 2 ^ 8 < 2 ^ 8 by omega)]

/-- The search finds the extent of a block that the extents have. -/
theorem search_in (hcyl : 0 < trkcyl) (hcyl' : trkcyl < 2 ^ 8) (hvol : ∀ x ∈ xs, OnVolume trkcyl x)
    (hi : i + xs.length ≤ 2 ^ 8)
    {k : Nat} (hk : k < blkstrk * totalTracks xs) (hrec : record.toInt = ((k % blkstrk : Nat) : Int) + 1) :
    ∃ p mbbcchhr, (positionsFrom trkcyl blkstrk i xs)[k]? = some p ∧
      search trkcyl record i (k / blkstrk : Nat) xs = some ((p.record : Int), mbbcchhr) ∧ p.StoredIn mbbcchhr := by
  induction xs generalizing i k with
  | nil => exact absurd hk (Nat.not_lt_zero k)
  | cons x rest ih =>
    have hpos : 0 < blkstrk := by
      by_contra h0
      have hzero : blkstrk = 0 := by omega
      rw [hzero, Nat.zero_mul] at hk
      omega
    rw [List.length_cons] at hi
    by_cases hlt : k / blkstrk < x.debnmtrk.toNat
    · have hin : k < x.debnmtrk.toNat * blkstrk := (Nat.div_lt_iff_lt_mul hpos).mp hlt
      refine ⟨_, mbbcchhrOf trkcyl i x (k / blkstrk : Nat) record, ?_, ?_,
        mbbcchhr_storedIn hcyl hcyl' (by omega) (hvol x (List.mem_cons_self ..)) hlt hrec⟩
      · rw [positionsFrom, List.getElem?_append_left (by rw [extentPositions, grid_length]; exact hin)]
        exact grid_get _ _ _ hin
      · rw [search, if_pos (by exact_mod_cast hlt), hrec]
        push_cast
        rfl
    · have hout : x.debnmtrk.toNat * blkstrk ≤ k := by
        rw [Nat.div_lt_iff_lt_mul hpos] at hlt
        omega
      obtain ⟨k', rfl⟩ : ∃ k', k = k' + blkstrk * x.debnmtrk.toNat :=
          ⟨k - x.debnmtrk.toNat * blkstrk, by rw [Nat.mul_comm blkstrk]; omega⟩
      have hdiv : (k' + blkstrk * x.debnmtrk.toNat) / blkstrk = k' / blkstrk + x.debnmtrk.toNat :=
          Nat.add_mul_div_left _ _ hpos
      have hless : k' < blkstrk * totalTracks rest := by
        rw [totalTracks, List.map_cons, List.sum_cons, Nat.mul_add] at hk
        rw [totalTracks]
        omega
      rw [Nat.add_mul_mod_self_left] at hrec
      obtain ⟨p, mbbcchhr, hget, hsearch, hstored⟩ := ih (i := i + 1) (fun y hy => hvol y (List.mem_cons_of_mem _ hy))
          (by omega) hless hrec
      refine ⟨p, mbbcchhr, ?_, ?_, hstored⟩
      · rw [positionsFrom, List.getElem?_append_right (by rw [extentPositions, grid_length]; exact hout),
          extentPositions, grid_length]
        have hsub : k' + blkstrk * x.debnmtrk.toNat - x.debnmtrk.toNat * blkstrk = k' := by
          rw [Nat.mul_comm]
          omega
        rw [hsub]
        exact hget
      · have hrest : ((k' / blkstrk + x.debnmtrk.toNat : Nat) : Int) - x.debnmtrk.toNat = (k' / blkstrk : Nat) := by
          push_cast
          omega
        rw [hdiv] at hlt
        rw [search, hdiv, if_neg (by exact_mod_cast hlt), hrest]
        exact hsearch

/-- Behind the last track it finds none. -/
theorem search_beyond {t : Nat} (ht : totalTracks xs ≤ t) : search trkcyl record i t xs = none := by
  induction xs generalizing i t with
  | nil => rfl
  | cons x rest ih =>
    rw [totalTracks, List.map_cons, List.sum_cons] at ht
    obtain ⟨t', rfl⟩ : ∃ t', t = t' + x.debnmtrk.toNat := ⟨t - x.debnmtrk.toNat, by omega⟩
    have hrest : ((t' + x.debnmtrk.toNat : Nat) : Int) - x.debnmtrk.toNat = t' := by
      push_cast
      omega
    rw [search, if_neg (by push_cast; omega), hrest]
    exact ih (by rw [totalTracks]; omega)

end

theorem trkcyl_lt (d : Dcb) : d.trkcyl < 2 ^ 8 := by
  have hall : ∀ n ∈ trkscyl, n < 2 ^ 8 := by decide
  rw [Dcb.trkcyl, List.getD_eq_getElem?_getD]
  cases hget : trkscyl[(d.dcbdevt &&& 0x0F#8).toNat]? with
  | none => exact Nat.two_pow_pos 8
  | some n => exact hall n (List.mem_of_getElem? hget)

/-- Blocks a number of 31 bits. -/
theorem quotient_toInt {block blkstrk : BitVec 32} (h : block.toNat / blkstrk.toNat < 2 ^ 31) :
    (block / blkstrk).toInt = (block.toNat / blkstrk.toNat : Nat) := by
  rw [BitVec.toInt_eq_toNat_of_lt (by rw [BitVec.toNat_udiv]; omega), BitVec.toNat_udiv]

/-- **Block numbers and block positions.** For a device that is supported and a number of blocks per
track, the block numbers from 0 on are the positions of the extents in order, each inside its
extent, and a number behind the last one is refused. -/
theorem osxcalc_positions (d : Dcb) (mbbcchhr : List (BitVec 8)) :
    (d.trkcyl = 0 → ∀ blkstrk block, osxcalc d blkstrk block mbbcchhr = (-1, mbbcchhr)) ∧
    (∀ block, osxcalc d 0 block mbbcchhr = osxcalc d 1 0 mbbcchhr) ∧
    (d.trkcyl ≠ 0 → (∀ x ∈ d.extents, OnVolume d.trkcyl x) → ∀ blkstrk : BitVec 32,
    0 < blkstrk.toNat → blkstrk.toNat < 2 ^ 31 →
      (positions d blkstrk.toNat).length = blkstrk.toNat * totalTracks d.extents ∧ (positions d blkstrk.toNat).Nodup ∧
      (∀ p ∈ positions d blkstrk.toNat, ∃ x, d.extents[p.extent]? = some x ∧ p.bin = x.debbinum.toNat ∧
        p.Inside d.trkcyl blkstrk.toNat x) ∧
      ∀ block : BitVec 32,
        (block.toNat < blkstrk.toNat * totalTracks d.extents → ∃ p seek,
        (positions d blkstrk.toNat)[block.toNat]? = some p ∧
          osxcalc d blkstrk block mbbcchhr = ((p.record : Int), seek) ∧ p.StoredIn seek) ∧
        (blkstrk.toNat * totalTracks d.extents ≤ block.toNat → block.toNat / blkstrk.toNat < 2 ^ 31 →
          osxcalc d blkstrk block mbbcchhr = (-1, mbbcchhr))) := by
  refine ⟨fun hcyl blkstrk block => ?_, fun block => ?_, fun hcyl hvol blkstrk hpos hlt => ?_⟩
  · rw [osxcalc, if_pos hcyl]
  · rfl
  · have hcyl' : 0 < d.trkcyl := Nat.pos_of_ne_zero hcyl
    have hne : blkstrk ≠ 0 := by
      rintro rfl
      exact absurd hpos (by decide)
    refine ⟨positionsFrom_length, positionsFrom_nodup hcyl', fun p hp => ?_,
      fun block => ⟨fun hin => ?_, fun hout hquot => ?_⟩⟩
    · obtain ⟨x, -, hget, hbin, hinside⟩ := mem_positionsFrom hp hcyl'
      exact ⟨x, hget, hbin, hinside⟩
    · have htotal : totalTracks d.extents < 2 ^ 31 := by
        have hsum : totalTracks d.extents ≤ d.extents.length * 2 ^ 16 := by
          rw [totalTracks, ← List.length_map (f := fun x : Debdasd => x.debnmtrk.toNat), ← smul_eq_mul]
          refine List.sum_le_card_nsmul _ _ fun n hn => ?_
          obtain ⟨x, -, rfl⟩ := List.mem_map.mp hn
          exact x.debnmtrk.isLt.le
        have hext := d.debnmext
        omega
      have hquot : block.toNat / blkstrk.toNat < 2 ^ 31 := by
        rw [Nat.div_lt_iff_lt_mul hpos]
        calc block.toNat < blkstrk.toNat * totalTracks d.extents := hin
          _ ≤ 2 ^ 31 * blkstrk.toNat := by
            rw [Nat.mul_comm]
            exact Nat.mul_le_mul_right _ htotal.le
      have hrec : (block % blkstrk + 1).toInt = ((block.toNat % blkstrk.toNat : Nat) : Int) + 1 := by
        have hmod := Nat.mod_lt block.toNat hpos
        have hone : (1 : BitVec 32).toNat = 1 := rfl
        have hsum : (block % blkstrk + 1).toNat = block.toNat % blkstrk.toNat + 1 := by
          rw [BitVec.toNat_add, BitVec.toNat_umod, hone, Nat.mod_eq_of_lt (by omega)]
        rw [BitVec.toInt_eq_toNat_of_lt (by omega), hsum]
        push_cast
        rfl
      obtain ⟨p, seek, hget, hsearch, hstored⟩ := search_in (i := 0) hcyl' (trkcyl_lt d) hvol
        (by rw [Nat.zero_add]; exact d.debnmext.le) hin hrec
      refine ⟨p, seek, hget, ?_, hstored⟩
      rw [osxcalc, if_neg hcyl, if_pos hne, if_pos hne, quotient_toInt hquot, hsearch]
      rfl
    · have htracks : totalTracks d.extents ≤ block.toNat / blkstrk.toNat := by
        rw [Nat.le_div_iff_mul_le hpos, Nat.mul_comm]
        exact hout
      rw [osxcalc, if_neg hcyl, if_pos hne, if_pos hne, quotient_toInt hquot, search_beyond htracks]
      rfl

/-- With 0 blocks per track block 0 is found; and on a device that is not supported, no block is. -/
theorem zero_blocks_found :
    osxcalc ⟨0x2B, [⟨0, 5, 3, 1⟩], by decide⟩ 0 7 (List.replicate 8 0) = (1, [0, 0, 0, 0, 5, 0, 3, 1]) ∧
      positions ⟨0x2B, [⟨0, 5, 3, 1⟩], by decide⟩ 0 = [] ∧
      osxcalc ⟨0x22, [⟨0, 5, 3, 1⟩], by decide⟩ 4 0 (List.replicate 8 0) = (-1, List.replicate 8 0) := by
  decide

end Libc370.Osio
