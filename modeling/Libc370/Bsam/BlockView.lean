import Libc370.Bsam.Access
import Libc370.Bsam.Reassembly
import Libc370.Lib.Machine

/-! The blocks of a data set hold the records that the stream layer sees.

The streams work on `Stdio.Dcb`, a list of records. A DCB that writes stands for the
records of the blocks that are out and of the block that is being built (`Writes`); one
that reads has the block in its buffer, where a rewrite may be waiting, and the records
in front of `BUFFCURR` are those read (`Reads`). Each call keeps the relation and answers
alike, so every run does (`blocks_hold_records`). One kind of block is lost: `@@ATROUT`
takes a BDW of 8 for that of an empty block, but a V record without data makes one. -/
namespace Libc370.Access

open Bsam (Fault Output halfword)
open Stdio (Bytes Attr Recfm OpenMode rdw rdwLength blank overlay)
open Loop Bytes

variable {L : Layout}

/-! ### What OPEN leaves -/

/-- The record format of the DCB; D is read as V. -/
def RecfmBits.recfm (r : RecfmBits) : Recfm := r.kind.getD .V

/-- A data set that the open exit does not make a spanned one has a layout: the lengths are
those it is to have, for records of at least a byte. -/
theorem ocdcbex_layout {x : Opening} {r : RecfmBits} {n size : Nat} (h : ocdcbex x = some (r, n, size))
    (hspanned : r.spanned = false) (hsize : 0 < size) (hdev : size ≤ 32760) (hn : n < 2 ^ 16)
    (hV : r.recfm = .V → 4 < n) :
    ∃ L : Layout, L.attr.recfm = r.recfm ∧ L.attr.lrecl = n ∧ L.attr.blksize = size ∧ L.blocked = r.blocked := by
  have hlengths : (r.recfm = .F → 0 < n ∧ n ∣ size) ∧ (r.recfm = .V → n + 4 ≤ size) := by
    have hvar (hkind : x.recfm.kind.getD .V = .V) (h : some ({x.recfm with
        spanned := x.recfm.spanned || decide ((x.size : Int) < x.length + 4)}, x.length.toNat, x.size) =
      some (r, n, size)) :
        (r.recfm = .F → 0 < n ∧ n ∣ size) ∧ (r.recfm = .V → n + 4 ≤ size) := by
      obtain ⟨rfl, rfl, rfl⟩ := by simpa only [Option.some.injEq, Prod.mk.injEq] using h
      refine ⟨fun hF => absurd (hkind.symm.trans hF) (by simp), fun hr => ?_⟩
      have hlong := hV hr
      have hfits := (Bool.or_eq_false_iff.mp hspanned).2
      rw [decide_eq_false_iff_not] at hfits
      omega
    unfold ocdcbex at h
    split at h
    · next hkind =>
      obtain ⟨rfl, rfl, rfl⟩ := by simpa only [Option.some.injEq, Prod.mk.injEq] using h
      rw [RecfmBits.recfm, hkind]
      exact ⟨fun hF => absurd hF (by decide), fun hr => absurd hr (by decide)⟩
    · next hkind =>
      split at h
      · cases h
      · obtain ⟨rfl, rfl, rfl⟩ := by simpa only [Option.some.injEq, Prod.mk.injEq] using h
        rw [RecfmBits.recfm]
        dsimp only
        rw [hkind]
        exact ⟨fun _ => ⟨by omega, Nat.dvd_mul_left _ _⟩, fun hr => absurd hr (by decide)⟩
    · next hF hU =>
      refine hvar ?_ h
      cases hkind : x.recfm.kind with
      | none => rfl
      | some k =>
        cases k with
        | V => rfl
        | F => exact absurd hkind hU
        | U => exact absurd hkind hF
  refine ⟨⟨⟨r.recfm, n, size, ?_, hn, false⟩, r.blocked, rfl, hdev, fun hF => ⟨(hlengths.1 hF).2, hsize⟩,
    fun hr => hlengths.2 hr⟩, rfl, rfl, rfl, rfl⟩
  cases hr : r.recfm with
  | F => exact (hlengths.1 hr).1
  | V => exact hV hr
  | U => exact hsize

/-! ### Blocks of records -/

/-- Records one behind the other. -/
def Layout.raw (L : Layout) (ws : List Bytes) : Bytes := ws.flatMap L.attr.raw

/-- What stands in front of the first record. -/
def Layout.front (L : Layout) (ws : List Bytes) : Bytes :=
  if L.attr.recfm = .V then rdw (4 + (L.raw ws).length) else []

def Layout.head (L : Layout) : Nat := if L.attr.recfm = .V then 4 else 0

/-- A block of records. -/
def Layout.block (L : Layout) (ws : List Bytes) : Bytes := L.front ws ++ L.raw ws

/-- Where the next record is in a block, behind some. -/
def Layout.place (L : Layout) (ws : List Bytes) : Nat := L.head + (L.raw ws).length

/-- Records that make a block. -/
structure Layout.Laid (L : Layout) (ws : List Bytes) : Prop where
  fits : ∀ w ∈ ws, L.attr.Fits w
  room : L.place ws ≤ L.attr.blksize
  nonempty : ws ≠ []
  alone : L.attr.recfm = .U → ∃ w, ws = [w] ∧ w ≠ []

theorem raw_append (ws vs : List Bytes) : L.raw (ws ++ vs) = L.raw ws ++ L.raw vs := List.flatMap_append

theorem raw_cons (w : Bytes) (ws : List Bytes) : L.raw (w :: ws) = L.attr.raw w ++ L.raw ws := List.flatMap_cons

@[simp] theorem raw_nil : L.raw [] = [] := rfl

theorem raw_singleton (w : Bytes) : L.raw [w] = L.attr.raw w := by
  rw [raw_cons, raw_nil, List.append_nil]

theorem front_length (ws : List Bytes) : (L.front ws).length = L.head := by
  unfold Layout.front Layout.head
  split <;> rfl

theorem block_length (ws : List Bytes) : (L.block ws).length = L.place ws := by
  rw [Layout.block, Layout.place, List.length_append, front_length]

theorem place_nil : L.place [] = L.head := rfl

theorem place_append (ws vs : List Bytes) : L.place (ws ++ vs) = L.place ws + (L.raw vs).length := by
  rw [Layout.place, Layout.place, raw_append, List.length_append, Nat.add_assoc]

theorem attr_raw_length (a : Attr) (w : Bytes) : (a.raw w).length = (if a.recfm = .V then 4 else 0) + w.length := by
  unfold Attr.raw
  cases a.recfm with
  | V => exact List.length_append
  | F => exact (Nat.zero_add _).symm
  | U => exact (Nat.zero_add _).symm

/-- No record takes no room. -/
theorem attr_raw_pos {w : Bytes} (h : L.attr.Fits w) (hU : L.attr.recfm = .U → w ≠ []) : 0 < (L.attr.raw w).length := by
  have hroom := L.attr.room
  rw [attr_raw_length]
  unfold Attr.Fits at h
  cases hr : L.attr.recfm <;> simp only [hr] at h hroom ⊢
  · simp only [reduceCtorEq, if_false]
    omega
  · simp only [if_true]
    omega
  · have hne := List.length_pos_iff.mpr (hU hr)
    omega

theorem Layout.Laid.record {ws : List Bytes} (h : L.Laid ws) {w : Bytes} (hw : w ∈ ws) : 0 < (L.attr.raw w).length := by
  refine attr_raw_pos (h.fits w hw) fun hr => ?_
  obtain ⟨v, rfl, hv⟩ := h.alone hr
  rwa [List.mem_singleton.mp hw]

/-- A block without its front part. -/
theorem block_split (seen : List Bytes) (w : Bytes) (rest : List Bytes) (stale : Bytes) :
    L.block (seen ++ w :: rest) ++ stale =
      (L.front (seen ++ w :: rest) ++ L.raw seen) ++ (L.attr.raw w ++ (L.raw rest ++ stale)) := by
  rw [Layout.block, raw_append, raw_cons]
  simp only [List.append_assoc]

theorem split_length (all seen : List Bytes) : (L.front all ++ L.raw seen).length = L.place seen := by
  rw [List.length_append, front_length, Layout.place]

/-- The record that stands behind some others. -/
theorem window_block (seen : List Bytes) (w : Bytes) (rest : List Bytes) (stale : Bytes) :
    window (L.block (seen ++ w :: rest) ++ stale) (L.place seen) (L.attr.raw w).length = L.attr.raw w := by
  rw [window, block_split, ← split_length (seen ++ w :: rest) seen, List.drop_left, List.take_left]

/-- A modified list, at a place that is known. -/
theorem modify_middle {α : Type*} (before : List α) (x : α) (after : List α) (f : α → α) :
    (before ++ x :: after).modify before.length f = before ++ f x :: after := by
  induction before with
  | nil => rfl
  | cons y before ih => rw [List.cons_append, List.length_cons, List.modify_succ_cons, ih, List.cons_append]

/-- A patch of the same length. -/
theorem patch_middle {α : Type*} (a old b new : List α) (h : new.length = old.length) :
    patch (a ++ (old ++ b)) a.length new = a ++ (new ++ b) := by
  rw [patch, List.take_left, h, ← List.append_assoc a old b, ← List.length_append, List.drop_left, List.append_assoc]

/-! ### Reading -/

/-- A block is in the buffer, changed or not. -/
structure Buffered (L : Layout) (r : Reader) (before : List (List Bytes)) (ws : List Bytes)
    (after : List (List Bytes)) :
    Prop where
  blocks : ∃ old, r.blocks = before.map L.block ++ old :: after.map L.block ∧ old.length = (L.block ws).length ∧
    (r.data = false → old = L.block ws)
  taken : r.taken = before.length + 1
  buf : ∃ stale, r.buf = L.block ws ++ stale
  size : r.buf.length = L.attr.blksize
  bend : L.attr.recfm ≠ .U → r.bend = L.place ws

/-- Of the records in the buffer `seen` are handed out, and `rest` is still to come. -/
structure Loaded (L : Layout) (r : Reader) (before : List (List Bytes)) (seen rest : List Bytes)
    (after : List (List Bytes)) : Prop where
  buffered : Buffered L r before (seen ++ rest) after
  curr : r.curr = if rest = [] then none else some (L.place seen)
  kept : ∃ done w, seen = done ++ [w] ∧ r.kept = some (L.place done, (L.attr.raw w).length)

/-- The blocks of `before` are read, and the next one is still to be. -/
structure Between (L : Layout) (r : Reader) (before after : List (List Bytes)) : Prop where
  blocks : r.blocks = (before ++ after).map L.block
  taken : r.taken = before.length
  curr : r.curr = none
  data : r.data = false
  size : r.buf.length = L.attr.blksize

/-- A DCB that reads, and the records it stands for. -/
inductive Where (L : Layout) (r : Reader) (d : Stdio.Dcb) : Prop
  | loaded (before : List (List Bytes)) (seen rest : List Bytes) (after : List (List Bytes))
      (block : Loaded L r before seen rest after) (laid : ∀ ws ∈ before ++ (seen ++ rest) :: after, L.Laid ws)
      (recs : d.recs = before.flatten ++ (seen ++ rest) ++ after.flatten)
      (next : d.next = before.flatten.length + seen.length) (eof : r.eof = false)
  | between (before after : List (List Bytes)) (place : Between L r before after)
      (laid : ∀ ws ∈ before ++ after, L.Laid ws) (recs : d.recs = before.flatten ++ after.flatten)
      (next : d.next = before.flatten.length) (kept : r.kept = none) (eof : r.eof = true → after = [])

structure Reads (L : Layout) (r : Reader) (d : Stdio.Dcb) : Prop where
  place : Where L r d
  attr : d.attr = L.attr
  rcs : d.rcs = []
  mode : d.mode = if r.updat then .updat else .input
  lsdw : r.lsdw = false
  unchanged : r.updat = false → r.data = false

/-- The next record, in a block that is in the buffer. -/
theorem deblock_spec {r : Reader} (seen : List Bytes) {rest : List Bytes} {w stale : Bytes} (hV : L.attr.recfm ≠ .U)
    (hlaid : L.Laid (seen ++ w :: rest)) (hbuf : r.buf = L.block (seen ++ w :: rest) ++ stale)
    (hbend : r.bend = L.place (seen ++ w :: rest)) (hlsdw : r.lsdw = false) :
    L.deblock r (L.place seen) = r.setcurr (L.place seen) (L.attr.raw w).length (L.place (seen ++ [w])) := by
  have hfits := hlaid.fits w (List.mem_append_right _ List.mem_cons_self)
  have hnext : L.place (seen ++ [w]) = L.place seen + (L.attr.raw w).length := by rw [place_append, raw_singleton]
  unfold Layout.deblock
  cases hr : L.attr.recfm with
  | U => exact absurd hr hV
  | F =>
    have hlen : (L.attr.raw w).length = L.attr.lrecl := by
      simp only [attr_raw_length, hr, reduceCtorEq, if_false]
      simp only [Attr.Fits, hr] at hfits
      omega
    rw [hnext, hlen]
  | V =>
    have hraw : L.attr.raw w = Bsam.sdw (w.length + 4) 0 ++ w := by
      rw [Attr.raw, hr]
      rfl
    have hle : w.length + 4 ≤ L.attr.lrecl := by
      have hroom := L.attr.room
      simp only [Attr.Fits, Attr.cap, hr] at hfits hroom
      omega
    have hsmall : w.length + 4 < 2 ^ 15 := by
      have := L.varying hr
      have := L.blksize_le
      omega
    have hlen : (L.attr.raw w).length = w.length + 4 := by
      rw [hraw, List.length_append]
      exact Nat.add_comm _ _
    have hdrop : r.buf.drop (L.place seen) = L.attr.raw w ++ (L.raw rest ++ stale) := by
      rw [hbuf, block_split, ← split_length (seen ++ w :: rest) seen, List.drop_left]
    have hhalf : halfword (r.buf.drop (L.place seen)) = (w.length + 4 : Nat) := by
      rw [hdrop, hraw, List.append_assoc, Bsam.halfword_sdw hsmall]
    have hinside : L.place seen + (w.length + 4) ≤ r.bend := by
      rw [hbend, place_append, raw_cons, List.length_append, hlen]
      omega
    have hhead : (r.buf.drop (L.place seen)).headD 0 ≠ 0x80 := by
      rw [hdrop, hraw]
      show UInt8.ofNat ((w.length + 4) / 256) ≠ 0x80
      intro heq
      have hmod := congrArg UInt8.toNat heq
      rw [UInt8.toNat_ofNat'] at hmod
      have h80 : (0x80 : UInt8).toNat = 128 := rfl
      omega
    have hflags : (r.buf.drop (L.place seen)).getD 2 0 = 0 ∧ (r.buf.drop (L.place seen)).getD 3 0 = 0 := by
      rw [hdrop, hraw]
      exact ⟨rfl, rfl⟩
    dsimp only
    rw [Layout.deblockv]
    dsimp only
    rw [if_neg hhead, hhalf, Int.toNat_natCast, if_neg (by omega), if_neg (not_not.mpr hflags.2), hlsdw,
      if_neg Bool.false_ne_true, if_pos hflags.1, hnext, hlen]

/-- What the calls leave as it is. -/
structure Same (r r' : Reader) : Prop where
  eof : r'.eof = r.eof
  lsdw : r'.lsdw = r.lsdw
  updat : r'.updat = r.updat

theorem setcurr_spec {r : Reader} {before : List (List Bytes)} {seen rest : List Bytes} {w : Bytes}
    {after : List (List Bytes)} (h : Buffered L r before (seen ++ w :: rest) after) (hV : L.attr.recfm ≠ .U)
    (hlaid : L.Laid (seen ++ w :: rest)) : ∃ r',
    r.setcurr (L.place seen) (L.attr.raw w).length (L.place (seen ++ [w])) = .leave (.ok (some (L.attr.raw w), r')) ∧
      Loaded L r' before (seen ++ [w]) rest after ∧ Same r r' ∧ r'.data = r.data := by
  obtain ⟨stale, hbuf⟩ := h.buf
  have hwindow : window r.buf (L.place seen) (L.attr.raw w).length = L.attr.raw w := by
    rw [hbuf, window_block]
  have hsplit : seen ++ [w] ++ rest = seen ++ w :: rest := by rw [List.append_assoc, List.singleton_append]
  let curr := if L.place (seen ++ [w]) < r.bend then some (L.place (seen ++ [w])) else none
  refine ⟨(r.withCurr curr).withKept (some (L.place seen, (L.attr.raw w).length)), by rw [Reader.setcurr, hwindow],
    ⟨⟨?_, h.taken, ?_, h.size, ?_⟩, ?_, ⟨seen, w, rfl, rfl⟩⟩, ⟨rfl, rfl, rfl⟩, rfl⟩
  · rw [hsplit]
    exact h.blocks
  · rw [hsplit]
    exact h.buf
  · rw [hsplit]
    exact h.bend
  · show (if L.place (seen ++ [w]) < r.bend then some (L.place (seen ++ [w])) else none) = _
    rw [h.bend hV, ← hsplit, place_append (seen ++ [w])]
    by_cases hrest : rest = []
    · rw [if_pos hrest, hrest, raw_nil, List.length_nil, if_neg (by omega)]
    · rw [if_neg hrest, if_pos]
      obtain ⟨v, rest', rfl⟩ := List.exists_cons_of_ne_nil hrest
      have hpos := hlaid.record (w := v) (by simp)
      rw [raw_cons, List.length_append]
      omega

/-- READ, where a block is still to be read. -/
theorem postread_spec {r : Reader} {before after : List (List Bytes)} {ws : List Bytes}
    (h : Between L r before (ws :: after)) (hlaid : L.Laid ws) (hlsdw : r.lsdw = false) :
    ∃ w rest r', ws = w :: rest ∧ L.postread (r.fill (L.block ws)) (L.block ws) =
        .leave (.ok (some (L.attr.raw w), r')) ∧
      Loaded L r' before [w] rest after ∧ Same r r' ∧ r'.data = false := by
  obtain ⟨w, rest, rfl⟩ := List.exists_cons_of_ne_nil hlaid.nonempty
  have hblocks : r.blocks = before.map L.block ++ L.block (w :: rest) :: after.map L.block := by
    rw [h.blocks, List.map_append, List.map_cons]
  have hsize : (L.block (w :: rest) ++ r.buf.drop (L.block (w :: rest)).length).length = L.attr.blksize := by
    have hroom := hlaid.room
    rw [← block_length] at hroom
    rw [List.length_append, List.length_drop, h.size]
    omega
  have hpos := hlaid.record (w := w) List.mem_cons_self
  have hfilled (c : Option Nat) (b : Nat) (hb : L.attr.recfm ≠ .U → b = L.place (w :: rest)) :
      Buffered L {r.fill (L.block (w :: rest)) with curr := c, bend := b} before ([] ++ w :: rest) after :=
    ⟨⟨_, hblocks, rfl, fun _ => rfl⟩, by show r.taken + 1 = _; rw [h.taken], ⟨_, rfl⟩, hsize, hb⟩
  unfold Layout.postread
  cases hr : L.attr.recfm with
  | U =>
    obtain ⟨v, hv, -⟩ := hlaid.alone hr
    obtain ⟨rfl, rfl⟩ := List.cons.inj hv
    have hblock : L.block [w] = L.attr.raw w := by
      rw [Layout.block, Layout.front, hr, if_neg (by simp), List.nil_append, raw_singleton]
    let r' := ((r.fill (L.block [w])).withCurr none).withKept (some (0, (L.block [w]).length))
    refine ⟨w, [], r', rfl, by rw [← hblock], ⟨⟨?_, ?_, ?_, ?_, fun hne => absurd hr hne⟩, rfl, [], w, rfl, ?_⟩,
      ⟨rfl, rfl, rfl⟩, h.data⟩
    · exact ⟨_, hblocks, rfl, fun _ => rfl⟩
    · show r.taken + 1 = _
      rw [h.taken]
    · exact ⟨_, rfl⟩
    · exact hsize
    · show some (0, (L.block [w]).length) = _
      rw [hblock, place_nil, Layout.head, hr, if_neg (by simp)]
  | F =>
    have hblock : L.block (w :: rest) ≠ [] := by
      rw [← List.length_pos_iff, block_length, Layout.place, raw_cons, List.length_append]
      omega
    have hV : L.attr.recfm ≠ .U := by rw [hr]; simp
    have hbuffered := hfilled (some 0) (L.block (w :: rest)).length fun _ => block_length _
    have hplace : L.place [] = 0 := by rw [place_nil, Layout.head, hr, if_neg (by simp)]
    obtain ⟨r', hset, hloaded, hsame, hdata⟩ := setcurr_spec hbuffered hV hlaid
    refine ⟨w, rest, r', rfl, ?_, hloaded, ⟨hsame.eof, hsame.lsdw, hsame.updat⟩, hdata.trans h.data⟩
    dsimp only
    rw [if_neg hblock, ← hset, ← hplace]
    exact deblock_spec [] hV hlaid rfl (block_length _) hlsdw
  | V =>
    have hblksize := L.blksize_le
    have hroom := hlaid.room
    have hV : L.attr.recfm ≠ .U := by rw [hr]; simp
    have hhead : L.head = 4 := by rw [Layout.head, if_pos hr]
    have hlen : L.place (w :: rest) = 4 + (L.raw (w :: rest)).length := by rw [Layout.place, hhead]
    have hpos' : 0 < (L.raw (w :: rest)).length := by
      rw [raw_cons, List.length_append]
      omega
    have hfront : L.block (w :: rest) = rdw (L.place (w :: rest)) ++ L.raw (w :: rest) := by
      rw [Layout.block, Layout.front, if_pos hr, hlen]
    have hbdw : rdwLength (L.block (w :: rest)) = L.place (w :: rest) := by
      rw [hfront, Stdio.rdwLength_rdw _ (by omega)]
    have hzeros : (L.block (w :: rest)).getD 2 0 = 0 ∧ (L.block (w :: rest)).getD 3 0 = 0 := by
      rw [hfront]
      exact ⟨rfl, rfl⟩
    have hbuffered := hfilled (some 4) (L.place (w :: rest)) fun _ => rfl
    obtain ⟨r', hset, hloaded, hsame, hdata⟩ := setcurr_spec hbuffered hV hlaid
    refine ⟨w, rest, r', rfl, ?_, hloaded, ⟨hsame.eof, hsame.lsdw, hsame.updat⟩, hdata.trans h.data⟩
    have hgood : ¬ (L.attr.blksize < L.place (w :: rest) ∨ (L.block (w :: rest)).getD 2 0 ≠ 0 ∨
        (L.block (w :: rest)).getD 3 0 ≠ 0 ∨ L.place (w :: rest) ≤ 4) := by
      rw [hzeros.1, hzeros.2]
      rintro (hbad | hbad | hbad | hbad)
      · omega
      · exact hbad rfl
      · exact hbad rfl
      · omega
    dsimp only
    rw [hbdw, if_neg hgood, ← hset, ← hhead, ← place_nil]
    exact deblock_spec [] hV hlaid rfl rfl hlsdw

/-- The block in the buffer goes back, if it was changed. -/
theorem rewrite_blocks {r : Reader} {before : List (List Bytes)} {ws : List Bytes} {after : List (List Bytes)}
    (h : Buffered L r before ws after) : (L.rewrite r).blocks = (before ++ ws :: after).map L.block := by
  obtain ⟨⟨old, hblocks, hlength, hold⟩, htaken, ⟨stale, hbuf⟩, -, -⟩ := h
  unfold Layout.rewrite
  cases hdata : r.data with
  | false =>
    show r.blocks = _
    rw [hblocks, hold hdata, List.map_append, List.map_cons]
  | true =>
    have htake : r.buf.take old.length = L.block ws := by rw [hlength, hbuf, List.take_left]
    have hplace : r.taken - 1 = (before.map L.block).length := by rw [htaken, List.length_map, Nat.add_sub_cancel]
    show r.blocks.modify (r.taken - 1) (fun old => r.buf.take old.length) = _
    rw [hplace, hblocks, modify_middle, htake, List.map_append, List.map_cons]

/-- A block that is left. -/
theorem rewrite_spec {r : Reader} {before : List (List Bytes)} {seen : List Bytes} {after : List (List Bytes)}
    (h : Loaded L r before seen [] after) :
    Between L (L.rewrite r) (before ++ [seen]) after ∧ Same r (L.rewrite r) := by
  have hcurr : r.curr = none := h.curr
  have hblocks := rewrite_blocks h.buffered
  have hcount : r.taken = (before ++ [seen]).length := by
    rw [h.buffered.taken, List.length_append, List.length_singleton]
  have hsize := h.buffered.size
  rw [List.append_nil, ← List.singleton_append, ← List.append_assoc] at hblocks
  have hrest : (L.rewrite r).taken = r.taken ∧ (L.rewrite r).curr = none ∧ (L.rewrite r).data = false ∧
      (L.rewrite r).buf.length = L.attr.blksize ∧ Same r (L.rewrite r) := by
    unfold Layout.rewrite
    cases hdata : r.data with
    | false => exact ⟨rfl, hcurr, hdata, hsize, rfl, rfl, rfl⟩
    | true =>
      refine ⟨rfl, rfl, rfl, ?_, rfl, rfl, rfl⟩
      show (if L.attr.recfm = .V then patch r.buf 0 [0, 4] else r.buf).length = _
      split
      · next hV =>
        have hfit := L.varying hV
        have hlrecl := L.attr.room
        rw [hV] at hlrecl
        have hroom : 0 + ([0, 4] : Bytes).length ≤ r.buf.length := by
          rw [hsize]
          exact Nat.le_trans (by decide : 0 + ([0, 4] : Bytes).length ≤ 4 + 4) (by omega)
        rw [patch_length hroom, hsize]
      · exact hsize
  exact ⟨⟨hblocks, hrest.1.trans hcount, hrest.2.1, hrest.2.2.1, hrest.2.2.2.1⟩, hrest.2.2.2.2⟩

theorem readnoup_spec {r : Reader} {d : Stdio.Dcb} {before after : List (List Bytes)} (h : Between L r before after)
    (hlaid : ∀ ws ∈ before ++ after, L.Laid ws) (hrecs : d.recs = before.flatten ++ after.flatten)
    (hnext : d.next = before.flatten.length) (hattr : d.attr = L.attr) (hlsdw : r.lsdw = false) (heof : r.eof = false) :
    ∃ o r', L.readnoup r = .leave (.ok (o, r')) ∧
      d.aread.1 = (if o.isSome then 0 else -1) ∧ d.aread.2.1 = o.getD [] ∧ Where L r' d.aread.2.2 ∧
      r'.lsdw = false ∧ r'.updat = r.updat ∧ r'.data = false := by
  cases after with
  | nil =>
    have hblock : r.blocks[r.taken]? = none := by
      rw [h.blocks, h.taken, List.append_nil, List.getElem?_eq_none (by simp)]
    have hrec : d.recs[d.next]? = none := by
      rw [hrecs, hnext, List.flatten_nil, List.append_nil, List.getElem?_eq_none le_rfl]
    refine ⟨none, {r.withKept none with eof := true}, by rw [Layout.readnoup, hblock], ?_, ?_, ?_, hlsdw, rfl, h.data⟩
    · rw [Stdio.Dcb.aread, hrec]
      rfl
    · rw [Stdio.Dcb.aread, hrec]
      rfl
    · rw [Stdio.Dcb.aread, hrec]
      exact .between before [] ⟨h.blocks, h.taken, h.curr, h.data, h.size⟩ hlaid hrecs hnext rfl fun _ => rfl
  | cons ws after =>
    obtain ⟨w, rest, r', rfl, hread, hloaded, hsame, hdata⟩ := postread_spec h (hlaid ws (by simp)) hlsdw
    have hblock : r.blocks[r.taken]? = some (L.block (w :: rest)) := by
      rw [h.blocks, h.taken, List.map_append, List.map_cons, ← List.length_map (f := L.block),
        List.getElem?_append_right le_rfl, Nat.sub_self]
      rfl
    have hrec : d.recs[d.next]? = some w := by
      rw [hrecs, hnext, List.flatten_cons, List.getElem?_append_right le_rfl, Nat.sub_self]
      rfl
    refine ⟨some (L.attr.raw w), r', by rw [Layout.readnoup, hblock]; exact hread, ?_, ?_, ?_, hsame.lsdw.trans hlsdw,
      hsame.updat, hdata⟩
    · rw [Stdio.Dcb.aread, hrec]
      rfl
    · rw [Stdio.Dcb.aread, hrec, hattr]
      rfl
    · rw [Stdio.Dcb.aread, hrec]
      refine .loaded before [w] rest after hloaded hlaid ?_ ?_ (hsame.eof.trans heof)
      · exact hrecs.trans (by simp)
      · exact congrArg (· + 1) hnext

/-- `@@AREAD` gives the next record. -/
theorem aread_spec {r : Reader} {d : Stdio.Dcb} (h : Reads L r d) :
    ∃ o r', L.aread r = .ok (o, r') ∧ d.aread.1 = (if o.isSome then 0 else -1) ∧ d.aread.2.1 = o.getD [] ∧
      Reads L r' d.aread.2.2 := by
  obtain ⟨hplace, hattr, hrcs, hmode, hlsdw, hunchanged⟩ := h
  have hkeep {o : Option Bytes} {r' : Reader} (hwhere : Where L r' d.aread.2.2) (hl : r'.lsdw = false)
      (hu : r'.updat = r.updat) (hd : r.updat = false → r'.data = false) : Reads L r' d.aread.2.2 := by
    refine ⟨hwhere, ?_, ?_, ?_, hl, fun hno => hd (hu ▸ hno)⟩ <;> unfold Stdio.Dcb.aread <;> split
    · exact hattr
    · exact hattr
    · exact hrcs
    · exact hrcs
    · rw [hu]
      exact hmode
    · rw [hu]
      exact hmode
  have hrun {o : Option Bytes} {r' : Reader} (hno : r.eof = false) (hturn : L.areadTurn r = .leave (.ok (o, r'))) :
      L.aread r = .ok (o, r') := by
    rw [Layout.aread, hno, if_neg Bool.false_ne_true, run_leave hturn]
  cases hplace with
  | loaded before seen rest after hblock hlaid hrecs hnext heof =>
    cases rest with
    | cons w rest =>
      have hcurr : r.curr = some (L.place seen) := by rw [hblock.curr, if_neg (List.cons_ne_nil _ _)]
      have hws := hlaid _ (List.mem_append_right _ List.mem_cons_self)
      have hV : L.attr.recfm ≠ .U := by
        intro hU
        obtain ⟨done, v, rfl, -⟩ := hblock.kept
        obtain ⟨u, hu, -⟩ := hws.alone hU
        have hlength := congrArg List.length hu
        simp only [List.length_append, List.length_cons, List.length_nil] at hlength
        omega
      obtain ⟨stale, hbuf⟩ := hblock.buffered.buf
      obtain ⟨r', hset, hloaded, hsame, hdata⟩ := setcurr_spec hblock.buffered hV hws
      have hturn : L.areadTurn r = .leave (.ok (some (L.attr.raw w), r')) := by
        rw [Layout.areadTurn, hcurr]
        exact (deblock_spec _ hV hws hbuf (hblock.buffered.bend hV) hlsdw).trans hset
      have hrec : d.recs[d.next]? = some w := by
        rw [hrecs, hnext, ← List.append_assoc before.flatten, ← List.length_append, List.append_assoc,
          List.getElem?_append_right le_rfl, Nat.sub_self]
        rfl
      have haread : d.aread = (0, d.attr.raw w, d.passed) := by rw [Stdio.Dcb.aread, hrec]
      refine ⟨_, r', hrun heof hturn, by rw [haread]; rfl, by rw [haread, hattr]; rfl,
        hkeep (o := none) ?_ (hsame.lsdw.trans hlsdw) hsame.updat fun hno => hdata.trans (hunchanged hno)⟩
      rw [haread]
      have hsplit : seen ++ [w] ++ rest = seen ++ w :: rest := by rw [List.append_assoc, List.singleton_append]
      refine .loaded before (seen ++ [w]) rest after hloaded ?_ ?_ ?_ (hsame.eof.trans heof)
      · rw [hsplit]
        exact hlaid
      · rw [hsplit]
        exact hrecs
      · show d.next + 1 = _
        rw [hnext, List.length_append, List.length_singleton, Nat.add_assoc]
    | nil =>
      -- the block is left, and what was changed in it goes back
      obtain ⟨hbetween, hsame⟩ := rewrite_spec hblock
      have hif : (if r.updat then L.rewrite r else r) = L.rewrite r := by
        cases hu : r.updat with
        | true => rfl
        | false =>
          rw [Layout.rewrite, hunchanged hu]
          rfl
      have hcurr : r.curr = none := hblock.curr
      obtain ⟨o, r', hread, hrc, hdata, hwhere, hl, hu, hchanged⟩ := readnoup_spec hbetween
        (by rw [List.append_assoc, List.singleton_append, ← List.append_nil seen]; exact hlaid)
        (by rw [hrecs]; simp) (by rw [hnext]; simp) hattr (hsame.lsdw.trans hlsdw) (hsame.eof.trans heof)
      refine ⟨o, r', hrun heof ?_, hrc, hdata, hkeep (o := o) hwhere hl (hu.trans hsame.updat) fun _ => hchanged⟩
      rw [Layout.areadTurn, hcurr]
      dsimp only
      rw [hif, hread]
  | between before after hbetween hlaid hrecs hnext hkept heof =>
    cases hend : r.eof with
    | true =>
      obtain rfl := heof hend
      have hrec : d.recs[d.next]? = none := by
        rw [hrecs, hnext, List.flatten_nil, List.append_nil, List.getElem?_eq_none le_rfl]
      have haread : d.aread = (-1, [], d) := by rw [Stdio.Dcb.aread, hrec]
      refine ⟨none, r, by rw [Layout.aread, hend, if_pos rfl], by rw [haread]; rfl, by rw [haread]; rfl, ?_⟩
      rw [haread]
      exact ⟨.between before [] hbetween hlaid hrecs hnext hkept heof, hattr, hrcs, hmode, hlsdw, hunchanged⟩
    | false =>
      have hif : (if r.updat then L.rewrite r else r) = r := by
        rw [Layout.rewrite, hbetween.data]
        exact ite_self r
      obtain ⟨o, r', hread, hrc, hdata, hwhere, hl, hu, hchanged⟩ :=
        readnoup_spec hbetween hlaid hrecs hnext hattr hlsdw hend
      refine ⟨o, r', hrun hend ?_, hrc, hdata, hkeep (o := o) hwhere hl hu fun _ => hchanged⟩
      rw [Layout.areadTurn, hbetween.curr]
      dsimp only
      rw [hif, hread]

/-! ### Changing the record last read -/

theorem overlay_length (old new : Bytes) : (overlay old new).length = old.length := by
  rw [overlay, List.length_append, List.length_take, List.length_replicate]
  omega

theorem rewritten_length (a : Attr) (old buf : Bytes) : (a.rewritten old buf).length = old.length := by
  unfold Attr.rewritten
  cases a.recfm <;> exact overlay_length _ _

/-- The record stands in front of the same bytes, and has the same place. -/
theorem raw_rewritten (a : Attr) (w bytes : Bytes) : ∃ front back back', a.raw w = front ++ back ∧
    a.raw (a.rewritten w bytes) = front ++ back' ∧ front.length = (if a.recfm = .V then 4 else 0) ∧
      back.length = w.length ∧ back' = overlay w (bytes.drop (if a.recfm = .V then 4 else 0)) := by
  have hlen := rewritten_length a w bytes
  unfold Attr.raw Attr.rewritten at *
  cases hr : a.recfm with
  | V =>
    rw [hr] at hlen
    refine ⟨rdw (w.length + 4), w, overlay w (bytes.drop 4), rfl, ?_, rfl, rfl, rfl⟩
    dsimp only at hlen ⊢
    rw [hlen]
  | F => exact ⟨[], w, _, rfl, rfl, rfl, rfl, rfl⟩
  | U => exact ⟨[], w, _, rfl, rfl, rfl, rfl, rfl⟩

theorem fits_rewritten {a : Attr} {w bytes : Bytes} (h : a.Fits w) : a.Fits (a.rewritten w bytes) := by
  have hlen := rewritten_length a w bytes
  unfold Attr.Fits at *
  cases hr : a.recfm <;> simp only [hr] at h ⊢ <;> omega

/-- Records of the same lengths make a block of the same length. -/
theorem place_swap (done : List Bytes) {w v : Bytes} (rest : List Bytes) (h : v.length = w.length) :
    L.place (done ++ v :: rest) = L.place (done ++ w :: rest) := by
  simp only [place_append, raw_cons, List.length_append, attr_raw_length, h]

theorem laid_swap {done : List Bytes} {w v : Bytes} {rest : List Bytes} (h : L.Laid (done ++ w :: rest))
    (hv : L.attr.Fits v) (hlen : v.length = w.length) : L.Laid (done ++ v :: rest) := by
  refine ⟨fun u hu => ?_, (place_swap done rest hlen).symm ▸ h.room, by simp, fun hr => ?_⟩
  · rcases List.mem_append.mp hu with hu | hu
    · exact h.fits u (List.mem_append_left _ hu)
    · rcases List.mem_cons.mp hu with rfl | hu
      · exact hv
      · exact h.fits u (List.mem_append_right _ (List.mem_cons_of_mem _ hu))
  · obtain ⟨u, hu, hne⟩ := h.alone hr
    cases done with
    | nil =>
      obtain ⟨rfl, rfl⟩ := List.cons.inj hu
      exact ⟨v, rfl, fun hnil => hne (List.length_eq_zero_iff.mp (by rw [← hlen, hnil]; rfl))⟩
    | cons x done =>
      have hlength := congrArg List.length hu
      simp only [List.cons_append, List.length_cons, List.length_append, List.length_nil] at hlength
      omega

theorem front_swap (done : List Bytes) {w v : Bytes} (rest : List Bytes) (h : v.length = w.length) :
    L.front (done ++ v :: rest) = L.front (done ++ w :: rest) := by
  have hplace := place_swap (L := L) done rest h
  rw [Layout.place, Layout.place, Nat.add_left_cancel_iff] at hplace
  rw [Layout.front, Layout.front, hplace]

/-- `@@AWRITE` on an UPDAT DCB puts the bytes over the record that was read last. -/
theorem update_spec {r : Reader} {before : List (List Bytes)} {done rest : List Bytes} {w : Bytes}
    {after : List (List Bytes)} (bytes : Bytes) (h : Loaded L r before (done ++ [w]) rest after)
    (hlaid : L.Laid (done ++ [w] ++ rest)) :
    Loaded L (L.update r bytes) before (done ++ [L.attr.rewritten w bytes]) rest after ∧
      Same r (L.update r bytes) := by
  obtain ⟨⟨⟨old, hblocks, hlength, -⟩, htaken, ⟨stale, hbuf⟩, hsize, hbend⟩, hcurr, done', w', hseen, hkept⟩ := h
  obtain ⟨rfl, hw⟩ := List.append_inj' hseen rfl
  obtain rfl := List.head_eq_of_cons_eq hw
  set v := L.attr.rewritten w bytes with hv
  have hlen : v.length = w.length := rewritten_length _ _ _
  have hsplit (u : Bytes) : done ++ [u] ++ rest = done ++ u :: rest := by rw [List.append_assoc, List.singleton_append]
  rw [hsplit] at hlaid hlength hbuf hbend
  have hpos := hlaid.record (w := w) (by simp)
  obtain ⟨front, back, back', hraw, hraw', hfront, hback, hback'⟩ := raw_rewritten L.attr w bytes
  have hlength' : back'.length = back.length := by rw [hback', overlay_length, hback]
  have hn : (L.attr.raw w).length - L.head = w.length := by
    rw [attr_raw_length, Layout.head]
    omega
  have hpatch : patch r.buf (L.place done + L.head) (back') = L.block (done ++ v :: rest) ++ stale := by
    have hplace : L.place done + L.head = (L.front (done ++ w :: rest) ++ L.raw done ++ front).length := by
      rw [List.length_append, split_length, hfront, Layout.head]
    have hold : L.block (done ++ w :: rest) ++ stale =
        (L.front (done ++ w :: rest) ++ L.raw done ++ front) ++ (back ++ (L.raw rest ++ stale)) := by
      rw [block_split, hraw]
      simp only [List.append_assoc]
    rw [hbuf, hplace, hold, patch_middle _ _ _ _ hlength', block_split, front_swap done rest hlen, hv, hraw']
    simp only [List.append_assoc]
  have hupdate : L.update r bytes = {r with buf := L.block (done ++ v :: rest) ++ stale, data := true} := by
    rw [Layout.update, hkept]
    dsimp only
    rw [if_neg (by omega), ← hpatch, hback']
    unfold Layout.head at hn ⊢
    rw [hn]
    rfl
  rw [hupdate]
  refine ⟨⟨⟨⟨old, hblocks, ?_, fun hno => absurd hno (by simp)⟩, htaken, ⟨stale, by rw [hsplit]⟩, ?_, ?_⟩, ?_,
    done, v, rfl, ?_⟩, rfl, rfl, rfl⟩
  · rw [hlength, hsplit, block_length, block_length, place_swap done rest hlen]
  · rw [← hsize, hbuf, List.length_append, List.length_append, block_length, block_length, place_swap done rest hlen]
  · rw [hsplit, place_swap done rest hlen]
    exact hbend
  · show r.curr = _
    rw [hcurr, place_append, place_append, raw_singleton, raw_singleton, attr_raw_length, attr_raw_length, hlen]
  · show r.kept = _
    rw [hkept, attr_raw_length, attr_raw_length, hlen]

/-! ### Writing -/

/-- The block that is being built holds one V record without data, which `@@ATROUT` takes for
an empty block. -/
def Layout.Loses (L : Layout) (o : Output) : Prop :=
  L.attr.recfm = .V ∧ 0 < (o.curr.getD []).length ∧ (o.curr.getD []).length ≤ 4

/-- Is such a block written for the sake of the record `bytes`, or with it? -/
def Layout.Drops (L : Layout) (o : Output) (bytes : Bytes) : Prop :=
  (L.attr.blksize < 4 + (o.curr.getD []).length + bytes.length ∧ L.Loses o) ∨
    (L.attr.recfm = .V ∧ L.blocked = false ∧ bytes.length ≤ 4)

/-- What the stream layer hands to `@@AWRITE`. -/
def Layout.Takes (L : Layout) (bytes : Bytes) : Prop :=
  L.attr.recfm = .F ∨ ∃ w, bytes = L.attr.raw w ∧ L.attr.Fits w ∧ (L.attr.recfm = .U → w ≠ [])

/-- A DCB that writes, and the records it stands for. -/
structure Stands (L : Layout) (o : Output) (d : Stdio.Dcb) : Prop where
  holds : ∃ (bs : List (List Bytes)) (cur : List Bytes), o.blocks = bs.map L.block ∧ (∀ ws ∈ bs, L.Laid ws) ∧
    o.curr.getD [] = L.raw cur ∧ (∀ w ∈ cur, L.attr.Fits w) ∧ d.recs = bs.flatten ++ cur ∧
    L.place cur ≤ L.attr.blksize ∧ (L.attr.recfm = .U → cur = []) ∧ (o.curr = none → cur = [])
  attr : d.attr = L.attr
  rcs : d.rcs = []
  mode : d.mode = .output ∨ d.mode = .extend

/-- Between two calls a block of F records has room for one more. -/
structure Writes (L : Layout) (o : Output) (d : Stdio.Dcb) : Prop where
  stands : Stands L o d
  fixed : L.attr.recfm = .F → (o.curr.getD []).length < L.attr.blksize

theorem raw_eq_nil {cur : List Bytes} (hfits : ∀ w ∈ cur, L.attr.Fits w) (hU : L.attr.recfm = .U → cur = []) :
    L.raw cur = [] ↔ cur = [] := by
  constructor
  · intro hraw
    cases cur with
    | nil => rfl
    | cons w cur =>
      have hpos := attr_raw_pos (hfits w List.mem_cons_self) fun hr => absurd (hU hr) (List.cons_ne_nil _ _)
      rw [raw_cons, List.append_eq_nil_iff] at hraw
      rw [hraw.1] at hpos
      exact absurd hpos (lt_irrefl _)
  · rintro rfl
    rfl

/-- The block goes out with all that is in it. -/
theorem atrout_spec {o : Output} {d : Stdio.Dcb} (h : Stands L o d) (hkeeps : ¬ L.Loses o) :
    ∃ bs : List (List Bytes), L.atrout o = ⟨bs.map L.block, none⟩ ∧ (∀ ws ∈ bs, L.Laid ws) ∧ bs.flatten = d.recs := by
  obtain ⟨⟨bs, cur, hblocks, hlaid, hcurr, hfits, hrecs, hroom, hU, hnone⟩, -, -, -⟩ := h
  have hnil := raw_eq_nil hfits hU
  -- what was built is a block of its own, or nothing
  have hout (hcur : cur ≠ []) : (∀ ws ∈ bs ++ [cur], L.Laid ws) ∧ (bs ++ [cur]).flatten = d.recs := by
    refine ⟨fun ws hws => ?_, by rw [hrecs]; simp⟩
    rcases List.mem_append.mp hws with hws | hws
    · exact hlaid ws hws
    · rw [List.mem_singleton.mp hws]
      exact ⟨hfits, hroom, hcur, fun hr => absurd (hU hr) hcur⟩
  have hstay (hcur : cur = []) : bs.flatten = d.recs := by rw [hrecs, hcur, List.append_nil]
  obtain ⟨blocks, curr⟩ := o
  simp only at hblocks hcurr hnone
  subst hblocks
  cases curr with
  | none =>
    refine ⟨bs, ?_, hlaid, hstay (hnone rfl)⟩
    unfold Layout.atrout
    split <;> rfl
  | some b =>
    rw [Option.getD_some] at hcurr
    subst hcurr
    by_cases hcur : cur = []
    · subst hcur
      refine ⟨bs, ?_, hlaid, hstay rfl⟩
      unfold Layout.atrout
      split
      · exact rfl
      · dsimp only
        rw [raw_nil, if_pos rfl]
    · refine ⟨bs ++ [cur], ?_, (hout hcur).1, (hout hcur).2⟩
      have hpos := List.length_pos_iff.mpr (mt hnil.mp hcur)
      unfold Layout.atrout
      split
      · next hV =>
        have hlong : 4 < (L.raw cur).length := by
          by_contra hle
          exact hkeeps ⟨hV, hpos, not_lt.mp hle⟩
        have hblock : L.block cur = rdw (4 + (L.raw cur).length) ++ L.raw cur := by
          rw [Layout.block, Layout.front, if_pos hV]
        rw [Output.atrout]
        dsimp only
        rw [if_neg (by omega), List.map_append, List.map_singleton, hblock]
      · next hV =>
        have hblock : L.block cur = L.raw cur := by rw [Layout.block, Layout.front, if_neg hV, List.nil_append]
        dsimp only
        rw [if_neg (mt hnil.mp hcur), List.map_append, List.map_singleton, hblock]

/-- A DCB that has added a record. -/
theorem awrite_output {d : Stdio.Dcb} (hrcs : d.rcs = []) (hmode : d.mode = .output ∨ d.mode = .extend)
    (bytes : Bytes) :
    (d.awrite bytes).1 = 0 ∧ (d.awrite bytes).2.recs = d.recs ++ [d.attr.written bytes] ∧
      (d.awrite bytes).2.attr = d.attr ∧ (d.awrite bytes).2.rcs = [] ∧ (d.awrite bytes).2.mode = d.mode := by
  unfold Stdio.Dcb.awrite
  rw [hrcs]
  rcases hmode with hmode | hmode <;> simp [hmode]

/-- A record goes behind those of the block. -/
theorem stands_concat {o : Output} {d : Stdio.Dcb} (h : Stands L o d) {w bytes : Bytes} (hw : d.attr.written bytes = w)
    (hfits : L.attr.Fits w) (hU : L.attr.recfm ≠ .U)
    (hroom : L.head + (o.curr.getD [] ++ L.attr.raw w).length ≤ L.attr.blksize) :
    Stands L (o.withCurr (o.curr.getD [] ++ L.attr.raw w)) (d.awrite bytes).2 := by
  obtain ⟨⟨bs, cur, hblocks, hlaid, hcurr, hcur, hrecs, -, -, -⟩, hattr, hrcs, hmode⟩ := h
  obtain ⟨-, hrecs', hattr', hrcs', hmode'⟩ := awrite_output hrcs hmode bytes
  have hraw : L.raw (cur ++ [w]) = o.curr.getD [] ++ L.attr.raw w := by rw [raw_append, raw_singleton, hcurr]
  refine ⟨⟨bs, cur ++ [w], hblocks, hlaid, hraw.symm, fun v hv => ?_, ?_, ?_, fun hr => absurd hr hU,
    fun hnone => by cases hnone⟩, hattr'.trans hattr, hrcs', by rw [hmode']; exact hmode⟩
  · rcases List.mem_append.mp hv with hv | hv
    · exact hcur v hv
    · rw [List.mem_singleton.mp hv]
      exact hfits
  · rw [hrecs', hrecs, hw, List.append_assoc]
  · rw [Layout.place, hraw]
    exact hroom

/-- A DCB whose block is out. -/
theorem writes_atrout {o : Output} {d : Stdio.Dcb} (h : Stands L o d) (hkeeps : ¬ L.Loses o) :
    Writes L (L.atrout o) d := by
  obtain ⟨bs, heq, hlaid, hrecs⟩ := atrout_spec h hkeeps
  rw [heq]
  refine ⟨⟨⟨bs, [], rfl, hlaid, rfl, fun w hw => absurd hw List.not_mem_nil, by rw [hrecs, List.append_nil], ?_,
    fun _ => rfl, fun _ => rfl⟩, h.attr, h.rcs, h.mode⟩, fun hF => (L.fixed hF).2⟩
  obtain ⟨bs, cur, -, -, -, -, -, hroom, -, -⟩ := h.holds
  rw [Layout.place] at hroom ⊢
  exact (Nat.add_le_add_left (Nat.zero_le _) _).trans hroom

/-- Records of F are all of one length. -/
theorem raw_fixed (hF : L.attr.recfm = .F) {vs : List Bytes} (h : ∀ v ∈ vs, L.attr.Fits v) :
    (L.raw vs).length = vs.length * L.attr.lrecl := by
  induction vs with
  | nil => simp
  | cons v vs ih =>
    have hv : v.length = L.attr.lrecl := by simpa only [Attr.Fits, hF] using h v List.mem_cons_self
    rw [raw_cons, List.length_append, ih fun u hu => h u (List.mem_cons_of_mem _ hu), List.length_cons, Attr.raw, hF,
      hv,
      Nat.add_mul, Nat.one_mul, Nat.add_comm]

/-- `WRITEFIX` -/
theorem writefix_spec {o : Output} {d : Stdio.Dcb} (h : Writes L o d) (hF : L.attr.recfm = .F) (bytes : Bytes) :
    Writes L (L.writefix o bytes) (d.awrite bytes).2 := by
  obtain ⟨bs, cur, -, -, hcurr, hcur, -, -, -, -⟩ := h.stands.holds
  set w := bytes.take L.attr.lrecl ++ List.replicate (L.attr.lrecl - bytes.length) blank with hw
  have hwritten : d.attr.written bytes = w := by rw [h.stands.attr, Attr.written, hF]
  have hlen : w.length = L.attr.lrecl := by
    rw [hw, List.length_append, List.length_take, List.length_replicate]
    omega
  have hraw : L.attr.raw w = w := by rw [Attr.raw, hF]
  have hfits : L.attr.Fits w := by
    simp only [Attr.Fits, hF]
    exact hlen
  have hhead : L.head = 0 := by rw [Layout.head, hF, if_neg (by simp)]
  have hU : L.attr.recfm ≠ .U := by rw [hF]; simp
  -- a block that is not full has room for one more record
  have hroom : (o.curr.getD [] ++ w).length ≤ L.attr.blksize := by
    obtain ⟨k, hk⟩ := (L.fixed hF).1
    have hfull := h.fixed hF
    rw [hcurr, raw_fixed hF hcur, hk, Nat.mul_comm L.attr.lrecl] at hfull
    rw [List.length_append, hcurr, raw_fixed hF hcur, hlen, hk, Nat.mul_comm L.attr.lrecl, ← Nat.succ_mul]
    exact Nat.mul_le_mul_right _ (Nat.lt_of_mul_lt_mul_right hfull)
  have hin := stands_concat h.stands hwritten hfits hU (by rw [hhead, hraw, Nat.zero_add]; exact hroom)
  rw [hraw] at hin
  rw [Layout.writefix, ← hw]
  split
  · next hmore => exact ⟨hin, fun _ => hmore⟩
  · exact writes_atrout hin fun hloses => by rw [Layout.Loses, hF] at hloses; exact absurd hloses.1 (by simp)

theorem withCurr_getD {o : Output} {d : Stdio.Dcb} (h : Stands L o d) : Stands L (o.withCurr (o.curr.getD [])) d := by
  obtain ⟨⟨bs, cur, hblocks, hlaid, hcurr, hcur, hrecs, hroom, hU, -⟩, hattr, hrcs, hmode⟩ := h
  exact ⟨⟨bs, cur, hblocks, hlaid, hcurr, hcur, hrecs, hroom, hU, fun hnone => by cases hnone⟩, hattr, hrcs, hmode⟩

/-- `WRITEVAR` -/
theorem writevar_spec {o : Output} {d : Stdio.Dcb} (h : Writes L o d) (hV : L.attr.recfm = .V) {w : Bytes}
    (hfits : L.attr.Fits w) (hdrops : ¬ L.Drops o (L.attr.raw w)) :
    ∃ o', L.writevar o (L.attr.raw w) = .ok o' ∧ Writes L o' (d.awrite (L.attr.raw w)).2 := by
  have hlrecl := L.varying hV
  have hblksize := L.blksize_le
  have hlen : (L.attr.raw w).length = w.length + 4 := by
    rw [attr_raw_length, if_pos hV]
    omega
  have hle : w.length + 4 ≤ L.attr.lrecl := by
    have hroom := L.attr.room
    simp only [Attr.Fits, Attr.cap, hV] at hfits hroom
    omega
  have hraw : L.attr.raw w = Bsam.sdw (w.length + 4) 0 ++ w := by
    rw [Attr.raw, hV]
    rfl
  have hhalf : halfword (L.attr.raw w) = (L.attr.raw w).length := by
    rw [hlen, hraw, Bsam.halfword_sdw (by omega)]
  have hwritten : d.attr.written (L.attr.raw w) = w := by
    rw [h.stands.attr, Attr.written, hV, Attr.raw, hV]
    rfl
  have hU : L.attr.recfm ≠ .U := by rw [hV]; simp
  have hhead : L.head = 4 := by rw [Layout.head, if_pos hV]
  have hlong : L.blocked = false → 4 < (L.attr.raw w).length := by
    intro hb
    by_contra hshort
    exact hdrops (.inr ⟨hV, hb, not_lt.mp hshort⟩)
  -- where there is room, the record goes in, and alone where records are not blocked
  have hfit {o : Output} (h : Stands L o d)
      (hroom : 4 + (o.curr.getD []).length + (L.attr.raw w).length ≤ L.attr.blksize) :
      ∃ o', L.writevarTurn (L.attr.raw w) o = .leave (.ok o') ∧ Writes L o' (d.awrite (L.attr.raw w)).2 := by
    have hin := stands_concat h hwritten hfits hU (by rw [hhead, List.length_append]; omega)
    refine ⟨if L.blocked then o.withCurr (o.curr.getD [] ++ L.attr.raw w)
      else L.atrout (o.withCurr (o.curr.getD [] ++ L.attr.raw w)), ?_, ?_⟩
    · rw [Layout.writevarTurn]
      dsimp only
      rw [if_neg (not_not.mpr hhalf), if_neg (by omega), if_pos hroom]
    · cases hb : L.blocked with
      | true => exact ⟨hin, fun hF => by rw [hV] at hF; cases hF⟩
      | false =>
        refine writes_atrout hin fun hloses => ?_
        have hshort : (o.curr.getD [] ++ L.attr.raw w).length ≤ 4 := hloses.2.2
        have := hlong hb
        rw [List.length_append] at hshort
        omega
  by_cases hroom : 4 + (o.curr.getD []).length + (L.attr.raw w).length ≤ L.attr.blksize
  · obtain ⟨o', hturn, hwrites⟩ := hfit h.stands hroom
    exact ⟨o', by rw [Layout.writevar, run_leave hturn], hwrites⟩
  · have hkeeps : ¬ L.Loses (o.withCurr (o.curr.getD [])) := fun hloses => hdrops (.inl ⟨not_le.mp hroom, hloses⟩)
    have hout := withCurr_getD h.stands
    obtain ⟨bs, heq, -, -⟩ := atrout_spec hout hkeeps
    have hagain : L.writevarTurn (L.attr.raw w) o = .again (L.atrout (o.withCurr (o.curr.getD []))) := by
      rw [Layout.writevarTurn]
      dsimp only
      rw [if_neg (not_not.mpr hhalf), if_neg (by omega), if_neg hroom]
    obtain ⟨o', hturn, hwrites⟩ := hfit (writes_atrout hout hkeeps).stands (by
      rw [heq]
      show 4 + 0 + _ ≤ _
      omega)
    exact ⟨o', by rw [Layout.writevar, run_again hagain, run_leave hturn], hwrites⟩

/-- `WRITBLK` -/
theorem writblk_spec {o : Output} {d : Stdio.Dcb} (h : Writes L o d) (hU : L.attr.recfm = .U) {w : Bytes}
    (hfits : L.attr.Fits w) (hne : w ≠ []) : Writes L (Layout.writblk o w) (d.awrite w).2 := by
  obtain ⟨⟨⟨bs, cur, hblocks, hlaid, hcurr, -, hrecs, hroom, hcur, hnone⟩, hattr, hrcs, hmode⟩, -⟩ := h
  obtain ⟨-, hrecs', hattr', hrcs', hmode'⟩ := awrite_output hrcs hmode w
  obtain rfl := hcur hU
  have hwritten : d.attr.written w = w := by rw [hattr, Attr.written, hU]
  have hhead : L.head = 0 := by rw [Layout.head, hU, if_neg (by simp)]
  have hblock : L.block [w] = w := by
    rw [Layout.block, Layout.front, hU, if_neg (by simp), List.nil_append, raw_singleton, Attr.raw, hU]
  have hlaidw : L.Laid [w] := by
    refine ⟨List.forall_mem_singleton.mpr hfits, ?_, List.cons_ne_nil _ _, fun _ => ⟨w, rfl, hne⟩⟩
    simp only [Attr.Fits, Attr.cap, hU] at hfits
    rw [← block_length, hblock]
    exact hfits
  rw [Layout.writblk, if_neg hne]
  refine ⟨⟨⟨bs ++ [[w]], [], ?_, ?_, rfl, fun v hv => absurd hv List.not_mem_nil, ?_, ?_, fun _ => rfl, fun _ => rfl⟩,
    hattr'.trans hattr, hrcs', by rw [hmode']; exact hmode⟩, fun hF => by rw [hU] at hF; cases hF⟩
  · rw [hblocks, List.map_append, List.map_singleton, hblock]
  · intro ws hws
    rcases List.mem_append.mp hws with hws | hws
    · exact hlaid ws hws
    · rw [List.mem_singleton.mp hws]
      exact hlaidw
  · rw [hrecs', hrecs, hwritten]
    simp
  · exact hroom

/-! ### The data set over any calls -/

/-- A call of the access method; OPEN finds some storage for its buffer. -/
inductive Call
  | aread
  | awrite (bytes : Bytes)
  | reopen (mode : OpenMode) (storage : Bytes)

/-- What the caller gets. -/
inductive Answer
  | record (bytes : Option Bytes)
  | rc (n : Nat)
  | opened
  | abend (f : Fault)

/-- The calls on a list of records. -/
def recordStep (d : Stdio.Dcb) : Call → Answer × Stdio.Dcb
  | .aread =>
    let (rc, bytes, d) := d.aread
    (.record (if rc = 0 then some bytes else none), d)
  | .awrite bytes =>
    let (rc, d) := d.awrite bytes
    (.rc rc, d)
  | .reopen mode _ => (.opened, d.aopen mode)

/-- The calls on blocks. A DCB that writes is not read. -/
def Layout.step (L : Layout) (a : Area) : Call → Answer × Area
  | .aread =>
    match a with
    | .writing _ => (.abend .stuck, a)
    | .reading r =>
      match L.aread r with
      | .ok (o, r) => (.record o, .reading r)
      | .error f => (.abend f, a)
  | .awrite bytes =>
    match L.awrite a bytes with
    | .ok a => (.rc 0, a)
    | .error f => (.abend f, a)
  | .reopen mode storage => (.opened, aopen (L.aclose a) storage mode)

/-- Is the block that is being built out in full when the DCB is closed? -/
def Layout.Closes (L : Layout) : Area → Prop
  | .writing o => ¬ L.Loses o
  | .reading _ => True

/-- The calls that the stream layer makes, where no record is lost: it reads a DCB that reads,
writes what the record format asks for, and changes a record that it has just read. -/
def Layout.Proper (L : Layout) : Area → Call → Prop
  | .reading _, .aread => True
  | .writing _, .aread => False
  | .reading r, .awrite _ => r.updat = true ∧ r.kept ≠ none
  | .writing o, .awrite bytes => L.Takes bytes ∧ ¬ L.Drops o bytes
  | a, .reopen _ storage => L.Closes a ∧ storage.length = L.attr.blksize

/-- The records that the blocks and the buffer stand for. -/
def Layout.Views (L : Layout) : Area → Stdio.Dcb → Prop
  | .writing o, d => Writes L o d
  | .reading r, d => Reads L r d

theorem aclose_spec {a : Area} {d : Stdio.Dcb} (h : L.Views a d) (hcloses : L.Closes a) :
    ∃ bs : List (List Bytes), L.aclose a = bs.map L.block ∧ (∀ ws ∈ bs, L.Laid ws) ∧ bs.flatten = d.recs := by
  cases a with
  | writing o =>
    obtain ⟨bs, heq, hlaid, hrecs⟩ := atrout_spec (Writes.stands h) hcloses
    exact ⟨bs, by rw [Layout.aclose, heq], hlaid, hrecs⟩
  | reading r =>
    obtain ⟨hplace, -, -, -, -, hunchanged⟩ : Reads L r d := h
    have hif : (if r.updat then L.rewrite r else r) = L.rewrite r := by
      cases hu : r.updat with
      | true => rfl
      | false =>
        rw [Layout.rewrite, hunchanged hu]
        rfl
    rw [Layout.aclose, hif]
    cases hplace with
    | loaded before seen rest after hblock hlaid hrecs =>
      exact ⟨_, rewrite_blocks hblock.buffered, hlaid, by rw [hrecs]; simp⟩
    | between before after hbetween hlaid hrecs =>
      refine ⟨before ++ after, ?_, hlaid, by rw [hrecs, List.flatten_append]⟩
      rw [Layout.rewrite, hbetween.data]
      exact hbetween.blocks

theorem aopen_spec {bs : List (List Bytes)} {d : Stdio.Dcb} (hlaid : ∀ ws ∈ bs, L.Laid ws) (hrecs : bs.flatten = d.recs)
    (hattr : d.attr = L.attr) (hrcs : d.rcs = []) (mode : OpenMode) {storage : Bytes}
    (hstorage : storage.length = L.attr.blksize) : L.Views (aopen (bs.map L.block) storage mode) (d.aopen mode) := by
  have hroom : L.place [] ≤ L.attr.blksize := by
    rw [place_nil, Layout.head]
    split
    · next hV =>
      have := L.varying hV
      omega
    · exact Nat.zero_le _
  have hnone : ∀ w ∈ ([] : List Bytes), L.attr.Fits w := fun w hw => absurd hw List.not_mem_nil
  have hread (u : Bool) : Between L ⟨bs.map L.block, 0, storage, 0, none, none, false, false, false, [], u⟩ [] bs :=
    ⟨rfl, rfl, rfl, rfl, hstorage⟩
  cases mode with
  | output =>
    exact ⟨⟨⟨[], [], rfl, fun ws hws => absurd hws List.not_mem_nil, rfl, hnone, rfl, hroom, fun _ => rfl,
      fun _ => rfl⟩,
      hattr, hrcs, .inl rfl⟩, fun hF => (L.fixed hF).2⟩
  | extend =>
    exact ⟨⟨⟨bs, [], rfl, hlaid, rfl, hnone, by rw [List.append_nil]; exact hrecs.symm, hroom, fun _ => rfl,
      fun _ => rfl⟩, hattr, hrcs, .inr rfl⟩, fun hF => (L.fixed hF).2⟩
  | input =>
    exact ⟨.between [] bs (hread false) hlaid hrecs.symm rfl rfl (fun hno => by cases hno), hattr, hrcs, rfl, rfl,
      fun _ => rfl⟩
  | updat =>
    exact ⟨.between [] bs (hread true) hlaid hrecs.symm rfl rfl (fun hno => by cases hno), hattr, hrcs, rfl, rfl,
      fun _ => rfl⟩

/-- A record that was read is changed. -/
theorem rewrite_record {r : Reader} {d : Stdio.Dcb} (h : Reads L r d) (hupdat : r.updat = true) (hkept : r.kept ≠ none)
    (bytes : Bytes) : (d.awrite bytes).1 = 0 ∧ Reads L (L.update r bytes) (d.awrite bytes).2 := by
  obtain ⟨hplace, hattr, hrcs, hmode, hlsdw, hunchanged⟩ := h
  rw [hupdat, if_pos rfl] at hmode
  cases hplace with
  | between before after hbetween hlaid hrecs hnext hnone => exact absurd hnone hkept
  | loaded before seen rest after hblock hlaid hrecs hnext heof =>
    obtain ⟨done, w, rfl, -⟩ := hblock.kept
    have hws := hlaid _ (List.mem_append_right _ List.mem_cons_self)
    obtain ⟨hloaded, hsame⟩ := update_spec bytes hblock hws
    have hsplit (u : Bytes) : done ++ [u] ++ rest = done ++ u :: rest := by
      rw [List.append_assoc, List.singleton_append]
    have hmodify : d.recs.modify (d.next - 1) (fun old => d.attr.rewritten old bytes) =
        before.flatten ++ (done ++ [L.attr.rewritten w bytes] ++ rest) ++ after.flatten := by
      have hlast : d.next - 1 = (before.flatten ++ done).length := by
        rw [hnext, List.length_append, List.length_append, List.length_singleton]
        omega
      have heq : d.recs = (before.flatten ++ done) ++ w :: (rest ++ after.flatten) := by
        rw [hrecs]
        simp
      rw [hlast, heq, modify_middle, hattr]
      simp
    have hawrite : d.awrite bytes = (0, {d with
        rcs := [], calls := d.calls ++ [(bytes, 0)]
        recs := d.recs.modify (d.next - 1) (fun old => d.attr.rewritten old bytes)}) := by
      unfold Stdio.Dcb.awrite
      rw [hrcs]
      simp [hmode]
    rw [hawrite]
    refine ⟨rfl, .loaded before (done ++ [L.attr.rewritten w bytes]) rest after hloaded ?_ hmodify ?_
      (hsame.eof.trans heof), hattr, rfl, ?_, hsame.lsdw.trans hlsdw, fun hno => ?_⟩
    · intro ws hmem
      rcases List.mem_append.mp hmem with hmem | hmem
      · exact hlaid ws (List.mem_append_left _ hmem)
      · rcases List.mem_cons.mp hmem with rfl | hmem
        · rw [hsplit] at hws ⊢
          exact laid_swap hws (fits_rewritten (hws.fits w (by simp))) (rewritten_length _ _ _)
        · exact hlaid ws (List.mem_append_right _ (List.mem_cons_of_mem _ hmem))
    · show d.next = _
      rw [hnext]
      simp
    · show d.mode = _
      rw [hsame.updat, hupdat, if_pos rfl, hmode]
    · rw [hsame.updat, hupdat] at hno
      cases hno

/-- A call answers the same on blocks and on records. -/
theorem step_spec {a : Area} {d : Stdio.Dcb} {c : Call} (h : L.Views a d) (hproper : L.Proper a c) :
    (L.step a c).1 = (recordStep d c).1 ∧ L.Views (L.step a c).2 (recordStep d c).2 := by
  cases c with
  | reopen mode storage =>
    have hboth : L.Closes a ∧ storage.length = L.attr.blksize := by cases a <;> exact hproper
    obtain ⟨bs, heq, hlaid, hrecs⟩ := aclose_spec h hboth.1
    refine ⟨rfl, ?_⟩
    rw [Layout.step, heq]
    cases a with
    | writing o => exact aopen_spec hlaid hrecs (Writes.stands h).attr (Writes.stands h).rcs mode hboth.2
    | reading r => exact aopen_spec hlaid hrecs (Reads.attr h) (Reads.rcs h) mode hboth.2
  | aread =>
    cases a with
    | writing o => exact hproper.elim
    | reading r =>
      obtain ⟨o, r', hread, hrc, hbytes, hreads⟩ := aread_spec (r := r) h
      rw [Layout.step, recordStep]
      dsimp only
      rw [hread]
      refine ⟨?_, hreads⟩
      cases o with
      | none => rw [hrc]; rfl
      | some b => rw [hrc, hbytes]; rfl
  | awrite bytes =>
    cases a with
    | reading r =>
      obtain ⟨hrc, hreads⟩ := rewrite_record (r := r) h hproper.1 hproper.2 bytes
      exact ⟨congrArg Answer.rc hrc.symm, hreads⟩
    | writing o =>
      have hwrites : Writes L o d := h
      have hrc := (awrite_output hwrites.stands.rcs hwrites.stands.mode bytes).1
      obtain ⟨htakes, hdrops⟩ := hproper
      obtain ⟨o', hnew, hnext⟩ : ∃ o', L.writenew o bytes = .ok o' ∧ Writes L o' (d.awrite bytes).2 := by
        unfold Layout.writenew
        cases hr : L.attr.recfm with
        | F => exact ⟨_, rfl, writefix_spec hwrites hr bytes⟩
        | V =>
          obtain ⟨w, rfl, hfits, -⟩ := htakes.resolve_left (by rw [hr]; simp)
          exact writevar_spec hwrites hr hfits hdrops
        | U =>
          obtain ⟨w, rfl, hfits, hne⟩ := htakes.resolve_left (by rw [hr]; simp)
          have hraw : L.attr.raw w = w := by rw [Attr.raw, hr]
          rw [hraw]
          exact ⟨_, rfl, writblk_spec hwrites hr hfits (hne hr)⟩
      rw [Layout.step, Layout.awrite, hnew, recordStep]
      exact ⟨congrArg Answer.rc hrc.symm, hnext⟩

/-- **The blocks of a data set hold the records that the streams see**: over any calls, on an
unspanned data set, the access method answers as on a list of records, and what it leaves when it
is closed are blocks of just these records. -/
theorem blocks_hold_records (L : Layout) (bs : List (List Bytes)) (hlaid : ∀ ws ∈ bs, L.Laid ws) (mode : OpenMode)
    (storage : Bytes) (hstorage : storage.length = L.attr.blksize) (calls : List Call)
    (hcalls : Machine.Along L.step L.Proper (aopen (bs.map L.block) storage mode) calls)
    (hcloses : L.Closes (Machine.final L.step (aopen (bs.map L.block) storage mode) calls)) :
    Machine.answers L.step (aopen (bs.map L.block) storage mode) calls =
        Machine.answers recordStep ((Stdio.Dcb.closed L.attr bs.flatten).aopen mode) calls ∧
      ∃ bs' : List (List Bytes),
        L.aclose (Machine.final L.step (aopen (bs.map L.block) storage mode) calls) = bs'.map L.block ∧
        (∀ ws ∈ bs', L.Laid ws) ∧
        bs'.flatten = (Machine.final recordStep ((Stdio.Dcb.closed L.attr bs.flatten).aopen mode) calls).recs := by
  have hstart : L.Views (aopen (bs.map L.block) storage mode) ((Stdio.Dcb.closed L.attr bs.flatten).aopen mode) :=
    aopen_spec (d := Stdio.Dcb.closed L.attr bs.flatten) hlaid rfl rfl rfl mode hstorage
  have hstep : ∀ (a : Area) (d : Stdio.Dcb) (c : Call), L.Views a d → L.Proper a c →
      (L.step a c).1 = (recordStep d c).1 ∧ L.Views (L.step a c).2 (recordStep d c).2 := fun _ _ _ => step_spec
  obtain ⟨hanswers, hviews⟩ := Machine.simulates_along hstep hstart hcalls
  exact ⟨hanswers, aclose_spec hviews hcloses⟩

/-- FB with two records of two bytes to the block. -/
def pairs : Layout where
  attr := ⟨.F, 2, 4, by decide, by decide, false⟩
  blocked := true
  unspanned := rfl
  blksize_le := by decide
  fixed := fun _ => ⟨by decide, by decide⟩
  varying := fun hV => by cases hV

/-- The second record of a block is read and changed, and one is added behind the block. -/
def changeAndAdd : List Call :=
  [.aread, .aread, .awrite [9, 9], .reopen .extend [0, 0, 0, 0], .awrite [5, 6]]

theorem blocks_hold_records_pairs :
    pairs.aclose (Machine.final pairs.step (aopen [[1, 2, 3, 4]] [0, 0, 0, 0] .updat) changeAndAdd) =
        [[1, 2, 9, 9], [5, 6]] ∧
      ∃ bs : List (List Bytes), [[1, 2, 9, 9], [5, 6]] = bs.map pairs.block ∧ (∀ ws ∈ bs, pairs.Laid ws) ∧
        bs.flatten = [[1, 2], [9, 9], [5, 6]] := by
  have hnot (o : Output) (bytes : Bytes) : ¬ pairs.Drops o bytes := by
    rintro (⟨-, hV, -⟩ | ⟨hV, -⟩) <;> cases hV
  have hlaid : ∀ ws ∈ [[[1, 2], [3, 4]]], pairs.Laid ws := by
    refine List.forall_mem_singleton.mpr ⟨by decide, by decide, by decide, fun hU => by cases hU⟩
  have hcalls : Machine.Along pairs.step pairs.Proper (aopen ([[[1, 2], [3, 4]]].map pairs.block) [0, 0, 0, 0] .updat)
      changeAndAdd :=
    ⟨trivial, trivial, ⟨rfl, by decide⟩, ⟨trivial, rfl⟩, ⟨.inl rfl, hnot _ _⟩, trivial⟩
  have hcloses : pairs.Closes (Machine.final pairs.step
      (aopen ([[[1, 2], [3, 4]]].map pairs.block) [0, 0, 0, 0] .updat) changeAndAdd) :=
    fun hloses => by cases hloses.1
  exact ⟨rfl,
    (blocks_hold_records pairs [[[1, 2], [3, 4]]] hlaid .updat [0, 0, 0, 0] rfl changeAndAdd hcalls hcloses).2⟩

end Libc370.Access
