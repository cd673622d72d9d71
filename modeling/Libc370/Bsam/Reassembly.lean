import Libc370.Bsam.Spanned
import Libc370.Lib.Segments

/-! Spanned records come back as they were written.

A block that is written is a list of segments (`block`), and the segments of all blocks
join to the records (`Segment.Joins`). `@@AREAD` takes the segments off one by one and
hands out what they join to (`readBack_eq`). `@@AWRITE` adds segments that join to the
record (`awrite_spec`), with two exceptions. `@@ATROUT` takes a block of 8 bytes for an
empty one, but it holds a record without data, and that is lost. And a block of less than
9 bytes has no room for a segment with data: there `@@AWRITE` never comes to an end. -/
namespace Libc370.Bsam

open Stdio (Bytes rdw rdwLength rdwLength_rdw)
open Loop Segment

/-- The segment control code. -/
def flagOf : Span → UInt8
  | .whole => 0
  | .first => 1
  | .last => 2
  | .middle => 3

/-- A segment as it stands in a block. -/
def segmentBytes (s : Segment UInt8) : Bytes := sdw (4 + s.data.length) (flagOf s.span) ++ s.data

/-- Segments, one behind the other. -/
def content (segs : List (Segment UInt8)) : Bytes := segs.flatMap segmentBytes

/-- A block of segments. -/
def block (segs : List (Segment UInt8)) : Bytes := rdw (4 + (content segs).length) ++ content segs

/-- Segments that a block has room for. Only a whole record may have no data. -/
structure Laid (d : Dcb) (segs : List (Segment UInt8)) : Prop where
  room : 4 + (content segs).length ≤ d.blksize
  lrecl : ∀ s ∈ segs, 4 + s.data.length ≤ d.lrecl
  data : ∀ s ∈ segs, s.data = [] → s.span = .whole

theorem segmentBytes_length (s : Segment UInt8) : (segmentBytes s).length = 4 + s.data.length := by
  simp [segmentBytes, sdw]
  omega

theorem content_cons (s : Segment UInt8) (segs : List (Segment UInt8)) :
    content (s :: segs) = segmentBytes s ++ content segs :=
  List.flatMap_cons

theorem content_append (segs segs' : List (Segment UInt8)) : content (segs ++ segs') = content segs ++ content segs' :=
  List.flatMap_append

theorem content_length (segs : List (Segment UInt8)) : 4 * segs.length ≤ (content segs).length := by
  induction segs with
  | nil => exact le_rfl
  | cons s segs ih =>
    rw [content_cons, List.length_append, segmentBytes_length, List.length_cons]
    omega

theorem content_eq_nil {segs : List (Segment UInt8)} : content segs = [] ↔ segs = [] := by
  constructor
  · intro h
    have hlen := content_length segs
    rw [h, List.length_nil] at hlen
    exact List.length_eq_zero_iff.mp (by omega)
  · rintro rfl
    rfl

theorem block_length (segs : List (Segment UInt8)) : (block segs).length = 4 + (content segs).length := by
  simp [block, rdw]
  omega

/-! ### `@@AREAD` -/

/-- What is left of a block, from `BUFFCURR` on. -/
def left (segs : List (Segment UInt8)) : Option Bytes := if segs = [] then none else some (content segs)

theorem halfword_sdw {n : Nat} (h : n < 2 ^ 15) (flag : UInt8) (r : Bytes) : halfword (sdw n flag ++ r) = n := by
  have hlen : rdwLength (sdw n flag ++ r) = n := by
    simp only [rdwLength, sdw, List.cons_append, List.getD_cons_zero, List.getD_cons_succ, UInt8.toNat_ofNat']
    omega
  have hmod : (n : Int).bmod (2 ^ 16) = n := Int.bmod_eq_of_le (by omega) (by omega)
  unfold halfword
  rw [hlen, hmod]

/-- A segment is taken off the block, and its control code decides. -/
theorem deblockv_segment (d : Dcb) (i : Input) {s : Segment UInt8} {segs : List (Segment UInt8)}
    (hlrecl : 4 + s.data.length ≤ d.lrecl)
    (hsmall : 4 + s.data.length < 2 ^ 15) :
    d.deblockv i (content (s :: segs)) =
      if i.lsdw then
        if flagOf s.span = 3 then d.debvmove (i.withCurr (left segs)) s.data
        else if flagOf s.span = 2 then d.debvmove ((i.withCurr (left segs)).withLsdw false) s.data
        else bad
      else if flagOf s.span = 0 then .leave (.ok (some (segmentBytes s), i.withCurr (left segs)))
      else if flagOf s.span = 1 then d.debvmove {(i.withCurr (left segs)).withLsdw true with vbs := []} s.data
      else bad := by
  have hlen := segmentBytes_length s
  have hhalf : halfword (content (s :: segs)) = (4 + s.data.length : Nat) := by
    rw [content_cons, segmentBytes, List.append_assoc]
    exact halfword_sdw hsmall _ _
  have hfirst : (content (s :: segs)).headD 0 ≠ 0x80 := by
    show UInt8.ofNat ((4 + s.data.length) / 256) ≠ 0x80
    intro heq
    have hnat := congrArg UInt8.toNat heq
    rw [UInt8.toNat_ofNat'] at hnat
    have h80 : (0x80 : UInt8).toNat = 128 := rfl
    omega
  have htake : (content (s :: segs)).take (4 + s.data.length) = segmentBytes s := by
    rw [content_cons, ← hlen, List.take_left']
    rfl
  have hdrop : (content (s :: segs)).drop (4 + s.data.length) = content segs := by
    rw [content_cons, ← hlen, List.drop_left']
    rfl
  have htotal : (content (s :: segs)).length = 4 + s.data.length + (content segs).length := by
    rw [content_cons, List.length_append, hlen]
  have hnext : (if 4 + s.data.length < (content (s :: segs)).length then some (content segs) else none) =
      left segs := by
    unfold left
    by_cases hsegs : segs = []
    · subst hsegs
      rw [if_neg (by rw [htotal]; exact (Nat.lt_irrefl _)), if_pos rfl]
    · have hpos := List.length_pos_iff.mpr (mt content_eq_nil.mp hsegs)
      rw [if_pos (by omega), if_neg hsegs]
  have hdata : (segmentBytes s).drop 4 = s.data := rfl
  unfold Dcb.deblockv
  rw [hhalf]
  dsimp only
  rw [Int.toNat_natCast, htake, hdrop, hnext, if_neg hfirst, if_neg (by omega), hdata]
  exact if_neg (not_not.mpr rfl)

/-- Where the reading is: the segments left of the block, the blocks that follow, and the
record that is open. -/
structure Input.At (i : Input) (d : Dcb) (segs : List (Segment UInt8)) (bs : List (List (Segment UInt8)))
    (held : Option Bytes) : Prop where
  blocks : i.blocks = bs.map block
  curr : i.curr = left segs
  lsdw : i.lsdw = held.isSome
  vbs : ∀ h ∈ held, i.vbs = h
  laid : ∀ b ∈ segs :: bs, b ≠ [] → Laid d b
  filled : ∀ b ∈ bs, b ≠ []

variable {d : Dcb}

theorem Laid.tail {s : Segment UInt8} {segs : List (Segment UInt8)} (h : Laid d (s :: segs)) : Laid d segs := by
  refine ⟨?_, fun s' hs' => h.lrecl s' (List.mem_cons_of_mem _ hs'),
    fun s' hs' => h.data s' (List.mem_cons_of_mem _ hs')⟩
  have hroom := h.room
  rw [content_cons, List.length_append] at hroom
  omega

theorem debvmove_eq (d : Dcb) (i : Input) {data r : Bytes} (h : i.vbs ++ data <+: r) (hr : 4 + r.length ≤ d.lrecl) :
    d.debvmove i data =
      if i.lsdw then .again {i with vbs := i.vbs ++ data}
      else .leave (.ok (some (record (i.vbs ++ data)), {i with vbs := i.vbs ++ data})) := by
  have hle := h.length_le
  unfold Dcb.debvmove
  dsimp only
  rw [if_neg (by omega)]

/-- At a record, a turn takes the next segment; it hands out the record or goes on. -/
theorem Input.At.turn {i : Input} {s : Segment UInt8} {segs : List (Segment UInt8)} {bs : List (List (Segment UInt8))}
    {held : Option Bytes} (h : i.At d (s :: segs) bs held) {r : Bytes} {rs : List Bytes}
    (hjoins : Joins held (s :: (segs ++ bs.flatten)) (r :: rs) none) (hr : 4 + r.length ≤ d.lrecl) :
    (∃ i' held', d.deblockv i (content (s :: segs)) = .again i' ∧ i'.At d segs bs held' ∧
        Joins held' (segs ++ bs.flatten) (r :: rs) none) ∨
      ∃ i', d.deblockv i (content (s :: segs)) = .leave (.ok (some (record r), i')) ∧ i'.At d segs bs none ∧
        Joins none (segs ++ bs.flatten) rs none := by
  obtain ⟨hblocks, hcurr, hlsdw, hvbs, hlaid, hfilled⟩ := h
  have hs := hlaid _ List.mem_cons_self (List.cons_ne_nil _ _)
  have hlrecl := hs.lrecl s List.mem_cons_self
  have hroom := hs.room
  have hmax := d.blksize_le
  rw [content_cons, List.length_append, segmentBytes_length] at hroom
  have hlaid' : ∀ b ∈ segs :: bs, b ≠ [] → Laid d b := by
    intro b hb
    rcases List.mem_cons.mp hb with rfl | hb
    · exact fun _ => hs.tail
    · exact hlaid b (List.mem_cons_of_mem _ hb)
  rw [deblockv_segment d i hlrecl (by omega), hlsdw]
  cases hjoins with
  | whole hrest =>
    right
    exact ⟨_, rfl, ⟨hblocks, rfl, hlsdw, by simp, hlaid', hfilled⟩, hrest⟩
  | @first data _ _ _ hrest =>
    left
    obtain ⟨r', rs', heq, hprefix⟩ := hrest.prefix
    obtain ⟨rfl, rfl⟩ := List.cons.inj heq
    have hmove := debvmove_eq d {(i.withCurr (left segs)).withLsdw true with vbs := []} hprefix hr
    refine ⟨_, some data, hmove, ⟨hblocks, rfl, rfl, ?_, hlaid', hfilled⟩, hrest⟩
    rintro h ⟨⟩
    rfl
  | @middle held data _ _ _ hrest =>
    left
    obtain ⟨r', rs', heq, hprefix⟩ := hrest.prefix
    obtain ⟨rfl, rfl⟩ := List.cons.inj heq
    have hheld : i.vbs = held := hvbs held rfl
    rw [← hheld] at hprefix
    have hmove := debvmove_eq d (i.withCurr (left segs)) hprefix hr
    have hgoes : (i.withCurr (left segs)).lsdw = true := hlsdw
    rw [if_pos hgoes] at hmove
    refine ⟨_, some (held ++ data), hmove, ⟨hblocks, rfl, hlsdw, ?_, hlaid', hfilled⟩, hrest⟩
    rintro h ⟨⟩
    exact congrArg (· ++ data) hheld
  | @last held data _ _ _ hrest =>
    right
    have hheld : i.vbs = held := hvbs held rfl
    have hgrown : ((i.withCurr (left segs)).withLsdw false).vbs ++ data <+: held ++ data := by
      rw [← hheld]
      exact List.prefix_rfl
    have hmove := debvmove_eq d ((i.withCurr (left segs)).withLsdw false) hgrown hr
    rw [if_neg (show ¬ ((i.withCurr (left segs)).withLsdw false).lsdw = true from Bool.false_ne_true),
      show ((i.withCurr (left segs)).withLsdw false).vbs = held from hheld] at hmove
    refine ⟨_, hmove, ⟨hblocks, rfl, rfl, ?_, hlaid', hfilled⟩, hrest⟩
    rintro h ⟨⟩

/-- Where there is a segment left, a turn begins with it, in the current block or the next. -/
theorem Input.At.next {i : Input} {segs : List (Segment UInt8)} {bs : List (List (Segment UInt8))} {held : Option Bytes}
    (h : i.At d segs bs held) (hne : segs ++ bs.flatten ≠ []) :
    ∃ i' s segs' bs', d.areadTurn i = d.deblockv i' (content (s :: segs')) ∧ i'.At d (s :: segs') bs' held ∧
      s :: (segs' ++ bs'.flatten) = segs ++ bs.flatten := by
  obtain ⟨hblocks, hcurr, hlsdw, hvbs, hlaid, hfilled⟩ := h
  cases segs with
  | cons s segs =>
    have hleft : i.curr = some (content (s :: segs)) := hcurr
    refine ⟨i, s, segs, bs, ?_, ⟨hblocks, hcurr, hlsdw, hvbs, hlaid, hfilled⟩, rfl⟩
    unfold Dcb.areadTurn
    rw [hleft]
  | nil =>
    obtain ⟨b, bs, rfl⟩ := List.exists_cons_of_ne_nil (show bs ≠ [] by rintro rfl; exact hne rfl)
    obtain ⟨s, segs, rfl⟩ := List.exists_cons_of_ne_nil (hfilled b List.mem_cons_self)
    have hb := hlaid _ (List.mem_cons_of_mem _ List.mem_cons_self) (List.cons_ne_nil _ _)
    have hroom := hb.room
    have hmax := d.blksize_le
    have hlen : rdwLength (block (s :: segs)) = 4 + (content (s :: segs)).length := rdwLength_rdw _ (by omega) _
    have hpos : 0 < (content (s :: segs)).length := List.length_pos_iff.mpr
        (mt content_eq_nil.mp (List.cons_ne_nil _ _))
    have hcontent : ((block (s :: segs)).take (4 + (content (s :: segs)).length)).drop 4 = content (s :: segs) := by
      rw [← block_length, List.take_length]
      rfl
    have hbdw : ¬ (d.blksize < 4 + (content (s :: segs)).length ∨ (block (s :: segs)).getD 2 0 ≠ 0 ∨
        (block (s :: segs)).getD 3 0 ≠ 0 ∨ 4 + (content (s :: segs)).length ≤ 4) := by
      rintro (hlong | hzero | hzero | hshort)
      · omega
      · exact hzero rfl
      · exact hzero rfl
      · omega
    refine ⟨{i with blocks := bs.map block, curr := some (content (s :: segs))}, s, segs, bs, ?_,
      ⟨rfl, rfl, hlsdw, hvbs, ?_, ?_⟩, ?_⟩
    · unfold Dcb.areadTurn
      rw [hcurr, hblocks]
      show (if d.blksize < rdwLength (block (s :: segs)) ∨ _ ∨ _ ∨ rdwLength (block (s :: segs)) ≤ 4 then bad
        else d.deblockv {i with
          blocks := bs.map block, curr := some (((block (s :: segs)).take (rdwLength (block (s :: segs)))).drop 4)}
          (((block (s :: segs)).take (rdwLength (block (s :: segs)))).drop 4)) = _
      rw [hlen, hcontent]
      exact if_neg hbdw
    · exact fun b' hb' => hlaid b' (List.mem_cons_of_mem _ hb')
    · exact fun b' hb' => hfilled b' (List.mem_cons_of_mem _ hb')
    · rw [List.nil_append, List.flatten_cons, List.cons_append]

/-- The calls have turns enough. -/
theorem Input.At.size {i : Input} {segs : List (Segment UInt8)} {bs : List (List (Segment UInt8))} {held : Option Bytes}
    (h : i.At d segs bs held) : (segs ++ bs.flatten).length < i.size := by
  have hflat : ∀ bs : List (List (Segment UInt8)), bs.flatten.length ≤ (bs.map block).flatten.length := by
    intro bs
    induction bs with
    | nil => exact le_rfl
    | cons b bs ih =>
      have hb := content_length b
      rw [List.flatten_cons, List.map_cons, List.flatten_cons, List.length_append, List.length_append, block_length]
      omega
  have hcurr : segs.length ≤ (i.curr.getD []).length := by
    have hsegs := content_length segs
    rw [h.curr, left]
    split
    · next hnil => simp [hnil]
    · rw [Option.getD_some]
      omega
  have hblocks := hflat bs
  rw [Input.size, h.blocks, List.length_append]
  omega

/-- **`@@AREAD` hands out the next record** that the segments join to. -/
theorem aread_record {i : Input} {segs : List (Segment UInt8)} {bs : List (List (Segment UInt8))}
    (h : i.At d segs bs none)
    {r : Bytes} {rs : List Bytes} (hjoins : Joins none (segs ++ bs.flatten) (r :: rs) none)
    (hr : 4 + r.length ≤ d.lrecl) :
    ∃ i' segs' bs', d.aread i = .ok (some (record r), i') ∧ i'.At d segs' bs' none ∧
      Joins none (segs' ++ bs'.flatten) rs none ∧
      (segs' ++ bs'.flatten).length < (segs ++ bs.flatten).length := by
  have hrank := @run_rank _ _ (fun _ => .error .stuck) d.areadTurn
    (fun n i => ∃ segs' bs' held, i.At d segs' bs' held ∧ Joins held (segs' ++ bs'.flatten) (r :: rs) none ∧
      n = (segs' ++ bs'.flatten).length ∧ n ≤ (segs ++ bs.flatten).length)
    (fun res => ∃ i' segs' bs', res = .ok (some (record r), i') ∧ i'.At d segs' bs' none ∧
      Joins none (segs' ++ bs'.flatten) rs none ∧ (segs' ++ bs'.flatten).length < (segs ++ bs.flatten).length)
    ?_ _ _ _ ⟨segs, bs, none, h, hjoins, rfl, le_rfl⟩ h.size
  · exact hrank
  · rintro n i ⟨segs', bs', held, hat, hjoins, rfl, hn⟩
    have hne : segs' ++ bs'.flatten ≠ [] := by
      intro hnil
      rw [hnil] at hjoins
      cases hjoins
    obtain ⟨i', s, segs'', bs'', hturn, hat', hsame⟩ := hat.next hne
    rw [hturn]
    rw [← hsame] at hjoins
    have hlen : (segs'' ++ bs''.flatten).length + 1 = (segs' ++ bs'.flatten).length := by rw [← hsame, List.length_cons]
    rcases hat'.turn hjoins hr with ⟨i'', held', hagain, hat'', hjoins''⟩ | ⟨i'', hleave, hat'', hjoins''⟩
    · exact .inl ⟨i'', _, hagain, by omega, segs'', bs'', held', hat'', hjoins'', rfl, by omega⟩
    · exact .inr ⟨_, hleave, i'', segs'', bs'', rfl, hat'', hjoins'', by omega⟩

/-- At the end there is none. -/
theorem aread_end {i : Input} {segs : List (Segment UInt8)} {bs : List (List (Segment UInt8))} (h : i.At d segs bs none)
    (hjoins : Joins none (segs ++ bs.flatten) [] none) : d.aread i = .ok (none, i) := by
  have hnone := hjoins.of_nil
  obtain ⟨hsegs, hflat⟩ := List.append_eq_nil_iff.mp hnone
  have hbs : bs = [] := by
    cases bs with
    | nil => rfl
    | cons b bs =>
      rw [List.flatten_cons] at hflat
      exact absurd (List.append_eq_nil_iff.mp hflat).1 (h.filled b List.mem_cons_self)
  have hcurr : i.curr = none := by rw [h.curr, left, if_pos hsegs]
  have hblocks : i.blocks = [] := by rw [h.blocks, hbs]; rfl
  have hturn : d.areadTurn i = .leave (.ok (none, i)) := by
    unfold Dcb.areadTurn
    rw [hcurr, hblocks]
  exact run_leave hturn _

/-- **The records that are read back** are those that the segments of the blocks join to. -/
theorem readBack_eq {bs : List (List (Segment UInt8))} (hlaid : ∀ b ∈ bs, Laid d b) (hfilled : ∀ b ∈ bs, b ≠ [])
    {rs : List Bytes}
    (hjoins : Joins none bs.flatten rs none) (hr : ∀ r ∈ rs, 4 + r.length ≤ d.lrecl) :
    d.readBack (bs.map block) = .ok (rs.map record) := by
  have hcalls : ∀ (rs : List Bytes) (i : Input) (segs : List (Segment UInt8)) (bs : List (List (Segment UInt8)))
      (fuel : Nat),
      i.At d segs bs none → Joins none (segs ++ bs.flatten) rs none → (∀ r ∈ rs, 4 + r.length ≤ d.lrecl) →
        (segs ++ bs.flatten).length < fuel → d.areads fuel i = .ok (rs.map record) := by
    intro rs
    induction rs with
    | nil =>
      intro i segs bs fuel hat hjoins hr hfuel
      obtain ⟨fuel, rfl⟩ := Nat.exists_eq_succ_of_ne_zero (show fuel ≠ 0 by omega)
      rw [Dcb.areads, aread_end hat hjoins]
      rfl
    | cons r rs ih =>
      intro i segs bs fuel hat hjoins hr hfuel
      obtain ⟨fuel, rfl⟩ := Nat.exists_eq_succ_of_ne_zero (show fuel ≠ 0 by omega)
      obtain ⟨i', segs', bs', hread, hat', hjoins', hlt⟩ := aread_record hat hjoins (hr r List.mem_cons_self)
      rw [Dcb.areads, hread]
      dsimp only
      rw [ih i' segs' bs' fuel hat' hjoins' (fun r' hr' => hr r' (List.mem_cons_of_mem _ hr')) (by omega)]
      rfl
  have hat : Input.At ⟨bs.map block, none, false, []⟩ d [] bs none := by
    refine ⟨rfl, rfl, rfl, by simp, ?_, hfilled⟩
    intro b hb
    rcases List.mem_cons.mp hb with rfl | hb
    · exact fun hnil => absurd rfl hnil
    · exact fun _ => hlaid b hb
  have hsize := hat.size
  exact hcalls rs _ [] bs _ hat hjoins hr hsize

/-! ### `@@AWRITE` -/

/-- What has been written: the blocks, and the segments in the block that is being built. -/
structure Output.Holds (o : Output) (d : Dcb) (bs : List (List (Segment UInt8))) (segs : List (Segment UInt8)) :
    Prop where
  blocks : o.blocks = bs.map block
  curr : o.curr = left segs
  laid : ∀ b ∈ bs, Laid d b
  filled : ∀ b ∈ bs, b ≠ []
  laidCurr : segs ≠ [] → Laid d segs

theorem record_length (r : Bytes) : (record r).length = 4 + r.length := segmentBytes_length ⟨.whole, r⟩

/-- A block of 8 bytes is one record without data. -/
theorem lone_iff {segs : List (Segment UInt8)} (h : Laid d segs) (hne : segs ≠ []) :
    (content segs).length ≤ 4 ↔ segs = [⟨.whole, []⟩] := by
  constructor
  · intro hlen
    obtain ⟨s, segs, rfl⟩ := List.exists_cons_of_ne_nil hne
    have hrest := content_length segs
    rw [content_cons, List.length_append, segmentBytes_length] at hlen
    obtain rfl : segs = [] := List.length_eq_zero_iff.mp (by omega)
    have hdata : s.data = [] := List.length_eq_zero_iff.mp (by omega)
    have hspan := h.data s List.mem_cons_self hdata
    obtain ⟨span, data⟩ := s
    exact congrArg₂ (fun sp dt => [(⟨sp, dt⟩ : Segment UInt8)]) hspan hdata
  · rintro rfl
    exact le_rfl

/-- `@@ATROUT` adds the block to the data set, unless it takes it for empty. -/
theorem Output.Holds.atrout {o : Output} {bs : List (List (Segment UInt8))} {segs : List (Segment UInt8)}
    (h : o.Holds d bs segs) :
    ∃ bs', o.atrout.Holds d bs' [] ∧ bs'.flatten = bs.flatten ++ if segs = [⟨.whole, []⟩] then [] else segs := by
  obtain ⟨hblocks, hcurr, hlaid, hfilled, hlaidCurr⟩ := h
  by_cases hne : segs = []
  · subst hne
    have hnone : o.atrout = o := by
      unfold Output.atrout
      rw [hcurr]
      rfl
    rw [hnone]
    exact ⟨bs, ⟨hblocks, hcurr, hlaid, hfilled, hlaidCurr⟩, by simp⟩
  · have hl := hlaidCurr hne
    have hout : o.atrout = ⟨if 4 + (content segs).length ≤ 8 then o.blocks else o.blocks ++ [block segs], none⟩ := by
      unfold Output.atrout
      rw [hcurr, left, if_neg hne]
      rfl
    rw [hout]
    by_cases hlone : segs = [⟨.whole, []⟩]
    · have hlen := (lone_iff hl hne).mpr hlone
      refine ⟨bs, ⟨?_, rfl, hlaid, hfilled, fun hnil => absurd rfl hnil⟩, ?_⟩
      · rw [if_pos (by omega)]
        exact hblocks
      · rw [if_pos hlone, List.append_nil]
    · have hlen := mt (lone_iff hl hne).mp hlone
      refine ⟨bs ++ [segs], ⟨?_, rfl, ?_, ?_, fun hnil => absurd rfl hnil⟩, ?_⟩
      · rw [if_neg (by omega), List.map_append, ← hblocks]
        rfl
      · intro b hb
        rcases List.mem_append.mp hb with hb | hb
        · exact hlaid b hb
        · exact List.mem_singleton.mp hb ▸ hl
      · intro b hb
        rcases List.mem_append.mp hb with hb | hb
        · exact hfilled b hb
        · exact List.mem_singleton.mp hb ▸ hne
      · rw [if_neg hlone, List.flatten_append, List.flatten_singleton]

theorem used_eq {o : Output} {bs : List (List (Segment UInt8))} {segs : List (Segment UInt8)} (h : o.Holds d bs segs) :
    o.curr.getD [] = content segs := by
  rw [h.curr, left]
  split
  · next hnil => rw [hnil]; rfl
  · rfl

/-- A segment that there is room for. -/
theorem Output.Holds.add {o : Output} {bs : List (List (Segment UInt8))} {segs : List (Segment UInt8)}
    (h : o.Holds d bs segs)
    (s : Segment UInt8) (hroom : 4 + (content segs).length + (4 + s.data.length) ≤ d.blksize)
    (hlrecl : 4 + s.data.length ≤ d.lrecl)
    (hdata : s.data = [] → s.span = .whole) :
    (o.withCurr (o.curr.getD [] ++ segmentBytes s)).Holds d bs (segs ++ [s]) := by
  have hcurr := used_eq h
  have hcontent : content (segs ++ [s]) = content segs ++ segmentBytes s := by
    rw [content_append]
    exact congrArg (content segs ++ ·) (List.append_nil _)
  refine ⟨h.blocks, ?_, h.laid, h.filled, fun _ => ⟨?_, ?_, ?_⟩⟩
  · rw [hcurr, left, if_neg (by simp), hcontent]
    rfl
  · rw [hcontent, List.length_append, segmentBytes_length]
    omega
  · intro s' hs'
    rcases List.mem_append.mp hs' with hs' | hs'
    · exact (h.laidCurr (List.ne_nil_of_mem hs')).lrecl s' hs'
    · exact List.mem_singleton.mp hs' ▸ hlrecl
  · intro s' hs'
    rcases List.mem_append.mp hs' with hs' | hs'
    · exact (h.laidCurr (List.ne_nil_of_mem hs')).data s' hs'
    · exact List.mem_singleton.mp hs' ▸ hdata

/-- `@@AWRITE` has come to an end, with the records `rs` in the segments. -/
def Done (d : Dcb) (rs : List Bytes) (res : Except Fault Output) : Prop :=
  ∃ o bs segs, res = .ok o ∧ o.Holds d bs segs ∧ Joins none (bs.flatten ++ segs) rs none ∧
    (d.blocked = false → segs = [])

/-- The record is complete with its last segment; a block that is written at once has data. -/
theorem Output.Holds.complete {o : Output} {bs : List (List (Segment UInt8))} {segs : List (Segment UInt8)}
    (h : o.Holds d bs segs)
    {rs : List Bytes} (hjoins : Joins none (bs.flatten ++ segs) rs none)
    (hlone : d.blocked = false → segs ≠ [⟨.whole, []⟩]) : Done d rs (.ok (d.complete o)) := by
  unfold Dcb.complete
  cases hblocked : d.blocked with
  | true => exact ⟨o, bs, segs, rfl, h, hjoins, fun hun => absurd (hblocked.symm.trans hun) (by simp)⟩
  | false =>
    obtain ⟨bs', hholds, hflat⟩ := h.atrout
    rw [if_neg (hlone hblocked)] at hflat
    refine ⟨o.atrout, bs', [], rfl, hholds, ?_, fun _ => rfl⟩
    rw [List.append_nil, hflat]
    exact hjoins

/-- A pass with the rest of a record: the block is empty and the record is open. -/
structure Pass.Rest (x : Pass) (d : Dcb) (rs : List Bytes) (r : Bytes) : Prop where
  lsdw : x.lsdw = true
  long : 5 ≤ x.area.length
  lrecl : 4 + x.area.length ≤ d.lrecl
  holds : ∃ bs h, x.out.Holds d bs [] ∧ Joins none bs.flatten rs (some h) ∧ h ++ x.area.drop 4 = r

/-- The segment that a pass puts into the block. -/
def segmentOf (d : Dcb) (x : Pass) (span : Span) : Segment UInt8 :=
  ⟨span, (x.area.take (min (d.blksize - (4 + (x.out.curr.getD []).length)) x.area.length)).drop 4⟩

theorem segmentOf_length (d : Dcb) (x : Pass) (span : Span) :
    (segmentOf d x span).data.length = min (d.blksize - (4 + (x.out.curr.getD []).length)) x.area.length - 4 := by
  rw [segmentOf, List.length_drop, List.length_take]
  omega

theorem awriteTurn_segment {x : Pass} (hlong : 4 ≤ x.area.length)
    (hcheck : x.lsdw = true ∨ halfword x.area = x.area.length)
    (hlrecl : 4 + x.area.length ≤ d.lrecl)
    (hfit : x.lsdw = true ∨ d.blksize < 4 + (x.out.curr.getD []).length + x.area.length)
    (hroom : 4 + (x.out.curr.getD []).length + 5 ≤ d.blksize) :
    d.awriteTurn x =
      if x.area.drop (min (d.blksize - (4 + (x.out.curr.getD []).length)) x.area.length) = [] then
        .leave (.ok (d.complete (x.out.withCurr (x.out.curr.getD [] ++ segmentBytes (segmentOf d x .last)))))
      else
        .again ⟨x.area.drop (min (d.blksize - (4 + (x.out.curr.getD []).length)) x.area.length - 4), true,
          (x.out.withCurr (x.out.curr.getD [] ++ segmentBytes
          (segmentOf d x (if x.lsdw then .middle else .first)))).atrout⟩ := by
  have hbytes : ∀ span, segmentBytes (segmentOf d x span) =
      sdw (min (d.blksize - (4 + (x.out.curr.getD []).length)) x.area.length) (flagOf span) ++
        (x.area.take (min (d.blksize - (4 + (x.out.curr.getD []).length)) x.area.length)).drop 4 := by
    intro span
    have hlen := segmentOf_length d x span
    rw [segmentBytes, hlen, show 4 + (min (d.blksize - (4 + (x.out.curr.getD []).length)) x.area.length - 4) =
      min (d.blksize - (4 + (x.out.curr.getD []).length)) x.area.length by omega]
    rfl
  have hgood : ¬ ((!x.lsdw) = true ∧ halfword x.area ≠ x.area.length) := by
    rintro ⟨hnew, hne⟩
    exact hcheck.elim (fun hrest => by simp [hrest] at hnew) hne
  have hnofit : ¬ ((!x.lsdw) = true ∧ 4 + (x.out.curr.getD []).length + x.area.length ≤ d.blksize) := by
    rintro ⟨hnew, hle⟩
    exact hfit.elim (fun hrest => by simp [hrest] at hnew) (fun hlt => by omega)
  rw [hbytes, hbytes]
  unfold Dcb.awriteTurn
  dsimp only
  rw [if_neg hgood, if_neg (by omega), if_neg hnofit, if_neg (by omega)]
  generalize min (d.blksize - (4 + (x.out.curr.getD []).length)) x.area.length = n
  by_cases hrest : x.area.drop n = []
  · rw [if_pos hrest, if_pos hrest, if_pos hrest, List.append_assoc]
    rfl
  · rw [if_neg hrest, if_neg hrest, if_neg hrest, List.append_assoc]
    cases x.lsdw <;> rfl

/-- A segment that is not the last fills the block, which is written. -/
theorem goes_on {x : Pass} {rs : List Bytes} {r : Bytes} {bs : List (List (Segment UInt8))}
    {segs : List (Segment UInt8)}
    (hout : x.out.Holds d bs segs) (hlrecl : 4 + x.area.length ≤ d.lrecl)
    (hroom : 4 + (x.out.curr.getD []).length + 5 ≤ d.blksize)
    (hrest : x.area.drop (min (d.blksize - (4 + (x.out.curr.getD []).length)) x.area.length) ≠ []) {span : Span}
    {h : Bytes} (hspan : span ≠ .whole)
    (hjoins : Joins none (bs.flatten ++ (segs ++ [segmentOf d x span])) rs (some (h ++ (segmentOf d x span).data)))
    (hr : h ++ x.area.drop 4 = r) :
    Pass.Rest ⟨x.area.drop (min (d.blksize - (4 + (x.out.curr.getD []).length)) x.area.length - 4), true,
      (x.out.withCurr (x.out.curr.getD [] ++ segmentBytes (segmentOf d x span))).atrout⟩ d rs r := by
  have hcurr := used_eq hout
  have hn : min (d.blksize - (4 + (x.out.curr.getD []).length)) x.area.length =
      d.blksize - (4 + (x.out.curr.getD []).length) := by
    have hlt := List.length_pos_iff.mpr hrest
    rw [List.length_drop] at hlt
    omega
  have hlen := segmentOf_length d x span
  have hlong := List.length_pos_iff.mpr hrest
  rw [List.length_drop] at hlong
  have hdata : (segmentOf d x span).data ≠ [] := by
    apply List.ne_nil_of_length_pos
    omega
  have hadd := hout.add (segmentOf d x span) (by rw [← hcurr]; omega) (by omega) (fun hnil => absurd hnil hdata)
  obtain ⟨bs', hholds, hflat⟩ := hadd.atrout
  have hnotlone : segs ++ [segmentOf d x span] ≠ [⟨.whole, []⟩] := by
    intro heq
    have hmem : segmentOf d x span ∈ segs ++ [segmentOf d x span] := by simp
    rw [heq, List.mem_singleton] at hmem
    exact hspan (congrArg Segment.span hmem)
  rw [if_neg hnotlone] at hflat
  refine ⟨rfl, ?_, ?_, bs', h ++ (segmentOf d x span).data, hholds, ?_, ?_⟩
  · show 5 ≤ (x.area.drop _).length
    rw [List.length_drop]
    omega
  · show 4 + (x.area.drop _).length ≤ d.lrecl
    rw [List.length_drop]
    omega
  · rw [hflat]
    exact hjoins
  · show (h ++ (segmentOf d x span).data) ++ (x.area.drop _).drop 4 = r
    rw [List.append_assoc, ← hr]
    congr 1
    show (x.area.take _).drop 4 ++ (x.area.drop _).drop 4 = x.area.drop 4
    rw [List.drop_drop, hn, show d.blksize - (4 + (x.out.curr.getD []).length) - 4 + 4 =
      d.blksize - (4 + (x.out.curr.getD []).length) by omega]
    generalize hm : d.blksize - (4 + (x.out.curr.getD []).length) = m
    conv_rhs => rw [← List.take_append_drop m x.area]
    rw [List.drop_append_of_le_length]
    rw [List.length_take]
    omega

/-- The last segment completes the record. -/
theorem comes_to_end {x : Pass} {rs : List Bytes} {bs : List (List (Segment UInt8))} {segs : List (Segment UInt8)}
    (hout : x.out.Holds d bs segs) (hlong : 5 ≤ x.area.length) (hlrecl : 4 + x.area.length ≤ d.lrecl)
    (hroom : 4 + (x.out.curr.getD []).length + 5 ≤ d.blksize)
    (hjoins : Joins none (bs.flatten ++ (segs ++ [segmentOf d x .last])) rs none) :
    Done d rs (.ok (d.complete (x.out.withCurr (x.out.curr.getD [] ++ segmentBytes (segmentOf d x .last))))) := by
  have hcurr := used_eq hout
  have hlen := segmentOf_length d x .last
  have hdata : (segmentOf d x .last).data ≠ [] := by
    apply List.ne_nil_of_length_pos
    omega
  have hadd := hout.add (segmentOf d x .last) (by rw [← hcurr]; omega) (by omega) (fun hnil => absurd hnil hdata)
  refine hadd.complete hjoins fun _ heq => ?_
  have hmem : segmentOf d x .last ∈ segs ++ [segmentOf d x .last] := by simp
  rw [heq, List.mem_singleton] at hmem
  exact Span.noConfusion (congrArg Segment.span hmem)

/-- The rest of a record goes into a fresh block, to its end or as far as there is room. -/
theorem Pass.Rest.turn {x : Pass} {rs : List Bytes} {r : Bytes} (h : x.Rest d rs r) (hB : 9 ≤ d.blksize) :
    (∃ x', d.awriteTurn x = .again x' ∧ x'.area.length < x.area.length ∧ x'.Rest d rs r) ∨
      ∃ res, d.awriteTurn x = .leave res ∧ Done d (rs ++ [r]) res := by
  obtain ⟨hlsdw, hlong, hlrecl, bs, held, hout, hjoins, hr⟩ := h
  have hcurr : x.out.curr.getD [] = [] := used_eq hout
  have hroom : 4 + (x.out.curr.getD []).length + 5 ≤ d.blksize := by
    rw [hcurr, List.length_nil]
    omega
  rw [awriteTurn_segment (by omega) (.inl hlsdw) hlrecl (.inl hlsdw) hroom, hlsdw, if_pos rfl]
  split
  · next hrest =>
    right
    refine ⟨_, rfl, comes_to_end hout hlong hlrecl hroom ?_⟩
    have hdata : held ++ (segmentOf d x .last).data = r := by
      have hall : min (d.blksize - (4 + (x.out.curr.getD []).length)) x.area.length = x.area.length := by
        have hzero := congrArg List.length hrest
        rw [List.length_drop, List.length_nil] at hzero
        omega
      rw [segmentOf, hall, List.take_length]
      exact hr
    rw [← hdata]
    exact hjoins.append (.last .nil)
  · next hrest =>
    left
    refine ⟨_, rfl, ?_, goes_on hout hlrecl hroom hrest (h := held) (by decide) ?_ hr⟩
    · show (x.area.drop _).length < x.area.length
      rw [List.length_drop]
      omega
    · have hmiddle := hjoins.append (@Joins.middle _ _ (segmentOf d x .middle).data _ _ _ .nil)
      rw [List.append_nil] at hmiddle
      exact hmiddle

/-- Passes with the rest of a record come to its end. -/
theorem Pass.Rest.run {x : Pass} {rs : List Bytes} {r : Bytes} (h : x.Rest d rs r) (hB : 9 ≤ d.blksize) {k : Nat}
    (hk : x.area.length < k) : Done d (rs ++ [r]) (Loop.run (fun _ => .error .stuck) d.awriteTurn k x) := by
  refine run_rank (fun n x => x.Rest d rs r ∧ n = x.area.length) (Done d (rs ++ [r])) ?_ ⟨h, rfl⟩ hk
  rintro n x ⟨hrest, rfl⟩
  rcases hrest.turn hB with ⟨x', hagain, hlt, hrest'⟩ | ⟨res, hleave, hdone⟩
  · exact .inl ⟨x', _, hagain, hlt, hrest', rfl⟩
  · exact .inr ⟨res, hleave, hdone⟩

/-- A record that `@@AWRITE` takes. -/
def Dcb.Takes (d : Dcb) (r : Bytes) : Prop := r.length + 8 ≤ d.lrecl ∧ r.length + 4 < 2 ^ 15

theorem halfword_record {d : Dcb} {r : Bytes} (h : d.Takes r) : halfword (record r) = (record r).length := by
  rw [record_length]
  have hsmall := h.2
  exact halfword_sdw (by omega) 0 r

/-- Is there neither room for the record in the block nor for a segment of it? -/
def Dcb.Full (d : Dcb) (o : Output) (rec : Bytes) : Prop :=
  d.blksize < 4 + (o.curr.getD []).length + 5 ∧ d.blksize < 4 + (o.curr.getD []).length + rec.length

/-- A record in a block that is not full: it goes in, whole or its first segment. -/
theorem awrite_here (hB : 9 ≤ d.blksize) {o : Output} {bs : List (List (Segment UInt8))} {segs : List (Segment UInt8)}
    (h : o.Holds d bs segs) {rs : List Bytes} (hjoins : Joins none (bs.flatten ++ segs) rs none) {r : Bytes}
    (hr : d.Takes r)
    (hun : d.blocked = false → segs = []) (hfull : ¬ d.Full o (record r)) {k : Nat} (hk : (record r).length < k) :
    Done d (if d.blocked = false ∧ r = [] then rs else rs ++ [r])
      (Loop.run (fun _ => .error .stuck) d.awriteTurn (k + 1) ⟨record r, false, o⟩) := by
  have hcurr := used_eq h
  have hlen := record_length r
  have hcheck := halfword_record hr
  obtain ⟨hlrecl, hsmall⟩ := hr
  by_cases hfit : 4 + (o.curr.getD []).length + (record r).length ≤ d.blksize
  · have hturn : d.awriteTurn ⟨record r, false, o⟩ =
        .leave (.ok (d.complete (o.withCurr (o.curr.getD [] ++ segmentBytes ⟨.whole, r⟩)))) := by
      unfold Dcb.awriteTurn
      dsimp only
      rw [if_neg (fun hne => hne.2 hcheck), if_neg (by omega), if_pos ⟨rfl, hfit⟩]
      rfl
    rw [run_leave hturn]
    rw [hcurr] at hfit
    have hadd := h.add ⟨.whole, r⟩ (by dsimp only; omega) (by dsimp only; omega) (fun _ => rfl)
    have hjoined : Joins none (bs.flatten ++ (segs ++ [⟨.whole, r⟩])) (rs ++ [r]) none := by
      rw [← List.append_assoc]
      exact hjoins.append (.whole .nil)
    by_cases hlost : d.blocked = false ∧ r = []
    · obtain ⟨hblocked, rfl⟩ := hlost
      obtain rfl := hun hblocked
      obtain ⟨bs', hholds, hflat⟩ := hadd.atrout
      rw [if_pos ⟨hblocked, rfl⟩]
      refine ⟨_, bs', [], rfl, ?_, ?_, fun _ => rfl⟩
      · unfold Dcb.complete
        rw [hblocked]
        exact hholds
      · rw [hflat]
        simpa using hjoins
    · rw [if_neg hlost]
      refine hadd.complete hjoined fun hblocked heq => hlost ⟨hblocked, ?_⟩
      rw [hun hblocked, List.nil_append] at heq
      exact congrArg Segment.data (List.singleton_inj.mp heq)
  · have hroom : 4 + (o.curr.getD []).length + 5 ≤ d.blksize := by
      by_contra hno
      exact hfull ⟨by omega, by omega⟩
    have hturn := awriteTurn_segment (d := d) (x := ⟨record r, false, o⟩) (by dsimp only; omega) (.inr hcheck)
      (by dsimp only; omega) (.inr (by dsimp only; omega)) hroom
    dsimp only at hturn
    have hrest : (record r).drop (min (d.blksize - (4 + (o.curr.getD []).length)) (record r).length) ≠ [] := by
      apply List.ne_nil_of_length_pos
      rw [List.length_drop]
      omega
    rw [if_neg hrest, if_neg Bool.false_ne_true] at hturn
    have hdata : r ≠ [] := by
      rintro rfl
      rw [List.length_nil] at hlen
      omega
    rw [run_again hturn, if_neg (fun hlost => hdata hlost.2)]
    refine Pass.Rest.run ?_ hB ?_
    · refine goes_on (x := ⟨record r, false, o⟩) h (by dsimp only; omega) hroom hrest (h := []) (by decide) ?_ rfl
      have hfirst := hjoins.append (@Joins.first _ (segmentOf d ⟨record r, false, o⟩ .first).data _ _ _ .nil)
      rw [List.append_nil, List.append_assoc] at hfirst
      exact hfirst
    · show ((record r).drop _).length < k
      rw [List.length_drop]
      omega

/-- A record that is lost: the block that is written in front of it, or with it, is one
record without data. And a block of less than 9 bytes has no room for it. -/
def Dcb.Loses (d : Dcb) (o : Output) (rec : Bytes) : Prop :=
  d.blksize < 9 ∨ (d.blocked = false ∧ rec = record []) ∨ (o.curr = some (record []) ∧ d.Full o rec)

theorem left_lone_iff {segs : List (Segment UInt8)} (h : segs ≠ [] → Laid d segs) :
    left segs = some (record []) ↔ segs = [⟨.whole, []⟩] := by
  constructor
  · intro hleft
    unfold left at hleft
    split at hleft
    · cases hleft
    · next hne =>
      refine (lone_iff (h hne) hne).mp ?_
      rw [Option.some.inj hleft]
      exact le_rfl
  · rintro rfl
    rfl

/-- **`@@AWRITE` adds the record**, or one is lost. -/
theorem awrite_spec (hB : 9 ≤ d.blksize) {o : Output} {bs : List (List (Segment UInt8))} {segs : List (Segment UInt8)}
    (h : o.Holds d bs segs) {rs : List Bytes} (hjoins : Joins none (bs.flatten ++ segs) rs none)
    (hun : d.blocked = false → segs = []) {r : Bytes} (hr : d.Takes r) :
    ∃ rs', Done d rs' (d.awrite o (record r)) ∧ (∀ r' ∈ rs', r' ∈ rs ++ [r]) ∧
      (¬ d.Loses o (record r) → rs' = rs ++ [r]) ∧
      (d.Loses o (record r) → rs'.length < (rs ++ [r]).length) := by
  have hlen := record_length r
  have hempty : record r = record [] ↔ r = [] := by
    constructor
    · intro heq
      have hlens := congrArg List.length heq
      rw [record_length, record_length, List.length_nil] at hlens
      exact List.length_eq_zero_iff.mp (by omega)
    · rintro rfl
      rfl
  have hfuel : 2 * (record r).length + 2 = (record r).length + ((record r).length + 1) + 1 := by omega
  unfold Dcb.awrite
  by_cases hfull : d.Full o (record r)
  · -- the block is written, and the record begins the next
    have hcurr := used_eq h
    have hne : segs ≠ [] := by
      rintro rfl
      have hroom := hfull.1
      rw [hcurr] at hroom
      simp only [content, List.flatMap_nil, List.length_nil] at hroom
      omega
    have hblocked : d.blocked = true := by
      cases hb : d.blocked with
      | true => rfl
      | false => exact absurd (hun hb) hne
    obtain ⟨bs', hholds, hflat⟩ := h.atrout
    have hturn : d.awriteTurn ⟨record r, false, o⟩ = .again ⟨record r, false, o.atrout⟩ := by
      have hsame : o.withCurr (o.curr.getD []) = o := by
        obtain ⟨blocks, curr⟩ := o
        have hsome : curr = some (content segs) := h.curr.trans (if_neg hne)
        rw [hsome]
        rfl
      have hlrecl := hr.1
      have hno := hfull.2
      unfold Dcb.awriteTurn
      dsimp only
      rw [if_neg (fun hne => hne.2 (halfword_record hr)), if_neg (by omega), if_neg (fun hfit => by omega),
        if_pos hfull.1, hsame]
    have hfresh : ¬ d.Full o.atrout (record r) := by
      intro hagain
      have hroom := hagain.1
      rw [used_eq hholds] at hroom
      simp only [content, List.flatMap_nil, List.length_nil] at hroom
      omega
    have hblocked' : d.blocked ≠ false := by simp [hblocked]
    have hhere : ∀ rs', Joins none bs'.flatten rs' none →
        Done d (rs' ++ [r]) (Loop.run (fun _ => .error .stuck) d.awriteTurn (2 * (record r).length + 2) ⟨record r,
          false, o⟩) := by
      intro rs' hjoins'
      have hempty : Joins none (bs'.flatten ++ []) rs' none := by
        rw [List.append_nil]
        exact hjoins'
      have hdone := awrite_here hB hholds hempty hr (fun _ => rfl) hfresh
        (show (record r).length < (record r).length + (record r).length by omega)
      rw [if_neg (fun hlost => hblocked' hlost.1)] at hdone
      rw [hfuel, run_again hturn]
      exact hdone
    have hloses : d.Loses o (record r) ↔ segs = [⟨.whole, []⟩] := by
      rw [← left_lone_iff h.laidCurr, ← h.curr]
      constructor
      · rintro (hsmall | ⟨hun', -⟩ | ⟨hcurr, -⟩)
        · omega
        · exact absurd hun' hblocked'
        · exact hcurr
      · exact fun hcurr => .inr (.inr ⟨hcurr, hfull⟩)
    by_cases hlone : segs = [⟨.whole, []⟩]
    · rw [if_pos hlone, List.append_nil] at hflat
      rw [hlone] at hjoins
      obtain ⟨rs', rfl, hjoins'⟩ := hjoins.split_last
      rw [← hflat] at hjoins'
      refine ⟨rs' ++ [r], hhere rs' hjoins', ?_, fun hno => absurd (hloses.mpr hlone) hno, fun _ => by simp⟩
      intro r' hr'
      rcases List.mem_append.mp hr' with hr' | hr'
      · exact List.mem_append_left _ (List.mem_append_left _ hr')
      · exact List.mem_append_right _ hr'
    · rw [if_neg hlone] at hflat
      rw [← hflat] at hjoins
      exact ⟨rs ++ [r], hhere rs hjoins, fun _ hr' => hr', fun _ => rfl, fun hlost => absurd (hloses.mp hlost) hlone⟩
  · have hdone := awrite_here hB h hjoins hr hun hfull (k := (record r).length + ((record r).length + 1)) (by omega)
    rw [← hfuel] at hdone
    refine ⟨_, hdone, ?_, ?_, ?_⟩
    · intro r' hr'
      split at hr'
      · exact List.mem_append_left _ hr'
      · exact hr'
    · intro hno
      exact if_neg fun hlost => hno (.inr (.inl ⟨hlost.1, hempty.mpr hlost.2⟩))
    · rintro (hsmall | ⟨hun', hr'⟩ | ⟨-, hfull'⟩)
      · omega
      · rw [if_pos ⟨hun', hempty.mp hr'⟩]
        simp
      · exact absurd hfull' hfull

/-! ### The round trip -/

/-- No record is lost on the way, and not in the end when the last block is written. -/
def Dcb.Spares (d : Dcb) : Output → List Bytes → Prop
  | o, [] => o.curr ≠ some (record [])
  | o, rec :: recs => ¬ d.Loses o rec ∧ ∀ o', d.awrite o rec = .ok o' → d.Spares o' recs

/-- The records come back from the blocks that are written; these are made of segments, and
none is longer than the block size. -/
def Dcb.RoundTrips (d : Dcb) (recs : List Bytes) : Prop :=
  ∃ blocks, d.written recs = .ok blocks ∧ d.readBack blocks = .ok recs ∧
    ∀ b ∈ blocks, b.length ≤ d.blksize ∧ ∃ segs, b = block segs

theorem awrites_cons {o o' : Output} {rec : Bytes} (h : d.awrite o rec = .ok o') (recs : List Bytes) :
    d.awrites o (rec :: recs) = d.awrites o' recs := by
  unfold Dcb.awrites
  rw [List.foldlM_cons, h]
  rfl

/-- Records that are written leave blocks with as many of them as are not lost. -/
theorem awrites_spec (hB : 9 ≤ d.blksize) (recs : List Bytes) (hrecs : ∀ r ∈ recs, d.Takes r) {o : Output}
    {bs : List (List (Segment UInt8))} {segs : List (Segment UInt8)} (h : o.Holds d bs segs) {rs : List Bytes}
    (hjoins : Joins none (bs.flatten ++ segs) rs none) (hun : d.blocked = false → segs = []) :
    ∃ o' bs' rs', d.awrites o (recs.map record) = .ok o' ∧ o'.atrout.Holds d bs' [] ∧ Joins none bs'.flatten rs' none ∧
      (∀ r ∈ rs', r ∈ rs ++ recs) ∧ (d.Spares o (recs.map record) → rs' = rs ++ recs) ∧
      (¬ d.Spares o (recs.map record) → rs'.length < (rs ++ recs).length) := by
  induction recs generalizing o bs segs rs with
  | nil =>
    obtain ⟨bs', hholds, hflat⟩ := h.atrout
    have hlone := left_lone_iff h.laidCurr
    rw [← h.curr] at hlone
    rw [List.append_nil]
    by_cases hsegs : segs = [⟨.whole, []⟩]
    · rw [if_pos hsegs, List.append_nil] at hflat
      rw [hsegs] at hjoins
      obtain ⟨rs', rfl, hjoins'⟩ := hjoins.split_last
      rw [← hflat] at hjoins'
      exact ⟨o, bs', rs', rfl, hholds, hjoins', fun r hr => List.mem_append_left _ hr,
        fun hspares => absurd (hlone.mpr hsegs) hspares, fun _ => by simp⟩
    · rw [if_neg hsegs] at hflat
      rw [← hflat] at hjoins
      exact ⟨o, bs', rs, rfl, hholds, hjoins, fun r hr => hr, fun _ => rfl,
        fun hno => absurd (fun hcurr => hsegs (hlone.mp hcurr)) hno⟩
  | cons r recs ih =>
    obtain ⟨rs₁, ⟨o₁, bs₁, segs₁, hwrite, hholds, hjoins₁, hun₁⟩, hmem, hkept, hlost⟩ :=
      awrite_spec hB h hjoins hun (hrecs r List.mem_cons_self)
    obtain ⟨o', bs', rs', hwrites, hholds', hjoins', hmem', hkept', hlost'⟩ :=
      ih (fun r' hr' => hrecs r' (List.mem_cons_of_mem _ hr')) hholds hjoins₁ hun₁
    have hsame : rs ++ r :: recs = rs ++ [r] ++ recs := by simp
    have hlen₁ : rs₁.length ≤ (rs ++ [r]).length := by
      by_cases hloses : d.Loses o (record r)
      · exact (hlost hloses).le
      · rw [hkept hloses]
    have hlen' : rs'.length ≤ (rs₁ ++ recs).length := by
      by_cases hspares : d.Spares o₁ (recs.map record)
      · rw [hkept' hspares]
      · exact (hlost' hspares).le
    have hspares : d.Spares o ((r :: recs).map record) ↔ ¬ d.Loses o (record r) ∧ d.Spares o₁ (recs.map record) := by
      show (¬ d.Loses o (record r) ∧ ∀ o', d.awrite o (record r) = .ok o' → d.Spares o' (recs.map record)) ↔ _
      rw [hwrite]
      simp
    refine ⟨o', bs', rs', ?_, hholds', hjoins', ?_, ?_, ?_⟩
    · exact (awrites_cons hwrite _).trans hwrites
    · intro r' hr'
      rw [hsame]
      rcases List.mem_append.mp (hmem' r' hr') with hr' | hr'
      · exact List.mem_append_left _ (hmem r' hr')
      · exact List.mem_append_right _ hr'
    · rw [hspares]
      rintro ⟨hloses, hspares'⟩
      rw [hkept' hspares', hkept hloses, hsame]
    · rw [hspares, hsame]
      intro hno
      simp only [List.length_append] at hlen₁ hlen' hlost' hlost ⊢
      by_cases hloses : d.Loses o (record r)
      · have := hlost hloses
        omega
      · have := hlost' fun hspares' => hno ⟨hloses, hspares'⟩
        omega

/-- In a block of less than 9 bytes nothing is ever written. -/
theorem written_small (hB : d.blksize < 9) (recs : List Bytes) {blocks : List Bytes}
    (h : d.written (recs.map record) = .ok blocks) : blocks = [] := by
  -- the block is either not begun or holds one record without data
  have hatrout : ∀ o : Output, o.blocks = [] → o.curr = none ∨ o.curr = some (record []) → o.atrout = ⟨[], none⟩ := by
    rintro ⟨blocks, curr⟩ hblocks (hcurr | hcurr) <;> dsimp only at hblocks hcurr <;> subst hblocks hcurr <;> rfl
  have hturn : ∀ (o : Output) (r : Bytes), o.blocks = [] → o.curr = none ∨ o.curr = some (record []) →
      d.awriteTurn ⟨record r, false, o⟩ = .again ⟨record r, false, ⟨[], none⟩⟩ ∨
        (∃ f, d.awriteTurn ⟨record r, false, o⟩ = .leave (.error f)) ∨
        ∃ o', d.awriteTurn ⟨record r, false, o⟩ = .leave (.ok o') ∧ o'.blocks = [] ∧
          (o'.curr = none ∨ o'.curr = some (record [])) := by
    intro o r hblocks hcurr
    have hlen := record_length r
    have hflush : (o.withCurr (o.curr.getD [])).atrout = ⟨[], none⟩ := by
      obtain ⟨blocks, curr⟩ := o
      dsimp only at hblocks hcurr
      subst hblocks
      rcases hcurr with rfl | rfl <;> rfl
    unfold Dcb.awriteTurn
    dsimp only
    split
    · exact .inr (.inl ⟨_, rfl⟩)
    · split
      · exact .inr (.inl ⟨_, rfl⟩)
      · split
        · next hfit =>
          right
          right
          obtain ⟨-, hfit⟩ := hfit
          have hempty : r = [] := List.length_eq_zero_iff.mp (by omega)
          have hnone : o.curr.getD [] = [] := List.length_eq_zero_iff.mp (by omega)
          rw [hnone, List.nil_append, hempty]
          refine ⟨_, rfl, ?_⟩
          unfold Dcb.complete
          split
          · exact ⟨hblocks, .inr rfl⟩
          · have hnone := hatrout (o.withCurr (record [])) hblocks (.inr rfl)
            rw [hnone]
            exact ⟨rfl, .inl rfl⟩
        · left
          rw [if_pos (by omega), hflush]
  have hone : ∀ (o : Output) (r : Bytes), o.blocks = [] → o.curr = none ∨ o.curr = some (record []) →
      ∀ o', d.awrite o (record r) = .ok o' → o'.blocks = [] ∧ (o'.curr = none ∨ o'.curr = some (record [])) := by
    intro o r hblocks hcurr
    refine run_keeps (fun x : Pass => ∃ o, x = ⟨record r, false, o⟩ ∧ o.blocks = [] ∧
      (o.curr = none ∨ o.curr = some (record [])))
      (fun res : Except Fault Output => ∀ o', res = .ok o' → o'.blocks = [] ∧
      (o'.curr = none ∨ o'.curr = some (record [])))
      ?_ ?_ ?_ ⟨o, rfl, hblocks, hcurr⟩ _
    · rintro x - o' ⟨⟩
    · rintro x x' ⟨o, rfl, hblocks, hcurr⟩ hagain
      rcases hturn o r hblocks hcurr with heq | ⟨f, heq⟩ | ⟨o', heq, -⟩ <;> rw [heq] at hagain <;> cases hagain
      exact ⟨_, rfl, rfl, .inl rfl⟩
    · rintro x res ⟨o, rfl, hblocks, hcurr⟩ hleave o' rfl
      rcases hturn o r hblocks hcurr with heq | ⟨f, heq⟩ | ⟨o', heq, hkeeps⟩ <;> rw [heq] at hleave <;> cases hleave
      exact hkeeps
  have hall : ∀ (recs : List Bytes) (o : Output), o.blocks = [] → o.curr = none ∨ o.curr = some (record []) →
      ∀ o', d.awrites o (recs.map record) = .ok o' → o'.blocks = [] ∧
        (o'.curr = none ∨ o'.curr = some (record [])) := by
    intro recs
    induction recs with
    | nil =>
      rintro o hblocks hcurr o' heq
      cases heq
      exact ⟨hblocks, hcurr⟩
    | cons r recs ih =>
      intro o hblocks hcurr o' heq
      rw [List.map_cons] at heq
      cases hwrite : d.awrite o (record r) with
      | error f =>
        unfold Dcb.awrites at heq
        rw [List.foldlM_cons, hwrite] at heq
        cases heq
      | ok o₁ =>
        rw [awrites_cons hwrite] at heq
        obtain ⟨hblocks₁, hcurr₁⟩ := hone o r hblocks hcurr o₁ hwrite
        exact ih o₁ hblocks₁ hcurr₁ o' heq
  unfold Dcb.written at h
  cases hwrites : d.awrites ⟨[], none⟩ (recs.map record) with
  | error f =>
    rw [hwrites] at h
    cases h
  | ok o =>
    rw [hwrites] at h
    obtain ⟨hblocks, hcurr⟩ := hall recs ⟨[], none⟩ rfl (.inl rfl) o hwrites
    have hnone := hatrout o hblocks hcurr
    dsimp only at h
    rw [hnone] at h
    exact (Except.ok.inj h).symm

/-- **Records come back as they were written** just if none is lost. -/
theorem round_trips_iff (d : Dcb) (recs : List Bytes) (hrecs : ∀ r ∈ recs, d.Takes r) :
    d.RoundTrips (recs.map record) ↔ d.Spares ⟨[], none⟩ (recs.map record) := by
  by_cases hB : 9 ≤ d.blksize
  · obtain ⟨o, bs, rs, hwrites, hholds, hjoins, hmem, hkept, hlost⟩ :=
      awrites_spec hB recs hrecs (show Output.Holds ⟨[], none⟩ d [] [] from
        ⟨rfl, rfl, by simp, by simp, fun hnil => absurd rfl hnil⟩) .nil (fun _ => rfl)
    have hwritten : d.written (recs.map record) = .ok (bs.map block) := by
      unfold Dcb.written
      rw [hwrites]
      exact congrArg Except.ok hholds.blocks
    have hread := readBack_eq hholds.laid hholds.filled hjoins fun r hr => by
      have htakes := (hrecs r (by simpa using hmem r hr)).1
      omega
    constructor
    · rintro ⟨blocks, heq, hback, -⟩
      rw [hwritten] at heq
      obtain rfl := Except.ok.inj heq
      rw [hread] at hback
      have hlen := congrArg List.length (Except.ok.inj hback)
      rw [List.length_map, List.length_map] at hlen
      by_contra hno
      have hlt := hlost hno
      rw [List.nil_append] at hlt
      omega
    · intro hspares
      have hall := hkept hspares
      rw [List.nil_append] at hall
      rw [hall] at hread
      refine ⟨_, hwritten, hread, ?_⟩
      intro b hb
      obtain ⟨segs, hsegs, rfl⟩ := List.mem_map.mp hb
      refine ⟨?_, segs, rfl⟩
      rw [block_length]
      exact (hholds.laid segs hsegs).room
  · cases recs with
    | nil =>
      refine iff_of_true ⟨[], rfl, rfl, by simp⟩ ?_
      show (none : Option Bytes) ≠ _
      simp
    | cons r recs =>
      refine iff_of_false ?_ ?_
      · rintro ⟨blocks, hwritten, hback, -⟩
        rw [written_small (by omega) (r :: recs) hwritten] at hback
        cases hback
      · rintro ⟨hloses, -⟩
        exact hloses (.inl (by omega))

/-- VBS with LRECL 255 and blocks of 100 bytes. -/
def vbs : Dcb := ⟨100, 255, true, by decide⟩

/-- One record of three bytes. -/
theorem round_trips_three :
    (∀ r ∈ [[1, 2, 3]], vbs.Takes r) ∧
      (vbs.RoundTrips ([[1, 2, 3]].map record) ↔ vbs.Spares ⟨[], none⟩ ([[1, 2, 3]].map record)) :=
  ⟨by simp [Dcb.Takes, vbs], round_trips_iff vbs [[1, 2, 3]] (by simp [Dcb.Takes, vbs])⟩

/-- A data set of one record without data is written and has no block. -/
theorem empty_record_lost : ¬ ∀ (d : Dcb) (recs : List Bytes),
    (∀ r ∈ recs, d.Takes r) → d.RoundTrips (recs.map record) := by
  intro h
  obtain ⟨blocks, hwritten, hback, -⟩ := h vbs [[]] (by simp [Dcb.Takes, vbs])
  have hnone : vbs.written ([[]].map record) = .ok [] := by decide +kernel
  rw [hnone] at hwritten
  obtain rfl := Except.ok.inj hwritten
  cases hback

end Libc370.Bsam
