import Libc370.Jes2.Jesprb

/-! What a record does to a walk.

The parts of spanned lines are an `Assembly` (`Scan.view`), and a record makes one of
its moves. On the way nothing outside the block is read and nothing outside the buffer
written, and an open line stays within what its FIRST part announced, which stays within
the buffer (`Jesprb.Ok`). Both are said once of the record, and then of blocks and
chains of blocks. -/
namespace Libc370.Jes2

open Bytes

/-- The buffer has its size, and an open line fits what was announced, which fits. -/
structure Jesprb.Sized (pb : Jesprb) : Prop where
  buf : ∀ b ∈ pb.prbuf, b.length = pb.blksize + 4
  line : pb.assembling = true → pb.linelen ≤ pb.total
  total : pb.assembling = true → pb.total ≤ pb.blksize

/-- And an open line has a buffer. -/
structure Jesprb.Ok (pb : Jesprb) : Prop extends pb.Sized where
  has : pb.assembling = true → pb.prbuf.isSome = true

/-- The open line. -/
def Jesprb.held (pb : Jesprb) : Option (List UInt8) :=
  if pb.assembling then some ((pb.prbuf.getD []).take pb.linelen) else none

variable {σ : Type}

/-- What has become of the parts of lines. -/
def Scan.view (x : Scan σ) : Assembly UInt8 :=
  ⟨x.taken, (x.handed.filter fun c => c.place = .prbuf).map Call.line, x.pb.held⟩

/-- The walk has come to `rc` at a line from the buffer: the callback has had it. -/
def Scan.StoppedAtLine (rc : Int) (x : Scan σ) : Prop :=
  rc < 0 ∧ x.handed.getLast?.map Call.place = some .prbuf

instance (rc : Int) (x : Scan σ) : Decidable (x.StoppedAtLine rc) := inferInstanceAs (Decidable (_ ∧ _))

/-- The same at the end of a walk: a line at which the callback stops it is out. -/
def Scan.endView (rc : Int) (x : Scan σ) : Assembly UInt8 :=
  if x.StoppedAtLine rc then x.view.dropped else x.view

/-- There is something of an open line, which `giveup()` would hand out. -/
def Jesprb.pending (pb : Jesprb) : Bool := pb.assembling && pb.linelen != 0

/-- The record opens a line: a FIRST part whose announcement lies in the block. -/
def opens (x : Scan σ) : Bool :=
  x.p + 4 + 2 ≤ x.blk.length && x.blk.getD x.p 0 != 0xFF && x.blk.getD (x.p + 1) 0 &&& 0x10 != 0 &&
    x.blk.getD (x.p + 1) 0 &&& 0x08 != 0

theorem endView_zero (x : Scan σ) : x.endView 0 = x.view := if_neg fun h => absurd h.1 (by decide)

theorem endView_closed {x : Scan σ} (rc : Int) (h : x.pb.assembling = false) : x.endView rc = x.view := by
  unfold Scan.endView
  split
  · simp [Assembly.dropped, Scan.view, Jesprb.held, h]
  · rfl

theorem heldLength_eq {x : Scan σ} (h : x.pb.Ok) : x.view.heldLength = 0 ↔ x.pb.pending = false := by
  unfold Assembly.heldLength Scan.view Jesprb.held Jesprb.pending
  by_cases hopen : x.pb.assembling = true
  · obtain ⟨buf, hprbuf⟩ := Option.isSome_iff_exists.mp (h.has hopen)
    have hsize := h.buf buf hprbuf
    have hline := h.line hopen
    have htotal := h.total hopen
    have hmin : min x.pb.linelen buf.length = x.pb.linelen := by omega
    simp [hopen, hprbuf, hmin]
  · simp [hopen]

/-! ### Storage -/

theorem read_eq {l : List UInt8} {o n : Nat} (h : o + n ≤ l.length) : read l o n = some (window l o n) := if_pos h

theorem write_eq {l : List UInt8} {o : Nat} {bs : List UInt8} (h : o + bs.length ≤ l.length) :
    write l o bs = some (patch l o bs) := if_pos h

theorem halfword_eq {l : List UInt8} {o : Nat} (h : o + 2 ≤ l.length) :
    halfword l o = some (number (window l o 2)) := by
  rw [halfword, read_eq h, Option.map_some]

theorem getElem?_eq {l : List UInt8} {i : Nat} (h : i < l.length) : l[i]? = some (l.getD i 0) := by
  rw [List.getD_eq_getElem?_getD, List.getElem?_eq_getElem h, Option.getD_some]

theorem spanCc_eq (blk : List UInt8) (flags : UInt8) (d : Nat) : ∃ spancc, spanCc blk flags d = some spancc := by
  unfold spanCc
  split
  · next hin =>
    rw [getElem?_eq hin.2]
    exact ⟨_, rfl⟩
  · exact ⟨0, rfl⟩

theorem lineCc_eq {blk : List UInt8} {d : Nat} (flags : UInt8) (h : d ≤ blk.length) (hd : 0 < d) :
    ∃ cc, lineCc blk flags d = some cc := by
  unfold lineCc
  split
  · rw [getElem?_eq (by omega)]
    exact ⟨_, rfl⟩
  · exact ⟨0, rfl⟩

/-- The callback on a line of the block. -/
theorem emitBlk_spec (emit : Emit σ) (x : Scan σ) {d n : Nat} (h : d + n ≤ x.blk.length) :
    ∃ rc s line, line.length = n ∧ emitBlk emit x d n = some (rc, { x with
      blk := patch x.blk d line, s, handed := x.handed ++ [⟨.block d, x.pb.cc, window x.blk d n⟩] }) := by
  have hkeeps := emit.keeps x.s (.block d) x.pb.cc (window x.blk d n)
  rw [window_length h] at hkeeps
  obtain ⟨⟨s, line, rc⟩, hcall⟩ : ∃ r, r = emit.call x.s (.block d) x.pb.cc (window x.blk d n) := ⟨_, rfl⟩
  rw [← hcall] at hkeeps
  refine ⟨rc, s, line, hkeeps, ?_⟩
  simp only [emitBlk, read_eq h, Option.bind_eq_bind, Option.bind_some, ← hcall]
  rw [write_eq (by rw [hkeeps]; exact h), Option.bind_some]
  rfl

/-- The callback on what is in the buffer. -/
theorem emitBuf_spec (emit : Emit σ) (x : Scan σ) {buf : List UInt8} (hbuf : x.pb.prbuf = some buf)
    (h : x.pb.linelen ≤ buf.length) :
    ∃ rc s buf', buf'.length = buf.length ∧ emitBuf emit x = some (rc, { x with
      pb := { x.pb with prbuf := some buf' }, s,
      handed := x.handed ++ [⟨.prbuf, x.pb.cc, buf.take x.pb.linelen⟩] }) := by
  have hroom : 0 + x.pb.linelen ≤ buf.length := by omega
  have hkeeps := emit.keeps x.s .prbuf x.pb.cc (window buf 0 x.pb.linelen)
  rw [window_length hroom] at hkeeps
  obtain ⟨⟨s, line, rc⟩, hcall⟩ : ∃ r, r = emit.call x.s .prbuf x.pb.cc (window buf 0 x.pb.linelen) := ⟨_, rfl⟩
  rw [← hcall] at hkeeps
  have hfits : 0 + line.length ≤ buf.length := by
    rw [hkeeps]
    exact hroom
  refine ⟨rc, s, patch buf 0 line, patch_length hfits, ?_⟩
  simp only [emitBuf, hbuf, read_eq hroom, Option.bind_eq_bind, Option.bind_some, ← hcall, write_eq hfits]
  rfl

/-! ### Giving up -/

/-- The lines that have come from the buffer. -/
theorem view_handed (x : Scan σ) (place : Place) (cc : Nat) (line : List UInt8) :
    ((x.handed ++ [(⟨place, cc, line⟩ : Call)]).filter fun c => c.place = .prbuf).map Call.line =
      x.view.handed ++ if place = .prbuf then [line] else [] := by
  rw [List.filter_append, List.map_append]
  by_cases h : place = .prbuf <;> simp [Scan.view, h]

/-- What there is of an open line goes out. -/
theorem fragment_spec (emit : Emit σ) {x : Scan σ} (h : x.pb.Sized)
    (hbuf : x.pb.assembling = true → x.pb.linelen ≠ 0 → x.pb.prbuf.isSome = true) :
    ∃ rc x', fragment emit x = some (rc, x') ∧ x'.blk = x.blk ∧ x'.taken = x.taken ∧
      (∀ b ∈ x'.pb.prbuf, b.length = x'.pb.blksize + 4) ∧ x'.view.handed = x.view.givenUp.handed := by
  by_cases hline : (x.pb.assembling && x.pb.linelen != 0) = true
  · obtain ⟨hopen, hlen⟩ : x.pb.assembling = true ∧ x.pb.linelen ≠ 0 := by simpa using hline
    obtain ⟨buf, hprbuf⟩ := Option.isSome_iff_exists.mp (hbuf hopen hlen)
    have hsize := h.buf buf hprbuf
    have hfits := h.line hopen
    have htotal := h.total hopen
    obtain ⟨rc, s, buf', hbuf', hemit⟩ :=
      emitBuf_spec emit { x with pb := { x.pb with lines := x.pb.lines + 1, cc := x.pb.spancc } } hprbuf
        (by dsimp only; omega)
    refine ⟨rc, _, (if_pos hline).trans hemit, rfl, rfl, ?_, ?_⟩
    · intro b hb
      obtain rfl : buf' = b := Option.some.inj hb
      exact hbuf'.trans hsize
    · have hne : (buf.take x.pb.linelen).isEmpty = false := by
        rw [List.isEmpty_eq_false_iff, ← List.length_pos_iff, List.length_take]
        omega
      have hsome : x.view.held.toList = [buf.take x.pb.linelen] := by
        simp [Scan.view, Jesprb.held, hopen, hprbuf]
      have hgiven : x.view.givenUp.handed = x.view.handed ++ [buf.take x.pb.linelen] := by
        simp only [Assembly.givenUp, hsome, List.filter_cons, hne]
        rfl
      rw [hgiven]
      exact view_handed x .prbuf x.pb.spancc _
  · refine ⟨0, x, if_neg hline, rfl, rfl, h.buf, ?_⟩
    cases hopen : x.pb.assembling
    · simp [Scan.view, Jesprb.held, Assembly.givenUp, hopen]
    · have hzero : x.pb.linelen = 0 := by simpa [hopen] using hline
      simp [Scan.view, Jesprb.held, Assembly.givenUp, hopen, hzero]

/-- What `giveup()` leaves: no open line, and what there was of it is out. -/
theorem giveup_spec (emit : Emit σ) (reason : Reason) {x : Scan σ} (h : x.pb.Sized)
    (hbuf : x.pb.assembling = true → x.pb.linelen ≠ 0 → x.pb.prbuf.isSome = true) :
    ∃ rc x', giveup emit reason x = some (rc, x') ∧ (rc = 0 ∨ rc = -1) ∧ x'.blk = x.blk ∧ x'.pb.Ok ∧
      x'.view = x.view.givenUp ∧ x'.pb.assembling = false := by
  obtain ⟨rc, x', hfrag, hblk, htaken, hsize, hhanded⟩ := fragment_spec emit h hbuf
  have hclosed : ∀ pb : Jesprb, pb.prbuf = x'.pb.prbuf → pb.blksize = x'.pb.blksize → pb.assembling = false →
      pb.Ok ∧ ({ x' with pb } : Scan σ).view = x.view.givenUp := by
    intro pb hprbuf hblksize hopen
    refine ⟨⟨⟨?_, by simp [hopen], by simp [hopen]⟩, by simp [hopen]⟩, ?_⟩
    · rw [hprbuf, hblksize]
      exact hsize
    · have hheld : pb.held = none := by simp [Jesprb.held, hopen]
      rw [Scan.view, hheld, htaken, Assembly.givenUp, Assembly.mk.injEq]
      exact ⟨rfl, hhanded, rfl⟩
  by_cases hrc : rc < 0
  · obtain ⟨pb, hpb⟩ : ∃ pb : Jesprb, pb =
        { x'.pb with linelen := 0, assembling := false, reason := .stopped, prtrc := rc } := ⟨_, rfl⟩
    obtain ⟨hok, hview⟩ := hclosed pb (by rw [hpb]) (by rw [hpb]) (by rw [hpb])
    refine ⟨-1, { x' with pb }, ?_, .inr rfl, hblk, hok, hview, by rw [hpb]⟩
    simp only [giveup, hfrag, Option.bind_eq_bind, Option.bind_some, if_pos hrc, hpb]
    rfl
  · obtain ⟨pb, hpb⟩ : ∃ pb : Jesprb, pb = { x'.pb with linelen := 0, assembling := false, reason } := ⟨_, rfl⟩
    obtain ⟨hok, hview⟩ := hclosed pb (by rw [hpb]) (by rw [hpb]) (by rw [hpb])
    refine ⟨0, { x' with pb }, ?_, .inl rfl, hblk, hok, hview, by rw [hpb]⟩
    simp only [giveup, hfrag, Option.bind_eq_bind, Option.bind_some, if_neg hrc, hpb]
    rfl

/-! ### Parts of lines -/

/-- A part is taken in, and the line goes on or is complete. -/
def Grows (first : Bool) (a a' : Assembly UInt8) : Prop :=
  ∃ data held, a.held = some held ∧
    (a' = a.took ⟨first, data⟩ held ∨ a' = (a.took ⟨first, data⟩ held).completed)

/-- What a part does: it is taken in, or the line is given up. -/
inductive PartDoes (x : Scan σ) (first : Bool) : Loop.Turn (Scan σ) (Int × Scan σ) → Prop
  | again {x' : Scan σ} (blk : x'.blk = x.blk) (p : x.p + 4 ≤ x'.p) (ok : x'.pb.Ok)
      (grows : Grows first x.view x'.view) :
    PartDoes x first (.again x')
  | leave {rc : Int} {x' : Scan σ} (blk : x'.blk = x.blk) (ok : x'.pb.Ok) (ends : rc = 0 ∨ rc = -1)
    (view : x'.endView rc = x.view.givenUp ∨ Grows first x.view (x'.endView rc)) : PartDoes x first (.leave (rc, x'))

theorem giveup_does (emit : Emit σ) (reason : Reason) (first : Bool) {x : Scan σ} (h : x.pb.Sized)
    (hbuf : x.pb.assembling = true → x.pb.linelen ≠ 0 → x.pb.prbuf.isSome = true) :
    ∃ t, Loop.Turn.leave <$> giveup emit reason x = some t ∧ PartDoes x first t := by
  obtain ⟨rc, x', hrun, hrc, hblk, hok, hview, hclosed⟩ := giveup_spec emit reason h hbuf
  exact ⟨.leave (rc, x'), by rw [hrun]; rfl, .leave hblk hok hrc (.inl ((endView_closed rc hclosed).trans hview))⟩

/-- The LAST part: the line is complete, also when the callback stops the walk at it. -/
theorem lastPart_spec (emit : Emit σ) (next : Nat) {x : Scan σ} (h : x.pb.Ok) (hopen : x.pb.assembling = true) :
    ∃ x', x'.blk = x.blk ∧ x'.pb.Ok ∧
      (lastPart emit next x = some (.again x') ∧ x'.p = next ∧ x'.view = x.view.completed ∨
        lastPart emit next x = some (.leave (-1, x')) ∧ x'.endView (-1) = x.view.completed) := by
  obtain ⟨buf, hprbuf⟩ := Option.isSome_iff_exists.mp (h.has hopen)
  have hsize := h.buf buf hprbuf
  have hline := h.line hopen
  have htotal := h.total hopen
  obtain ⟨rc, s, buf', hbuf', hemit⟩ := emitBuf_spec emit
    { x with pb := { x.pb with
        lines := if x.pb.linelen ≠ 0 then x.pb.lines + 1 else x.pb.lines, cc := x.pb.spancc } } hprbuf
    (by dsimp only; omega)
  have hheld : x.view.held = some (buf.take x.pb.linelen) := by
    rw [Scan.view, Jesprb.held, if_pos hopen, hprbuf, Option.getD_some]
  have hcompleted : x.view.completed =
      ⟨x.taken, x.view.handed ++ [buf.take x.pb.linelen], none⟩ := by
    rw [Assembly.completed, hheld]
    rfl
  have hsized : ∀ b ∈ some buf', b.length = x.pb.blksize + 4 := by
    intro b hb
    obtain rfl : buf' = b := Option.some.inj hb
    omega
  have hhanded := view_handed x .prbuf x.pb.spancc (buf.take x.pb.linelen)
  rw [if_pos rfl] at hhanded
  by_cases hrc : rc < 0
  · refine ⟨_, ?_, ?_, .inr ⟨by simp only [lastPart, hemit, Option.bind_eq_bind, Option.bind_some, if_pos hrc]; rfl,
      ?_⟩⟩
    · rfl
    · exact ⟨⟨hsized, fun _ => hline, fun _ => htotal⟩, fun _ => rfl⟩
    · rw [hcompleted, Scan.endView, if_pos ⟨by decide, by simp⟩, Assembly.dropped, Assembly.mk.injEq]
      exact ⟨rfl, hhanded, rfl⟩
  · refine ⟨_, ?_, ?_, .inl ⟨by simp only [lastPart, hemit, Option.bind_eq_bind, Option.bind_some, if_neg hrc]; rfl,
      rfl,
      ?_⟩⟩
    · rfl
    · exact ⟨⟨hsized, by simp, by simp⟩, by simp⟩
    · rw [hcompleted, Scan.view, Assembly.mk.injEq]
      exact ⟨rfl, hhanded, by simp [Jesprb.held]⟩

/-- A part that fits is taken in. -/
theorem takePart_does (emit : Emit σ) (flags : UInt8) {d len2 : Nat} {x : Scan σ} (h : x.pb.Sized)
    (hopen : x.pb.assembling = true) (hhas : x.pb.prbuf.isSome = true) (hd : x.p + 4 ≤ d)
    (hdata : d + len2 ≤ x.blk.length) (hfits : x.pb.linelen + len2 ≤ x.pb.total) :
    ∃ t, takePart emit flags d len2 x = some t ∧ PartDoes x (flags &&& 0x08 != 0) t := by
  obtain ⟨buf, hprbuf⟩ := Option.isSome_iff_exists.mp hhas
  have hsize := h.buf buf hprbuf
  have htotal := h.total hopen
  have hlen : (window x.blk d len2).length = len2 := window_length hdata
  have hroom : x.pb.linelen + (window x.blk d len2).length ≤ buf.length := by omega
  have hplen := patch_length hroom
  have htake := take_patch_self hroom
  rw [hlen] at htake
  have hheld : x.view.held = some (buf.take x.pb.linelen) := by
    rw [Scan.view, Jesprb.held, if_pos hopen, hprbuf, Option.getD_some]
  obtain ⟨x₁, hx₁⟩ : ∃ x₁ : Scan σ, x₁ = { x with
      pb := { x.pb with
        prbuf := some (patch buf x.pb.linelen (window x.blk d len2)), linelen := x.pb.linelen + len2 }
      taken := x.taken ++ [⟨flags &&& 0x08 != 0, window x.blk d len2⟩] } := ⟨_, rfl⟩
  have hopen₁ : x₁.pb.assembling = true := by rw [hx₁]; exact hopen
  have hok₁ : x₁.pb.Ok := by
    rw [hx₁]
    refine ⟨⟨?_, fun _ => hfits, fun _ => htotal⟩, fun _ => rfl⟩
    intro b hb
    obtain rfl : patch buf x.pb.linelen (window x.blk d len2) = b := Option.some.inj hb
    exact hplen.trans hsize
  have hview₁ : x₁.view = x.view.took ⟨flags &&& 0x08 != 0, window x.blk d len2⟩ (buf.take x.pb.linelen) := by
    have hheld₁ : x₁.pb.held = some (buf.take x.pb.linelen ++ window x.blk d len2) := by
      rw [Jesprb.held, if_pos hopen₁, hx₁, ← htake]
      rfl
    rw [Scan.view, hheld₁, hx₁]
    rfl
  have hrun : takePart emit flags d len2 x =
      if flags &&& 0x02 ≠ 0 then lastPart emit (d + len2) x₁ else some (.again { x₁ with p := d + len2 }) := by
    simp only [takePart, read_eq hdata, hprbuf, write_eq hroom, Option.bind_eq_bind, Option.bind_some, hx₁]
    rfl
  have hblk₁ : x₁.blk = x.blk := by rw [hx₁]
  rw [hrun]
  split
  · obtain ⟨x', hblk, hok, ⟨hlast, hp, hview⟩ | ⟨hlast, hview⟩⟩ := lastPart_spec emit (d + len2) hok₁ hopen₁
    · rw [hview₁] at hview
      exact ⟨_, hlast, .again (hblk.trans hblk₁) (by omega) hok ⟨_, _, hheld, .inr hview⟩⟩
    · rw [hview₁] at hview
      exact ⟨_, hlast, .leave (hblk.trans hblk₁) hok (.inr rfl) (.inr ⟨_, _, hheld, .inr hview⟩)⟩
  · exact ⟨_, rfl, .again hblk₁ (by dsimp only; omega) hok₁ ⟨_, _, hheld, .inl hview₁⟩⟩

theorem spanPart_does (emit : Emit σ) (flags : UInt8) {d : Nat} {x : Scan σ} (h : x.pb.Sized)
    (hbuf : x.pb.assembling = true → x.pb.linelen ≠ 0 → x.pb.prbuf.isSome = true) (hp : x.p + 4 ≤ x.blk.length)
    (hd : x.p + 4 ≤ d) :
    ∃ t, spanPart emit flags d x = some t ∧ PartDoes x (flags &&& 0x08 != 0) t := by
  unfold spanPart
  split
  · exact giveup_does emit .nobuf _ h hbuf
  · next hhas =>
    obtain ⟨hsome, hopen⟩ : ¬ x.pb.prbuf = none ∧ x.pb.assembling = true := by simpa using hhas
    rw [halfword_eq (by omega), Option.bind_eq_bind, Option.bind_some]
    split
    · exact giveup_does emit .trunc _ h hbuf
    · next htrunc =>
      split
      · exact giveup_does emit .nobuf _ h hbuf
      · next htotal =>
        exact takePart_does emit flags h hopen (Option.isSome_iff_ne_none.mpr hsome) hd (by omega) (by omega)

/-! ### Records -/

/-- **What a record does**: the walk goes on behind it, in a block that is ahead as it
was, or ends; the assembly makes a move. -/
inductive Follows (x : Scan σ) : Loop.Turn (Scan σ) (Int × Scan σ) → Prop
  | again {x' : Scan σ} (len : x'.blk.length = x.blk.length) (room : x.p + 3 ≤ x.blk.length) (p : x.p + 3 ≤ x'.p)
    (ahead : x'.blk.drop x'.p = x.blk.drop x'.p) (ok : x'.pb.Ok) (moves : x.view.Moves (opens x) x'.view) :
    Follows x (.again x')
  | leave {rc : Int} {x' : Scan σ} (len : x'.blk.length = x.blk.length) (ok : x'.pb.Ok) (ends : rc = 0 ∨ rc = -1)
    (moves : x.view.Moves (opens x) (x'.endView rc)) : Follows x (.leave (rc, x'))

theorem follows_of_part {x : Scan σ} {t : Loop.Turn (Scan σ) (Int × Scan σ)} (h : PartDoes x false t)
    (hroom : x.p + 3 ≤ x.blk.length) (hopens : opens x = false) : Follows x t := by
  have hgrows : ∀ a', Grows false x.view a' → x.view.Moves (opens x) a' := by
    rintro a' ⟨data, held, hheld, rfl | rfl⟩
    · rw [hopens]
      exact .more data held hheld
    · rw [hopens]
      exact .last data held hheld
  cases h with
  | again blk p ok grows => exact .again (by rw [blk]) hroom (by omega) (by rw [blk]) ok (hgrows _ grows)
  | leave blk ok ends view =>
    refine .leave (by rw [blk]) ok ends ?_
    rcases view with hview | hview
    · rw [hview, hopens]
      exact .giveUp
    · exact hgrows _ hview

/-- A FIRST part: the line it opens takes the place of one that is open. -/
theorem follows_of_first {x x₁ : Scan σ} {t : Loop.Turn (Scan σ) (Int × Scan σ)} (h : PartDoes x₁ true t)
    (hview : x₁.view = { x.view with held := some [] }) (hblk : x₁.blk = x.blk) (hp : x₁.p = x.p)
    (hroom : x.p + 3 ≤ x.blk.length) (hopens : opens x = true) : Follows x t := by
  have hgrows : ∀ a', Grows true x₁.view a' → x.view.Moves (opens x) a' := by
    rintro a' ⟨data, held, hheld, hgrown⟩
    rw [hview] at hheld hgrown
    obtain rfl : [] = held := Option.some.inj hheld
    rw [hopens]
    rcases hgrown with rfl | rfl
    · exact .first data
    · exact .whole data
  cases h with
  | again blk p ok grows =>
    exact .again (by rw [blk, hblk]) hroom (by omega) (by rw [blk, hblk]) ok (hgrows _ grows)
  | leave blk ok ends view =>
    refine .leave (by rw [blk, hblk]) ok ends ?_
    rcases view with hgiven | hgrown
    · have hdropped : x₁.view.givenUp = x.view.dropped := by
        rw [hview]
        simp [Assembly.givenUp, Assembly.dropped]
      rw [hgiven, hdropped, hopens]
      exact .drop
    · exact hgrows _ hgrown

/-- The buffer is there and large enough, or there is none and no line either. -/
theorem grow_spec (calloc : Nat → Bool) (newblock : Nat) {pb : Jesprb} (h : pb.Ok) :
    (∃ pb', grow calloc newblock pb = .ok pb' ∧ newblock ≤ pb'.blksize ∧
        ∀ b ∈ pb'.prbuf, b.length = pb'.blksize + 4) ∨
      ∃ pb', grow calloc newblock pb = .error pb' ∧ pb'.Ok ∧ pb'.assembling = false := by
  unfold grow
  split
  · split
    · refine .inl ⟨_, rfl, le_refl _, ?_⟩
      intro b hb
      obtain rfl : List.replicate (newblock + 4) 0 = b := Option.some.inj hb
      exact List.length_replicate
    · refine .inr ⟨_, rfl, ⟨⟨?_, ?_, ?_⟩, ?_⟩, rfl⟩ <;> simp
  · next hle => exact .inl ⟨pb, rfl, by omega, h.buf⟩

theorem span_follows (emit : Emit σ) (calloc : Nat → Bool) {x : Scan σ} (h : x.pb.Ok)
    (hroom : x.p + 3 ≤ x.blk.length) (hlen : x.blk.getD x.p 0 ≠ 0xFF)
    (hspan : x.blk.getD (x.p + 1) 0 &&& 0x10 ≠ 0) :
    ∃ t, span emit calloc (x.blk.getD (x.p + 1) 0) x = some t ∧ Follows x t := by
  have hbuf : x.pb.assembling = true → x.pb.linelen ≠ 0 → x.pb.prbuf.isSome = true := fun hopen _ => h.has hopen
  have hopens : opens x = (decide (x.p + 4 + 2 ≤ x.blk.length) && x.blk.getD (x.p + 1) 0 &&& 0x08 != 0) := by
    have h₁ : (x.blk.getD x.p 0 != 0xFF) = true := bne_iff_ne.mpr hlen
    have h₂ : (x.blk.getD (x.p + 1) 0 &&& 0x10 != 0) = true := bne_iff_ne.mpr hspan
    rw [opens, h₁, h₂, Bool.and_true, Bool.and_true]
  generalize x.blk.getD (x.p + 1) 0 = flags at hopens ⊢
  unfold span
  split
  · next hshort =>
    obtain ⟨t, ht, hdoes⟩ := giveup_does emit .trunc false h.toSized hbuf
    refine ⟨t, ht, follows_of_part hdoes hroom ?_⟩
    rw [hopens, decide_eq_false (by omega), Bool.false_and]
  · next hheader =>
    split
    · next hfirst =>
      split
      · next hshort =>
        obtain ⟨t, ht, hdoes⟩ := giveup_does emit .trunc false h.toSized hbuf
        refine ⟨t, ht, follows_of_part hdoes hroom ?_⟩
        rw [hopens, decide_eq_false (by omega), Bool.false_and]
      · next hannounced =>
        have hopens' : opens x = true := by
          rw [hopens, decide_eq_true (by omega), Bool.true_and]
          simpa using hfirst
        rw [halfword_eq (by omega), Option.bind_eq_bind, Option.bind_some]
        rcases grow_spec calloc (number (window x.blk (x.p + 4) 2)) h with
          ⟨pb', hgrow, hle, hsize⟩ | ⟨pb', hgrow, hok, hclosed⟩
        · rw [hgrow]
          dsimp only
          obtain ⟨spancc, hcc⟩ := spanCc_eq x.blk flags (x.p + 4 + 2)
          rw [hcc, Option.bind_some]
          obtain ⟨x₁, hx₁⟩ : ∃ x₁ : Scan σ, x₁ = { x with pb := { pb' with
              total := number (window x.blk (x.p + 4) 2), linelen := 0, assembling := true, spancc } } := ⟨_, rfl⟩
          have hsized : x₁.pb.Sized := by
            rw [hx₁]
            exact ⟨hsize, fun _ => Nat.zero_le _, fun _ => hle⟩
          have hview : x₁.view = { x.view with held := some [] } := by
            rw [hx₁]
            simp [Scan.view, Jesprb.held]
          have hp₁ : x₁.p = x.p := by rw [hx₁]
          have hblk₁ : x₁.blk = x.blk := by rw [hx₁]
          have hempty : x₁.pb.assembling = true → x₁.pb.linelen ≠ 0 → x₁.pb.prbuf.isSome = true := by
            rw [hx₁]
            exact fun _ hne => absurd rfl hne
          rw [← hx₁]
          obtain ⟨t, ht, hdoes⟩ := @spanPart_does σ emit flags
            (if flags &&& 0x80 ≠ 0 then x.p + 4 + 2 + 1 else x.p + 4 + 2) x₁ hsized hempty
            (by rw [hp₁, hblk₁]; omega) (by rw [hp₁]; split <;> omega)
          rw [show (flags &&& 0x08 != 0) = true by simpa using hfirst] at hdoes
          exact ⟨t, ht, follows_of_first hdoes hview hblk₁ hp₁ hroom hopens'⟩
        · rw [hgrow]
          have hend := @endView_closed σ { x with pb := pb' } (-1) hclosed
          refine ⟨_, rfl, .leave rfl hok (.inr rfl) ?_⟩
          rw [hend, hopens']
          have hview : ({ x with pb := pb' } : Scan σ).view = x.view.dropped := by
            simp [Scan.view, Jesprb.held, hclosed, Assembly.dropped]
          rw [hview]
          exact .drop
    · next hfirst =>
      obtain ⟨t, ht, hdoes⟩ := spanPart_does emit flags h.toSized hbuf (by omega) (le_refl (x.p + 4))
      have hnot : (flags &&& 0x08 != 0) = false := by simpa using hfirst
      rw [hnot] at hdoes hopens
      rw [Bool.and_false] at hopens
      exact ⟨t, ht, follows_of_part hdoes hroom hopens⟩

/-- A line of the block leaves the parts of other lines alone. -/
theorem plainLine_follows (emit : Emit σ) (len flags : UInt8) {d : Nat} {x : Scan σ} (h : x.pb.Ok)
    (hopens : opens x = false) (hd : x.p + 3 ≤ d) (hin : d + len.toNat ≤ x.blk.length) :
    ∃ t, plainLine emit len flags d x = some t ∧ Follows x t := by
  obtain ⟨cc, hcc⟩ := lineCc_eq flags (show d ≤ x.blk.length by omega) (by omega)
  obtain ⟨pb, hpb⟩ : ∃ pb, pb = { x.pb with cc, lines := if len ≠ 0 then x.pb.lines + 1 else x.pb.lines } := ⟨_, rfl⟩
  obtain ⟨rc, s, line, hline, hemit⟩ := emitBlk_spec emit { x with pb } hin
  obtain ⟨x', hx'⟩ : ∃ x' : Scan σ, x' = { x with
      blk := patch x.blk d line, pb, s, handed := x.handed ++ [⟨.block d, pb.cc, window x.blk d len.toNat⟩] } :=
        ⟨_, rfl⟩
  have hfits : d + line.length ≤ x.blk.length := by omega
  have hok : x'.pb.Ok := by
    rw [hx', hpb]
    exact ⟨⟨h.buf, h.line, h.total⟩, h.has⟩
  have hhanded := view_handed x (.block d) pb.cc (window x.blk d len.toNat)
  rw [if_neg (by simp), List.append_nil] at hhanded
  have hheld : pb.held = x.pb.held := by
    rw [hpb]
    rfl
  have hview : x'.view = x.view := by
    rw [Scan.view, Assembly.mk.injEq, hx']
    exact ⟨rfl, hhanded, hheld⟩
  have hlen : x'.blk.length = x.blk.length := by
    rw [hx']
    exact patch_length hfits
  have hrun : plainLine emit len flags d x = if rc < 0 then
        some (.leave (-1, { x' with pb := { x'.pb with reason := .stopped, prtrc := rc } }))
      else some (.again { x' with p := d + len.toNat }) := by
    simp only [plainLine, hcc, Option.bind_eq_bind, Option.bind_some, ← hpb, hemit, hx']
    rfl
  rw [hrun]
  split
  · refine ⟨_, rfl, .leave hlen ⟨⟨hok.buf, hok.line, hok.total⟩, hok.has⟩ (.inr rfl) ?_⟩
    have hnot : ¬ Scan.StoppedAtLine (-1) { x' with pb := { x'.pb with reason := .stopped, prtrc := rc } } := by
      simp [Scan.StoppedAtLine, hx']
    rw [Scan.endView, if_neg hnot, hopens]
    show x.view.Moves false x'.view
    rw [hview]
    exact .stay
  · refine ⟨_, rfl, .again hlen (by omega) (by dsimp only; omega) ?_ hok ?_⟩
    · rw [hx']
      exact drop_patch hfits (by rw [hline])
    · rw [hopens]
      show x.view.Moves false x'.view
      rw [hview]
      exact .stay

theorem plain_follows (emit : Emit σ) (len : UInt8) {x : Scan σ} (h : x.pb.Ok) (hroom : x.p + 3 ≤ x.blk.length)
    (hspan : ¬ x.blk.getD (x.p + 1) 0 &&& 0x10 ≠ 0) :
    ∃ t, plain emit len (x.blk.getD (x.p + 1) 0) x = some t ∧ Follows x t := by
  have hopens : opens x = false := by
    have h₁ : (x.blk.getD (x.p + 1) 0 &&& 0x10 != 0) = false := by simpa using hspan
    rw [opens, h₁, Bool.and_false, Bool.false_and]
  generalize x.blk.getD (x.p + 1) 0 = flags
  obtain ⟨d, hd⟩ : ∃ d, d = if flags &&& 0x80 ≠ 0 then x.p + 3 + 1 else x.p + 3 := ⟨_, rfl⟩
  have hdp : x.p + 3 ≤ d := by
    rw [hd]
    split <;> omega
  have hrun : plain emit len flags x = if x.blk.length < d + len.toNat then .leave <$> giveup emit .trunc x
      else plainLine emit len flags d x := by
    rw [hd]
    rfl
  rw [hrun]
  split
  · have hbuf : x.pb.assembling = true → x.pb.linelen ≠ 0 → x.pb.prbuf.isSome = true := fun hopen _ => h.has hopen
    obtain ⟨t, ht, hdoes⟩ := giveup_does emit .trunc false h.toSized hbuf
    exact ⟨t, ht, follows_of_part hdoes hroom hopens⟩
  · exact plainLine_follows emit len flags h hopens hdp (by omega)

/-- What a record, or the end of the block, does to a walk. -/
theorem record_follows (emit : Emit σ) (calloc : Nat → Bool) {x : Scan σ} (h : x.pb.Ok) :
    ∃ t, record emit calloc x = some t ∧ Follows x t := by
  have hend : opens x = false → Follows x (.leave (0, x)) := by
    intro hopens
    refine .leave rfl h (.inl rfl) ?_
    rw [endView_zero, hopens]
    exact .stay
  unfold record
  split
  · next hshort =>
    refine ⟨_, rfl, hend ?_⟩
    rw [opens, decide_eq_false (by omega), Bool.false_and, Bool.false_and, Bool.false_and]
  · next hheader =>
    rw [getElem?_eq (by omega), getElem?_eq (by omega), Option.bind_eq_bind, Option.bind_some]
    split
    · next heob =>
      refine ⟨_, rfl, hend ?_⟩
      have h₁ : (x.blk.getD x.p 0 != 0xFF) = false := by simpa using heob
      rw [opens, h₁, Bool.and_false, Bool.false_and, Bool.false_and]
    · next heob =>
      rw [Option.bind_some]
      split
      · next hspan => exact span_follows emit calloc h (by omega) heob hspan
      · next hspan => exact plain_follows emit _ h (by omega) hspan

end Libc370.Jes2
