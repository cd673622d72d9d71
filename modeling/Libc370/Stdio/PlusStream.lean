import Libc370.Lib.Machine
import Libc370.Stdio.ByteFile

/-! A `+` stream is the byte file it is opened on.

`Views` relates the stream to the file. A reading stream (`Holding`) has the data set in three
parts: the records behind it, the one in the buffer, and those still to come; the one in the
buffer may be changed and not yet written back. A writing one (`Building`) has the record
under construction in the buffer. Each turn of the DCB closes and opens the data set, and the
stream finds its place again by reading from the start. -/
namespace Libc370.Stdio
open ByteFile (closing patch patchAt)

/-- A record that reads back with all its bytes: no empty one in a binary stream, and none
that ends in X'00' in a text stream. -/
structure Sound (a : Attr) (bin : Bool) (data : Bytes) : Prop where
  fits : a.Fits data
  binary : bin = true → data ≠ []
  text : bin = false → stripNul data = data

/-- A stream open for reading and writing whose writes and CLOSE all go well. -/
structure Plus (a : Attr) (bin app : Bool) (fp : File) : Prop where
  opened : fp.opened = true
  read : fp.read = true
  write : fp.write = true
  record : fp.record = false
  member : fp.member = false
  binary : fp.binary = bin
  append : fp.append = app
  extend : fp.extend = true
  attr : fp.dcb.attr = a
  error : fp.error = false
  enospc : fp.enospc = false
  ungetch : fp.ungetch = -1
  rcs : fp.dcb.rcs = []
  closeRc : fp.dcb.closeRc = 0

/-- A stream that reads: `before` is behind it, `held` in its buffer, `after` still to come. -/
structure Holding (a : Attr) (bin app : Bool) (before : List Bytes) (held : Option Bytes) (after : List Bytes)
    (pos : Nat) (fp : File) : Prop extends Plus a bin app fp where
  dcbOut : fp.dcbOut = false
  updat : fp.updat = !app
  mode : app = false → fp.dcb.mode = .updat
  next : fp.dcb.next = (before ++ held.toList).length
  /-- The record in the buffer goes back in its place. -/
  recs : ∃ old : Option Bytes, fp.dcb.recs = before ++ old.toList ++ after ∧
    old.map List.length = held.map List.length ∧ (fp.dirty = false → old = held)
  dirty : fp.dirty = true → app = false ∧ held.isSome
  start : held = none → before = []
  room : fp.buf.length = a.cap + 8
  endbuf : fp.endbuf = (byteView bin held.toList).length
  buf : fp.buf.take fp.endbuf = byteView bin held.toList
  upto : fp.upto ≤ fp.endbuf
  filepos : fp.filepos = pos
  place : pos = (byteView bin before).length + fp.upto
  eof : fp.eof = true → pos = (byteView bin (before ++ held.toList ++ after)).length

/-- A stream at byte `pos` of the view of `recs`, reading. -/
def Reads (a : Attr) (bin app : Bool) (recs : List Bytes) (pos : Nat) (fp : File) : Prop :=
  ∃ before held after, recs = before ++ held.toList ++ after ∧ Holding a bin app before held after pos fp

/-- A stream that writes: the data set holds `recs`, the buffer `piece`. -/
structure Building (a : Attr) (bin app : Bool) (recs : List Bytes) (piece : Bytes) (pos : Nat) (fp : File) : Prop
    extends Plus a bin app fp where
  filling : Filling a bin piece fp
  recs : fp.dcb.recs = recs
  filepos : fp.filepos = pos
  text : bin = false → ∀ b ∈ piece, b ≠ 0
  eof : fp.eof = false

variable {a : Attr} {bin app : Bool}

/-! ### Records -/

theorem Sound.view_length {data : Bytes} (h : Sound a bin data) :
    (recordView bin data).length = data.length + if bin then 0 else 1 := by
  cases bin with
  | true => rfl
  | false => simp [recordView, h.text rfl]

theorem Sound.view {data : Bytes} (h : Sound a bin data) :
    recordView bin data = if bin then data else data ++ [newline] := by
  cases bin with
  | true => rfl
  | false => simp [recordView, h.text rfl]

theorem Sound.view_pos {data : Bytes} (h : Sound a bin data) : 0 < (recordView bin data).length :=
  recordView_pos h.binary

/-- What is put back over a record of its length is what was put. -/
theorem overlay_same {old new : Bytes} (h : new.length = old.length) : overlay old new = new := by
  simp [overlay, h]

theorem byteView_length_le (bin : Bool) (recs : List Bytes) :
    (byteView bin recs).length ≤ (recs.map (·.length + 1)).sum := by
  induction recs with
  | nil => exact Nat.le_refl _
  | cons data recs ih =>
    have := recordView_length_le bin data
    rw [byteView_cons, List.length_append, List.map_cons, List.sum_cons]
    omega

theorem modify_middle (before after : List Bytes) (old : Bytes) (f : Bytes → Bytes) :
    (before ++ old :: after).modify before.length f = before ++ f old :: after := by
  induction before with
  | nil => rfl
  | cons r before ih => exact congrArg (r :: ·) ih

/-- The data control block after an in-place write that leaves `recs`. -/
def Dcb.rewrote (d : Dcb) (recs : List Bytes) (out : Bytes) : Dcb :=
  {d with recs := recs, rcs := [], calls := d.calls ++ [(out, 0)]}

theorem awrite_back {d : Dcb} (hrcs : d.rcs = []) (hmode : d.mode = .updat) (out : Bytes) :
    d.awrite out = (0, d.rewrote (d.recs.modify (d.next - 1) (fun old => d.attr.rewritten old out)) out) := by
  simp [Dcb.awrite, Dcb.rewrote, hrcs, hmode]

/-- The buffer `updrec()` hands over for a record of `data`. -/
def replaced (a : Attr) (bin : Bool) (data : Bytes) : Bytes :=
  match a.recfm with
  | .F => data ++ List.replicate (a.lrecl - data.length) (fillByte bin)
  | .V => rdw (data.length + 4) ++ data
  | .U => data

theorem Sound.rewritten {data old : Bytes} (h : Sound a bin data) (hlen : data.length = old.length) :
    a.rewritten old (replaced a bin data) = data := by
  have hfits := h.fits
  rw [Attr.rewritten, replaced]
  cases hr : a.recfm with
  | F =>
    simp only [Attr.Fits, hr] at hfits
    simpa [hfits] using overlay_same hlen
  | V => simpa [rdw] using overlay_same hlen
  | U => exact overlay_same hlen

/-! ### A stream that reads -/

namespace Holding
variable {before after : List Bytes} {held : Option Bytes} {pos : Nat} {fp : File}

/-- `updrec()` hands over the bytes of the record in the buffer. -/
theorem updrec_data {data : Bytes} (h : Holding a bin app before (some data) after pos fp) (hs : Sound a bin data) :
    (if !fp.binary && 0 < fp.endbuf then fp.endbuf - 1 else fp.endbuf) = data.length ∧
      fp.buf.take data.length = data := by
  have hbuf := h.buf
  have hend := h.endbuf
  have hlen := hs.view_length
  simp only [Option.toList_some, byteView_cons, byteView_nil, List.append_nil] at hbuf hend
  rw [hs.view] at hbuf
  rw [h.binary]
  cases bin with
  | true =>
    simp only [if_true, Nat.add_zero] at hlen hbuf
    rw [hend, hlen] at hbuf
    exact ⟨by simp [hend, hlen], hbuf⟩
  | false =>
    simp only [Bool.false_eq_true, if_false] at hlen hbuf
    have htake := congrArg (List.take data.length) hbuf
    rw [List.take_take, hend, hlen, Nat.min_eq_left (by omega), List.take_left] at htake
    exact ⟨by simp [hend, hlen], htake⟩

/-- The record in the buffer goes back over the one it was read from. -/
theorem fflush (h : Holding a bin app before held after pos fp)
    (hs : ∀ data ∈ before ++ held.toList ++ after, Sound a bin data) :
    ∃ dcb, fp.fflush = (0, (fp.withDcb dcb).clean) ∧
      Holding a bin app before held after pos (fp.withDcb dcb).clean ∧
      dcb.recs = before ++ held.toList ++ after := by
  obtain ⟨old, hrecs, hlen, hclean⟩ := h.recs
  by_cases hd : fp.dirty = true
  · obtain ⟨happ, hheld⟩ := h.dirty hd
    obtain ⟨data, rfl⟩ := Option.isSome_iff_exists.mp hheld
    obtain ⟨old, rfl⟩ : ∃ r, old = some r := by
      cases old with
      | none => cases hlen
      | some r => exact ⟨r, rfl⟩
    have hsound : Sound a bin data := hs data (by simp)
    obtain ⟨hlast, hdata⟩ := h.updrec_data hsound
    have hsame : data.length = old.length := by simpa using hlen.symm
    have hwrite := awrite_back h.rcs (h.mode happ) (replaced a bin data)
    rw [hrecs, h.next, h.attr] at hwrite
    simp only [Option.toList_some, List.length_append, List.length_singleton, Nat.add_sub_cancel,
      List.append_assoc, List.singleton_append, modify_middle, hsound.rewritten hsame] at hwrite
    refine ⟨fp.dcb.rewrote (before ++ data :: after) (replaced a bin data), ?_, ?_, by simp [Dcb.rewrote]⟩
    · have hfill : fp.fill = fillByte bin := by rw [File.fill, h.binary]; rfl
      have hattr : fp.attr = a := h.attr
      have hupdrec : fp.fflush = fp.updrec := by simp [File.fflush, File.flushrec, hd, h.error]
      have hout : fp.clean.finwrite (replaced a bin data) =
          (0, (fp.withDcb (fp.dcb.rewrote (before ++ data :: after) (replaced a bin data))).clean) := by
        rw [File.finwrite, show fp.clean.dcb = fp.dcb from rfl, hwrite]
        rfl
      have hrun : fp.updrec = ((fp.clean.finwrite (replaced a bin data)).1,
          if (fp.clean.finwrite (replaced a bin data)).1 ≠ 0 then
            (fp.clean.finwrite (replaced a bin data)).2.failed (fp.clean.finwrite (replaced a bin data)).1
          else (fp.clean.finwrite (replaced a bin data)).2) := by
        rw [File.updrec, hlast, hdata, hfill, hattr]
        rfl
      rw [hupdrec, hrun, hout]
      rfl
    · exact ⟨⟨h.opened, h.read, h.write, h.record, h.member, h.binary, h.append, h.extend, h.attr, h.error, h.enospc,
        h.ungetch, rfl, h.closeRc⟩, h.dcbOut, h.updat, h.mode, h.next,
        ⟨some data, by simp [File.withDcb, File.clean, Dcb.rewrote], rfl, fun _ => rfl⟩,
        fun hc => absurd hc Bool.false_ne_true, h.start, h.room, h.endbuf, h.buf, h.upto, h.filepos, h.place, h.eof⟩
  · have hd : fp.dirty = false := by simpa using hd
    have hsame : (fp.withDcb fp.dcb).clean = fp := by
      rw [File.withDcb_dcb, File.clean, ← hd]
    refine ⟨fp.dcb, ?_, ?_, ?_⟩
    · rw [hsame]
      simp only [File.fflush, File.flushrec, hd, h.record, h.dcbOut, Bool.false_eq_true, if_false, Bool.not_false,
        if_true]
    · rw [hsame]
      exact h
    · rw [hrecs, hclean hd]

/-- The flush of a reading stream does not look at the position. -/
theorem fflush_withFilepos (h : Holding a bin app before held after pos fp) (n : Nat) :
    (fp.withFilepos n).fflush = (fp.fflush.1, fp.fflush.2.withFilepos n) := by
  have hdcb : (fp.withFilepos n).dcbOut = false := h.dcbOut
  have herr : (fp.withFilepos n).error = false := h.error
  unfold File.fflush File.flushrec
  rw [hdcb, herr, h.dcbOut, h.error]
  by_cases hd : fp.dirty = true
  · have hd' : (fp.withFilepos n).dirty = true := hd
    have hmoved (r : Nat × File) : (r.1, if r.1 ≠ 0 then (r.2.withFilepos n).failed r.1 else r.2.withFilepos n) =
        (r.1, (if r.1 ≠ 0 then r.2.failed r.1 else r.2).withFilepos n) := by
      split <;> rfl
    simp only [hd, hd', if_true, Bool.false_eq_true, if_false]
    exact hmoved (fp.clean.finwrite _)
  · have hd' : ¬ (fp.withFilepos n).dirty = true := hd
    simp [hd, hd', h.record]

theorem fflush_dirty (h : Holding a bin app before held after pos fp) :
    (if fp.dirty then fp.fflush else (0, fp)) = fp.fflush := by
  by_cases hd : fp.dirty = true
  · simp [hd]
  · simp [hd, File.fflush, File.flushrec, h.record, h.dcbOut]

/-- The next record comes into the buffer, and the place does not move. -/
theorem load {data : Bytes} (h : Holding a bin app before held (data :: after) pos fp)
    (hclean : fp.dcb.recs = before ++ held.toList ++ data :: after) (hd : fp.dirty = false)
    (hu : fp.upto = fp.endbuf) (hs : Sound a bin data) :
    Holding a bin app (before ++ held.toList) (some data) after pos ((fp.withDcb fp.dcb.passed).load data) := by
  have hfits := hs.fits.length_le
  have hend := File.load_endbuf (fp.withDcb fp.dcb.passed) data
  obtain ⟨hbuf, hroom⟩ := File.load_buf (fp.withDcb fp.dcb.passed) data
    (by show _ < fp.buf.length; rw [h.room]; omega)
  rw [show (fp.withDcb fp.dcb.passed).binary = bin from h.binary] at hbuf hend
  refine ⟨⟨h.opened, h.read, h.write, h.record, h.member, h.binary, h.append, h.extend, h.attr, h.error, h.enospc,
    h.ungetch, h.rcs, h.closeRc⟩, h.dcbOut, h.updat, h.mode, ?_, ⟨some data, ?_, rfl, fun _ => rfl⟩, ?_, ?_,
    hroom.trans h.room, ?_, ?_, Nat.zero_le _, h.filepos, ?_, ?_⟩
  · show fp.dcb.next + 1 = _
    rw [h.next]
    simp [Nat.add_assoc]
  · show fp.dcb.recs = _
    rw [hclean]
    simp
  · intro hc
    exact absurd (hd.symm.trans hc) Bool.false_ne_true
  · exact fun hc => absurd hc (by simp)
  · rw [hend]
    simp
  · rw [hbuf]
    simp
  · show pos = _ + 0
    rw [h.place, hu, h.endbuf, byteView_append, List.length_append, Nat.add_zero]
  · intro hc
    rw [h.eof hc]
    simp

theorem endbuf_le (h : Holding a bin app before held after pos fp) : fp.endbuf ≤ fp.buf.length := by
  have hlen := congrArg List.length h.buf
  rw [List.length_take, ← h.endbuf] at hlen
  omega

/-- The byte the buffer is at is the view's. -/
theorem byte_at (h : Holding a bin app before held after pos fp) (hu : fp.upto < fp.endbuf) :
    (byteView bin (before ++ held.toList ++ after))[pos]? = some (fp.buf.getD fp.upto 0) := by
  have hbuf := h.endbuf_le
  have htake : fp.upto < (fp.buf.take fp.endbuf).length := by rw [List.length_take]; omega
  rw [byteView_append, byteView_append, ← h.buf, List.append_assoc, h.place,
    List.getElem?_append_right (Nat.le_add_right ..), Nat.add_sub_cancel_left, List.getElem?_append_left htake,
    List.getElem?_take_of_lt hu, List.getElem?_eq_getElem (by omega), List.getD_eq_getElem _ _ (by omega)]

/-- The view is at least as long as what is in front of the buffer's end. -/
theorem size_eq (h : Holding a bin app before held after pos fp) :
    (byteView bin (before ++ held.toList ++ after)).length =
      pos + (fp.endbuf - fp.upto) + (byteView bin after).length := by
  have hplace := h.place
  have hupto := h.upto
  rw [byteView_append, byteView_append, List.length_append, List.length_append, ← h.endbuf]
  omega

/-- The end-of-file indicator, the end still to be counted and the errno are not part of the place. -/
theorem of_same (h : Holding a bin app before held after pos fp) {fp' : File}
    (hd : fp' = {fp with eof := fp'.eof, posEnd := fp'.posEnd, errno := fp'.errno})
    (he : fp'.eof = true → pos = (byteView bin (before ++ held.toList ++ after)).length) :
    Holding a bin app before held after pos fp' := by
  rw [hd]
  exact ⟨⟨h.opened, h.read, h.write, h.record, h.member, h.binary, h.append, h.extend, h.attr, h.error, h.enospc,
    h.ungetch, h.rcs, h.closeRc⟩, h.dcbOut, h.updat, h.mode, h.next, h.recs, h.dirty, h.start, h.room, h.endbuf,
    h.buf, h.upto, h.filepos, h.place, he⟩

/-- Inside the buffer `upto` and the position move alike. -/
theorem moved (h : Holding a bin app before held after pos fp) (he : fp.eof = false) (target : Nat)
    (hlo : pos ≤ target + fp.upto) (hhi : target < pos) :
    Holding a bin app before held after target
      ((fp.withUpto (fp.upto - (pos - target))).withFilepos target) := by
  have hplace := h.place
  have hupto := h.upto
  refine ⟨⟨h.opened, h.read, h.write, h.record, h.member, h.binary, h.append, h.extend, h.attr, h.error, h.enospc,
    h.ungetch, h.rcs, h.closeRc⟩, h.dcbOut, h.updat, h.mode, h.next, h.recs, h.dirty, h.start, h.room, h.endbuf,
    h.buf, ?_, rfl, ?_, fun hc => absurd (he.symm.trans hc) Bool.false_ne_true⟩
  · show fp.upto - (pos - target) ≤ fp.endbuf
    omega
  · show target = (byteView bin before).length + (fp.upto - (pos - target))
    omega

/-- One byte out of the buffer. -/
theorem dogetc (h : Holding a bin app before held after pos fp) (hu : fp.upto < fp.endbuf)
    (hlong : pos + 1 < wordSize) :
    Holding a bin app before held after (pos + 1) fp.dogetc.2 := by
  have hsize := h.size_eq
  have hfilepos : fp.dogetc.2.filepos = pos + 1 := by
    show (fp.filepos + 1) % wordSize = _
    rw [h.filepos, Nat.mod_eq_of_lt hlong]
  exact ⟨⟨h.opened, h.read, h.write, h.record, h.member, h.binary, h.append, h.extend, h.attr, h.error, h.enospc,
    h.ungetch, h.rcs, h.closeRc⟩, h.dcbOut, h.updat, h.mode, h.next, h.recs, h.dirty, h.start, h.room, h.endbuf,
    h.buf, hu, hfilepos, congrArg (· + 1) h.place, fun hc => absurd (h.eof hc) (by omega)⟩

end Holding

/-- `__fgetc()` has taken the byte at `pos`. -/
structure GotByte (a : Attr) (bin app : Bool) (recs : List Bytes) (pos : Nat) (fp fp' : File) : Prop where
  reads : Reads a bin app recs (pos + 1) fp'
  eof : fp'.eof = false
  posEnd : fp'.posEnd = fp.posEnd
  upto : 0 < fp'.upto

/-- `__fgetc()` has met the end. -/
structure Ended (a : Attr) (bin app : Bool) (recs : List Bytes) (pos : Nat) (fp fp' : File) : Prop where
  reads : Reads a bin app recs pos fp'
  eof : fp'.eof = true
  posEnd : fp'.posEnd = fp.posEnd

namespace Reads
variable {recs : List Bytes} {pos : Nat} {fp : File}

theorem fgetc_reading (h : Reads a bin app recs pos fp) : fp.fgetc = fp.fgetcReading := by
  obtain ⟨before, held, after, rfl, h⟩ := h
  simp [File.fgetc, h.read, h.error, h.dcbOut]

theorem fgetcReading (h : Reads a bin app recs pos fp) (hs : ∀ data ∈ recs, Sound a bin data)
    (hlong : (byteView bin recs).length < wordSize) :
    (∃ b, (byteView bin recs)[pos]? = some b ∧ fp.fgetcReading.1 = b.toNat ∧
        GotByte a bin app recs pos fp fp.fgetcReading.2) ∨
      ((byteView bin recs).length = pos ∧ fp.fgetcReading.1 = EOF ∧ Ended a bin app recs pos fp fp.fgetcReading.2) := by
  obtain ⟨before, held, after, rfl, h⟩ := h
  have hsize := h.size_eq
  unfold File.fgetcReading
  simp only [h.read, h.error, h.record, h.ungetch, Bool.not_true, Bool.false_eq_true, if_false, ne_eq,
    not_true_eq_false]
  by_cases he : fp.eof = true
  · rw [if_pos he]
    exact .inr ⟨(h.eof he).symm, rfl, ⟨_, _, _, rfl, h⟩, he, rfl⟩
  rw [if_neg he]
  have he : fp.eof = false := by simpa using he
  by_cases hu : fp.upto < fp.endbuf
  · rw [if_pos hu]
    exact .inl ⟨_, h.byte_at hu, rfl, ⟨_, _, _, rfl, h.dogetc hu (by omega)⟩, he, rfl, Nat.succ_pos _⟩
  have hu : fp.upto = fp.endbuf := Nat.le_antisymm h.upto (not_lt.mp hu)
  rw [if_neg (by omega), h.fflush_dirty]
  obtain ⟨dcb, hflush, hclean, hrecs⟩ := h.fflush hs
  generalize hfp' : (fp.withDcb dcb).clean = fp' at hflush hclean
  have hdcb : fp'.dcb = dcb := by rw [← hfp']; rfl
  have hdirty : fp'.dirty = false := by rw [← hfp']; rfl
  have hu' : fp'.upto = fp'.endbuf := by rw [← hfp']; exact hu
  have he' : fp'.eof = false := by rw [← hfp']; exact he
  have hends : fp'.posEnd = fp.posEnd := by rw [← hfp']; rfl
  simp only [hflush, not_true_eq_false, if_false]
  cases after with
  | nil =>
    have hread : fp'.dcb.aread = (-1, [], fp'.dcb) := by
      rw [Dcb.aread, hdcb, hrecs, ← hdcb, hclean.next, List.append_nil, List.getElem?_eq_none (Nat.le_refl _)]
    have hend : (byteView bin (before ++ held.toList ++ [])).length = pos := by
      rw [hsize, hu, byteView_nil, List.length_nil]
      omega
    rw [hread]
    exact .inr ⟨hend, rfl, ⟨_, _, _, rfl, hclean.of_same rfl fun _ => hend.symm⟩, rfl, hends⟩
  | cons data after =>
    have hread : fp'.dcb.aread = (0, a.raw data, fp'.dcb.passed) := by
      rw [Dcb.aread, hdcb, hrecs, ← hdcb, hclean.next, List.getElem?_append_right (Nat.le_refl _), Nat.sub_self,
        hclean.attr]
      rfl
    have hsound : Sound a bin data := hs data (by simp)
    have hload := hclean.load (hdcb ▸ hrecs) hdirty hu' hsound
    have hdata : File.recordData (fp'.withDcb fp'.dcb.passed).attr (a.raw data) = data := by
      rw [show (fp'.withDcb fp'.dcb.passed).attr = a from hclean.attr]
      exact File.recordData_raw a _ hsound.fits
    have hpos := hsound.view_pos
    have hlt : ((fp'.withDcb fp'.dcb.passed).load data).upto < ((fp'.withDcb fp'.dcb.passed).load data).endbuf := by
      rw [hload.endbuf]
      simpa [File.load] using hpos
    have hparts : before ++ held.toList ++ data :: after =
        before ++ held.toList ++ (some data).toList ++ after := by simp
    rw [hread, hparts]
    simp only [gt_iff_lt, Int.lt_irrefl, if_false, hdata]
    have hsize' := hload.size_eq
    rw [← hparts] at hsize'
    exact .inl ⟨_, hload.byte_at hlt, rfl, ⟨_, _, _, rfl, hload.dogetc hlt (by omega)⟩, he', hends, Nat.succ_pos _⟩

theorem plus (h : Reads a bin app recs pos fp) : Plus a bin app fp := by
  obtain ⟨before, held, after, rfl, h⟩ := h
  exact h.toPlus

theorem eof (h : Reads a bin app recs pos fp) (he : fp.eof = true) : pos = (byteView bin recs).length := by
  obtain ⟨before, held, after, rfl, h⟩ := h
  exact h.eof he

theorem filepos (h : Reads a bin app recs pos fp) : fp.filepos = pos := by
  obtain ⟨before, held, after, rfl, h⟩ := h
  exact h.filepos

theorem bound (h : Reads a bin app recs pos fp) : pos ≤ (byteView bin recs).length := by
  obtain ⟨before, held, after, rfl, h⟩ := h
  have := h.size_eq
  omega

theorem readTo (h : Reads a bin app recs pos fp) (hs : ∀ data ∈ recs, Sound a bin data)
    (hlong : (byteView bin recs).length < wordSize) (target n : Nat) (hle : pos ≤ target) (hn : target ≤ pos + n) :
    Reads a bin app recs (min target (byteView bin recs).length) (File.readTo target n fp) ∧
      (File.readTo target n fp).posEnd = fp.posEnd ∧ File.getTo target n fp = File.readTo target n fp := by
  have hbound := h.bound
  induction n generalizing pos fp with
  | zero =>
    have htarget : min target (byteView bin recs).length = pos := by omega
    exact ⟨htarget ▸ h, rfl, rfl⟩
  | succ n ih =>
    simp only [File.readTo, File.getTo, h.filepos, h.fgetc_reading]
    by_cases hlt : pos < target
    · simp only [if_pos hlt]
      rcases h.fgetcReading hs hlong with ⟨b, hb, hc, htook⟩ | ⟨hend, hc, hended⟩
      · simp only [hc, byte_ne_eof, if_false]
        rw [← htook.posEnd]
        exact ih htook.reads hlt (by omega) htook.reads.bound
      · have htarget : min target (byteView bin recs).length = pos := by omega
        simp only [hc, if_true]
        exact ⟨htarget ▸ hended.reads, hended.posEnd, trivial⟩
    · have htarget : min target (byteView bin recs).length = pos := by omega
      simp only [if_neg hlt]
      exact ⟨htarget ▸ h, trivial, trivial⟩

theorem readToEnd (h : Reads a bin app recs pos fp) (hs : ∀ data ∈ recs, Sound a bin data)
    (hlong : (byteView bin recs).length < wordSize) (n : Nat) (hn : (byteView bin recs).length < pos + n) :
    Ended a bin app recs (byteView bin recs).length fp (File.readToEnd n fp) ∧
      File.getToEnd n fp = File.readToEnd n fp := by
  induction n generalizing pos fp with
  | zero =>
    have := h.bound
    omega
  | succ n ih =>
    simp only [File.readToEnd, File.getToEnd, h.fgetc_reading]
    rcases h.fgetcReading hs hlong with ⟨b, hb, hc, htook⟩ | ⟨hend, hc, hended⟩
    · simp only [hc, byte_ne_eof, if_false]
      obtain ⟨hended, hsame⟩ := ih htook.reads (by omega)
      exact ⟨⟨hended.reads, hended.eof, hended.posEnd.trans htook.posEnd⟩, hsame⟩
    · simp only [hc, if_true, and_true]
      exact hend ▸ hended

/-- `left` is more than what is still to be read. -/
theorem size_lt_left (h : Reads a bin app recs pos fp) : (byteView bin recs).length + 1 < pos + fp.left := by
  obtain ⟨before, held, after, rfl, h⟩ := h
  have hsize := h.size_eq
  have hrest := byteView_length_le bin after
  have hleft : fp.dcb.recs.drop fp.dcb.next = after := by
    obtain ⟨old, hrecs, hlen, -⟩ := h.recs
    have hnext : fp.dcb.next = (before ++ old.toList).length := by
      rw [h.next]
      cases old <;> cases held <;> simp_all
    rw [hrecs, hnext, List.drop_left]
  unfold File.left
  rw [hleft]
  omega

theorem of_same (h : Reads a bin app recs pos fp) {fp' : File}
    (hd : fp' = {fp with eof := fp'.eof, posEnd := fp'.posEnd, errno := fp'.errno})
    (he : fp'.eof = true → pos = (byteView bin recs).length) : Reads a bin app recs pos fp' := by
  obtain ⟨before, held, after, rfl, h⟩ := h
  exact ⟨_, _, _, rfl, h.of_same hd he⟩

end Reads

/-! ### Turning the stream round -/

/-- The DD opened again for input, read from its start. -/
theorem Plus.redcb_in {fp : File} (h : Plus a bin app fp) :
    (fp.redcb false).1 = 0 ∧ Reads a bin app fp.dcb.recs 0 ((fp.redcb false).2.withFilepos 0) ∧
      (fp.redcb false).2.posEnd = fp.posEnd := by
  set mode : OpenMode := if !app then .updat else .input with hmode
  have hopen : fp.redcb false = (0,
      {fp with
        dcb := fp.dcb.aopen mode, ungetch := -1, buf := List.replicate (a.cap + 8) 0, upto := 0, endbuf := 0
        opened := true, eof := false, dcbOut := false, extend := fp.extend || (fp.read && fp.write && false)
        updat := mode == .updat, dirty := false, errno := .none}) := by
    simp [File.redcb, File.fpopen, File.openMode, h.opened, h.closeRc, h.write, h.append, h.member, h.record, h.attr,
      File.attr, hmode]
  have hdcb : fp.dcb.aopen mode = {fp.dcb with mode := mode, next := 0} := by
    cases app <;> rfl
  rw [hopen, hdcb]
  refine ⟨rfl, ⟨[], none, fp.dcb.recs, rfl, ?_⟩, rfl⟩
  constructor
  case toPlus =>
    exact ⟨rfl, h.read, h.write, h.record, h.member, h.binary, h.append, by simp [File.withFilepos, h.extend], h.attr,
      h.error,
      h.enospc, rfl, h.rcs, h.closeRc⟩
  case updat => cases app <;> rfl
  case mode => exact fun happ => by rw [hmode, happ]; rfl
  case recs => exact ⟨none, rfl, rfl, fun _ => rfl⟩
  case room => exact List.length_replicate ..
  all_goals simp [File.withFilepos]

/-- `__fpswt(fp, 0)`, from what the flush leaves. -/
theorem Plus.fpswtIn {fp fp' : File} {recs : List Bytes} (h : Plus a bin app fp') (hopen : fp.opened = true)
    (hflush : fp.fflush = (0, fp')) (hrecs : fp'.dcb.recs = recs) (hs : ∀ data ∈ recs, Sound a bin data)
    (hlong : (byteView bin recs).length < wordSize) :
    fp.fpswtIn.1 = 0 ∧ fp.fpswtIn.2.posEnd = false ∧
      Reads a bin app recs
        (if fp'.posEnd then (byteView bin recs).length else min fp.filepos (byteView bin recs).length)
        fp.fpswtIn.2 := by
  obtain ⟨hrc, hreads, hends⟩ := h.redcb_in
  rw [hrecs] at hreads
  generalize hg : fp'.redcb false = r at hrc hreads hends
  have hturn : fp.fpswtIn = (0, r.2.skipto fp.filepos) := by
    simp [File.fpswtIn, hopen, hflush, hg, hrc]
  rw [hturn, ← hends]
  by_cases hp : r.2.posEnd = true
  · obtain ⟨hended, -⟩ := hreads.readToEnd hs hlong (r.2.withFilepos 0).left (by have := hreads.size_lt_left; omega)
    have hskip : r.2.skipto fp.filepos =
        {File.readToEnd (r.2.withFilepos 0).left (r.2.withFilepos 0) with posEnd := false} := by
      simp only [File.skipto]
      exact if_pos hp
    rw [hskip, if_pos hp]
    exact ⟨rfl, rfl, hended.reads.of_same rfl fun _ => rfl⟩
  · have hskip : r.2.skipto fp.filepos = File.readTo fp.filepos fp.filepos (r.2.withFilepos 0) := by
      simp only [File.skipto]
      exact if_neg hp
    obtain ⟨hto, hsame, -⟩ := hreads.readTo hs hlong fp.filepos fp.filepos (Nat.zero_le _) (by omega)
    rw [hskip, if_neg hp]
    exact ⟨rfl, hsame.trans (show r.2.posEnd = false by simpa using hp), hto⟩

/-! ### A stream that writes -/

namespace Building
variable {recs : List Bytes} {piece : Bytes} {pos : Nat} {fp : File}

/-- The record under construction goes out; a newline that asks for it is counted already. -/
theorem flushrec_eq (h : Building a bin app recs piece pos fp) (nl : Bool) (hn : piece.length ≠ 0 ∨ nl = true) :
    fp.flushrec nl = (0, ((fp.withDcb (fp.dcb.added (rendered a bin piece) 0)).withUpto 0).withFilepos
      (if bin then pos else (pos + (fp.padding piece.length + if nl then 0 else 1)) % wordSize)) := by
  have hnot : ¬ (fp.upto = 0 && !nl) = true := by
    rw [h.filling.upto]
    rcases hn with hn | hn <;> simp [hn]
  have hwrite : fp.finwrite (rendered a bin piece) = (0, fp.withDcb (fp.dcb.added (rendered a bin piece) 0)) := by
    rw [File.finwrite, awrite_adds h.filling.mode, h.rcs]
    rfl
  unfold File.flushrec
  simp only [h.filling.dirty, h.record, h.filling.dcbOut, h.error, hnot, Bool.false_eq_true, if_false, Bool.not_true]
  rw [h.filling.flushOut_eq, hwrite]
  simp only [ne_eq, not_true_eq_false, if_false, File.withDcb_binary, h.binary, h.filling.upto]
  cases bin with
  | true => rw [← h.filepos]; rfl
  | false => rw [← h.filepos]; rfl

theorem of_same (h : Building a bin app recs piece pos fp) {fp' : File}
    (hd : fp' = {fp with eof := fp'.eof, errno := fp'.errno}) (he : fp'.eof = false) :
    Building a bin app recs piece pos fp' := by
  rw [hd]
  exact ⟨⟨h.opened, h.read, h.write, h.record, h.member, h.binary, h.append, h.extend, h.attr, h.error, h.enospc,
    h.ungetch, h.rcs, h.closeRc⟩, h.filling.of_same rfl (fun _ => h.enospc) h.filling.word, h.recs, h.filepos, h.text,
      he⟩

/-- The piece on the data set, and nothing left in the buffer. -/
theorem added (h : Building a bin app recs piece pos fp) (n : Nat) (hn : n < wordSize) :
    Building a bin app (recs ++ [stored a bin piece]) [] n
      (((fp.withDcb (fp.dcb.added (rendered a bin piece) 0)).withUpto 0).withFilepos n) := by
  have hfill : Filling a bin [] (((fp.withDcb (fp.dcb.added (rendered a bin piece) 0)).withUpto 0).withFilepos n) :=
    h.filling.emptied rfl rfl rfl (fun _ => h.enospc) hn
  refine ⟨⟨h.opened, h.read, h.write, h.record, h.member, h.binary, h.append, h.extend, h.attr, h.error, h.enospc,
    h.ungetch, ?_, h.closeRc⟩, hfill, ?_, rfl, fun _ _ hb => absurd hb List.not_mem_nil, h.eof⟩
  · show fp.dcb.rcs.tail = []
    rw [h.rcs]
    rfl
  · show fp.dcb.recs ++ [fp.dcb.attr.written (rendered a bin piece)] = _
    rw [h.recs, h.attr]
    rfl

/-- What ending the record adds to the position of a text stream. -/
theorem closing_eq (h : Building a bin app recs piece pos fp) :
    closing a bin piece = if bin then 0 else fp.padding piece.length + 1 := by
  unfold closing
  cases bin with
  | true => rfl
  | false =>
    have hlen : (Stdio.stored a false piece).length = piece.length + fp.padding piece.length :=
      stored_length h.filling.fits h.attr
    simp only [Bool.false_eq_true, if_false, hlen]
    omega

/-- The record goes out, empty or not: `add`. -/
theorem add (h : Building a bin app recs piece pos fp) (nl : Bool) (hn : piece.length ≠ 0 ∨ nl = true) (start : Nat)
    (hpos : pos + closing a bin piece < wordSize) (hstart : pos = start + if nl && !bin then 1 else 0) :
    (fp.flushrec nl).1 = 0 ∧ (fp.flushrec nl).2.posEnd = fp.posEnd ∧
      Building a bin app (recs ++ [stored a bin piece]) [] (start + closing a bin piece) (fp.flushrec nl).2 := by
  rw [h.flushrec_eq nl hn]
  have hclosing := h.closing_eq
  have hplace : (if bin then pos else (pos + (fp.padding piece.length + if nl then 0 else 1)) % wordSize) =
      start + closing a bin piece := by
    cases bin with
    | true => simp_all
    | false => 
      cases nl <;> simp only [Bool.false_eq_true, if_false, if_true, Bool.not_false, Bool.and_true] at * <;>
      rw [Nat.mod_eq_of_lt (by omega)] <;> omega
  rw [hplace]
  exact ⟨rfl, rfl, h.added _ (by split at hstart <;> omega)⟩

theorem advance (h : Building a bin app recs piece pos fp) (hpos : pos + 1 < wordSize) :
    Building a bin app recs piece (pos + 1) (fp.advance 1) := by
  refine ⟨⟨h.opened, h.read, h.write, h.record, h.member, h.binary, h.append, h.extend, h.attr, h.error, h.enospc,
    h.ungetch, h.rcs, h.closeRc⟩, h.filling.advance 1, h.recs, ?_, h.text, h.eof⟩
  show (fp.filepos + 1) % wordSize = _
  rw [h.filepos, Nat.mod_eq_of_lt hpos]

/-- A byte into the buffer. -/
theorem stored (h : Building a bin app recs piece pos fp) (hroom : piece.length < a.cap) (hpos : pos + 1 < wordSize)
    {b : UInt8} (hb : bin = false → b ≠ 0) :
    Building a bin app recs (piece ++ [b]) (pos + 1) ((fp.store b).advance 1) := by
  refine ⟨⟨h.opened, h.read, h.write, h.record, h.member, h.binary, h.append, h.extend, h.attr, h.error, h.enospc,
    h.ungetch, h.rcs, h.closeRc⟩, h.filling.stored hroom b, h.recs, ?_, ?_, h.eof⟩
  · show (fp.filepos + 1) % wordSize = _
    rw [h.filepos, Nat.mod_eq_of_lt hpos]
  · intro hbin c hc
    rcases List.mem_append.mp hc with hc | hc
    · exact h.text hbin c hc
    · exact List.mem_singleton.mp hc ▸ hb hbin

/-- `__fputc()` on a DCB that writes is `put`. -/
theorem putOut {s : ByteFile} (h : Building a bin app s.recs piece s.pos fp) {b : UInt8} (hb : bin = false → b ≠ 0)
    (hpos : s.pos + closing a bin piece + 1 < wordSize) :
    (fp.putOut b.toNat).1 = b.toNat ∧ (fp.putOut b.toNat).2.posEnd = fp.posEnd ∧
      ∃ piece', (s.put a bin piece b).building = some piece' ∧
        Building a bin app (s.put a bin piece b).recs piece' (s.put a bin piece b).pos (fp.putOut b.toNat).2 := by
  have hnl : (!fp.binary && (b.toNat : Int) == (newline.toNat : Int)) = (!bin && b == newline) := by
    rw [h.binary]
    congr 1
    rw [Bool.eq_iff_iff, beq_iff_eq, beq_iff_eq, ← UInt8.toNat_inj]
    omega
  have hbyte : UInt8.ofNat ((b.toNat : Int) % 256).toNat = b := by
    have : ((b.toNat : Int) % 256).toNat = b.toNat := by
      have := b.toNat_lt
      omega
    rw [this, UInt8.ofNat_toNat]
  unfold File.putOut ByteFile.put
  rw [hnl]
  by_cases hline : (!bin && b == newline) = true
  · -- the newline ends the record, however short
    obtain ⟨hbin, hb⟩ := Bool.and_eq_true_iff.mp hline
    obtain ⟨hrc, hends, hout⟩ := (h.advance (by omega)).add true (.inr rfl) s.pos (by omega) (by simp [hbin])
    simp only [if_pos hline, File.fflnl, hrc, ne_eq, not_true_eq_false, if_false]
    exact ⟨trivial, hends, [], rfl, hout⟩
  simp only [if_neg hline, hbyte, h.filling.upto, h.filling.endbuf]
  by_cases hfull : piece.length = a.cap
  · have hcap := a.cap_pos
    obtain ⟨hrc, hends, hout⟩ := h.add false (.inl (by omega)) s.pos (by omega) rfl
    simp only [if_pos hfull, File.fflush, hrc, ne_eq, not_true_eq_false, if_false]
    exact ⟨trivial, hends, [b], rfl, hout.stored hcap (by omega) hb⟩
  · simp only [if_neg hfull, ne_eq, not_true_eq_false, if_false]
    exact ⟨trivial, rfl, piece ++ [b], rfl, h.stored (lt_of_le_of_ne h.filling.fits hfull) (by omega) hb⟩

/-- `__fflush()` is `flush`. -/
theorem fflush {s : ByteFile} (h : Building a bin app s.recs piece s.pos fp) (hs : s.building = some piece)
    (hpos : s.pos + closing a bin piece < wordSize) :
    fp.fflush.1 = 0 ∧ fp.fflush.2.posEnd = fp.posEnd ∧ (s.flush a bin).building = some [] ∧
      Building a bin app (s.flush a bin).recs [] (s.flush a bin).pos fp.fflush.2 := by
  cases piece with
  | nil =>
    have hnone : fp.fflush = (0, fp) := by
      simp [File.fflush, File.flushrec, h.filling.dirty, h.record, h.filling.dcbOut, h.filling.upto]
    rw [hnone, ByteFile.flush, hs]
    exact ⟨rfl, rfl, hs, h⟩
  | cons b piece =>
    obtain ⟨hrc, hends, hout⟩ := h.add false (.inl (Nat.succ_ne_zero _)) s.pos hpos rfl
    rw [ByteFile.flush, hs]
    exact ⟨hrc, hends, rfl, hout⟩

end Building

/-- The DD opened again for output, behind what it holds. -/
theorem Plus.redcb_out {fp : File} (h : Plus a bin app fp) {pos : Nat} (hpos : pos < wordSize) :
    (fp.redcb true).1 = 0 ∧ (fp.redcb true).2.posEnd = fp.posEnd ∧
      Building a bin app fp.dcb.recs [] pos ((fp.redcb true).2.withFilepos pos) := by
  have hopen : fp.redcb true = (0,
      {fp with
        dcb := fp.dcb.aopen .extend, ungetch := -1, buf := List.replicate (a.cap + 8) 0, upto := 0, endbuf := a.cap
        opened := true, eof := false, dcbOut := true, extend := fp.extend || (fp.read && fp.write && true)
        updat := false, dirty := false, errno := .none}) := by
    simp [File.redcb, File.fpopen, File.openMode, h.opened, h.closeRc, h.extend, h.record, h.attr, File.attr]
  rw [hopen]
  have hplus : Plus a bin app {fp with
      dcb := fp.dcb.aopen .extend, filepos := pos, ungetch := -1, buf := List.replicate (a.cap + 8) 0, upto := 0
      endbuf := a.cap, opened := true, eof := false, dcbOut := true
      extend := fp.extend || (fp.read && fp.write && true), updat := false, dirty := false, errno := .none} :=
    ⟨rfl, h.read, h.write, h.record, h.member, h.binary, h.append, by simp [h.extend], h.attr, h.error, h.enospc, rfl,
      h.rcs, h.closeRc⟩
  refine ⟨rfl, rfl, hplus, ?_, rfl, rfl, fun _ _ hb => absurd hb List.not_mem_nil, rfl⟩
  exact ⟨rfl, h.write, rfl, h.record, rfl, h.binary, h.attr, OpenMode.noConfusion, by simp [File.withFilepos],
    rfl, rfl, rfl,
    Nat.zero_le _, fun _ => h.enospc, hpos⟩

/-- `__fpswt(fp, 1)` at the end of the data set, or on an `"a+"` stream wherever it is. -/
theorem Reads.fpswtOut {recs : List Bytes} {pos : Nat} {fp : File} (h : Reads a bin app recs pos fp)
    (hs : ∀ data ∈ recs, Sound a bin data) (hlong : (byteView bin recs).length < wordSize)
    (hend : app = true ∨ pos = (byteView bin recs).length) :
    fp.fpswtOut.1 = 0 ∧ fp.fpswtOut.2.posEnd = fp.posEnd ∧
      Building a bin app recs [] (byteView bin recs).length fp.fpswtOut.2 := by
  have hplus := h.plus
  have hatEnd : fp.fpswtEnd.1 = true ∧ fp.fpswtEnd.2.posEnd = fp.posEnd ∧
      Reads a bin app recs (byteView bin recs).length fp.fpswtEnd.2 := by
    unfold File.fpswtEnd
    by_cases he : fp.eof = true
    · rw [if_pos he]
      exact ⟨rfl, rfl, h.eof he ▸ h⟩
    rw [if_neg he, hplus.append]
    by_cases happ : app = true
    · -- read on to the end
      have hleft := h.size_lt_left
      obtain ⟨hended, hsame⟩ := h.readToEnd hs hlong (fp.left + 1) (by omega)
      rw [if_pos happ]
      simp only [hsame, hended.reads.plus.error, Bool.not_false, true_and]
      exact ⟨hended.posEnd, hended.reads⟩
    · -- look at the next byte: there is none
      rw [if_neg happ]
      rcases h.fgetcReading hs hlong with ⟨b, hb, -⟩ | ⟨-, hc, hended⟩
      · have hpos := hend.resolve_left happ
        rw [hpos, List.getElem?_eq_none (Nat.le_refl _)] at hb
        cases hb
      · have hpos := hend.resolve_left happ
        simp only [h.fgetc_reading, hended.reads.plus.error, hc, Bool.false_eq_true, if_false, ne_eq, not_true_eq_false,
          true_and]
        exact ⟨hended.posEnd, hpos ▸ hended.reads⟩
  obtain ⟨hatEnd, hends, before, held, after, hparts, hat⟩ := hatEnd
  obtain ⟨dcb, hflush, hclean, hrecs⟩ := hat.fflush (hparts ▸ hs)
  obtain ⟨hrc, hends', hout⟩ := hclean.redcb_out hlong
  have hturn : fp.fpswtOut =
      (0, ((fp.fpswtEnd.2.withDcb dcb).clean.redcb true).2.withFilepos (byteView bin recs).length) := by
    simp [File.fpswtOut, hplus.opened, hplus.member, hatEnd, hat.filepos, hflush, hrc]
  have hrecs' : (fp.fpswtEnd.2.withDcb dcb).clean.dcb.recs = recs := hrecs.trans hparts.symm
  rw [hturn]
  rw [hrecs'] at hout
  exact ⟨rfl, hends'.trans hends, hout⟩

/-! ### Writing in place -/

theorem stripNul_eq_self_iff {data : Bytes} : stripNul data = data ↔ data.getLast? ≠ some 0 := by
  rw [stripNul, List.rdropWhile_eq_self_iff]
  rcases List.eq_nil_or_concat data with rfl | ⟨l, b, rfl⟩
  · simp
  · simp

/-- The record under the position is the one `patchAt` finds. -/
theorem patchAt_middle (before after : List Bytes) (data : Bytes) {j : Nat} (hj : j < (recordView bin data).length)
    (b : UInt8) :
    patchAt a bin (before ++ data :: after) ((byteView bin before).length + j) b =
      (patch a bin data j b).map (fun new => (before ++ new.1 :: after, new.2)) := by
  induction before with
  | nil =>
    simp only [List.nil_append, byteView_nil, List.length_nil, Nat.zero_add, patchAt, if_pos hj]
  | cons r before ih =>
    have hskip : ¬ (byteView bin (r :: before)).length + j < (recordView bin r).length := by
      rw [byteView_cons, List.length_append]
      omega
    have hrest : (byteView bin (r :: before)).length + j - (recordView bin r).length =
        (byteView bin before).length + j := by
      rw [byteView_cons, List.length_append]
      omega
    rw [List.cons_append, patchAt, if_neg hskip, hrest, ih, Option.map_map]
    rfl

/-- Only a record's length and its last byte say whether it reads back. -/
theorem Sound.of_length {data data' : Bytes} (h : Sound a bin data) (hlen : data'.length = data.length)
    (hlast : bin = false → data'.getLast? ≠ some 0) : Sound a bin data' := by
  refine ⟨?_, fun hbin => ?_, fun hbin => stripNul_eq_self_iff.mpr (hlast hbin)⟩
  · have hfits := h.fits
    unfold Attr.Fits at hfits ⊢
    rwa [hlen]
  · rw [← List.length_pos_iff, hlen]
    exact List.length_pos_iff.mpr (h.binary hbin)

/-- A record patched is as long as before, and still reads back with all its bytes. -/
theorem Sound.patch {data data' : Bytes} {j moved : Nat} {b : UInt8} (h : Sound a bin data)
    (hb : bin = false → b ≠ 0) (hj : j < (recordView bin data).length)
    (hpatch : ByteFile.patch a bin data j b = some (data', moved)) :
    Sound a bin data' ∧ data'.length = data.length ∧ j + moved ≤ (recordView bin data).length := by
  have hview := h.view_length
  have hset : Sound a bin (data.set j b) := by
    refine h.of_length (List.length_set ..) fun hbin => ?_
    have hlast := stripNul_eq_self_iff.mp (h.text hbin)
    rw [List.getLast?_eq_getElem?] at hlast ⊢
    rw [List.length_set, List.getElem?_set]
    split
    · split
      · exact fun hc => hb hbin (Option.some.inj hc)
      · exact fun hc => by cases hc
    · exact hlast
  cases bin with
  | true =>
    simp only [ByteFile.patch, Bool.not_true, Bool.false_and, Bool.false_eq_true, if_false, Option.some.injEq,
      Prod.mk.injEq] at hpatch
    obtain ⟨rfl, rfl⟩ := hpatch
    exact ⟨hset, List.length_set .., hj⟩
  | false =>
    simp only [Bool.false_eq_true, if_false] at hview
    simp only [ByteFile.patch, Bool.not_false, Bool.true_and, decide_eq_true_eq, beq_iff_eq] at hpatch
    split at hpatch
    next hend =>
      split at hpatch
      next => 
        obtain ⟨rfl, rfl⟩ := Prod.mk.inj (Option.some.inj hpatch)
        exact ⟨h, rfl, hj⟩
      next => cases hpatch
    next hend =>
      split at hpatch
      next =>
        split at hpatch
        next =>
          obtain ⟨rfl, rfl⟩ := Prod.mk.inj (Option.some.inj hpatch)
          have hlen : (data.take j ++ List.replicate (data.length - j) blank).length = data.length := by
            simp only [List.length_append, List.length_take, List.length_replicate]
            omega
          refine ⟨h.of_length hlen fun _ => ?_, hlen, by omega⟩
          rw [List.getLast?_append, List.getLast?_replicate, if_neg (by omega)]
          exact fun hc => absurd (Option.some.inj hc) (by decide)
        next => cases hpatch
      next =>
        obtain ⟨rfl, rfl⟩ := Prod.mk.inj (Option.some.inj hpatch)
        exact ⟨hset, List.length_set .., hj⟩

namespace Holding
variable {before after : List Bytes} {data : Bytes} {pos : Nat} {fp : File}

/-- The buffer is the record, its newline on a text stream, and what an earlier record left. -/
theorem buf_eq (h : Holding a bin app before (some data) after pos fp) (hs : Sound a bin data) :
    fp.buf = data ++ (if bin then [] else [newline]) ++ fp.buf.drop fp.endbuf ∧
      fp.endbuf = data.length + if bin then 0 else 1 := by
  have hbuf := h.buf
  have hend := h.endbuf
  simp only [Option.toList_some, byteView_cons, byteView_nil, List.append_nil] at hbuf hend
  refine ⟨?_, hend.trans hs.view_length⟩
  nth_rewrite 1 [← List.take_append_drop fp.endbuf fp.buf]
  rw [hbuf, hs.view]
  cases bin with
  | true => simp
  | false => simp

/-- The record in the buffer becomes another of its length. -/
theorem patched {data' : Bytes} {moved : Nat} (h : Holding a bin app before (some data) after pos fp)
    (happ : app = false) (hs : Sound a bin data') (hlen : data'.length = data.length) (hs0 : Sound a bin data)
    (hmoved : fp.upto + moved ≤ fp.endbuf) (he : fp.eof = false) {fp' : File} (hd : fp' = {fp with
      buf := data' ++ (if bin then [] else [newline]) ++ fp.buf.drop fp.endbuf, upto := fp.upto + moved
      filepos := pos + moved, dirty := true}) :
    Holding a bin app before (some data') after (pos + moved) fp' := by
  obtain ⟨hbuf, hend⟩ := h.buf_eq hs0
  have hview : byteView bin [data'] = data' ++ if bin then [] else [newline] := by
    rw [byteView_cons, byteView_nil, List.append_nil, hs.view]
    cases bin <;> simp
  have hviewlen : (data' ++ if bin then [] else [newline]).length = fp.endbuf := by
    rw [hend, ← hlen]
    cases bin <;> simp
  obtain ⟨old, hrecs, hold, -⟩ := h.recs
  have hroom := h.room
  rw [hbuf] at hroom
  rw [hd]
  constructor
  case toPlus =>
    exact ⟨h.opened, h.read, h.write, h.record, h.member, h.binary, h.append, h.extend, h.attr, h.error, h.enospc,
      h.ungetch, h.rcs, h.closeRc⟩
  case recs => exact ⟨old, hrecs, by rw [hold, Option.map_some, Option.map_some, hlen], fun hc => absurd hc (by simp)⟩
  case dirty => exact fun _ => ⟨happ, rfl⟩
  case start => exact fun hc => by cases hc
  case room => rw [← hroom]; simp [hlen]
  case endbuf => rw [Option.toList_some, hview, hviewlen]
  case buf =>
    rw [Option.toList_some, hview]
    exact List.take_left' hviewlen
  case upto => exact hmoved
  case place =>
    show pos + moved = (byteView bin before).length + (fp.upto + moved)
    rw [h.place, Nat.add_assoc]
  case eof => exact fun hc => absurd (he.symm.trans hc) Bool.false_ne_true
  case dcbOut => exact h.dcbOut
  case updat => exact h.updat
  case mode => exact h.mode
  case next => simpa using h.next
  case filepos => rfl

/-- A byte of the buffer changed: `*fp->upto++ = c`. -/
theorem store (h : Holding a bin app before (some data) after pos fp) (hs : Sound a bin data) (b : UInt8)
    (hj : fp.upto < data.length) (happ : app = false) (hs' : Sound a bin (data.set fp.upto b))
    (he : fp.eof = false) (hlong : pos + 1 < wordSize) :
    Holding a bin app before (some (data.set fp.upto b)) after (pos + 1)
      {(fp.store b).advance 1 with dirty := true} := by
  obtain ⟨hbuf, hend⟩ := h.buf_eq hs
  refine h.patched happ hs' (List.length_set ..) hs (by omega) he ?_
  have hpos : (fp.filepos + 1) % wordSize = pos + 1 := by rw [h.filepos, Nat.mod_eq_of_lt hlong]
  have hset : fp.buf.set fp.upto b =
      data.set fp.upto b ++ (if bin then [] else [newline]) ++ fp.buf.drop fp.endbuf := by
    nth_rewrite 1 [hbuf]
    rw [List.append_assoc, List.set_append_left _ _ hj, List.append_assoc]
  rw [File.store, File.advance, hset, hpos]

theorem overwrite (h : Holding a bin app before (some data) after pos fp) (hu : fp.upto < fp.endbuf) (b : UInt8)
    (happ : app = false) (hs : Sound a bin data) (hb : bin = false → b ≠ 0)
    (hlong : (byteView bin (before ++ data :: after)).length < wordSize) :
    (patch a bin data fp.upto b = none ∧ (fp.overwrite b.toNat).1 = -1 ∧
        Holding a bin app before (some data) after pos (fp.overwrite b.toNat).2) ∨
      ∃ data' moved, patch a bin data fp.upto b = some (data', moved) ∧ (fp.overwrite b.toNat).1 = 0 ∧
        Holding a bin app before (some data') after (pos + moved) (fp.overwrite b.toNat).2 := by
  obtain ⟨hbuf, hend⟩ := h.buf_eq hs
  have hsize := h.size_eq
  simp only [Option.toList_some, List.append_assoc, List.singleton_append] at hsize
  have he : fp.eof = false := by
    by_contra hc
    have := h.eof (by simpa using hc)
    simp only [Option.toList_some, List.append_assoc, List.singleton_append] at this
    omega
  have hc : (b.toNat : Int) = newline.toNat ↔ b = newline := by
    rw [← UInt8.toNat_inj]
    omega
  have hbyte : UInt8.ofNat ((b.toNat : Int) % 256).toNat = b := by
    have : ((b.toNat : Int) % 256).toNat = b.toNat := by
      have := b.toNat_lt
      omega
    rw [this, UInt8.ofNat_toNat]
  have hpatched := fun data' moved (hp : patch a bin data fp.upto b = some (data', moved)) =>
    hs.patch hb (by rw [hs.view_length, ← hend]; exact hu) hp
  cases bin with
  | true =>
    have hput : fp.overwrite b.toNat = (0, {(fp.store b).advance 1 with dirty := true}) := by
      simp [File.overwrite, h.binary, hbyte]
    have hset : patch a true data fp.upto b = some (data.set fp.upto b, 1) := rfl
    rw [hput]
    exact .inr ⟨_, _, hset, rfl, h.store hs b (by simpa [hend] using hu) happ (hpatched _ _ hset).1 he (by omega)⟩
  | false =>
    simp only [Bool.false_eq_true, if_false] at hend hbuf
    have hlast : fp.endbuf - 1 = data.length := by omega
    by_cases hj : data.length ≤ fp.upto
    · -- where the record's own newline is
      by_cases hnl : b = newline
      · have hput : fp.overwrite b.toNat = (0, fp.dogetc.2) := by
          simp [File.overwrite, h.binary, hlast, hj, hnl, File.dogetc]
        have hsame : patch a false data fp.upto b = some (data, 1) := by simp [patch, hj, hnl]
        rw [hput]
        exact .inr ⟨_, _, hsame, rfl, h.dogetc hu (by omega)⟩
      · have hput : fp.overwrite b.toNat = (-1, fp.withErrno .eopnotsupp) := by
          simp [File.overwrite, h.binary, hlast, hj, hc, hnl]
        have hnone : patch a false data fp.upto b = none := by simp [patch, hj, hnl]
        rw [hput]
        exact .inl ⟨hnone, rfl, h.of_same rfl h.eof⟩
    by_cases hnl : b = newline
    · by_cases hF : a.recfm = .F
      · -- the rest of the record becomes blanks
        have hput : fp.overwrite b.toNat = (0, (({fp with
            buf := fp.buf.take fp.upto ++ List.replicate (data.length - fp.upto) blank ++ fp.buf.drop data.length
            dirty := true} : File).advance (fp.endbuf - fp.upto)).withUpto fp.endbuf) := by
          have hF : fp.attr.recfm = .F := by rw [show fp.attr = a from h.attr, hF]
          simp [File.overwrite, h.binary, hlast, hj, hnl, hF]
        have hblank : patch a false data fp.upto b =
            some (data.take fp.upto ++ List.replicate (data.length - fp.upto) blank, data.length + 1 - fp.upto) := by
          simp [patch, hj, hnl, hF]
        obtain ⟨hsound, hlen, -⟩ := hpatched _ _ hblank
        rw [hput]
        refine .inr ⟨_, _, hblank, rfl, h.patched happ hsound hlen hs (by omega) he ?_⟩
        have hpos : (fp.filepos + (fp.endbuf - fp.upto)) % wordSize = pos + (data.length + 1 - fp.upto) := by
          rw [h.filepos, hend, Nat.mod_eq_of_lt (by omega)]
        have hupto : fp.upto + (data.length + 1 - fp.upto) = fp.endbuf := by omega
        have hbefore : fp.buf.take fp.upto = data.take fp.upto := by
          rw [hbuf, List.append_assoc, List.take_append_of_le_length (by omega)]
        have hbehind : fp.buf.drop data.length = [newline] ++ fp.buf.drop fp.endbuf := by
          nth_rewrite 1 [hbuf]
          rw [List.append_assoc, List.drop_left]
        rw [File.advance, hpos, hupto, hbefore, hbehind]
        simp only [Bool.false_eq_true, if_false, List.append_assoc]
        rfl
      · have hput : fp.overwrite b.toNat = (-1, fp.withErrno .eopnotsupp) := by
          have hF : ¬ fp.attr.recfm = .F := by rw [show fp.attr = a from h.attr]; exact hF
          simp [File.overwrite, h.binary, hlast, hj, hnl, hF]
        have hnone : patch a false data fp.upto b = none := by simp [patch, hj, hnl, hF]
        rw [hput]
        exact .inl ⟨hnone, rfl, h.of_same rfl h.eof⟩
    · have hput : fp.overwrite b.toNat = (0, {(fp.store b).advance 1 with dirty := true}) := by
        simp [File.overwrite, h.binary, hlast, hj, hc, hnl, hbyte]
      have hset : patch a false data fp.upto b = some (data.set fp.upto b, 1) := by simp [patch, hj, hnl]
      rw [hput]
      exact .inr ⟨_, _, hset, rfl, h.store hs b (by omega) happ (hpatched _ _ hset).1 he (by omega)⟩

end Holding

/-- `*fp->upto--`: the byte last taken is at the position again. -/
theorem Holding.back {before after : List Bytes} {held : Option Bytes} {pos : Nat} {fp : File}
    (h : Holding a bin app before held after (pos + 1) fp) (hu : 0 < fp.upto) (he : fp.eof = false)
    (hlong : pos + 1 < wordSize) :
    fp.back = (fp.withUpto (fp.upto - 1)).withFilepos pos ∧
      Holding a bin app before held after pos ((fp.withUpto (fp.upto - 1)).withFilepos pos) := by
  have hplace := h.place
  have hupto := h.upto
  have hpos : (fp.filepos + (wordSize - 1)) % wordSize = pos := by
    rw [h.filepos]
    unfold wordSize at hlong ⊢
    omega
  rw [File.back, hpos]
  refine ⟨rfl, ⟨h.opened, h.read, h.write, h.record, h.member, h.binary, h.append, h.extend, h.attr, h.error, h.enospc,
    h.ungetch, h.rcs, h.closeRc⟩, h.dcbOut, h.updat, h.mode, h.next, h.recs, h.dirty, h.start, h.room, h.endbuf,
    h.buf, ?_, rfl, ?_, fun hc => absurd (he.symm.trans hc) Bool.false_ne_true⟩
  · show fp.upto - 1 ≤ fp.endbuf
    omega
  · show pos = _ + (fp.upto - 1)
    omega

@[simp] theorem overwrite_eof (fp : File) (c : Int) : (fp.overwrite c).2.eof = fp.eof := by
  unfold File.overwrite
  dsimp only
  split_ifs <;> rfl

@[simp] theorem overwrite_posEnd (fp : File) (c : Int) : (fp.overwrite c).2.posEnd = fp.posEnd := by
  unfold File.overwrite
  dsimp only
  split_ifs <;> rfl

namespace Reads
variable {recs : List Bytes} {pos : Nat} {fp : File}

theorem withUngetch (h : Reads a bin app recs pos fp) : fp.withUngetch (-1) = fp := by
  rw [← h.plus.ungetch]
  rfl

/-- `__fpupc()` has the record under the position in the buffer before it writes. -/
theorem fpupc_held (h : Reads a bin app recs pos fp) (hs : ∀ data ∈ recs, Sound a bin data)
    (hlong : (byteView bin recs).length < wordSize) (hpos : pos < (byteView bin recs).length) (c : Int) :
    ∃ fp', fp.fpupc c = fp'.overwrite c ∧ Reads a bin app recs pos fp' ∧ fp'.upto < fp'.endbuf ∧
      fp'.eof = false ∧ fp'.posEnd = fp.posEnd := by
  have he : fp.eof = false := by
    by_contra hc
    have := h.eof (by simpa using hc)
    omega
  unfold File.fpupc
  simp only [h.withUngetch, h.fgetc_reading]
  by_cases hu : fp.endbuf ≤ fp.upto
  · rcases h.fgetcReading hs hlong with ⟨b, hb, hc, ⟨before, held, after, rfl, hat⟩, heof, hends, hup⟩ | ⟨hend, -⟩
    · obtain ⟨heq, hback⟩ := hat.back hup heof (by omega)
      have hupto := hat.upto
      simp only [if_pos hu, hc, byte_ne_eof, hat.error, Bool.false_eq_true, if_false, heq]
      refine ⟨_, rfl, ⟨_, _, _, rfl, hback⟩, ?_, heof, hends⟩
      show fp.fgetcReading.2.upto - 1 < fp.fgetcReading.2.endbuf
      omega
    · omega
  · rw [if_neg hu]
    exact ⟨fp, rfl, h, by omega, he, rfl⟩

/-- `__fpupc()` inside the data set is `patchAt`. -/
theorem fpupc_patch (h : Reads a bin app recs pos fp) (hs : ∀ data ∈ recs, Sound a bin data)
    (hlong : (byteView bin recs).length < wordSize) (hpos : pos < (byteView bin recs).length) (happ : app = false)
    {b : UInt8} (hb : bin = false → b ≠ 0) :
    (fp.fpupc b.toNat).2.eof = false ∧ (fp.fpupc b.toNat).2.posEnd = fp.posEnd ∧
      (patchAt a bin recs pos b = none ∧ (fp.fpupc b.toNat).1 = -1 ∧ Reads a bin app recs pos (fp.fpupc b.toNat).2 ∨
        ∃ recs' moved, patchAt a bin recs pos b = some (recs', moved) ∧ (fp.fpupc b.toNat).1 = 0 ∧
          Reads a bin app recs' (pos + moved) (fp.fpupc b.toNat).2) := by
  obtain ⟨fp', hput, ⟨before, held, after, rfl, hat⟩, hu, he, hends⟩ := h.fpupc_held hs hlong hpos b.toNat
  rw [hput, overwrite_eof, overwrite_posEnd]
  refine ⟨he, hends, ?_⟩
  obtain ⟨data, rfl⟩ : ∃ data, held = some data := by
    cases held with
    | none =>
      have := hat.endbuf
      simp only [Option.toList_none, byteView_nil, List.length_nil] at this
      omega
    | some data => exact ⟨data, rfl⟩
  have hparts : before ++ (some data).toList ++ after = before ++ data :: after := by simp
  have hj : fp'.upto < (recordView bin data).length := by
    have hend := hat.endbuf
    simp only [Option.toList_some, byteView_cons, byteView_nil, List.append_nil] at hend
    omega
  rw [hparts] at hs hlong ⊢
  rw [hat.place, patchAt_middle before after data hj, ← hat.place]
  rcases hat.overwrite hu b happ (hs data (by simp)) hb hlong with ⟨hnone, hrc, hout⟩ | ⟨data', moved, hsome, hrc, hout⟩
  · rw [hnone]
    exact .inl ⟨rfl, hrc, ⟨before, some data, after, hparts.symm, hout⟩⟩
  · rw [hsome]
    exact .inr ⟨before ++ data' :: after, moved, rfl, hrc, ⟨before, some data', after, by simp, hout⟩⟩

/-- `__fpupc()` at the end of the data set turns the stream to writing. -/
theorem fpupc_end (h : Reads a bin app recs pos fp) (hs : ∀ data ∈ recs, Sound a bin data)
    (hlong : (byteView bin recs).length < wordSize) (hpos : pos = (byteView bin recs).length) (c : Int) :
    (fp.fpupc c).1 = 1 ∧ (fp.fpupc c).2.posEnd = fp.posEnd ∧ Building a bin app recs [] pos (fp.fpupc c).2 := by
  have hu : fp.endbuf ≤ fp.upto := by
    obtain ⟨before, held, after, rfl, h⟩ := h
    have := h.size_eq
    omega
  rcases h.fgetcReading hs hlong with ⟨b, hb, -⟩ | ⟨-, hc, hended⟩
  · rw [hpos, List.getElem?_eq_none (Nat.le_refl _)] at hb
    cases hb
  · obtain ⟨hrc, hends, hout⟩ := hended.reads.fpswtOut hs hlong (.inr hpos)
    unfold File.fpupc
    simp only [h.withUngetch, h.fgetc_reading, if_pos hu, hended.reads.plus.error, hc, Bool.false_eq_true, if_false,
      if_true,
      hrc, ne_eq, not_true_eq_false, true_and]
    exact ⟨hends.trans hended.posEnd, hpos ▸ hout⟩

end Reads

/-- What `patchAt` leaves is as long as before, record by record. -/
theorem patchAt_same {recs recs' : List Bytes} {p moved : Nat} {b : UInt8} (hs : ∀ data ∈ recs, Sound a bin data)
    (hb : bin = false → b ≠ 0) (hpatch : patchAt a bin recs p b = some (recs', moved)) :
    (∀ data ∈ recs', Sound a bin data) ∧ recs'.map List.length = recs.map List.length ∧
      p + moved ≤ (byteView bin recs).length := by
  induction recs generalizing recs' p with
  | nil => cases hpatch
  | cons data rest ih =>
    rw [patchAt] at hpatch
    split at hpatch
    next hp =>
      obtain ⟨⟨data', moved'⟩, hnew, heq⟩ := Option.map_eq_some_iff.mp hpatch
      obtain ⟨rfl, rfl⟩ := Prod.mk.inj heq
      obtain ⟨hsound, hlen, hmoved⟩ := (hs data (List.mem_cons_self ..)).patch hb hp hnew
      refine ⟨?_, by simp [hlen], ?_⟩
      · intro r hr
        rcases List.mem_cons.mp hr with rfl | hr
        · exact hsound
        · exact hs r (List.mem_cons_of_mem _ hr)
      · rw [byteView_cons, List.length_append]
        exact Nat.le_add_right_of_le hmoved
    next hp =>
      obtain ⟨⟨rest', moved'⟩, hnew, heq⟩ := Option.map_eq_some_iff.mp hpatch
      obtain ⟨rfl, rfl⟩ := Prod.mk.inj heq
      obtain ⟨hsound, hlen, hmoved⟩ := ih (fun r hr => hs r (List.mem_cons_of_mem _ hr)) hnew
      refine ⟨?_, by simp [hlen], ?_⟩
      · intro r hr
        rcases List.mem_cons.mp hr with rfl | hr
        · exact hs _ (List.mem_cons_self ..)
        · exact hsound r hr
      · rw [byteView_cons, List.length_append]
        dsimp only at hmoved ⊢
        omega

/-- Records of the same lengths have views of the same length. -/
theorem byteView_length_of_map {recs recs' : List Bytes} (hs : ∀ data ∈ recs, Sound a bin data)
    (hs' : ∀ data ∈ recs', Sound a bin data) (h : recs'.map List.length = recs.map List.length) :
    (byteView bin recs').length = (byteView bin recs).length := by
  induction recs generalizing recs' with
  | nil => rw [List.map_eq_nil_iff.mp h]
  | cons data recs ih =>
    obtain ⟨data', rest, rfl, hlen, hrest⟩ := List.map_eq_cons_iff.mp h
    rw [byteView_cons, byteView_cons, List.length_append, List.length_append,
      (hs data (List.mem_cons_self ..)).view_length,
      (hs' data' (List.mem_cons_self ..)).view_length, hlen,
      ih (fun r hr => hs r (List.mem_cons_of_mem _ hr)) (fun r hr => hs' r (List.mem_cons_of_mem _ hr)) hrest]

end Libc370.Stdio
