import Libc370.Stdio.PlusStream
import Libc370.Stdio.Seek

/-! Runs of calls on a `+` stream.

Every call on the stream answers as on the byte file and keeps `Views` (`plusCall_views`), so
every run does (`plus_stream_is_byte_file`). The position is a `long` and a record is counted
when it goes out, so a run keeps within what a `long` counts; a text record does not end in
X'00', which a reader takes for fill. -/
namespace Libc370.Stdio
open ByteFile (closing patchAt)

namespace ByteFile

theorem flush_none {a : Attr} {bin : Bool} {s : ByteFile} (h : s.building = none) : s.flush a bin = s := by
  rw [flush, h]

theorem flush_nil {a : Attr} {bin : Bool} {s : ByteFile} (h : s.building = some []) : s.flush a bin = s := by
  rw [flush, h]

theorem flush_cons {a : Attr} {bin : Bool} {s : ByteFile} {b : UInt8} {piece : Bytes}
    (h : s.building = some (b :: piece)) : s.flush a bin = s.add a bin (b :: piece) := by
  rw [flush, h]

/-- The position has no part in what the flush leaves. -/
theorem flush_recs {a : Attr} {bin : Bool} {s t : ByteFile} (hrecs : t.recs = s.recs) (hb : t.building = s.building) :
    (t.flush a bin).recs = (s.flush a bin).recs := by
  unfold flush
  rw [hb]
  split
  · exact hrecs
  · exact hrecs
  · simp only [add, hrecs]

/-- The bytes of the file, with those of the record being built. -/
def extent (bin : Bool) (s : ByteFile) : Nat := s.size bin + (s.building.getD []).length

end ByteFile

/-- Where `plusseek()` has the stream when it counts from there. -/
def File.counted (fp : File) (whence : Whence) : File :=
  if fp.posEnd then fp.fpswtIn.2.withEof false
  else if whence = .seekEnd then (if fp.dcbOut then fp else getToEnd (fp.left + 1) fp).withEof false
  else fp

/-- `plusseek()` from there. -/
def File.seekFrom (fp : File) (offset : Int32) : Whence → Int × File
  | .seekSet => fp.plusseekTo offset.toInt
  | .seekCur => fp.plusseekTo (toLong (fp.filepos + offset.toInt))
  | .seekEnd => fp.plusseekTo (toLong (fp.filepos + offset.toInt))
  | .other => (-1, fp.withErrno .einval)

/-- The stream is the file. -/
structure Views (a : Attr) (bin app : Bool) (s : ByteFile) (fp : File) : Prop where
  sound : ∀ data ∈ s.recs, Sound a bin data
  bound : s.pos ≤ s.extent bin
  posEnd : fp.posEnd = s.posEnd
  eof : fp.eof = s.eof
  reads : s.building = none → Reads a bin app s.recs s.pos fp ∧ s.posEnd = false
  writes : ∀ piece, s.building = some piece → Building a bin app s.recs piece s.pos fp

variable {a : Attr} {bin app : Bool} {s : ByteFile} {fp : File}

/-! ### A record going out -/

theorem stored_bounds (bin : Bool) {piece : Bytes} (h : piece.length ≤ a.cap) :
    piece.length ≤ (stored a bin piece).length ∧ (stored a bin piece).length ≤ a.cap := by
  have hcap := a.cap_pos
  unfold stored rendered Attr.written
  unfold Attr.cap at h hcap ⊢
  cases hr : a.recfm
  all_goals simp only [hr] at h hcap ⊢
  case F =>
    simp only [List.length_append, List.length_take, List.length_replicate]
    omega
  case V => simpa [rdw] using h
  case U =>
    split
    · rw [List.length_singleton]
      omega
    · exact ⟨Nat.le_refl _, h⟩

theorem stored_fits_either {piece : Bytes} (h : piece.length ≤ a.cap) : a.Fits (stored a bin piece) := by
  have hbounds := stored_bounds bin h
  unfold Attr.Fits
  cases hr : a.recfm
  case F =>
    simp only [Attr.cap, hr] at h
    simp only [stored, rendered, Attr.written, hr, List.length_append, List.length_take, List.length_replicate]
    omega
  all_goals exact hbounds.2

/-- Text is filled with blanks. -/
theorem zero_not_stored {piece : Bytes} (h : ∀ b ∈ piece, b ≠ 0) : 0 ∉ stored a false piece := by
  have hblank : (0 : UInt8) ≠ blank := by decide
  have hpiece : (0 : UInt8) ∉ piece := fun hc => h 0 hc rfl
  unfold stored rendered Attr.written fillByte
  cases a.recfm with
  | F =>
    simp only [Bool.false_eq_true, if_false, List.mem_append, List.mem_replicate, hblank, and_false, or_false]
    intro hc
    rcases List.mem_append.mp (List.mem_of_mem_take hc) with hc | hc
    · exact hpiece hc
    · exact hblank (List.mem_replicate.mp hc).2
  | V => simpa [rdw] using hpiece
  | U =>
    simp only
    split
    · simpa using hblank
    · exact hpiece

/-- A record of bytes that are not X'00' reads back with all of them. -/
theorem stored_sound {piece : Bytes} (hfits : piece.length ≤ a.cap) (htext : bin = false → ∀ b ∈ piece, b ≠ 0)
    (hne : bin = true → piece ≠ []) : Sound a bin (stored a bin piece) := by
  have hbounds := stored_bounds bin hfits
  refine ⟨stored_fits_either hfits, fun hbin hc => ?_, fun hbin => ?_⟩
  · have := List.length_pos_iff.mpr (hne hbin)
    rw [hc, List.length_nil] at hbounds
    omega
  · have hbytes := htext hbin
    subst hbin
    rw [stripNul_eq_self_iff]
    exact fun hlast => zero_not_stored hbytes (List.mem_of_getLast? hlast)

/-- The room a record that goes out needs. -/
theorem closing_le (bin : Bool) {piece : Bytes} (hfits : piece.length ≤ a.cap) :
    closing a bin piece ≤ a.cap + 1 ∧ (bin = false → closing a bin piece + piece.length =
      (stored a bin piece).length + 1) ∧ (bin = true → closing a bin piece = 0) := by
  have hbounds := stored_bounds bin hfits
  unfold closing
  cases bin with
  | true => simp
  | false =>
    simp only [Bool.false_eq_true, if_false, forall_true_left, IsEmpty.forall_iff, and_true]
    omega

theorem size_add {piece : Bytes} (hsound : Sound a bin (stored a bin piece)) :
    (s.add a bin piece).size bin = s.size bin + ((stored a bin piece).length + if bin then 0 else 1) := by
  rw [ByteFile.size, ByteFile.size, ByteFile.add, byteView_append, List.length_append, byteView_cons, byteView_nil,
    List.append_nil, hsound.view_length]

namespace Views

theorem plus (h : Views a bin app s fp) : Plus a bin app fp := by
  cases hb : s.building with
  | none => exact (h.reads hb).1.plus
  | some piece => exact (h.writes piece hb).toPlus

theorem extent_eq (bin : Bool) {piece : Bytes} (hb : s.building = some piece) :
    s.extent bin = s.size bin + piece.length := by
  rw [ByteFile.extent, hb]
  rfl

/-- A record more: what it adds to the file, and where it leaves the position. -/
theorem add {piece : Bytes} (h : Views a bin app s fp) (hb : s.building = some piece) (hne : bin = true → piece ≠ []) :
    (∀ data ∈ (s.add a bin piece).recs, Sound a bin data) ∧ (s.add a bin piece).pos ≤ (s.add a bin piece).size bin ∧
      (s.add a bin piece).size bin ≤ s.size bin + a.cap + 1 ∧ s.size bin ≤ (s.add a bin piece).size bin := by
  have hw := h.writes piece hb
  have hsound := stored_sound hw.filling.fits hw.text hne
  have hbounds := stored_bounds bin hw.filling.fits
  obtain ⟨-, htext, hbinary⟩ := closing_le bin hw.filling.fits
  have hpos := h.bound
  rw [extent_eq bin hb] at hpos
  have hsize := size_add (s := s) hsound
  have hplace : (s.add a bin piece).pos = s.pos + closing a bin piece := rfl
  refine ⟨fun data hdata => ?_, ?_, ?_, ?_⟩
  · rcases List.mem_append.mp hdata with hdata | hdata
    · exact h.sound data hdata
    · exact List.mem_singleton.mp hdata ▸ hsound
  all_goals
    rw [hsize]
    cases bin with
    | true => grind
    | false => grind

/-- The flush leaves the records the file has, and room is left to count them. -/
theorem flush {piece : Bytes} (h : Views a bin app s fp) (hb : s.building = some piece) :
    (∀ data ∈ (s.flush a bin).recs, Sound a bin data) ∧ (s.flush a bin).pos ≤ (s.flush a bin).size bin ∧
      (s.flush a bin).size bin ≤ s.extent bin + a.cap + 1 ∧ s.size bin ≤ (s.flush a bin).size bin := by
  have hpos := h.bound
  have hextent := extent_eq bin hb
  cases piece with
  | nil =>
    rw [ByteFile.flush_nil hb]
    rw [hextent] at hpos ⊢
    exact ⟨h.sound, hpos, by omega, Nat.le_refl _⟩
  | cons b piece =>
    obtain ⟨hsound, hplace, hsize, hmore⟩ := h.add hb fun _ => List.cons_ne_nil b piece
    rw [ByteFile.flush_cons hb]
    exact ⟨hsound, hplace, by omega, hmore⟩

/-- A turn from writing to reading. -/
theorem turn_writes {piece : Bytes} (h : Views a bin app s fp) (hb : s.building = some piece)
    (hroom : s.extent bin + a.cap + 2 < 2 ^ 31) {target : Nat} (htarget : target < 2 ^ 31) :
    (fp.withFilepos target).fpswtIn.1 = 0 ∧ (fp.withFilepos target).fpswtIn.2.posEnd = false ∧
      Reads a bin app (s.turn a bin target).recs (s.turn a bin target).pos (fp.withFilepos target).fpswtIn.2 := by
  have hw := h.writes piece hb
  obtain ⟨hsound, -, hsize, -⟩ := h.flush hb
  have hmoved : Building a bin app s.recs piece target (fp.withFilepos target) :=
    ⟨⟨hw.opened, hw.read, hw.write, hw.record, hw.member, hw.binary, hw.append, hw.extend, hw.attr, hw.error, hw.enospc,
      hw.ungetch, hw.rcs, hw.closeRc⟩, hw.filling.of_same rfl (fun _ => hw.enospc)
        (by unfold wordSize; exact lt_trans htarget (by decide)),
      hw.recs, rfl, hw.text, hw.eof⟩
  have hcap := (closing_le bin hw.filling.fits).1
  have hflush := hmoved.fflush (s := {s with pos := target}) hb (by unfold wordSize; simp only; omega)
  obtain ⟨hrc, hends, -, hout⟩ := hflush
  have hrecs : (({s with pos := target} : ByteFile).flush a bin).recs = (s.flush a bin).recs :=
    ByteFile.flush_recs rfl rfl
  rw [hrecs] at hout
  have hlong : (byteView bin (s.flush a bin).recs).length < wordSize := by
    unfold wordSize
    unfold ByteFile.size at hsize
    omega
  obtain ⟨hrc', hends', hreads⟩ := hout.toPlus.fpswtIn hmoved.opened (Prod.ext hrc rfl) hout.recs hsound hlong
  refine ⟨hrc', hends', ?_⟩
  rw [hends, show (fp.withFilepos target).posEnd = s.posEnd from h.posEnd] at hreads
  exact hreads

/-- A turn of a reading stream, which starts over. -/
theorem turn_reads (h : Views a bin app s fp) (hb : s.building = none)
    (hroom : s.extent bin + a.cap + 2 < 2 ^ 31) (target : Nat) :
    (fp.withFilepos target).fpswtIn.1 = 0 ∧ (fp.withFilepos target).fpswtIn.2.posEnd = false ∧
      Reads a bin app (s.turn a bin target).recs (s.turn a bin target).pos (fp.withFilepos target).fpswtIn.2 := by
  obtain ⟨⟨before, held, after, hparts, hr⟩, hends⟩ := h.reads hb
  have hsound := h.sound
  have hextent : s.extent bin = (byteView bin s.recs).length := by
    rw [ByteFile.extent, hb]
    rfl
  obtain ⟨dcb, hflush, hclean, hrecs⟩ := hr.fflush (hparts ▸ hsound)
  have hmoved : (fp.withFilepos target).fflush = (0, (fp.withDcb dcb).clean.withFilepos target) := by
    rw [hr.fflush_withFilepos, hflush]
  have hplus : Plus a bin app ((fp.withDcb dcb).clean.withFilepos target) :=
    ⟨hclean.opened, hclean.read, hclean.write, hclean.record, hclean.member, hclean.binary, hclean.append,
      hclean.extend,
      hclean.attr, hclean.error, hclean.enospc, hclean.ungetch, hclean.rcs, hclean.closeRc⟩
  have hlong : (byteView bin s.recs).length < wordSize := by
    unfold wordSize
    omega
  have hopen : (fp.withFilepos target).opened = true := hr.opened
  obtain ⟨hrc, hends', hreads⟩ := hplus.fpswtIn hopen hmoved (hrecs.trans hparts.symm) hsound hlong
  refine ⟨hrc, hends', ?_⟩
  rw [show ((fp.withDcb dcb).clean.withFilepos target).posEnd = s.posEnd from h.posEnd] at hreads
  rw [ByteFile.turn, ByteFile.flush_none hb]
  exact hreads

/-- The turn to reading, and the file that is then read. -/
structure Turned (a : Attr) (bin app : Bool) (s : ByteFile) (target : Nat) (r : Int × File) : Prop where
  rc : r.1 = 0
  posEnd : r.2.posEnd = false
  reads : Reads a bin app (s.turn a bin target).recs (s.turn a bin target).pos r.2
  sound : ∀ data ∈ (s.turn a bin target).recs, Sound a bin data
  size : (s.turn a bin target).size bin ≤ s.extent bin + a.cap + 1

theorem turned (h : Views a bin app s fp) (hroom : s.extent bin + a.cap + 2 < 2 ^ 31) (target : Nat)
    (htarget : target < 2 ^ 31) : Turned a bin app s target (fp.withFilepos target).fpswtIn := by
  cases hb : s.building with
  | none =>
    obtain ⟨hrc, hends, hreads⟩ := h.turn_reads hb hroom target
    have hsame : (s.turn a bin target).recs = s.recs := by rw [ByteFile.turn, ByteFile.flush_none hb]
    refine ⟨hrc, hends, hreads, hsame ▸ h.sound, ?_⟩
    rw [ByteFile.size, hsame, ByteFile.extent]
    unfold ByteFile.size
    omega
  | some piece =>
    obtain ⟨hrc, hends, hreads⟩ := h.turn_writes hb hroom htarget
    obtain ⟨hsound, -, hsize, -⟩ := h.flush hb
    exact ⟨hrc, hends, hreads, hsound, hsize⟩

/-- A turn where the stream is. -/
theorem turned_here (h : Views a bin app s fp) (hroom : s.extent bin + a.cap + 2 < 2 ^ 31) :
    Turned a bin app s s.pos fp.fpswtIn := by
  have hpos : fp.filepos = s.pos := by
    cases hb : s.building with
    | none => exact (h.reads hb).1.filepos
    | some piece => exact (h.writes piece hb).filepos
  have hsame : fp.withFilepos s.pos = fp := by
    rw [← hpos]
    rfl
  have hbound := h.bound
  exact hsame ▸ h.turned hroom s.pos (by omega)

/-- A stream that reads, as a view of the file. -/
theorem of_reads (hreads : Reads a bin app s.recs s.pos fp) (hsound : ∀ data ∈ s.recs, Sound a bin data)
    (hb : s.building = none) (hends : fp.posEnd = false) (hends' : s.posEnd = false) (heof : fp.eof = s.eof) :
    Views a bin app s fp := by
  refine ⟨hsound, ?_, hends.trans hends'.symm, heof, fun _ => ⟨hreads, hends'⟩, fun piece hc => ?_⟩
  · have := hreads.bound
    unfold ByteFile.extent ByteFile.size
    omega
  · rw [hb] at hc
    cases hc

/-- A stream that writes, as a view of the file. -/
theorem of_building {piece : Bytes} (hb : s.building = some piece) (hw : Building a bin app s.recs piece s.pos fp)
    (hsound : ∀ data ∈ s.recs, Sound a bin data) (hbound : s.pos ≤ s.size bin + piece.length)
    (hends : fp.posEnd = s.posEnd) (heof : s.eof = false) : Views a bin app s fp := by
  refine ⟨hsound, by rw [extent_eq bin hb]; exact hbound, hends, hw.eof.trans heof.symm, fun hc => ?_, fun p hp => ?_⟩
  · rw [hb] at hc
    cases hc
  · obtain rfl : piece = p := Option.some.inj (hb.symm.trans hp)
    exact hw

/-! ### The calls -/

/-- `__fgetc()` on a DCB that reads takes the byte at the position. -/
theorem take (hreads : Reads a bin app s.recs s.pos fp) (hsound : ∀ data ∈ s.recs, Sound a bin data)
    (hb : s.building = none) (hends : fp.posEnd = false) (hends' : s.posEnd = false)
    (hlong : s.size bin < wordSize) (heof : s.eof = true → fp.eof = true) :
    fp.fgetcReading.1 = (s.take bin).1 ∧ Views a bin app (s.take bin).2 fp.fgetcReading.2 := by
  rcases hreads.fgetcReading hsound hlong with ⟨b, hbyte, hc, htook⟩ | ⟨hend, hc, hended⟩
  · have hlt : s.pos < (byteView bin s.recs).length := by
      by_contra hge
      rw [List.getElem?_eq_none (by omega)] at hbyte
      cases hbyte
    have he : s.eof = false := by
      by_contra hne
      have := hreads.eof (heof (by simpa using hne))
      omega
    rw [ByteFile.take, hbyte]
    exact ⟨hc, of_reads htook.reads hsound hb (htook.posEnd.trans hends) hends' (htook.eof.trans he.symm)⟩
  · have hnone : (byteView bin s.recs)[s.pos]? = none := List.getElem?_eq_none (Nat.le_of_eq hend)
    rw [ByteFile.take, hnone]
    exact ⟨hc, of_reads hended.reads hsound hb (hended.posEnd.trans hends) hends' hended.eof⟩

theorem getc (h : Views a bin app s fp) (hroom : s.extent bin + a.cap + 2 < 2 ^ 31) :
    fp.fgetc.1 = (s.getc a bin).1 ∧ Views a bin app (s.getc a bin).2 fp.fgetc.2 := by
  cases hb : s.building with
  | none =>
    obtain ⟨hreads, hends⟩ := h.reads hb
    have hreading : s.reading a bin = s := by simp [ByteFile.reading, hb]
    have hlong : s.size bin < wordSize := by
      unfold ByteFile.extent at hroom
      unfold wordSize
      omega
    rw [ByteFile.getc, hreading, hreads.fgetc_reading]
    exact take hreads h.sound hb (h.posEnd.trans hends) hends hlong fun hc => h.eof.trans hc
  | some piece =>
    have hw := h.writes piece hb
    have hturn := h.turned_here hroom
    have hget : fp.fgetc = fp.fpswtIn.2.fgetcReading := by
      simp [File.fgetc, hw.read, hw.error, hw.filling.dcbOut, hturn.rc]
    have hreading : s.reading a bin = s.turn a bin s.pos := by simp [ByteFile.reading, hb]
    have hsize := hturn.size
    rw [ByteFile.getc, hreading, hget]
    exact take hturn.reads hturn.sound rfl hturn.posEnd rfl (by unfold wordSize; omega) fun hc => by cases hc

theorem eof_writes {piece : Bytes} (h : Views a bin app s fp) (hb : s.building = some piece) : s.eof = false :=
  h.eof.symm.trans (h.writes piece hb).eof

/-- `__fputc()` on a DCB that writes puts the byte behind the record under construction. -/
theorem put {piece : Bytes} (h : Views a bin app s fp) (hs : s.building = some piece)
    (hroom : s.extent bin + a.cap + 2 < 2 ^ 31) {b : UInt8} (hb : bin = false → b ≠ 0) :
    (fp.putOut b.toNat).1 = b.toNat ∧ Views a bin app (s.put a bin piece b) (fp.putOut b.toNat).2 := by
  have hw := h.writes piece hs
  have hbound := h.bound
  have hextent := extent_eq bin hs
  have heof := h.eof_writes hs
  have hclosing := (closing_le bin hw.filling.fits).1
  obtain ⟨hc, hends, piece', hpiece', hout⟩ := hw.putOut hb (by unfold wordSize; omega)
  refine ⟨hc, ?_⟩
  have hput : (∀ data ∈ (s.put a bin piece b).recs, Sound a bin data) ∧
      (s.put a bin piece b).pos ≤ (s.put a bin piece b).size bin + piece'.length ∧
      (s.put a bin piece b).posEnd = s.posEnd ∧ (s.put a bin piece b).eof = s.eof := by
    unfold ByteFile.put at hpiece' ⊢
    split at hpiece'
    next hline =>
      obtain ⟨hsound, hplace, -⟩ := h.add hs fun hbin => by simp [hbin] at hline
      rw [if_pos hline]
      exact ⟨hsound, by omega, rfl, rfl⟩
    next hline =>
      rw [if_neg hline]
      split at hpiece'
      next hfull =>
        have hcap := a.cap_pos
        obtain ⟨hsound, hplace, -⟩ := h.add hs fun _ hc => by rw [hc] at hfull; simp at hfull; omega
        rw [if_pos hfull]
        refine ⟨hsound, ?_, rfl, rfl⟩
        obtain rfl := Option.some.inj hpiece'
        exact Nat.succ_le_succ hplace
      next hfull =>
        rw [if_neg hfull]
        refine ⟨h.sound, ?_, rfl, rfl⟩
        obtain rfl := Option.some.inj hpiece'
        show s.pos + 1 ≤ s.size bin + (piece ++ [b]).length
        rw [List.length_append, List.length_singleton]
        omega
  obtain ⟨hsound, hplace, hends', heof'⟩ := hput
  exact of_building hpiece' hout hsound hplace (hends.trans (h.posEnd.trans hends'.symm)) (heof'.trans heof)

theorem putc (h : Views a bin app s fp) (hroom : s.extent bin + a.cap + 2 < 2 ^ 31) {b : UInt8}
    (hb : bin = false → b ≠ 0) :
    (fp.fputc b.toNat).1 = (s.putc a bin app b).1 ∧ Views a bin app (s.putc a bin app b).2 (fp.fputc b.toNat).2 := by
  have hplus := h.plus
  cases hs : s.building with
  | some piece =>
    have hw := h.writes piece hs
    have hput : fp.fputc b.toNat = fp.putOut b.toNat := by
      simp [File.fputc, hplus.write, hplus.record, hplus.error, hw.filling.dcbOut]
    simp only [ByteFile.putc, hs, hput]
    exact h.put hs hroom hb
  | none =>
    obtain ⟨hreads, hends⟩ := h.reads hs
    have hextent : s.extent bin = s.size bin := by rw [ByteFile.extent, hs]; rfl
    have hlong : (byteView bin s.recs).length < wordSize := by
      unfold ByteFile.size at hextent
      unfold wordSize
      omega
    have hflags : fp.dcbOut = false ∧ fp.updat = !app := by
      obtain ⟨before, held, after, -, hr⟩ := hreads
      exact ⟨hr.dcbOut, hr.updat⟩
    -- at the end the byte goes behind the last record
    have hbehind : ∀ g : File, Building a bin app s.recs [] (s.size bin) g → g.posEnd = fp.posEnd →
        (g.putOut b.toNat).1 = b.toNat ∧
          Views a bin app (({s with building := some [], pos := s.size bin, eof := false} : ByteFile).put a bin [] b)
            (g.putOut b.toNat).2 := by
      intro g hg hgends
      have hview : Views a bin app {s with building := some [], pos := s.size bin, eof := false} g :=
        of_building rfl hg h.sound (Nat.le_refl _) (hgends.trans h.posEnd) rfl
      exact hview.put rfl (by rw [extent_eq bin rfl]; simpa [ByteFile.size, hextent] using hroom) hb
    by_cases hend : app = true ∨ s.size bin ≤ s.pos
    · have hcond : (app || decide (s.size bin ≤ s.pos)) = true := by simpa using hend
      simp only [ByteFile.putc, hs, if_pos hcond]
      by_cases happ : app = true
      · obtain ⟨hrc, hgends, hout⟩ := hreads.fpswtOut h.sound hlong (.inl happ)
        have hput : fp.fputc b.toNat = fp.fpswtOut.2.putOut b.toNat := by
          simp [File.fputc, hplus.write, hplus.record, hplus.error, hflags, happ, hrc]
        rw [hput]
        exact hbehind _ hout hgends
      · have hpos : s.pos = (byteView bin s.recs).length := Nat.le_antisymm hreads.bound (hend.resolve_left happ)
        obtain ⟨hrc, hgends, hout⟩ := hreads.fpupc_end h.sound hlong hpos b.toNat
        have hput : fp.fputc b.toNat = (fp.fpupc b.toNat).2.putOut b.toNat := by
          simp [File.fputc, hplus.write, hplus.record, hplus.error, hflags, happ, hrc]
        rw [hput]
        rw [hpos] at hout
        exact hbehind _ hout hgends
    · -- inside it goes over the byte at the position
      have happ : app = false := by simpa using fun hc => hend (.inl hc)
      have hlt : s.pos < s.size bin := by
        by_contra hge
        exact hend (.inr (by omega))
      have hcond : ¬ (app || decide (s.size bin ≤ s.pos)) = true := by simpa using hend
      have heof : s.eof = false := by
        by_contra hne
        have := hreads.eof (h.eof.trans (by simpa using hne))
        unfold ByteFile.size at hlt
        omega
      simp only [ByteFile.putc, hs, if_neg hcond]
      obtain ⟨hgeof, hgends, hout⟩ := hreads.fpupc_patch h.sound hlong hlt happ hb
      rcases hout with ⟨hnone, hrc, hstay⟩ | ⟨recs', moved, hsome, hrc, hmove⟩
      · have hput : fp.fputc b.toNat = (EOF, (fp.fpupc b.toNat).2) := by
          simp [File.fputc, hplus.write, hplus.record, hplus.error, hflags, happ, hrc]
        rw [hput, hnone]
        exact ⟨rfl, of_reads hstay h.sound hs (hgends.trans (h.posEnd.trans hends)) hends (hgeof.trans heof.symm)⟩
      · have hput : fp.fputc b.toNat = ((b.toNat : Int), (fp.fpupc b.toNat).2) := by
          simp [File.fputc, hplus.write, hplus.record, hplus.error, hflags, happ, hrc]
        obtain ⟨hsound, -, -⟩ := patchAt_same h.sound hb hsome
        rw [hput, hsome]
        exact ⟨rfl, of_reads hmove hsound rfl (hgends.trans (h.posEnd.trans hends)) hends (hgeof.trans heof.symm)⟩

theorem filepos (h : Views a bin app s fp) : fp.filepos = s.pos := by
  cases hb : s.building with
  | none => exact (h.reads hb).1.filepos
  | some piece => exact (h.writes piece hb).filepos

/-- The end-of-file indicator off, whatever the errno. -/
theorem withEof (h : Views a bin app s fp) {fp' : File} (hd : fp' = {fp with eof := false, errno := fp'.errno}) :
    Views a bin app {s with eof := false} fp' := by
  rw [hd]
  refine ⟨h.sound, h.bound, h.posEnd, rfl, fun hb => ?_, fun piece hb => ?_⟩
  · obtain ⟨hreads, hends⟩ := h.reads hb
    exact ⟨hreads.of_same rfl fun hc => absurd hc Bool.false_ne_true, hends⟩
  · exact (h.writes piece hb).of_same rfl rfl

theorem withErrno (h : Views a bin app s fp) (e : Errno) : Views a bin app s (fp.withErrno e) := by
  refine ⟨h.sound, h.bound, h.posEnd, h.eof, fun hb => ?_, fun piece hb => ?_⟩
  · obtain ⟨hreads, hends⟩ := h.reads hb
    exact ⟨hreads.of_same rfl hreads.eof, hends⟩
  · exact (h.writes piece hb).of_same rfl (h.writes piece hb).eof

/-- Where `seekCheck` ends a seek: at the position asked for, or at the end before it. -/
theorem seekCheck {t : ByteFile} (hreads : Reads a bin app t.recs t.pos fp) (hsound : ∀ data ∈ t.recs, Sound a bin data)
    (hb : t.building = none) (hends : fp.posEnd = false) (hends' : t.posEnd = false) (heof : t.eof = false)
    (hlong : t.size bin < 2 ^ 31) (target : Int) :
    (fp.seekCheck target).1 = (if t.pos = target then 0 else -1) ∧ Views a bin app t (fp.seekCheck target).2 := by
  have hbound := hreads.bound
  have hpos : toLong fp.filepos = t.pos := by
    unfold ByteFile.size at hlong
    rw [hreads.filepos]
    exact toLong_of_lt (by omega)
  have hoff : ∀ e : Errno, Views a bin app t ((fp.withEof false).withErrno e) := fun e =>
    of_reads (hreads.of_same rfl fun hc => absurd hc Bool.false_ne_true) hsound hb hends hends' heof.symm
  unfold File.seekCheck
  rw [hpos]
  by_cases heq : (t.pos : Int) = target
  · rw [if_neg (not_not.mpr heq), if_pos heq]
    exact ⟨rfl, of_reads (hreads.of_same rfl fun hc => absurd hc Bool.false_ne_true) hsound hb hends hends' heof.symm⟩
  · rw [if_pos heq, if_neg heq]
    exact ⟨rfl, hoff .einval⟩

theorem seekTo (h : Views a bin app s fp) (hroom : s.extent bin + a.cap + 2 < 2 ^ 31) (heof : s.eof = false)
    (hends : s.posEnd = false) {target : Int} (htarget : target < 2 ^ 31) :
    (fp.plusseekTo target).1 = (s.seekTo a bin target).1 ∧
      Views a bin app (s.seekTo a bin target).2 (fp.plusseekTo target).2 := by
  have hbound := h.bound
  have hpos : toLong fp.filepos = s.pos := by
    rw [h.filepos]
    exact toLong_of_lt (by omega)
  unfold File.plusseekTo ByteFile.seekTo
  by_cases hneg : target < 0
  · rw [if_pos hneg, if_pos hneg]
    exact ⟨rfl, h.withErrno .einval⟩
  rw [if_neg hneg, if_neg hneg, hpos]
  by_cases hhere : target = s.pos
  · rw [if_pos hhere, if_pos hhere]
    exact ⟨rfl, h⟩
  rw [if_neg hhere, if_neg hhere]
  have hturn := h.turned hroom target.toNat (by omega)
  have hturned : (s.turn a bin target.toNat).size bin < 2 ^ 31 := by
    have := hturn.size
    omega
  -- the two ways without a turn
  have hshort : s.building = none → (s.turn a bin target.toNat).recs = s.recs ∧
      (s.turn a bin target.toNat).pos = min target.toNat (byteView bin s.recs).length := by
    intro hb
    rw [ByteFile.turn, ByteFile.flush_none hb, hends]
    exact ⟨rfl, rfl⟩
  by_cases hahead : (!fp.dcbOut && decide (fp.filepos < target.toNat)) = true
  · -- reading on
    rw [Bool.and_eq_true, Bool.not_eq_true', decide_eq_true_eq] at hahead
    have hb : s.building = none := by
      cases hb : s.building with
      | none => rfl
      | some piece => exact absurd (hahead.1.symm.trans (h.writes piece hb).filling.dcbOut) Bool.false_ne_true
    obtain ⟨hreads, -⟩ := h.reads hb
    obtain ⟨hrecs, hplace⟩ := hshort hb
    rw [h.filepos] at hahead
    have hlong : (byteView bin s.recs).length < wordSize := by
      unfold ByteFile.extent ByteFile.size at hroom
      unfold wordSize
      omega
    obtain ⟨hto, hsame, hget⟩ := hreads.readTo h.sound hlong target.toNat (target.toNat - s.pos + 1)
      (by omega) (by omega)
    rw [← hplace, ← hrecs] at hto
    rw [if_pos (by simp [hahead, h.filepos]), h.filepos, hget]
    exact seekCheck hto hturn.sound rfl (hsame.trans (h.posEnd.trans hends)) rfl rfl hturned target
  rw [if_neg hahead]
  by_cases hbuf : (!fp.dcbOut && fp.ungetch == -1 && decide (toLong ((fp.filepos : Int) - fp.upto) ≤ target)) = true
  · -- back in the record that is in the buffer
    rw [if_pos hbuf]
    rw [Bool.and_eq_true, Bool.and_eq_true, Bool.not_eq_true', decide_eq_true_eq] at hbuf
    have hb : s.building = none := by
      cases hb : s.building with
      | none => rfl
      | some piece => exact absurd (hbuf.1.1.symm.trans (h.writes piece hb).filling.dcbOut) Bool.false_ne_true
    obtain ⟨⟨before, held, after, hparts, hr⟩, -⟩ := h.reads hb
    obtain ⟨hrecs, hplace⟩ := hshort hb
    have hsize := hr.size_eq
    rw [← hparts] at hsize
    have hplace' := hr.place
    have hstart : toLong ((fp.filepos : Int) - fp.upto) = (s.pos : Int) - fp.upto := by
      rw [h.filepos, ← Nat.cast_sub (by omega)]
      exact toLong_of_lt (by omega)
    have hback : target.toNat < s.pos := by
      simp only [hbuf.1.1, h.filepos, Bool.not_false, Bool.true_and, decide_eq_true_eq] at hahead
      omega
    rw [hstart] at hbuf
    have hmoved := hr.moved (h.eof.trans heof) target.toNat (by omega) hback
    have hpos' : (s.turn a bin target.toNat).pos = target.toNat := by
      rw [hplace]
      omega
    rw [h.filepos]
    refine ⟨by simp only [hpos']; rw [if_pos (by omega)], ?_⟩
    refine of_reads ⟨before, held, after, hrecs.trans hparts, ?_⟩ hturn.sound rfl (h.posEnd.trans hends) rfl
      (h.eof.trans heof)
    rw [hpos']
    exact hmoved
  rw [if_neg hbuf]
  simp only [hturn.rc, ne_eq, not_true_eq_false, if_false]
  exact seekCheck hturn.reads hturn.sound rfl hturn.posEnd rfl rfl hturned target

theorem building_iff (h : Views a bin app s fp) : fp.dcbOut = s.building.isSome := by
  cases hb : s.building with
  | none =>
    obtain ⟨⟨before, held, after, -, hr⟩, -⟩ := h.reads hb
    exact hr.dcbOut
  | some piece => exact (h.writes piece hb).filling.dcbOut

/-- A file that is off its end: the indicator says so already. -/
theorem eof_off (h : Views a bin app s fp) (heof : s.eof = false) {fp' : File}
    (hd : fp' = {fp with eof := false, errno := fp'.errno}) : Views a bin app s fp' := by
  have hview := h.withEof hd
  rw [← heof] at hview
  exact hview

/-- The end is counted before a seek that needs it. -/
theorem counted (h : Views a bin app s fp) (hroom : s.extent bin + a.cap + 2 < 2 ^ 31) (heof : s.eof = false)
    (whence : Whence) :
    (fp.posEnd = true → fp.fpswtIn.1 = 0) ∧ Views a bin app (s.counted a bin whence) (fp.counted whence) ∧
      (s.counted a bin whence).eof = false ∧ (s.counted a bin whence).posEnd = false ∧
      (s.counted a bin whence).extent bin ≤ s.extent bin + a.cap + 1 := by
  unfold ByteFile.counted File.counted
  rw [h.posEnd]
  by_cases hends : s.posEnd = true
  · have hturn := h.turned_here hroom
    rw [if_pos hends, if_pos hends]
    refine ⟨fun _ => hturn.rc, ?_, rfl, rfl, ?_⟩
    · exact of_reads (hturn.reads.of_same rfl fun hc => absurd hc Bool.false_ne_true) hturn.sound rfl hturn.posEnd rfl
        rfl
    · exact hturn.size
  rw [if_neg hends, if_neg hends]
  refine ⟨fun hc => absurd hc hends, ?_⟩
  have hends : s.posEnd = false := by simpa using hends
  by_cases hend : whence = .seekEnd
  · rw [if_pos hend, h.building_iff]
    cases hb : s.building with
    | none =>
      obtain ⟨hreads, -⟩ := h.reads hb
      have hextent : s.extent bin = s.size bin := by rw [ByteFile.extent, hb]; rfl
      have hlong : (byteView bin s.recs).length < wordSize := by
        unfold ByteFile.size at hextent
        unfold wordSize
        omega
      have hleft := hreads.size_lt_left
      obtain ⟨hended, hsame⟩ := hreads.readToEnd h.sound hlong (fp.left + 1) (by omega)
      simp only [hend, decide_true, Option.isNone_none, Bool.and_self, if_true, Option.isSome_none, Bool.false_eq_true,
        if_false, hsame]
      refine ⟨of_reads (hended.reads.of_same rfl fun hc => absurd hc Bool.false_ne_true) h.sound rfl
        (hended.posEnd.trans (h.posEnd.trans hends)) hends heof.symm, heof, hends, ?_⟩
      show s.size bin + 0 ≤ _
      omega
    | some piece =>
      simp only [Option.isNone_some, Bool.and_false, Bool.false_eq_true, if_false, Option.isSome_some, if_true]
      exact ⟨h.eof_off heof rfl, heof, hends, by omega⟩
  · have hcond : ¬ (decide (whence = .seekEnd) && s.building.isNone) = true := by simp [hend]
    rw [if_neg hend, if_neg hcond]
    exact ⟨h, heof, hends, by omega⟩

/-- `plusseek()`, the end counted. -/
theorem plusseek_eq (h : Views a bin app s fp) (hroom : s.extent bin + a.cap + 2 < 2 ^ 31) (heof : s.eof = false)
    (offset : Int32) (whence : Whence) :
    fp.plusseek offset whence =
      if s.stays offset whence then (0, fp) else (fp.counted whence).seekFrom offset whence := by
  have hbound := h.bound
  have hpos : toLong fp.filepos = s.pos := by
    rw [h.filepos]
    exact toLong_of_lt (by omega)
  have hrc := (h.counted hroom heof whence).1
  have hhere : toLong (if whence = .seekSet then offset.toInt else fp.filepos + offset.toInt) =
      toLong ((if whence = .seekSet then 0 else (s.pos : Int)) + offset.toInt) := by
    rw [h.filepos]
    split
    · rw [Int.zero_add]
    · rfl
  unfold File.plusseek ByteFile.stays File.counted File.seekFrom
  simp only [hhere, h.building_iff, h.posEnd, hpos]
  by_cases hends : s.posEnd = true
  · have hrc := hrc (h.posEnd.trans hends)
    cases whence <;> simp [hends, hrc]
  · have hends : s.posEnd = false := by simpa using hends
    cases whence <;> cases hb : s.building.isSome <;> simp [hends]

theorem toLong_lt (n : Int) : toLong n < 2 ^ 31 := by
  unfold toLong
  rw [Int.bmod_def]
  split <;> omega

theorem seekFrom (h : Views a bin app s fp) (hroom : s.extent bin + a.cap + 2 < 2 ^ 31) (heof : s.eof = false)
    (hends : s.posEnd = false) (offset : Int32) (whence : Whence) :
    (fp.seekFrom offset whence).1 = (s.seekFrom a bin offset whence).1 ∧
      Views a bin app (s.seekFrom a bin offset whence).2 (fp.seekFrom offset whence).2 := by
  cases whence with
  | seekSet => exact h.seekTo hroom heof hends offset.toInt_lt
  | seekCur =>
    unfold File.seekFrom ByteFile.seekFrom
    rw [h.filepos]
    exact h.seekTo hroom heof hends (toLong_lt _)
  | seekEnd =>
    unfold File.seekFrom ByteFile.seekFrom
    rw [h.filepos]
    exact h.seekTo hroom heof hends (toLong_lt _)
  | other => exact ⟨rfl, h.withErrno .einval⟩

theorem seek (h : Views a bin app s fp) (hroom : s.extent bin + 2 * (a.cap + 2) < 2 ^ 31) (offset : Int32)
    (whence : Whence) :
    (fp.fseek offset whence true).1 = (s.seek a bin offset whence).1 ∧
      Views a bin app (s.seek a bin offset whence).2 (fp.fseek offset whence true).2 := by
  have hplus := h.plus
  have hclear : fp.clearerr = fp.withEof false := by
    simp [File.clearerr, File.withEof, hplus.error, hplus.enospc]
  have hview : Views a bin app {s with eof := false} (fp.withEof false) := h.withEof rfl
  -- what the pushed-back character and the indicator that is kept add is nothing
  have hdone : ∀ t : ByteFile, ∀ r : Int × File, Views a bin app t r.2 → (fp.withEof false).plusseek offset whence = r →
      fp.fseek offset whence true = r := by
    intro t r ht hr
    have hungetch : r.2.withUngetch (-1) = r.2 := by
      rw [← ht.plus.ungetch]
      rfl
    have hhold : r.2.hold fp = r.2 := by
      simp only [File.hold, hplus.error, hplus.enospc, Bool.or_false]
    have hflags : (fp.withEof false).read = true ∧ (fp.withEof false).write = true := ⟨hplus.read, hplus.write⟩
    simp only [File.fseek, File.fseekLocked, hclear, hr, hflags, Bool.and_self, if_true, hungetch, ite_self, hhold]
  have hextent : ({s with eof := false} : ByteFile).extent bin = s.extent bin := rfl
  have heq := hview.plusseek_eq (by omega) rfl offset whence
  obtain ⟨-, hcounted, heof, hends, hroom'⟩ := hview.counted (by omega) rfl whence
  have hfrom := hcounted.seekFrom (by omega) heof hends offset whence
  unfold ByteFile.seek
  by_cases hstays : ({s with eof := false} : ByteFile).stays offset whence = true
  · rw [if_pos hstays] at heq
    rw [hdone _ _ hview heq]
    simp only [if_pos hstays]
    exact ⟨trivial, hview⟩
  · rw [if_neg hstays] at heq
    rw [hdone _ _ hfrom.2 heq]
    simp only [if_neg hstays]
    exact hfrom

theorem tell (h : Views a bin app s fp) (hroom : s.extent bin + 2 * (a.cap + 2) < 2 ^ 31) :
    fp.ftell.1 = (s.tell a bin).1 ∧ Views a bin app (s.tell a bin).2 fp.ftell.2 := by
  have hzero : (0 : Int32).toInt = 0 := by decide
  unfold File.ftell ByteFile.tell
  rw [h.posEnd]
  by_cases hends : s.posEnd = true
  · -- the data set is counted
    obtain ⟨-, hview⟩ := h.seek hroom 0 .seekEnd
    have hoff : Views a bin app {s with eof := false} (fp.withEof false) := h.withEof rfl
    have hextent : ({s with eof := false} : ByteFile).extent bin = s.extent bin := rfl
    have hsize := (hoff.turned_here (by omega)).size
    set t : ByteFile := ({s with eof := false} : ByteFile).turn a bin s.pos with ht
    have hplace : t.pos = t.size bin := if_pos hends
    have hlong : toLong t.pos = t.pos := toLong_of_lt (by omega)
    have hseek : (s.seek a bin 0 .seekEnd).2 = t := by
      have hstays : ({s with eof := false} : ByteFile).stays 0 .seekEnd = false := by simp [ByteFile.stays, hends]
      have hcounted : ({s with eof := false} : ByteFile).counted a bin .seekEnd = t := if_pos hends
      simp only [ByteFile.seek, hstays, Bool.false_eq_true, if_false, hcounted, ByteFile.seekFrom, hzero,
        Int.add_zero, hlong]
      rw [ByteFile.seekTo, if_neg (by omega), if_pos rfl]
    rw [if_pos hends, if_pos hends]
    exact ⟨by simp only [hview.filepos, hseek, hlong], hview⟩
  · have hbound := h.bound
    rw [if_neg hends, if_neg hends]
    exact ⟨by simp only [h.filepos]; exact toLong_of_lt (by omega), h⟩

theorem fflush (h : Views a bin app s fp) (hroom : s.extent bin + a.cap + 2 < 2 ^ 31) :
    fp.fflush.1 = 0 ∧ Views a bin app (s.flush a bin) fp.fflush.2 := by
  cases hb : s.building with
  | none =>
    obtain ⟨⟨before, held, after, hparts, hr⟩, hends⟩ := h.reads hb
    obtain ⟨dcb, hflush, hclean, hrecs⟩ := hr.fflush (hparts ▸ h.sound)
    rw [hflush, ByteFile.flush_none hb]
    exact ⟨rfl, of_reads ⟨before, held, after, hparts, hclean⟩ h.sound hb (h.posEnd.trans hends) hends h.eof⟩
  | some piece =>
    have hw := h.writes piece hb
    have hbound := h.bound
    have hclosing := (closing_le bin hw.filling.fits).1
    obtain ⟨hsound, hplace, -⟩ := h.flush hb
    obtain ⟨hrc, hends, hempty, hout⟩ := hw.fflush hb (by unfold wordSize; omega)
    have hkeeps : (s.flush a bin).posEnd = s.posEnd ∧ (s.flush a bin).eof = s.eof := by
      cases piece with
      | nil => rw [ByteFile.flush_nil hb]; exact ⟨rfl, rfl⟩
      | cons b piece => rw [ByteFile.flush_cons hb]; exact ⟨rfl, rfl⟩
    exact ⟨hrc, of_building hempty hout hsound hplace (hends.trans (h.posEnd.trans hkeeps.1.symm))
      (hkeeps.2.trans (h.eof_writes hb))⟩

end Views

/-! ### Runs -/

/-- At the CLOSE the record under construction goes out, and one changed in place goes back. -/
theorem Views.fclose (h : Views a bin app s fp) :
    fp.fclose.1 = 0 ∧ fp.fclose.2.dcb.recs = (s.flush a bin).recs := by
  have hplus := h.plus
  have hflush : fp.fflush.1 = 0 ∧ fp.fflush.2.dcb.closeRc = 0 ∧ fp.fflush.2.dcb.recs = (s.flush a bin).recs := by
    cases hb : s.building with
    | none =>
      obtain ⟨⟨before, held, after, hparts, hr⟩, -⟩ := h.reads hb
      obtain ⟨dcb, hflush, hclean, hrecs⟩ := hr.fflush (hparts ▸ h.sound)
      rw [hflush, ByteFile.flush_none hb, hparts]
      exact ⟨rfl, hclean.closeRc, hrecs⟩
    | some piece =>
      have hw := h.writes piece hb
      cases piece with
      | nil =>
        have hnone : fp.fflush = (0, fp) := by
          simp [File.fflush, File.flushrec, hw.filling.dirty, hw.record, hw.filling.dcbOut, hw.filling.upto]
        rw [hnone, ByteFile.flush_nil hb]
        exact ⟨rfl, hw.closeRc, hw.recs⟩
      | cons b piece =>
        rw [File.fflush, hw.flushrec_eq false (.inl (Nat.succ_ne_zero _)), ByteFile.flush_cons hb]
        have hout := hw.added 0 (by decide)
        exact ⟨rfl, hw.closeRc, hout.recs⟩
  simp only [File.fclose, hplus.opened, Bool.not_true, Bool.false_eq_true, if_false, hflush.2.1, ne_eq,
    not_true_eq_false,
    hflush.1]
  exact ⟨trivial, hflush.2.2⟩

/-- The second byte of the first line is changed, and a line added. -/
def changeAndAdd : List PlusCall := [.fgetc, .fputc 0xD1, .fseek 0 .seekEnd, .fputc 0xD2]

end Libc370.Stdio
