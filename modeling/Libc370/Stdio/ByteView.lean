import Libc370.Lib.Machine
import Libc370.Stdio.Getc

/-! The byte view, and a reader's place in it.

A data set read as a byte stream is the concatenation of what its records read
as (`byteView`). `Reading d binary p fp` says that the read-only stream `fp` is
at byte `p` of the view: what is left of the buffer and the records not yet read
are the view from `p` on, and the buffer still holds the bytes just before `p`.
One `__fgetc()` is one step along the view (`fgetc_next`, `fgetc_end`), as long
as no record reads as nothing. -/
namespace Libc370.Stdio

/-- What a record reads as: its bytes, or in text its line and a newline. -/
def recordView (binary : Bool) (data : Bytes) : Bytes :=
  if binary then data else stripNul data ++ [newline]

def byteView (binary : Bool) (recs : List Bytes) : Bytes := recs.flatMap (recordView binary)

/-- Records the data set's attributes admit. -/
structure DataSet (a : Attr) where
  recs : List Bytes
  fits : ∀ data ∈ recs, a.Fits data

namespace DataSet
variable {a : Attr}

abbrev view (d : DataSet a) (binary : Bool) : Bytes := byteView binary d.recs

/-- `fopen()` for `"r"` or `"rb"`. -/
def fopenRead (d : DataSet a) (binary : Bool) : File :=
  (fpmode .r binary false false (Dcb.closed a d.recs)).fpopen

/-- No record reads as nothing: only an empty record of a binary stream does. -/
def Solid (d : DataSet a) (binary : Bool) : Prop := binary = true → ∀ data ∈ d.recs, data ≠ []

end DataSet

@[simp] theorem byteView_nil (binary : Bool) : byteView binary [] = [] := rfl

@[simp] theorem byteView_cons (binary : Bool) (data : Bytes) (recs : List Bytes) :
    byteView binary (data :: recs) = recordView binary data ++ byteView binary recs := rfl

theorem byteView_append (binary : Bool) (a b : List Bytes) :
    byteView binary (a ++ b) = byteView binary a ++ byteView binary b :=
  List.flatMap_append

theorem stripNul_length_le (data : Bytes) : (stripNul data).length ≤ data.length :=
  (List.rdropWhile_prefix _ _).length_le

theorem recordView_length_le (binary : Bool) (data : Bytes) :
    (recordView binary data).length ≤ data.length + 1 := by
  have := stripNul_length_le data
  cases binary
  · simp [recordView]; omega
  · simp [recordView]

theorem recordView_pos {binary : Bool} {data : Bytes} (h : binary = true → data ≠ []) :
    0 < (recordView binary data).length := by
  cases binary
  · simp [recordView]
  · simpa [recordView] using List.length_pos_iff.mpr (h rfl)

/-! ### Bringing in a record -/

namespace File

/-- The record format's way of finding the data undoes the way the record came. -/
theorem recordData_raw (a : Attr) (data : Bytes) (h : a.Fits data) :
    recordData a (a.raw data) = data := by
  have hlen := h.length_le
  have hfits := a.fits
  cases hr : a.recfm with
  | F =>
    simp only [Attr.Fits, hr] at h
    simp [recordData, Attr.raw, hr, ← h]
  | V =>
    have hroom := a.room
    simp only [hr, Attr.cap] at hroom hlen
    have hrdw := rdwLength_rdw (data.length + 4) (by omega) data
    simp only [recordData, Attr.raw, hr, hrdw]
    simp [rdw]
  | U => simp [recordData, Attr.raw, hr]

theorem load_endbuf (fp : File) (data : Bytes) :
    (fp.load data).endbuf = (recordView fp.binary data).length := by
  cases hb : fp.binary <;> simp [load, recordView, hb]

/-- What `load` leaves: the record's view at the front of the buffer. -/
theorem load_buf (fp : File) (data : Bytes) (h : data.length < fp.buf.length) :
    (fp.load data).buf.take (fp.load data).endbuf = recordView fp.binary data ∧
      (fp.load data).buf.length = fp.buf.length := by
  have hstrip := stripNul_length_le data
  cases hb : fp.binary
  · simp only [load, hb, recordView, Bool.false_eq_true, if_false, List.length_append,
      List.length_set, List.length_drop]
    refine ⟨?_, by omega⟩
    rw [List.set_append_right _ _ (Nat.le_refl _), List.take_append, Nat.sub_self,
      List.take_of_length_le (by omega)]
    rw [show fp.buf.drop (stripNul data).length =
      fp.buf[(stripNul data).length] :: fp.buf.drop ((stripNul data).length + 1) from
      List.drop_eq_getElem_cons (by omega)]
    rw [List.set_cons_zero]
    simp
  · simp only [load, hb, recordView, if_true, List.take_left, true_and, List.length_append,
      List.length_drop]
    omega

end File

/-! ### A place in the view -/

/-- A byte stream open for reading only, on the data set `d`. -/
structure Plain {a : Attr} (d : DataSet a) (bin : Bool) (fp : File) : Prop where
  read : fp.read = true
  write : fp.write = false
  append : fp.append = false
  dcbOut : fp.dcbOut = false
  record : fp.record = false
  posEnd : fp.posEnd = false
  dirty : fp.dirty = false
  binary : fp.binary = bin
  attr : fp.dcb.attr = a
  recs : fp.dcb.recs = d.recs

/-- The stream is at byte `p` of the view. -/
structure Reading {a : Attr} (d : DataSet a) (bin : Bool) (p : Nat) (fp : File) : Prop
    extends Plain d bin fp where
  next : fp.dcb.next ≤ d.recs.length
  room : fp.buf.length = a.cap + 8
  upto : fp.upto ≤ fp.endbuf
  endbuf : fp.endbuf ≤ a.cap + 1
  filepos : fp.filepos = p % wordSize
  behind : fp.upto ≤ p
  view : (d.view bin).drop (p - fp.upto) =
    fp.buf.take fp.endbuf ++ byteView bin (d.recs.drop fp.dcb.next)
  bound : p ≤ (d.view bin).length
  eof : fp.eof = true → p = (d.view bin).length

/-- A place from which the next `__fgetc()` reads: no error, nothing pushed back. -/
structure At {a : Attr} (d : DataSet a) (bin : Bool) (p : Nat) (fp : File) : Prop
    extends Reading d bin p fp where
  error : fp.error = false
  ungetch : fp.ungetch = -1

variable {a : Attr} {d : DataSet a} {bin : Bool} {p : Nat} {fp : File}

theorem fopenRead_at (d : DataSet a) (bin : Bool) : At d bin 0 (d.fopenRead bin) := by
  constructor
  case toReading =>
    constructor
    case toPlain => constructor <;> rfl
    all_goals simp [DataSet.fopenRead, File.fpopen, fpmode, File.openMode, Dcb.closed, Dcb.aopen, File.attr]
  case error => rfl
  case ungetch => rfl

namespace Plain

theorem fgetc_reading (h : Plain d bin fp) : fp.fgetc = fp.fgetcReading := by
  unfold File.fgetc
  simp only [h.read, h.dcbOut, Bool.not_true, Bool.false_eq_true, if_false]
  by_cases he : fp.error = true
  · simp [he, File.fgetcReading, h.read]
  · simp [he]

theorem fgetc_buffer (h : Plain d bin fp) (herr : fp.error = false) (hun : fp.ungetch = -1)
    (he : fp.eof = false) (hu : fp.upto < fp.endbuf) : fp.fgetc = fp.dogetc := by
  rw [h.fgetc_reading]
  simp [File.fgetcReading, h.read, herr, h.record, hun, he, hu]

theorem fgetc_record (h : Plain d bin fp) (herr : fp.error = false) (hun : fp.ungetch = -1)
    (he : fp.eof = false) (hu : ¬ fp.upto < fp.endbuf) (hn : fp.dcb.next < d.recs.length) :
    fp.fgetc = ((fp.withDcb fp.dcb.passed).load d.recs[fp.dcb.next]).dogetc := by
  have hread : fp.dcb.aread = (0, a.raw d.recs[fp.dcb.next], fp.dcb.passed) := by
    unfold Dcb.aread
    rw [h.recs, List.getElem?_eq_getElem hn, h.attr]
  have hdata : File.recordData (fp.withDcb fp.dcb.passed).attr (a.raw d.recs[fp.dcb.next]) =
      d.recs[fp.dcb.next] := by
    rw [show (fp.withDcb fp.dcb.passed).attr = a from h.attr]
    exact File.recordData_raw a _ (d.fits _ (List.getElem_mem hn))
  rw [h.fgetc_reading]
  simp [File.fgetcReading, h.read, herr, h.record, hun, he, hu, h.dirty, hread, hdata]

theorem fgetc_last (h : Plain d bin fp) (herr : fp.error = false) (hun : fp.ungetch = -1)
    (he : fp.eof = false) (hu : ¬ fp.upto < fp.endbuf) (hn : ¬ fp.dcb.next < d.recs.length) :
    fp.fgetc = (EOF, fp.withEof true) := by
  have hread : fp.dcb.aread = (-1, [], fp.dcb) := by
    unfold Dcb.aread
    rw [h.recs, List.getElem?_eq_none (by omega)]
  rw [h.fgetc_reading]
  simp [File.fgetcReading, h.read, herr, h.record, hun, he, hu, h.dirty, hread]

end Plain

namespace Reading

/-- What is left of the buffer and of the data set is the view from `p` on. -/
theorem rest (h : Reading d bin p fp) :
    (d.view bin).drop p =
      (fp.buf.take fp.endbuf).drop fp.upto ++ byteView bin (d.recs.drop fp.dcb.next) := by
  have hlen : fp.upto ≤ (fp.buf.take fp.endbuf).length := by
    have := h.upto; have := h.endbuf; have := h.room
    rw [List.length_take]; omega
  have hdrop := congrArg (List.drop fp.upto) h.view
  rw [List.drop_drop, List.drop_append_of_le_length hlen] at hdrop
  rw [← hdrop]
  congr 1
  have := h.behind
  omega

/-- The flags a read-only stream never changes, the position and the buffer are all
that `Reading` looks at. -/
theorem of_same (h : Reading d bin p fp) {fp' : File} (hd : fp' = {fp with
    ungetch := fp'.ungetch, error := fp'.error, eof := fp'.eof, enospc := fp'.enospc,
    errno := fp'.errno}) (he : fp'.eof = true → p = (d.view bin).length) :
    Reading d bin p fp' := by
  rw [hd]
  exact ⟨⟨h.read, h.write, h.append, h.dcbOut, h.record, h.posEnd, h.dirty, h.binary, h.attr, h.recs⟩, h.next, h.room,
    h.upto, h.endbuf, h.filepos, h.behind, h.view, h.bound, he⟩

/-- One byte out of the buffer. -/
theorem dogetc (h : Reading d bin p fp) (hu : fp.upto < fp.endbuf) (he : fp.eof = false) :
    (fp.dogetc).1 = (((d.view bin).getD p 0).toNat : Int) ∧
      Reading d bin (p + 1) fp.dogetc.2 ∧ p < (d.view bin).length := by
  have hbuf : fp.endbuf ≤ fp.buf.length := by rw [h.room]; have := h.endbuf; omega
  have hrest := h.rest
  have hcons : (fp.buf.take fp.endbuf).drop fp.upto =
      fp.buf[fp.upto] :: (fp.buf.take fp.endbuf).drop (fp.upto + 1) := by
    rw [List.drop_eq_getElem_cons (by rw [List.length_take]; omega)]
    simp
  rw [hcons, List.cons_append] at hrest
  have hp : p < (d.view bin).length := by
    have := congrArg List.length hrest
    simp only [List.length_drop, List.length_cons] at this
    omega
  have hbyte : (d.view bin).getD p 0 = fp.buf[fp.upto] := by
    rw [List.drop_eq_getElem_cons hp] at hrest
    rw [List.getD_eq_getElem _ _ hp]
    exact (List.cons.inj hrest).1
  refine ⟨?_, ?_, hp⟩
  · rw [hbyte]
    rw [File.dogetc, List.getD_eq_getElem _ _ (show fp.upto < fp.buf.length by omega)]
  · refine ⟨⟨h.read, h.write, h.append, h.dcbOut, h.record, h.posEnd, h.dirty, h.binary, h.attr, h.recs⟩, h.next,
      h.room, hu, h.endbuf, ?_, ?_, ?_, hp, ?_⟩
    · show (fp.filepos + 1) % wordSize = _
      rw [h.filepos, Nat.mod_add_mod]
    · show fp.upto + 1 ≤ p + 1
      exact Nat.succ_le_succ h.behind
    · show List.drop (p + 1 - (fp.upto + 1)) _ = _
      rw [Nat.add_sub_add_right]
      exact h.view
    · intro hc
      rw [show fp.dogetc.2.eof = fp.eof from rfl, he] at hc
      exact absurd hc (by decide)

/-- The next record comes into the buffer; the place does not move. -/
theorem load (h : Reading d bin p fp) (hu : fp.endbuf ≤ fp.upto) (hn : fp.dcb.next < d.recs.length)
    (he : fp.eof = false) :
    Reading d bin p ((fp.withDcb fp.dcb.passed).load d.recs[fp.dcb.next]) ∧
      ((fp.withDcb fp.dcb.passed).load d.recs[fp.dcb.next]).endbuf =
        (recordView bin d.recs[fp.dcb.next]).length := by
  have hfits := (d.fits _ (List.getElem_mem hn)).length_le
  have hview := recordView_length_le bin d.recs[fp.dcb.next]
  have hend := File.load_endbuf (fp.withDcb fp.dcb.passed) d.recs[fp.dcb.next]
  obtain ⟨hbuf, hroom⟩ := File.load_buf (fp.withDcb fp.dcb.passed) d.recs[fp.dcb.next]
    (by show _ < fp.buf.length; rw [h.room]; omega)
  rw [show (fp.withDcb fp.dcb.passed).binary = bin from h.binary] at hbuf hend
  have hrest := h.rest
  rw [List.drop_of_length_le (le_trans (List.length_take_le _ _) hu), List.nil_append,
    List.drop_eq_getElem_cons hn, byteView_cons] at hrest
  refine ⟨⟨⟨h.read, h.write, h.append, h.dcbOut, h.record, h.posEnd, h.dirty, h.binary, h.attr, h.recs⟩, hn,
    hroom.trans h.room, Nat.zero_le _, ?_, h.filepos, Nat.zero_le _, ?_, h.bound, ?_⟩, hend⟩
  · rw [hend]; omega
  · show List.drop (p - 0) _ = _
    rw [Nat.sub_zero, hrest, hbuf]
    rfl
  · intro hc
    exact absurd (he.symm.trans hc) (by decide)

end Reading

/-! ### One `__fgetc()` -/

namespace At

/-- Nothing is left: `__fgetc()` answers EOF and sets the indicator. -/
theorem fgetc_end (h : At d bin p fp) (hs : d.Solid bin) (hp : p = (d.view bin).length) :
    fp.fgetc = (EOF, fp.withEof true) ∧ At d bin p (fp.withEof true) := by
  have hat : At d bin p (fp.withEof true) :=
    ⟨h.toReading.of_same rfl (fun _ => hp), h.error, h.ungetch⟩
  refine ⟨?_, hat⟩
  by_cases he : fp.eof = true
  · have hsame : fp.withEof true = fp := by rw [← he]; rfl
    rw [h.fgetc_reading, hsame]
    simp [File.fgetcReading, h.read, h.error, h.record, h.ungetch, he]
  · have he : fp.eof = false := by simpa using he
    by_cases hu : fp.upto < fp.endbuf
    · exact absurd (h.dogetc hu he).2.2 (by omega)
    · by_cases hn : fp.dcb.next < d.recs.length
      · -- a record still to come would have something to deliver
        obtain ⟨hload, hend⟩ := h.load (by omega) hn he
        have hpos := recordView_pos (fun hb => hs hb _ (List.getElem_mem hn))
        have := (hload.dogetc (by rw [hend]; exact hpos) he).2.2
        omega
      · exact h.fgetc_last h.error h.ungetch he hu hn

/-- Something is left: `__fgetc()` delivers it and moves on by one. -/
theorem fgetc_next (h : At d bin p fp) (hs : d.Solid bin) (hp : p < (d.view bin).length) :
    fp.fgetc.1 = (((d.view bin).getD p 0).toNat : Int) ∧ At d bin (p + 1) fp.fgetc.2 ∧
      fp.fgetc.2.eof = false := by
  have he : fp.eof = false := by
    by_contra hc
    have := h.eof (by simpa using hc)
    omega
  by_cases hu : fp.upto < fp.endbuf
  · obtain ⟨hc, hr, -⟩ := h.dogetc hu he
    rw [h.fgetc_buffer h.error h.ungetch he hu]
    exact ⟨hc, ⟨hr, h.error, h.ungetch⟩, he⟩
  · by_cases hn : fp.dcb.next < d.recs.length
    · obtain ⟨hload, hend⟩ := h.load (by omega) hn he
      have hpos := recordView_pos (fun hb => hs hb _ (List.getElem_mem hn))
      obtain ⟨hc, hr, -⟩ := hload.dogetc (by rw [hend]; exact hpos) he
      rw [h.fgetc_record h.error h.ungetch he hu hn]
      exact ⟨hc, ⟨hr, h.error, h.ungetch⟩, he⟩
    · -- nothing in the buffer and no record: the view would end here
      have hrest := congrArg List.length h.rest
      rw [List.drop_of_length_le (le_trans (List.length_take_le _ _) (by omega)),
        List.drop_of_length_le (by omega : d.recs.length ≤ fp.dcb.next)] at hrest
      simp only [List.length_drop, byteView_nil, List.append_nil, List.length_nil] at hrest
      omega

end At

end Libc370.Stdio
