import Libc370.Bsam.Spanned
import Libc370.Stdio.TextLines
import Libc370.Stdio.WriteErrors

/-! The records of a variable-format data set, as `@@AWRITE` gets them (`@@aopen.asm`,
`@@awrite.asm`, `@@fflush.c`, `@@fwrite.c`).

The OPEN exit makes a data set spanned when LRECL and 4 do not fit the block. `@@AWRITE`
abends on a record whose RDW is not its length, and on one that with 4 more bytes is longer
than LRECL if the data set is spanned, than BLKSIZE if not. A record stream looks at both
before it calls. A byte stream fills its buffer up to LRECL - 4, so its longest record is
LRECL long, and there are 4 bytes too many on a spanned data set. -/
namespace Libc370.Stdio

/-! ### The OPEN exit -/

/-- What the exit has of a V data set: the DCB after the merge, where 0 says that nothing is
set, what the caller prefers, and the device. -/
structure DcbExit where
  dcblrecl : Nat
  dcbblksi : Nat
  /-- RECFM has an S. -/
  dcbrecsb : Bool
  lrecl : Nat
  blksize : Nat
  filemode : Recfm
  unitRecord : Bool
  devinfo : Nat

/-- The LRECL that `OCDCBEX` leaves. -/
def DcbExit.outLrecl (x : DcbExit) : Nat :=
  if x.dcblrecl ≠ 0 then x.dcblrecl
  else if x.unitRecord then x.devinfo
  else
    let lrecl := if x.lrecl ≠ 0 then x.lrecl else x.devinfo
    -- the row for V of the LRECL adjustments
    match x.filemode with
    | .F => lrecl + 4
    | .V => lrecl
    | .U => lrecl - 4

def DcbExit.outBlksize (x : DcbExit) : Nat :=
  let blksize := if x.dcbblksi ≠ 0 then x.dcbblksi else if x.blksize ≠ 0 then x.blksize else x.devinfo
  if blksize ≤ x.devinfo then blksize else x.devinfo

def DcbExit.outSpanned (x : DcbExit) : Bool := x.dcbrecsb || !(x.outLrecl + 4 ≤ x.outBlksize)

/-- An open that goes well: a record has room for a byte, OPEN takes no LRECL above that of
LRECL=X, and no device a block above 32760. -/
structure VarOpen extends DcbExit where
  room : 4 < toDcbExit.outLrecl
  lrecl_le : toDcbExit.outLrecl ≤ 32768
  devinfo_le : devinfo ≤ 32760

/-- The attributes the stream has then. -/
def VarOpen.attr (x : VarOpen) : Attr :=
  ⟨.V, x.outLrecl, x.outBlksize, x.room, Nat.lt_of_le_of_lt x.lrecl_le (by decide), x.outSpanned⟩

/-- What holds of them. -/
structure Attr.Variable (a : Attr) : Prop where
  recfm : a.recfm = .V
  lrecl : a.lrecl ≤ 32768
  blksize : a.blksize ≤ 32760
  unspanned : a.spanned = false → a.lrecl + 4 ≤ a.blksize

theorem VarOpen.variable (x : VarOpen) : x.attr.Variable := by
  refine ⟨rfl, x.lrecl_le, ?_, fun h => ?_⟩
  · have hdev := x.devinfo_le
    show x.outBlksize ≤ 32760
    unfold DcbExit.outBlksize
    dsimp only
    split_ifs <;> omega
  · have hspanned : x.outSpanned = false := h
    rw [DcbExit.outSpanned, Bool.or_eq_false_iff, Bool.not_eq_false', decide_eq_true_iff] at hspanned
    exact hspanned.2

/-! ### What `@@AWRITE` takes -/

/-- The tests of `WRITENEW` on a V record: the RDW, and the length. -/
structure Accepted (a : Attr) (buf : Bytes) : Prop where
  rdw : Bsam.halfword buf = buf.length
  length : buf.length + 4 ≤ if a.spanned then a.lrecl else a.blksize

/-- The number of data bytes that is the first too many for `@@AWRITE`. -/
def Attr.limit (a : Attr) : Nat := if a.spanned then a.lrecl - 7 else a.lrecl - 3

variable {a : Attr} {bin record : Bool} {fp fp' : File}

/-- A halfword below X'8000' is not negative. -/
theorem halfword_eq {buf : Bytes} {n : Nat} (hword : rdwLength buf = n) (hn : n < 2 ^ 15) : Bsam.halfword buf = n := by
  have hmod : (n : Int).bmod (2 ^ 16) = n := Int.bmod_eq_of_le (by omega) (by omega)
  unfold Bsam.halfword
  rw [hword, hmod]

theorem halfword_rdw {n : Nat} (hn : n < 2 ^ 15) (data : Bytes) : Bsam.halfword (rdw n ++ data) = n :=
  halfword_eq (rdwLength_rdw n (by omega) data) hn

theorem Attr.Variable.cap_eq (h : a.Variable) : a.cap = a.lrecl - 4 := by
  rw [Attr.cap, h.recfm]

theorem Attr.Variable.room (h : a.Variable) : 4 < a.lrecl := by
  have hroom := a.room
  rw [h.recfm] at hroom
  exact hroom

theorem Attr.Variable.limit_le (h : a.Variable) : a.limit ≤ a.cap + 1 := by
  rw [Attr.limit, h.cap_eq]
  split <;> omega

/-- The RDW and some data. -/
theorem Attr.Variable.accepted_iff (h : a.Variable) {data : Bytes} (hcap : data.length ≤ a.cap) :
    Accepted a (rdw (data.length + 4) ++ data) ↔ data.length < a.limit := by
  have hroom := h.room
  have hlrecl := h.lrecl
  have hlen : (rdw (data.length + 4) ++ data).length = data.length + 4 := by
    rw [List.length_append, Nat.add_comm]
    rfl
  rw [h.cap_eq] at hcap
  have hblksize := h.blksize
  have hiff : Accepted a (rdw (data.length + 4) ++ data) ↔
      data.length + 4 + 4 ≤ if a.spanned then a.lrecl else a.blksize := by
    refine ⟨fun hacc => hlen ▸ hacc.length, fun hlength => ⟨?_, by rw [hlen]; exact hlength⟩⟩
    have hshort : data.length + 4 < 2 ^ 15 := by
      split_ifs at hlength <;> omega
    rw [halfword_rdw hshort, hlen]
  rw [hiff, Attr.limit]
  cases hs : a.spanned with
  | true =>
    rw [if_pos rfl, if_pos rfl]
    omega
  | false =>
    have hunspanned := h.unspanned hs
    simp only [Bool.false_eq_true, if_false]
    omega

/-! ### What a stream holds -/

/-- The data bytes of the record a reading stream has in its buffer. -/
def File.loaded (fp : File) : Nat := if !fp.binary && 0 < fp.endbuf then fp.endbuf - 1 else fp.endbuf

/-- What a call leaves as it is. -/
structure Same (fp fp' : File) : Prop where
  write : fp'.write = fp.write
  append : fp'.append = fp.append
  record : fp'.record = fp.record
  binary : fp'.binary = fp.binary

theorem Same.refl (fp : File) : Same fp fp := ⟨rfl, rfl, rfl, rfl⟩

theorem Same.trans {fp'' : File} (h : Same fp fp') (h' : Same fp' fp'') : Same fp fp'' :=
  ⟨h'.write.trans h.write, h'.append.trans h.append, h'.record.trans h.record, h'.binary.trans h.binary⟩

/-- The stream when the bytes given to it make the lines `s`: what it has handed over was
accepted, and the record it builds or has read is under the limit. It holds no more than the
open line, and nothing when it is in error. -/
structure Bounded (a : Attr) (s : Lines.Cut UInt8) (fp : File) : Prop where
  attr : fp.dcb.attr = a
  calls : ∀ call ∈ fp.dcb.calls, Accepted a call.1
  room : fp.record = false → a.cap < fp.buf.length
  writing : fp.dcbOut = true → fp.write = true ∧ fp.dirty = false ∧ (fp.record = false →
    fp.endbuf = a.cap ∧ (fp.upto = 0 ∨ fp.upto < a.limit) ∧ fp.upto ≤ s.current.length ∧
      (fp.error = true → fp.upto = 0))
  reading : fp.dcbOut = false → fp.write = true → fp.append = false ∧ (fp.record = false →
    (∀ rec ∈ fp.dcb.recs, rec.length < a.limit) ∧ (fp.endbuf = 0 ∨ fp.loaded < a.limit))
  dirty : fp.dirty = true → fp.record = false ∧ fp.loaded < a.limit

variable {s s' : Lines.Cut UInt8}

/-- An empty buffer is within any line. -/
theorem Bounded.any (h : Bounded a s fp) (hempty : fp.dcbOut = true → fp.record = false → fp.upto = 0)
    (s' : Lines.Cut UInt8) : Bounded a s' fp := by
  refine ⟨h.attr, h.calls, h.room, fun hout => ?_, h.reading, h.dirty⟩
  obtain ⟨hwrite, hdirty, hbuffer⟩ := h.writing hout
  refine ⟨hwrite, hdirty, fun hrec => ?_⟩
  obtain ⟨hend, hupto, -, herr⟩ := hbuffer hrec
  have hzero := hempty hout hrec
  exact ⟨hend, hupto, by omega, herr⟩

/-- Neither the position nor the errno matters, nor what is pushed back, nor the end of file. -/
theorem Bounded.of_same (h : Bounded a s fp) (hd : fp' = {fp with
    filepos := fp'.filepos, errno := fp'.errno, ungetch := fp'.ungetch, eof := fp'.eof, enospc := fp'.enospc}) :
    Bounded a s fp' := by
  rw [hd]
  exact ⟨h.attr, h.calls, h.room, h.writing, h.reading, h.dirty⟩

theorem overlay_length (old new : Bytes) : (overlay old new).length = old.length := by
  simp only [overlay, List.length_append, List.length_take, List.length_replicate]
  omega

/-- One call of `__awrite()`. -/
theorem awrite_spec (hv : a.Variable) {d : Dcb} (hattr : d.attr = a) (buf : Bytes) :
    (d.awrite buf).2.attr = a ∧ (d.awrite buf).2.calls = d.calls ++ [(buf, d.rcs.headD 0)] ∧
      ∀ m, (∀ rec ∈ d.recs, rec.length < m) → (buf.drop 4).length < m →
        ∀ rec ∈ (d.awrite buf).2.recs, rec.length < m := by
  have hnew : (d.attr.written buf) = buf.drop 4 := by rw [Attr.written, hattr, hv.recfm]
  have hkept : ∀ old, (d.attr.rewritten old buf).length = old.length := fun old => by
    rw [Attr.rewritten, hattr, hv.recfm, overlay_length]
  have hchanged : ∀ m i, (∀ rec ∈ d.recs, rec.length < m) →
      ∀ rec ∈ d.recs.modify i (fun old => d.attr.rewritten old buf), rec.length < m := by
    intro m i hrecs rec hrec
    obtain ⟨old, hold, hlen⟩ : ∃ old ∈ d.recs, old.length = rec.length := by
      obtain ⟨j, hj, rfl⟩ := List.getElem_of_mem hrec
      rw [List.length_modify] at hj
      refine ⟨d.recs[j], List.getElem_mem _, ?_⟩
      rw [List.getElem_modify]
      split
      · exact (hkept _).symm
      · rfl
    exact hlen ▸ hrecs old hold
  have happended : ∀ m, (∀ rec ∈ d.recs, rec.length < m) → (buf.drop 4).length < m →
      ∀ rec ∈ d.recs ++ [d.attr.written buf], rec.length < m := by
    intro m hrecs hbuf rec hrec
    rcases List.mem_append.mp hrec with hrec | hrec
    · exact hrecs rec hrec
    · rw [List.mem_singleton.mp hrec, hnew]
      exact hbuf
  unfold Dcb.awrite
  by_cases hrc : d.rcs.headD 0 = 0
  · simp only [hrc, ne_eq, not_true_eq_false, if_false]
    cases hmode : d.mode with
    | updat => exact ⟨hattr, rfl, fun m hrecs _ => hchanged m _ hrecs⟩
    | input => exact ⟨hattr, rfl, happended⟩
    | output => exact ⟨hattr, rfl, happended⟩
    | extend => exact ⟨hattr, rfl, happended⟩
  · simp only [ne_eq, hrc, not_false_eq_true, if_true]
    exact ⟨hattr, trivial, fun m hrecs _ => hrecs⟩

theorem Bounded.finwrite (hv : a.Variable) (h : Bounded a s fp) {buf : Bytes} (haccepted : Accepted a buf)
    (hshort : (buf.drop 4).length < a.limit) : Bounded a s (fp.finwrite buf).2 := by
  obtain ⟨hattr, hcalls, hrecs⟩ := awrite_spec hv h.attr buf
  refine ⟨hattr, fun call hcall => ?_, h.room, h.writing, fun hout hwrite => ?_, h.dirty⟩
  · have hcall : call ∈ fp.dcb.calls ++ [(buf, fp.dcb.rcs.headD 0)] := hcalls ▸ hcall
    rcases List.mem_append.mp hcall with hcall | hcall
    · exact h.calls call hcall
    · rw [List.mem_singleton.mp hcall]
      exact haccepted
  · obtain ⟨happend, hheld⟩ := h.reading hout hwrite
    exact ⟨happend, fun hrec => ⟨hrecs a.limit (hheld hrec).1 hshort, (hheld hrec).2⟩⟩

/-- A record built from data under the limit. -/
theorem Bounded.finwrite_rdw (hv : a.Variable) (h : Bounded a s fp) (data : Bytes)
    (hlimit : data.length < a.limit) : Bounded a s (fp.finwrite (rdw (data.length + 4) ++ data)).2 := by
  have hle := hv.limit_le
  refine h.finwrite hv ((hv.accepted_iff (by omega)).mpr hlimit) ?_
  exact hlimit

/-! ### The flush -/

/-- What a flush leaves: nothing in the buffer of a stream that writes, so any line is long
enough. -/
structure Flushed (a : Attr) (fp : File) (r : Nat × File) : Prop where
  same : Same fp r.2
  dcbOut : r.2.dcbOut = fp.dcbOut
  error : r.1 = 0 → r.2.error = fp.error
  bounded : ∀ s, Bounded a s r.2

theorem Bounded.clean (h : Bounded a s fp) : Bounded a s fp.clean := by
  refine ⟨h.attr, h.calls, h.room, fun hout => ?_, h.reading, fun hc => absurd hc Bool.false_ne_true⟩
  obtain ⟨hwrite, -, hbuffer⟩ := h.writing hout
  exact ⟨hwrite, rfl, hbuffer⟩

theorem Bounded.failed (h : Bounded a s fp) (hempty : fp.dcbOut = true → fp.record = false → fp.upto = 0)
    (rc : Nat) : Bounded a s (fp.failed rc) := by
  refine ⟨h.attr, h.calls, h.room, fun hout => ?_, h.reading, h.dirty⟩
  obtain ⟨hwrite, hdirty, hbuffer⟩ := h.writing hout
  refine ⟨hwrite, hdirty, fun hrec => ?_⟩
  obtain ⟨hend, hupto, hline, -⟩ := hbuffer hrec
  exact ⟨hend, hupto, hline, fun _ => hempty hout hrec⟩

/-- The buffer is empty again. -/
theorem Bounded.withUpto_zero (h : Bounded a s fp) (s' : Lines.Cut UInt8) : Bounded a s' (fp.withUpto 0) := by
  have hzero : Bounded a s (fp.withUpto 0) := by
    refine ⟨h.attr, h.calls, h.room, fun hout => ?_, h.reading, h.dirty⟩
    obtain ⟨hwrite, hdirty, hbuffer⟩ := h.writing hout
    refine ⟨hwrite, hdirty, fun hrec => ?_⟩
    exact ⟨(hbuffer hrec).1, .inl rfl, Nat.zero_le _, fun _ => rfl⟩
  exact hzero.any (fun _ _ => rfl) s'

/-- A record overwritten in place goes back. -/
theorem Bounded.updrec (hv : a.Variable) (h : Bounded a s fp) (hdirty : fp.dirty = true) :
    Flushed a fp fp.updrec := by
  obtain ⟨hrec, hloaded⟩ := h.dirty hdirty
  have hout : fp.dcbOut = false := by
    by_contra hc
    exact Bool.false_ne_true ((h.writing (by simpa using hc)).2.1.symm.trans hdirty)
  have hlen : (fp.buf.take fp.loaded).length = fp.loaded := by
    have hroom := h.room hrec
    have hle := hv.limit_le
    rw [List.length_take]
    omega
  have hwritten : fp.updrec =
      ((fp.clean.finwrite (rdw (fp.loaded + 4) ++ fp.buf.take fp.loaded)).1,
        if (fp.clean.finwrite (rdw (fp.loaded + 4) ++ fp.buf.take fp.loaded)).1 ≠ 0 then
          (fp.clean.finwrite (rdw (fp.loaded + 4) ++ fp.buf.take fp.loaded)).2.failed
            (fp.clean.finwrite (rdw (fp.loaded + 4) ++ fp.buf.take fp.loaded)).1
        else (fp.clean.finwrite (rdw (fp.loaded + 4) ++ fp.buf.take fp.loaded)).2) := by
    have hrecfm : fp.attr.recfm = .V := by rw [File.attr, h.attr, hv.recfm]
    simp only [File.updrec, hrecfm, File.loaded]
    rfl
  have hbounded : ∀ s', Bounded a s' (fp.clean.finwrite (rdw (fp.loaded + 4) ++ fp.buf.take fp.loaded)).2 := by
    intro s'
    have hclean : Bounded a s' fp.clean := h.clean.any (fun hc => absurd (hout.symm.trans hc) Bool.false_ne_true) s'
    have hfinwrite := hclean.finwrite_rdw hv (fp.buf.take fp.loaded) (by rw [hlen]; exact hloaded)
    rwa [hlen] at hfinwrite
  rw [hwritten]
  by_cases hrc : (fp.clean.finwrite (rdw (fp.loaded + 4) ++ fp.buf.take fp.loaded)).1 = 0
  · rw [if_neg (not_not_intro hrc)]
    exact ⟨⟨rfl, rfl, rfl, rfl⟩, rfl, fun _ => rfl, hbounded⟩
  · rw [if_pos hrc]
    exact ⟨⟨rfl, rfl, rfl, rfl⟩, rfl, fun hc => absurd hc hrc,
      fun s' => (hbounded s').failed (fun hc => absurd (hout.symm.trans hc) Bool.false_ne_true) _⟩

/-- `flushrec()` of a stream whose DCB writes. -/
theorem Bounded.flushOut (hv : a.Variable) (h : Bounded a s fp) (hlimit : fp.pending.length < a.limit) :
    fp.flushOut = fp.finwrite (rdw (fp.pending.length + 4) ++ fp.pending) ∧ Bounded a s fp.flushOut.2 := by
  have hrecfm : fp.attr.recfm = .V := by rw [File.attr, h.attr, hv.recfm]
  have heq : fp.flushOut = fp.finwrite (rdw (fp.pending.length + 4) ++ fp.pending) := by
    simp only [File.flushOut, hrecfm, File.varflush]
  exact ⟨heq, heq ▸ h.finwrite_rdw hv _ hlimit⟩

/-- `flushrec()`: an empty record goes out only for a newline. -/
theorem Bounded.flushrec (hv : a.Variable) (h : Bounded a s fp) (nl : Bool) (hnl : nl = true → 0 < a.limit) :
    Flushed a fp (fp.flushrec nl) := by
  unfold File.flushrec
  by_cases hdirty : fp.dirty = true
  · simp only [hdirty, if_true]
    by_cases herr : fp.error = true
    · simp only [herr, if_true]
      have hout : fp.dcbOut = true → fp.record = false → fp.upto = 0 := fun hc =>
        absurd ((h.writing hc).2.1.symm.trans hdirty) Bool.false_ne_true
      rw [File.failFast]
      split <;>
        exact ⟨⟨rfl, rfl, rfl, rfl⟩, rfl, fun _ => rfl, fun s' => (h.clean.any hout s').of_same rfl⟩
    · rw [if_neg herr]
      exact h.updrec hv hdirty
  simp only [hdirty, Bool.false_eq_true, if_false]
  have hkept : (fp.dcbOut = true → fp.record = false → fp.upto = 0) → Flushed a fp (0, fp) :=
    fun hempty => ⟨.refl fp, rfl, fun _ => rfl, h.any hempty⟩
  by_cases hrec : fp.record = true
  · rw [if_pos hrec]
    exact hkept fun _ hc => absurd (hc.symm.trans hrec) Bool.false_ne_true
  by_cases hout : fp.dcbOut = true
  · obtain ⟨hwrite, -, hbuffer⟩ := h.writing hout
    obtain ⟨hend, hupto, hline, herror⟩ := hbuffer (by simpa using hrec)
    simp only [hrec, hout, Bool.not_true, Bool.false_eq_true, if_false]
    by_cases hnone : (fp.upto = 0 && !nl) = true
    · rw [if_pos hnone]
      exact hkept fun _ _ => by simpa using (Bool.and_eq_true_iff.mp hnone).1
    rw [if_neg hnone]
    by_cases herr : fp.error = true
    · simp only [herr, if_true]
      rw [File.failFast]
      split <;>
        exact ⟨⟨rfl, rfl, rfl, rfl⟩, rfl, fun _ => rfl, fun s' => (h.of_same rfl).withUpto_zero s'⟩
    simp only [herr, Bool.false_eq_true, if_false]
    have hpending : fp.pending.length < a.limit := by
      have hle : fp.pending.length ≤ fp.upto := by
        rw [File.pending, List.length_take]
        exact Nat.min_le_left _ _
      rcases hupto with hzero | hupto
      · have hpos := hnl (by simpa [hzero] using hnone)
        omega
      · omega
    obtain ⟨heq, hbounded⟩ := h.flushOut hv hpending
    rw [heq] at hbounded ⊢
    by_cases hrc : (fp.finwrite (rdw (fp.pending.length + 4) ++ fp.pending)).1 = 0
    · simp only [hrc, ne_eq, not_true_eq_false, if_false]
      split
      · exact ⟨⟨rfl, rfl, rfl, rfl⟩, rfl, fun _ => rfl, fun s' => (hbounded.of_same rfl).withUpto_zero s'⟩
      · exact ⟨⟨rfl, rfl, rfl, rfl⟩, rfl, fun _ => rfl, hbounded.withUpto_zero⟩
    · simp only [hrc, ne_eq, not_false_eq_true, if_true]
      refine ⟨⟨rfl, rfl, rfl, rfl⟩, rfl, fun hc => absurd hc hrc, fun s' => ?_⟩
      exact (hbounded.withUpto_zero s').failed (fun _ _ => rfl) _
  · simp only [hrec, hout, Bool.not_false, Bool.false_eq_true, if_false, if_true]
    exact hkept fun hc => absurd hc hout

theorem Bounded.fflush (hv : a.Variable) (h : Bounded a s fp) : Flushed a fp fp.fflush :=
  h.flushrec hv false fun hc => absurd hc Bool.false_ne_true

/-! ### An update stream

A stream that was opened `r+` reads until the end of the data set is met: a byte goes over
one of the record in the buffer. -/

/-- What a call on a reading DCB leaves. -/
structure Read (a : Attr) (fp fp' : File) : Prop where
  same : Same fp fp'
  dcbOut : fp'.dcbOut = false
  bounded : ∀ s, Bounded a s fp'

theorem Bounded.read (h : Bounded a s fp) (hout : fp.dcbOut = false) : Read a fp fp :=
  ⟨.refl fp, hout, h.any fun hc => absurd (hout.symm.trans hc) Bool.false_ne_true⟩

theorem Read.of_same (h : Read a fp fp') {fp'' : File} (hd : fp'' = {fp' with
    filepos := fp''.filepos, errno := fp''.errno, ungetch := fp''.ungetch, eof := fp''.eof,
    enospc := fp''.enospc, error := fp''.error, upto := fp''.upto}) : Read a fp fp'' := by
  have hout := h.dcbOut
  rw [hd]
  refine ⟨⟨h.same.write, h.same.append, h.same.record, h.same.binary⟩, hout, fun s => ?_⟩
  have hb := h.bounded s
  exact ⟨hb.attr, hb.calls, hb.room, fun hc => absurd (hout.symm.trans hc) Bool.false_ne_true, hb.reading, hb.dirty⟩

theorem Read.moved (h : Read a fp fp') (upto filepos : Nat) :
    Read a fp ((fp'.withUpto upto).withFilepos filepos) := h.of_same rfl

theorem loaded_moved (fp : File) (upto filepos : Nat) :
    ((fp.withUpto upto).withFilepos filepos).loaded = fp.loaded := rfl

theorem loaded_back (fp : File) : fp.back.loaded = fp.loaded := loaded_moved fp _ _

theorem Read.back (h : Read a fp fp') : Read a fp fp'.back := h.moved _ _

theorem Read.trans {fp'' : File} (h : Read a fp fp') (h' : Read a fp' fp'') : Read a fp fp'' :=
  ⟨h.same.trans h'.same, h'.dcbOut, h'.bounded⟩

/-- The record `__aread()` gives goes into the buffer. -/
theorem Read.load (h : Read a fp fp') {data : Bytes} (hdata : data.length < a.limit) :
    Read a fp (fp'.load data) ∧ (fp'.load data).loaded < a.limit := by
  have hlen : (if fp'.binary then data else stripNul data).length ≤ data.length := by
    split
    · exact le_refl _
    · exact stripNul_length_le data
  have hloaded : (fp'.load data).loaded < a.limit := by
    unfold File.loaded File.load
    cases hb : fp'.binary <;> simp only [hb, Bool.false_eq_true, if_true, if_false, Bool.not_true, Bool.not_false,
      Bool.true_and, Bool.false_and, Nat.zero_lt_succ, decide_true, Nat.add_sub_cancel] at hlen ⊢ <;> omega
  have hkept : ∀ {r : Bytes}, fp'.buf.length ≤ (r ++ fp'.buf.drop r.length).length := fun {r} => by
    rw [List.length_append, List.length_drop]
    omega
  refine ⟨⟨⟨h.same.write, h.same.append, h.same.record, h.same.binary⟩, h.dcbOut, fun s => ?_⟩, hloaded⟩
  have hb := h.bounded s
  refine ⟨hb.attr, hb.calls, fun hrec => (hb.room hrec).trans_le ?_,
    fun hc => absurd (h.dcbOut.symm.trans hc) Bool.false_ne_true, fun hout hwrite => ?_, fun hdirty => ?_⟩
  · unfold File.load
    dsimp only
    split
    · exact hkept
    · rw [List.length_set]
      exact hkept
  · obtain ⟨happend, hheld⟩ := hb.reading hout hwrite
    exact ⟨happend, fun hrec => ⟨(hheld hrec).1, .inr hloaded⟩⟩
  · exact ⟨(hb.dirty hdirty).1, hloaded⟩

theorem recordData_raw_length (hv : a.Variable) (data : Bytes) :
    (File.recordData a (a.raw data)).length ≤ data.length := by
  rw [File.recordData, Attr.raw, hv.recfm]
  exact (List.length_take_le' ..).trans (le_refl data.length)

/-- A byte that is read is one of a record in the buffer. -/
theorem Bounded.fgetcReading (hv : a.Variable) (h : Bounded a s fp) (hout : fp.dcbOut = false)
    (hwrite : fp.write = true) :
    Read a fp fp.fgetcReading.2 ∧
      (fp.ungetch = -1 → fp.fgetcReading.1 ≠ EOF → fp.fgetcReading.2.loaded < a.limit) := by
  have hread := h.read hout
  unfold File.fgetcReading
  by_cases hreads : (!fp.read) = true
  · rw [if_pos hreads]
    exact ⟨hread.of_same rfl, fun _ hc => absurd rfl hc⟩
  by_cases herr : fp.error = true
  · simp only [hreads, herr, Bool.false_eq_true, if_false, if_true]
    exact ⟨hread.of_same rfl, fun _ hc => absurd rfl hc⟩
  by_cases hrec : fp.record = true
  · simp only [hreads, herr, hrec, Bool.false_eq_true, if_false, if_true]
    exact ⟨hread, fun _ hc => absurd rfl hc⟩
  by_cases hunget : fp.ungetch ≠ -1
  · simp only [hreads, herr, hrec, Bool.false_eq_true, if_false, if_pos hunget]
    exact ⟨hread.of_same rfl, fun hc => absurd hc hunget⟩
  by_cases heof : fp.eof = true
  · simp only [hreads, herr, hrec, hunget, heof, Bool.false_eq_true, if_false, if_true]
    exact ⟨hread, fun _ hc => absurd rfl hc⟩
  simp only [hreads, herr, hrec, hunget, heof, Bool.false_eq_true, if_false]
  by_cases hleft : fp.upto < fp.endbuf
  · rw [if_pos hleft]
    refine ⟨hread.of_same rfl, fun _ _ => ?_⟩
    exact ((h.reading hout hwrite).2 (by simpa using hrec)).2.resolve_left (by omega)
  rw [if_neg hleft]
  -- the record before goes back if it was changed
  have hback : Read a fp (if fp.dirty = true then fp.fflush else (0, fp)).2 := by
    split
    · have hflushed := h.fflush hv
      exact ⟨hflushed.same, hflushed.dcbOut.trans hout, hflushed.bounded⟩
    · exact hread
  generalize (if fp.dirty = true then fp.fflush else (0, fp)) = flushed at hback ⊢
  obtain ⟨err, g⟩ := flushed
  dsimp only at hback ⊢
  by_cases hrc : err = 0
  · rw [if_neg (not_not_intro hrc)]
    have hg := hback.bounded s
    cases hnext : g.dcb.recs[g.dcb.next]? with
    | none =>
      simp only [Dcb.aread, hnext]
      exact ⟨hback.of_same rfl, fun _ hc => absurd rfl hc⟩
    | some data =>
      simp only [Dcb.aread, hnext, gt_iff_lt, lt_self_iff_false, if_false]
      have hdata : data.length < a.limit :=
        ((hg.reading hback.dcbOut (hback.same.write.trans hwrite)).2
          (hback.same.record.trans (by simpa using hrec))).1 data (List.mem_of_getElem? hnext)
      have hpassed : Read a fp (g.withDcb g.dcb.passed) :=
        ⟨⟨hback.same.write, hback.same.append, hback.same.record, hback.same.binary⟩, hback.dcbOut, fun s =>
          ⟨(hback.bounded s).attr, (hback.bounded s).calls, (hback.bounded s).room, (hback.bounded s).writing,
            (hback.bounded s).reading, (hback.bounded s).dirty⟩⟩
      have hattr : (g.withDcb g.dcb.passed).attr = a := hg.attr
      have hraw : g.dcb.attr = a := hg.attr
      rw [hattr, hraw]
      obtain ⟨hload, hloaded⟩ := hpassed.load ((recordData_raw_length hv data).trans_lt hdata)
      exact ⟨hload.of_same rfl, fun _ _ => hloaded⟩
  · rw [if_pos hrc]
    exact ⟨hback, fun _ hc => absurd rfl hc⟩

theorem fgetc_eq_fgetcReading (hout : fp.dcbOut = false) : fp.fgetc = fp.fgetcReading := by
  by_cases hread : (!fp.read) = true
  · rw [File.fgetc, File.fgetcReading, if_pos hread, if_pos hread]
  by_cases herr : fp.error = true
  · rw [File.fgetc, File.fgetcReading, if_neg hread, if_neg hread, if_pos herr, if_pos herr]
  · rw [File.fgetc, if_neg hread, if_neg herr, if_neg (by rw [hout]; exact Bool.false_ne_true)]

/-- Only bytes in the buffer are others, and the record may be marked. -/
theorem Read.of_buffer (h : Read a fp fp') {g : File} (hd : g = {fp' with
    buf := g.buf, upto := g.upto, filepos := g.filepos, dirty := g.dirty}) (hlen : g.buf.length = fp'.buf.length)
    (hdirty : g.record = false ∧ g.loaded < a.limit) : Read a fp g := by
  have hout := h.dcbOut
  rw [hd] at hdirty ⊢
  refine ⟨⟨h.same.write, h.same.append, h.same.record, h.same.binary⟩, hout, fun s => ?_⟩
  have hb := h.bounded s
  exact ⟨hb.attr, hb.calls, fun hr => (hb.room hr).trans_eq hlen.symm,
    fun hc => absurd (hout.symm.trans hc) Bool.false_ne_true, hb.reading, fun _ => hdirty⟩

/-- `overwrite()` in a record that is under the limit. -/
theorem Read.overwrite (hv : a.Variable) (h : Read a fp fp') (hrec : fp.record = false)
    (hloaded : fp'.loaded < a.limit) (c : Int) :
    Read a fp (fp'.overwrite c).2 ∧ (fp'.overwrite c).1 ≤ 0 := by
  have hrec' : fp'.record = false := h.same.record.trans hrec
  have hV : fp'.attr.recfm ≠ .F := by
    rw [File.attr, (h.bounded ⟨[], []⟩).attr, hv.recfm]
    decide
  unfold File.overwrite
  dsimp only
  rw [if_pos hV]
  generalize (if (!fp'.binary) = true then fp'.endbuf - 1 else fp'.endbuf) = last
  split_ifs
  · exact ⟨h.of_same rfl, le_refl 0⟩
  · exact ⟨h.of_same rfl, Int.neg_nonpos_of_nonneg Int.one_nonneg⟩
  · exact ⟨h.of_same rfl, Int.neg_nonpos_of_nonneg Int.one_nonneg⟩
  · exact ⟨h.of_buffer rfl List.length_set ⟨hrec', hloaded⟩, le_refl 0⟩

/-- A stream that turns round to writing does so behind the end of the data set. -/
theorem Bounded.fpswtEnd (hv : a.Variable) (h : Bounded a s fp) (hout : fp.dcbOut = false)
    (hwrite : fp.write = true) (herr : fp.error = false) :
    Read a fp fp.fpswtEnd.2 ∧ (fp.fpswtEnd.1 = true → fp.fpswtEnd.2.error = false) := by
  have hread := h.read hout
  have happend : fp.append = false := (h.reading hout hwrite).1
  unfold File.fpswtEnd
  by_cases heof : fp.eof = true
  · rw [if_pos heof]
    exact ⟨hread, fun _ => herr⟩
  simp only [heof, happend, Bool.false_eq_true, if_false, fgetc_eq_fgetcReading hout]
  have hgetc := (h.fgetcReading hv hout hwrite).1
  generalize fp.fgetcReading = r at hgetc ⊢
  obtain ⟨c, g⟩ := r
  dsimp only at hgetc ⊢
  by_cases hg : g.error = true
  · rw [if_pos hg]
    exact ⟨hgetc, fun hc => absurd hc Bool.false_ne_true⟩
  rw [if_neg hg]
  by_cases hc : c ≠ EOF
  · rw [if_pos hc]
    refine ⟨?_, fun hc => absurd hc Bool.false_ne_true⟩
    by_cases hunget : fp.ungetch ≠ -1
    · rw [if_pos hunget]
      exact hgetc.of_same rfl
    · rw [if_neg hunget]
      exact hgetc.back.of_same rfl
  · rw [if_neg hc]
    exact ⟨hgetc, fun _ => by simpa using hg⟩

/-- What is left when the stream may have turned round. -/
structure Turned (a : Attr) (fp : File) (fp' : File) : Prop where
  same : Same fp fp'
  bounded : ∀ s, Bounded a s fp'

theorem Read.turned (h : Read a fp fp') : Turned a fp fp' := ⟨h.same, h.bounded⟩

/-- The DD opened again, to write. -/
theorem Bounded.redcb (h : Bounded a s fp) (hwrite : fp.write = true) :
    Turned a fp (fp.redcb true).2 ∧ (fp.redcb true).2.dcbOut = true ∧
      ((fp.redcb true).2.error = fp.error) ∧ (fp.redcb true).2.upto = 0 := by
  have hopen : ∀ g : File, g = {fp with
      opened := g.opened, eof := g.eof, dcbOut := true, errno := g.errno} →
      (∀ s, Bounded a s g.fpopen) ∧ Same fp g.fpopen ∧ g.fpopen.dcbOut = true ∧ g.fpopen.error = fp.error := by
    intro g hg
    have hattr : g.dcb.attr = a := by rw [hg]; exact h.attr
    have hout : g.dcbOut = true := by rw [hg]
    have hmode : ∀ mode, (g.dcb.aopen mode).attr = a ∧ (g.dcb.aopen mode).calls = g.dcb.calls := by
      intro mode
      cases mode <;> exact ⟨hattr, rfl⟩
    have hcalls : g.dcb.calls = fp.dcb.calls := by rw [hg]
    refine ⟨fun s => ⟨(hmode _).1, ?_, fun hrec => ?_,
      fun _ => ⟨?_, rfl, fun hrec => ⟨?_, .inl rfl, Nat.zero_le _, fun _ => rfl⟩⟩,
      fun hc => ?_, fun hc => absurd hc Bool.false_ne_true⟩, ?_, hout, ?_⟩
    · intro call hcall
      refine h.calls call ?_
      rw [← hcalls, ← (hmode _).2]
      exact hcall
    · show a.cap < (if g.record then [] else List.replicate (g.dcb.attr.cap + 8) 0).length
      have hr : g.record = false := hrec
      rw [hr, hattr, if_neg Bool.false_ne_true, List.length_replicate]
      omega
    · rw [hg]
      exact hwrite
    · show (if g.dcbOut && !g.record then g.dcb.attr.cap else 0) = a.cap
      have hr : g.record = false := hrec
      rw [hout, hr, hattr]
      rfl
    · exact absurd (hout.symm.trans hc) (by decide)
    · rw [hg]
      exact ⟨rfl, rfl, rfl, rfl⟩
    · rw [hg]
      rfl
  obtain ⟨hbounded, hsame, hout, herr⟩ := hopen
    {fp with opened := false, eof := false, dcbOut := true, errno := .none} rfl
  unfold File.redcb
  dsimp only
  generalize (if fp.opened = true then fp.dcb.closeRc else 0) = rc
  by_cases hrc : rc = 0
  · rw [if_neg (not_not_intro hrc)]
    exact ⟨⟨hsame, hbounded⟩, hout, herr, rfl⟩
  · rw [if_pos hrc]
    exact ⟨⟨⟨hsame.write, hsame.append, hsame.record, hsame.binary⟩, fun s => (hbounded s).of_same rfl⟩, hout, herr,
      rfl⟩

/-- `__fpswt(fp, 1)`. -/
theorem Bounded.fpswtOut (hv : a.Variable) (h : Bounded a s fp) (hout : fp.dcbOut = false)
    (hwrite : fp.write = true) (herr : fp.error = false) :
    Turned a fp fp.fpswtOut.2 ∧ (fp.fpswtOut.1 = 0 → fp.fpswtOut.2.dcbOut = true ∧ fp.fpswtOut.2.error = false) := by
  have hread := (h.read hout).turned
  have hno : ¬ ((-1 : Int) = 0) := by decide
  unfold File.fpswtOut
  by_cases hopen : (!fp.opened) = true
  · rw [if_pos hopen]
    exact ⟨⟨⟨rfl, rfl, rfl, rfl⟩, fun s => (hread.bounded s).of_same rfl⟩, fun hc => absurd hc hno⟩
  rw [if_neg hopen]
  by_cases hmember : fp.member = true
  · rw [if_pos hmember]
    exact ⟨⟨⟨rfl, rfl, rfl, rfl⟩, fun s => (hread.bounded s).of_same rfl⟩, fun hc => absurd hc hno⟩
  rw [if_neg hmember]
  obtain ⟨hend, hgood⟩ := h.fpswtEnd hv hout hwrite herr
  generalize fp.fpswtEnd = r at hend hgood ⊢
  obtain ⟨atEnd, g⟩ := r
  dsimp only at hend hgood ⊢
  cases atEnd with
  | false => exact ⟨hend.turned, fun hc => absurd hc hno⟩
  | true =>
    simp only [Bool.not_true, Bool.false_eq_true, if_false]
    have hflushed := (hend.bounded s).fflush hv
    generalize g.fflush = r at hflushed ⊢
    obtain ⟨err, g'⟩ := r
    obtain ⟨hsame, hdcb, herror, hbounded⟩ := hflushed
    dsimp only at hsame hdcb herror hbounded ⊢
    by_cases hrc : err = 0
    · rw [if_neg (not_not_intro hrc)]
      obtain ⟨hturned, hwriting, herr', hzero⟩ := (hbounded s).redcb (hsame.write.trans (hend.same.write.trans hwrite))
      have hall : Same fp (g'.redcb true).2 := (hend.same.trans hsame).trans hturned.same
      generalize g'.redcb true = r at hturned hwriting herr' hzero hall ⊢
      obtain ⟨k, g''⟩ := r
      dsimp only at hturned hwriting herr' hzero hall ⊢
      split
      · refine ⟨⟨⟨hall.write, hall.append, hall.record, hall.binary⟩, fun s => ?_⟩, fun hc => absurd hc hno⟩
        have hfailed := (hturned.bounded s).failed (fun _ _ => hzero) 0
        exact ⟨hfailed.attr, hfailed.calls, hfailed.room, hfailed.writing, hfailed.reading, hfailed.dirty⟩
      · exact ⟨⟨⟨hall.write, hall.append, hall.record, hall.binary⟩, fun s => (hturned.bounded s).of_same rfl⟩,
          fun _ => ⟨hwriting, herr'.trans ((herror hrc).trans (hgood rfl))⟩⟩
    · rw [if_pos hrc]
      exact ⟨⟨hend.same.trans hsame, hbounded⟩, fun hc => absurd hc hno⟩

/-- `__fpupc()`. -/
theorem Bounded.fpupc (hv : a.Variable) (h : Bounded a s fp) (hout : fp.dcbOut = false) (hrec : fp.record = false)
    (hwrite : fp.write = true) (c : Int) :
    Turned a fp (fp.fpupc c).2 ∧ (0 < (fp.fpupc c).1 → (fp.fpupc c).2.dcbOut = true ∧
      (fp.fpupc c).2.error = false) := by
  have hread : Read a fp (fp.withUngetch (-1)) := (h.read hout).of_same rfl
  have hbounded := hread.bounded s
  have hno : ¬ (0 < (-1 : Int)) := by decide
  unfold File.fpupc
  dsimp only
  by_cases hnone : (fp.withUngetch (-1)).endbuf ≤ (fp.withUngetch (-1)).upto
  · rw [if_pos hnone, fgetc_eq_fgetcReading hread.dcbOut]
    obtain ⟨hgetc, hloaded⟩ := hbounded.fgetcReading hv hread.dcbOut hwrite
    have hgetc : Read a fp (fp.withUngetch (-1)).fgetcReading.2 := hread.trans hgetc
    have hloaded := hloaded rfl
    generalize (fp.withUngetch (-1)).fgetcReading = r at hgetc hloaded ⊢
    obtain ⟨k, g⟩ := r
    dsimp only at hgetc hloaded ⊢
    by_cases hg : g.error = true
    · rw [if_pos hg]
      exact ⟨hgetc.turned, fun hc => absurd hc hno⟩
    rw [if_neg hg]
    by_cases hk : k = EOF
    · rw [if_pos hk]
      obtain ⟨hturned, hgood⟩ := (hgetc.bounded s).fpswtOut hv hgetc.dcbOut (hgetc.same.write.trans hwrite)
        (by simpa using hg)
      refine ⟨⟨hgetc.same.trans hturned.same, hturned.bounded⟩, fun hpos => hgood ?_⟩
      by_contra hne
      rw [if_pos hne] at hpos
      exact absurd hpos hno
    · rw [if_neg hk]
      obtain ⟨hover, hle⟩ := hgetc.back.overwrite hv hrec ((loaded_back g).trans_lt (hloaded hk)) c
      exact ⟨hover.turned, fun hpos => absurd hpos (not_lt.mpr hle)⟩
  · rw [if_neg hnone]
    have hloaded := ((hbounded.reading hread.dcbOut hwrite).2 hrec).2.resolve_left (by omega)
    obtain ⟨hover, hle⟩ := hread.overwrite hv hrec hloaded c
    exact ⟨hover.turned, fun hpos => absurd hpos (not_lt.mpr hle)⟩

/-! ### The calls -/

/-- After a call that gave the stream what makes the lines `s`: a refused one leaves no record. -/
structure Took (a : Attr) (s : Lines.Cut UInt8) (fp fp' : File) (refused : Prop) : Prop where
  same : Same fp fp'
  bounded : Bounded a s fp'
  refused : refused → ∀ s', Bounded a s' fp'

theorem Turned.took (h : Turned a fp fp') (s : Lines.Cut UInt8) (refused : Prop) : Took a s fp fp' refused :=
  ⟨h.same, h.bounded s, fun _ => h.bounded⟩

theorem Took.trans {fp'' : File} {p q : Prop} (h : Took a s fp fp' p) (h' : Took a s' fp' fp'' q) :
    Took a s' fp fp'' q :=
  ⟨h.same.trans h'.same, h'.bounded, h'.refused⟩

/-- A byte into the record. -/
theorem Bounded.store (h : Bounded a s fp) (hout : fp.dcbOut = true) (hrec : fp.record = false)
    (herr : fp.error = false) (hlimit : fp.upto + 1 < a.limit) (hline : fp.upto + 1 ≤ s'.current.length) (b : UInt8) :
    Bounded a s' (fp.store b) := by
  obtain ⟨hwrite, hdirty, hbuffer⟩ := h.writing hout
  refine ⟨h.attr, h.calls, fun hr => ?_, fun _ => ⟨hwrite, hdirty, fun _ => ⟨(hbuffer hrec).1, .inr hlimit, hline, ?_⟩⟩,
    fun hc => absurd (hout.symm.trans hc) (by decide), fun hc => absurd (hdirty.symm.trans hc) (by decide)⟩
  · show a.cap < (fp.buf.set fp.upto b).length
    rw [List.length_set]
    exact h.room hr
  · exact fun hc => absurd (herr.symm.trans hc) Bool.false_ne_true

/-- `__fputc()` of a stream whose DCB writes. -/
theorem Bounded.putOut (hv : a.Variable) (h : Bounded a s fp) (hout : fp.dcbOut = true) (hrec : fp.record = false)
    (herr : fp.error = false) {b : UInt8}
    (hunder : a.spanned = true → (s.next (token fp.binary b)).Under a.limit) :
    Took a (s.next (token fp.binary b)) fp (fp.putOut b.toNat).2 ((fp.putOut b.toNat).1 = EOF) := by
  have hroom := hv.room
  obtain ⟨-, -, hbuffer⟩ := h.writing hout
  obtain ⟨hend, hupto, hline, -⟩ := hbuffer hrec
  by_cases hb : (!fp.binary && b == newline) = true
  · have htok : token fp.binary b = .stop true := if_pos hb
    have hcond : (!fp.binary && (b.toNat : Int) == newline.toNat) = true := by
      obtain ⟨hbin, hnl⟩ := Bool.and_eq_true_iff.mp hb
      rw [hbin, eq_of_beq hnl]
      rfl
    have hpos : 0 < a.limit := by
      rw [htok] at hunder
      cases hs : a.spanned with
      | true =>
        exact (Nat.zero_le _).trans_lt (hunder hs (s.current, true)
          (List.mem_append_left _ (List.mem_append_right _ (List.mem_singleton_self _))) (.inr rfl))
      | false =>
        rw [Attr.limit, hs, if_neg Bool.false_ne_true]
        omega
    have hadvanced : Bounded a s (fp.advance 1) := h.of_same rfl
    have hflushed := hadvanced.flushrec hv true fun _ => hpos
    have hturned : Turned a fp (fp.advance 1).fflnl.2 :=
      ⟨⟨hflushed.same.write, hflushed.same.append, hflushed.same.record, hflushed.same.binary⟩, hflushed.bounded⟩
    simp only [File.putOut, hcond, if_true]
    exact hturned.took _ _
  · have hb : (!fp.binary && b == newline) = false := by simpa using hb
    have htok : token fp.binary b = .item b := if_neg (by rw [hb]; exact Bool.false_ne_true)
    have hcond : (!fp.binary && (b.toNat : Int) == newline.toNat) = false := by
      cases hbin : fp.binary with
      | true => rfl
      | false =>
        rw [hbin, Bool.not_false, Bool.true_and, beq_eq_false_iff_ne] at hb
        rw [Bool.not_false, Bool.true_and, beq_eq_false_iff_ne]
        exact fun hc => hb (UInt8.toNat_inj.mp (by exact_mod_cast hc))
    have hnext : (s.next (token fp.binary b)).current.length = s.current.length + 1 := by
      rw [htok]
      exact List.length_append
    have hnextlimit : a.spanned = true → s.current.length + 1 < a.limit := fun hs => by
      rw [← hnext]
      refine hunder hs ((s.next (token fp.binary b)).current, false)
        (List.mem_append_right _ (List.mem_singleton_self _)) (.inl fun hc => ?_)
      rw [← List.length_eq_zero_iff, hnext] at hc
      omega
    have hcap := hv.cap_eq
    have hunspanned : a.spanned = false → a.limit = a.lrecl - 3 := fun hs => by
      rw [Attr.limit, hs, if_neg Bool.false_ne_true]
    simp only [File.putOut, hcond, Bool.false_eq_true, if_false]
    by_cases hfull : fp.upto = fp.endbuf
    · rw [if_pos hfull]
      have hflushed := h.fflush hv
      generalize fp.fflush = r at hflushed ⊢
      obtain ⟨err, g⟩ := r
      obtain ⟨hsame, hdcb, herror, hbounded⟩ := hflushed
      dsimp only at hsame hdcb herror hbounded ⊢
      by_cases hrc : err = 0
      · rw [if_neg (not_not_intro hrc)]
        have hgout : g.dcbOut = true := hdcb.trans hout
        have hgrec : g.record = false := hsame.record.trans hrec
        have hzero : g.upto = 0 :=
          Nat.le_zero.mp (((hbounded ⟨[], []⟩).writing hgout).2.2 hgrec).2.2.1
        have hone : g.upto + 1 < a.limit := by
          cases hs : a.spanned with
          | true =>
            have hlt := hnextlimit hs
            omega
          | false =>
            have heq := hunspanned hs
            omega
        refine ⟨⟨hsame.write, hsame.append, hsame.record, hsame.binary⟩,
          ((hbounded s).store hgout hgrec ((herror hrc).trans herr) hone (by omega) _).of_same rfl, fun hc => ?_⟩
        rw [byte_ne_eof] at hc
        exact hc.elim
      · rw [if_pos hrc]
        exact ⟨hsame, hbounded _, fun _ => hbounded⟩
    · simp only [if_neg hfull, ne_eq, not_true_eq_false, if_false]
      have hone : fp.upto + 1 < a.limit := by
        cases hs : a.spanned with
        | true =>
          have hlt := hnextlimit hs
          omega
        | false =>
          have heq := hunspanned hs
          omega
      refine ⟨⟨rfl, rfl, rfl, rfl⟩, (h.store hout hrec herr hone (by omega) _).of_same rfl, fun hc => ?_⟩
      rw [byte_ne_eof] at hc
      exact hc.elim

/-- **One byte.** -/
theorem Bounded.fputc (hv : a.Variable) (h : Bounded a s fp) {b : UInt8}
    (hunder : a.spanned = true → (s.next (token fp.binary b)).Under a.limit) :
    Took a (s.next (token fp.binary b)) fp (fp.fputc b.toNat).2 ((fp.fputc b.toNat).1 = EOF) := by
  -- where the buffer is not concerned, or empty
  have hidle : (fp.dcbOut = true → fp.record = false → fp.upto = 0) → Turned a fp fp := fun hempty =>
    ⟨.refl fp, h.any hempty⟩
  have herrno : ∀ {e : Errno}, Turned a fp fp → Turned a fp (fp.withErrno e) := fun hturned =>
    ⟨⟨rfl, rfl, rfl, rfl⟩, fun s => (hturned.bounded s).of_same rfl⟩
  unfold File.fputc
  by_cases hwrite : fp.write = true
  swap
  · rw [if_pos (by simpa using hwrite)]
    exact (herrno (hidle fun hout => absurd (h.writing hout).1 hwrite)).took _ _
  rw [if_neg (by simpa using hwrite)]
  by_cases hrec : fp.record = true
  · rw [if_pos hrec]
    exact (hidle fun _ hc => absurd (hc.symm.trans hrec) Bool.false_ne_true).took _ _
  have hrec' : fp.record = false := by simpa using hrec
  rw [if_neg hrec]
  by_cases herr : fp.error = true
  · rw [if_pos herr, failFast_eq]
    exact (herrno (hidle fun hout hr => ((h.writing hout).2.2 hr).2.2.2 herr)).took _ _
  have herr' : fp.error = false := by simpa using herr
  rw [if_neg herr]
  by_cases hout : fp.dcbOut = true
  · rw [if_pos hout]
    exact h.putOut hv hout hrec' herr' hunder
  have hout' : fp.dcbOut = false := by simpa using hout
  rw [if_neg hout]
  -- a stream that has turned round writes like any other
  have hturn : ∀ g : File, Turned a fp g → g.dcbOut = true → g.error = false →
      Took a (s.next (token fp.binary b)) fp (g.putOut b.toNat).2 ((g.putOut b.toNat).1 = EOF) := by
    intro g hg hgout hgerr
    have hput := (hg.bounded s).putOut (b := b) hv hgout (hg.same.record.trans hrec') hgerr
      (by rw [hg.same.binary]; exact hunder)
    rw [hg.same.binary] at hput
    exact (hg.took s False).trans hput
  by_cases hupdat : fp.updat = true
  · rw [if_pos hupdat]
    obtain ⟨hturned, hgood⟩ := h.fpupc hv hout' hrec' hwrite (b.toNat : Int)
    generalize fp.fpupc (b.toNat : Int) = r at hturned hgood ⊢
    obtain ⟨k, g⟩ := r
    dsimp only at hturned hgood ⊢
    split_ifs with hneg hzero
    · exact hturned.took _ _
    · exact hturned.took _ _
    · obtain ⟨hgout, hgerr⟩ := hgood (by omega)
      exact hturn g hturned hgout hgerr
  · rw [if_neg hupdat]
    obtain ⟨hturned, hgood⟩ := h.fpswtOut hv hout' hwrite herr'
    generalize fp.fpswtOut = r at hturned hgood ⊢
    obtain ⟨k, g⟩ := r
    dsimp only at hturned hgood ⊢
    by_cases hk : k = 0
    · obtain ⟨hgout, hgerr⟩ := hgood hk
      rw [if_neg (not_not_intro hk)]
      exact hturn g hturned hgout hgerr
    · rw [if_pos hk]
      exact hturned.took _ _

/-- Bytes in a row: in front of a refused one, or all. -/
theorem Bounded.putBytes (hv : a.Variable) (h : Bounded a s fp) (bs : Bytes)
    (hunder : a.spanned = true → ((bs.map (token fp.binary)).foldl Lines.Cut.next s).Under a.limit) :
    Took a ((bs.map (token fp.binary)).foldl Lines.Cut.next s) fp (fp.putBytes bs).2
      ((fp.putBytes bs).1 < bs.length) := by
  induction bs generalizing fp s with
  | nil => exact ⟨.refl fp, h, fun hc => absurd hc (lt_irrefl 0)⟩
  | cons b rest ih =>
    have hfirst : a.spanned = true → (s.next (token fp.binary b)).Under a.limit := fun hs =>
      Lines.Cut.Under.of_foldl (hunder hs)
    have hput := h.fputc (b := b) hv hfirst
    simp only [File.putBytes]
    generalize fp.fputc b.toNat = r at hput ⊢
    obtain ⟨c, g⟩ := r
    dsimp only at hput ⊢
    by_cases hc : c = EOF
    · rw [if_pos hc]
      exact ⟨hput.same, hput.refused hc _, fun _ => hput.refused hc⟩
    · rw [if_neg hc]
      have hrest := ih hput.bounded (by rw [hput.same.binary]; exact hunder)
      rw [hput.same.binary] at hrest
      refine ⟨hput.same.trans hrest.same, hrest.bounded, fun hlt => hrest.refused ?_⟩
      exact Nat.succ_lt_succ_iff.mp hlt

/-- The elements of `__fwrite()`. -/
theorem Bounded.fwriteLoop (hv : a.Variable) (h : Bounded a s fp) (size i : Nat) (ptr : Bytes)
    (hunder : a.spanned = true →
      (((ptr.takeD (size * i) 0).map (token fp.binary)).foldl Lines.Cut.next s).Under a.limit) :
    Same fp (fp.fwriteLoop size i ptr).2 ∧
      Bounded a (((ptr.takeD (size * i) 0).map (token fp.binary)).foldl Lines.Cut.next s)
        (fp.fwriteLoop size i ptr).2 := by
  induction i generalizing fp s ptr with
  | zero => exact ⟨.refl fp, h⟩
  | succ i ih =>
    rw [Nat.mul_succ, Nat.add_comm (size * i), takeD_add, List.map_append, List.foldl_append] at hunder ⊢
    have hput := h.putBytes hv (ptr.takeD size 0) fun hs => (hunder hs).of_foldl
    have hlen : (ptr.takeD size 0).length = size := List.takeD_length ..
    simp only [File.fwriteLoop]
    generalize fp.putBytes (ptr.takeD size 0) = r at hput ⊢
    obtain ⟨n, g⟩ := r
    dsimp only at hput ⊢
    by_cases hn : n < size
    · rw [if_pos hn]
      exact ⟨hput.same, hput.refused (hlen.symm ▸ hn) _⟩
    · rw [if_neg hn]
      have hrest := ih hput.bounded (ptr.drop size) (by rw [hput.same.binary]; exact hunder)
      rw [hput.same.binary] at hrest
      exact ⟨hput.same.trans hrest.1, hrest.2⟩

/-- The caller's record is looked at before it is handed over. -/
theorem Bounded.fwriteRecord (hv : a.Variable) (h : Bounded a s fp) (hrec : fp.record = true) (ptr : Bytes)
    (size nmemb : Nat) :
    Same fp (fp.fwriteRecord ptr size nmemb).2 ∧ Bounded a s (fp.fwriteRecord ptr size nmemb).2 := by
  have hroom := hv.room
  have hlrecl := hv.lrecl
  have hblksize := hv.blksize
  have hrecfm : fp.attr.recfm = .V := by rw [File.attr, h.attr, hv.recfm]
  have hattr : fp.attr = a := h.attr
  have hrefused : Same fp (fp.withErrno .einval) ∧ Bounded a s (fp.withErrno .einval) :=
    ⟨⟨rfl, rfl, rfl, rfl⟩, h.of_same rfl⟩
  have hlen : (ptr.takeD (size * nmemb) 0).length = size * nmemb := List.takeD_length ..
  unfold File.fwriteRecord
  generalize hdata : ptr.takeD (size * nmemb) 0 = data at hlen ⊢
  dsimp only
  by_cases hnone : (decide (size = 0) || decide (nmemb = 0)) = true
  · rw [if_pos hnone]
    exact ⟨.refl fp, h⟩
  rw [if_neg hnone]
  by_cases hmax : File.maxRecord fp.attr / size < nmemb
  · rw [if_pos hmax]
    exact hrefused
  rw [if_neg hmax]
  by_cases hrdw : (decide (fp.attr.recfm = .V) && (decide (size * nmemb < 4) || rdwLength data != size * nmemb
      || data.getD 2 0 != 0 || data.getD 3 0 != 0)) = true
  · rw [if_pos hrdw]
    exact hrefused
  rw [if_neg hrdw]
  have hsize : 0 < size := by
    by_contra hc
    exact hnone (by simp [Nat.le_zero.mp (not_lt.mp hc)])
  have hle : size * nmemb ≤ if a.spanned then a.lrecl - 4 else a.lrecl := by
    have hmul : nmemb * size ≤ File.maxRecord a := (Nat.le_div_iff_mul_le hsize).mp (hattr ▸ not_lt.mp hmax)
    rw [Nat.mul_comm]
    simpa [File.maxRecord, hv.recfm] using hmul
  obtain ⟨hfour, hword⟩ : 4 ≤ size * nmemb ∧ rdwLength data = size * nmemb := by
    simp only [hrecfm, decide_true, Bool.true_and, Bool.or_eq_true, decide_eq_true_eq, not_or, bne_iff_ne, ne_eq,
      not_not] at hrdw
    exact ⟨not_lt.mp hrdw.1.1.1, hrdw.1.1.2⟩
  have hhalf : Bsam.halfword data = data.length := by
    have hsmall : size * nmemb < 2 ^ 15 := by
      cases hs : a.spanned with
      | true =>
        rw [hs, if_pos rfl] at hle
        omega
      | false =>
        have hun := hv.unspanned hs
        rw [hs, if_neg Bool.false_ne_true] at hle
        omega
    rw [halfword_eq hword hsmall, hlen]
  have haccepted : Accepted a data := by
    refine ⟨hhalf, ?_⟩
    rw [hlen]
    cases hs : a.spanned with
    | true =>
      rw [hs, if_pos rfl] at hle
      rw [if_pos rfl]
      omega
    | false =>
      have hun := hv.unspanned hs
      rw [hs, if_neg Bool.false_ne_true] at hle
      rw [if_neg Bool.false_ne_true]
      omega
  have hshort : (data.drop 4).length < a.limit := by
    rw [List.length_drop, hlen, Attr.limit]
    split_ifs at hle ⊢ <;> omega
  have hfinwrite := h.finwrite hv haccepted hshort
  by_cases hrc : (fp.finwrite data).1 = 0
  · rw [if_neg (not_not_intro hrc)]
    exact ⟨⟨rfl, rfl, rfl, rfl⟩, hfinwrite.of_same rfl⟩
  · rw [if_pos hrc]
    exact ⟨⟨rfl, rfl, rfl, rfl⟩,
      hfinwrite.failed (fun _ hc => absurd (hc.symm.trans hrec) Bool.false_ne_true) _⟩

/-- **One call.** -/
theorem Bounded.writeCall (hv : a.Variable) (h : Bounded a s fp) (call : WriteCall)
    (hunder : fp.record = false → a.spanned = true →
      ((call.tokens fp.binary).foldl Lines.Cut.next s).Under a.limit) :
    Same fp (writeCall fp call).2 ∧
      Bounded a ((call.tokens fp.binary).foldl Lines.Cut.next s) (writeCall fp call).2 := by
  have hany : ∀ g : File, fp.record = true → Same fp g → Bounded a s g → ∀ s', Bounded a s' g :=
    fun g hrec hsame hg s' => hg.any (fun _ hc => absurd
      (hc.symm.trans (hsame.record.trans hrec)) Bool.false_ne_true) s'
  cases call with
  | fputc b =>
    by_cases hrec : fp.record = true
    · have hsame : (fp.fputc b.toNat).2 = fp ∨ (fp.fputc b.toNat).2 = fp.withErrno .ebadf := by
        unfold File.fputc
        by_cases hwrite : (!fp.write) = true
        · exact .inr (by rw [if_pos hwrite])
        · exact .inl (by rw [if_neg hwrite, if_pos hrec])
      show Same fp (fp.fputc b.toNat).2 ∧ Bounded a _ (fp.fputc b.toNat).2
      rcases hsame with heq | heq <;> rw [heq]
      · exact ⟨.refl fp, hany fp hrec (.refl fp) h _⟩
      · exact ⟨⟨rfl, rfl, rfl, rfl⟩, (hany fp hrec (.refl fp) h _).of_same rfl⟩
    · have hput := h.fputc (b := b) hv (hunder (by simpa using hrec))
      exact ⟨hput.same, hput.bounded⟩
  | fputs str =>
    show Same fp (fp.fputs str).2 ∧ Bounded a _ (fp.fputs str).2
    unfold File.fputs
    by_cases hrec : fp.record = true
    · rw [if_pos hrec]
      exact ⟨.refl fp, hany fp hrec (.refl fp) h _⟩
    · rw [if_neg hrec]
      have hput := h.putBytes hv (str.takeWhile (· ≠ 0)) (hunder (by simpa using hrec))
      exact ⟨hput.same, hput.bounded⟩
  | fwrite ptr size nmemb =>
    show Same fp (fp.fwrite ptr size nmemb).2 ∧ Bounded a _ (fp.fwrite ptr size nmemb).2
    unfold File.fwrite
    by_cases hwrite : fp.write = true
    swap
    · rw [if_pos (by simpa using hwrite)]
      exact ⟨⟨rfl, rfl, rfl, rfl⟩, (h.any (fun hout => absurd (h.writing hout).1 hwrite) _).of_same rfl⟩
    rw [if_neg (by simpa using hwrite)]
    by_cases herr : fp.error = true
    · rw [if_pos herr, failFast_eq]
      refine ⟨⟨rfl, rfl, rfl, rfl⟩, (h.any (fun hout hrec => ?_) _).of_same rfl⟩
      exact ((h.writing hout).2.2 hrec).2.2.2 herr
    rw [if_neg herr]
    by_cases hrec : fp.record = true
    · rw [if_pos hrec]
      obtain ⟨hsame, hbounded⟩ := h.fwriteRecord hv hrec ptr size nmemb
      exact ⟨hsame, hany _ hrec hsame hbounded _⟩
    rw [if_neg hrec]
    by_cases hsize : size = 0
    · rw [if_pos hsize, hsize]
      refine ⟨.refl fp, ?_⟩
      show Bounded a (((ptr.takeD (0 * nmemb) 0).map (token fp.binary)).foldl Lines.Cut.next s) fp
      rw [Nat.zero_mul]
      exact h
    · rw [if_neg hsize]
      exact h.fwriteLoop hv size nmemb ptr (hunder (by simpa using hrec))
  | fflush =>
    have hflushed := h.fflush hv
    exact ⟨hflushed.same, hflushed.bounded _⟩
  | clearerr =>
    refine ⟨⟨rfl, rfl, rfl, rfl⟩, h.attr, h.calls, h.room, fun hout => ?_, h.reading, h.dirty⟩
    obtain ⟨hwrite, hdirty, hbuffer⟩ := h.writing hout
    refine ⟨hwrite, hdirty, fun hrec => ?_⟩
    obtain ⟨hend, hupto, hline, -⟩ := hbuffer hrec
    exact ⟨hend, hupto, hline, fun hc => absurd hc Bool.false_ne_true⟩

/-! ### Runs -/

/-- Every record that was handed over, the last one at `fclose()`, was accepted. -/
def AllAccepted (a : Attr) (fp : File) (calls : List WriteCall) : Prop :=
  ∀ call ∈ (Machine.final writeCall fp calls).fclose.2.dcb.calls, Accepted a call.1

/-- On a spanned data set no line given to a byte stream is longer than LRECL - 8, and no record
that an update stream rewrites. -/
def ShortLines (a : Attr) (mode : Mode) (bin record : Bool) (recs : List Bytes) (calls : List WriteCall) : Prop :=
  a.spanned = true → record = false →
    (Lines.lines (calls.flatMap (WriteCall.tokens bin))).Under (a.lrecl - 7) ∧
      (mode = .rplus → ∀ rec ∈ recs, rec.length < a.lrecl - 7)

theorem Bounded.writeCalls (hv : a.Variable) (h : Bounded a s fp) (calls : List WriteCall)
    (hunder : fp.record = false → a.spanned = true →
      ((calls.flatMap (WriteCall.tokens fp.binary)).foldl Lines.Cut.next s).Under a.limit) :
    ∃ s', Bounded a s' (Machine.final Stdio.writeCall fp calls) := by
  induction calls generalizing fp s with
  | nil => exact ⟨s, h⟩
  | cons call rest ih =>
    rw [List.flatMap_cons, List.foldl_append] at hunder
    obtain ⟨hsame, hnext⟩ := h.writeCall hv call fun hrec hs => (hunder hrec hs).of_foldl
    rw [Machine.final_cons]
    refine ih hnext fun hrec hs => ?_
    rw [hsame.binary]
    exact hunder (hsame.record.symm.trans hrec) hs

/-- A stream that has just been opened. -/
theorem fopenWrite_bounded (mode : Mode) (bin record member : Bool) {recs : List Bytes}
    (hrecs : mode = .rplus → record = false → ∀ rec ∈ recs, rec.length < a.limit) (rcs : List Nat) (closeRc : Nat) :
    Bounded a ⟨[], []⟩ (fopenWrite mode bin record member (Dcb.scheduled a recs rcs closeRc)) := by
  have hattr : ∀ m, ((Dcb.scheduled a recs rcs closeRc).aopen m).attr = a ∧
      ((Dcb.scheduled a recs rcs closeRc).aopen m).calls = [] := fun m => by
    cases m <;> exact ⟨rfl, rfl⟩
  have hroom : record = false →
      a.cap < (if record = true then ([] : Bytes) else List.replicate (a.cap + 8) 0).length := fun hrec => by
    rw [hrec, if_neg Bool.false_ne_true, List.length_replicate]
    omega
  refine ⟨(hattr _).1, fun call hcall => ?_, hroom, fun hout => ?_, fun hout hwrite => ?_,
    fun hc => absurd hc Bool.false_ne_true⟩
  · have hnone : call ∈ ([] : List (Bytes × Nat)) := (hattr _).2 ▸ hcall
    exact absurd hnone List.not_mem_nil
  · have hwrite : (fopenWrite mode bin record member (Dcb.scheduled a recs rcs closeRc)).write = true := by
      cases mode <;> first | rfl | exact absurd hout Bool.false_ne_true
    refine ⟨hwrite, rfl, fun hrec => ⟨?_, .inl rfl, Nat.zero_le _, fun _ => rfl⟩⟩
    have hr : record = false := hrec
    have hendbuf : (fopenWrite mode bin record member (Dcb.scheduled a recs rcs closeRc)).endbuf =
        if (fopenWrite mode bin record member (Dcb.scheduled a recs rcs closeRc)).dcbOut && !record then a.cap
        else 0 := rfl
    rw [hendbuf, hout, hr]
    rfl
  · have hmode : mode = .rplus := by
      cases mode with
      | rplus => rfl
      | r => exact absurd (show false = true from hwrite) Bool.false_ne_true
      | w | a | wplus | aplus => exact absurd (show true = false from hout) (by decide)
    subst hmode
    refine ⟨rfl, fun hrec => ⟨?_, .inl rfl⟩⟩
    cases member <;> exact hrecs rfl hrec

theorem fclose_dcb (fp : File) : fp.fclose.2.dcb = if fp.opened then fp.fflush.2.dcb else fp.dcb := by
  unfold File.fclose
  by_cases hopen : fp.opened = true
  · simp only [hopen, Bool.not_true, Bool.false_eq_true, if_false, if_true]
    split <;> rfl
  · simp [hopen]

/-- Lines that are short enough make records that are accepted, whatever the access method answers. -/
theorem allAccepted_of_shortLines (hv : a.Variable) (mode : Mode) (bin record member : Bool) (d : DataSet a)
    (rcs : List Nat) (closeRc : Nat) {calls : List WriteCall} (h : ShortLines a mode bin record d.recs calls) :
    AllAccepted a (fopenWrite mode bin record member (Dcb.scheduled a d.recs rcs closeRc)) calls := by
  have hcap := hv.cap_eq
  have hroom := hv.room
  have hlimit : a.spanned = true → a.limit = a.lrecl - 7 := fun hs => by rw [Attr.limit, hs, if_pos rfl]
  have hrecs : mode = .rplus → record = false → ∀ rec ∈ d.recs, rec.length < a.limit := by
    intro hmode hrec rec hmem
    cases hs : a.spanned with
    | true =>
      rw [hlimit hs]
      exact (h hs hrec).2 hmode rec hmem
    | false =>
      have hfits := (d.fits rec hmem).length_le
      rw [Attr.limit, hs, if_neg Bool.false_ne_true]
      omega
  obtain ⟨s, hfinal⟩ := (fopenWrite_bounded mode bin record member hrecs rcs closeRc).writeCalls hv calls
    fun hrec hs => by
      rw [hlimit hs]
      exact (h hs hrec).1
  intro call hcall
  rw [fclose_dcb] at hcall
  split at hcall
  · exact ((hfinal.fflush hv).bounded s).calls call hcall
  · exact hfinal.calls call hcall

/-- If it refuses nothing, the records are the pieces of the lines. -/
theorem allAccepted_iff_shortLines (hv : a.Variable) {mode : Mode} (hmode : mode.Writes) (bin record member : Bool)
    (d : DataSet a) (closeRc : Nat) (calls : List WriteCall) :
    AllAccepted a (fopenWrite mode bin record member (Dcb.scheduled a d.recs [] closeRc)) calls ↔
      ShortLines a mode bin record d.recs calls := by
  refine ⟨fun h => ?_, allAccepted_of_shortLines hv mode bin record member d [] closeRc⟩
  rintro hs rfl
  have hnot : mode ≠ .rplus := by
    rintro rfl
    rcases hmode with hmode | hmode | hmode <;> cases hmode
  refine ⟨?_, fun hc => absurd hc hnot⟩
  have hcap := hv.cap_eq
  have hlimit : a.limit = a.lrecl - 7 := by rw [Attr.limit, hs, if_pos rfl]
  have hfresh : (fopenWrite mode bin false member (Dcb.scheduled a d.recs [] closeRc)).dcb.calls = [] ∧
      (fopenWrite mode bin false member (Dcb.scheduled a d.recs [] closeRc)).dcb.rcs = [] ∧
      (fopenWrite mode bin false member (Dcb.scheduled a d.recs [] closeRc)).error = false := by
    rcases hmode with rfl | rfl | rfl <;> exact ⟨rfl, rfl, rfl⟩
  have hfilling : Filling a bin [] (fopenWrite mode bin false member (Dcb.scheduled a d.recs [] closeRc)) :=
    fopenWrite_filling hmode bin member (Dcb.scheduled a d.recs [] closeRc)
  have hfed := writeCalls_fed hfilling hfresh.2.2 hfresh.2.1 calls
  have hlog : (Machine.final writeCall (fopenWrite mode bin false member (Dcb.scheduled a d.recs [] closeRc))
      calls).fclose.2.dcb.calls =
      (Lines.sent a.cap (Lines.lines (calls.flatMap (WriteCall.tokens bin) ++ [.stop false]))).map
        (fun piece => (rendered a bin piece, 0)) := by
    rw [fclose_dcb, if_pos hfed.filling.opened]
    rcases hfed.filling.fflush_cases hfed.error with ⟨-, hone⟩ | ⟨rc, -, hbroke, -⟩
    · have hall := hfed.append hone
      rw [hall.handed.calls, hfresh.1, List.nil_append, (Lines.feed_lines a.cap_pos _).1]
    · exact absurd (hfresh.2.1 ▸ hfed.handed.rcs.subset hbroke.scheduled) List.not_mem_nil
  have hfits : a.limit ≤ a.cap := by
    rw [hlimit, hcap]
    omega
  rw [← hlimit, ← Lines.forall_sent_lt hfits, ← Lines.lines_concat]
  intro piece hpiece
  have hle : piece.length ≤ a.cap := Lines.length_of_mem_sent a.cap_pos hpiece
  have haccepted := h (rendered a bin piece, 0) (by rw [hlog]; exact List.mem_map.mpr ⟨piece, hpiece, rfl⟩)
  have hrendered : rendered a bin piece = rdw (piece.length + 4) ++ piece := by rw [rendered, hv.recfm]
  rw [hrendered] at haccepted
  exact (hv.accepted_iff hle).mp haccepted

/-- **A byte stream on a spanned data set may fill a record by 4 bytes more than `@@AWRITE` takes.**
With lines of at most LRECL - 8 bytes every record is accepted, whatever the access method
answers; if it refuses nothing, with no others. Records of a record stream are, and those of a
data set that is not spanned. -/
theorem records_accepted_iff (x : VarOpen) (mode : Mode) (bin record member : Bool) (d : DataSet x.attr)
    (rcs : List Nat) (closeRc : Nat) (calls : List WriteCall) :
    (ShortLines x.attr mode bin record d.recs calls →
        AllAccepted x.attr (fopenWrite mode bin record member (Dcb.scheduled x.attr d.recs rcs closeRc)) calls) ∧
      (mode.Writes → rcs = [] →
        (AllAccepted x.attr (fopenWrite mode bin record member (Dcb.scheduled x.attr d.recs rcs closeRc)) calls ↔
          ShortLines x.attr mode bin record d.recs calls)) := by
  refine ⟨allAccepted_of_shortLines x.variable mode bin record member d rcs closeRc, ?_⟩
  rintro hmode rfl
  exact allAccepted_iff_shortLines x.variable hmode bin record member d closeRc calls

/-- RECFM=VBS, LRECL=84 with blocks of 80 bytes. -/
def vbs84 : VarOpen where
  dcblrecl := 84
  dcbblksi := 80
  dcbrecsb := true
  lrecl := 0
  blksize := 0
  filemode := .V
  unitRecord := false
  devinfo := 32760
  room := by decide
  lrecl_le := by decide
  devinfo_le := by decide

/-- A line that has its record accepted. -/
theorem records_accepted_short :
    AllAccepted vbs84.attr (fopenWrite .w false false false (Dcb.scheduled vbs84.attr [] [] 0))
      [.fputs [0xC1, newline]] :=
  ((records_accepted_iff vbs84 .w false false false ⟨[], by simp⟩ [] 0 [.fputs [0xC1, newline]]).2 (.inl rfl)
    rfl).mpr fun _ _ => ⟨by unfold Lines.Cut.Under; decide, fun hc => absurd hc (by decide)⟩

/-- A line of 80 bytes fills the record, and the job abends. -/
theorem full_record_abends :
    ¬ ∀ (x : VarOpen) (mode : Mode) (bin record member : Bool) (d : DataSet x.attr) (rcs : List Nat) (closeRc : Nat)
      (calls : List WriteCall),
      AllAccepted x.attr (fopenWrite mode bin record member (Dcb.scheduled x.attr d.recs rcs closeRc)) calls := by
  intro h
  have hshort := (allAccepted_iff_shortLines vbs84.variable (.inl rfl) false false false ⟨[], by simp⟩ 0
    [.fwrite (List.replicate 80 0xC1) 80 1]).mp (h vbs84 .w false false false ⟨[], by simp⟩ [] 0 _)
  have hline := (hshort rfl rfl).1 (List.replicate 80 0xC1, false)
    (List.mem_append_right _ (List.mem_singleton.mpr (by rfl))) (.inl (by decide))
  exact absurd hline (by decide)

end Libc370.Stdio
