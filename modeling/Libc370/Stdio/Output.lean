import Libc370.Lib.Lines
import Libc370.Stdio.Putc

/-! The record buffer of a writing stream.

`Filling a bin pend fp` says that the DCB writes and the buffer holds `pend`. The
stream is then the writer of `Libc370.Lines`: a byte is an item, the newline of a
text stream a hard stop, a flush a soft one. `Fed` says that the calls on the
stream did what the writer does on the tokens: the same pieces went to the access
method, each rendered as a record, and on a text stream the position has moved by
what these records read back as. The other way a call can end is `Broke`, a write
that the access method refused. -/
namespace Libc370.Stdio

/-- The fill byte of a short F record and of an empty U record. -/
def fillByte (bin : Bool) : UInt8 := if bin then 0 else blank

/-- A piece as `__awrite()` gets it. -/
def rendered (a : Attr) (bin : Bool) (piece : Bytes) : Bytes :=
  match a.recfm with
  | .F => piece ++ List.replicate (a.lrecl - piece.length) (fillByte bin)
  | .V => rdw (piece.length + 4) ++ piece
  | .U => if piece.length = 0 then [fillByte bin] else piece

/-- A piece as it is on the data set. -/
def stored (a : Attr) (bin : Bool) (piece : Bytes) : Bytes := a.written (rendered a bin piece)

/-- What a byte given to a stream means for its lines. -/
def token (bin : Bool) (b : UInt8) : Lines.Token UInt8 :=
  if !bin && b == newline then .stop true else .item b

variable {a : Attr} {bin : Bool} {pend : Bytes} {fp fp' fp'' : File}

/-- The bytes that are data: the newline of a text stream is not. -/
def dataBytes (bin : Bool) (bs : Bytes) : Bytes := bs.filter (fun b => bin || b != newline)

theorem items_token (bin : Bool) (bs : Bytes) : Lines.items (bs.map (token bin)) = dataBytes bin bs := by
  induction bs with
  | nil => rfl
  | cons b rest ih =>
    have hcons : Lines.items ((b :: rest).map (token bin)) =
        Lines.items [token bin b] ++ Lines.items (rest.map (token bin)) := Lines.items_append [_] _
    rw [hcons, ih]
    by_cases hb : (!bin && b == newline) = true
    · have htok : token bin b = .stop true := if_pos hb
      have hdrop : (bin || b != newline) = false := by
        obtain ⟨hbin, hnl⟩ := Bool.and_eq_true_iff.mp hb
        obtain rfl : bin = false := by simpa using hbin
        simpa using hnl
      rw [htok, dataBytes, dataBytes, List.filter_cons_of_neg (by rw [hdrop]; decide)]
      rfl
    · have htok : token bin b = .item b := if_neg hb
      have hkeep : (bin || b != newline) = true := by
        cases bin with
        | true => rfl
        | false => simpa using hb
      rw [htok, dataBytes, dataBytes, List.filter_cons_of_pos (by rw [hkeep])]
      rfl

/-! ### The buffer -/

/-- A byte stream whose DCB writes, with `pend` in the record buffer. -/
structure Filling (a : Attr) (bin : Bool) (pend : Bytes) (fp : File) : Prop where
  opened : fp.opened = true
  write : fp.write = true
  dcbOut : fp.dcbOut = true
  record : fp.record = false
  dirty : fp.dirty = false
  binary : fp.binary = bin
  attr : fp.dcb.attr = a
  mode : fp.dcb.mode ≠ .updat
  room : a.cap < fp.buf.length
  endbuf : fp.endbuf = a.cap
  upto : fp.upto = pend.length
  pending : fp.pending = pend
  fits : pend.length ≤ a.cap
  enospc : fp.error = false → fp.enospc = false
  word : fp.filepos < wordSize

/-- The pieces `out` went to the access method, which took them all. -/
structure Handed (a : Attr) (bin : Bool) (out : List Bytes) (fp fp' : File) : Prop where
  calls : fp'.dcb.calls = fp.dcb.calls ++ out.map (fun piece => (rendered a bin piece, 0))
  recs : fp'.dcb.recs = fp.dcb.recs ++ out.map (stored a bin)
  rcs : fp'.dcb.rcs <:+ fp.dcb.rcs

/-- Bytes that text records read back as. -/
def textSize (a : Attr) (out : List Bytes) : Nat :=
  (out.map (fun piece => (stored a false piece).length + 1)).sum

/-- The stream did what the writer of lines does on `tokens`. -/
structure Fed (a : Attr) (bin : Bool) (tokens : List (Lines.Token UInt8)) (pend : Bytes) (fp fp' : File) :
    Prop where
  filling : Filling a bin (Machine.final (Lines.feed a.cap) pend tokens) fp'
  handed : Handed a bin (Machine.answers (Lines.feed a.cap) pend tokens).flatten fp fp'
  error : fp'.error = false
  filepos : bin = false →
    (fp'.filepos + pend.length) % wordSize =
      (fp.filepos + textSize a (Machine.answers (Lines.feed a.cap) pend tokens).flatten +
        (Machine.final (Lines.feed a.cap) pend tokens).length) % wordSize

/-- The access method took some writes and then refused one with `rc`. -/
structure Broke (rc : Nat) (fp fp' : File) : Prop where
  calls : ∃ before buf, fp'.dcb.calls = fp.dcb.calls ++ before ++ [(buf, rc)] ∧ ∀ call ∈ before, call.2 = 0
  refused : rc ≠ 0
  scheduled : rc ∈ fp.dcb.rcs
  error : fp'.error = true
  enospc : fp'.enospc = (rc == 12)
  errno : fp'.errno = if rc = 12 then .enospc else .eio

theorem Handed.of_dcb (h : fp'.dcb = fp.dcb) : Handed a bin [] fp fp' := by
  refine ⟨?_, ?_, ?_⟩ <;> simp [h]

theorem Handed.trans {out out' : List Bytes} (h : Handed a bin out fp fp') (h' : Handed a bin out' fp' fp'') :
    Handed a bin (out ++ out') fp fp'' := by
  refine ⟨?_, ?_, h'.rcs.trans h.rcs⟩
  · rw [h'.calls, h.calls, List.map_append, List.append_assoc]
  · rw [h'.recs, h.recs, List.map_append, List.append_assoc]

theorem textSize_append (a : Attr) (out out' : List Bytes) :
    textSize a (out ++ out') = textSize a out + textSize a out' := by
  simp [textSize]

theorem Fed.nil (h : Filling a bin pend fp) (herr : fp.error = false) : Fed a bin [] pend fp fp :=
  ⟨h, .of_dcb rfl, herr, fun _ => rfl⟩

theorem Fed.append {s t : List (Lines.Token UInt8)} (h : Fed a bin s pend fp fp')
    (h' : Fed a bin t (Machine.final (Lines.feed a.cap) pend s) fp' fp'') :
    Fed a bin (s ++ t) pend fp fp'' := by
  refine ⟨?_, ?_, h'.error, fun hb => ?_⟩
  · rw [Machine.final_append]
    exact h'.filling
  · rw [Machine.answers_append, List.flatten_append]
    exact h.handed.trans h'.handed
  · have hpos := h.filepos hb
    have hpos' := h'.filepos hb
    rw [Machine.answers_append, List.flatten_append, Machine.final_append, textSize_append]
    unfold wordSize at hpos hpos' ⊢
    omega

/-- A break after writes that went well. -/
theorem Handed.broke {out : List Bytes} {rc : Nat} (h : Handed a bin out fp fp') (h' : Broke rc fp' fp'') :
    Broke rc fp fp'' := by
  obtain ⟨before, buf, hcalls, hbefore⟩ := h'.calls
  refine ⟨⟨out.map (fun piece => (rendered a bin piece, 0)) ++ before, buf, ?_, ?_⟩, h'.refused,
    h.rcs.subset h'.scheduled, h'.error, h'.enospc, h'.errno⟩
  · rw [hcalls, h.calls]
    simp only [List.append_assoc]
  · intro call hmem
    rcases List.mem_append.mp hmem with hmem | hmem
    · obtain ⟨piece, -, rfl⟩ := List.mem_map.mp hmem
      rfl
    · exact hbefore call hmem

/-! ### One record out -/

theorem Filling.of_same (h : Filling a bin pend fp) (hd : fp' = {fp with
    filepos := fp'.filepos, error := fp'.error, enospc := fp'.enospc, eof := fp'.eof, errno := fp'.errno})
    (he : fp'.error = false → fp'.enospc = false) (hw : fp'.filepos < wordSize) :
    Filling a bin pend fp' := by
  rw [hd]
  exact ⟨h.opened, h.write, h.dcbOut, h.record, h.dirty, h.binary, h.attr, h.mode, h.room, h.endbuf,
    h.upto, h.pending, h.fits, he, hw⟩

/-- The record is out of the buffer, and the access method has answered. -/
theorem Filling.emptied (h : Filling a bin pend fp) (hd : fp' = {fp with
    dcb := fp'.dcb, upto := 0, filepos := fp'.filepos, error := fp'.error, enospc := fp'.enospc,
    errno := fp'.errno}) (hattr : fp'.dcb.attr = fp.dcb.attr) (hmode : fp'.dcb.mode = fp.dcb.mode)
    (he : fp'.error = false → fp'.enospc = false) (hw : fp'.filepos < wordSize) :
    Filling a bin [] fp' := by
  rw [hd]
  exact ⟨h.opened, h.write, h.dcbOut, h.record, h.dirty, h.binary, hattr.trans h.attr, hmode ▸ h.mode,
    h.room, h.endbuf, rfl, List.take_zero, Nat.zero_le _, he, hw⟩

/-- What `__awrite()` leaves on a DCB that adds records, when it answers `rc`. -/
def Dcb.added (d : Dcb) (buf : Bytes) (rc : Nat) : Dcb :=
  {d with
    rcs := d.rcs.tail
    calls := d.calls ++ [(buf, rc)]
    recs := d.recs ++ if rc = 0 then [d.attr.written buf] else []}

theorem awrite_adds {d : Dcb} (hmode : d.mode ≠ .updat) (buf : Bytes) :
    d.awrite buf = (d.rcs.headD 0, d.added buf (d.rcs.headD 0)) := by
  unfold Dcb.awrite Dcb.added
  generalize d.rcs.headD 0 = rc
  by_cases hrc : rc = 0
  · cases hm : d.mode with
    | updat => exact absurd hm hmode
    | input | output | extend => simp [hrc]
  · simp [hrc]

/-- The bytes in the buffer go out rendered. -/
theorem Filling.flushOut_eq (h : Filling a bin pend fp) :
    fp.flushOut = fp.finwrite (rendered a bin pend) := by
  have hattr : fp.attr = a := h.attr
  have hfill : fp.fill = fillByte bin := by rw [File.fill, h.binary]; rfl
  unfold File.flushOut File.fixflush File.varflush rendered
  rw [hattr, h.pending, hfill]
  cases a.recfm with
  | F => rfl
  | V => rfl
  | U => by_cases hp : pend.length = 0 <;> simp only [hp, if_true, if_false]

theorem rcs_mem {rcs : List Nat} (h : rcs.headD 0 ≠ 0) : rcs.headD 0 ∈ rcs := by
  cases rcs with
  | nil => exact absurd rfl h
  | cons rc rest => exact List.mem_cons_self ..

/-- A text record reads back as the bytes put into it, its padding and a newline. -/
theorem stored_length (h : pend.length ≤ a.cap) (hattr : fp.attr = a) :
    (stored a false pend).length = pend.length + fp.padding pend.length := by
  unfold stored rendered Attr.written File.padding
  unfold Attr.cap at h
  rw [hattr]
  cases hr : a.recfm
  all_goals simp only [hr] at h ⊢
  case F =>
    simp only [List.length_append, List.length_take, List.length_replicate]
    split <;> omega
  case V => simp [rdw]
  case U =>
    split
    · simp only [List.length_cons, List.length_nil]
      omega
    · rfl

/-- `flushrec()` with a record to send off: the record is out, or the write was refused. -/
theorem Filling.flushrec_cases (h : Filling a bin pend fp) (herr : fp.error = false) (nl : Bool)
    (hn : pend.length ≠ 0 ∨ nl = true) :
    ((fp.flushrec nl).1 = 0 ∧ Filling a bin [] (fp.flushrec nl).2 ∧
        Handed a bin [pend] fp (fp.flushrec nl).2 ∧ (fp.flushrec nl).2.error = false ∧
        (bin = false → (fp.flushrec nl).2.filepos =
          (fp.filepos + (fp.padding pend.length + if nl then 0 else 1)) % wordSize)) ∨
      (∃ rc, (fp.flushrec nl).1 = rc ∧ Broke rc fp (fp.flushrec nl).2 ∧
        Filling a bin [] (fp.flushrec nl).2) := by
  have hnot : ¬ (fp.upto = 0 && !nl) = true := by
    rw [h.upto]
    rcases hn with hn | hn
    · simp [hn]
    · simp [hn]
  have hwrite : fp.finwrite (rendered a bin pend) =
      ((fp.dcb.awrite (rendered a bin pend)).1, fp.withDcb (fp.dcb.awrite (rendered a bin pend)).2) := rfl
  have hadds := awrite_adds h.mode (rendered a bin pend)
  unfold File.flushrec
  simp only [h.dirty, h.record, h.dcbOut, herr, hnot, Bool.false_eq_true, if_false, Bool.not_true]
  rw [h.flushOut_eq, hwrite, hadds]
  generalize hrc : fp.dcb.rcs.headD 0 = rc
  by_cases hz : rc = 0
  · -- the record is on the data set
    subst hz
    have hhanded : ∀ g : File, g.dcb = fp.dcb.added (rendered a bin pend) 0 → Handed a bin [pend] fp g := by
      intro g hg
      refine ⟨by rw [hg]; rfl, ?_, by rw [hg]; exact List.tail_suffix _⟩
      rw [hg]
      show fp.dcb.recs ++ [fp.dcb.attr.written _] = _
      rw [h.attr]
      rfl
    refine .inl ?_
    simp only [ne_eq, not_true_eq_false, if_false]
    cases bin with
    | true =>
      rw [if_neg (by rw [File.withDcb_binary, h.binary]; decide)]
      exact ⟨rfl, h.emptied rfl rfl rfl (fun _ => h.enospc herr) h.word, hhanded _ rfl, herr,
        fun hc => absurd hc (by decide)⟩
    | false =>
      rw [if_pos (by rw [File.withDcb_binary, h.binary]; rfl)]
      refine ⟨rfl, h.emptied rfl rfl rfl (fun _ => h.enospc herr) (Nat.mod_lt _ (by decide)), hhanded _ rfl,
        herr, fun _ => ?_⟩
      rw [h.upto]
      rfl
  · refine .inr ⟨rc, ?_⟩
    simp only [hz, ne_eq, not_false_eq_true, if_true, true_and]
    refine ⟨⟨⟨[], _, by rw [List.append_nil]; rfl, by simp⟩, hz, hrc ▸ rcs_mem (hrc ▸ hz), rfl, ?_, rfl⟩, ?_⟩
    · show (fp.enospc || rc == 12) = _
      rw [h.enospc herr, Bool.false_or]
    · exact h.emptied rfl rfl rfl (fun hc => absurd hc Bool.true_eq_false_eq_False) h.word

/-! ### One call -/

/-- A byte into a buffer that has room for it. -/
theorem Filling.stored (h : Filling a bin pend fp) (hroom : pend.length < a.cap) (b : UInt8) :
    Filling a bin (pend ++ [b]) ((fp.store b).advance 1) := by
  have hlen : fp.upto < fp.buf.length := by rw [h.upto]; exact lt_trans hroom h.room
  refine ⟨h.opened, h.write, h.dcbOut, h.record, h.dirty, h.binary, h.attr, h.mode, ?_, h.endbuf, ?_, ?_, ?_,
    h.enospc, Nat.mod_lt _ (by decide)⟩
  · show a.cap < (fp.buf.set fp.upto b).length
    rw [List.length_set]
    exact h.room
  · show fp.upto + 1 = _
    rw [h.upto, List.length_append, List.length_singleton]
  · show (fp.buf.set fp.upto b).take (fp.upto + 1) = _
    rw [List.take_add_one, List.take_set_of_le (Nat.le_refl _), List.getElem?_set_self hlen]
    exact congrArg (· ++ [b]) h.pending
  · rw [List.length_append, List.length_singleton]
    exact hroom

theorem Filling.advance (h : Filling a bin pend fp) (n : Nat) : Filling a bin pend (fp.advance n) :=
  h.of_same rfl h.enospc (Nat.mod_lt _ (by decide))

/-- One token, from what the writer of lines does on it. -/
theorem Fed.single {t : Lines.Token UInt8} {out : List Bytes} {pend' : Bytes}
    (hfeed : Lines.feed a.cap pend t = (out, pend')) (hfill : Filling a bin pend' fp')
    (hout : Handed a bin out fp fp') (herr : fp'.error = false)
    (hpos : bin = false → (fp'.filepos + pend.length) % wordSize =
      (fp.filepos + textSize a out + pend'.length) % wordSize) : Fed a bin [t] pend fp fp' := by
  have hfinal : Machine.final (Lines.feed a.cap) pend [t] = pend' := by
    rw [Machine.final_cons, Machine.final_nil, hfeed]
  have hanswers : (Machine.answers (Lines.feed a.cap) pend [t]).flatten = out := by
    rw [Machine.answers_cons, Machine.answers_nil, hfeed, List.flatten_singleton]
  refine ⟨?_, ?_, herr, fun hb => ?_⟩
  · rw [hfinal]
    exact hfill
  · rw [hanswers]
    exact hout
  · rw [hfinal, hanswers]
    exact hpos hb

/-- Where a text stream stands once the record with `pend` is out. -/
theorem Filling.filepos_record (h : Filling a false pend fp) {n : Nat}
    (hn : n = (fp.filepos + (fp.padding pend.length + 1)) % wordSize) :
    (n + pend.length) % wordSize = (fp.filepos + textSize a [pend]) % wordSize := by
  have hsize : textSize a [pend] = pend.length + fp.padding pend.length + 1 := by
    simp [textSize, stored_length h.fits h.attr]
  rw [hn, hsize]
  unfold wordSize
  omega

/-- `__fflush()` is a soft stop. -/
theorem Filling.fflush_cases (h : Filling a bin pend fp) (herr : fp.error = false) :
    (fp.fflush.1 = 0 ∧ Fed a bin [.stop false] pend fp fp.fflush.2) ∨
      ∃ rc, fp.fflush.1 = rc ∧ Broke rc fp fp.fflush.2 ∧ Filling a bin [] fp.fflush.2 := by
  by_cases hp : pend.length = 0
  · have hnone : fp.fflush = (0, fp) := by
      simp [File.fflush, File.flushrec, h.dirty, h.record, h.dcbOut, h.upto, hp]
    have hfeed : Lines.feed a.cap pend (.stop false) = ([], []) := if_pos ⟨hp, rfl⟩
    have hempty : Filling a bin [] fp := List.length_eq_zero_iff.mp hp ▸ h
    rw [hnone]
    refine .inl ⟨rfl, .single hfeed hempty (.of_dcb rfl) herr fun _ => ?_⟩
    rw [hp]
    rfl
  · have hfeed : Lines.feed a.cap pend (.stop false) = ([pend], []) := if_neg fun hc => hp hc.1
    rcases h.flushrec_cases herr false (.inl hp) with ⟨hrc, hfill, hout, herr', hpos⟩ | hbroke
    · refine .inl ⟨hrc, .single hfeed hfill hout herr' fun hb => ?_⟩
      subst hb
      exact h.filepos_record (hpos rfl)
    · exact .inr hbroke

/-- A newline of a text stream is a hard stop. -/
theorem Filling.newline_cases (h : Filling a false pend fp) (herr : fp.error = false) :
    ((fp.advance 1).fflnl.1 = 0 ∧ Fed a false [.stop true] pend fp (fp.advance 1).fflnl.2) ∨
      ∃ rc, (fp.advance 1).fflnl.1 = rc ∧ Broke rc fp (fp.advance 1).fflnl.2 ∧
        Filling a false [] (fp.advance 1).fflnl.2 := by
  have hfeed : Lines.feed a.cap pend (.stop true) = ([pend], []) :=
    if_neg fun hc => absurd hc.2 (by decide)
  rcases (h.advance 1).flushrec_cases herr true (.inr rfl) with
    ⟨hrc, hfill, hout, herr', hpos⟩ | ⟨rc, hrc, hbroke, hfill⟩
  · refine .inl ⟨hrc, .single hfeed hfill ⟨hout.calls, hout.recs, hout.rcs⟩ herr' fun _ => ?_⟩
    refine h.filepos_record ?_
    rw [File.fflnl, hpos rfl]
    show ((fp.filepos + 1) % wordSize + (fp.padding pend.length + 0)) % wordSize = _
    unfold wordSize
    omega
  · exact .inr ⟨rc, hrc, ⟨hbroke.calls, hbroke.refused, hbroke.scheduled, hbroke.error, hbroke.enospc,
      hbroke.errno⟩, hfill⟩

/-- Any other byte is an item: it is held, behind a flush if the buffer is full. -/
theorem Filling.putOut_item (h : Filling a bin pend fp) (herr : fp.error = false) {b : UInt8}
    (hb : (!bin && b == newline) = false) :
    ((fp.putOut b.toNat).1 = b.toNat ∧ Fed a bin [.item b] pend fp (fp.putOut b.toNat).2) ∨
      ((fp.putOut b.toNat).1 = EOF ∧ ∃ rc, Broke rc fp (fp.putOut b.toNat).2 ∧
        Filling a bin [] (fp.putOut b.toNat).2) := by
  have hint : (!fp.binary && (b.toNat : Int) == (newline.toNat : Int)) = false := by
    rw [h.binary]
    cases bin with
    | true => rfl
    | false =>
      rw [Bool.not_false, Bool.true_and, beq_eq_false_iff_ne] at hb ⊢
      exact fun hc => hb (UInt8.toNat_inj.mp (by exact_mod_cast hc))
  have hbyte : UInt8.ofNat ((b.toNat : Int) % 256).toNat = b := by
    have : ((b.toNat : Int) % 256).toNat = b.toNat := by
      have := b.toNat_lt
      omega
    rw [this, UInt8.ofNat_toNat]
  unfold File.putOut
  by_cases hfull : pend.length = a.cap
  · have hfeed : Lines.feed a.cap pend (.item b) = ([pend], [b]) := if_pos hfull
    have hcap := a.cap_pos
    have hbuf : fp.upto = fp.endbuf := by rw [h.upto, h.endbuf, hfull]
    simp only [hint, Bool.false_eq_true, if_false, hbyte, if_pos hbuf]
    rcases h.flushrec_cases herr false (.inl (by omega)) with
      ⟨hrc, hfill, hout, herr', hpos⟩ | ⟨rc, hrc, hbroke, hfill⟩
    · simp only [File.fflush, hrc, ne_eq, not_true_eq_false, if_false]
      refine .inl ⟨trivial, .single hfeed (hfill.stored hcap b) ⟨hout.calls, hout.recs, hout.rcs⟩ herr'
        fun hb => ?_⟩
      subst hb
      have hrecord := h.filepos_record (hpos rfl)
      show ((fp.flushrec false).2.filepos + 1) % wordSize + pend.length ≡ _ [MOD wordSize]
      unfold wordSize Nat.ModEq at *
      rw [List.length_singleton]
      omega
    · simp only [File.fflush, hrc, hbroke.refused, ne_eq, not_false_eq_true, if_true]
      exact .inr ⟨trivial, rc, hbroke, hfill⟩
  · have hfeed : Lines.feed a.cap pend (.item b) = ([], pend ++ [b]) := if_neg hfull
    have hbuf : ¬ fp.upto = fp.endbuf := by rw [h.upto, h.endbuf]; exact hfull
    simp only [hint, Bool.false_eq_true, if_false, hbyte, if_neg hbuf, ne_eq, not_true_eq_false]
    refine .inl ⟨trivial, .single hfeed (h.stored (lt_of_le_of_ne h.fits hfull) b) (.of_dcb rfl) herr
      fun _ => ?_⟩
    show ((fp.filepos + 1) % wordSize + pend.length) % wordSize = _
    rw [List.length_append, List.length_singleton]
    unfold wordSize
    simp only [textSize, List.map_nil, List.sum_nil]
    omega

/-- `__fputc()`: the writer has taken the byte's token, or a write was refused. -/
theorem Filling.fputc_cases (h : Filling a bin pend fp) (herr : fp.error = false) (b : UInt8) :
    ((fp.fputc b.toNat).1 = b.toNat ∧ Fed a bin [token bin b] pend fp (fp.fputc b.toNat).2) ∨
      ((fp.fputc b.toNat).1 = EOF ∧ ∃ rc, Broke rc fp (fp.fputc b.toNat).2 ∧
        Filling a bin [] (fp.fputc b.toNat).2) := by
  have hput : fp.fputc b.toNat = fp.putOut b.toNat := by
    simp [File.fputc, h.write, h.record, herr, h.dcbOut]
  rw [hput]
  by_cases hb : (!bin && b == newline) = true
  · obtain ⟨hbin, hnl⟩ := Bool.and_eq_true_iff.mp hb
    obtain rfl : bin = false := by simpa using hbin
    obtain rfl : b = newline := eq_of_beq hnl
    have hcond : (!fp.binary && (newline.toNat : Int) == newline.toNat) = true := by rw [h.binary]; rfl
    have htok : token false newline = .stop true := rfl
    rw [htok]
    unfold File.putOut
    rcases h.newline_cases herr with ⟨hrc, hfed⟩ | ⟨rc, hrc, hbroke, hfill⟩
    · simp only [hcond, if_true, hrc, ne_eq, not_true_eq_false, if_false, true_and]
      exact .inl hfed
    · simp only [hcond, if_true, hrc, hbroke.refused, ne_eq, not_false_eq_true, true_and]
      exact .inr ⟨rc, hbroke, hfill⟩
  · have hb : (!bin && b == newline) = false := by simpa using hb
    have htok : token bin b = .item b := by rw [token, hb]; rfl
    rw [htok]
    exact h.putOut_item herr hb

/-- Bytes in a row: all of them, or those in front of a refused write. -/
theorem Filling.putBytes_cases (h : Filling a bin pend fp) (herr : fp.error = false) (bs : Bytes) :
    ((fp.putBytes bs).1 = bs.length ∧ Fed a bin (bs.map (token bin)) pend fp (fp.putBytes bs).2) ∨
      ((fp.putBytes bs).1 < bs.length ∧ ∃ rc, Broke rc fp (fp.putBytes bs).2 ∧
        Filling a bin [] (fp.putBytes bs).2) := by
  induction bs generalizing fp pend with
  | nil => exact .inl ⟨rfl, .nil h herr⟩
  | cons b rest ih =>
    rcases h.fputc_cases herr b with ⟨hc, hfed⟩ | ⟨hc, hbroke⟩
    · simp only [File.putBytes, hc, byte_ne_eof, if_false]
      rcases ih hfed.filling hfed.error with ⟨hn, hrest⟩ | ⟨hn, rc, hbroke, hfill⟩
      · exact .inl ⟨congrArg (· + 1) hn, hfed.append hrest⟩
      · exact .inr ⟨Nat.succ_lt_succ hn, rc, hfed.handed.broke hbroke, hfill⟩
    · simp only [File.putBytes, hc, if_true]
      exact .inr ⟨Nat.succ_pos _, hbroke⟩

theorem takeD_add (m n : Nat) (ptr : Bytes) :
    ptr.takeD (m + n) 0 = ptr.takeD m 0 ++ (ptr.drop m).takeD n 0 := by
  induction m generalizing ptr with
  | zero => simp
  | succ m ih =>
    rw [Nat.succ_add, List.takeD, List.takeD, ih, List.drop_tail]
    rfl

/-- The elements of `__fwrite()`. -/
theorem Filling.fwriteLoop_cases (h : Filling a bin pend fp) (herr : fp.error = false) (size i : Nat)
    (ptr : Bytes) :
    ((fp.fwriteLoop size i ptr).1 = i ∧
        Fed a bin ((ptr.takeD (size * i) 0).map (token bin)) pend fp (fp.fwriteLoop size i ptr).2) ∨
      ((fp.fwriteLoop size i ptr).1 < i ∧ ∃ rc, Broke rc fp (fp.fwriteLoop size i ptr).2 ∧
        Filling a bin [] (fp.fwriteLoop size i ptr).2) := by
  induction i generalizing fp pend ptr with
  | zero => exact .inl ⟨rfl, .nil h herr⟩
  | succ i ih =>
    have hlen : (ptr.takeD size 0).length = size := List.takeD_length ..
    rcases h.putBytes_cases herr (ptr.takeD size 0) with ⟨hn, hfed⟩ | ⟨hn, hbroke⟩
    · have hwhole : ¬ (fp.putBytes (ptr.takeD size 0)).1 < size := by omega
      simp only [File.fwriteLoop, if_neg hwhole]
      rw [Nat.mul_succ, Nat.add_comm (size * i), takeD_add, List.map_append]
      rcases ih hfed.filling hfed.error (ptr.drop size) with ⟨hk, hrest⟩ | ⟨hk, rc, hbroke, hfill⟩
      · exact .inl ⟨congrArg (· + 1) hk, hfed.append hrest⟩
      · exact .inr ⟨Nat.succ_lt_succ hk, rc, hfed.handed.broke hbroke, hfill⟩
    · simp only [File.fwriteLoop, if_pos (hlen ▸ hn)]
      exact .inr ⟨Nat.succ_pos _, hbroke⟩

/-! ### The calls of a writer -/

inductive WriteCall
  | fputc (b : UInt8)
  | fputs (s : Bytes)
  | fwrite (ptr : Bytes) (size nmemb : Nat)
  | fflush
  | clearerr

/-- What the call answers, and the stream after it. -/
def writeCall (fp : File) : WriteCall → Int × File
  | .fputc b => fp.fputc b.toNat
  | .fputs s => fp.fputs s
  | .fwrite ptr size nmemb =>
    let (n, fp) := fp.fwrite ptr size nmemb
    (n, fp)
  | .fflush =>
    let (rc, fp) := fp.fflush
    (rc, fp)
  | .clearerr => (0, fp.clearerr)

namespace WriteCall

/-- The bytes a call gives to the stream. -/
def bytes : WriteCall → Bytes
  | .fputc b => [b]
  | .fputs s => s.takeWhile (· ≠ 0)
  | .fwrite ptr size nmemb => ptr.takeD (size * nmemb) 0
  | .fflush => []
  | .clearerr => []

/-- The call as the writer of lines sees it. -/
def tokens (bin : Bool) : WriteCall → List (Lines.Token UInt8)
  | .fflush => [.stop false]
  | call => call.bytes.map (token bin)

theorem items_tokens (bin : Bool) (call : WriteCall) :
    Lines.items (call.tokens bin) = dataBytes bin call.bytes := by
  cases call with
  | fflush => rfl
  | fputc b => exact items_token bin [b]
  | fputs s => exact items_token bin _
  | fwrite ptr size nmemb => exact items_token bin _
  | clearerr => rfl

/-- The answer reports success. A record is one element, whatever its size. -/
def Reports (record : Bool) (answer : Int) : WriteCall → Prop
  | .fputc _ => answer ≠ EOF
  | .fputs _ => answer ≠ EOF
  | .fwrite _ size nmemb => size * nmemb ≠ 0 → answer = if record then 1 else nmemb
  | .fflush => answer = 0
  | .clearerr => True

end WriteCall

/-- One call: the writer has taken its tokens and the answer is success, or a write was
refused and the answer is not. -/
theorem Filling.writeCall_cases (h : Filling a bin pend fp) (herr : fp.error = false) (call : WriteCall) :
    (call.Reports false (writeCall fp call).1 ∧ Fed a bin (call.tokens bin) pend fp (writeCall fp call).2) ∨
      (¬ call.Reports false (writeCall fp call).1 ∧ ∃ rc, Broke rc fp (writeCall fp call).2 ∧
        Filling a bin [] (writeCall fp call).2) := by
  cases call with
  | fputc b =>
    rcases h.fputc_cases herr b with ⟨hc, hfed⟩ | ⟨hc, hbroke⟩
    · exact .inl ⟨by simp only [WriteCall.Reports, writeCall, hc, ne_eq, byte_ne_eof, not_false_eq_true], hfed⟩
    · exact .inr ⟨fun hr => hr hc, hbroke⟩
  | fputs s =>
    have hputs : fp.fputs s =
        (if (fp.putBytes (s.takeWhile (· ≠ 0))).1 < (s.takeWhile (· ≠ 0)).length then EOF
          else (fp.putBytes (s.takeWhile (· ≠ 0))).1, (fp.putBytes (s.takeWhile (· ≠ 0))).2) := by
      simp only [File.fputs, h.record, Bool.false_eq_true, if_false]
    simp only [WriteCall.Reports, writeCall, hputs]
    rcases h.putBytes_cases herr (s.takeWhile (· ≠ 0)) with ⟨hn, hfed⟩ | ⟨hn, hbroke⟩
    · rw [if_neg (by omega)]
      refine .inl ⟨?_, hfed⟩
      unfold EOF
      omega
    · rw [if_pos hn]
      exact .inr ⟨fun hr => hr rfl, hbroke⟩
  | fwrite ptr size nmemb =>
    by_cases hsize : size = 0
    · subst hsize
      have hnone : fp.fwrite ptr 0 nmemb = (0, fp) := by simp [File.fwrite, h.write, herr, h.record]
      simp only [WriteCall.Reports, writeCall, hnone, WriteCall.tokens, WriteCall.bytes, Nat.zero_mul]
      exact .inl ⟨fun hc => absurd rfl hc, .nil h herr⟩
    · have hloop : fp.fwrite ptr size nmemb = fp.fwriteLoop size nmemb ptr := by
        simp [File.fwrite, h.write, herr, h.record, hsize]
      simp only [WriteCall.Reports, writeCall, hloop]
      rcases h.fwriteLoop_cases herr size nmemb ptr with ⟨hn, hfed⟩ | ⟨hn, hbroke⟩
      · exact .inl ⟨fun _ => by rw [hn]; rfl, hfed⟩
      · refine .inr ⟨fun hr => ?_, hbroke⟩
        have hall := hr (Nat.mul_ne_zero hsize (by omega))
        simp only [Bool.false_eq_true, if_false] at hall
        omega
  | fflush =>
    rcases h.fflush_cases herr with ⟨hc, hfed⟩ | ⟨rc, hc, hbroke, hfill⟩
    · exact .inl ⟨congrArg Nat.cast hc, hfed⟩
    · refine .inr ⟨fun hr => ?_, rc, hbroke, hfill⟩
      have hzero : (fp.fflush.1 : Int) = 0 := hr
      exact hbroke.refused (by omega)
  | clearerr =>
    refine .inl ⟨trivial, ?_⟩
    have hclear : Filling a bin pend fp.clearerr := h.of_same rfl (fun _ => rfl) h.word
    exact ⟨hclear, .of_dcb rfl, rfl, fun _ => rfl⟩

/-! ### Opening -/

/-- A data set with its records, and what its writes and its CLOSE will answer. -/
def Dcb.scheduled (a : Attr) (recs : List Bytes) (rcs : List Nat) (closeRc : Nat) : Dcb :=
  ⟨a, .input, recs, 0, rcs, closeRc, []⟩

/-- `fopen()` for writing, in byte or record mode. -/
def fopenWrite (mode : Mode) (bin record member : Bool) (dcb : Dcb) : File :=
  (fpmode mode bin record member dcb).fpopen

/-- The modes whose DCB writes as soon as the stream is open. -/
def Mode.Writes (mode : Mode) : Prop := mode = .w ∨ mode = .a ∨ mode = .wplus

theorem fopenWrite_mode {mode : Mode} (h : mode.Writes) (bin record member : Bool) (dcb : Dcb) :
    (fopenWrite mode bin record member dcb).dcb.mode ≠ .updat := by
  rcases h with rfl | rfl | rfl <;> simp [fopenWrite, File.fpopen, fpmode, File.openMode, Dcb.aopen]

theorem fopenWrite_filling {mode : Mode} (h : mode.Writes) (bin member : Bool) (dcb : Dcb) :
    Filling dcb.attr bin [] (fopenWrite mode bin false member dcb) := by
  rcases h with rfl | rfl | rfl <;> constructor <;>
    simp [fopenWrite, File.fpopen, fpmode, File.openMode, Dcb.aopen, File.attr, wordSize, File.pending]

end Libc370.Stdio
