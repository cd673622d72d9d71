import Libc370.Stdio.Delivery
import Libc370.Stdio.Fseek

/-! Where a seek on a read-only byte stream lands.

Every history of reads, pushed-back characters and seeks leaves the stream in some
place of the byte view (`reachable_place`): the error indicator and a pushed-back
character are all that can stand between it and `At`. From there a seek to byte
`newpos` moves in the buffer, reads on, or opens the data set again and reads from
its start, and each of the three lands in place `newpos` (`SeekOk`) unless

* `newpos` is negative or too big for a `long`: the loop that skips does nothing,
  and the seek still answers 0,
* the OPEN fails: the seek still answers 0,
* it reads on with a character pushed back: `__fgetc()` gives that one first and
  does not count it, so the seek stops one byte short,
* the error indicator was on: `fseek()` puts it back, and no read works.

SEEK_END leaves the end-of-file indicator on and does not look at the offset. -/
namespace Libc370.Stdio

/-- A call on a read-only stream. -/
inductive SeekOp
  | read (call : ReadCall)
  | ungetc (c : Int)
  | clearerr
  | fseek (offset : Int32) (whence : Whence) (opens : Bool)

/-- The stream after the call. -/
def seekOp (fp : File) : SeekOp → Unit × File
  | .read call => ((), (readCall fp call).2)
  | .ungetc c => ((), (fp.ungetc c).2)
  | .clearerr => ((), fp.clearerr)
  | .fseek offset whence opens => ((), (fp.fseek offset whence opens).2)

/-- The stream after a history of calls. -/
def reached {a : Attr} (d : DataSet a) (bin : Bool) (history : List SeekOp) : File :=
  Machine.final seekOp (d.fopenRead bin) history

variable {a : Attr} {d : DataSet a} {bin : Bool} {p : Nat} {fp : File}

/-! ### Reads keep a place -/

/-- The stream is in some place of the view. -/
def Placed (d : DataSet a) (bin : Bool) (fp : File) : Prop := ∃ p, Reading d bin p fp

namespace Reading

theorem withErrno (h : Reading d bin p fp) (e : Errno) : Reading d bin p (fp.withErrno e) :=
  h.of_same rfl h.eof

theorem withUngetch (h : Reading d bin p fp) (c : Int) : Reading d bin p (fp.withUngetch c) :=
  h.of_same rfl h.eof

theorem clearerr (h : Reading d bin p fp) : Reading d bin p fp.clearerr :=
  h.of_same rfl (fun hc => absurd hc Bool.false_ne_true)

theorem hold (h : Reading d bin p fp) (held : File) : Reading d bin p (fp.hold held) :=
  h.of_same rfl h.eof

/-- An error or a pushed-back character answers `__fgetc()` without a move. -/
theorem fgetc_stays (h : Reading d bin p fp) (hn : fp.error = true ∨ fp.ungetch ≠ -1) :
    Reading d bin p fp.fgetc.2 := by
  rw [h.fgetc_reading]
  unfold File.fgetcReading
  simp only [h.read, h.record, Bool.not_true, Bool.false_eq_true, if_false]
  by_cases he : fp.error = true
  · simp only [he, if_true]
    exact h.withErrno .eio
  · have hu : fp.ungetch ≠ -1 := hn.resolve_left he
    simp only [he, hu, ne_eq, not_false_eq_true, if_true]
    exact h.withUngetch (-1)

theorem fgetc_placed (h : Reading d bin p fp) (hs : d.Solid bin) : Placed d bin fp.fgetc.2 := by
  by_cases hn : fp.error = true ∨ fp.ungetch ≠ -1
  · exact ⟨p, h.fgetc_stays hn⟩
  · have hat : At d bin p fp := ⟨h, by simpa using fun he => hn (.inl he), by
      by_contra hu; exact hn (.inr hu)⟩
    rcases hat.fgetc_cases hs with ⟨-, heq, hend⟩ | ⟨b, -, htake⟩
    · rw [heq]
      exact ⟨p, hend.toReading⟩
    · exact ⟨_, htake.place.toReading⟩

end Reading

namespace Placed

theorem fgetc (h : Placed d bin fp) (hs : d.Solid bin) : Placed d bin fp.fgetc.2 := by
  obtain ⟨p, h⟩ := h
  exact h.fgetc_placed hs

theorem fgetsLoop (h : Placed d bin fp) (hs : d.Solid bin) (n : Nat) (c : Int) :
    Placed d bin (fp.fgetsLoop n c).2.2 := by
  induction n generalizing fp c with
  | zero => exact h
  | succ n ih =>
    simp only [File.fgetsLoop]
    split
    · exact h.fgetc hs
    · split
      · exact h.fgetc hs
      · exact ih (h.fgetc hs) _

theorem freadElem (h : Placed d bin fp) (hs : d.Solid bin) (j : Nat) :
    Placed d bin (fp.freadElem j).2.2 := by
  induction j generalizing fp with
  | zero => exact h
  | succ j ih =>
    simp only [File.freadElem]
    split
    · exact h.fgetc hs
    · exact ih (h.fgetc hs)

theorem freadLoop (h : Placed d bin fp) (hs : d.Solid bin) (size i : Nat) :
    Placed d bin (fp.freadLoop size i).2.2 := by
  induction i generalizing fp with
  | zero => exact h
  | succ i ih =>
    have helem := h.freadElem hs size
    simp only [File.freadLoop]
    split
    · exact helem
    · exact ih helem

theorem fgets (h : Placed d bin fp) (hs : d.Solid bin) (n : Int) : Placed d bin (fp.fgets n).2 := by
  have hloop := h.fgetsLoop hs (n - 1).toNat 0
  unfold File.fgets
  split
  · exact h
  split
  · exact h
  dsimp only
  split
  · exact hloop
  · exact hloop

theorem fread (h : Placed d bin fp) (hs : d.Solid bin) (size nmemb : Nat) :
    Placed d bin (fp.fread size nmemb).2.2 := by
  have hloop := h.freadLoop hs size nmemb
  obtain ⟨p, h⟩ := h
  unfold File.fread
  simp only [h.read, h.record, Bool.not_true, Bool.false_eq_true, if_false]
  split
  · exact ⟨p, h.withErrno .eio⟩
  split
  · exact ⟨p, h⟩
  · exact hloop

theorem readCall (h : Placed d bin fp) (hs : d.Solid bin) (call : ReadCall) :
    Placed d bin (readCall fp call).2 := by
  cases call with
  | fgetc => exact h.fgetc hs
  | fgets n => exact h.fgets hs n
  | fread size nmemb => exact h.fread hs size nmemb

theorem ungetc (h : Placed d bin fp) (c : Int) : Placed d bin (fp.ungetc c).2 := by
  obtain ⟨p, h⟩ := h
  unfold File.ungetc
  split
  · exact ⟨p, h⟩
  · exact ⟨p, h.of_same rfl (fun hc => absurd hc Bool.false_ne_true)⟩

theorem readOut (h : Placed d bin fp) (hs : d.Solid bin) (n : Nat) : Placed d bin (fp.readOut n) := by
  induction n generalizing fp with
  | zero => exact h
  | succ n ih =>
    have hread := h.fread hs 1 1000
    simp only [File.readOut]
    split
    · exact ih hread
    · exact hread

end Placed

/-! ### Where the seek lands -/

namespace At

/-- Forward within the view, one `__fgetc()` a byte. -/
theorem skipBytes_within (h : At d bin p fp) (hs : d.Solid bin) (he : fp.eof = false) {n : Nat}
    (hn : p + n ≤ (d.view bin).length) :
    At d bin (p + n) (fp.skipBytes n) ∧ (fp.skipBytes n).eof = false := by
  induction n generalizing p fp with
  | zero => exact ⟨h, he⟩
  | succ n ih =>
    obtain ⟨hc, hat, he'⟩ := h.fgetc_next hs (by omega)
    simp only [File.skipBytes, hc, byte_ne_eof, if_false]
    rw [show p + (n + 1) = p + 1 + n by omega]
    exact ih hat he' (by omega)

/-- Forward past the end of the view: both indicators are set. -/
theorem skipBytes_past (h : At d bin p fp) (hs : d.Solid bin) {n : Nat}
    (hn : (d.view bin).length < p + n) :
    Reading d bin (d.view bin).length (fp.skipBytes n) ∧ (fp.skipBytes n).error = true := by
  induction n generalizing p fp with
  | zero => exact absurd h.bound (by omega)
  | succ n ih =>
    by_cases hp : p = (d.view bin).length
    · obtain ⟨heq, hend⟩ := h.fgetc_end hs hp
      simp only [File.skipBytes, heq, if_true]
      rw [← hp]
      exact ⟨hend.toReading.of_same rfl (fun _ => hp), rfl⟩
    · obtain ⟨hc, hat, -⟩ := h.fgetc_next hs (lt_of_le_of_ne h.bound hp)
      simp only [File.skipBytes, hc, byte_ne_eof, if_false]
      exact ih hat (by omega)

end At

/-- A skip takes the pushed-back character for its first byte. -/
theorem Reading.skipBytes_pushed (h : Reading d bin p fp) (herr : fp.error = false)
    (hu : fp.ungetch ≠ -1) (n : Nat) :
    fp.skipBytes (n + 1) = (fp.withUngetch (-1)).skipBytes n := by
  have hget : fp.fgetc = (fp.ungetch, fp.withUngetch (-1)) := by
    rw [h.fgetc_reading]
    simp [File.fgetcReading, h.read, herr, h.record, hu]
  rw [File.skipBytes, hget]
  exact if_neg hu

/-- A fresh stream on the same data set. -/
theorem Reading.reopened (h : Reading d bin p fp) :
    fp.reopen true = some ((fpmode .r bin false fp.member fp.dcb).fpopen) ∧
      At d bin 0 ((fpmode .r bin false fp.member fp.dcb).fpopen) := by
  refine ⟨by simp [File.reopen, h.binary, h.record], ?_⟩
  have hmode : (fpmode .r bin false fp.member fp.dcb).openMode = .input := by
    simp [File.openMode, fpmode]
  have hdcb : ((fpmode .r bin false fp.member fp.dcb).fpopen).dcb = fp.dcb.aopen .input := by
    simp only [File.fpopen, hmode]
    rfl
  have hcap : ((fpmode .r bin false fp.member fp.dcb).fpopen).buf =
      List.replicate (fp.dcb.attr.cap + 8) 0 := rfl
  constructor
  case toReading =>
    constructor
    case toPlain =>
      refine ⟨rfl, rfl, rfl, rfl, rfl, rfl, rfl, rfl, ?_, ?_⟩
      · rw [hdcb]; exact h.attr
      · rw [hdcb]; exact h.recs
    case room => rw [hcap, List.length_replicate, h.attr]
    case next => rw [hdcb]; exact Nat.zero_le _
    case view =>
      rw [hdcb]
      show (d.view bin).drop 0 = List.take 0 _ ++ byteView bin (d.recs.drop 0)
      rfl
    case eof => exact fun hc => absurd hc Bool.false_ne_true
    all_goals first | exact Nat.zero_le _ | rfl
  case error => rfl
  case ungetch => rfl

theorem toLong_of_lt {n : Nat} (h : n < 2 ^ 31) : toLong n = n := by
  unfold toLong
  exact Int.bmod_eq_of_le (by omega) (by omega)

/-- The byte a seek to `newpos` ends up at, if the view is long enough. -/
def landing (fp : File) (newpos : Int) (opens : Bool) : Nat :=
  if fp.bufStart ≤ newpos ∧ newpos < fp.bufStop then newpos.toNat
  else if newpos < fp.filepos then
    if opens then newpos.toNat else fp.filepos
  else if fp.ungetch ≠ -1 ∧ fp.filepos < newpos then newpos.toNat - 1
  else newpos.toNat

/-- The seek is over and the stream reads on from place `p`. -/
structure Landed (d : DataSet a) (bin : Bool) (p : Nat) (r : Int × File) : Prop where
  rc : r.1 = 0
  place : At d bin p r.2
  eof : r.2.eof = false

/-- The seek met the end of the data set. -/
structure Missed (d : DataSet a) (bin : Bool) (r : Int × File) : Prop where
  rc : r.1 = -1
  place : Reading d bin (d.view bin).length r.2

theorem Reading.landed (h : Reading d bin p fp) (herr : fp.error = false) (he : fp.eof = false) :
    Landed d bin p fp.seekDone := by
  have hdone : fp.seekDone = (0, fp.withUngetch (-1)) := by simp [File.seekDone, herr]
  rw [hdone]
  exact ⟨rfl, ⟨h.withUngetch (-1), herr, rfl⟩, he⟩

theorem At.skip_lands (h : At d bin p fp) (hs : d.Solid bin) (he : fp.eof = false) (n : Nat) :
    (p + n ≤ (d.view bin).length → Landed d bin (p + n) (fp.skipBytes n).seekDone) ∧
      ((d.view bin).length < p + n → Missed d bin (fp.skipBytes n).seekDone) := by
  constructor
  · intro hn
    obtain ⟨hat, he'⟩ := h.skipBytes_within hs he hn
    exact hat.landed hat.error he'
  · intro hn
    obtain ⟨hread, herr⟩ := h.skipBytes_past hs hn
    have hdone : (fp.skipBytes n).seekDone = (-1, fp.skipBytes n) := by simp [File.seekDone, herr]
    rw [hdone]
    exact ⟨rfl, hread⟩

/-- What is left of the buffer is in the view. -/
theorem Reading.buffer_bound (h : Reading d bin p fp) :
    p + (fp.endbuf - fp.upto) ≤ (d.view bin).length := by
  have hrest := congrArg List.length h.rest
  have hroom := h.room
  have hend := h.endbuf
  have hbound := h.bound
  simp only [List.length_drop, List.length_append, List.length_take] at hrest
  omega

/-- Inside the buffer `upto` and the position move alike. -/
theorem Reading.moved (h : Reading d bin p fp) (he : fp.eof = false) {q u : Nat}
    (hu : u + p = q + fp.upto) (hend : u ≤ fp.endbuf) :
    Reading d bin q ((fp.withUpto u).withFilepos (q % wordSize)) := by
  have hbehind := h.behind
  have hbound := h.buffer_bound
  have hupto := h.upto
  refine ⟨⟨h.read, h.write, h.append, h.dcbOut, h.record, h.posEnd, h.dirty, h.binary, h.attr, h.recs⟩,
    h.next, h.room, hend, h.endbuf, rfl, ?_, ?_, by omega, fun hc => absurd (he.symm.trans hc) (by decide)⟩
  · show u ≤ q
    omega
  · show List.drop (q - u) _ = _
    rw [show q - u = p - fp.upto by omega]
    exact h.view

theorem Reading.moveTo (h : Reading d bin p fp) (hstart : fp.bufStart = (p : Int) - fp.upto) {q : Nat}
    (hlo : p ≤ q + fp.upto) (hhi : q < p + (fp.endbuf - fp.upto)) (he : fp.eof = false) :
    Reading d bin q (fp.moveTo q) := by
  have hupto := h.upto
  have hmove : fp.moveTo q = (fp.withUpto (q + fp.upto - p)).withFilepos (q % wordSize) := by
    have hpos : ((q : Int) % 2 ^ 32).toNat = q % wordSize := by unfold wordSize; omega
    have hoff : ((q : Int) - fp.bufStart).toNat = q + fp.upto - p := by rw [hstart]; omega
    rw [File.moveTo, hpos, hoff]
  rw [hmove]
  exact h.moved he (by omega) (by omega)

/-- **Where a seek lands.** From any place of a view a `long` can count, with both
indicators clear, the seek reaches `landing` or meets the end before it. -/
theorem Reading.seekRead_lands (h : Reading d bin p fp) (hs : d.Solid bin)
    (hlong : (d.view bin).length < 2 ^ 31) (herr : fp.error = false) (he : fp.eof = false)
    (newpos : Int) (opens : Bool) :
    (landing fp newpos opens ≤ (d.view bin).length →
        Landed d bin (landing fp newpos opens) (fp.seekRead newpos opens)) ∧
      ((d.view bin).length < landing fp newpos opens → Missed d bin (fp.seekRead newpos opens)) := by
  have hbound := h.bound
  have hbehind := h.behind
  have hupto := h.upto
  have hfp : fp.filepos = p := by
    rw [h.filepos]
    exact Nat.mod_eq_of_lt (by unfold wordSize; omega)
  have holdpos : toLong fp.filepos = p := by rw [hfp]; exact toLong_of_lt (by omega)
  have hstart : fp.bufStart = (p : Int) - fp.upto := by rw [File.bufStart, holdpos]
  have hstop : fp.bufStop = (p : Int) + (fp.endbuf - fp.upto) := by rw [File.bufStop, holdpos]
  unfold landing File.seekRead
  simp only [h.record, Bool.false_and, Bool.false_eq_true, if_false, Bool.not_false, Bool.true_and,
    Bool.and_eq_true, decide_eq_true_eq, holdpos]
  by_cases hbuf : fp.bufStart ≤ newpos ∧ newpos < fp.bufStop
  · -- inside the buffer: only `upto` and the position move
    have hnew : newpos = (newpos.toNat : Int) := by omega
    have hmove : Reading d bin newpos.toNat (fp.moveTo newpos.toNat) := by
      exact h.moveTo hstart (by omega) (by omega) he
    rw [← hnew] at hmove
    rw [if_pos hbuf, if_pos hbuf]
    exact ⟨fun _ => hmove.landed herr he, fun hc => absurd hmove.bound (by omega)⟩
  rw [if_neg hbuf, if_neg hbuf, hfp]
  by_cases hback : newpos < (p : Int)
  · rw [if_pos hback, if_pos hback]
    cases opens with
    | true =>
      -- from the start of the data set again
      obtain ⟨hopen, hat⟩ := h.reopened
      have hskip := hat.skip_lands hs rfl newpos.toNat
      simp only [hopen, Option.map_some, if_true, hat.record, Bool.false_eq_true, if_false, Int.sub_zero]
      rw [Nat.zero_add] at hskip
      exact hskip
    | false =>
      simp only [File.reopen, Bool.false_eq_true, if_false, Option.map_none]
      exact ⟨fun _ => h.landed herr he, fun hc => absurd h.bound (by omega)⟩
  rw [if_neg hback, if_neg hback]
  simp only [h.record, Bool.false_eq_true, if_false]
  by_cases hu : fp.ungetch = -1
  · have hat : At d bin p fp := ⟨h, herr, hu⟩
    have hskip := hat.skip_lands hs he (newpos - p).toNat
    rw [show p + (newpos - p).toNat = newpos.toNat by omega] at hskip
    rw [if_neg (fun hc => hc.1 hu)]
    exact hskip
  · have hat : At d bin p (fp.withUngetch (-1)) := ⟨h.withUngetch (-1), herr, rfl⟩
    by_cases hp : (p : Int) < newpos
    · -- the pushed-back character is the first of the bytes skipped
      have hskip := hat.skip_lands hs he (newpos.toNat - 1 - p)
      rw [show p + (newpos.toNat - 1 - p) = newpos.toNat - 1 by omega] at hskip
      rw [if_pos ⟨hu, hp⟩, show (newpos - p).toNat = (newpos.toNat - 1 - p) + 1 by omega,
        h.skipBytes_pushed herr hu]
      exact hskip
    · rw [if_neg (fun hc => hp hc.2), show (newpos - p).toNat = 0 by omega,
        show newpos.toNat = p by omega]
      exact ⟨fun _ => h.landed herr he, fun hc => absurd h.bound (by omega)⟩

/-! ### Every reachable state has a place -/

/-- A data set whose view a `long` can count and whose every record reads as something. -/
structure Regular (d : DataSet a) (bin : Bool) : Prop where
  solid : d.Solid bin
  long : (d.view bin).length < 2 ^ 31

theorem Reading.fseekLocked_set (h : Reading d bin p fp) (offset : Int32) (opens : Bool) :
    fp.fseekLocked offset .seekSet opens = fp.clearerr.seekRead offset.toInt opens := by
  have hr : fp.clearerr.read = true := h.read
  have hw : fp.clearerr.write = false := h.write
  simp [File.fseekLocked, hr, hw]

theorem Reading.fseekLocked_cur (h : Reading d bin p fp) (offset : Int32) (opens : Bool) :
    fp.fseekLocked offset .seekCur opens =
      fp.clearerr.seekRead (toLong (toLong fp.filepos + offset.toInt)) opens := by
  have hr : fp.clearerr.read = true := h.read
  have hw : fp.clearerr.write = false := h.write
  simp only [File.fseekLocked, hr, hw, Bool.and_false, Bool.false_eq_true, if_false, Bool.not_true]
  rfl

theorem Reading.fseekLocked_end (h : Reading d bin p fp) (offset : Int32) (opens : Bool) :
    fp.fseekLocked offset .seekEnd opens = (fp.clearerr.readOut (fp.left + 1)).seekDone := by
  have hr : fp.clearerr.read = true := h.read
  have hw : fp.clearerr.write = false := h.write
  simp only [File.fseekLocked, hr, hw, Bool.and_false, Bool.false_eq_true, if_false, Bool.not_true]
  rfl

theorem Reading.fseekLocked_other (h : Reading d bin p fp) (offset : Int32) (opens : Bool) :
    fp.fseekLocked offset .other opens = (-1, fp.clearerr) := by
  have hr : fp.clearerr.read = true := h.read
  have hw : fp.clearerr.write = false := h.write
  simp [File.fseekLocked, hr, hw]

theorem Placed.seekDone (h : Placed d bin fp) : Placed d bin fp.seekDone.2 := by
  obtain ⟨p, h⟩ := h
  unfold File.seekDone
  split
  · exact ⟨p, h⟩
  · exact ⟨p, h.withUngetch (-1)⟩

theorem Placed.seekRead (h : Placed d bin fp) (hd : Regular d bin) (herr : fp.error = false)
    (he : fp.eof = false) (newpos : Int) (opens : Bool) : Placed d bin (fp.seekRead newpos opens).2 := by
  obtain ⟨p, h⟩ := h
  obtain ⟨hland, hmiss⟩ := h.seekRead_lands hd.solid hd.long herr he newpos opens
  rcases Nat.lt_or_ge (d.view bin).length (landing fp newpos opens) with hlt | hle
  · exact ⟨_, (hmiss hlt).place⟩
  · exact ⟨_, (hland hle).place.toReading⟩

theorem Placed.fseek (h : Placed d bin fp) (hd : Regular d bin) (offset : Int32) (whence : Whence)
    (opens : Bool) : Placed d bin (fp.fseek offset whence opens).2 := by
  obtain ⟨p, h⟩ := h
  have hclear : Placed d bin fp.clearerr := ⟨p, h.clearerr⟩
  have hlocked : Placed d bin (fp.fseekLocked offset whence opens).2 := by
    cases whence with
    | seekSet => rw [h.fseekLocked_set]; exact hclear.seekRead hd rfl rfl _ _
    | seekCur => rw [h.fseekLocked_cur]; exact hclear.seekRead hd rfl rfl _ _
    | seekEnd => rw [h.fseekLocked_end]; exact (hclear.readOut hd.solid _).seekDone
    | other => rw [h.fseekLocked_other]; exact hclear
  obtain ⟨q, hq⟩ := hlocked
  exact ⟨q, hq.hold fp⟩

/-- **Every history leaves the stream in some place of the view.** -/
theorem reachable_place (hd : Regular d bin) (history : List SeekOp) :
    Placed d bin (reached d bin history) := by
  refine Machine.final_invariant ?_ ⟨0, (fopenRead_at d bin).toReading⟩
  intro g op _ hg
  cases op with
  | read call => exact hg.readCall hd.solid call
  | ungetc c => exact hg.ungetc c
  | clearerr => obtain ⟨p, hg⟩ := hg; exact ⟨p, hg.clearerr⟩
  | fseek offset whence opens => exact hg.fseek hd offset whence opens

/-! ### A stream in error -/

/-- Every read is refused. -/
structure Refusing (fp : File) : Prop where
  read : fp.read = true
  error : fp.error = true

namespace Refusing

theorem fgetc (h : Refusing fp) : fp.fgetc = (EOF, fp.withErrno .eio) := by
  simp [File.fgetc, h.read, h.error]

theorem readCall (h : Refusing fp) (call : ReadCall) :
    (readCall fp call).1 = [] ∧ Refusing (readCall fp call).2 := by
  have hkeep : Refusing (fp.withErrno .eio) := ⟨h.read, h.error⟩
  cases call with
  | fgetc =>
    simp only [Stdio.readCall, h.fgetc, if_true, true_and]
    exact hkeep
  | fgets n =>
    simp only [Stdio.readCall, File.fgets]
    split
    · exact ⟨rfl, h⟩
    split
    · exact ⟨rfl, h⟩
    cases hn : (n - 1).toNat with
    | zero => exact ⟨rfl, h⟩
    | succ m =>
      simp only [File.fgetsLoop, h.fgetc, if_true, List.length_nil, BEq.rfl, decide_true, Bool.and_self,
        Option.getD_none, true_and]
      exact hkeep
  | fread size nmemb =>
    simp only [Stdio.readCall, File.fread, h.read, h.error, Bool.not_true, Bool.false_eq_true, if_false,
      if_true, true_and]
    exact hkeep

theorem delivers_nothing (h : Refusing fp) (calls : List ReadCall) :
    delivered fp calls = [] ∧ (Machine.final Stdio.readCall fp calls).fgetc.1 = EOF := by
  induction calls generalizing fp with
  | nil => exact ⟨rfl, by rw [Machine.final_nil, h.fgetc]⟩
  | cons call rest ih =>
    obtain ⟨hbytes, hnext⟩ := h.readCall call
    obtain ⟨hrest, heof⟩ := ih hnext
    refine ⟨?_, heof⟩
    rw [delivered, Machine.answers_cons, List.flatten_cons, hbytes, List.nil_append]
    exact hrest

end Refusing

/-! ### Reading out the data set -/

/-- The characters `__fgetc()` still has to give: a pushed-back one comes on top of the view. -/
def toRead (d : DataSet a) (bin : Bool) (p : Nat) (fp : File) : Nat :=
  (d.view bin).length - p + if fp.ungetch = -1 then 0 else 1

namespace Reading

/-- `__fgetc()` gives one of them, or is at the end and says so. -/
theorem fgetc_toRead (h : Reading d bin p fp) (hs : d.Solid bin) (herr : fp.error = false) :
    (fp.fgetc.1 = EOF ∧ Reading d bin p fp.fgetc.2 ∧ fp.fgetc.2.error = false ∧
        fp.fgetc.2.eof = true ∧ toRead d bin p fp.fgetc.2 = toRead d bin p fp) ∨
      (fp.fgetc.1 ≠ EOF ∧ ∃ q, Reading d bin q fp.fgetc.2 ∧ fp.fgetc.2.error = false ∧
        toRead d bin q fp.fgetc.2 + 1 ≤ toRead d bin p fp) := by
  by_cases hu : fp.ungetch = -1
  · have hat : At d bin p fp := ⟨h, herr, hu⟩
    by_cases hp : p = (d.view bin).length
    · obtain ⟨heq, hend⟩ := hat.fgetc_end hs hp
      rw [heq]
      exact .inl ⟨rfl, hend.toReading, hend.error, rfl, rfl⟩
    · have hlt := lt_of_le_of_ne h.bound hp
      obtain ⟨hc, hnext, -⟩ := hat.fgetc_next hs hlt
      refine .inr ⟨by rw [hc, ne_eq, byte_ne_eof]; exact id, p + 1, hnext.toReading, hnext.error, ?_⟩
      simp only [toRead, hnext.ungetch, hu, if_true]
      omega
  · have hget : fp.fgetc = (fp.ungetch, fp.withUngetch (-1)) := by
      rw [h.fgetc_reading]
      simp [File.fgetcReading, h.read, herr, h.record, hu]
    rw [hget]
    refine .inr ⟨hu, p, h.withUngetch (-1), herr, ?_⟩
    have hback : (fp.withUngetch (-1)).ungetch = -1 := rfl
    simp only [toRead, hback, hu, if_true, if_false]
    omega

/-- Elements of one byte: as many as there are, and the indicator when they run out. -/
theorem freadLoop_toRead (h : Reading d bin p fp) (hs : d.Solid bin) (herr : fp.error = false) (i : Nat) :
    ∃ q, Reading d bin q (fp.freadLoop 1 i).2.2 ∧ (fp.freadLoop 1 i).2.2.error = false ∧
      toRead d bin q (fp.freadLoop 1 i).2.2 + (fp.freadLoop 1 i).1 ≤ toRead d bin p fp ∧
      ((fp.freadLoop 1 i).1 < i → (fp.freadLoop 1 i).2.2.eof = true) := by
  induction i generalizing p fp with
  | zero => exact ⟨p, h, herr, Nat.le_refl _, fun hc => absurd hc (Nat.lt_irrefl 0)⟩
  | succ i ih =>
    rcases h.fgetc_toRead hs herr with ⟨hc, hend, herr', heof, hsame⟩ | ⟨hc, q, hnext, herr', hless⟩
    · simp only [File.freadLoop, File.freadElem, hc, if_true, Bool.not_false]
      exact ⟨p, hend, herr', by omega, fun _ => heof⟩
    · obtain ⟨q', hq', herr'', hless', heof⟩ := ih hnext herr'
      simp only [File.freadLoop, File.freadElem, hc, if_false, Bool.not_true, Bool.false_eq_true]
      refine ⟨q', hq', herr'', ?_, fun hlt => heof (by omega)⟩
      show toRead d bin q' (fp.fgetc.2.freadLoop 1 i).2.2 + ((fp.fgetc.2.freadLoop 1 i).1 + 1) ≤ _
      omega

/-- The read-out loop ends with the end-of-file indicator on, and no error. -/
theorem readOut_eof (h : Reading d bin p fp) (hs : d.Solid bin) (herr : fp.error = false) {n : Nat}
    (hn : toRead d bin p fp < n) : (fp.readOut n).error = false ∧ (fp.readOut n).eof = true := by
  induction n generalizing p fp with
  | zero => exact absurd hn (Nat.not_lt_zero _)
  | succ n ih =>
    by_cases he : fp.eof = true
    · have hread : fp.fread 1 1000 = (0, [], fp) := by simp [File.fread, h.read, herr, he]
      simp only [File.readOut, hread, Nat.lt_irrefl, if_false]
      exact ⟨herr, he⟩
    · have hread : fp.fread 1 1000 = fp.freadLoop 1 1000 := by
        simp [File.fread, h.read, herr, he, h.record]
      obtain ⟨q, hq, herr', hless, heof⟩ := h.freadLoop_toRead hs herr 1000
      simp only [File.readOut, hread]
      by_cases hk : 0 < (fp.freadLoop 1 1000).1
      · have hfewer : toRead d bin q (fp.freadLoop 1 1000).2.2 < n := by omega
        rw [if_pos hk]
        exact ih hq herr' hfewer
      · rw [if_neg hk]
        exact ⟨herr', heof (by omega)⟩

/-- `left` bounds the characters to come. -/
theorem toRead_lt_left (h : Reading d bin p fp) : toRead d bin p fp < fp.left + 1 := by
  have hviews : ∀ recs : List Bytes,
      (byteView bin recs).length ≤ (recs.map (·.length + 1)).sum := by
    intro recs
    induction recs with
    | nil => rfl
    | cons data recs ih =>
      have := recordView_length_le bin data
      rw [byteView_cons, List.length_append, List.map_cons, List.sum_cons]
      omega
  have hrest := congrArg List.length h.rest
  have hrecs := hviews (d.recs.drop fp.dcb.next)
  simp only [List.length_drop, List.length_append, List.length_take] at hrest
  simp only [toRead, File.left, h.recs]
  split <;> omega

/-- SEEK_END answers 0 and leaves the indicator on. -/
theorem fseek_end (h : Reading d bin p fp) (hs : d.Solid bin) (offset : Int32) (opens : Bool) :
    (fp.fseek offset .seekEnd opens).1 = 0 ∧ (fp.fseek offset .seekEnd opens).2.eof = true := by
  obtain ⟨herr, heof⟩ := h.clearerr.readOut_eof hs rfl h.clearerr.toRead_lt_left
  have hlocked : fp.fseekLocked offset .seekEnd opens =
      (0, (fp.clearerr.readOut (fp.left + 1)).withUngetch (-1)) := by
    rw [h.fseekLocked_end, File.seekDone]
    exact if_neg (by rw [show fp.left = fp.clearerr.left from rfl, herr]; exact Bool.false_ne_true)
  simp only [File.fseek, hlocked, true_and]
  exact heof

end Reading

/-! ### The seek the caller asked for -/

/-- The position a call asks for. -/
def requested (d : DataSet a) (bin : Bool) (fp : File) (offset : Int32) : Whence → Option Int
  | .seekSet => some offset.toInt
  | .seekCur => some (fp.ftell.1 + offset.toInt)
  | .seekEnd => some ((d.view bin).length + offset.toInt)
  | .other => none

/-- The stream is at byte `r` of the view, and says so. -/
structure SoughtTo (d : DataSet a) (bin : Bool) (r : Int) (fp : File) : Prop where
  inView : 0 ≤ r ∧ r ≤ (d.view bin).length
  ftell : fp.ftell.1 = r
  ungetch : fp.ungetch = -1
  eof : fp.eof = false
  delivers : ∀ calls, Delivers ((d.view bin).drop r.toNat) fp calls

/-- What a call of `fseek()` owes its caller. -/
structure SeekMeets (d : DataSet a) (bin : Bool) (fp : File) (offset : Int32) (whence : Whence)
    (opens : Bool) : Prop where
  sought : (fp.fseek offset whence opens).1 = 0 →
    ∃ r, requested d bin fp offset whence = some r ∧ SoughtTo d bin r (fp.fseek offset whence opens).2
  negative : ∀ r, requested d bin fp offset whence = some r → r < 0 →
    (fp.fseek offset whence opens).1 ≠ 0
  reopen : ∀ r, requested d bin fp offset whence = some r → r < fp.bufStart → opens = false →
    (fp.fseek offset whence opens).1 ≠ 0

/-- When a seek to `r` goes right, in a view of `size` bytes. -/
structure SeekOk (size : Nat) (fp : File) (r : Int) (opens : Bool) : Prop where
  /-- The position is one, and a `long` holds it. -/
  nonneg : 0 ≤ r
  long : r < 2 ^ 31
  /-- In front of the buffer the data set must open again. -/
  back : r < fp.bufStart → opens = true
  /-- Past the buffer nothing may be pushed back, unless the seek fails anyway. -/
  ahead : fp.bufStop ≤ r → fp.filepos < r → fp.ungetch ≠ -1 → size + 1 < r
  /-- The error indicator may be on only if nothing is left to read. -/
  error : fp.error = true → size ≤ r

/-- When a call of `fseek()` does what it owes. -/
def SeekHolds (d : DataSet a) (bin : Bool) (fp : File) (offset : Int32) (whence : Whence)
    (opens : Bool) : Prop :=
  match whence with
  | .seekSet => SeekOk (d.view bin).length fp offset.toInt opens
  | .seekCur => SeekOk (d.view bin).length fp (fp.ftell.1 + offset.toInt) opens
  | .seekEnd => False
  | .other => True

/-- The stream is where the seek landed; whether it reads depends on the indicator it had. -/
theorem soughtTo_iff (held : File) (hd : Regular d bin) {fp' : File} {q : Nat} (hat : At d bin q fp')
    (he : fp'.eof = false) (r : Int) :
    SoughtTo d bin r (fp'.hold held) ↔
      r = q ∧ (held.error = true → ((d.view bin).length : Int) ≤ r) := by
  have hbound := hat.bound
  have hlong := hd.long
  have hpos : (fp'.hold held).filepos = q := by
    show fp'.filepos = q
    rw [hat.filepos]
    exact Nat.mod_eq_of_lt (by unfold wordSize; omega)
  have hends : (fp'.hold held).posEnd = false := hat.posEnd
  have htell : (fp'.hold held).ftell.1 = q := by
    simp only [File.ftell, hends, Bool.false_eq_true, if_false, hpos]
    exact toLong_of_lt (by omega)
  have hflag : (fp'.hold held).error = held.error := by
    show (fp'.error || held.error) = held.error
    rw [hat.error, Bool.false_or]
  constructor
  · intro h
    have hr : r = q := h.ftell.symm.trans htell
    refine ⟨hr, fun herr => ?_⟩
    -- no read works, so nothing may be left to read
    have hrefuse : Refusing (fp'.hold held) := ⟨hat.read, hflag.trans herr⟩
    have hnone := (h.delivers []).eof.mp (hrefuse.delivers_nothing []).2
    have hlen := congrArg List.length hnone
    rw [(hrefuse.delivers_nothing []).1, List.length_nil, List.length_drop] at hlen
    omega
  · rintro ⟨rfl, herr⟩
    refine ⟨by omega, htell, hat.ungetch, he, fun calls => ?_⟩
    rw [Int.toNat_natCast]
    by_cases hh : held.error = true
    · have hrefuse : Refusing (fp'.hold held) := ⟨hat.read, hflag.trans hh⟩
      obtain ⟨hnone, heof⟩ := hrefuse.delivers_nothing calls
      have := herr hh
      rw [List.drop_of_length_le (by omega)]
      exact ⟨by simp [hnone], ⟨fun _ => hnone, fun _ => heof⟩⟩
    · have hat' : At d bin q (fp'.hold held) :=
        ⟨hat.toReading.hold held, by rw [hflag]; simpa using hh, hat.ungetch⟩
      exact hat'.delivers hd.solid calls

theorem Reading.ftell (h : Reading d bin p fp) : fp.ftell.1 = toLong fp.filepos := by
  simp [File.ftell, h.posEnd]

theorem toLong_cases (r : Int) (hlo : -2 ^ 31 ≤ r) (hhi : r < 2 ^ 32) :
    (toLong r = r ∧ r < 2 ^ 31) ∨ (toLong r = r - 2 ^ 32 ∧ 2 ^ 31 ≤ r) := by
  unfold toLong
  rw [Int.bmod_def]
  split <;> omega

/-- A seek lands on the byte asked for exactly under `SeekOk`, short of a view too short. -/
theorem Reading.landing_iff (h : Reading d bin p fp) (hlong : (d.view bin).length < 2 ^ 31) {r : Int}
    (hlo : -2 ^ 31 ≤ r) (hhi : r < 2 ^ 32) (opens : Bool) :
    (landing fp (toLong r) opens ≤ (d.view bin).length →
        (SeekOk (d.view bin).length fp r opens ↔
          r = landing fp (toLong r) opens ∧ (fp.error = true → ((d.view bin).length : Int) ≤ r) ∧
            (r < fp.bufStart → opens = true))) ∧
      ((d.view bin).length < landing fp (toLong r) opens → SeekOk (d.view bin).length fp r opens) := by
  have hbound := h.bound
  have hbehind := h.behind
  have hupto := h.upto
  have hbuffer := h.buffer_bound
  have hfp : fp.filepos = p := by
    rw [h.filepos]
    exact Nat.mod_eq_of_lt (by unfold wordSize; omega)
  have holdpos : toLong fp.filepos = p := by rw [hfp]; exact toLong_of_lt (by omega)
  have hstart : fp.bufStart = (p : Int) - fp.upto := by rw [File.bufStart, holdpos]
  have hstop : fp.bufStop = (p : Int) + (fp.endbuf - fp.upto) := by rw [File.bufStop, holdpos]
  have hwrap := toLong_cases r hlo hhi
  generalize toLong r = newpos at hwrap ⊢
  unfold landing
  rw [hfp, hstart, hstop]
  constructor
  · intro hle
    constructor
    · rintro ⟨hnonneg, hlt, hback, hahead, herr⟩
      rw [hstart] at hback
      rw [hstop, hfp] at hahead
      refine ⟨?_, herr, hback⟩
      have hnew : newpos = r := by omega
      subst hnew
      -- the three ways round: in the buffer, back, and on
      split_ifs at hle ⊢ with hin hb ho hu
      · omega
      · omega
      · exact absurd (hback (by omega)) ho
      · have := hahead (by omega) hu.2 hu.1
        omega
      · omega
    · rintro ⟨hr, herr, hback⟩
      have hnew : newpos = r := by omega
      refine ⟨by omega, by omega, by rwa [hstart], fun hstop' hpos hu => ?_, herr⟩
      rw [hstop] at hstop'
      rw [hfp] at hpos
      rw [if_neg (by omega), if_neg (by omega), if_pos ⟨hu, by omega⟩] at hr
      omega
  · intro hlt
    -- a position that is negative, or wraps to a negative one, never ends past the view
    have hnew : newpos = r ∧ 0 ≤ r := by split_ifs at hlt <;> omega
    refine ⟨hnew.2, by omega, ?_, ?_, ?_⟩
    · intro hback
      rw [hstart] at hback
      by_contra hno
      rw [if_neg (by omega), if_pos (by omega), if_neg hno] at hlt
      omega
    · intro hstop' hpos hu
      rw [hstop] at hstop'
      rw [hfp] at hpos
      rw [if_neg (by omega), if_neg (by omega), if_pos ⟨hu, by omega⟩] at hlt
      omega
    · intro _
      split_ifs at hlt <;> omega

/-- A seek to a known position goes right exactly under `SeekOk`. -/
theorem Reading.seek_meets_iff (h : Reading d bin p fp) (hd : Regular d bin) {offset : Int32}
    {whence : Whence} {opens : Bool} {r : Int} (hreq : requested d bin fp offset whence = some r)
    (hlo : -2 ^ 31 ≤ r) (hhi : r < 2 ^ 32)
    (hlocked : fp.fseekLocked offset whence opens = fp.clearerr.seekRead (toLong r) opens) :
    SeekMeets d bin fp offset whence opens ↔ SeekOk (d.view bin).length fp r opens := by
  obtain ⟨hland, hmiss⟩ := h.clearerr.seekRead_lands hd.solid hd.long rfl rfl (toLong r) opens
  obtain ⟨hok, hlost⟩ := h.landing_iff hd.long hlo hhi opens
  rw [show landing fp.clearerr (toLong r) opens = landing fp (toLong r) opens from rfl, ← hlocked]
    at hland hmiss
  rcases Nat.lt_or_ge (d.view bin).length (landing fp (toLong r) opens) with hlt | hle
  · -- the seek fails, which is always allowed
    have hrc : (fp.fseek offset whence opens).1 ≠ 0 := by
      show (fp.fseekLocked offset whence opens).1 ≠ 0
      rw [(hmiss hlt).rc]
      decide
    exact ⟨fun _ => hlost hlt, fun _ => ⟨fun hc => absurd hc hrc, fun _ _ _ => hrc, fun _ _ _ _ => hrc⟩⟩
  · have hl := hland hle
    have hrc : (fp.fseek offset whence opens).1 = 0 := hl.rc
    have hsought := soughtTo_iff fp hd hl.place hl.eof r
    rw [hok hle]
    constructor
    · intro hm
      obtain ⟨r', hr', hs⟩ := hm.sought hrc
      rw [hreq, Option.some.injEq] at hr'
      subst hr'
      obtain ⟨hr, herr⟩ := hsought.mp hs
      refine ⟨hr, herr, fun hback => ?_⟩
      by_contra hno
      exact hm.reopen r hreq hback (by simpa using hno) hrc
    · rintro ⟨hr, herr, hback⟩
      refine ⟨fun _ => ⟨r, hreq, hsought.mpr ⟨hr, herr⟩⟩, ?_, ?_⟩
      · intro r' hr' hneg
        rw [hreq, Option.some.injEq] at hr'
        omega
      · intro r' hr' hb hno
        rw [hreq, Option.some.injEq] at hr'
        subst hr'
        exact absurd ((hback hb).symm.trans hno) (by decide)

/-- **A seek does what it owes exactly under `SeekHolds`**, from every state a history of
calls reaches. -/
theorem fseek_meets_iff (hd : Regular d bin) (history : List SeekOp) (offset : Int32) (whence : Whence)
    (opens : Bool) :
    SeekMeets d bin (reached d bin history) offset whence opens ↔
      SeekHolds d bin (reached d bin history) offset whence opens := by
  obtain ⟨p, h⟩ := reachable_place hd history
  generalize reached d bin history = fp at h ⊢
  have hoff := offset.le_toInt
  have hoff' := offset.toInt_lt
  have hbound := h.bound
  have hlong := hd.long
  cases whence with
  | seekSet =>
    refine h.seek_meets_iff hd rfl (by omega) (by omega) ?_
    rw [h.fseekLocked_set]
    rcases toLong_cases offset.toInt (by omega) (by omega) with ⟨hr, -⟩ | ⟨-, hr⟩
    · rw [hr]
    · omega
  | seekCur =>
    have htell : fp.ftell.1 = p := by
      rw [h.ftell, h.filepos, Nat.mod_eq_of_lt (by unfold wordSize; omega)]
      exact toLong_of_lt (by omega)
    refine h.seek_meets_iff hd rfl (by omega) (by omega) ?_
    rw [h.fseekLocked_cur, h.ftell]
  | seekEnd =>
    obtain ⟨hrc, heof⟩ := h.fseek_end hd.solid offset opens
    refine ⟨fun hm => ?_, False.elim⟩
    obtain ⟨r, -, hs⟩ := hm.sought hrc
    exact absurd (heof.symm.trans hs.eof) (by decide)
  | other =>
    have hrc : (fp.fseek offset .other opens).1 ≠ 0 := by
      show (fp.fseekLocked offset .other opens).1 ≠ 0
      rw [h.fseekLocked_other]
      show (-1 : Int) ≠ 0
      decide
    exact ⟨fun _ => trivial, fun _ => ⟨fun hc => absurd hc hrc, fun _ _ _ => hrc, fun _ _ _ _ => hrc⟩⟩

/-- Two lines, `AB` and `C`. -/
def twoLines : DataSet variable255 where
  recs := [[0xC1, 0xC2], [0xC3]]
  fits := by decide

theorem twoLines_regular : Regular twoLines false := ⟨fun h => absurd h (by decide), by decide⟩

/-- After a first `__fgetc()` the stream goes back to byte 0. -/
theorem fseek_meets_back : SeekMeets twoLines false (reached twoLines false [.read .fgetc]) 0 .seekSet true :=
  (fseek_meets_iff twoLines_regular [.read .fgetc] 0 .seekSet true).mpr
    ⟨by decide, by decide, by decide, by decide, by decide⟩

/-- SEEK_END leaves the end-of-file indicator on, a negative position is taken for
the start, and a pushed-back character makes the stream stop one byte short. -/
theorem fseek_misses :
    ¬ SeekMeets twoLines false (reached twoLines false []) 0 .seekEnd true ∧
      ¬ SeekMeets twoLines false (reached twoLines false []) (-1) .seekSet true ∧
      ¬ SeekMeets twoLines false (reached twoLines false [.ungetc 0xC1]) 4 .seekSet true := by
  refine ⟨fun h => ?_, fun h => ?_, fun h => ?_⟩
  · obtain ⟨r, -, hs⟩ := h.sought (by decide)
    exact absurd hs.eof (by decide)
  · exact h.negative (-1) rfl (by decide) (by decide)
  · obtain ⟨r, hr, hs⟩ := h.sought (by decide)
    rw [← Option.some.inj hr] at hs
    exact absurd hs.ftell (by decide)

end Libc370.Stdio
