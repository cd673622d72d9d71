import Libc370.Scanf.Safety
import Libc370.Stdio.Seek

/-! `vvscanf()` on a stream and on a string.

A fresh stream delivers the byte view of its data set, so the stream form and the
string form of a scan run in lockstep (`same_stream`). The character read ahead goes
back with `ungetc()`, and the next read finds it. What does not agree is `%n`:
`ftell()` counts the character that has been read ahead, and the string form takes it
off again. Only at the end of the input, where nothing has been read ahead, do the
two store the same number. -/
namespace Libc370.Scanf

open Stdio Loop

variable {a : Attr} {d : DataSet a} {bin : Bool} {n : Nat} {c : Int} {fp : File}

/-- A stream with `n` bytes of its view left, `c` the first of them and read already. -/
structure StreamAt (d : DataSet a) (bin : Bool) (n : Nat) (c : Int) (fp : File) : Prop where
  le : n ≤ (d.view bin).length
  ahead : n ≠ 0 → c = ((d.view bin).getD ((d.view bin).length - n) 0).toNat ∧
    At d bin ((d.view bin).length - n + 1) fp
  last : n = 0 → c = EOF ∧ At d bin (d.view bin).length fp

/-- `getc()` with `n` bytes left. -/
theorem fgetc_streamAt (hs : d.Solid bin) (hn : n ≤ (d.view bin).length)
    (h : At d bin ((d.view bin).length - n) fp) : StreamAt d bin n fp.fgetc.1 fp.fgetc.2 := by
  refine ⟨hn, fun hpos => ?_, fun hzero => ?_⟩
  · obtain ⟨hc, hat, -⟩ := h.fgetc_next hs (by omega)
    exact ⟨hc, hat⟩
  · subst hzero
    obtain ⟨hc, hat⟩ := h.fgetc_end hs (by omega)
    rw [hc]
    exact ⟨rfl, hat⟩

namespace StreamAt

theorem inch (h : StreamAt d bin (n + 1) c fp) (hs : d.Solid bin) :
    StreamAt d bin n fp.fgetc.1 fp.fgetc.2 := by
  have hle := h.le
  have hat := (h.ahead (Nat.succ_ne_zero n)).2
  rw [show (d.view bin).length - (n + 1) + 1 = (d.view bin).length - n by omega] at hat
  exact fgetc_streamAt hs (by omega) hat

/-- What `ftell()` gives: one more than has been used up, except at the end. -/
theorem ftell (h : StreamAt d bin n c fp) :
    fp.ftell.1 = toLong ((d.view bin).length - n + if n = 0 then 0 else 1 : Nat) := by
  have hle := h.le
  have htell : ∀ {p : Nat}, At d bin p fp → fp.ftell.1 = toLong (p : Int) := by
    intro p hat
    have hpos : fp.ftell.1 = toLong fp.filepos := by simp [File.ftell, hat.posEnd]
    rw [hpos, hat.filepos, wordSize, toLong, toLong]
    push_cast
    exact Int.emod_bmod ..
  by_cases hn : n = 0
  · rw [htell (h.last hn).2, if_pos hn, hn]
    rfl
  · rw [htell (h.ahead hn).2, if_neg hn]

/-- The character read ahead, back on the stream, is the next one read. -/
theorem ungetc_fgetc (h : StreamAt d bin n c fp) (hs : d.Solid bin) :
    (fp.ungetc c).2.fgetc.1 = c := by
  by_cases hn : n = 0
  · obtain ⟨rfl, hat⟩ := h.last hn
    have hback : (fp.ungetc EOF).2 = fp := by simp [File.ungetc]
    rw [hback, (hat.fgetc_end hs rfl).1]
  · obtain ⟨hc, hat⟩ := h.ahead hn
    have hlt : 0 ≤ c ∧ c < 256 := by
      have := ((d.view bin).getD ((d.view bin).length - n) 0).toNat_lt
      omega
    have hback : (fp.ungetc c).2 = (fp.withUngetch c).withEof false := by
      have hne : (c == EOF) = false := beq_eq_false_iff_ne.mpr (by rw [EOF]; omega)
      simp only [File.ungetc, hat.ungetch, hne]
      rw [Int.emod_eq_of_lt hlt.1 hlt.2]
      rfl
    have hplain : Plain d bin ((fp.withUngetch c).withEof false) :=
      (hat.toReading.of_same rfl (fun hc => absurd hc Bool.false_ne_true)).toPlain
    have hne : ((fp.withUngetch c).withEof false).ungetch ≠ -1 := by
      show c ≠ -1
      omega
    rw [hback, hplain.fgetc_reading]
    simp only [File.fgetcReading, hplain.read, hplain.record, hne,
      show ((fp.withUngetch c).withEof false).error = false from hat.error, ne_eq, not_false_eq_true,
      Bool.not_true, Bool.false_eq_true, if_false, if_true]
    rfl

end StreamAt

theorem toLong_count (m : Nat) : toLong (toLong m - 0) = toLong m := by
  rw [Int.sub_zero, toLong, toLong, Int.bmod_bmod]

theorem bmod_parity (x : Int) {b : Nat} (hb : 0 < b) : x.bmod (2 ^ b) % 2 = x % 2 := by
  have hdvd : (2 : Int) ∣ (2 ^ b : Nat) := by
    exact_mod_cast dvd_pow_self 2 (by omega)
  rw [← Int.emod_emod_of_dvd _ hdvd, Int.bmod_emod, Int.emod_emod_of_dvd _ hdvd]

/-- One number and the next are stored as two. -/
theorem toLong_bits_ne (m : Int) (size : Size) :
    (toLong m).bmod (2 ^ size.bits) ≠ (toLong (m + 1)).bmod (2 ^ size.bits) := by
  have hbits : 0 < size.bits := by cases size <;> decide
  intro heq
  have hpar := congrArg (· % 2) heq
  simp only [bmod_parity _ hbits, toLong, bmod_parity _ (by omega : 0 < 32)] at hpar
  omega

/-- **A stream gives the scanner what the string of its bytes gives it,** but counts
the character read ahead. -/
theorem same_stream (hs : d.Solid bin) (hnul : 0 ∉ d.view bin) :
    Same (stringSource (d.view bin)) (fileSource 0) true
      (fun n c s e fp => StringAt (d.view bin) n c s ∧ StreamAt d bin n e fp) := by
  have hcount : ∀ {n c s}, StringAt (d.view bin) n c s →
      (stringSource (d.view bin)).count s = toLong ((d.view bin).length - n : Nat) := by
    intro n c s h
    have hle := h.le
    have hs : (s : Int) - 1 = ((d.view bin).length - n : Nat) := by
      have := h.place
      omega
    exact congrArg toLong hs
  have hcountF : ∀ {n e fp}, StreamAt d bin n e fp →
      (fileSource 0).count fp = toLong ((d.view bin).length - n + if n = 0 then 0 else 1 : Nat) := by
    intro n e fp h
    rw [fileSource]
    dsimp only
    rw [h.ftell, toLong_count]
  constructor
  case char =>
    rintro n c s e fp ⟨hstr, hfile⟩
    have heq : c = e := hstr.char.trans (hfile.ahead (Nat.succ_ne_zero n)).1.symm
    exact ⟨heq, heq ▸ hstr.positive hnul⟩
  case last =>
    rintro c s e fp ⟨hstr, hfile⟩
    exact ⟨hstr.last, (hfile.last rfl).1⟩
  case inch =>
    rintro n c s e fp ⟨hstr, hfile⟩
    obtain ⟨c', hget, hstr'⟩ := hstr.inch
    exact ⟨c', _, _, _, hget, rfl, hstr', hfile.inch hs⟩
  case count =>
    rintro n c s e fp ⟨hstr, hfile⟩ hzero
    rw [hcount hstr, hcountF hfile, if_pos (hzero rfl), Nat.add_zero]
  case countAhead =>
    rintro n c s e fp ⟨hstr, hfile⟩ - hn size
    rw [hcount hstr, hcountF hfile, if_neg hn]
    push_cast
    exact toLong_bits_ne _ size

/-- A data set to be read as a stream that holds the bytes of the input. -/
structure Holding (input : CString) where
  attr : Attr
  dataSet : DataSet attr
  binary : Bool
  solid : dataSet.Solid binary
  view : dataSet.view binary = input.1

variable {input : CString}

/-- What the two forms of a scan owe each other. -/
structure Agrees (h : Holding input) (format : CString) (arg : Nat → Nat) : Prop where
  fault : (vfscanf (h.dataSet.fopenRead h.binary) format arg).fault = (vsscanf input format arg).fault
  value : (vfscanf (h.dataSet.fopenRead h.binary) format arg).value = (vsscanf input format arg).value
  stores : (vfscanf (h.dataSet.fopenRead h.binary) format arg).scan.stores =
    (vsscanf input format arg).scan.stores
  /-- The next character read is the one in front of which the string form has stopped. -/
  next : (vfscanf (h.dataSet.fopenRead h.binary) format arg).scan.src.fgetc.1 =
    match input.1[(vsscanf input format arg).scan.src - 1]? with
    | some b => (b.toNat : Int)
    | none => EOF

theorem fopenRead_left (d : DataSet a) (bin : Bool) : (d.view bin).length < (d.fopenRead bin).left + 1 := by
  have h := (fopenRead_at d bin).toReading.toRead_lt_left
  rw [toRead, (fopenRead_at d bin).ungetch, if_pos rfl] at h
  omega

theorem fopenRead_ftell (d : DataSet a) (bin : Bool) : (d.fopenRead bin).ftell = (0, d.fopenRead bin) := by
  have hpos : (d.fopenRead bin).filepos = 0 := rfl
  rw [File.ftell, (fopenRead_at d bin).posEnd]
  simp only [Bool.false_eq_true, if_false, hpos]
  rw [toLong, Nat.cast_zero, Int.zero_bmod]

/-- **A scan of a fresh stream does what the scan of its bytes as a string does,**
exactly when it does not come to a `%n` with characters left. -/
theorem vfscanf_agrees_iff (h : Holding input) (format : CString) (arg : Nat → Nat) :
    Agrees h format arg ↔
      ∀ s ∈ scanTrail (stringSource input.1) arg (input.1.length + 1) format.1 0,
        ¬ countsAhead (stringSource input.1) s := by
  obtain ⟨a, d, bin, hs, hview⟩ := h
  obtain ⟨c, hget, hstart⟩ := StringAt.start input.1
  have hfresh : StreamAt d bin (d.view bin).length (d.fopenRead bin).fgetc.1 (d.fopenRead bin).fgetc.2 :=
    fgetc_streamAt hs le_rfl (by rw [Nat.sub_self]; exact fopenRead_at d bin)
  have hsame := same_stream hs (hview ▸ input.2)
  rw [hview] at hsame
  have hfirst : inch (stringSource input.1) (.start format.1 0) =
      .ok {Scan.start format.1 1 with ch := c} := by
    rw [inch, show (Scan.start format.1 0).src = 0 from rfl, hget]
    rfl
  have hfirst' : inch (fileSource 0) (.start format.1 (d.fopenRead bin)) =
      .ok {Scan.start format.1 (d.fopenRead bin).fgetc.2 with ch := (d.fopenRead bin).fgetc.1} := rfl
  have hrel : Rel (fun n c s e fp => StringAt input.1 n c s ∧ StreamAt d bin n e fp) false format.1
      input.1.length {Scan.start format.1 1 with ch := c}
      {Scan.start format.1 (d.fopenRead bin).fgetc.2 with ch := (d.fopenRead bin).fgetc.1} :=
    ⟨rfl, rfl, ⟨hstart, hview ▸ hfresh⟩, rfl, by simp [Scan.start]⟩
  have hleft : input.1.length < (d.fopenRead bin).left + 1 := hview ▸ fopenRead_left d bin
  obtain ⟨hfault, f', m, hend⟩ := run_both hsame hrel format.2 (Nat.lt_succ_self _) hleft arg
  simp only [scanTrail, hfirst]
  -- the two exits
  have hstring : vsscanf input format arg =
      run (Scan.fault · .stuck) (scanTurn (stringSource input.1) arg (input.1.length + 1))
        (format.1.length + 1) {Scan.start format.1 1 with ch := c} := by
    simp only [vsscanf, vvscanf, hfirst]
  generalize hexit : run (Scan.fault · .stuck) (scanTurn (fileSource 0) arg ((d.fopenRead bin).left + 1))
    (format.1.length + 1) {Scan.start format.1 (d.fopenRead bin).fgetc.2 with ch := (d.fopenRead bin).fgetc.1} =
      e' at hfault hend
  have hstream : vfscanf (d.fopenRead bin) format arg =
      {e' with scan := {e'.scan with src := (e'.scan.src.ungetc e'.scan.ch).2}} := by
    simp only [vfscanf, fopenRead_ftell, vvscanf, hfirst', hexit]
  rw [← hstring] at hfault hend
  obtain ⟨hstr, hfile⟩ := hend.src
  have hagrees : Agrees ⟨a, d, bin, hs, hview⟩ format arg ↔
      e'.scan.stores = (vsscanf input format arg).scan.stores := by
    constructor
    · intro h
      have := h.stores
      rwa [hstream] at this
    · intro hstores
      refine ⟨?_, ?_, ?_, ?_⟩ <;> dsimp only <;> rw [hstream]
      · exact hfault
      · simp only [Exit.value, hend.locals]
      · exact hstores
      · dsimp only
        rw [hfile.ungetc_fgetc hs, hstr.place, Nat.add_sub_cancel]
        have hle := hstr.le
        by_cases hm : m = 0
        · rw [hm, Nat.sub_zero, List.getElem?_eq_none le_rfl]
          exact (hfile.last hm).1
        · rw [List.getElem?_eq_getElem (by omega), (hfile.ahead hm).1, hview, List.getD_eq_getElem]
  rw [hagrees, eq_comm, hend.stores, List.any_eq_false]
  simp

def inputA : CString := ⟨[ebcdic 'A'], by decide⟩

def formatCount : CString := ⟨[ebcdic '%', ebcdic 'n'], by decide⟩

/-- One record that holds the letter, read in binary. -/
def letterA : Holding inputA where
  attr := variable255
  dataSet := ⟨[[ebcdic 'A']], by decide⟩
  binary := true
  solid := fun _ => by decide
  view := rfl

/-- `%n` in front of it: 1 on the stream, 0 on the string. -/
theorem count_ahead_of_letter :
    (vfscanf (letterA.dataSet.fopenRead letterA.binary) formatCount id).scan.stores = [.int 0 32 1] ∧
      (vsscanf inputA formatCount id).scan.stores = [.int 0 32 0] ∧ ¬ Agrees letterA formatCount id := by
  have hstream : (vfscanf (letterA.dataSet.fopenRead letterA.binary) formatCount id).scan.stores =
      [.int 0 32 1] := by decide
  have hstring : (vsscanf inputA formatCount id).scan.stores = [.int 0 32 0] := by decide
  refine ⟨hstream, hstring, fun h => ?_⟩
  have hsame := h.stores
  rw [hstream, hstring] at hsame
  exact absurd hsame (by decide)

end Libc370.Scanf
