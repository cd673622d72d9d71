import Libc370.Stdio.ByteView

/-! What the read functions deliver.

`__fgetc()`, `__fgets()` and `__fread()` in any order take bytes off the front of
the byte view, one after the other (`Takes`), so a whole run delivers a prefix of
it and stops only at its end. That holds for a data set whose records all read as
something. An empty record of a binary stream does not: `__fgetc()` moves the
pointer past an empty buffer and hands out whatever byte stood there, one byte
more than the view has (`Counting`). -/
namespace Libc370.Stdio

/-- A call of one of the read functions. -/
inductive ReadCall
  | fgetc
  | fgets (n : Int)
  | fread (size nmemb : Nat)

/-- The bytes the caller gets, and the stream after the call. -/
def readCall (fp : File) : ReadCall → Bytes × File
  | .fgetc =>
    let (c, fp) := fp.fgetc
    (if c = EOF then [] else [UInt8.ofNat c.toNat], fp)
  | .fgets n =>
    let (s, fp) := fp.fgets n
    (s.getD [], fp)
  | .fread size nmemb =>
    let (_, p, fp) := fp.fread size nmemb
    (p, fp)

/-- The bytes a run of calls delivers. -/
def delivered (fp : File) (calls : List ReadCall) : Bytes := (Machine.answers readCall fp calls).flatten

variable {a : Attr} {d : DataSet a} {bin : Bool} {p : Nat} {fp fp' : File}

theorem byte_ofNat (b : UInt8) : UInt8.ofNat ((b.toNat : Int).toNat) = b := by simp

/-- From place `p` the stream has delivered `bs` and is behind it. -/
structure Takes (d : DataSet a) (bin : Bool) (p : Nat) (bs : Bytes) (fp : File) : Prop where
  bytes : bs <+: (d.view bin).drop p
  place : At d bin (p + bs.length) fp

namespace Takes

theorem nil (h : At d bin p fp) : Takes d bin p [] fp := ⟨List.nil_prefix, h⟩

theorem append {bs cs : Bytes} (h : Takes d bin p bs fp) (h' : Takes d bin (p + bs.length) cs fp') :
    Takes d bin p (bs ++ cs) fp' := by
  refine ⟨?_, ?_⟩
  · obtain ⟨r, hr⟩ := h.bytes
    obtain ⟨r', hr'⟩ := h'.bytes
    have hrest : (d.view bin).drop (p + bs.length) = r := by
      rw [← List.drop_drop, ← hr, List.drop_left]
    exact ⟨r', by rw [← hr, ← hrest, ← hr', List.append_assoc]⟩
  · rw [List.length_append, ← Nat.add_assoc]
    exact h'.place

end Takes

namespace At

/-- One `__fgetc()`: the next byte of the view, or EOF at its end. -/
theorem fgetc_cases (h : At d bin p fp) (hs : d.Solid bin) :
    (p = (d.view bin).length ∧ fp.fgetc = (EOF, fp.withEof true) ∧ At d bin p (fp.withEof true)) ∨
      ∃ b : UInt8, fp.fgetc.1 = (b.toNat : Int) ∧ Takes d bin p [b] fp.fgetc.2 := by
  by_cases hp : p = (d.view bin).length
  · exact .inl ⟨hp, h.fgetc_end hs hp⟩
  · have hlt : p < (d.view bin).length := lt_of_le_of_ne h.bound hp
    obtain ⟨hc, hat, -⟩ := h.fgetc_next hs hlt
    refine .inr ⟨(d.view bin).getD p 0, hc, ?_, hat⟩
    rw [List.drop_eq_getElem_cons hlt, List.getD_eq_getElem _ _ hlt]
    exact ⟨_, rfl⟩

theorem fgetsLoop_takes (h : At d bin p fp) (hs : d.Solid bin) (n : Nat) (c : Int) :
    Takes d bin p (fp.fgetsLoop n c).1 (fp.fgetsLoop n c).2.2 := by
  induction n generalizing p fp c with
  | zero => exact .nil h
  | succ n ih =>
    rcases h.fgetc_cases hs with ⟨-, heq, hat⟩ | ⟨b, hb, htake⟩
    · simp only [File.fgetsLoop, heq, if_true]
      exact .nil hat
    · simp only [File.fgetsLoop, hb, byte_ne_eof, if_false, byte_ofNat]
      by_cases hnl : b = newline
      · simpa only [hnl, if_true] using htake
      · simp only [hnl, if_false]
        exact htake.append (ih htake.place b.toNat)

theorem freadElem_takes (h : At d bin p fp) (hs : d.Solid bin) (j : Nat) :
    Takes d bin p (fp.freadElem j).2.1 (fp.freadElem j).2.2 := by
  induction j generalizing p fp with
  | zero => exact .nil h
  | succ j ih =>
    rcases h.fgetc_cases hs with ⟨-, heq, hat⟩ | ⟨b, hb, htake⟩
    · simp only [File.freadElem, heq, if_true]
      exact .nil hat
    · simp only [File.freadElem, hb, byte_ne_eof, if_false, byte_ofNat]
      exact htake.append (ih htake.place)

theorem freadLoop_takes (h : At d bin p fp) (hs : d.Solid bin) (size i : Nat) :
    Takes d bin p (fp.freadLoop size i).2.1 (fp.freadLoop size i).2.2 := by
  induction i generalizing p fp with
  | zero => exact .nil h
  | succ i ih =>
    have helem := h.freadElem_takes hs size
    simp only [File.freadLoop]
    split
    · exact helem
    · exact helem.append (ih helem.place)

theorem fgets_takes (h : At d bin p fp) (hs : d.Solid bin) (n : Int) :
    Takes d bin p ((fp.fgets n).1.getD []) (fp.fgets n).2 := by
  unfold File.fgets
  split
  · exact .nil h
  split
  · exact .nil h
  have hloop := h.fgetsLoop_takes hs (n - 1).toNat 0
  generalize File.fgetsLoop (n - 1).toNat 0 fp = r at hloop ⊢
  obtain ⟨s, c, fp'⟩ := r
  dsimp only at hloop ⊢
  split
  · next hz =>
    -- NULL is the answer only when nothing was stored
    have hnil : s = [] := by
      rw [Bool.and_eq_true, decide_eq_true_eq] at hz
      exact List.length_eq_zero_iff.mp hz.1
    rw [hnil] at hloop
    exact hloop
  · exact hloop

theorem fread_takes (h : At d bin p fp) (hs : d.Solid bin) (size nmemb : Nat) :
    Takes d bin p (fp.fread size nmemb).2.1 (fp.fread size nmemb).2.2 := by
  unfold File.fread
  simp only [h.read, h.error, h.record, Bool.not_true, Bool.false_eq_true, if_false]
  split
  · exact .nil h
  · exact h.freadLoop_takes hs size nmemb

/-- Each call takes its bytes off the front of what is left. -/
theorem readCall_takes (h : At d bin p fp) (hs : d.Solid bin) (call : ReadCall) :
    Takes d bin p (readCall fp call).1 (readCall fp call).2 := by
  cases call with
  | fgetc =>
    rcases h.fgetc_cases hs with ⟨-, heq, hat⟩ | ⟨b, hb, htake⟩
    · simp only [readCall, heq, if_true]
      exact .nil hat
    · simpa only [readCall, hb, byte_ne_eof, if_false, byte_ofNat] using htake
  | fgets n => exact h.fgets_takes hs n
  | fread size nmemb => exact h.fread_takes hs size nmemb

end At

/-- A run of calls delivers a prefix of what is left and stands behind it. -/
theorem At.delivered_takes (h : At d bin p fp) (hs : d.Solid bin) (calls : List ReadCall) :
    Takes d bin p (delivered fp calls) (Machine.final readCall fp calls) := by
  have hstep : ∀ (_ : List ReadCall) (os : List Bytes) (g : File) (i : ReadCall),
      Takes d bin p os.flatten g →
        Takes d bin p (os ++ [(readCall g i).1]).flatten (readCall g i).2 := by
    intro _ os g i htake
    rw [List.flatten_append, List.flatten_singleton]
    exact htake.append (htake.place.readCall_takes hs i)
  exact Machine.history_invariant (fun _ os g => Takes d bin p os.flatten g) hstep (.nil h) calls

/-! ### Counting -/

/-- The bytes a reader still hands out. A record that reads as nothing costs one. -/
def handedOut (d : DataSet a) (bin : Bool) (fp : File) : Nat :=
  (fp.endbuf - fp.upto) +
    ((d.recs.drop fp.dcb.next).map (fun data => max 1 (recordView bin data).length)).sum

/-- A reader that has `n` bytes to hand out, whatever bytes they are. -/
structure Counting (d : DataSet a) (bin : Bool) (n : Nat) (fp : File) : Prop extends Plain d bin fp where
  error : fp.error = false
  ungetch : fp.ungetch = -1
  eof : fp.eof = true → n = 0
  count : handedOut d bin fp = n
  filepos : fp.filepos < wordSize

theorem fopenRead_counting (d : DataSet a) (bin : Bool) :
    Counting d bin (d.recs.map (fun data => max 1 (recordView bin data).length)).sum (d.fopenRead bin) := by
  refine ⟨(fopenRead_at d bin).toPlain, rfl, rfl, fun h => absurd h Bool.false_ne_true, ?_,
    (by decide : 0 < wordSize)⟩
  simp [handedOut, DataSet.fopenRead, File.fpopen, fpmode, File.openMode, Dcb.closed, Dcb.aopen]

/-- A byte to hand out is handed out. -/
theorem Counting.fgetc_next {n : Nat} (h : Counting d bin (n + 1) fp) :
    fp.fgetc.1 ≠ EOF ∧ Counting d bin n fp.fgetc.2 := by
  have he : fp.eof = false := by
    by_contra hc
    exact absurd (h.eof (by simpa using hc)) (by omega)
  have hcount := h.count
  have hpos : ∀ g : File, g.dogetc.1 ≠ EOF ∧ g.dogetc.2.filepos < wordSize := by
    intro g
    refine ⟨?_, Nat.mod_lt _ (by decide)⟩
    show ((g.buf.getD g.upto 0).toNat : Int) ≠ EOF
    rw [ne_eq, byte_ne_eof]
    exact id
  by_cases hu : fp.upto < fp.endbuf
  · rw [h.fgetc_buffer h.error h.ungetch he hu]
    refine ⟨(hpos fp).1, ⟨h.read, h.write, h.append, h.dcbOut, h.record, h.posEnd, h.dirty, h.binary, h.attr, h.recs⟩,
      h.error, h.ungetch, fun hc => absurd (he.symm.trans hc) (by decide), ?_, (hpos fp).2⟩
    have : handedOut d bin fp.dogetc.2 + 1 = handedOut d bin fp := by
      show fp.endbuf - (fp.upto + 1) + ((d.recs.drop fp.dcb.next).map _).sum + 1 =
        fp.endbuf - fp.upto + ((d.recs.drop fp.dcb.next).map _).sum
      omega
    omega
  · by_cases hn : fp.dcb.next < d.recs.length
    · rw [h.fgetc_record h.error h.ungetch he hu hn]
      refine ⟨(hpos _).1, ⟨h.read, h.write, h.append, h.dcbOut, h.record, h.posEnd, h.dirty, h.binary, h.attr,
        h.recs⟩, h.error, h.ungetch, fun hc => absurd (he.symm.trans hc) (by decide), ?_, (hpos _).2⟩
      have hend := File.load_endbuf (fp.withDcb fp.dcb.passed) d.recs[fp.dcb.next]
      rw [show (fp.withDcb fp.dcb.passed).binary = bin from h.binary] at hend
      have hdrop : handedOut d bin fp = max 1 (recordView bin d.recs[fp.dcb.next]).length +
          ((d.recs.drop (fp.dcb.next + 1)).map (fun data => max 1 (recordView bin data).length)).sum := by
        unfold handedOut
        rw [List.drop_eq_getElem_cons hn, List.map_cons, List.sum_cons]
        omega
      show (((fp.withDcb fp.dcb.passed).load d.recs[fp.dcb.next]).endbuf - 1) +
        ((d.recs.drop (fp.dcb.next + 1)).map (fun data => max 1 (recordView bin data).length)).sum = n
      rw [hend]
      omega
    · have hzero : handedOut d bin fp = 0 := by
        unfold handedOut
        rw [List.drop_of_length_le (by omega : d.recs.length ≤ fp.dcb.next)]
        simp only [List.map_nil, List.sum_nil]
        omega
      omega

/-- As many bytes are delivered as there are to hand out, and the position has
kept within 32 bits. -/
theorem Counting.delivered_length {m : Nat} (n k : Nat) (h : Counting d bin m fp) (hm : m = n + k) :
    (delivered fp (List.replicate k .fgetc)).length = k ∧
      (Machine.final readCall fp (List.replicate k .fgetc)).filepos < wordSize := by
  subst hm
  induction k generalizing fp with
  | zero => exact ⟨rfl, h.filepos⟩
  | succ k ih =>
    obtain ⟨hne, hnext⟩ := h.fgetc_next
    obtain ⟨hlen, hpos⟩ := ih hnext
    refine ⟨?_, hpos⟩
    have hcall : (readCall fp .fgetc).1.length = 1 := by simp [readCall, hne]
    simp only [delivered, List.replicate_succ, Machine.answers_cons, List.flatten_cons, List.length_append]
      at hlen ⊢
    rw [hcall, show (readCall fp .fgetc).2 = fp.fgetc.2 from rfl, hlen, Nat.add_comm]

theorem view_length_le (bin : Bool) (recs : List Bytes) :
    (byteView bin recs).length ≤ (recs.map (fun data => max 1 (recordView bin data).length)).sum := by
  induction recs with
  | nil => rfl
  | cons data recs ih =>
    rw [byteView_cons, List.length_append, List.map_cons, List.sum_cons]
    omega

/-- An empty record of a binary stream makes the reader hand out too much. -/
theorem view_length_lt {recs : List Bytes} (h : [] ∈ recs) :
    (byteView true recs).length < (recs.map (fun data => max 1 (recordView true data).length)).sum := by
  induction recs with
  | nil => exact absurd h List.not_mem_nil
  | cons data recs ih =>
    have hle := view_length_le true recs
    rw [byteView_cons, List.length_append, List.map_cons, List.sum_cons]
    rcases List.mem_cons.mp h with rfl | hmem
    · have hnil : (recordView true []).length = 0 := rfl
      omega
    · have := ih hmem
      omega

/-! ### The bytes delivered are the byte view -/

/-- What a run of calls owes: a prefix of `bs` in order, and EOF at the end of `bs`
and nowhere else. -/
structure Delivers (bs : Bytes) (fp : File) (calls : List ReadCall) : Prop where
  bytes : delivered fp calls <+: bs
  eof : (Machine.final readCall fp calls).fgetc.1 = EOF ↔ delivered fp calls = bs

/-- From the start of the data set the bytes owed are the view, and the position
counts them. -/
structure DeliversView (d : DataSet a) (bin : Bool) (calls : List ReadCall) : Prop
    extends Delivers (d.view bin) (d.fopenRead bin) calls where
  filepos : (Machine.final readCall (d.fopenRead bin) calls).filepos =
    (delivered (d.fopenRead bin) calls).length

/-- A reader in place `p` delivers the view from `p` on. -/
theorem At.delivers (h : At d bin p fp) (hs : d.Solid bin) (calls : List ReadCall) :
    Delivers ((d.view bin).drop p) fp calls := by
  have htake := h.delivered_takes hs calls
  refine ⟨htake.bytes, ?_, ?_⟩
  · intro heof
    rcases htake.place.fgetc_cases hs with ⟨hp, -⟩ | ⟨b, hb, -⟩
    · refine htake.bytes.eq_of_length ?_
      rw [List.length_drop]
      omega
    · rw [hb, byte_ne_eof] at heof
      exact heof.elim
  · intro hall
    have hend : p + (delivered fp calls).length = (d.view bin).length := by
      have := h.bound
      rw [hall, List.length_drop]
      omega
    rw [(htake.place.fgetc_end hs hend).1]

/-- **Every interleaving of the read functions delivers the byte view** exactly
when no record of a binary stream is empty and the position fits its 32 bits. -/
theorem reads_deliver_view (d : DataSet a) (bin : Bool) :
    (∀ calls, DeliversView d bin calls) ↔ d.Solid bin ∧ (d.view bin).length < wordSize := by
  constructor
  · intro h
    have hcount := fopenRead_counting d bin
    constructor
    · intro hb data hmem hnil
      subst hb hnil
      -- one more `__fgetc()` than the view has bytes still delivers one
      have hlt := view_length_lt hmem
      obtain ⟨n, hn⟩ := Nat.exists_eq_add_of_lt hlt
      have hlen := (hcount.delivered_length n ((d.view true).length + 1)
        (hn.trans (by show (d.view true).length + n + 1 = _; omega))).1
      have := (h (List.replicate ((d.view true).length + 1) .fgetc)).bytes.length_le
      omega
    · by_contra hbig
      have hle := view_length_le bin d.recs
      obtain ⟨n, hn⟩ := Nat.exists_eq_add_of_le (le_trans (Nat.le_of_not_lt hbig) hle)
      obtain ⟨hlen, hpos⟩ := hcount.delivered_length n wordSize (by rw [hn, Nat.add_comm])
      have := (h (List.replicate wordSize .fgetc)).filepos
      omega
  · rintro ⟨hs, hsmall⟩ calls
    have hstart := fopenRead_at d bin
    have hbytes := (hstart.delivered_takes hs calls).bytes
    have hplace := (hstart.delivered_takes hs calls).place
    refine ⟨hstart.delivers hs calls, ?_⟩
    rw [hplace.filepos, Nat.zero_add]
    exact Nat.mod_eq_of_lt (lt_of_le_of_lt hbytes.length_le hsmall)

/-- RECFM=V with LRECL=255. -/
def variable255 : Attr := ⟨.V, 255, 255, by decide, by decide, false⟩

/-- A record that is an RDW and nothing else, after a one-byte record. -/
def emptyRecord : DataSet variable255 where
  recs := [[0xC1], []]
  fits := by decide

/-- In binary its one byte is delivered twice. -/
theorem empty_record_repeats_byte :
    delivered (emptyRecord.fopenRead true) [.fgetc, .fgetc] = [0xC1, 0xC1] ∧
      ¬ DeliversView emptyRecord true [.fgetc, .fgetc] := by
  have htwice : delivered (emptyRecord.fopenRead true) [.fgetc, .fgetc] = [0xC1, 0xC1] := by decide
  refine ⟨htwice, fun h => ?_⟩
  have hlen := h.bytes.length_le
  rw [htwice] at hlen
  exact absurd hlen (by decide)

end Libc370.Stdio
