import Libc370.Stdio.Output

/-! A write the access method refuses.

`rcs` is the schedule: what each call of `__awrite()` answers. The first answer that
is not 0 sets the error indicator, and from then on every write call is refused
before it touches the buffer, so nothing reaches the access method until
`clearerr()` (`Refusal`). If no call reports a failure, `fclose()` included, every
byte given to the stream was in exactly one of the buffers the access method took,
in order (`Complete`).

A record stream takes whole records by `fwrite()` and no bytes, but `__fputc()`
answers its argument there, as if the byte were written. -/
namespace Libc370.Stdio

/-- RECFM=V with LRECL=84. -/
def variable80 : Attr := ⟨.V, 84, 84, by decide, by decide, false⟩

variable {a : Attr} {bin record : Bool} {pend : Bytes} {fp fp' : File}

/-- The error a refused write stands for. -/
def writeErrno (rc : Nat) : Errno := if rc = 12 then .enospc else .eio

/-! ### Record streams -/

/-- A record stream whose DCB writes. -/
structure Recording (a : Attr) (fp : File) : Prop where
  opened : fp.opened = true
  write : fp.write = true
  record : fp.record = true
  dirty : fp.dirty = false
  attr : fp.dcb.attr = a
  mode : fp.dcb.mode ≠ .updat
  upto : fp.upto = 0
  enospc : fp.error = false → fp.enospc = false

theorem Recording.of_same (h : Recording a fp) (hd : fp' = {fp with
    dcb := fp'.dcb, filepos := fp'.filepos, error := fp'.error, enospc := fp'.enospc, eof := fp'.eof,
    errno := fp'.errno}) (hattr : fp'.dcb.attr = fp.dcb.attr) (hmode : fp'.dcb.mode = fp.dcb.mode)
    (he : fp'.error = false → fp'.enospc = false) : Recording a fp' := by
  rw [hd]
  exact ⟨h.opened, h.write, h.record, h.dirty, hattr.trans h.attr, hmode ▸ h.mode, h.upto, he⟩

/-- The call took the records `out`, and the access method took each of them. -/
structure Recorded (a : Attr) (out : List Bytes) (fp fp' : File) : Prop where
  recording : Recording a fp'
  calls : fp'.dcb.calls = fp.dcb.calls ++ out.map (fun data => (data, 0))
  error : fp'.error = false

theorem Recording.unchanged (h : Recording a fp) (herr : fp.error = false) : Recorded a [] fp fp :=
  ⟨h, by simp, herr⟩

/-- `__fwrite()` of a record. -/
theorem Recording.fwriteRecord_cases (h : Recording a fp) (herr : fp.error = false) (ptr : Bytes)
    (size nmemb : Nat) :
    (size * nmemb = 0 ∧ fp.fwriteRecord ptr size nmemb = (0, fp)) ∨
      (size * nmemb ≠ 0 ∧ (fp.fwriteRecord ptr size nmemb).1 = 1 ∧
        Recorded a [ptr.takeD (size * nmemb) 0] fp (fp.fwriteRecord ptr size nmemb).2) ∨
      (size * nmemb ≠ 0 ∧ (fp.fwriteRecord ptr size nmemb).1 = 0 ∧
        (Recorded a [] fp (fp.fwriteRecord ptr size nmemb).2 ∨
          ∃ rc, Broke rc fp (fp.fwriteRecord ptr size nmemb).2 ∧
            Recording a (fp.fwriteRecord ptr size nmemb).2)) := by
  by_cases hz : size * nmemb = 0
  · refine .inl ⟨hz, ?_⟩
    have hcond : (decide (size = 0) || decide (nmemb = 0)) = true := by
      rcases Nat.mul_eq_zero.mp hz with h0 | h0 <;> simp [h0]
    simp only [File.fwriteRecord, hcond, if_true]
  have hcond : ¬ (decide (size = 0) || decide (nmemb = 0)) = true := by
    simpa [not_or] using hz
  have hrefused : Recorded a [] fp (fp.withErrno .einval) :=
    ⟨h.of_same rfl rfl rfl h.enospc, (List.append_nil _).symm, herr⟩
  refine .inr ?_
  simp only [File.fwriteRecord, if_neg hcond]
  split
  · exact .inr ⟨hz, rfl, .inl hrefused⟩
  split
  · exact .inr ⟨hz, rfl, .inl hrefused⟩
  have hwrite : fp.finwrite (ptr.takeD (size * nmemb) 0) =
      ((fp.dcb.awrite (ptr.takeD (size * nmemb) 0)).1,
        fp.withDcb (fp.dcb.awrite (ptr.takeD (size * nmemb) 0)).2) := rfl
  rw [hwrite, awrite_adds h.mode]
  generalize hrc : fp.dcb.rcs.headD 0 = rc
  by_cases hok : rc = 0
  · subst hok
    simp only [ne_eq, not_true_eq_false, if_false]
    exact .inl ⟨hz, trivial, h.of_same rfl rfl rfl h.enospc, rfl, herr⟩
  · simp only [ne_eq, hok, not_false_eq_true, if_true]
    refine .inr ⟨hz, trivial, .inr ⟨rc, ⟨⟨[], _, by rw [List.append_nil]; rfl, by simp⟩, hok,
      hrc ▸ rcs_mem (hrc ▸ hok), rfl, ?_, rfl⟩, ?_⟩⟩
    · show (fp.enospc || rc == 12) = _
      rw [h.enospc herr, Bool.false_or]
    · exact h.of_same rfl rfl rfl (fun hc => absurd hc Bool.true_eq_false_eq_False)

/-- A call on a record stream: it took what it reports, or it reports a failure. -/
theorem Recording.writeCall_cases (h : Recording a fp) (herr : fp.error = false) {call : WriteCall}
    (hput : ∀ b, call ≠ .fputc b) :
    (call.Reports true (writeCall fp call).1 ∧
        ∃ out, out.flatten = call.bytes ∧ Recorded a out fp (writeCall fp call).2) ∨
      (¬ call.Reports true (writeCall fp call).1 ∧
        (Recorded a [] fp (writeCall fp call).2 ∨
          ∃ rc, Broke rc fp (writeCall fp call).2 ∧ Recording a (writeCall fp call).2)) := by
  cases call with
  | fputc b => exact absurd rfl (hput b)
  | fputs s =>
    have hnone : writeCall fp (.fputs s) = (EOF, fp) := by simp [writeCall, File.fputs, h.record]
    rw [hnone]
    exact .inr ⟨fun hr => hr rfl, .inl (h.unchanged herr)⟩
  | fflush =>
    have hnone : writeCall fp .fflush = (0, fp) := by
      simp [writeCall, File.fflush, File.flushrec, h.dirty, h.record]
    rw [hnone]
    exact .inl ⟨rfl, [], rfl, h.unchanged herr⟩
  | clearerr =>
    exact .inl ⟨trivial, [], rfl, h.of_same rfl rfl rfl (fun _ => rfl), (List.append_nil _).symm, rfl⟩
  | fwrite ptr size nmemb =>
    have hrec : writeCall fp (.fwrite ptr size nmemb) =
        (((fp.fwriteRecord ptr size nmemb).1 : Int), (fp.fwriteRecord ptr size nmemb).2) := by
      simp [writeCall, File.fwrite, h.write, herr, h.record]
    rw [hrec]
    simp only [WriteCall.Reports, WriteCall.bytes, if_true]
    rcases h.fwriteRecord_cases herr ptr size nmemb with ⟨hz, hnone⟩ | ⟨hz, hone, hrec⟩ | ⟨hz, hzero, hrest⟩
    · rw [hnone]
      exact .inl ⟨fun hc => absurd hz hc, [], by rw [hz]; rfl, h.unchanged herr⟩
    · exact .inl ⟨fun _ => congrArg Nat.cast hone, _, List.flatten_singleton, hrec⟩
    · exact .inr ⟨fun hr => absurd (hr hz) (by rw [hzero]; decide), hrest⟩

/-! ### Streams of either kind -/

/-- An output stream, with nothing in its buffer once it is in error. -/
def Stream (a : Attr) (bin record : Bool) (fp : File) : Prop :=
  if record then Recording a fp else ∃ pend, Filling a bin pend fp ∧ (fp.error = true → pend = [])

theorem Stream.upto (h : Stream a bin record fp) (herr : fp.error = true) : fp.upto = 0 := by
  cases record with
  | true => exact Recording.upto h
  | false =>
    obtain ⟨pend, hfill, hnil⟩ := h
    rw [hfill.upto, hnil herr]
    rfl

/-- No write that the call made was refused. -/
structure Went (fp fp' : File) : Prop where
  calls : ∃ taken, fp'.dcb.calls = fp.dcb.calls ++ taken ∧ ∀ call ∈ taken, call.2 = 0
  error : fp'.error = false

/-- `__fputc()` on a record stream: not a call this is about. -/
def WriteCall.Admitted (record : Bool) (call : WriteCall) : Prop := record = true → ∀ b, call ≠ .fputc b

/-- A call on a stream without an error: all its writes went well, or the last one was refused
and the call reports a failure. -/
theorem Stream.writeCall_cases (h : Stream a bin record fp) (herr : fp.error = false) {call : WriteCall}
    (hcall : call.Admitted record) :
    Stream a bin record (writeCall fp call).2 ∧
      (Went fp (writeCall fp call).2 ∨
        (¬ call.Reports record (writeCall fp call).1 ∧ ∃ rc, Broke rc fp (writeCall fp call).2)) := by
  cases record with
  | true =>
    have hrecs : ∀ out : List Bytes, ∀ call ∈ out.map (fun data => (data, 0)), call.2 = 0 := by
      intro out call hmem
      obtain ⟨data, -, rfl⟩ := List.mem_map.mp hmem
      rfl
    rcases Recording.writeCall_cases h herr (hcall rfl) with
      ⟨-, out, -, hrec⟩ | ⟨hno, hrec | ⟨rc, hbroke, hrec⟩⟩
    · exact ⟨hrec.recording, .inl ⟨⟨_, hrec.calls, hrecs out⟩, hrec.error⟩⟩
    · exact ⟨hrec.recording, .inl ⟨⟨_, hrec.calls, hrecs []⟩, hrec.error⟩⟩
    · exact ⟨hrec, .inr ⟨hno, rc, hbroke⟩⟩
  | false =>
    obtain ⟨pend, hfill, -⟩ := h
    rcases hfill.writeCall_cases herr call with ⟨-, hfed⟩ | ⟨hno, rc, hbroke, hfill'⟩
    · refine ⟨⟨_, hfed.filling, fun hc => absurd (hfed.error.symm.trans hc) (by decide)⟩,
        .inl ⟨⟨_, hfed.handed.calls, fun call hmem => ?_⟩, hfed.error⟩⟩
      obtain ⟨piece, -, rfl⟩ := List.mem_map.mp hmem
      rfl
    · exact ⟨⟨[], hfill', fun _ => rfl⟩, .inr ⟨hno, rc, hbroke⟩⟩

/-- A call refused before it touches the stream, with errno `e`. -/
def WriteCall.Refused (e : Errno) (r : Int × File) : WriteCall → Prop
  | .fputc _ => r.1 = EOF ∧ r.2.errno = e
  | .fputs s => s.takeWhile (· ≠ 0) ≠ [] → r.1 = EOF
  | .fwrite _ _ _ => r.1 = 0 ∧ r.2.errno = e
  | .fflush => True
  | .clearerr => True

theorem failFast_eq (fp : File) :
    fp.failFast.2 = fp.withErrno (if fp.enospc then .enospc else .eio) := by
  unfold File.failFast
  cases fp.enospc <;> rfl

/-- In error every write call is refused, and nothing but the errno changes. -/
theorem Stream.refuses (h : Stream a bin record fp) (herr : fp.error = true) {call : WriteCall}
    (hcall : call.Admitted record) :
    call.Refused (if fp.enospc then .enospc else .eio) (writeCall fp call) ∧
      (call ≠ .clearerr → ∃ e, (writeCall fp call).2 = fp.withErrno e) := by
  have hwrite : fp.write = true := by
    cases record with
    | true => exact Recording.write h
    | false => obtain ⟨pend, hfill, -⟩ := h; exact hfill.write
  have hput : record = false → ∀ b : UInt8, fp.fputc b.toNat = (EOF, fp.failFast.2) := by
    rintro rfl b
    obtain ⟨pend, hfill, -⟩ := h
    simp [File.fputc, hwrite, hfill.record, herr]
  cases call with
  | fputc b =>
    cases record with
    | true => exact absurd rfl (hcall rfl b)
    | false =>
      show _ ∧ (_ → ∃ e, (fp.fputc b.toNat).2 = _)
      rw [WriteCall.Refused, writeCall, hput rfl b, failFast_eq]
      exact ⟨⟨rfl, rfl⟩, fun _ => ⟨_, rfl⟩⟩
  | fputs s =>
    cases record with
    | true =>
      have hnone : writeCall fp (.fputs s) = (EOF, fp) := by
        simp [writeCall, File.fputs, Recording.record h]
      rw [hnone]
      exact ⟨fun _ => rfl, fun _ => ⟨fp.errno, rfl⟩⟩
    | false =>
      obtain ⟨pend, hfill, -⟩ := h
      simp only [WriteCall.Refused, writeCall, File.fputs, hfill.record, Bool.false_eq_true, if_false]
      cases hs : s.takeWhile (· ≠ 0) with
      | nil => exact ⟨fun hc => absurd rfl hc, fun _ => ⟨fp.errno, rfl⟩⟩
      | cons b rest =>
        simp only [File.putBytes, hput rfl b, if_true, List.length_cons, Nat.succ_pos, failFast_eq]
        exact ⟨fun _ => trivial, fun _ => ⟨_, rfl⟩⟩
  | fwrite ptr size nmemb =>
    have hnone : fp.fwrite ptr size nmemb = (0, fp.failFast.2) := by simp [File.fwrite, hwrite, herr]
    simp only [WriteCall.Refused, writeCall, hnone, failFast_eq]
    exact ⟨⟨rfl, rfl⟩, fun _ => ⟨_, rfl⟩⟩
  | fflush =>
    have hupto := h.upto herr
    have hnone : fp.fflush = (0, fp) := by
      cases record with
      | true => simp [File.fflush, File.flushrec, Recording.dirty h, Recording.record h]
      | false =>
        obtain ⟨pend, hfill, -⟩ := h
        simp [File.fflush, File.flushrec, hfill.dirty, hfill.record, hfill.dcbOut, hupto]
    simp only [WriteCall.Refused, writeCall, hnone]
    exact ⟨trivial, fun _ => ⟨fp.errno, rfl⟩⟩
  | clearerr => exact ⟨trivial, fun hc => absurd rfl hc⟩

/-! ### Runs -/

/-- A write that the call made was refused with `rc`. -/
def WriteFails (fp : File) (call : WriteCall) (rc : Nat) : Prop :=
  rc ≠ 0 ∧ ∃ buf, (buf, rc) ∈ (writeCall fp call).2.dcb.calls.drop fp.dcb.calls.length

/-- Every call of the run reports success. -/
def AllReport (record : Bool) (fp : File) (calls : List WriteCall) : Prop :=
  ∀ before call after, calls = before ++ call :: after →
    call.Reports record (writeCall (Machine.final writeCall fp before) call).1

/-- The bytes a run of calls gives to the stream as data. -/
def givenBytes (bin record : Bool) (calls : List WriteCall) : Bytes :=
  calls.flatMap fun call => if record then call.bytes else dataBytes bin call.bytes

/-- From the call in which a write was refused until the next `clearerr()`. -/
structure Refusal (record : Bool) (rc : Nat) (call : WriteCall) (fp fp' fp'' : File) : Prop where
  /-- The call itself reports the failure. -/
  reported : ¬ call.Reports record (writeCall fp call).1
  flagged : fp'.error = true
  errno : fp'.errno = writeErrno rc
  /-- Later the error is still on, nothing more has reached the access method, and nothing
  waits in the buffer to reach it after a `clearerr()`. -/
  kept : fp''.error = true
  silent : fp''.dcb.calls = fp'.dcb.calls
  empty : fp''.upto = 0
  refuses : ∀ next : WriteCall, next.Admitted record → next.Refused (writeErrno rc) (writeCall fp'' next)

/-- What `fclose()` answers: the failure of its own flush, or of the final block. -/
structure Closes (fp : File) : Prop where
  fails : fp.fflush.1 ≠ 0 ∨ fp.fflush.2.dcb.closeRc ≠ 0 → fp.fclose.1 = EOF ∧ fp.fclose.2.errno =
    writeErrno (if fp.fflush.2.dcb.closeRc ≠ 0 then fp.fflush.2.dcb.closeRc else fp.fflush.1)
  works : fp.fflush.1 = 0 → fp.fflush.2.dcb.closeRc = 0 → fp.fclose.1 = 0

/-- What an output stream owes for a run of calls from `fp`. -/
structure OutputHolds (a : Attr) (bin record : Bool) (fp : File) (calls : List WriteCall) : Prop where
  refusal : ∀ before call after rc, calls = before ++ call :: after →
    WriteFails (Machine.final writeCall fp before) call rc → .clearerr ∉ after →
      Refusal record rc call (Machine.final writeCall fp before)
        (Machine.final writeCall fp (before ++ [call])) (Machine.final writeCall fp calls)
  closes : Closes (Machine.final writeCall fp calls)
  /-- If nothing reports a failure, the buffers taken are the bytes given, each once and in order. -/
  complete : AllReport record fp calls → (Machine.final writeCall fp calls).fclose.1 = 0 →
    ∃ pieces : List Bytes, pieces.flatten = givenBytes bin record calls ∧
      (Machine.final writeCall fp calls).fclose.2.dcb.calls =
        pieces.map (fun piece => (if record then piece else rendered a bin piece, 0))

/-- A refused write shows in the log only of the call that made it. -/
theorem WriteFails.broke {call : WriteCall} {rc : Nat} (h : WriteFails fp call rc)
    (hs : Stream a bin record fp) (hcall : call.Admitted record) :
    ¬ call.Reports record (writeCall fp call).1 ∧ Broke rc fp (writeCall fp call).2 := by
  obtain ⟨hrc, buf, hmem⟩ := h
  have herr : fp.error = false := by
    by_contra hc
    have herr : fp.error = true := by simpa using hc
    -- in error the log does not grow
    by_cases hclear : call = .clearerr
    · rw [hclear] at hmem
      exact absurd (List.drop_length ▸ hmem) List.not_mem_nil
    · obtain ⟨e, he⟩ := (hs.refuses herr hcall).2 hclear
      rw [he] at hmem
      exact absurd (List.drop_length ▸ hmem) List.not_mem_nil
  rcases (hs.writeCall_cases herr hcall).2 with hwent | ⟨hno, rc', hbroke⟩
  · obtain ⟨taken, hcalls, hzero⟩ := hwent.calls
    rw [hcalls, List.drop_left] at hmem
    exact absurd (hzero _ hmem) hrc
  · refine ⟨hno, ?_⟩
    obtain ⟨taken, buf', hcalls, hzero⟩ := hbroke.calls
    rw [hcalls, List.append_assoc, List.drop_left, List.mem_append, List.mem_singleton] at hmem
    rcases hmem with hmem | hmem
    · exact absurd (hzero _ hmem) hrc
    · rw [(Prod.mk.inj hmem).2]
      exact hbroke

/-- Calls keep a stream a stream. -/
theorem Stream.kept (h : Stream a bin record fp) {call : WriteCall} (hcall : call.Admitted record) :
    Stream a bin record (writeCall fp call).2 := by
  by_cases herr : fp.error = true
  · have hother : ∀ g : File, (∃ e, g = fp.withErrno e) ∨ g = fp.clearerr → Stream a bin record g := by
      intro g hg
      cases record with
      | true =>
        have hrec : Recording a fp := h
        rcases hg with ⟨e, rfl⟩ | rfl
        · exact hrec.of_same rfl rfl rfl hrec.enospc
        · exact hrec.of_same rfl rfl rfl (fun _ => rfl)
      | false =>
        obtain ⟨pend, hfill, hnil⟩ := h
        rcases hg with ⟨e, rfl⟩ | rfl
        · exact ⟨pend, hfill.of_same rfl hfill.enospc hfill.word, hnil⟩
        · exact ⟨pend, hfill.of_same rfl (fun _ => rfl) hfill.word, fun _ => hnil herr⟩
    by_cases hclear : call = .clearerr
    · exact hother _ (.inr (by rw [hclear]; rfl))
    · exact hother _ (.inl ((h.refuses herr hcall).2 hclear))
  · exact (h.writeCall_cases (by simpa using herr) hcall).1

theorem Stream.opened (h : Stream a bin record fp) : fp.opened = true := by
  cases record with
  | true => exact Recording.opened h
  | false => obtain ⟨pend, hfill, -⟩ := h; exact hfill.opened

/-- A flush that fails says why. -/
theorem Stream.fflush_errno (h : Stream a bin record fp) (hf : fp.fflush.1 ≠ 0) :
    fp.fflush.2.errno = writeErrno fp.fflush.1 := by
  cases record with
  | true =>
    have hrec : Recording a fp := h
    exact absurd (by simp [File.fflush, File.flushrec, hrec.dirty, hrec.record]) hf
  | false =>
    by_cases herr : fp.error = true
    · have hupto := h.upto herr
      obtain ⟨pend, hfill, -⟩ := h
      exact absurd (by simp [File.fflush, File.flushrec, hfill.dirty, hfill.record, hfill.dcbOut, hupto]) hf
    · obtain ⟨pend, hfill, -⟩ := h
      rcases hfill.fflush_cases (by simpa using herr) with ⟨hz, -⟩ | ⟨rc, hrc, hbroke, -⟩
      · exact absurd hz hf
      · rw [hrc]
        exact hbroke.errno

theorem Stream.closes (h : Stream a bin record fp) : Closes fp := by
  have hopen := h.opened
  constructor
  · intro hf
    by_cases hclose : fp.fflush.2.dcb.closeRc = 0
    · have hflush : fp.fflush.1 ≠ 0 := hf.resolve_right (fun hc => hc hclose)
      have hdef : fp.fclose = (EOF, {fp.fflush.2 with opened := false}) := by
        simp [File.fclose, hopen, hclose, hflush]
      rw [hdef, if_neg (fun hc => hc hclose)]
      exact ⟨rfl, h.fflush_errno hflush⟩
    · rw [if_pos hclose]
      simp only [File.fclose, hopen, Bool.not_true, Bool.false_eq_true, if_false, ne_eq, hclose,
        not_false_eq_true, if_true, true_and]
      rfl
  · intro hflush hclose
    simp [File.fclose, hopen, hclose, hflush]

/-- Every byte given, when every call reports success. -/
theorem fed_of_reports {calls : List WriteCall} (hfill : Filling a bin [] fp) (herr : fp.error = false)
    (h : AllReport false fp calls) :
    Fed a bin (calls.flatMap (WriteCall.tokens bin)) [] fp (Machine.final writeCall fp calls) := by
  induction calls using List.reverseRecOn with
  | nil => exact .nil hfill herr
  | append_singleton calls call ih =>
    have hfed := ih fun before c after hsplit => h before c (after ++ [call]) (by
      rw [hsplit, List.append_assoc, List.cons_append])
    have hlast := h calls call [] rfl
    rw [List.flatMap_append, List.flatMap_singleton, Machine.final_append]
    rcases hfed.filling.writeCall_cases hfed.error call with ⟨-, hone⟩ | ⟨hno, -⟩
    · exact hfed.append hone
    · exact absurd hlast hno

theorem recorded_of_reports {calls : List WriteCall} (hrec : Recording a fp) (herr : fp.error = false)
    (hcalls : ∀ call ∈ calls, call.Admitted true) (h : AllReport true fp calls) :
    ∃ out, out.flatten = calls.flatMap WriteCall.bytes ∧
      Recorded a out fp (Machine.final writeCall fp calls) := by
  induction calls using List.reverseRecOn with
  | nil => exact ⟨[], rfl, hrec.unchanged herr⟩
  | append_singleton calls call ih =>
    obtain ⟨out, hout, hrun⟩ := ih (fun c hc => hcalls c (List.mem_append_left _ hc))
      fun before c after hsplit => h before c (after ++ [call]) (by
        rw [hsplit, List.append_assoc, List.cons_append])
    have hlast := h calls call [] rfl
    have hput := hcalls call (List.mem_append_right _ (List.mem_singleton_self _)) rfl
    rw [List.flatMap_append, List.flatMap_singleton, Machine.final_append]
    rcases hrun.recording.writeCall_cases hrun.error hput with ⟨-, out', hout', hone⟩ | ⟨hno, -⟩
    · refine ⟨out ++ out', by rw [List.flatten_append, hout, hout'], hone.recording, ?_, hone.error⟩
      rw [List.map_append, ← List.append_assoc, ← hrun.calls]
      exact hone.calls
    · exact absurd hlast hno

/-- In error with `rc`, and the log is still `log`. -/
structure Silent (a : Attr) (bin record : Bool) (rc : Nat) (log : List (Bytes × Nat)) (fp : File) : Prop where
  stream : Stream a bin record fp
  error : fp.error = true
  enospc : fp.enospc = (rc == 12)
  log : fp.dcb.calls = log

theorem Silent.kept {rc : Nat} {log : List (Bytes × Nat)} (h : Silent a bin record rc log fp)
    {call : WriteCall} (hcall : call.Admitted record) (hclear : call ≠ .clearerr) :
    Silent a bin record rc log (writeCall fp call).2 := by
  have hstream := h.stream.kept hcall
  obtain ⟨e, he⟩ := (h.stream.refuses h.error hcall).2 hclear
  rw [he] at hstream ⊢
  exact ⟨hstream, h.error, h.enospc, h.log⟩

/-- A refused write keeps the stream silent until the next `clearerr()`. -/
theorem Stream.refusal (h : Stream a bin record fp) {before after : List WriteCall} {call : WriteCall}
    {rc : Nat} (hcalls : ∀ c ∈ before ++ call :: after, c.Admitted record)
    (hfails : WriteFails (Machine.final writeCall fp before) call rc) (hclear : .clearerr ∉ after) :
    Refusal record rc call (Machine.final writeCall fp before)
      (Machine.final writeCall fp (before ++ [call]))
      (Machine.final writeCall fp (before ++ call :: after)) := by
  have hbefore : Stream a bin record (Machine.final writeCall fp before) :=
    Machine.final_invariant (fun g c hc hg => hg.kept (hcalls c (List.mem_append_left _ hc))) h
  have hcall : call.Admitted record :=
    hcalls call (List.mem_append_right _ (List.mem_cons_self ..))
  rw [show before ++ call :: after = before ++ [call] ++ after by simp, Machine.final_append _ _ (before ++ [call]),
    Machine.final_append _ _ before, Machine.final_cons, Machine.final_nil]
  obtain ⟨hno, hbroke⟩ := hfails.broke hbefore hcall
  have hafter := Machine.final_invariant
    (fun g c hc (hg : Silent a bin record rc
        (writeCall (Machine.final writeCall fp before) call).2.dcb.calls g) =>
      hg.kept (hcalls c (List.mem_append_right _ (List.mem_cons_of_mem _ hc))) (fun heq => hclear (heq ▸ hc)))
    ⟨hbefore.kept hcall, hbroke.error, hbroke.enospc, rfl⟩
  refine ⟨hno, hbroke.error, hbroke.errno, hafter.error, hafter.log, hafter.stream.upto hafter.error,
    fun next hnext => ?_⟩
  have hrefused := (hafter.stream.refuses hafter.error hnext).1
  rw [hafter.enospc] at hrefused
  unfold writeErrno
  simpa only [beq_iff_eq] using hrefused

/-- What every call reporting success, `fclose()` included, means for the log. -/
theorem Stream.complete (h : Stream a bin record fp)
    (hempty : record = false → Filling a bin [] fp) (hlog : fp.dcb.calls = []) (herr : fp.error = false)
    {calls : List WriteCall} (hcalls : ∀ c ∈ calls, c.Admitted record) (hreport : AllReport record fp calls)
    (hclose : (Machine.final writeCall fp calls).fclose.1 = 0) :
    ∃ pieces : List Bytes, pieces.flatten = givenBytes bin record calls ∧
      (Machine.final writeCall fp calls).fclose.2.dcb.calls =
        pieces.map (fun piece => (if record then piece else rendered a bin piece, 0)) := by
  have hstream : Stream a bin record (Machine.final writeCall fp calls) :=
    Machine.final_invariant (fun g c hc hg => hg.kept (hcalls c hc)) h
  have hflush : (Machine.final writeCall fp calls).fflush.1 = 0 := by
    by_contra hf
    rw [(hstream.closes.fails (.inl hf)).1] at hclose
    exact absurd hclose (by decide)
  have hlast : (Machine.final writeCall fp calls).fclose.2.dcb =
      (Machine.final writeCall fp calls).fflush.2.dcb := by
    simp only [File.fclose, hstream.opened, Bool.not_true, Bool.false_eq_true, if_false]
    split <;> rfl
  rw [hlast]
  cases record with
  | true =>
    obtain ⟨out, hout, hrun⟩ := recorded_of_reports h herr hcalls hreport
    have hnone : (Machine.final writeCall fp calls).fflush = (0, Machine.final writeCall fp calls) := by
      simp [File.fflush, File.flushrec, hrun.recording.dirty, hrun.recording.record]
    refine ⟨out, hout, ?_⟩
    rw [hnone, hrun.calls, hlog, List.nil_append]
    rfl
  | false =>
    have hfed := fed_of_reports (hempty rfl) herr hreport
    rcases hfed.filling.fflush_cases hfed.error with ⟨-, hone⟩ | ⟨rc, hrc, hbroke, -⟩
    · have hall := hfed.append hone
      obtain ⟨hsent, hheld⟩ := Lines.feed_lines a.cap_pos
        (calls.flatMap (WriteCall.tokens bin) ++ [.stop false])
      have hitems := Lines.sent_flatten a.cap_pos (calls.flatMap (WriteCall.tokens bin) ++ [.stop false])
      rw [Lines.lines_concat, Lines.held_stop, List.append_nil, ← Lines.lines_concat,
        Lines.items_append, Lines.items_flatMap] at hitems
      refine ⟨_, hitems.trans ?_, ?_⟩
      · simp only [WriteCall.items_tokens]
        exact List.append_nil _
      · rw [hall.handed.calls, hlog, List.nil_append, hsent]
        rfl
    · exact absurd (hrc.symm.trans hflush) hbroke.refused

/-- **No failure of the access method is lost**: for every run of calls on an output stream and
every schedule of failures, as long as no byte is put to a record stream. -/
theorem output_holds {mode : Mode} (hmode : mode.Writes) (a : Attr) (bin record member : Bool)
    (recs : List Bytes) (rcs : List Nat) (closeRc : Nat) (calls : List WriteCall)
    (hcalls : ∀ call ∈ calls, call.Admitted record) :
    OutputHolds a bin record (fopenWrite mode bin record member (Dcb.scheduled a recs rcs closeRc)) calls := by
  have hempty : record = false → Filling a bin []
      (fopenWrite mode bin record member (Dcb.scheduled a recs rcs closeRc)) := by
    rintro rfl
    exact fopenWrite_filling hmode bin member (Dcb.scheduled a recs rcs closeRc)
  have hfresh : (fopenWrite mode bin record member (Dcb.scheduled a recs rcs closeRc)).dcb.calls = [] ∧
      (fopenWrite mode bin record member (Dcb.scheduled a recs rcs closeRc)).error = false := by
    rcases hmode with rfl | rfl | rfl <;> exact ⟨rfl, rfl⟩
  have hstream : Stream a bin record
      (fopenWrite mode bin record member (Dcb.scheduled a recs rcs closeRc)) := by
    cases record with
    | true =>
      have hopen := fopenWrite_mode hmode bin true member (Dcb.scheduled a recs rcs closeRc)
      rcases hmode with rfl | rfl | rfl <;>
        exact ⟨rfl, rfl, rfl, rfl, rfl, hopen, rfl, fun _ => rfl⟩
    | false => exact ⟨[], hempty rfl, fun _ => rfl⟩
  generalize fopenWrite mode bin record member (Dcb.scheduled a recs rcs closeRc) = fp
    at hempty hfresh hstream ⊢
  refine ⟨?_, ?_, Stream.complete hstream hempty hfresh.1 hfresh.2 hcalls⟩
  · rintro before call after rc rfl hfails hclear
    exact Stream.refusal hstream hcalls hfails hclear
  · have hfinal : Stream a bin record (Machine.final writeCall fp calls) :=
      Machine.final_invariant (fun g c hc hg => hg.kept (hcalls c hc)) hstream
    exact hfinal.closes

/-- A text stream whose second write finds the data set full. -/
theorem output_holds_full : OutputHolds variable80 false false
    (fopenWrite .w false false false (Dcb.scheduled variable80 [] [0, 12] 0))
    [.fputs [0xC1, newline], .fputs [0xC2, newline], .fputc 0xC3] :=
  output_holds (.inl rfl) variable80 false false false [] [0, 12] 0 _
    (fun _ _ hc => absurd hc (by decide))

/-- A record stream answers a byte as if it were written, in error too, and takes none. -/
theorem fputc_lost_on_record_stream :
    ¬ OutputHolds variable80 false true
      (fopenWrite .w false true false (Dcb.scheduled variable80 [] [] 0)) [.fputc 0xC1] := by
  intro h
  have hreport : AllReport true (fopenWrite .w false true false (Dcb.scheduled variable80 [] [] 0))
      [.fputc 0xC1] := by
    intro before call after hsplit
    obtain ⟨rfl, rfl⟩ : before = [] ∧ call = .fputc 0xC1 := by
      cases before with
      | nil => exact ⟨rfl, (List.cons.inj hsplit).1.symm⟩
      | cons c rest => simp at hsplit
    show _ ≠ EOF
    decide
  obtain ⟨pieces, hflat, hcalls⟩ := h.complete hreport (by decide)
  have hnone : pieces = [] := List.map_eq_nil_iff.mp hcalls.symm
  rw [hnone] at hflat
  exact absurd hflat (by decide)

end Libc370.Stdio
