import Libc370.Jes2.JobListing

/-! What `jesjob()` gives its caller.

Whatever the queue of the checkpoint and the spool hold, nothing is read or stored outside of
what it is meant for, and a job that is listed has its names in their fields and its data sets
in order. The filter is one that `__patmat()` reads within the string it is given. -/
namespace Libc370.Jesjob

open Jes2 (read field read_eq field_eq Spool)
open Libc370.Bytes

/-! ### The fields of a job -/

theorem jctOf_reads {buf : List UInt8} (h : 0x1DC ≤ buf.length) :
    ∃ jct, jctOf buf = some jct ∧ jct.useid.length = 8 := by
  have hfield (p n : Nat) (hp : p + n ≤ 0x1DC) : field buf p n = some (number (window buf p n)) := field_eq (by omega)
  have hread (p n : Nat) (hp : p + n ≤ 0x1DC) : read buf p n = some (window buf p n) := read_eq (by omega)
  have hbyte (p : Nat) (hp : p < 0x1DC) : buf[p]? = some (buf.getD p 0) := Jes2.getElem?_eq (by omega)
  simp only [jctOf, hbyte 0x07 (by decide), hbyte 0x3A (by decide), hbyte 0x63 (by decide), hbyte 0x1C3 (by decide),
    hfield 0x08 4 (by decide), hfield 0x0C 4 (by decide), hfield 0x10 4 (by decide), hfield 0x24 4 (by decide),
    hfield 0xB8 4 (by decide), hfield 0xBC 4 (by decide), hfield 0xC0 4 (by decide), hfield 0xC4 4 (by decide),
    hfield 0x1AC 4 (by decide), hfield 0x1B0 4 (by decide), hread 0xE4 4 (by decide), hread 0x1B8 8 (by decide),
    Option.bind_eq_bind, Option.bind_some]
  exact ⟨_, rfl, window_length (by omega)⟩

/-- Any date is turned into seconds. -/
theorem timegm64_total (date : Time.Tm) : ∃ seconds, Time.timegm64 date = some seconds := by
  by_cases hlow : date.year < 70
  · exact ⟨_, Time.timegm64_before hlow⟩
  · obtain ⟨days, y, hcycles, hy, hy', rfl, -⟩ := Time.cycles_spec (not_lt.mp hlow)
    rw [Time.timegm64, hcycles, Option.bind_eq_bind, Option.bind_some]
    dsimp only
    rw [if_neg (by omega), Time.days_spec hy hy']
    exact ⟨_, rfl⟩

theorem makeTime_total (t d : Nat) : ∃ seconds, makeTime t d = some seconds := by
  unfold makeTime
  split_ifs
  · exact ⟨0, rfl⟩
  · obtain ⟨seconds, hseconds⟩ := timegm64_total ⟨(t / 100 : Nat), 0, 0, Dynalloc.atoi (hexText (d % 2 ^ 16 / 2 ^ 4)), 0,
      Dynalloc.atoi (hexText (d / 2 ^ 16)), 0, 0, -1⟩
    dsimp only
    rw [hseconds]
    exact ⟨_, rfl⟩

theorem jobtype_line (jobfl : UInt8) : Line 3 (literal (jobtype jobfl)) := by
  unfold jobtype
  split_ifs <;> exact ⟨by decide, by decide⟩

theorem jobid_short (jobfl : UInt8) (jobno : Nat) :
    ∃ jobid, sprintf (List.replicate 12 0) (literal (jobtype jobfl) ++ padded 5 (jobno % 10000)) = some jobid ∧
      Short 8 12 jobid := by
  have hnumber : Line 5 (padded 5 (jobno % 10000)) := padded_line (by decide) (by omega) le_rfl
  obtain ⟨jobid, hjobid, hshort, -⟩ := sprintf_short (f := List.replicate 12 0) ((jobtype_line jobfl).append hnumber)
    (by decide)
  exact ⟨jobid, hjobid, hshort⟩

theorem jobname_short (jname : Field 8) : ∃ jobname, cutblank (fill 12 jname.1 0) = some jobname ∧ Short 8 12 jobname :=
  cutblank_short (fill_short jname.2.le (by decide))

theorem ownerOf_short {jct : Jct} (huseid : jct.useid.length = 8) {jobname : List UInt8} (h : Short 8 12 jobname) :
    ∃ owner, ownerOf jct jobname = some owner ∧ Short 8 12 owner := by
  unfold ownerOf
  split_ifs
  · obtain ⟨owner, howner, hshort, -⟩ := strcpy_short (f := List.replicate 12 0) h (by decide)
    exact ⟨owner, howner, hshort⟩
  · have hline : Line 6 (literal "SYSTEM") := ⟨by decide, by decide⟩
    obtain ⟨owner, howner, hshort, -⟩ := sprintf_short (f := List.replicate 12 0) hline (by decide)
    exact ⟨owner, howner, hshort.mono (by decide)⟩
  · have hfill : Short 8 12 (fill 12 jct.useid 0) := fill_short huseid.le (by decide)
    obtain ⟨c, hc⟩ := hfill.head
    dsimp only
    rw [Option.bind_eq_bind, hc, Option.bind_some]
    split_ifs
    · exact cutblank_short hfill
    · obtain ⟨owner, howner, hshort⟩ := clear_short (f := fill 12 jct.useid 0) (by rw [hfill.length]; decide)
      rw [hfill.length] at hshort
      exact ⟨owner, howner, hshort.mono (Nat.zero_le 8)⟩

/-- A filter with its `*`, if it has some, at the end. -/
def Filter.Within : Filter → Prop
  | .none => True
  | .jobname filter | .jobid filter => ∀ c ∈ (filt filter).dropWhile (· != Strutil.star), c = Strutil.star

theorem Filter.Within.takes {filter : Filter} (h : filter.Within) {jobname jobid : List UInt8}
    (hjobname : Short 8 12 jobname) (hjobid : Short 8 12 jobid) : ∃ taken, filter.takes jobname jobid = some taken := by
  have hwithin {f s : List UInt8} (hf : ∀ c ∈ (filt f).dropWhile (· != Strutil.star), c = Strutil.star)
      (hs : Short 8 12 s) : ∃ taken, (do let s ← cstr s; Strutil.patmat s (filt f)) = some taken := by
    obtain ⟨t, ht, -⟩ := cstr_short hs
    rw [ht]
    exact Option.ne_none_iff_exists'.mp (Strutil.patmat_within t hf)
  cases filter with
  | none => exact ⟨true, rfl⟩
  | jobname f => exact hwithin h hjobname
  | jobid f => exact hwithin h hjobid

/-! ### The jobs -/

/-- A job that is listed. -/
structure JobInfo.Right (job : JobInfo) : Prop where
  jobname : Short 8 9 job.jobname
  jobid : Short 8 9 job.jobid
  owner : Short 8 9 job.owner
  listing : Listing job.jesdd

structure Buffers.Ok (cp : Checkpoint) (b : Buffers) : Prop where
  jctbuf : b.jctbuf.length = cp.hct.bufsize
  iotbuf : b.iotbuf.length = cp.hct.bufsize

/-- A step that does not miss its storage. -/
theorem Comes.got {α β : Type} {x : Option α} {a : α} {f : α → Got β} {Q : β → Prop} (h : x = some a)
    (hf : Comes Q (f a)) : Comes Q (got x >>= f) := by
  rw [h]
  exact hf

section Jobs

variable {frame : Frame} {calloc : Nat → Bool} {cp : Checkpoint} {js : Spool} {fuel : Nat} {dd : Bool}

theorem jobInfo_safe (jqe : Jqe) (jct : Jct) {jobname jobid owner : List UInt8} (hjobname : Short 8 12 jobname)
    (hjobid : Short 8 12 jobid) (howner : Short 8 12 owner) {b : Buffers} (hb : b.Ok cp) :
    Comes (fun r => r.1.Right ∧ r.2.Ok cp) (jobInfo frame calloc cp js fuel dd jqe jct jobname jobid owner b) := by
  obtain ⟨name, hname, hnamelen, -⟩ := cstr_short hjobname
  obtain ⟨id, hid, hidlen, -⟩ := cstr_short hjobid
  obtain ⟨o, ho, holen, -⟩ := cstr_short howner
  obtain ⟨start, hstart⟩ := makeTime_total jct.xeqon jct.xdton
  obtain ⟨finish, hfinish⟩ := makeTime_total jct.xeqof jct.xdtof
  obtain ⟨submit, hsubmit⟩ := makeTime_total jct.rdron jct.rdton
  have hname9 : Short 8 9 (fill 9 name 0) := fill_short hnamelen (by decide)
  have hid9 : Short 8 9 (fill 9 id 0) := fill_short hidlen (by decide)
  unfold jobInfo
  refine Comes.got hname ?_
  refine Comes.got hid ?_
  refine Comes.got ho ?_
  refine Comes.got hstart ?_
  refine Comes.got hfinish ?_
  refine Comes.got hsubmit ?_
  refine (jobSets_safe jct hname9 hid9 (fill_short holen (by decide)) hb.iotbuf).bind fun w hw => ?_
  exact .inr ⟨_, rfl, ⟨hname9, hid9, hw.2.1, hw.2.2⟩, hb.jctbuf, hw.1⟩

theorem jobOf_safe {filter : Filter} (hfilter : filter.Within) (jqe : Jqe) {b : Buffers} (hb : b.Ok cp) :
    Comes (fun r => (∀ job, r.1 = some job → job.Right) ∧ r.2.Ok cp)
      (jobOf frame calloc cp js fuel dd filter jqe b) := by
  have hpassed (b : Buffers) (hb : b.Ok cp) : Comes (fun r : Option JobInfo × Buffers =>
      (∀ job, r.1 = some job → job.Right) ∧ r.2.Ok cp) (.ok (none, b)) :=
    .inr ⟨_, rfl, fun job hjob => absurd hjob.symm (Option.some_ne_none job), hb⟩
  unfold jobOf
  split_ifs
  · exact hpassed b hb
  · cases hread : js.read b.reads jqe.trak b.jctbuf with
    | none => exact hpassed _ ⟨hb.jctbuf, hb.iotbuf⟩
    | some jctbuf =>
      have hlen : jctbuf.length = cp.hct.bufsize := (js.fills hread).trans hb.jctbuf
      have hbuffers : Buffers.Ok cp ⟨b.reads + 1, jctbuf, b.iotbuf⟩ := ⟨hlen, hb.iotbuf⟩
      have hjct := cp.jct
      obtain ⟨jct, hjctof, huseid⟩ := @jctOf_reads jctbuf (by omega)
      obtain ⟨jobid, hjobid, hidshort⟩ := jobid_short jct.jobfl jqe.jobno
      obtain ⟨jobname, hjobname, hnameshort⟩ := jobname_short jqe.jname
      obtain ⟨owner, howner, hownershort⟩ := ownerOf_short huseid hnameshort
      obtain ⟨taken, htaken⟩ := hfilter.takes hnameshort hidshort
      refine Comes.got hjctof ?_
      refine Comes.got hjobid ?_
      refine Comes.got hjobname ?_
      refine Comes.got howner ?_
      refine Comes.got htaken ?_
      cases taken with
      | false =>
        rw [if_neg Bool.false_ne_true]
        exact hpassed _ hbuffers
      | true =>
        rw [if_pos rfl]
        refine (jobInfo_safe jqe jct hnameshort hidshort hownershort hbuffers).bind fun r hr => ?_
        exact .inr ⟨_, rfl, fun job hjob => Option.some.inj hjob ▸ hr.1, hr.2⟩

theorem jobsOf_safe {filter : Filter} (hfilter : filter.Within) (jqes : List Jqe) {b : Buffers} (hb : b.Ok cp) :
    Comes (fun jobs => ∀ job ∈ jobs, job.Right) (jobsOf frame calloc cp js fuel dd filter jqes b) := by
  induction jqes generalizing b with
  | nil => exact .inr ⟨[], rfl, fun job hjob => absurd hjob List.not_mem_nil⟩
  | cons jqe rest ih =>
    refine (jobOf_safe hfilter jqe hb).bind fun r hr => ?_
    refine (ih hr.2).bind fun jobs hjobs => ?_
    refine .inr ⟨_, rfl, fun job hjob => ?_⟩
    rcases List.mem_append.mp hjob with hjob | hjob
    · exact hr.1 job (Option.mem_toList.mp hjob)
    · exact hjobs job hjob

end Jobs

/-- **`jesjob()`**: on any checkpoint and any spool it comes to its jobs, each with its names in their fields and its
data sets in order, unless a chain of IOTs is longer than it is gone along. -/
theorem jesjob_safe (frame : Frame) (calloc : Nat → Bool) (fuel : Nat) (jes : Option Jes) {filter : Filter}
    (hfilter : filter.Within) (dd : Bool) :
    Comes (fun jobs => ∀ job ∈ jobs, job.Right) (jesjob frame calloc fuel jes filter dd) := by
  have hnone : Comes (fun jobs : List JobInfo => ∀ job ∈ jobs, job.Right) (.ok []) :=
    .inr ⟨[], rfl, fun job hjob => absurd hjob List.not_mem_nil⟩
  cases jes with
  | none => exact hnone
  | some jes =>
    unfold jesjob
    dsimp only
    split
    · exact jobsOf_safe hfilter _ ⟨List.length_replicate, List.length_replicate⟩
    · exact hnone

end Libc370.Jesjob
