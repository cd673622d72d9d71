import Libc370.Jes2.Jobs
import Libc370.Jes2.ReadText

/-! The data sets that the IOTs of a job have.

An IOT is a buffer of any contents, and its PDDBs are read where they fit. A list of data
sets is looked at by the number of a data set: what is listed under a number is what the
first PDDB in the chain has that has this number and is in use. -/
namespace Libc370.Jesjob

open Jes2 (read write field field_eq read_eq write_eq Spool)
open Libc370.Bytes

/-! ### Texts -/

/-- A string of `n` characters at most. -/
structure Line (n : Nat) (s : List UInt8) : Prop where
  length : s.length ≤ n
  nul : 0 ∉ s

theorem Line.mono {n m : Nat} {s : List UInt8} (h : Line n s) (hle : n ≤ m) : Line m s := ⟨h.length.trans hle, h.nul⟩

theorem Line.append {n m : Nat} {s t : List UInt8} (hs : Line n s) (ht : Line m t) : Line (n + m) (s ++ t) := by
  refine ⟨?_, fun h => (List.mem_append.mp h).elim hs.nul ht.nul⟩
  rw [List.length_append]
  exact Nat.add_le_add hs.length ht.length

theorem Short.line {n size : Nat} {f : List UInt8} (h : Short n size f) : Line n (str f) := by
  obtain ⟨s, hs, hlen, hnul⟩ := cstr_short h
  rw [str_of_cstr hs]
  exact ⟨hlen, hnul⟩

/-- A number below `10 ^ k` has `k` digits at most. -/
theorem decimalText_line {n k : Nat} (hk : 0 < k) (h : n < 10 ^ k) : Line k (Int64.Objects.decimalText n) := by
  constructor
  · rw [Int64.Objects.decimalText, List.length_map, List.length_reverse, Int64.Objects.decimals]
    split_ifs
    · exact hk
    · exact (Nat.digits_length_le_iff (by decide) n).mpr h
  · intro hmem
    obtain ⟨d, hd, hfigure⟩ := List.mem_map.mp hmem
    have hlt := Int64.Objects.decimals_lt n d (List.mem_reverse.mp hd)
    have hdigit : ∀ d < 10, Int64.Objects.figure d ≠ 0 := by decide
    exact hdigit d hlt hfigure

theorem padded_line {n x k : Nat} (hk : 0 < k) (h : x < 10 ^ k) (hnk : n ≤ k) : Line k (padded n x) := by
  have htext := decimalText_line hk h
  have hlen := htext.length
  constructor
  · rw [padded, List.length_append, List.length_replicate]
    omega
  · intro hmem
    rcases List.mem_append.mp hmem with hmem | hmem
    · exact absurd (List.eq_of_mem_replicate hmem) (by decide)
    · exact htext.nul hmem

theorem sprintf_short {n : Nat} {f s : List UInt8} (h : Line n s) (hn : n < f.length) :
    ∃ f', sprintf f s = some f' ∧ Short n f.length f' ∧ str f' = s := by
  have hle := h.length
  obtain ⟨f', hf', hshort, hcstr⟩ := put_short (f := f) h.nul (by omega)
  exact ⟨f', hf', hshort.mono hle, str_of_cstr hcstr⟩

/-- A string that is shorter than the field, put there with zeros behind. -/
theorem fill_short {n m : Nat} {s : List UInt8} (hlen : s.length ≤ n) (hn : n < m) : Short n m (fill m s 0) := by
  have htake : s.take m = s := List.take_of_length_le (by omega)
  refine ⟨?_, s.length, hlen, ?_⟩
  · rw [fill, htake, List.length_append, List.length_replicate]
    omega
  · rw [fill, htake, List.getElem?_append_right le_rfl, Nat.sub_self, List.getElem?_replicate, if_pos (by omega)]

/-! ### PDDBs -/

/-- A PDDB has numbers as large as its fields hold. -/
structure Pddb.Right (p : Pddb) : Prop where
  dskey : p.dskey < 2 ^ 16
  dsid : p.dsid.length = 8

theorem pddbAt_right {buf : List UInt8} {p : Nat} (h : p + pddbSize ≤ buf.length) :
    ∃ pddb, pddbAt buf p = some pddb ∧ pddb.Right := by
  unfold pddbSize at h
  have hlrecl : field buf (p + 0x02) 2 = some (number (window buf (p + 0x02) 2)) := field_eq (by omega)
  have hmttr : field buf (p + 0x04) 4 = some (number (window buf (p + 0x04) 4)) := field_eq (by omega)
  have hdskey : field buf (p + 0x08) 2 = some (number (window buf (p + 0x08) 2)) := field_eq (by omega)
  have hrecct : field buf (p + 0x14) 4 = some (number (window buf (p + 0x14) 4)) := field_eq (by omega)
  have hdsid : read buf (p + 0x24) 8 = some (window buf (p + 0x24) 8) := read_eq (by omega)
  have hrecfm : buf[p + 0x01]? = some (buf.getD (p + 0x01) 0) := Jes2.getElem?_eq (by omega)
  have hclass : buf[p + 0x0A]? = some (buf.getD (p + 0x0A) 0) := Jes2.getElem?_eq (by omega)
  refine ⟨⟨buf.getD (p + 0x01) 0, number (window buf (p + 0x02) 2), number (window buf (p + 0x04) 4),
    number (window buf (p + 0x08) 2), buf.getD (p + 0x0A) 0, number (window buf (p + 0x14) 4),
    window buf (p + 0x24) 8⟩, ?_, ⟨?_, window_length (by omega)⟩⟩
  · simp only [pddbAt, hlrecl, hmttr, hdskey, hrecct, hdsid, hrecfm, hclass, Option.bind_eq_bind, Option.bind_some]
    rfl
  · have hlt := number_lt (window buf (p + 0x08) 2)
    rw [window_length (by omega)] at hlt
    exact hlt

/-- The PDDBs of an IOT lie in its buffer, wherever it says that they end. -/
theorem pddbsOf_right {cp : Checkpoint} {iotbuf : List UInt8} (h : iotbuf.length = cp.hct.bufsize) :
    ∃ pddbs, pddbsOf cp iotbuf = some pddbs ∧ ∀ p ∈ pddbs, p.Right := by
  have hjct := cp.jct
  have hoff : field iotbuf 0x2C 4 = some (number (window iotbuf 0x2C 4)) := field_eq (by omega)
  obtain ⟨off, hoff'⟩ : ∃ off, off = number (window iotbuf 0x2C 4) := ⟨_, rfl⟩
  have hend : pddbEnd cp off ≤ cp.hct.bufsize - pddbSize + 1 := by
    unfold pddbEnd
    dsimp only
    split_ifs <;> omega
  have hplaces : ∀ p ∈ pddbPlaces cp (pddbEnd cp off), p + pddbSize ≤ iotbuf.length := by
    intro p hp
    obtain ⟨i, hi, rfl⟩ := List.mem_range'.mp hp
    have hdiv : i * pddbSize < pddbEnd cp off - cp.pddb1 := by
      have hmul := Nat.lt_of_lt_of_le (Nat.mul_lt_mul_of_pos_right hi (show 0 < pddbSize by decide))
        (Nat.div_mul_le_self _ _)
      have hstep : (i + 1) * pddbSize ≤ pddbEnd cp off - cp.pddb1 + (pddbSize - 1) :=
        (Nat.mul_le_mul_right _ (Nat.succ_le_of_lt hi)).trans (Nat.div_mul_le_self _ _)
      unfold pddbSize at hstep ⊢
      omega
    unfold pddbSize at *
    rw [Nat.mul_comm 0x68 i]
    omega
  have hall : ∀ ps : List Nat, (∀ p ∈ ps, p + pddbSize ≤ iotbuf.length) →
      ∃ pddbs, ps.mapM (pddbAt iotbuf) = some pddbs ∧ ∀ p ∈ pddbs, p.Right := by
    intro ps hps
    induction ps with
    | nil => exact ⟨[], rfl, fun p hp => absurd hp List.not_mem_nil⟩
    | cons p ps ih =>
      obtain ⟨pddb, hpddb, hright⟩ := pddbAt_right (hps p List.mem_cons_self)
      obtain ⟨pddbs, hpddbs, hrights⟩ := ih fun q hq => hps q (List.mem_cons_of_mem _ hq)
      refine ⟨pddb :: pddbs, ?_, List.forall_mem_cons.mpr ⟨hright, hrights⟩⟩
      rw [List.mapM_cons, hpddb, hpddbs]
      rfl
  obtain ⟨pddbs, hpddbs, hrights⟩ := hall _ hplaces
  refine ⟨pddbs, ?_, hrights⟩
  rw [pddbsOf, hoff, ← hoff']
  exact hpddbs

/-! ### A data set from a PDDB -/

/-- A data set of JES2's own: its DD name, what its name ends in, and its flags. -/
def ownNames (dskey : Nat) : Option (String × String × UInt8) :=
  if dskey = PDBINJCL then some ("JESJCLIN", ".SI", FLAG_JES2 ||| FLAG_SYSIN)
  else if dskey = PDBOUHJL then some ("JESMSGLG", ".SO", FLAG_JES2 ||| FLAG_SYSOUT)
  else if dskey = PDBOUJCI then some ("JESJCL", ".SO", FLAG_JES2 ||| FLAG_SYSOUT)
  else if dskey = PDBOUMSG then some ("JESYSMSG", ".SO", FLAG_JES2 ||| FLAG_SYSOUT)
  else if dskey = PDBINTXT then some ("JESINTXT", ".SI", FLAG_JES2 ||| FLAG_SYSIN)
  else if dskey = PDBINJNL then some ("JESJRNL", ".SI", FLAG_JES2 ||| FLAG_SYSIN)
  else none

def DataSet.own (ddname jobid : List UInt8) (kind : String) (flag : UInt8) (d : DataSet) : DataSet :=
  {d with ddname, dsname := literal "JES2." ++ jobid ++ literal kind ++ padded 4 d.dsid, flag}

/-- The names a PDDB has for a data set. -/
def DataSet.pddbNames (jobname jobid : List UInt8) (d : DataSet) : DataSet :=
  match ownNames d.dsid with
  | some (ddname, kind, flag) => d.own (literal ddname) jobid kind flag
  | none => if jobname = literal "SYSLOG" then d.own (literal "JES" ++ padded 5 d.dsid) jobid ".SO" 0 else d

/-- What a PDDB is listed as, before the internal text is read. -/
def DataSet.ofPddb (jobname jobid : List UInt8) (p : Pddb) : DataSet :=
  DataSet.pddbNames jobname jobid ⟨str ((cutblank (fill 9 p.dsid 0)).getD []), [], [], [], p.class', p.recfm, 0, p.mttr,
    p.recct, p.lrecl, p.dskey⟩

@[simp] theorem DataSet.pddbNames_dsid (jobname jobid : List UInt8) (d : DataSet) :
    (d.pddbNames jobname jobid).dsid = d.dsid := by
  unfold DataSet.pddbNames
  cases ownNames d.dsid with
  | none =>
    dsimp only
    split_ifs <;> rfl
  | some names => rfl

@[simp] theorem DataSet.ofPddb_dsid (jobname jobid : List UInt8) (p : Pddb) :
    (ofPddb jobname jobid p).dsid = p.dskey := DataSet.pddbNames_dsid ..

theorem kind_line {kind : String} (h : kind = ".SI" ∨ kind = ".SO") : Line 3 (literal kind) := by
  rcases h with rfl | rfl <;> exact ⟨by decide, by decide⟩

/-- A data set gets names of JES2's own. -/
theorem Jesdd.own_view {dd : Jesdd} (h : dd.Right) {ddname jobid : List UInt8} (hddname : Line 8 ddname)
    (hjobid : Line 8 jobid) {kind : String} (hkind : kind = ".SI" ∨ kind = ".SO") {p : Pddb} (hp : p.Right)
    (flag : UInt8) : ∃ dd', dd.own ddname jobid kind p.dskey flag = some dd' ∧ dd'.Right ∧
      (dd'.filled p).view = (dd.filled p).view.own ddname jobid kind flag := by
  have hdskey := hp.dskey
  obtain ⟨f, hf, hshort, hstr⟩ := sprintf_short (f := dd.ddname) hddname (by rw [h.ddname.length]; decide)
  rw [h.ddname.length] at hshort
  have hdsname : Line 44 (literal "JES2." ++ jobid ++ literal kind ++ padded 4 p.dskey) := by
    have hfive : Line 5 (literal "JES2.") := ⟨by decide, by decide⟩
    have hnumber : Line 5 (padded 4 p.dskey) := padded_line (by decide) (by omega) (by decide)
    exact (((hfive.append hjobid).append (kind_line hkind)).append hnumber).mono (by decide)
  obtain ⟨g, hg, hshort', hstr'⟩ := sprintf_short (f := dd.dsname) hdsname (by rw [h.dsname.length]; decide)
  rw [h.dsname.length] at hshort'
  refine ⟨{dd with ddname := f, dsname := g, flag}, ?_, ⟨hshort, h.stepname, h.procstep, hshort'⟩, ?_⟩
  · simp only [Jesdd.own, hf, hg, Option.bind_eq_bind, Option.bind_some]
    rfl
  · simp only [Jesdd.view, Jesdd.filled, DataSet.own, hstr, hstr']

theorem Jesdd.pddbNames_view {dd : Jesdd} (h : dd.Right) (hflag : dd.flag = 0) (jobname : List UInt8)
    {jobid : List UInt8} (hjobid : Line 8 jobid) {p : Pddb} (hp : p.Right) :
    ∃ dd', dd.pddbNames p jobname jobid = some dd' ∧ dd'.Right ∧ (dd'.filled p).view =
      (dd.filled p).view.pddbNames jobname jobid := by
  have hdskey := hp.dskey
  have hown : ∀ {ddname : List UInt8} {kind : String} {flag : UInt8}, Line 8 ddname →
      (kind = ".SI" ∨ kind = ".SO") → ∃ dd', dd.own ddname jobid kind p.dskey flag = some dd' ∧ dd'.Right ∧
        (dd'.filled p).view = (dd.filled p).view.own ddname jobid kind flag :=
    fun hline hkind => Jesdd.own_view h hline hjobid hkind hp _
  have hdsid : (dd.filled p).view.dsid = p.dskey := rfl
  unfold Jesdd.pddbNames DataSet.pddbNames ownNames
  rw [hdsid, hflag]
  by_cases hinjcl : p.dskey = PDBINJCL
  · rw [if_pos hinjcl, if_pos hinjcl]
    exact hown ⟨by decide, by decide⟩ (.inl rfl)
  rw [if_neg hinjcl, if_neg hinjcl]
  by_cases houhjl : p.dskey = PDBOUHJL
  · rw [if_pos houhjl, if_pos houhjl]
    exact hown ⟨by decide, by decide⟩ (.inr rfl)
  rw [if_neg houhjl, if_neg houhjl]
  by_cases houjci : p.dskey = PDBOUJCI
  · rw [if_pos houjci, if_pos houjci]
    exact hown ⟨by decide, by decide⟩ (.inr rfl)
  rw [if_neg houjci, if_neg houjci]
  by_cases houmsg : p.dskey = PDBOUMSG
  · rw [if_pos houmsg, if_pos houmsg]
    exact hown ⟨by decide, by decide⟩ (.inr rfl)
  rw [if_neg houmsg, if_neg houmsg]
  by_cases hintxt : p.dskey = PDBINTXT
  · rw [if_pos hintxt, if_pos hintxt]
    exact hown ⟨by decide, by decide⟩ (.inl rfl)
  rw [if_neg hintxt, if_neg hintxt]
  by_cases hinjnl : p.dskey = PDBINJNL
  · rw [if_pos hinjnl, if_pos hinjnl]
    exact hown ⟨by decide, by decide⟩ (.inl rfl)
  rw [if_neg hinjnl, if_neg hinjnl]
  dsimp only
  split_ifs
  · have hthree : Line 3 (literal "JES") := ⟨by decide, by decide⟩
    have hfive : Line 5 (padded 5 p.dskey) := padded_line (by decide) (by omega) (by decide)
    exact hown (hthree.append hfive) (.inr rfl)
  · exact ⟨dd, rfl, h, rfl⟩

/-- A data set without a name. -/
theorem Jesdd.blank_right {ddname : List UInt8} (h : Short 8 9 ddname) : Jesdd.Right {ddname} :=
  ⟨h, .zero 8 (by decide), .zero 8 (by decide), .zero 44 (by decide)⟩

/-- **`process_pddb()`** fills in a data set, with strings that fit. -/
theorem processPddb_view {p : Pddb} (hp : p.Right) {jobname jobid : List UInt8} (hjobname : Short 8 9 jobname)
    (hjobid : Short 8 9 jobid) : ∃ dd, processPddb p jobname jobid = some dd ∧ dd.Right ∧ dd.dsid = p.dskey ∧
      dd.view = .ofPddb (str jobname) (str jobid) p := by
  obtain ⟨f, hf, hshort⟩ := cutblank_short (fill_short (m := 9) hp.dsid.le (by decide))
  obtain ⟨dd, hdd, hright, hview⟩ := Jesdd.pddbNames_view (Jesdd.blank_right hshort) rfl (str jobname)
    hjobid.line hp
  refine ⟨dd.filled p, ?_, ⟨hright.ddname, hright.stepname, hright.procstep, hright.dsname⟩, rfl, ?_⟩
  · simp only [processPddb, hf, cstr_eq hjobname, cstr_eq hjobid, Option.bind_eq_bind, Option.bind_some, hdd]
    rfl
  · rw [hview, DataSet.ofPddb, hf]
    rfl

end Libc370.Jesjob
