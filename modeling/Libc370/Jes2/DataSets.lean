import Libc370.Jes2.Statements

/-! What the statements of a job say of its data sets.

A data set is seen as the strings of its names and the numbers beside them, and what the
walk over the internal text has come to as the owner, the step it is in and the data
sets. A statement does to this what JCL means by it: an EXEC statement begins a step, or a
step of the procedure; a DD statement names the data set whose number it ends in, with
the step it stands in. No data set is lost, and no field gets more than it holds. -/
namespace Libc370.Jesjob

open Jes2 (read write read_eq write_eq)
open Loop Libc370.Bytes

/-! ### Data sets -/

/-- The string of a field. -/
def str (f : List UInt8) : List UInt8 := f.takeWhile (· ≠ 0)

/-- A data set. -/
structure DataSet where
  ddname : List UInt8
  stepname : List UInt8
  procstep : List UInt8
  dsname : List UInt8
  oclass : UInt8
  recfm : UInt8
  flag : UInt8
  mttr : Nat
  records : Nat
  lrecl : Nat
  dsid : Nat
  deriving DecidableEq, Repr

def Jesdd.view (dd : Jesdd) : DataSet :=
  ⟨str dd.ddname, str dd.stepname, str dd.procstep, str dd.dsname, dd.oclass, dd.recfm, dd.flag, dd.mttr, dd.records,
    dd.lrecl, dd.dsid⟩

/-- Its fields hold strings. -/
structure Jesdd.Right (dd : Jesdd) : Prop where
  ddname : Short 8 9 dd.ddname
  stepname : Short 8 9 dd.stepname
  procstep : Short 8 9 dd.procstep
  dsname : Short 44 45 dd.dsname

/-- The names are strings that fit. -/
structure Names.Right (names : Names) : Prop where
  ddname : Short 8 12 names.ddname
  dsname : Short 44 56 names.dsname
  stepname : Short 8 12 names.stepname
  procstep : Short 8 12 names.procstep

theorem cstr_eq {n size : Nat} {f : List UInt8} (h : Short n size f) : cstr f = some (str f) := if_pos h.terminated.nul

theorem str_of_cstr {f s : List UInt8} (h : cstr f = some s) : str f = s := by
  unfold cstr at h
  split at h
  · exact Option.some.inj h
  · cases h

/-- A copy is the same string. -/
theorem strcpy_str {n m : Nat} {f src : List UInt8} (h : Short n m src) (hlen : n < f.length) :
    ∃ f', strcpy f src = some f' ∧ Short n f.length f' ∧ str f' = str src := by
  obtain ⟨f', hf', hshort, hcstr⟩ := strcpy_short h hlen
  exact ⟨f', hf', hshort, str_of_cstr (hcstr.trans (cstr_eq h))⟩

/-- The names of a data set, as strings. -/
structure Label where
  ddname : List UInt8
  dsname : List UInt8
  stepname : List UInt8
  procstep : List UInt8

def Names.label (names : Names) : Label := ⟨str names.ddname, str names.dsname, str names.stepname, str names.procstep⟩

/-- A data set with these names. -/
def DataSet.named (l : Label) (d : DataSet) : DataSet :=
  {d with ddname := l.ddname, stepname := l.stepname, procstep := l.procstep, dsname := l.dsname}

theorem Jesdd.named_view {dd : Jesdd} {names : Names} (h : dd.Right) (hnames : names.Right) :
    ∃ dd', dd.named names = some dd' ∧ dd'.Right ∧ dd'.view = dd.view.named names.label := by
  obtain ⟨ddname, hddname, hddnameRight, hddnameStr⟩ := strcpy_str (f := dd.ddname) hnames.ddname
    (by rw [h.ddname.length]; decide)
  obtain ⟨stepname, hstepname, hstepnameRight, hstepnameStr⟩ := strcpy_str (f := dd.stepname) hnames.stepname
    (by rw [h.stepname.length]; decide)
  obtain ⟨procstep, hprocstep, hprocstepRight, hprocstepStr⟩ := strcpy_str (f := dd.procstep) hnames.procstep
    (by rw [h.procstep.length]; decide)
  obtain ⟨dsname, hdsname, hdsnameRight, hdsnameStr⟩ := strcpy_str (f := dd.dsname) hnames.dsname
    (by rw [h.dsname.length]; decide)
  rw [h.ddname.length] at hddnameRight
  rw [h.stepname.length] at hstepnameRight
  rw [h.procstep.length] at hprocstepRight
  rw [h.dsname.length] at hdsnameRight
  refine ⟨{dd with ddname, stepname, procstep, dsname}, ?_, ⟨hddnameRight, hstepnameRight, hprocstepRight,
    hdsnameRight⟩, ?_⟩
  · simp only [Jesdd.named, hddname, hstepname, hprocstep, hdsname, Option.bind_eq_bind, Option.bind_some]
    rfl
  · simp only [Jesdd.view, DataSet.named, Names.label, hddnameStr, hstepnameStr, hprocstepStr, hdsnameStr]

/-- A list of data sets with fields that hold strings, each with a number of its own. -/
structure Listed (dds : List Jesdd) : Prop where
  right : ∀ dd ∈ dds, dd.Right
  distinct : (dds.map Jesdd.dsid).Nodup

/-- What is said of the data set with a number. -/
def onDsid (dsid : Nat) (f : DataSet → DataSet) (d : DataSet) : DataSet := if d.dsid = dsid then f d else d

/-- The data set with the number is changed, and no other one. -/
theorem atDsid_view {dsid : Nat} {f : Jesdd → Option Jesdd} {g : DataSet → DataSet} {dds : List Jesdd}
    (h : Listed dds)
    (hf : ∀ dd : Jesdd, dd.Right → ∃ dd', f dd = some dd' ∧ dd'.Right ∧ dd'.view = g dd.view ∧ dd'.dsid = dd.dsid) :
    ∃ dds', atDsid dsid f dds = some dds' ∧ Listed dds' ∧ dds'.map Jesdd.dsid = dds.map Jesdd.dsid ∧
      dds'.map Jesdd.view = (dds.map Jesdd.view).map (onDsid dsid g) := by
  induction dds with
  | nil => exact ⟨[], rfl, h, rfl, rfl⟩
  | cons dd dds ih =>
    have hrest : Listed dds := ⟨fun d hd => h.right d (List.mem_cons_of_mem _ hd), (List.nodup_cons.mp h.distinct).2⟩
    have hhead := h.right dd List.mem_cons_self
    rw [atDsid]
    by_cases hdsid : dd.dsid = dsid
    · obtain ⟨dd', hdd', hright, hview, hsame⟩ := hf dd hhead
      have hothers : (dds.map Jesdd.view).map (onDsid dsid g) = dds.map Jesdd.view := by
        rw [List.map_map]
        refine List.map_congr_left fun d hd => if_neg fun heq => ?_
        refine (List.nodup_cons.mp h.distinct).1 (List.mem_map.mpr ⟨d, hd, ?_⟩)
        exact heq.trans hdsid.symm
      have hids : (dd' :: dds).map Jesdd.dsid = (dd :: dds).map Jesdd.dsid := by
        rw [List.map_cons, hsame, List.map_cons]
      refine ⟨dd' :: dds, ?_, ⟨List.forall_mem_cons.mpr ⟨hright, hrest.right⟩, hids ▸ h.distinct⟩, hids, ?_⟩
      · rw [if_pos hdsid, hdd']
        rfl
      · rw [List.map_cons, List.map_cons, List.map_cons, hothers, hview, onDsid, if_pos]
        exact hdsid
    · obtain ⟨dds', hdds', hlisted, hids, hviews⟩ := ih hrest
      have hids' : (dd :: dds').map Jesdd.dsid = (dd :: dds).map Jesdd.dsid := by
        rw [List.map_cons, hids, List.map_cons]
      refine ⟨dd :: dds', ?_, ⟨List.forall_mem_cons.mpr ⟨hhead, hlisted.right⟩, hids' ▸ h.distinct⟩, hids', ?_⟩
      · rw [if_neg hdsid, hdds']
        rfl
      · rw [List.map_cons, List.map_cons, List.map_cons, hviews, onDsid, if_neg]
        exact hdsid

/-- What a statement that is for a data set of the spool does to the data sets. -/
def nameSets (kind : Char) (set : DataSet → DataSet) (l : Label) (ds : List DataSet) : List DataSet :=
  match dsidOf kind l.dsname with
  | none => ds
  | some dsid => ds.map (onDsid dsid fun d => set (d.named l))

theorem processNames_view {kind : Char} {set : Jesdd → Jesdd} {set' : DataSet → DataSet} {dds : List Jesdd}
    {names : Names} (h : Listed dds) (hnames : names.Right)
    (hset : ∀ dd : Jesdd, (set dd).view = set' dd.view ∧ (set dd).dsid = dd.dsid ∧ (dd.Right → (set dd).Right)) :
    ∃ dds', processNames kind set dds names = some dds' ∧ Listed dds' ∧
      dds'.map Jesdd.dsid = dds.map Jesdd.dsid ∧
      dds'.map Jesdd.view = nameSets kind set' names.label (dds.map Jesdd.view) := by
  have hcode : processNames kind set dds names = (dsidOf kind (str names.dsname)).elim (some dds) fun dsid =>
      atDsid dsid (fun dd => (dd.named names).map set) dds := by
    rw [processNames, cstr_eq hnames.dsname, Option.bind_eq_bind, Option.bind_some]
    cases dsidOf kind (str names.dsname) <;> rfl
  have hspec : nameSets kind set' names.label (dds.map Jesdd.view) =
      (dsidOf kind (str names.dsname)).elim (dds.map Jesdd.view) fun dsid =>
        (dds.map Jesdd.view).map (onDsid dsid fun d => set' (d.named names.label)) := by
    rw [nameSets, Names.label]
    cases dsidOf kind (str names.dsname) <;> rfl
  rw [hcode, hspec]
  cases dsidOf kind (str names.dsname) with
  | none => exact ⟨dds, rfl, h, rfl, rfl⟩
  | some dsid =>
    refine atDsid_view h fun dd hdd => ?_
    obtain ⟨dd', hdd', hright, hview⟩ := Jesdd.named_view hdd hnames
    obtain ⟨hset₁, hset₂, hset₃⟩ := hset dd'
    refine ⟨set dd', by rw [hdd']; rfl, hset₃ hright, ?_, ?_⟩
    · rw [hset₁, hview]
    · rw [hset₂]
      exact congrArg DataSet.dsid hview

/-- `process_sysout()` on a data set. -/
def DataSet.sysout (class₀ : UInt8) (d : DataSet) : DataSet :=
  {d with oclass := if d.oclass = 0 then class₀ else d.oclass, flag := FLAG_SYSOUT}

/-- `process_sysin()` on a data set. -/
def DataSet.sysin (d : DataSet) : DataSet := {d with flag := FLAG_SYSIN}

theorem processSysout_view {dds : List Jesdd} {names : Names} {sysout : List UInt8} {c : UInt8} (h : Listed dds)
    (hnames : names.Right) (hc : sysout.head? = some c) :
    ∃ dds', processSysout dds names sysout = some dds' ∧ Listed dds' ∧ dds'.map Jesdd.dsid = dds.map Jesdd.dsid ∧
      dds'.map Jesdd.view = nameSets 'O' (DataSet.sysout c) names.label (dds.map Jesdd.view) := by
  unfold processSysout
  rw [hc]
  exact processNames_view h hnames fun _ => ⟨rfl, rfl, fun hdd => ⟨hdd.ddname, hdd.stepname, hdd.procstep, hdd.dsname⟩⟩

theorem processSysin_view {dds : List Jesdd} {names : Names} (h : Listed dds) (hnames : names.Right) :
    ∃ dds', processSysin dds names = some dds' ∧ Listed dds' ∧ dds'.map Jesdd.dsid = dds.map Jesdd.dsid ∧
      dds'.map Jesdd.view = nameSets 'I' DataSet.sysin names.label (dds.map Jesdd.view) :=
  processNames_view h hnames fun _ => ⟨rfl, rfl, fun hdd => ⟨hdd.ddname, hdd.stepname, hdd.procstep, hdd.dsname⟩⟩

/-! ### Statements -/

/-- What the walk has come to. -/
structure Reading where
  owner : List UInt8
  stepname : List UInt8
  procstep : List UInt8
  sets : List DataSet

/-- A statement of the job. `exec true` is from a procedure; a class of 0 is no SYSOUT. -/
inductive Statement
  | job (userid : List UInt8)
  | exec (proc : Bool) (name : List UInt8)
  | dd (ddname dsname : List UInt8) (sysout : UInt8) (sysin : Bool)
  | other

/-- What a statement does. -/
def Statement.does : Statement → Reading → Reading
  | job userid, r => {r with owner := if userid = [] then r.owner else userid}
  | exec true name, r => {r with procstep := name}
  | exec false name, r => {r with stepname := name, procstep := []}
  | dd ddname dsname sysout sysin, r =>
    let l : Label := ⟨ddname, dsname, r.stepname, r.procstep⟩
    let sets := if sysout ≠ 0 then nameSets 'O' (DataSet.sysout sysout) l r.sets else r.sets
    {r with sets := if sysin then nameSets 'I' DataSet.sysin l sets else sets}
  | other, r => r

/-- The statement that a record is, to the walk that has come to it. -/
def statement (frame : Frame) (text : List UInt8) (ctx : Ctx) : Statement :=
  if text.length < 4 then .other
  else
    let kind := text.getD 2 0 &&& 0x0F
    if kind = JOBSTR then (processJob text ⟨ctx.jobname, ctx.userid⟩).elim .other fun f => .job (str f.userid)
    else if kind = EXECSTR then
      (processExec text ⟨frame.name.1, frame.proc.1, ctx.program⟩).elim .other fun f =>
        .exec (text.getD 3 0 &&& ETXPROC ≠ 0) (str f.stepname)
    else if kind = DDSTR then
      (processDD text ⟨ctx.ddname, ctx.dsname, ctx.sysout, ctx.sysin⟩).elim .other fun f =>
        .dd (str f.ddname) (str f.dsname) (f.sysout.headD 0) (f.sysin ≠ 0)
    else .other

/-- Everything the walk has holds strings that fit. -/
structure Ctx.Right (ctx : Ctx) : Prop where
  owner : Short 8 9 ctx.owner
  listed : Listed ctx.jesdd
  jobname : Short 8 12 ctx.jobname
  userid : Short 8 12 ctx.userid
  stepname : Short 8 12 ctx.stepname
  procstep : Short 8 12 ctx.procstep
  program : Short 8 12 ctx.program
  ddname : Short 8 12 ctx.ddname
  dsname : Short 44 56 ctx.dsname
  sysout : Short 4 8 ctx.sysout

def Ctx.view (ctx : Ctx) : Reading := ⟨str ctx.owner, str ctx.stepname, str ctx.procstep, ctx.jesdd.map Jesdd.view⟩

/-- What a statement may do to the walk: it does what it means, and stops it only if there is nothing to name. -/
structure Does (s : Statement) (ctx : Ctx) (r : Ctx × Int) : Prop where
  right : r.1.Right
  view : r.1.view = s.does ctx.view
  dsids : r.1.jesdd.map Jesdd.dsid = ctx.jesdd.map Jesdd.dsid
  count : r.1.count = ctx.count
  goes : r.2 < 0 → ctx.count = 0

theorem str_head {f : List UInt8} {c : UInt8} (h : f.head? = some c) : str f = [] ↔ c = 0 := by
  cases f with
  | nil => cases h
  | cons d f =>
    obtain rfl : d = c := Option.some.inj h
    unfold str
    rw [List.takeWhile_cons]
    by_cases hd : d = 0 <;> simp [hd]

theorem jobStatement_does {text : List UInt8} {ctx : Ctx} (h : ctx.Right) :
    ∃ f r, processJob text ⟨ctx.jobname, ctx.userid⟩ = some f ∧ jobStatement text ctx = some r ∧
      Does (.job (str f.userid)) ctx r := by
  obtain ⟨f, hf, hfits⟩ := processJob_fits text (f := ⟨ctx.jobname, ctx.userid⟩) ⟨h.jobname, h.userid⟩
  obtain ⟨c, hc⟩ := hfits.userid.head
  have hgoes : ((if ctx.count = 0 then -1 else 0 : Int) < 0) → ctx.count = 0 := by
    intro hneg
    by_contra hcount
    rw [if_neg hcount] at hneg
    omega
  by_cases hfirst : c = 0
  · refine ⟨f, ({ctx with jobname := f.jobname, userid := f.userid}, if ctx.count = 0 then -1 else 0), hf, ?_,
      ⟨h.owner, h.listed, hfits.jobname, hfits.userid, h.stepname, h.procstep, h.program, h.ddname, h.dsname, h.sysout⟩,
      ?_, rfl, rfl, hgoes⟩
    · simp only [jobStatement, hf, hc, Option.bind_eq_bind, Option.bind_some, hfirst]
      rfl
    · simp only [Statement.does, if_pos ((str_head hc).mpr hfirst)]
      rfl
  · obtain ⟨owner, howner, hright, hstr⟩ := strcpy_str (f := ctx.owner) hfits.userid (by rw [h.owner.length]; decide)
    rw [h.owner.length] at hright
    refine ⟨f, ({ctx with jobname := f.jobname, userid := f.userid, owner}, if ctx.count = 0 then -1 else 0), hf, ?_,
      ⟨hright, h.listed, hfits.jobname, hfits.userid, h.stepname, h.procstep, h.program, h.ddname, h.dsname, h.sysout⟩,
      ?_, rfl, rfl, hgoes⟩
    · simp only [jobStatement, hf, hc, Option.bind_eq_bind, Option.bind_some, if_pos hfirst, howner]
      rfl
    · simp only [Statement.does, if_neg (mt (str_head hc).mp hfirst), Ctx.view, hstr]

theorem execStatement_does (frame : Frame) {text : List UInt8} {ctx : Ctx} {c : UInt8} (h : ctx.Right)
    (hc : text[3]? = some c) :
    ∃ f r, processExec text ⟨frame.name.1, frame.proc.1, ctx.program⟩ = some f ∧
      execStatement frame text ctx = some r ∧ Does (.exec (c &&& ETXPROC ≠ 0) (str f.stepname)) ctx r := by
  obtain ⟨f, hf, hfits⟩ := processExec_fits text frame.name frame.proc h.program
  by_cases hproc : c &&& ETXPROC ≠ 0
  · obtain ⟨procstep, hprocstep, hright, hstr⟩ := strcpy_str (f := ctx.procstep) hfits.stepname
      (by rw [h.procstep.length]; decide)
    rw [h.procstep.length] at hright
    refine ⟨f, ({ctx with program := f.program, procstep}, 0), hf, ?_, ⟨h.owner, h.listed, h.jobname, h.userid,
      h.stepname, hright, hfits.program, h.ddname, h.dsname, h.sysout⟩, ?_, rfl, rfl, fun hneg => absurd hneg (by simp)⟩
    · simp only [execStatement, hf, hc, Option.bind_eq_bind, Option.bind_some, if_pos hproc, hprocstep]
      rfl
    · rw [decide_eq_true hproc]
      simp only [Statement.does, Ctx.view, hstr]
  · obtain ⟨stepname, hstepname, hright, hstr⟩ := strcpy_str (f := ctx.stepname) hfits.stepname
      (by rw [h.stepname.length]; decide)
    obtain ⟨procstep, hprocstep, hcleared⟩ := clear_short (f := ctx.procstep) (by rw [h.procstep.length]; decide)
    rw [h.stepname.length] at hright
    rw [h.procstep.length] at hcleared
    have hempty : str procstep = [] := by
      obtain ⟨s, hs, hlen, -⟩ := cstr_short hcleared
      rw [str_of_cstr hs]
      exact List.length_eq_zero_iff.mp (Nat.le_zero.mp hlen)
    refine ⟨f, ({ctx with program := f.program, stepname, procstep}, 0), hf, ?_, ⟨h.owner, h.listed, h.jobname,
      h.userid, hright, hcleared.mono (Nat.zero_le 8), hfits.program, h.ddname, h.dsname, h.sysout⟩, ?_, rfl, rfl,
      fun hneg => absurd hneg (by simp)⟩
    · simp only [execStatement, hf, hc, Option.bind_eq_bind, Option.bind_some, if_neg hproc, hstepname, hprocstep]
      rfl
    · rw [decide_eq_false hproc]
      simp only [Statement.does, Ctx.view, hstr, hempty]

theorem ddStatement_does {text : List UInt8} {ctx : Ctx} (h : ctx.Right) :
    ∃ f r, processDD text ⟨ctx.ddname, ctx.dsname, ctx.sysout, ctx.sysin⟩ = some f ∧ ddStatement text ctx = some r ∧
      Does (.dd (str f.ddname) (str f.dsname) (f.sysout.headD 0) (f.sysin ≠ 0)) ctx r := by
  obtain ⟨f, hf, hfits⟩ := processDD_fits text (f := ⟨ctx.ddname, ctx.dsname, ctx.sysout, ctx.sysin⟩)
    ⟨h.ddname, h.dsname, h.sysout⟩
  obtain ⟨c, hc⟩ := hfits.sysout.head
  obtain ⟨ctx', hctx'⟩ : ∃ ctx' : Ctx, ctx' =
      {ctx with ddname := f.ddname, dsname := f.dsname, sysout := f.sysout, sysin := f.sysin} := ⟨_, rfl⟩
  obtain ⟨names, hnames⟩ : ∃ names : Names, names = ctx'.names := ⟨_, rfl⟩
  have hright : names.Right := by
    rw [hnames, hctx']
    exact ⟨hfits.ddname, hfits.dsname, h.stepname, h.procstep⟩
  have hlabel : names.label = ⟨str f.ddname, str f.dsname, ctx.view.stepname, ctx.view.procstep⟩ := by
    rw [hnames, hctx']
    rfl
  obtain ⟨dds₁, hdds₁, hlisted₁, hids₁, hview₁⟩ : ∃ dds₁,
      ctx'.sysoutNames ctx.jesdd = some dds₁ ∧ Listed dds₁ ∧
        dds₁.map Jesdd.dsid = ctx.jesdd.map Jesdd.dsid ∧ dds₁.map Jesdd.view =
          if c ≠ 0 then nameSets 'O' (DataSet.sysout c) names.label (ctx.jesdd.map Jesdd.view)
          else ctx.jesdd.map Jesdd.view := by
    have hcode : ctx'.sysoutNames ctx.jesdd =
        if c ≠ 0 then processSysout ctx.jesdd names f.sysout else some ctx.jesdd := by
      rw [hnames, hctx']
      simp only [Ctx.sysoutNames, hc, Option.bind_eq_bind, Option.bind_some]
    rw [hcode]
    split_ifs
    · exact processSysout_view h.listed hright hc
    · exact ⟨ctx.jesdd, rfl, h.listed, rfl, rfl⟩
  obtain ⟨dds₂, hdds₂, hlisted₂, hids₂, hview₂⟩ : ∃ dds₂,
      ctx'.sysinNames dds₁ = some dds₂ ∧ Listed dds₂ ∧
        dds₂.map Jesdd.dsid = dds₁.map Jesdd.dsid ∧ dds₂.map Jesdd.view =
          if f.sysin ≠ 0 then nameSets 'I' DataSet.sysin names.label (dds₁.map Jesdd.view)
          else dds₁.map Jesdd.view := by
    have hcode : ctx'.sysinNames dds₁ = if f.sysin ≠ 0 then processSysin dds₁ names else some dds₁ := by
      rw [hnames, hctx']
      rfl
    rw [hcode]
    split_ifs
    · exact processSysin_view hlisted₁ hright
    · exact ⟨dds₁, rfl, hlisted₁, rfl, rfl⟩
  refine ⟨f, ({ctx with ddname := f.ddname, dsname := f.dsname, sysout := f.sysout, sysin := f.sysin, jesdd := dds₂}, 0),
    hf, ?_, ⟨h.owner, hlisted₂, h.jobname, h.userid, h.stepname, h.procstep, h.program, hfits.ddname, hfits.dsname,
    hfits.sysout⟩, ?_, hids₂.trans hids₁, rfl, fun hneg => absurd hneg (by simp)⟩
  · simp only [ddStatement, hf, Option.bind_eq_bind, Option.bind_some, ← hctx', hdds₁, hdds₂]
    rfl
  · have hhead : f.sysout.headD 0 = c := by rw [List.headD_eq_head?_getD, hc]; rfl
    simp only [Statement.does, hhead, ← hlabel, decide_eq_true_eq]
    rw [hview₁] at hview₂
    simp only [Ctx.view, hview₂]

/-- **A statement does what it means**, whatever the record holds. -/
theorem intxtEmit_does (frame : Frame) (text : List UInt8) {ctx : Ctx} (h : ctx.Right) :
    ∃ r, intxtEmit frame text ctx = some r ∧ Does (statement frame text ctx) ctx r := by
  have hother : Does .other ctx (ctx, 0) := ⟨h, rfl, rfl, rfl, fun hneg => absurd hneg (by simp)⟩
  unfold intxtEmit statement
  by_cases hshort : text.length < 4
  · rw [if_pos hshort, if_pos hshort]
    exact ⟨_, rfl, hother⟩
  · have htwo : text[2]? = some (text.getD 2 0) := Jes2.getElem?_eq (by omega)
    have hthree : text[3]? = some (text.getD 3 0) := Jes2.getElem?_eq (by omega)
    rw [if_neg hshort, if_neg hshort, htwo, Option.bind_eq_bind, Option.bind_some]
    dsimp only
    split_ifs
    · obtain ⟨f, r, hf, hr, hdoes⟩ := @jobStatement_does text ctx h
      rw [hf]
      exact ⟨r, hr, hdoes⟩
    · obtain ⟨f, r, hf, hr, hdoes⟩ := execStatement_does frame h hthree
      rw [hf]
      exact ⟨r, hr, hdoes⟩
    · obtain ⟨f, r, hf, hr, hdoes⟩ := @ddStatement_does text ctx h
      rw [hf]
      exact ⟨r, hr, hdoes⟩
    · exact ⟨_, rfl, hother⟩

end Libc370.Jesjob
