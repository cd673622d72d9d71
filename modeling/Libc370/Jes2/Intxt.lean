import Libc370.Ctype
import Libc370.Jes2.RecordWalk

/-! The internal text of a job (`jesjob.c`).

A record of internal text is one statement of the job: a prefix, then keys, each with a
count and as many lengths and values. `process_job()`, `process_exec()` and
`process_dd()` walk over the keys and copy the values they know into fields of their
caller. Nothing in a record is trusted, only its length.

The record and the fields are read and written through `read` and `write`, which fail
outside of them: a walk that comes to a result has stayed inside. -/
namespace Libc370.Jesjob

open Jes2 (read write read_eq write_eq)
open Loop Libc370.Bytes

def blank : UInt8 := ebcdic ' '

/-! ### Copying a value -/

/-- `while (p(*s)) s++`. -/
def stepOver (p : UInt8 → Bool) : List UInt8 → Option Nat
  | [] => none
  | c :: s => if p c then (stepOver p s).map (· + 1) else some 0

/-- `cutblank()`: the field up to the first blank behind its first word. -/
def cutblank (s : List UInt8) : Option (List UInt8) := do
  let first ← stepOver (fun c => c = blank) s
  let last ← stepOver (fun c => c ≠ 0 ∧ c ≠ blank) (s.drop first)
  write s (first + last) [0]

/-- `n` bytes of the record copied to a field, terminated and cut. -/
def copy (record : List UInt8) (data n : Nat) (field : List UInt8) : Option (List UInt8) := do
  let value ← read record data n
  let field ← write field 0 value
  let field ← write field n [0]
  cutblank field

/-! ### The keys -/

/-- `TEXT`. -/
structure Text where
  key : UInt8
  count : UInt8
  len : UInt8

/-- The key at a place of the record. -/
def textAt (record : List UInt8) (p : Nat) : Option Text := do
  let key ← record[p]?
  let count ← record[p + 1]?
  let len ← record[p + 2]?
  return ⟨key, count, len⟩

def ENDK : UInt8 := 0xFE

/-- `while (n < t->count && buf < eob) buf += 1 + ...`: the step is what `step` has of the byte. -/
def hop (record : List UInt8) (step : UInt8 → Nat) : Nat → Nat → Option Nat
  | 0, p => some p
  | n + 1, p =>
    if p < record.length then do
      let c ← record[p]?
      hop record step n (p + (1 + step c))
    else some p

/-- The low seven bits of a length. -/
def low7 (c : UInt8) : Nat := (c &&& 0x7F).toNat

/-- One turn of `process_job()` and `process_exec()`: `store` has what becomes of the fields
at a key, given a value to copy. -/
def nameTurn {σ : Type} (record : List UInt8) (store : UInt8 → (List UInt8 → Option (List UInt8)) → σ → Option σ)
    (x : Nat × σ) :
    Turn (Nat × σ) (Option σ) :=
  let (p, fields) := x
  if p + 3 ≤ record.length then
    match textAt record p with
    | none => .leave none
    | some t =>
      if t.key = 0 ∨ t.key = ENDK then .leave (some fields)
      else
        let len := min (low7 t.len) 8
        if record.length < p + 3 + len then .leave (some fields)
        else
          match store t.key (copy record (p + 3) len) fields with
          | none => .leave none
          | some fields =>
            match hop record low7 t.count.toNat (p + 2) with
            | none => .leave none
            | some p => .again (p, fields)
  else .leave (some fields)

/-- The walk, which is `none` where it leaves the record or a field, or does not end. -/
def walk {σ : Type} (turn : Nat × σ → Turn (Nat × σ) (Option σ)) (record : List UInt8) (start : Nat) (fields : σ) :
    Option σ :=
  run (fun _ => none) turn (record.length + 1) (start, fields)

/-! ### `process_job()` -/

def USERK : UInt8 := 0xA5
def JOBK : UInt8 := 0xB4

structure Job where
  jobname : List UInt8
  userid : List UInt8
  deriving DecidableEq, Repr

def storeJob (key : UInt8) (copy : List UInt8 → Option (List UInt8)) (f : Job) : Option Job :=
  if key = USERK then (copy f.userid).map fun v => {f with userid := v}
  else if key = JOBK then (copy f.jobname).map fun v => {f with jobname := v}
  else some f

/-- `field[0] = 0`. -/
def clear (field : List UInt8) : Option (List UInt8) := write field 0 [0]

def processJob (record : List UInt8) (f : Job) : Option Job := do
  let jobname ← clear f.jobname
  let userid ← clear f.userid
  walk (nameTurn record storeJob) record 6 ⟨jobname, userid⟩

/-! ### `process_exec()` -/

def PGMEK : UInt8 := 0x8A
def PROCEK : UInt8 := 0x8B
def EXECK : UInt8 := 0x94

structure Exec where
  stepname : List UInt8
  procname : List UInt8
  program : List UInt8
  deriving DecidableEq, Repr

def storeExec (key : UInt8) (copy : List UInt8 → Option (List UInt8)) (f : Exec) : Option Exec :=
  if key = PGMEK then (copy f.program).map fun v => {f with program := v}
  else if key = PROCEK then do
    let program ← clear f.program
    let procname ← copy f.procname
    return {f with procname, program}
  else if key = EXECK then (copy f.stepname).map fun v => {f with stepname := v}
  else some f

def processExec (record : List UInt8) (f : Exec) : Option Exec := do
  let stepname ← clear f.stepname
  walk (nameTurn record storeExec) record 4 {f with stepname}

/-! ### `process_dd()` -/

def DDK : UInt8 := 0x6E
def DSNAMEK : UInt8 := 0x4A
def SYSOUTK : UInt8 := 0x4B
def SYSINCTK : UInt8 := 0x24
def SPACEK : UInt8 := 0x47

structure DD where
  ddname : List UInt8
  dsname : List UInt8
  sysout : List UInt8
  sysin : Nat
  deriving DecidableEq, Repr

/-- A value of a DD statement, which is left out where the record ends in it. -/
def copyWithin (record : List UInt8) (data len : Nat) (field : List UInt8) : Option (List UInt8) :=
  if record.length < data + len then some field else copy record data len field

/-- One of the quantities behind a SPACE: a length below 16 and as many bytes. -/
def quantityTurn (record : List UInt8) (q : Nat) : Turn Nat (Option Nat) :=
  if q < record.length then
    match record[q]? with
    | none => .leave none
    | some c => if 0 < c ∧ c < 0x10 then .again (q + (1 + c.toNat)) else .leave (some q)
  else .leave (some q)

/-- The rest of the turn: on to the next key. -/
def next (record : List UInt8) (t : Text) (p : Nat) (f : Option DD) : Turn (Nat × DD) (Option DD) :=
  match f with
  | none => .leave none
  | some f =>
    match hop record UInt8.toNat t.count.toNat (p + 2) with
    | none => .leave none
    | some p => .again (p, f)

def ddTurn (record : List UInt8) (x : Nat × DD) : Turn (Nat × DD) (Option DD) :=
  let (p, f) := x
  if p + 3 ≤ record.length then
    match textAt record p with
    | none => .leave none
    | some t =>
      if t.key = 0 ∨ t.key = ENDK then .leave (some f)
      else if t.key = DDK then
        next record t p ((copyWithin record (p + 3) (min t.len.toNat 8) f.ddname).map fun v => {f with ddname := v})
      else if t.key = DSNAMEK then
        if t.len &&& 0x80 ≠ 0 then
          -- the text one byte on
          if record.length < p + 1 + 3 then .leave (some f)
          else
            match textAt record (p + 1) with
            | none => .leave none
            | some t =>
              next record t (p + 1)
                ((copyWithin record (p + 1 + 3) (min t.len.toNat 44) f.dsname).map fun v => {f with dsname := v})
        else next record t p ((copyWithin record (p + 3) (min t.len.toNat 44) f.dsname).map fun v => {f with dsname :=
          v})
      else if t.key = SYSOUTK then
        next record t p ((copyWithin record (p + 3) (min t.len.toNat 4) f.sysout).map fun v => {f with sysout := v})
      else if t.key = SYSINCTK then next record t p (some {f with sysin := 1})
      else if t.key = SPACEK then .again (p + (3 + low7 t.len), f)
      else if t.key = 0x83 then
        match run (fun _ => none) (quantityTurn record) (record.length + 1) (p + 1) with
        | none => .leave none
        | some q => .again (q, f)
      else next record t p (some f)
  else .leave (some f)

def processDD (record : List UInt8) (f : DD) : Option DD := do
  let dsname ← clear f.dsname
  let sysout ← clear f.sysout
  walk (ddTurn record) record 4 {f with dsname, sysout, sysin := 0}

/-! ### Fields -/

/-- A field of a declared size. -/
def Field (size : Nat) := {f : List UInt8 // f.length = size}

/-- A string within a field of a declared size. -/
structure Terminated (size : Nat) (f : List UInt8) : Prop where
  length : f.length = size
  nul : 0 ∈ f

/-- A field that is left as it was, or that holds a string. -/
def Kept {size : Nat} (before : Field size) (f : List UInt8) : Prop := f = before.1 ∨ Terminated size f

theorem Kept.length {size : Nat} {before : Field size} {f : List UInt8} (h : Kept before f) : f.length = size := by
  rcases h with rfl | h
  · exact before.2
  · exact h.length

/-- A scan that stops at the NUL stops within the field, and not behind the NUL. -/
theorem stepOver_spec {p : UInt8 → Bool} (hp : p 0 = false) {s : List UInt8} (h : 0 ∈ s) :
    ∃ k, stepOver p s = some k ∧ k < s.length ∧ 0 ∈ s.drop k := by
  induction s with
  | nil => exact absurd h List.not_mem_nil
  | cons c s ih =>
    rw [stepOver]
    cases hc : p c with
    | false => exact ⟨0, rfl, Nat.succ_pos _, h⟩
    | true =>
      have hne : (0 : UInt8) ≠ c := by
        rintro rfl
        rw [hp] at hc
        cases hc
      obtain ⟨k, hk, hlt, hmem⟩ := ih ((List.mem_cons.mp h).resolve_left hne)
      refine ⟨k + 1, ?_, Nat.succ_lt_succ hlt, hmem⟩
      rw [if_pos rfl, hk]
      rfl

theorem write_nul {f : List UInt8} {n : Nat} (h : n < f.length) : ∃ f',
    write f n [0] = some f' ∧ Terminated f.length f' := by
  have hfit : n + ([0] : List UInt8).length ≤ f.length := h
  refine ⟨_, write_eq hfit, patch_length hfit, ?_⟩
  have hthere := patch_getElem?_inside hfit (i := 0) Nat.one_pos
  exact List.mem_of_getElem? hthere

theorem cutblank_spec {size : Nat} {f : List UInt8} (h : Terminated size f) :
    ∃ f', cutblank f = some f' ∧ Terminated size f' := by
  obtain ⟨first, hfirst, -, hrest⟩ := stepOver_spec (p := fun c => c = blank) (by decide) h.nul
  obtain ⟨last, hlast, hlt, -⟩ := stepOver_spec (p := fun c => c ≠ 0 ∧ c ≠ blank) (by decide) hrest
  have hin : first + last < f.length := by
    rw [List.length_drop] at hlt
    omega
  obtain ⟨f', hwrite, hterminated⟩ := write_nul hin
  rw [h.length] at hterminated
  refine ⟨f', ?_, hterminated⟩
  simp only [cutblank, hfirst, Option.bind_eq_bind, Option.bind_some, hlast, hwrite]

/-- A value that is within the record and shorter than the field. -/
theorem copy_spec {record : List UInt8} {data n : Nat} (h : data + n ≤ record.length) {f : List UInt8}
    (hn : n < f.length) :
    ∃ f', copy record data n f = some f' ∧ Terminated f.length f' := by
  have hlen : (window record data n).length = n := window_length h
  have hfit : 0 + (window record data n).length ≤ f.length := by omega
  have hsize := patch_length hfit
  obtain ⟨g, hg, hterminated⟩ := @write_nul (patch f 0 (window record data n)) n (by omega)
  rw [hsize] at hterminated
  obtain ⟨f', hcut, hf'⟩ := cutblank_spec hterminated
  refine ⟨f', ?_, hf'⟩
  simp only [copy, read_eq h, write_eq hfit, Option.bind_eq_bind, Option.bind_some, hg, hcut]

theorem clear_spec {size : Nat} (f : Field (size + 1)) : ∃ f', clear f.1 = some f' ∧ Terminated (size + 1) f' := by
  have hpos : 0 < f.1.length := by
    rw [f.2]
    exact Nat.succ_pos size
  obtain ⟨f', hwrite, hterminated⟩ := write_nul hpos
  rw [f.2] at hterminated
  exact ⟨f', hwrite, hterminated⟩

/-! ### Walks -/

theorem textAt_some {record : List UInt8} {p : Nat} (h : p + 3 ≤ record.length) : ∃ t, textAt record p = some t := by
  have hkey : p < record.length := by omega
  have hcount : p + 1 < record.length := by omega
  refine ⟨⟨record[p], record[p + 1], record[p + 2]⟩, ?_⟩
  rw [textAt, List.getElem?_eq_getElem hkey, List.getElem?_eq_getElem hcount, List.getElem?_eq_getElem h]
  rfl

/-- The steps over the values stay within the record until they end. -/
theorem hop_spec (record : List UInt8) (step : UInt8 → Nat) (n p : Nat) : ∃ q,
    hop record step n p = some q ∧ p ≤ q := by
  induction n generalizing p with
  | zero => exact ⟨p, rfl, le_rfl⟩
  | succ n ih =>
    rw [hop]
    split_ifs with hlt
    · obtain ⟨q, hq, hle⟩ := ih (p + (1 + step record[p]))
      refine ⟨q, ?_, by omega⟩
      rw [List.getElem?_eq_getElem hlt]
      exact hq
    · exact ⟨p, rfl, le_rfl⟩

/-- What one turn does: it moves on within the record, or leaves with fields that are right. -/
def Moves {σ : Type} (P : σ → Prop) (record : List UInt8) (p : Nat) : Turn (Nat × σ) (Option σ) → Prop
  | .again (q, f) => p < q ∧ p < record.length ∧ P f
  | .leave f => ∃ g, f = some g ∧ P g

/-- A walk whose turns move on ends, and with fields that are right. -/
theorem walk_spec {σ : Type} {P : σ → Prop} {record : List UInt8} {turn : Nat × σ → Turn (Nat × σ) (Option σ)}
    (hturn : ∀ p f, P f → Moves P record p (turn (p, f))) (start : Nat) {f : σ} (h : P f) :
    ∃ g, walk turn record start f = some g ∧ P g := by
  refine run_rank (fun n x => n = record.length - x.1 ∧ P x.2) (fun r => ∃ g, r = some g ∧ P g) ?_
    ⟨rfl, h⟩ (show record.length - start < record.length + 1 by omega)
  rintro n ⟨p, f⟩ ⟨rfl, hf⟩
  have hmoves := hturn p f hf
  cases hx : turn (p, f) with
  | again x =>
    rw [hx] at hmoves
    obtain ⟨hlt, hin, hP⟩ := hmoves
    exact .inl ⟨x, record.length - x.1, rfl, by dsimp only; omega, rfl, hP⟩
  | leave r =>
    rw [hx] at hmoves
    exact .inr ⟨r, rfl, hmoves⟩

/-- A table of keys that keeps the fields right when values of eight bytes at most are copied. -/
def Stores {σ : Type} (P : σ → Prop) (store : UInt8 → (List UInt8 → Option (List UInt8)) → σ → Option σ) : Prop :=
  ∀ key copy f, (∀ field : List UInt8, 8 < field.length → ∃ f', copy field = some f' ∧ Terminated field.length f') →
    P f →
    ∃ f', store key copy f = some f' ∧ P f'

theorem nameTurn_moves {σ : Type} {P : σ → Prop} {store : UInt8 → (List UInt8 → Option (List UInt8)) → σ → Option σ}
    (hstore : Stores P store) (record : List UInt8) (p : Nat) (f : σ) (h : P f) :
    Moves P record p (nameTurn record store (p, f)) := by
  unfold nameTurn
  dsimp only
  split_ifs with hin
  · obtain ⟨t, ht⟩ := textAt_some hin
    rw [ht]
    dsimp only
    split_ifs with hend hpast
    · exact ⟨f, rfl, h⟩
    · exact ⟨f, rfl, h⟩
    · have hcopy : ∀ field : List UInt8, 8 < field.length →
          ∃ f', copy record (p + 3) (min (low7 t.len) 8) field = some f' ∧ Terminated field.length f' :=
        fun field hfield => copy_spec (by omega) (by omega)
      obtain ⟨f', hf', hP⟩ := hstore t.key _ f hcopy h
      obtain ⟨q, hq, hle⟩ := hop_spec record low7 t.count.toNat (p + 2)
      rw [hf', hq]
      exact ⟨by omega, by omega, hP⟩
  · exact ⟨f, rfl, h⟩

/-- Both fields hold a string. -/
structure Job.Right (f : Job) : Prop where
  jobname : Terminated 12 f.jobname
  userid : Terminated 12 f.userid

/-- The step's name is a string, and what is set of the others is. -/
structure Exec.Right (procname program : Field 12) (f : Exec) : Prop where
  stepname : Terminated 12 f.stepname
  procname : Kept procname f.procname
  program : Kept program f.program

structure DD.Right (ddname : Field 12) (f : DD) : Prop where
  ddname : Kept ddname f.ddname
  dsname : Terminated 56 f.dsname
  sysout : Terminated 8 f.sysout

theorem storeJob_stores : Stores Job.Right storeJob := by
  intro key copy f hcopy h
  unfold storeJob
  split_ifs
  · obtain ⟨v, hv, hterminated⟩ := hcopy f.userid (by rw [h.userid.length]; decide)
    rw [h.userid.length] at hterminated
    exact ⟨{f with userid := v}, by rw [hv]; rfl, h.jobname, hterminated⟩
  · obtain ⟨v, hv, hterminated⟩ := hcopy f.jobname (by rw [h.jobname.length]; decide)
    rw [h.jobname.length] at hterminated
    exact ⟨{f with jobname := v}, by rw [hv]; rfl, hterminated, h.userid⟩
  · exact ⟨f, rfl, h⟩

theorem storeExec_stores (procname program : Field 12) : Stores (Exec.Right procname program) storeExec := by
  intro key copy f hcopy h
  unfold storeExec
  split_ifs
  · obtain ⟨v, hv, hterminated⟩ := hcopy f.program (by rw [h.program.length]; decide)
    rw [h.program.length] at hterminated
    exact ⟨{f with program := v}, by rw [hv]; rfl, h.stepname, h.procname, .inr hterminated⟩
  · obtain ⟨v, hv, hterminated⟩ := hcopy f.procname (by rw [h.procname.length]; decide)
    rw [h.procname.length] at hterminated
    obtain ⟨c, hc, hcleared⟩ := clear_spec (⟨f.program, h.program.length⟩ : Field (11 + 1))
    have hc : clear f.program = some c := hc
    exact ⟨{f with procname := v, program := c}, by rw [hc, hv]; rfl, h.stepname, .inr hterminated, .inr hcleared⟩
  · obtain ⟨v, hv, hterminated⟩ := hcopy f.stepname (by rw [h.stepname.length]; decide)
    rw [h.stepname.length] at hterminated
    exact ⟨{f with stepname := v}, by rw [hv]; rfl, hterminated, h.procname, h.program⟩
  · exact ⟨f, rfl, h⟩

theorem quantities_end (record : List UInt8) {p : Nat} (h : p < record.length) :
    ∃ q, run (fun _ => none) (quantityTurn record) (record.length + 1) (p + 1) = some q ∧ p < q := by
  refine run_rank (fun n q => n = record.length - q ∧ p < q) (fun r => ∃ q, r = some q ∧ p < q) ?_
    ⟨rfl, Nat.lt_succ_self p⟩ (show record.length - (p + 1) < record.length + 1 by omega)
  rintro n q ⟨rfl, hq⟩
  rw [quantityTurn]
  split_ifs with hin
  · rw [List.getElem?_eq_getElem hin]
    dsimp only
    split_ifs
    · exact .inl ⟨_, _, rfl, by omega, rfl, by omega⟩
    · exact .inr ⟨_, rfl, q, rfl, hq⟩
  · exact .inr ⟨_, rfl, q, rfl, hq⟩

theorem next_moves {P : DD → Prop} {record : List UInt8} {p q : Nat} (hq : p ≤ q) (hin : p < record.length) (t : Text)
    {f : DD} (h : P f) : Moves P record p (next record t q (some f)) := by
  obtain ⟨q', hq', hle⟩ := hop_spec record UInt8.toNat t.count.toNat (q + 2)
  simp only [next, hq']
  exact ⟨by omega, hin, h⟩

/-- A value is copied, or left out. -/
theorem copyWithin_spec (record : List UInt8) (data : Nat) {len : Nat} {f : List UInt8} (h : len < f.length) :
    ∃ f', copyWithin record data len f = some f' ∧ (f' = f ∨ Terminated f.length f') := by
  unfold copyWithin
  split_ifs with hpast
  · exact ⟨f, rfl, .inl rfl⟩
  · obtain ⟨f', hf', hterminated⟩ := copy_spec (not_lt.mp hpast) h
    exact ⟨f', hf', .inr hterminated⟩

/-- What is copied into a field that holds a string leaves it so. -/
theorem copyWithin_terminated (record : List UInt8) (data : Nat) {len size : Nat} {f : List UInt8}
    (h : Terminated size f)
    (hlen : len < size) : ∃ f', copyWithin record data len f = some f' ∧ Terminated size f' := by
  obtain ⟨f', hf', hsame | hterminated⟩ := copyWithin_spec record data (show len <
      f.length by rw [h.length]; exact hlen)
  · exact ⟨f', hf', hsame ▸ h⟩
  · rw [h.length] at hterminated
    exact ⟨f', hf', hterminated⟩

theorem ddTurn_moves (ddname : Field 12) (record : List UInt8) (p : Nat) (f : DD) (h : f.Right ddname) :
    Moves (DD.Right ddname) record p (ddTurn record (p, f)) := by
  have hdsname : ∀ data len, ∃ v, copyWithin record data (min len 44) f.dsname = some v ∧
      DD.Right ddname {f with dsname := v} := by
    intro data len
    obtain ⟨v, hv, hterminated⟩ := copyWithin_terminated record data h.dsname (show min len 44 < 56 by omega)
    exact ⟨v, hv, h.ddname, hterminated, h.sysout⟩
  unfold ddTurn
  dsimp only
  by_cases hin : p + 3 ≤ record.length
  · rw [if_pos hin]
    obtain ⟨t, ht⟩ := textAt_some hin
    have hp : p < record.length := by omega
    rw [ht]
    dsimp only
    by_cases hend : t.key = 0 ∨ t.key = ENDK
    · rw [if_pos hend]
      exact ⟨f, rfl, h⟩
    rw [if_neg hend]
    by_cases hdd : t.key = DDK
    · have hlen := h.ddname.length
      obtain ⟨v, hv, hset⟩ := copyWithin_spec record (p + 3) (show min t.len.toNat 8 < f.ddname.length by omega)
      rw [if_pos hdd, hv]
      refine next_moves le_rfl hp t ⟨?_, h.dsname, h.sysout⟩
      rcases hset with rfl | hset
      · exact h.ddname
      · rw [hlen] at hset
        exact .inr hset
    rw [if_neg hdd]
    by_cases hdsn : t.key = DSNAMEK
    · rw [if_pos hdsn]
      by_cases hshift : t.len &&& 0x80 ≠ 0
      · rw [if_pos hshift]
        split_ifs with hroom
        · exact ⟨f, rfl, h⟩
        · obtain ⟨t', ht'⟩ := textAt_some (not_lt.mp hroom)
          obtain ⟨v, hv, hright⟩ := hdsname (p + 1 + 3) t'.len.toNat
          rw [ht']
          dsimp only
          rw [hv]
          exact next_moves (Nat.le_succ p) hp t' hright
      · obtain ⟨v, hv, hright⟩ := hdsname (p + 3) t.len.toNat
        rw [if_neg hshift, hv]
        exact next_moves le_rfl hp t hright
    rw [if_neg hdsn]
    by_cases hsys : t.key = SYSOUTK
    · obtain ⟨v, hv, hterminated⟩ := copyWithin_terminated record (p + 3) h.sysout (show min t.len.toNat 4 < 8 by omega)
      rw [if_pos hsys, hv]
      exact next_moves le_rfl hp t ⟨h.ddname, h.dsname, hterminated⟩
    rw [if_neg hsys]
    by_cases hsysin : t.key = SYSINCTK
    · rw [if_pos hsysin]
      exact next_moves le_rfl hp t ⟨h.ddname, h.dsname, h.sysout⟩
    rw [if_neg hsysin]
    by_cases hspace : t.key = SPACEK
    · rw [if_pos hspace]
      exact ⟨by omega, hp, h⟩
    rw [if_neg hspace]
    by_cases hquantities : t.key = 0x83
    · obtain ⟨q, hq, hlt⟩ := quantities_end record hp
      rw [if_pos hquantities, hq]
      exact ⟨hlt, hp, h⟩
    · rw [if_neg hquantities]
      exact next_moves le_rfl hp t h
  · rw [if_neg hin]
    exact ⟨f, rfl, h⟩

/-- **The walks stay within the record and their fields, and end**, and leave strings in the
fields they set. -/
theorem walks_stay (record : List UInt8) :
    (∀ jobname userid : Field 12, ∃ f, processJob record ⟨jobname.1, userid.1⟩ = some f ∧ f.Right) ∧
      (∀ stepname procname program : Field 12, ∃ f, processExec record ⟨stepname.1, procname.1, program.1⟩ = some f ∧
        f.Right procname program) ∧
      ∀ (ddname : Field 12) (dsname : Field 56) (sysout : Field 8) (sysin : Nat),
        ∃ f, processDD record ⟨ddname.1, dsname.1, sysout.1, sysin⟩ = some f ∧ f.Right ddname := by
  refine ⟨fun jobname userid => ?_, fun stepname procname program => ?_, fun ddname dsname sysout sysin => ?_⟩
  · obtain ⟨j, hj, hjobname⟩ := clear_spec jobname
    obtain ⟨u, hu, huserid⟩ := clear_spec userid
    obtain ⟨f, hf, hright⟩ := walk_spec (nameTurn_moves storeJob_stores record) 6 (f := ⟨j, u⟩) ⟨hjobname, huserid⟩
    refine ⟨f, ?_, hright⟩
    rw [processJob, hj, hu]
    exact hf
  · obtain ⟨s, hs, hstepname⟩ := clear_spec stepname
    obtain ⟨f, hf, hright⟩ := walk_spec (nameTurn_moves (storeExec_stores procname program) record) 4
      (f := ⟨s, procname.1, program.1⟩) ⟨hstepname, .inl rfl, .inl rfl⟩
    refine ⟨f, ?_, hright⟩
    rw [processExec, hs]
    exact hf
  · obtain ⟨d, hd, hdsname⟩ := clear_spec dsname
    obtain ⟨s, hs, hsysout⟩ := clear_spec sysout
    obtain ⟨f, hf, hright⟩ := walk_spec (ddTurn_moves ddname record) 4 (f := ⟨ddname.1, d, s, 0⟩)
      ⟨.inl rfl, hdsname, hsysout⟩
    refine ⟨f, ?_, hright⟩
    rw [processDD, hd, hs]
    exact hf

/-- A statement that names no procedure leaves that field as it was. -/
theorem procname_unset : ¬ ∀ (record : List UInt8) (stepname procname program : Field 12),
    ∃ f, processExec record ⟨stepname.1, procname.1, program.1⟩ = some f ∧
      Terminated 12 f.stepname ∧ Terminated 12 f.procname ∧ Terminated 12 f.program := by
  intro h
  obtain ⟨f, hf, -, hprocname, -⟩ := h [0x00, 0x04, 0x02, 0x00] ⟨List.replicate 12 0, rfl⟩ ⟨List.replicate 12 0xFF, rfl⟩
    ⟨List.replicate 12 0, rfl⟩
  have hsame : processExec [0x00, 0x04, 0x02, 0x00] ⟨List.replicate 12 0, List.replicate 12 0xFF, List.replicate 12 0⟩ =
      some ⟨List.replicate 12 0, List.replicate 12 0xFF, List.replicate 12 0⟩ := by decide
  have heq := Option.some.inj (hf.symm.trans hsame)
  rw [heq] at hprocname
  exact absurd hprocname.nul (by decide)

end Libc370.Jesjob
