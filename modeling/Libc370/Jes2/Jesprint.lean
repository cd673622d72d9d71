import Libc370.Jes2.BlockWalk

/-! Printing a data set of a job (`jesprint()`, `jesprtcc()`).

`prwalk` finds the data set of the job, follows its chain of blocks and has each one
walked by `__jesprb()`, with `esc_print()` between that and the caller's callback. The
spool is a device: `spool_read()` fills the buffer or fails, and what it finds may
differ from one read to the next. A walk keeps the blocks that were accepted, which
decides nothing. -/
namespace Libc370.Jes2

open Bytes

/-- `JESPR_*`. -/
inductive Jespr
  | ended
  | empty
  | ioerr
  | foreign
  | dsid
  | loop
  | cap
  | stopped
  | nobuf
  | nomem
  | openend
  | trunc
  deriving DecidableEq

/-- `JESPR_MAXBLK`. -/
def maxBlk : Nat := 65536

/-- `JESPRST`, zeroed. -/
structure Jesprst where
  blocks : Nat := 0
  lines : Nat := 0
  mttr : Nat := 0
  reason : Jespr := .empty
  prtrc : Int := 0

/-- `JESDD`. -/
structure Jesdd where
  dsid : Nat
  mttr : Nat

/-- `JESJOB`. -/
structure Jesjob where
  jobkey : Nat
  jesdd : List (Option Jesdd)

/-- `__HCT`: a block has room for its own header. -/
structure Hct where
  bufsize : Nat
  header : 10 ≤ bufsize

/-- `HASPJS`: the `n`th read of an address fills the buffer, or fails. -/
structure Spool where
  read : (n mttr : Nat) → List UInt8 → Option (List UInt8)
  fills : ∀ {n mttr buf buf'}, read n mttr buf = some buf' → buf'.length = buf.length

/-- `JES`; no spool handles are a null array. -/
structure Jes where
  cp : Option Hct
  js : List (Option Spool)

/-- The caller's callback: of `jesprint()`, or of `jesprtcc()`. -/
inductive Prt (σ : Type)
  | prt (call : σ → List UInt8 → σ × Int)
  | prtcc (call : σ → List UInt8 → Nat → σ × Int)

variable {σ : Type}

/-- `PRTXLATE`. -/
def prtxlate (b : UInt8) : UInt8 := if b < 64 ∨ b = 255 then 0x40 else b

/-- A line without trailing blanks; its first byte stays. -/
def rtrim (line : List UInt8) : List UInt8 :=
  line.take 1 ++ ((line.drop 1).reverse.dropWhile (· = 0x40)).reverse

/-- `esc_print()` without the lines it leaves. -/
def escPrintCall (prt : Prt σ) (s : σ) (cc : Nat) (line : List UInt8) : σ × List UInt8 × Int :=
  if line.isEmpty then
    match prt with
    | .prtcc call => if cc ≠ 0 then let (s, rc) := call s [] cc; (s, [], rc) else (s, [], 0)
    | .prt _ => (s, [], 0)
  else
    let linelen := min (rtrim line).length 255
    let text := (line.take linelen).map prtxlate
    let (s, rc) := match prt with
      | .prtcc call => call s text cc
      | .prt call => call s text
    (s, text ++ line.drop linelen, rc)

theorem escPrintCall_keeps (prt : Prt σ) (s : σ) (cc : Nat) (line : List UInt8) :
    (escPrintCall prt s cc line).2.1.length = line.length := by
  unfold escPrintCall
  split
  · next hempty =>
    rw [List.isEmpty_iff.mp hempty]
    cases prt with
    | prt call => rfl
    | prtcc call =>
      dsimp only
      split <;> rfl
  · simp only [List.length_append, List.length_map, List.length_take, List.length_drop]
    omega

/-- `esc_print()`. -/
def escPrint (prt : Prt σ) : Emit σ where
  call s _ cc line := escPrintCall prt s cc line
  keeps s _ cc line := escPrintCall_keeps prt s cc line

/-- The variables of the walk, and the blocks it has accepted. -/
structure Walk (σ : Type) where
  mttr : Nat
  buf : List UInt8
  x : Scan σ
  st : Jesprst := {}
  rc : Int := 0
  blocks : List (List UInt8) := []

/-- `st` says why the walk ends, or goes on short of something, and where. -/
def Walk.stop (w : Walk σ) (reason : Jespr) : Walk σ := { w with st := { w.st with reason, mttr := w.mttr } }

/-- A block that the record walk gave up on ends nothing. -/
def Walk.gaveUp (w : Walk σ) : Walk σ :=
  match w.x.pb.reason with
  | .trunc => w.stop .trunc
  | .nobuf => w.stop .nobuf
  | _ => w

/-- A field of the header of a block. -/
def field (buf : List UInt8) (o n : Nat) : Option Nat := (read buf o n).map number

section Prwalk

variable (emit : Emit σ) (calloc : Nat → Bool) (js : Spool) (job : Jesjob) (dsid : Nat)

/-- A block that has been accepted. -/
def unwind (w : Walk σ) : Option (Loop.Turn (Walk σ) (Walk σ)) := do
  let (rc, x) ← jesprb emit calloc w.buf w.x
  let w := { w with buf := x.blk, x, rc, st := { w.st with blocks := w.st.blocks + 1 }, blocks := w.blocks ++ [w.buf] }
  if rc < 0 then
    if x.pb.reason = .nomem then return .leave (w.stop .nomem)
    else return .leave ({ w with st := { w.st with prtrc := x.pb.prtrc } }.stop .stopped)
  else
    let w := w.gaveUp
    let next ← field w.buf 0 4
    if next = w.mttr then return .leave (w.stop .loop) else return .again { w with mttr := next }

/-- A block that has been read, if it is of this job and of this data set. -/
def accept (w : Walk σ) : Option (Loop.Turn (Walk σ) (Walk σ)) := do
  let jobkey ← field w.buf 4 4
  if job.jobkey ≠ jobkey then return .leave (w.stop (if w.st.blocks ≠ 0 then .openend else .foreign))
  else
    let id ← field w.buf 8 2
    if dsid ≠ id then return .leave (w.stop (if w.st.blocks ≠ 0 then .openend else .dsid))
    else unwind emit calloc w

/-- The next block of the chain. -/
def nextBlock (w : Walk σ) : Option (Loop.Turn (Walk σ) (Walk σ)) :=
  if w.mttr = 0 then some (.leave w)
  else if w.st.blocks ≥ maxBlk then some (.leave (w.stop .cap))
  else
    match js.read w.st.blocks w.mttr w.buf with
    | none => some (.leave (w.stop .ioerr))
    | some buf => accept emit calloc job dsid { w with buf }

/-- The loop of `prwalk()`. -/
def nextTurn (w : Walk σ) : Loop.Turn (Walk σ) (Option (Walk σ)) :=
  match nextBlock emit calloc js job dsid w with
  | none => .leave none
  | some (.again w) => .again w
  | some (.leave w) => .leave (some w)

end Prwalk

/-- The data set of the job. -/
def findDsid (dds : List (Option Jesdd)) (dsid : Nat) : Option Jesdd :=
  dds.findSome? fun dd => dd.filter fun dd => dd.dsid = dsid

/-- What `prwalk()` leaves: its value, and the walk. -/
structure Printed (σ : Type) where
  rc : Int
  walk : Walk σ

/-- At `quit`. -/
def quit (rc : Int) (w : Walk σ) : Printed σ := ⟨rc, { w with st := { w.st with lines := w.x.pb.lines } }⟩

/-- `prwalk()`. The null pointers among its arguments end it before anything else, and so
does a buffer that cannot be had. -/
def prwalk (prt : Prt σ) (callocBuf : Bool) (calloc : Nat → Bool) (jes : Option Jes) (job : Option Jesjob) (dsid : Nat)
    (s : σ) : Option (Printed σ) :=
  let w : Walk σ := { mttr := 0, buf := [], x := fresh s }
  match jes, job with
  | some jes, some job =>
    if dsid = 0 then some (quit 503 w)
    else
      match jes.cp, jes.js.head?.join with
      | some hct, some js =>
        if !callocBuf then some (quit 503 { w with st := { w.st with reason := .nomem } })
        else
          match findDsid job.jesdd dsid with
          | none => some (quit 404 w)
          | some jesdd =>
            if jesdd.mttr = 0 then some (quit 0 w)
            else
              (quit 0) <$> Loop.run (fun _ => none) (nextTurn (escPrint prt) calloc js job jesdd.dsid) (maxBlk + 1)
                { w with mttr := jesdd.mttr, buf := List.replicate hct.bufsize 0, st := { w.st with reason := .ended } }
      | _, _ => some (quit 503 w)
  | _, _ => some (quit 503 w)

/-! ### The blocks of a walk -/

theorem field_eq {buf : List UInt8} {o n : Nat} (h : o + n ≤ buf.length) :
    field buf o n = some (number (window buf o n)) := by
  rw [field, read_eq h, Option.map_some]

/-- A chain of blocks goes on where the blocks before it have ended. -/
theorem jesprbChain_append {emit : Emit σ} {calloc : Nat → Bool} {blocks : List (List UInt8)} {x x' : Scan σ}
    (h : jesprbChain emit calloc blocks x = some (0, x')) (more : List (List UInt8)) :
    jesprbChain emit calloc (blocks ++ more) x = jesprbChain emit calloc more x' := by
  induction blocks generalizing x with
  | nil =>
    obtain ⟨-, rfl⟩ := Prod.mk.inj (Option.some.inj h)
    rfl
  | cons blk rest ih =>
    obtain ⟨⟨rc, y⟩, hrun, hrest⟩ := Option.bind_eq_some_iff.mp h
    rw [List.cons_append, jesprbChain, hrun, Option.bind_eq_bind, Option.bind_some]
    by_cases hrc : rc < 0
    · dsimp only at hrest
      rw [if_pos hrc] at hrest
      obtain ⟨rfl, -⟩ := Prod.mk.inj (Option.some.inj hrest)
      omega
    · dsimp only at hrest ⊢
      rw [if_neg hrc] at hrest ⊢
      exact ih hrest

/-- What the walk has come to is what `__jesprb()` comes to over the blocks accepted. -/
structure Chained (emit : Emit σ) (calloc : Nat → Bool) (s : σ) (w : Walk σ) : Prop where
  chain : jesprbChain emit calloc w.blocks (fresh s) = some (w.rc, w.x)

/-- And it can go on. -/
structure GoesOn (emit : Emit σ) (calloc : Nat → Bool) (s : σ) (hct : Hct) (w : Walk σ) : Prop
    extends Chained emit calloc s w where
  ok : w.x.pb.Ok
  rc : w.rc = 0
  size : w.buf.length = hct.bufsize

/-- What a turn comes to, when `n` blocks have been accepted. -/
inductive Comes (emit : Emit σ) (calloc : Nat → Bool) (s : σ) (hct : Hct) (n : Nat) :
    Loop.Turn (Walk σ) (Walk σ) → Prop
  | again {w' : Walk σ} (h : GoesOn emit calloc s hct w')
      (blocks : w'.st.blocks = n + 1) : Comes emit calloc s hct n (.again w')
  | leave {w' : Walk σ} (h : Chained emit calloc s w') : Comes emit calloc s hct n (.leave w')

theorem gaveUp_eq (w : Walk σ) : ∃ st, w.gaveUp = { w with st } ∧ st.blocks = w.st.blocks := by
  unfold Walk.gaveUp
  split <;> exact ⟨_, rfl, rfl⟩

variable {emit : Emit σ} {calloc : Nat → Bool} {s : σ} {hct : Hct}

theorem unwind_comes {w : Walk σ} (h : GoesOn emit calloc s hct w) :
    ∃ t, unwind emit calloc w = some t ∧ Comes emit calloc s hct w.st.blocks t := by
  obtain ⟨⟨rc, x, hrun, hlen, hwalked⟩, -⟩ := jesprb_spec emit calloc w.buf h.ok
  obtain ⟨w₁, hw₁⟩ : ∃ w₁ : Walk σ, w₁ = { w with
      buf := x.blk, x, rc, st := { w.st with blocks := w.st.blocks + 1 }, blocks := w.blocks ++ [w.buf] } := ⟨_, rfl⟩
  have hchain : jesprbChain emit calloc w₁.blocks (fresh s) = some (w₁.rc, w₁.x) := by
    have hbefore := h.chain
    rw [h.rc] at hbefore
    rw [hw₁]
    dsimp only
    rw [jesprbChain_append hbefore, jesprbChain, hrun]
    rcases hwalked.ends with rfl | rfl <;> rfl
  have hturn : unwind emit calloc w = if rc < 0 then
        if x.pb.reason = .nomem then some (.leave (w₁.stop .nomem))
        else some (.leave ({ w₁ with st := { w₁.st with prtrc := x.pb.prtrc } }.stop .stopped))
      else (field w₁.gaveUp.buf 0 4).bind fun next =>
        if next = w₁.gaveUp.mttr then some (.leave (w₁.gaveUp.stop .loop))
        else some (.again { w₁.gaveUp with mttr := next }) := by
    simp only [unwind, hrun, Option.bind_eq_bind, Option.bind_some, hw₁]
    rfl
  obtain ⟨st, hgaveUp, hblocks⟩ := gaveUp_eq w₁
  rw [hturn]
  split
  · split
    · exact ⟨_, rfl, .leave ⟨hchain⟩⟩
    · exact ⟨_, rfl, .leave ⟨hchain⟩⟩
  · next hrc =>
    have hsize : w₁.buf.length = hct.bufsize := by
      rw [hw₁]
      exact hlen.trans h.size
    have hheader := hct.header
    have hzero : w₁.rc = 0 := by
      rw [hw₁]
      exact hwalked.ends.resolve_right (by omega)
    have hok : w₁.x.pb.Ok := by
      rw [hw₁]
      exact hwalked.ok
    rw [hgaveUp, field_eq (by dsimp only; omega), Option.bind_some]
    split
    · exact ⟨_, rfl, .leave ⟨hchain⟩⟩
    · refine ⟨_, rfl, .again ⟨⟨hchain⟩, hok, hzero, hsize⟩ ?_⟩
      rw [← show w₁.st.blocks = w.st.blocks + 1 by rw [hw₁]]
      exact hblocks

theorem nextBlock_comes (js : Spool) (job : Jesjob) (dsid : Nat) {w : Walk σ} (h : GoesOn emit calloc s hct w) :
    ∃ t, nextBlock emit calloc js job dsid w = some t ∧ (∀ w', t = .again w' → w.st.blocks < maxBlk) ∧
      Comes emit calloc s hct w.st.blocks t := by
  have hleave : ∀ w' : Walk σ, w'.blocks = w.blocks → w'.rc = w.rc → w'.x = w.x →
      (∀ w'', Loop.Turn.leave w' = (.again w'' : Loop.Turn (Walk σ) (Walk σ)) → w.st.blocks < maxBlk) ∧
        Comes emit calloc s hct w.st.blocks (.leave w') := by
    intro w' hblocks hrc hx
    refine ⟨by simp, .leave ⟨?_⟩⟩
    rw [hblocks, hrc, hx]
    exact h.chain
  unfold nextBlock
  split
  · exact ⟨_, rfl, hleave _ rfl rfl rfl⟩
  · split
    · exact ⟨_, rfl, hleave _ rfl rfl rfl⟩
    · next hcap =>
      split
      · exact ⟨_, rfl, hleave _ rfl rfl rfl⟩
      · next buf hread =>
        have hbuf : buf.length = hct.bufsize := (js.fills hread).trans h.size
        have hheader := hct.header
        unfold accept
        rw [field_eq (by dsimp only; omega), Option.bind_eq_bind, Option.bind_some]
        split
        · exact ⟨_, rfl, hleave _ rfl rfl rfl⟩
        · rw [field_eq (by dsimp only; omega), Option.bind_some]
          split
          · exact ⟨_, rfl, hleave _ rfl rfl rfl⟩
          · obtain ⟨t, ht, hcomes⟩ := @unwind_comes σ emit calloc s hct { w with buf }
              ⟨⟨h.chain⟩, h.ok, h.rc, hbuf⟩
            exact ⟨t, ht, fun _ _ => by omega, hcomes⟩

/-- The loop of `prwalk()` comes to an end. -/
theorem nextTurn_run (js : Spool) (job : Jesjob) (dsid : Nat) {w : Walk σ} (h : GoesOn emit calloc s hct w) :
    ∃ w', Loop.run (fun _ => none) (nextTurn emit calloc js job dsid) (maxBlk + 1) w = some w' ∧
      Chained emit calloc s w' := by
  refine Loop.run_rank (fun n w => n = maxBlk - w.st.blocks ∧ GoesOn emit calloc s hct w)
    (fun r => ∃ w', r = some w' ∧ Chained emit calloc s w') ?_ ⟨rfl,
    h⟩ (show maxBlk - w.st.blocks < maxBlk + 1 by omega)
  rintro n w ⟨rfl, hw⟩
  obtain ⟨t, ht, hcap, hcomes⟩ := nextBlock_comes js job dsid hw
  unfold nextTurn
  rw [ht]
  cases hcomes with
  | @again w' h blocks =>
    have hless := hcap w' rfl
    exact .inl ⟨w', _, rfl, by omega, rfl, h⟩
  | @leave w' h => exact .inr ⟨_, rfl, w', rfl, h⟩

/-- **A data set is printed**: the walk comes to an end, and what it has come to is what
`__jesprb()` comes to over the blocks it has accepted. -/
theorem prwalk_spec (prt : Prt σ) (callocBuf : Bool) (calloc : Nat → Bool) (jes : Option Jes) (job : Option Jesjob)
    (dsid : Nat) (s : σ) : ∃ r, prwalk prt callocBuf calloc jes job dsid s = some r ∧
      Chained (escPrint prt) calloc s r.walk := by
  have hquit : ∀ (rc : Int) (w : Walk σ), w.blocks = [] → w.rc = 0 → w.x = fresh s →
      ∃ r, some (quit rc w) = some r ∧ Chained (escPrint prt) calloc s r.walk := by
    intro rc w hblocks hrc hx
    refine ⟨_, rfl, ⟨?_⟩⟩
    simp only [quit, hblocks, hrc, hx]
    rfl
  unfold prwalk
  dsimp only
  split
  · next jes job =>
    split
    · exact hquit _ _ rfl rfl rfl
    · split
      · next hct js hcp hjs =>
        split
        · exact hquit _ _ rfl rfl rfl
        · split
          · exact hquit _ _ rfl rfl rfl
          · next jesdd hdd =>
            split
            · exact hquit _ _ rfl rfl rfl
            · obtain ⟨w', hrun, hchained⟩ := @nextTurn_run σ (escPrint prt) calloc s hct js job jesdd.dsid
                { mttr := jesdd.mttr, buf := List.replicate hct.bufsize 0, x := fresh s, st := { reason := .ended } }
                ⟨⟨rfl⟩, fresh_ok s, rfl, List.length_replicate⟩
              exact ⟨quit 0 w', by rw [hrun]; rfl, ⟨hchained.chain⟩⟩
      · exact hquit _ _ rfl rfl rfl
  · exact hquit _ _ rfl rfl rfl

/-! ### What has become of the parts of lines -/

/-- What has become of them when the print is over. -/
def Printed.view (r : Printed σ) : Assembly UInt8 := r.walk.x.endView r.walk.rc

theorem endView_heldLength {x : Scan σ} (rc : Int) (h : x.pb.Ok) :
    (x.endView rc).heldLength = 0 ↔ (x.pb.pending = true → x.StoppedAtLine rc) := by
  unfold Scan.endView
  split
  · next hstopped => simp [Assembly.dropped, Assembly.heldLength, hstopped]
  · next hstopped =>
    rw [heldLength_eq h]
    simp [hstopped]

/-- **Every byte taken in is handed out, once and in order**, just if no line is opened
over one that something has been taken in for, and none is left when the walk ends. -/
theorem jesprint_delivers_iff (prt : Prt σ) (callocBuf : Bool) (calloc : Nat → Bool) (jes : Option Jes)
    (job : Option Jesjob) (dsid : Nat) (s : σ) : ∃ r, prwalk prt callocBuf calloc jes job dsid s = some r ∧
      (r.view.Delivered ↔
        (∀ y ∈ chainStates (escPrint prt) calloc r.walk.blocks (fresh s), opens y = true → y.pb.pending = false) ∧
          (r.walk.x.pb.pending = true → r.walk.x.StoppedAtLine r.walk.rc)) := by
  obtain ⟨r, hrun, hchained⟩ := prwalk_spec prt callocBuf calloc jes job dsid s
  obtain ⟨⟨rc, x', hchain, hwalked⟩, hstates⟩ := jesprbChain_spec (escPrint prt) calloc r.walk.blocks (fresh_ok s)
  obtain ⟨rfl, rfl⟩ := Prod.mk.inj (Option.some.inj (hchained.chain.symm.trans hchain))
  refine ⟨r, hrun, ?_⟩
  have hempty : (fresh s).view = Assembly.empty := rfl
  have hmoves := hwalked.run
  rw [hempty] at hmoves
  rw [Printed.view, hmoves.delivered_iff, endView_heldLength _ hwalked.ok]
  refine and_congr_left' ?_
  simp only [moves, List.forall_mem_map]
  refine forall₂_congr fun y hy => ?_
  rw [Assembly.lost, ← heldLength_eq (hstates y hy)]
  split
  · next hopens => simp [hopens]
  · next hopens => simp [hopens]

/-- A spool with one block, which opens a line of two bytes with the first of them. -/
def openSpool : Spool where
  read _ _ buf := write buf 0 [0, 0, 0, 0, 0, 0, 0, 1, 0, 1, 0, 0x18, 0, 1, 0, 2, 0xC1, 0xFF]
  fills := by
    intro n mttr buf buf' h
    unfold write at h
    split at h
    · next hfits =>
      rw [← Option.some.inj h]
      exact patch_length hfits
    · simp at h

/-- The chain ends, and the byte is gone. -/
theorem open_line_vanishes : ¬ ∀ (prt : Prt Unit) (callocBuf : Bool) (calloc : Nat → Bool) (jes : Option Jes)
    (job : Option Jesjob) (dsid : Nat), ∃ r, prwalk prt callocBuf calloc jes job dsid () = some r ∧
    r.view.Delivered := by
  intro h
  obtain ⟨r, hrun, hdelivered⟩ := h (.prt fun s _ => (s, 0)) true (fun _ => true)
    (some ⟨some ⟨18, by decide⟩, [some openSpool]⟩) (some ⟨1, [some ⟨1, 1⟩]⟩) 1
  have hlost : (prwalk (.prt fun s _ => (s, 0)) true (fun _ => true)
      (some ⟨some ⟨18, by decide⟩, [some openSpool]⟩) (some ⟨1, [some ⟨1, 1⟩]⟩) 1 ()).map
        (fun r => decide r.view.Delivered) = some false := by decide +kernel
  rw [hrun, Option.map_some, Option.some.injEq] at hlost
  exact of_decide_eq_false hlost hdelivered

end Libc370.Jes2
