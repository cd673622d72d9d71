import Libc370.Jes2.DataSets

/-! Reading the internal text of a job (`process_intxt()`).

Whatever is on the spool, the text is read to an end. The lines handed out are statements,
and the job is as they make it, one after another. On a spool that does not change while
it is read, the lines are those of the blocks that follow one another from the first one
on, as long as they are of the job and of its internal text. -/
namespace Libc370.Jesjob

open Jes2 (read write field field_eq Emit Call Scan Spool maxBlk jesprbChain fresh)
open Libc370.Bytes

/-! ### Lines -/

theorem emit_quiet (frame : Frame) : (emit frame).Quiet := fun _ _ _ _ => rfl

/-- The context behind a record. -/
def ctxAfter (frame : Frame) (ctx : Ctx) (text : List UInt8) : Ctx := (intxtEmit frame text ctx).elim ctx Prod.fst

/-- The statements that some lines are. -/
def statements (frame : Frame) : Ctx → List (List UInt8) → List Statement
  | _, [] => []
  | ctx, text :: rest => statement frame text ctx :: statements frame (ctxAfter frame ctx text) rest

theorem statements_concat (frame : Frame) (ctx : Ctx) (lines : List (List UInt8)) (text : List UInt8) :
    statements frame ctx (lines ++ [text]) =
      statements frame ctx lines ++ [statement frame text (lines.foldl (ctxAfter frame) ctx)] := by
  induction lines generalizing ctx with
  | nil => rfl
  | cons line lines ih => rw [List.cons_append, statements, ih, statements, List.foldl_cons, List.cons_append]

/-- What some statements do, one after another. -/
def readAll (ss : List Statement) (r : Reading) : Reading := ss.foldl (fun r s => s.does r) r

/-- The walk has read some lines: it has come to what the statements mean, and no data set is lost. -/
structure Reads (frame : Frame) (ctx₀ : Ctx) (lines : List (List UInt8)) (ctx : Ctx) : Prop where
  after : ctx = lines.foldl (ctxAfter frame) ctx₀
  right : ctx.Right
  view : ctx.view = readAll (statements frame ctx₀ lines) ctx₀.view
  dsids : ctx.jesdd.map Jesdd.dsid = ctx₀.jesdd.map Jesdd.dsid
  count : ctx.count = ctx₀.count

theorem Reads.next {frame : Frame} {ctx₀ ctx : Ctx} {lines : List (List UInt8)} (h : Reads frame ctx₀ lines ctx)
    (text : List UInt8) : ∃ ctx', (emitLine frame (some ctx) text).1 = some ctx' ∧
      Reads frame ctx₀ (lines ++ [text]) ctx' := by
  obtain ⟨r, hr, hdoes⟩ := intxtEmit_does frame text h.right
  have hafter : ctxAfter frame ctx text = r.1 := by
    rw [ctxAfter, hr]
    rfl
  refine ⟨r.1, ?_, ?_, hdoes.right, ?_, hdoes.dsids.trans h.dsids, hdoes.count.trans h.count⟩
  · rw [emitLine, Option.bind_some, hr]
  · rw [List.foldl_append, List.foldl_cons, List.foldl_nil, ← h.after, hafter]
  · rw [hdoes.view, h.view, statements_concat, readAll, readAll, List.foldl_append, ← h.after]
    rfl

/-- The state of the callback, behind some calls. -/
def Told (frame : Frame) (ctx₀ : Ctx) (s : Option Ctx) (calls : List Call) : Prop :=
  ∃ ctx, s = some ctx ∧ Reads frame ctx₀ (calls.map Call.line) ctx

theorem told_next (frame : Frame) (ctx₀ : Ctx) (s : Option Ctx) (calls : List Call) (c : Call)
    (h : Told frame ctx₀ s calls) : Told frame ctx₀ ((emit frame).after s c) (calls ++ [c]) := by
  obtain ⟨ctx, rfl, hreads⟩ := h
  obtain ⟨ctx', hctx', hnext⟩ := hreads.next c.line
  refine ⟨ctx', hctx', ?_⟩
  rw [List.map_append]
  exact hnext

/-! ### Blocks -/

/-- A spool that does not change while it is read. -/
structure Stable (js : Spool) (size : Nat) (disk : Nat → Option (List UInt8)) : Prop where
  reads : ∀ n mttr buf, buf.length = size → js.read n mttr buf = disk mttr

/-- The block is one of the internal text of the job. -/
def IsText (jobkey : Nat) (b : List UInt8) : Prop := number (window b 4 4) = jobkey ∧ number (window b 8 2) = PDBINTXT

instance (jobkey : Nat) (b : List UInt8) : Decidable (IsText jobkey b) := inferInstanceAs (Decidable (_ ∧ _))

/-- The blocks of the internal text, from `mttr` on. -/
def textBlocks (disk : Nat → Option (List UInt8)) (jobkey : Nat) : Nat → Nat → List (List UInt8)
  | 0, _ => []
  | k + 1, mttr =>
    if mttr = 0 then []
    else
      match disk mttr with
      | none => []
      | some b => if IsText jobkey b then b :: textBlocks disk jobkey k (number (window b 0 4)) else []

variable (frame : Frame) (calloc : Nat → Bool) (js : Spool) (jobkey : Nat)

/-- What a walk over the text comes to: `__jesprb()` has gone over some blocks, and on a spool that stays as it is
they are the ones of the text. -/
structure Walked (size k : Nat) (w : TextWalk) (blocks : List (List UInt8)) (rc : Int) (w' : TextWalk) : Prop where
  chain : jesprbChain (emit frame) calloc blocks w.x = some (rc, w'.x)
  stable : ∀ disk, Stable js size disk → blocks = textBlocks disk jobkey k w.mttr

variable {frame calloc js jobkey}

theorem textBlock_eq {w : TextWalk} (h : 10 ≤ w.buf.length) (hok : w.x.pb.Ok) :
    if IsText jobkey w.buf then
      ∃ rc x, Jes2.jesprb (emit frame) calloc w.buf w.x = some (rc, x) ∧ x.pb.Ok ∧ x.blk = w.buf ∧
        textBlock frame calloc jobkey w =
          if rc < 0 then some (.leave {w with buf := w.buf, x})
          else some (.again {w with mttr := number (window w.buf 0 4), buf := w.buf, x})
    else textBlock frame calloc jobkey w = some (.leave w) := by
  have hkey : field w.buf 4 4 = some (number (window w.buf 4 4)) := field_eq (by omega)
  have hdsid : field w.buf 8 2 = some (number (window w.buf 8 2)) := field_eq (by omega)
  have hnext : field w.buf 0 4 = some (number (window w.buf 0 4)) := field_eq (by omega)
  split
  · next htext =>
    obtain ⟨⟨rc, x, hrun, -, hwalked⟩, -⟩ := Jes2.jesprb_spec (emit frame) calloc w.buf hok
    have hblk := Jes2.jesprb_quiet (emit_quiet frame) hrun
    dsimp only at hblk
    refine ⟨rc, x, hrun, hwalked.ok, hblk, ?_⟩
    simp only [textBlock, hkey, hdsid, hrun, Option.bind_eq_bind, Option.bind_some, htext.1, htext.2, ne_eq,
      not_true_eq_false, if_false, hblk, hnext]
    rfl
  · next htext =>
    unfold textBlock
    rw [hkey, Option.bind_eq_bind, Option.bind_some]
    split_ifs with hforeign
    · rfl
    · rw [hdsid, Option.bind_some, if_pos fun hintxt => htext ⟨not_not.mp hforeign, hintxt⟩]
      rfl

theorem textTurn_again {w w' : TextWalk} (h : nextText frame calloc js jobkey w = some (.again w')) :
    textTurn frame calloc js jobkey w = .again w' := by
  rw [textTurn, h]

theorem textTurn_leave {w w' : TextWalk} (h : nextText frame calloc js jobkey w = some (.leave w')) :
    textTurn frame calloc js jobkey w = .leave (some w') := by
  rw [textTurn, h]

/-- **The walk over the text comes to an end**, with what `__jesprb()` makes of its blocks. -/
theorem texts_run {size : Nat} (hsize : 10 ≤ size) (k : Nat) {w : TextWalk} (hk : w.blocks + k = maxBlk)
    (hbuf : w.buf.length = size) (hok : w.x.pb.Ok) :
    ∃ blocks rc w', Loop.run (fun _ => none) (textTurn frame calloc js jobkey) (k + 1) w = some w' ∧
      Walked frame calloc js jobkey size k w blocks rc w' := by
  induction k generalizing w with
  | zero =>
    have hfull : w.blocks ≥ maxBlk := by omega
    by_cases hmttr : w.mttr = 0
    · exact ⟨[], 0, w, Loop.run_leave (textTurn_leave (if_pos hmttr)) 0, rfl, fun _ _ => rfl⟩
    · refine ⟨[], 0, {w with blocks := w.blocks + 1}, Loop.run_leave (textTurn_leave ?_) 0, rfl, fun _ _ => rfl⟩
      rw [nextText, if_neg hmttr, if_pos hfull]
  | succ k ih =>
    have hroom : ¬ w.blocks ≥ maxBlk := by omega
    by_cases hmttr : w.mttr = 0
    · refine ⟨[], 0, w, Loop.run_leave (textTurn_leave (if_pos hmttr)) (k + 1), rfl, fun disk _ => ?_⟩
      rw [textBlocks, if_pos hmttr]
    · obtain ⟨w₁, hw₁⟩ : ∃ w₁ : TextWalk, w₁ = {w with blocks := w.blocks + 1, reads := w.reads + 1} := ⟨_, rfl⟩
      have hcode : nextText frame calloc js jobkey w = (js.read w.reads w.mttr w.buf).elim (some (.leave w₁))
          fun buf => textBlock frame calloc jobkey {w₁ with buf} := by
        rw [hw₁, nextText, if_neg hmttr, if_neg hroom]
        dsimp only
        rw [Nat.add_sub_cancel]
        cases js.read w.reads w.mttr w.buf <;> rfl
      -- the first block of the text, on a spool that stays as it is
      have hblocks (disk : Nat → Option (List UInt8)) (hdisk : Stable js size disk) :
          textBlocks disk jobkey (k + 1) w.mttr = (js.read w.reads w.mttr w.buf).elim [] fun b =>
            if IsText jobkey b then b :: textBlocks disk jobkey k (number (window b 0 4)) else [] := by
        rw [textBlocks, if_neg hmttr, hdisk.reads w.reads w.mttr w.buf hbuf]
        cases disk w.mttr <;> rfl
      cases hread : js.read w.reads w.mttr w.buf with
      | none =>
        refine ⟨[], 0, w₁, Loop.run_leave (textTurn_leave ?_) (k + 1), by rw [hw₁]; rfl, fun disk hdisk => ?_⟩
        · rw [hcode, hread]
          rfl
        · rw [hblocks disk hdisk, hread]
          rfl
      | some b =>
        have hb : b.length = size := (js.fills hread).trans hbuf
        have hnext : nextText frame calloc js jobkey w = textBlock frame calloc jobkey {w₁ with buf := b} := by
          rw [hcode, hread]
          rfl
        have hhere (disk : Nat → Option (List UInt8)) (hdisk : Stable js size disk) :
            textBlocks disk jobkey (k + 1) w.mttr =
              if IsText jobkey b then b :: textBlocks disk jobkey k (number (window b 0 4)) else [] := by
          rw [hblocks disk hdisk, hread]
          rfl
        have hblock := @textBlock_eq frame calloc jobkey {w₁ with buf := b} (by dsimp only; omega)
          (by rw [hw₁]; exact hok)
        by_cases htext : IsText jobkey b
        · rw [if_pos htext] at hblock
          obtain ⟨rc, x, hrun, hokx, -, hturn⟩ := hblock
          have hrun : Jes2.jesprb (emit frame) calloc b w.x = some (rc, x) := by
            rw [hw₁] at hrun
            exact hrun
          have hstep (rest : List (List UInt8)) : jesprbChain (emit frame) calloc (b :: rest) w.x =
              if rc < 0 then some (rc, x) else jesprbChain (emit frame) calloc rest x := by
            rw [jesprbChain, hrun]
            rfl
          by_cases hrc : rc < 0
          · rw [if_pos hrc] at hturn
            refine ⟨b :: textBlocks (fun m => js.read 0 m w.buf) jobkey k (number (window b 0 4)), rc,
              {w₁ with buf := b, x}, Loop.run_leave (textTurn_leave (hnext.trans hturn)) (k + 1), ?_,
              fun disk hdisk => ?_⟩
            · rw [hstep, if_pos hrc]
            · have hsame : (fun m => js.read 0 m w.buf) = disk := funext fun m => hdisk.reads 0 m w.buf hbuf
              rw [hsame, hhere disk hdisk, if_pos htext]
          · rw [if_neg hrc] at hturn
            obtain ⟨blocks, rc', w', hrest, hchain, hstable⟩ := @ih
              {w₁ with mttr := number (window b 0 4), buf := b, x} (by rw [hw₁]; dsimp only; omega) hb hokx
            refine ⟨b :: blocks, rc', w', ?_, ?_, fun disk hdisk => ?_⟩
            · rw [Loop.run_again (textTurn_again (hnext.trans hturn))]
              exact hrest
            · rw [hstep, if_neg hrc]
              exact hchain
            · rw [hhere disk hdisk, if_pos htext, hstable disk hdisk]
        · rw [if_neg htext] at hblock
          refine ⟨[], 0, {w₁ with buf := b}, Loop.run_leave (textTurn_leave (hnext.trans hblock)) (k + 1),
            by rw [hw₁]; rfl, fun disk hdisk => ?_⟩
          rw [hhere disk hdisk, if_neg htext]

/-- The context `process_intxt()` begins with. -/
def startCtx (owner : List UInt8) (jesdd : List Jesdd) : Ctx := {owner, jesdd, count := jesdd.length}

theorem startCtx_right {owner : List UInt8} {jesdd : List Jesdd} (howner : Short 8 9 owner) (hdds : Listed jesdd) :
    (startCtx owner jesdd).Right where
  owner := howner
  listed := hdds
  jobname := .zero 8 (by decide)
  userid := .zero 8 (by decide)
  stepname := .zero 8 (by decide)
  procstep := .zero 8 (by decide)
  program := .zero 8 (by decide)
  ddname := .zero 8 (by decide)
  dsname := .zero 44 (by decide)
  sysout := .zero 4 (by decide)

/-- The lines of some blocks, handed out one after another. -/
def linesOf (frame : Frame) (calloc : Nat → Bool) (ctx₀ : Ctx) (blocks : List (List UInt8)) : List (List UInt8) :=
  (jesprbChain (emit frame) calloc blocks (fresh (some ctx₀))).elim [] fun r => r.2.handed.map Call.line

/-- **`process_intxt()` reads statements**, and comes to an end. -/
theorem processIntxt_reads {size : Nat} (hsize : 10 ≤ size) (reads mttr : Nat) {owner : List UInt8}
    {jesdd : List Jesdd} (howner : Short 8 9 owner) (hdds : Listed jesdd) :
    ∃ reads' ctx blocks, processIntxt frame calloc js jobkey size reads mttr owner jesdd = some (reads', ctx) ∧
      Reads frame (startCtx owner jesdd) (linesOf frame calloc (startCtx owner jesdd) blocks) ctx ∧
      ∀ disk, Stable js size disk → blocks = textBlocks disk jobkey maxBlk mttr := by
  obtain ⟨w, hw⟩ : ∃ w : TextWalk, w =
      {mttr, reads, buf := List.replicate size 0, x := fresh (some (startCtx owner jesdd))} := ⟨_, rfl⟩
  obtain ⟨blocks, rc, w', hrun, hwalked⟩ := @texts_run frame calloc js jobkey size hsize maxBlk w
    (by rw [hw]; exact Nat.zero_add _) (by rw [hw]; exact List.length_replicate) (by rw [hw]; exact Jes2.fresh_ok _)
  have hchain : jesprbChain (emit frame) calloc blocks (fresh (some (startCtx owner jesdd))) = some (rc, w'.x) := by
    have h := hwalked.chain
    rw [hw] at h
    exact h
  have hstart : Told frame (startCtx owner jesdd) (some (startCtx owner jesdd)) [] :=
    ⟨_, rfl, rfl, startCtx_right howner hdds, rfl, rfl, rfl⟩
  obtain ⟨ctx, hctx, hreads⟩ := Jes2.jesprbChain_says (P := Told frame (startCtx owner jesdd)) (emit_quiet frame)
    (told_next frame (startCtx owner jesdd)) hstart hchain
  refine ⟨w'.reads, ctx, blocks, ?_, ?_, fun disk hdisk => ?_⟩
  · rw [hw] at hrun
    unfold startCtx at hrun
    simp only [processIntxt, hrun, Option.bind_eq_bind, Option.bind_some]
    rw [hctx]
    rfl
  · rw [linesOf, hchain]
    exact hreads
  · have h := hwalked.stable disk hdisk
    rw [hw] at h
    exact h

end Libc370.Jesjob
