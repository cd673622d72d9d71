import Libc370.Jes2.JobSets

/-! The data sets of a job, from its chains of IOTs to the list its caller gets.

Whatever is on the spool, the list that comes is in order, each data set in it with a number
of its own and with a DD name; only a chain that is longer than it is gone along has no
result. On a spool that does not change, the chains and the internal text say what is under
each number. -/
namespace Libc370.Jesjob

open Jes2 (Spool maxBlk)
open Libc370.Bytes

variable {frame : Frame} {calloc : Nat → Bool} {cp : Checkpoint} {js : Spool} {fuel : Nat} {dd : Bool}
  {jobname jobid owner : List UInt8} {disk : Nat → Option (List UInt8)}

/-! ### The list behind the chains -/

/-- The PDDBs of some IOTs that are in use. -/
def listedPddbs (cp : Checkpoint) (bs : List (List UInt8)) : List Pddb := bs.flatMap fun b => inUse (pddbsIn cp b)

theorem firstPddb_append (ps ps' : List Pddb) (k : Nat) :
    firstPddb (ps ++ ps') k = (firstPddb ps k).or (firstPddb ps' k) := List.find?_append

/-- What some PDDBs make of a list: under a number that is new, the first of them that has it. -/
def ListsFrom (jobname jobid : List UInt8) (ps : List Pddb) (dds dds' : List Jesdd) : Prop := ∀ k,
  lookup (dds'.map Jesdd.view) k =
    (lookup (dds.map Jesdd.view) k).or ((firstPddb ps k).map (.ofPddb (str jobname) (str jobid)))

theorem ListsFrom.trans {ps ps' : List Pddb} {dds dds' dds'' : List Jesdd} (h : ListsFrom jobname jobid ps dds dds')
    (h' : ListsFrom jobname jobid ps' dds' dds'') : ListsFrom jobname jobid (ps ++ ps') dds dds'' := fun k => by
  rw [h' k, h k, Option.or_assoc, firstPddb_append, Option.map_or]

theorem listBody_does (hjobname : Short 8 9 jobname) (hjobid : Short 8 9 jobid) :
    BodyDoes (listBody jobname jobid) Sets fun ps dds dds' last =>
      last = false ∧ ListsFrom jobname jobid (inUse ps) dds dds' := by
  intro reads ps dds hps hdds
  obtain ⟨dds', hdds', hsets, hlookup⟩ := addPddbs_view hjobname hjobid ps hps hdds
  refine ⟨reads, dds', false, ?_, hsets, rfl, hlookup⟩
  rw [listBody, hdds']
  rfl

/-- A chain is listed to its end. -/
theorem along_lists {pss : List (List Pddb)} {dds dds' : List Jesdd}
    (h : Along (fun ps dds dds' last => last = false ∧ ListsFrom jobname jobid (inUse ps) dds dds') pss dds dds') :
    ListsFrom jobname jobid (pss.flatMap inUse) dds dds' := by
  induction h with
  | nil dds => exact fun k => Option.or_none.symm
  | last h => exact absurd h.1 (by decide)
  | more h hrest ih =>
    rw [List.flatMap_cons]
    exact h.2.trans ih

/-! ### The names in the internal text -/

/-- The owner and the data sets, around the internal text. -/
structure Owned (s : List UInt8 × List Jesdd) : Prop where
  owner : Short 8 9 s.1
  sets : Sets s.2

/-- The PDDB of the internal text. -/
def textPddb (ps : List Pddb) : Option Pddb := ps.find? fun pddb => pddb.dskey = PDBINTXT

/-- What the internal text makes of a data set: `s` has the owner and the list it is read with. -/
def textNames (frame : Frame) (calloc : Nat → Bool) (disk : Nat → Option (List UInt8)) (jobkey : Nat)
    (s : List UInt8 × List Jesdd) (text : Option Pddb) (d : DataSet) : DataSet :=
  text.elim d fun pddb =>
    let ctx := startCtx s.1 s.2
    relabel (statements frame ctx (linesOf frame calloc ctx (textBlocks disk jobkey maxBlk pddb.mttr))) {} d

theorem textNames_dsid (jobkey : Nat) (s : List UInt8 × List Jesdd) (text : Option Pddb) (d : DataSet) :
    (textNames frame calloc disk jobkey s text d).dsid = d.dsid := by
  cases text with
  | none => rfl
  | some pddb => exact relabel_dsid _ _ d

/-- What an IOT does to the data sets: the internal text is read where it has one, and the walk goes on
if it has none, or if there is nothing to name. -/
structure TextRead (frame : Frame) (calloc : Nat → Bool) (js : Spool) (size jobkey : Nat) (ps : List Pddb)
    (s s' : List UInt8 × List Jesdd) (last : Bool) : Prop where
  view : ∀ disk, Stable js size disk →
    s'.2.map Jesdd.view = (s.2.map Jesdd.view).map (textNames frame calloc disk jobkey s (textPddb ps))
  keeps : textPddb ps = none → s' = s ∧ last = false
  stops : textPddb ps ≠ none → s.2 ≠ [] → last = true

theorem textBody_does (jobkey : Nat) :
    BodyDoes (textBody frame calloc js cp jobkey) Owned (TextRead frame calloc js cp.hct.bufsize jobkey) := by
  intro reads ps s _ hs
  unfold textBody
  cases htext : textPddb ps with
  | none =>
    refine ⟨reads, s, false, ?_, hs, fun disk _ => ?_, fun _ => ⟨rfl, rfl⟩, fun hne => absurd htext hne⟩
    · rw [textPddb] at htext
      rw [htext]
    · rw [htext]
      exact (List.map_id' _).symm
  | some pddb =>
    have hjct := cp.jct
    obtain ⟨reads', ctx, blocks, hrun, hreads, hblocks⟩ := @processIntxt_reads frame calloc js jobkey cp.hct.bufsize
      (by omega) reads pddb.mttr s.1 s.2 hs.owner hs.sets.toListed
    have hids : ctx.jesdd.map Jesdd.dsid = s.2.map Jesdd.dsid := hreads.dsids
    have hcount : ctx.count = s.2.length := hreads.count
    refine ⟨reads', (ctx.owner, ctx.jesdd), ctx.count ≠ 0, ?_,
      ⟨hreads.right.owner, hreads.right.listed, hids ▸ hs.sets.dsids⟩, fun disk hdisk => ?_, fun hnone => ?_,
      fun _ hne => ?_⟩
    · rw [textPddb] at htext
      rw [htext]
      dsimp only
      rw [hrun]
      rfl
    · have hview : ctx.jesdd.map Jesdd.view = _ := congrArg Reading.sets hreads.view
      rw [readAll_sets, hblocks disk hdisk] at hview
      rw [htext]
      exact hview
    · rw [htext] at hnone
      cases hnone
    · rw [hcount]
      exact decide_eq_true (mt List.length_eq_zero_iff.mp hne)

/-- Along a chain the first internal text is read. -/
theorem along_text {size jobkey : Nat} (hdisk : Stable js size disk) {pss : List (List Pddb)}
    {s s' : List UInt8 × List Jesdd} (h : Along (TextRead frame calloc js size jobkey) pss s s') :
    s'.2.map Jesdd.view =
      (s.2.map Jesdd.view).map (textNames frame calloc disk jobkey s (pss.findSome? textPddb)) := by
  induction h with
  | nil s => exact (List.map_id' _).symm
  | @last ps rest s s' h =>
    cases htext : textPddb ps with
    | none => exact absurd (h.keeps htext).2 (by decide)
    | some pddb => rw [List.findSome?_cons, htext, h.view disk hdisk, htext]
  | @more ps rest s s' s'' h hrest ih =>
    cases htext : textPddb ps with
    | none =>
      obtain rfl := (h.keeps htext).1
      rw [List.findSome?_cons, htext, ih]
    | some pddb =>
      -- the walk has gone on, so there was nothing to name
      have hnil : s.2 = [] := by
        by_contra hne
        exact absurd (h.stops (by rw [htext]; exact Option.some_ne_none pddb) hne) (by decide)
      rw [ih, h.view disk hdisk, hnil]
      rfl

/-! ### Any spool -/

theorem bind_of_ok {α β : Type} {x : Got α} {a : α} (h : x = .ok a) (f : α → Got β) : (x >>= f) = f a := by
  rw [h]
  rfl

/-- A step that comes to a result, or has gone along a chain as far as it may. -/
def Comes {α : Type} (P : α → Prop) (x : Got α) : Prop := x = .error .endless ∨ ∃ a, x = .ok a ∧ P a

theorem Comes.bind {α β : Type} {P : α → Prop} {Q : β → Prop} {x : Got α} {f : α → Got β} (h : Comes P x)
    (hf : ∀ a, P a → Comes Q (f a)) : Comes Q (x >>= f) := by
  rcases h with hendless | ⟨a, ha, hP⟩
  · exact .inl (by rw [hendless]; rfl)
  · rw [bind_of_ok ha]
    exact hf a hP

theorem listIots_safe (hjobname : Short 8 9 jobname) (hjobid : Short 8 9 jobid) (mttr : Nat)
    {w : IotWalk (List Jesdd)} (h : w.Ok cp Sets) :
    Comes (IotWalk.Ok cp Sets) (listIots cp js fuel dd jobname jobid mttr w) := by
  unfold listIots
  split_ifs
  · exact iots_safe (listBody_does hjobname hjobid) fuel ⟨h.size, h.inv⟩
  · exact .inr ⟨w, rfl, h⟩

theorem readText_safe (jct : Jct) {w : IotWalk (List UInt8 × List Jesdd)} (h : w.Ok cp Owned) :
    Comes (IotWalk.Ok cp Owned) (readText frame calloc cp js fuel dd jct w) := by
  unfold readText
  split_ifs
  · exact iots_safe (textBody_does jct.jbkey) fuel ⟨h.size, h.inv⟩
  · exact .inr ⟨w, rfl, h⟩

/-- What is left to do when the text has been read. -/
theorem finish_eq {w : IotWalk (List UInt8 × List Jesdd)} {named sorted : List Jesdd}
    (hnamed : w.s.2.mapM (fakeName jobid) = some named) (hsorted : sortJesdd named = some sorted) :
    (do
      let jesdd ← got (w.s.2.mapM (fakeName jobid))
      let jesdd ← got (sortJesdd jesdd)
      return {w with s := (w.s.1, jesdd)} : Got (IotWalk (List UInt8 × List Jesdd))) =
    .ok {w with s := (w.s.1, sorted)} := by
  have hname : got (w.s.2.mapM (fakeName jobid)) = .ok named := congrArg got hnamed
  have hsort : got (sortJesdd named) = .ok sorted := congrArg got hsorted
  rw [bind_of_ok hname, bind_of_ok hsort]
  rfl

/-- **The data sets of a job, on any spool**: the list that comes is in order, each data set in it with a number of its
own and with a name, and the owner's name ends in its field. -/
theorem jobSets_safe (jct : Jct) (hjobname : Short 8 9 jobname) (hjobid : Short 8 9 jobid) (howner : Short 8 9 owner)
    {b : Buffers} (hb : b.iotbuf.length = cp.hct.bufsize) :
    Comes (fun w => w.iotbuf.length = cp.hct.bufsize ∧ Short 8 9 w.s.1 ∧ Listing w.s.2)
      (jobSets frame calloc cp js fuel dd jct jobname jobid owner b) := by
  have hstart : IotWalk.Ok cp Sets ⟨0, b.reads, b.iotbuf, []⟩ := ⟨hb, .nil⟩
  refine (listIots_safe hjobname hjobid jct.iot hstart).bind fun w₁ hok₁ => ?_
  refine (listIots_safe hjobname hjobid jct.spiot hok₁).bind fun w₂ hok₂ => ?_
  have howned : IotWalk.Ok cp Owned ⟨w₂.mttr, w₂.reads, w₂.iotbuf, (owner, w₂.s)⟩ := ⟨hok₂.size, howner, hok₂.inv⟩
  refine (readText_safe jct howned).bind fun w hok => ?_
  obtain ⟨named, sorted, hnamed, hsorted, hlisting, -⟩ := listing_spec hok.inv.sets hjobid
  exact .inr ⟨{w with s := (w.s.1, sorted)}, finish_eq hnamed hsorted, hok.size, hok.inv.owner, hlisting⟩

/-! ### A spool that does not change -/

theorem listIots_stable (hdisk : Stable js cp.hct.bufsize disk) (hjobname : Short 8 9 jobname)
    (hjobid : Short 8 9 jobid) {mttr : Nat} {bs : List (List UInt8)} (hchain : IotChain disk mttr bs)
    (hfuel : bs.length < fuel) {w : IotWalk (List Jesdd)} (h : w.Ok cp Sets) :
    ∃ w', listIots cp js fuel true jobname jobid mttr w = .ok w' ∧ w'.Ok cp Sets ∧
      ListsFrom jobname jobid (listedPddbs cp bs) w.s w'.s := by
  obtain ⟨w', hrun, hok, halong⟩ := iots_stable (listBody_does hjobname hjobid) hdisk hchain hfuel
    (w := {w with mttr}) ⟨h.size, h.inv⟩ rfl
  refine ⟨w', ?_, hok, ?_⟩
  · rw [listIots, if_pos rfl]
    exact hrun
  · have hlists := along_lists halong
    rw [List.flatMap_map] at hlists
    exact hlists

theorem readText_stable (hdisk : Stable js cp.hct.bufsize disk) {jct : Jct} {bs : List (List UInt8)}
    (hchain : IotChain disk jct.iot bs) (hfuel : bs.length < fuel) {w : IotWalk (List UInt8 × List Jesdd)}
    (h : w.Ok cp Owned) :
    ∃ w', readText frame calloc cp js fuel true jct w = .ok w' ∧ w'.Ok cp Owned ∧
      w'.s.2.map Jesdd.view = (w.s.2.map Jesdd.view).map
        (textNames frame calloc disk jct.jbkey w.s ((bs.map (pddbsIn cp)).findSome? textPddb)) := by
  obtain ⟨w', hrun, hok, halong⟩ := iots_stable (textBody_does jct.jbkey) hdisk hchain hfuel
    (w := {w with mttr := jct.iot}) ⟨h.size, h.inv⟩ rfl
  refine ⟨w', ?_, hok, along_text hdisk halong⟩
  rw [readText, if_pos (.inl rfl)]
  exact hrun

/-- **The data sets of a job, on a spool that does not change**: under each number there is the first PDDB in use of
the two chains that has it, with the names that the internal text has for it, or else with one that is made up. -/
theorem jobSets_stable (hdisk : Stable js cp.hct.bufsize disk) {jct : Jct} (hjobname : Short 8 9 jobname)
    (hjobid : Short 8 9 jobid) (howner : Short 8 9 owner) {b : Buffers} (hb : b.iotbuf.length = cp.hct.bufsize)
    {bs spin : List (List UInt8)} (hiot : IotChain disk jct.iot bs) (hspiot : IotChain disk jct.spiot spin)
    (hfuel : bs.length < fuel) (hspin : spin.length < fuel) :
    ∃ w dds, jobSets frame calloc cp js fuel true jct jobname jobid owner b = .ok w ∧ Listing w.s.2 ∧
      ListsFrom jobname jobid (listedPddbs cp bs ++ listedPddbs cp spin) [] dds ∧ ∀ k,
        lookup (w.s.2.map Jesdd.view) k = (firstPddb (listedPddbs cp bs ++ listedPddbs cp spin) k).map fun pddb =>
          (textNames frame calloc disk jct.jbkey (owner, dds) ((bs.map (pddbsIn cp)).findSome? textPddb)
            (.ofPddb (str jobname) (str jobid) pddb)).fake (str jobid) := by
  have hstart : IotWalk.Ok cp Sets ⟨0, b.reads, b.iotbuf, []⟩ := ⟨hb, .nil⟩
  obtain ⟨w₁, hrun₁, hok₁, hlists₁⟩ := listIots_stable hdisk hjobname hjobid hiot hfuel hstart
  obtain ⟨w₂, hrun₂, hok₂, hlists₂⟩ := listIots_stable hdisk hjobname hjobid hspiot hspin hok₁
  have howned : IotWalk.Ok cp Owned ⟨w₂.mttr, w₂.reads, w₂.iotbuf, (owner, w₂.s)⟩ := ⟨hok₂.size, howner, hok₂.inv⟩
  obtain ⟨w₃, hrun₃, hok₃, hview⟩ := @readText_stable frame calloc cp js fuel disk hdisk jct bs hiot hfuel _ howned
  obtain ⟨named, sorted, hnamed, hsorted, hlisting, hlookup⟩ := listing_spec hok₃.inv.sets hjobid
  refine ⟨{w₃ with s := (w₃.s.1, sorted)}, w₂.s, ?_, hlisting, hlists₁.trans hlists₂, fun k => ?_⟩
  · rw [jobSets, bind_of_ok hrun₁, bind_of_ok hrun₂, bind_of_ok hrun₃]
    exact finish_eq hnamed hsorted
  · have hlisted : lookup (w₂.s.map Jesdd.view) k =
        (firstPddb (listedPddbs cp bs ++ listedPddbs cp spin) k).map (.ofPddb (str jobname) (str jobid)) :=
      hlists₁.trans hlists₂ k
    rw [hlookup, hview, lookup_map (textNames_dsid _ _ _), hlisted, Option.map_map, Option.map_map]
    rfl

end Libc370.Jesjob
