import Libc370.Jes2.Pddbs

/-! The list of a job's data sets.

Two chains of IOTs are gone through, and then the internal text. On any spool the list that
comes out is one of data sets whose fields hold strings, each with a number of its own. On a
spool that does not change, it is told by what is under a number: the first PDDB of the
chains that has it, with the names the statements of the text have for it. -/
namespace Libc370.Jesjob

open Jes2 (read write field field_eq Spool maxBlk)
open Libc370.Bytes

/-! ### Lists by their numbers -/

/-- The data set with a number. -/
def lookup (ds : List DataSet) (k : Nat) : Option DataSet := ds.find? fun d => d.dsid = k

theorem lookup_none {ds : List DataSet} {k : Nat} : lookup ds k = none ↔ k ∉ ds.map DataSet.dsid := by
  simp [lookup]

theorem lookup_concat (ds : List DataSet) (d : DataSet) (k : Nat) :
    lookup (ds ++ [d]) k = (lookup ds k).or (if d.dsid = k then some d else none) := by
  rw [lookup, List.find?_append, List.find?_singleton]
  simp only [decide_eq_true_eq]
  rfl

/-- A change that keeps the numbers. -/
theorem lookup_map {f : DataSet → DataSet} (hf : ∀ d, (f d).dsid = d.dsid) (ds : List DataSet) (k : Nat) :
    lookup (ds.map f) k = (lookup ds k).map f := by
  rw [lookup, List.find?_map]
  have hsame : ((fun d : DataSet => decide (d.dsid = k)) ∘ f) = fun d => decide (d.dsid = k) :=
    funext fun d => by rw [Function.comp_apply, hf]
  rw [hsame]
  rfl

/-- In a list with distinct numbers, what is under a number is in the list. -/
theorem lookup_some {ds : List DataSet} (h : (ds.map DataSet.dsid).Nodup) {k : Nat} {d : DataSet} :
    lookup ds k = some d ↔ d ∈ ds ∧ d.dsid = k := by
  constructor
  · intro hd
    exact ⟨List.mem_of_find?_eq_some hd, by simpa using List.find?_some hd⟩
  · rintro ⟨hd, rfl⟩
    cases hfound : lookup ds d.dsid with
    | none => exact absurd (List.mem_map_of_mem hd) (lookup_none.mp hfound)
    | some d' =>
      have hmem : d' ∈ ds := List.mem_of_find?_eq_some hfound
      have hsame : d'.dsid = d.dsid := by simpa using List.find?_some hfound
      rw [List.inj_on_of_nodup_map h hmem hd hsame]

/-- The order of the list is of no matter. -/
theorem lookup_perm {ds ds' : List DataSet} (hperm : ds'.Perm ds) (h : (ds.map DataSet.dsid).Nodup) (k : Nat) :
    lookup ds' k = lookup ds k := by
  have h' : (ds'.map DataSet.dsid).Nodup := (hperm.map DataSet.dsid).nodup_iff.mpr h
  refine Option.ext fun d => ?_
  rw [lookup_some h', lookup_some h, hperm.mem_iff]

theorem map_view_dsid (dds : List Jesdd) : (dds.map Jesdd.view).map DataSet.dsid = dds.map Jesdd.dsid := by
  rw [List.map_map]
  rfl

/-! ### The PDDBs of an IOT -/

/-- A list of data sets, each with a number of its own that a PDDB may have. -/
structure Sets (dds : List Jesdd) : Prop extends Listed dds where
  dsids : ∀ k ∈ dds.map Jesdd.dsid, 0 < k ∧ k < 2 ^ 16

theorem Sets.nil : Sets [] := ⟨⟨fun _ h => absurd h List.not_mem_nil, List.nodup_nil⟩, fun _ h => absurd h
  List.not_mem_nil⟩

/-- The PDDBs of an IOT that are in use: they end with the first one that has no number. -/
def inUse (ps : List Pddb) : List Pddb := (ps.takeWhile fun p => p.dskey ≠ 0).filter fun p => p.mttr ≠ 0

/-- The first one with a number. -/
def firstPddb (ps : List Pddb) (k : Nat) : Option Pddb := ps.find? fun p => p.dskey = k

theorem firstPddb_cons (p : Pddb) (ps : List Pddb) (k : Nat) :
    firstPddb (p :: ps) k = if p.dskey = k then some p else firstPddb ps k := by
  by_cases h : p.dskey = k <;> simp [firstPddb, h]

theorem inUse_cons {p : Pddb} (ps : List Pddb) (h : p.dskey ≠ 0) :
    inUse (p :: ps) = if p.mttr = 0 then inUse ps else p :: inUse ps := by
  rw [inUse, List.takeWhile_cons_of_pos (by simpa using h), List.filter_cons]
  by_cases hmttr : p.mttr = 0 <;> simp [hmttr, inUse]

theorem isDup_iff (dds : List Jesdd) (k : Nat) : isDupDsid dds k = true ↔ k ∈ dds.map Jesdd.dsid := by
  simp [isDupDsid]

/-- **The PDDBs of an IOT are listed**, those whose number is not listed already. -/
theorem addPddbs_view {jobname jobid : List UInt8} (hjobname : Short 8 9 jobname) (hjobid : Short 8 9 jobid)
    (ps : List Pddb) (hps : ∀ p ∈ ps, p.Right) {dds : List Jesdd} (h : Sets dds) :
    ∃ dds', addPddbs jobname jobid ps dds = some dds' ∧ Sets dds' ∧ ∀ k, lookup (dds'.map Jesdd.view) k =
      (lookup (dds.map Jesdd.view) k).or ((firstPddb (inUse ps) k).map (.ofPddb (str jobname) (str jobid))) := by
  induction ps generalizing dds with
  | nil => exact ⟨dds, rfl, h, fun k => (Option.or_none).symm⟩
  | cons p ps ih =>
    obtain ⟨hp, hrest⟩ := List.forall_mem_cons.mp hps
    rw [addPddbs]
    by_cases hzero : p.dskey = 0
    · refine ⟨dds, if_pos hzero, h, fun k => ?_⟩
      have hnone : inUse (p :: ps) = [] := by
        rw [inUse, List.takeWhile_cons_of_neg (by simpa using hzero)]
        rfl
      rw [hnone]
      exact (Option.or_none).symm
    · rw [if_neg hzero, inUse_cons ps hzero]
      by_cases hmttr : p.mttr = 0
      · rw [if_pos (.inl hmttr), if_pos hmttr]
        exact ih hrest h
      · rw [if_neg hmttr]
        by_cases hdup : isDupDsid dds p.dskey = true
        · obtain ⟨dds', hdds', hsets, hlookup⟩ := ih hrest h
          refine ⟨dds', (if_pos (.inr hdup)).trans hdds', hsets, fun k => ?_⟩
          rw [hlookup]
          by_cases hk : p.dskey = k
          · have hlisted : lookup (dds.map Jesdd.view) k ≠ none := by
              rw [Ne, lookup_none, map_view_dsid, not_not, ← hk]
              exact (isDup_iff dds p.dskey).mp hdup
            obtain ⟨d, hd⟩ := Option.ne_none_iff_exists'.mp hlisted
            rw [hd]
            rfl
          · rw [firstPddb_cons, if_neg hk]
        · obtain ⟨dd, hdd, hright, hdsid, hview⟩ := processPddb_view hp hjobname hjobid
          have hnew : dd.dsid ∉ dds.map Jesdd.dsid := by
            rw [hdsid]
            exact fun hmem => hdup ((isDup_iff dds p.dskey).mpr hmem)
          have hmore : Sets (dds ++ [dd]) := by
            refine ⟨⟨fun d hd => ?_, ?_⟩, fun k hk => ?_⟩
            · rcases List.mem_append.mp hd with hd | hd
              · exact h.right d hd
              · rw [List.mem_singleton.mp hd]
                exact hright
            · rw [List.map_append]
              exact List.nodup_append.mpr ⟨h.distinct, List.nodup_singleton _, fun a ha b hb hab =>
                hnew (by rw [← List.mem_singleton.mp hb, ← hab]; exact ha)⟩
            · rw [List.map_append] at hk
              rcases List.mem_append.mp hk with hk | hk
              · exact h.dsids k hk
              · obtain rfl : k = dd.dsid := by simpa using hk
                have hlt := hp.dskey
                omega
          obtain ⟨dds', hdds', hsets, hlookup⟩ := ih hrest hmore
          refine ⟨dds', ?_, hsets, fun k => ?_⟩
          · rw [if_neg (not_or.mpr ⟨hmttr, hdup⟩), hdd]
            exact hdds'
          · rw [hlookup, List.map_append, List.map_singleton, lookup_concat, Option.or_assoc, hview]
            congr 1
            rw [DataSet.ofPddb_dsid, firstPddb_cons]
            by_cases hk : p.dskey = k
            · rw [if_pos hk, if_pos hk]
              rfl
            · rw [if_neg hk, if_neg hk]
              rfl

/-! ### Chains of IOTs -/

/-- The PDDBs of a block. -/
def pddbsIn (cp : Checkpoint) (b : List UInt8) : List Pddb := (pddbsOf cp b).getD []

/-- The IOTs from `mttr` on, on a spool that does not change: they end where one cannot be read, too. -/
inductive IotChain (disk : Nat → Option (List UInt8)) : Nat → List (List UInt8) → Prop
  | zero : IotChain disk 0 []
  | fails {mttr : Nat} (hmttr : mttr ≠ 0) (hread : disk mttr = none) : IotChain disk mttr []
  | block {mttr : Nat} {b : List UInt8} {bs : List (List UInt8)} (hmttr : mttr ≠ 0) (hread : disk mttr = some b)
      (rest : IotChain disk (number (window b 0x10 4)) bs) : IotChain disk mttr (b :: bs)

section Iots

variable {σ : Type} {cp : Checkpoint} {js : Spool} {body : Nat → List Pddb → σ → Option (Nat × σ × Bool)}

/-- What the body of a loop over IOTs is good for: it comes to a result, with `Post` between the state before and behind. -/
def BodyDoes (body : Nat → List Pddb → σ → Option (Nat × σ × Bool)) (Inv : σ → Prop)
    (Post : List Pddb → σ → σ → Bool → Prop) : Prop :=
  ∀ reads ps s, (∀ p ∈ ps, Pddb.Right p) → Inv s →
    ∃ reads' s' last, body reads ps s = some (reads', s', last) ∧ Inv s' ∧ Post ps s s' last

/-- The states along some IOTs, up to the last one. -/
inductive Along (Post : List Pddb → σ → σ → Bool → Prop) : List (List Pddb) → σ → σ → Prop
  | nil (s : σ) : Along Post [] s s
  | last {ps : List Pddb} {rest : List (List Pddb)} {s s' : σ} (h : Post ps s s' true) : Along Post (ps :: rest) s s'
  | more {ps : List Pddb} {rest : List (List Pddb)} {s s' s'' : σ} (h : Post ps s s' false) (hrest : Along Post rest s' s'') :
      Along Post (ps :: rest) s s''

/-- A walk over IOTs with a buffer as it was made. -/
structure IotWalk.Ok (cp : Checkpoint) (Inv : σ → Prop) (w : IotWalk σ) : Prop where
  size : w.iotbuf.length = cp.hct.bufsize
  inv : Inv w.s

theorem iotTurn_zero {w : IotWalk σ} (h : w.mttr = 0) : iotTurn cp js body w = .leave (.ok w) := if_pos h

theorem iotTurn_fails {w : IotWalk σ} (h : w.mttr ≠ 0) (hread : js.read w.reads w.mttr w.iotbuf = none) :
    iotTurn cp js body w = .leave (.ok {w with reads := w.reads + 1}) := by
  rw [iotTurn, if_neg h, hread]

variable {Inv : σ → Prop} {Post : List Pddb → σ → σ → Bool → Prop} (hbody : BodyDoes body Inv Post)

include hbody

/-- An IOT that is read: the walk leaves with it, or goes on to the next one. -/
theorem iotTurn_reads {w : IotWalk σ} (h : w.Ok cp Inv) (hmttr : w.mttr ≠ 0) {b : List UInt8}
    (hread : js.read w.reads w.mttr w.iotbuf = some b) :
    ∃ s' reads, Inv s' ∧
      ((Post (pddbsIn cp b) w.s s' true ∧ iotTurn cp js body w = .leave (.ok {w with iotbuf := b, reads, s := s'})) ∨
        (Post (pddbsIn cp b) w.s s' false ∧ iotTurn cp js body w =
          .again {mttr := number (window b 0x10 4), iotbuf := b, reads, s := s'})) := by
  have hjct := cp.jct
  have hb : b.length = cp.hct.bufsize := (js.fills hread).trans h.size
  obtain ⟨ps, hps, hright⟩ := pddbsOf_right hb
  have hnext : field b 0x10 4 = some (number (window b 0x10 4)) := field_eq (by omega)
  have hin : pddbsIn cp b = ps := by rw [pddbsIn, hps]; rfl
  obtain ⟨reads, s', last, hbody', hinv, hpost⟩ := hbody (w.reads + 1) ps w.s hright h.inv
  have hblock : iotBlock cp body {w with iotbuf := b, reads := w.reads + 1} =
      if last then some (.leave {w with iotbuf := b, reads, s := s'})
      else some (.again {mttr := number (window b 0x10 4), iotbuf := b, reads, s := s'}) := by
    simp only [iotBlock, hps, hbody', hnext, Option.bind_eq_bind, Option.bind_some]
    rfl
  rw [hin]
  refine ⟨s', reads, hinv, ?_⟩
  rw [iotTurn, if_neg hmttr, hread]
  dsimp only
  rw [hblock]
  cases last with
  | true => exact .inl ⟨hpost, rfl⟩
  | false => exact .inr ⟨hpost, rfl⟩

/-- **Any spool**: the loop comes to a result, unless the chain is longer than it goes along. -/
theorem iots_safe (fuel : Nat) {w : IotWalk σ} (h : w.Ok cp Inv) :
    Loop.run (fun _ => .error .endless) (iotTurn cp js body) fuel w = .error .endless ∨
      ∃ w', Loop.run (fun _ => .error .endless) (iotTurn cp js body) fuel w = .ok w' ∧ w'.Ok cp Inv := by
  induction fuel generalizing w with
  | zero => exact .inl rfl
  | succ fuel ih =>
    by_cases hmttr : w.mttr = 0
    · exact .inr ⟨w, Loop.run_leave (iotTurn_zero hmttr) fuel, h⟩
    · cases hread : js.read w.reads w.mttr w.iotbuf with
      | none => exact .inr ⟨_, Loop.run_leave (iotTurn_fails hmttr hread) fuel, h.size, h.inv⟩
      | some b =>
        have hb : b.length = cp.hct.bufsize := (js.fills hread).trans h.size
        obtain ⟨s', reads, hinv, ⟨-, hturn⟩ | ⟨-, hturn⟩⟩ := iotTurn_reads hbody h hmttr hread
        · exact .inr ⟨_, Loop.run_leave hturn fuel, hb, hinv⟩
        · rw [Loop.run_again hturn]
          exact ih ⟨hb, hinv⟩

/-- **A spool that does not change**: the loop goes along the chain, to its end or to the last IOT it needs. -/
theorem iots_stable {disk : Nat → Option (List UInt8)} (hdisk : Stable js cp.hct.bufsize disk) {mttr : Nat}
    {bs : List (List UInt8)} (hchain : IotChain disk mttr bs) {fuel : Nat} (hfuel : bs.length < fuel) {w : IotWalk σ}
    (h : w.Ok cp Inv) (hmttr : w.mttr = mttr) :
    ∃ w', Loop.run (fun _ => .error .endless) (iotTurn cp js body) fuel w = .ok w' ∧ w'.Ok cp Inv ∧
      Along Post (bs.map (pddbsIn cp)) w.s w'.s := by
  obtain ⟨fuel, rfl⟩ : ∃ k, fuel = k + 1 := ⟨fuel - 1, by omega⟩
  induction hchain generalizing w fuel with
  | zero => exact ⟨w, Loop.run_leave (iotTurn_zero hmttr) fuel, h, .nil w.s⟩
  | fails hne hread =>
    have hnone : js.read w.reads w.mttr w.iotbuf = none := by rw [hdisk.reads _ _ _ h.size, hmttr, hread]
    exact ⟨_, Loop.run_leave (iotTurn_fails (hmttr ▸ hne) hnone) fuel, ⟨h.size, h.inv⟩, .nil w.s⟩
  | @block mttr b bs hne hread rest ih =>
    have hsome : js.read w.reads w.mttr w.iotbuf = some b := by rw [hdisk.reads _ _ _ h.size, hmttr, hread]
    have hb : b.length = cp.hct.bufsize := (js.fills hsome).trans h.size
    rw [List.length_cons] at hfuel
    obtain ⟨s', reads, hinv, ⟨hpost, hturn⟩ | ⟨hpost, hturn⟩⟩ := iotTurn_reads hbody h (hmttr ▸ hne) hsome
    · exact ⟨_, Loop.run_leave hturn fuel, ⟨hb, hinv⟩, .last hpost⟩
    · obtain ⟨fuel, rfl⟩ : ∃ k, fuel = k + 1 := ⟨fuel - 1, by omega⟩
      obtain ⟨w', hrun, hok, halong⟩ := ih (w := {mttr := number (window b 0x10 4), iotbuf := b, reads, s := s'})
        ⟨hb, hinv⟩ rfl fuel (by omega)
      refine ⟨w', ?_, hok, .more hpost halong⟩
      rw [Loop.run_again hturn]
      exact hrun

end Iots

end Libc370.Jesjob
