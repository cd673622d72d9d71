import Libc370.Jes2.Listing

/-! What becomes of the data sets of a job once they are listed.

A statement of the internal text does to a list what it does to each data set. After the
text a data set without a DD name gets one that is made up, and the list is sorted by
number, so that it is told by what is under each number. -/
namespace Libc370.Jesjob

open Jes2 (read write field field_eq Spool maxBlk)
open Libc370.Bytes

/-! ### What a statement says of one data set -/

/-- The step a statement is in. -/
structure Scope where
  stepname : List UInt8 := []
  procstep : List UInt8 := []

def Statement.scope : Statement → Scope → Scope
  | exec true name, sc => {sc with procstep := name}
  | exec false name, _ => ⟨name, []⟩
  | _, sc => sc

/-- What a name that is for a data set of the spool does to a data set. -/
def nameSet (kind : Char) (set : DataSet → DataSet) (l : Label) (d : DataSet) : DataSet :=
  (dsidOf kind l.dsname).elim d fun k => onDsid k (fun d => set (d.named l)) d

/-- What a statement does to a data set. -/
def Statement.onSet : Statement → Scope → DataSet → DataSet
  | dd ddname dsname sysout sysin, sc, d =>
    let l : Label := ⟨ddname, dsname, sc.stepname, sc.procstep⟩
    let d := if sysout ≠ 0 then nameSet 'O' (DataSet.sysout sysout) l d else d
    if sysin then nameSet 'I' DataSet.sysin l d else d
  | _, _, d => d

/-- What some statements do to a data set, one after another. -/
def relabel : List Statement → Scope → DataSet → DataSet
  | [], _, d => d
  | s :: ss, sc, d => relabel ss (s.scope sc) (s.onSet sc d)

theorem nameSets_eq (kind : Char) (set : DataSet → DataSet) (l : Label) (ds : List DataSet) :
    nameSets kind set l ds = ds.map (nameSet kind set l) := by
  have hsame : nameSets kind set l ds = (dsidOf kind l.dsname).elim ds fun dsid =>
      ds.map (onDsid dsid fun d => set (d.named l)) := by
    rw [nameSets]
    cases dsidOf kind l.dsname <;> rfl
  rw [hsame]
  unfold nameSet
  cases dsidOf kind l.dsname with
  | none => exact (List.map_id' ds).symm
  | some k => rfl

def Reading.scope (r : Reading) : Scope := ⟨r.stepname, r.procstep⟩

/-- A statement does to the data sets what it does to each of them. -/
theorem Statement.does_sets (s : Statement) (r : Reading) :
    (s.does r).sets = r.sets.map (s.onSet r.scope) ∧ (s.does r).scope = s.scope r.scope := by
  cases s with
  | job userid => exact ⟨(List.map_id' r.sets).symm, rfl⟩
  | exec proc name =>
    cases proc <;> exact ⟨(List.map_id' r.sets).symm, rfl⟩
  | dd ddname dsname sysout sysin =>
    refine ⟨?_, rfl⟩
    have honSet : Statement.onSet (.dd ddname dsname sysout sysin) r.scope =
        (fun d => if sysin then nameSet 'I' DataSet.sysin ⟨ddname, dsname, r.stepname, r.procstep⟩ d else d) ∘
          fun d => if sysout ≠ 0 then
            nameSet 'O' (DataSet.sysout sysout) ⟨ddname, dsname, r.stepname, r.procstep⟩ d else d := rfl
    rw [honSet, ← List.map_map]
    simp only [Statement.does, nameSets_eq]
    by_cases hsysout : sysout ≠ 0 <;> cases sysin <;> simp [hsysout]
  | other => exact ⟨(List.map_id' r.sets).symm, rfl⟩

theorem readAll_sets (ss : List Statement) (r : Reading) : (readAll ss r).sets = r.sets.map (relabel ss r.scope) := by
  induction ss generalizing r with
  | nil => exact (List.map_id' r.sets).symm
  | cons s ss ih =>
    obtain ⟨hsets, hscope⟩ := s.does_sets r
    have hrest := ih (s.does r)
    rw [hsets, hscope, List.map_map] at hrest
    exact hrest

theorem nameSet_dsid (kind : Char) {set : DataSet → DataSet} (hset : ∀ d, (set d).dsid = d.dsid) (l : Label)
    (d : DataSet) : (nameSet kind set l d).dsid = d.dsid := by
  unfold nameSet
  cases dsidOf kind l.dsname with
  | none => rfl
  | some k =>
    simp only [Option.elim_some, onDsid]
    split_ifs
    · exact hset _
    · rfl

theorem DataSet.sysout_dsid (c : UInt8) (d : DataSet) : (d.sysout c).dsid = d.dsid := rfl

theorem DataSet.sysin_dsid (d : DataSet) : d.sysin.dsid = d.dsid := rfl

theorem Statement.onSet_dsid (s : Statement) (sc : Scope) (d : DataSet) : (s.onSet sc d).dsid = d.dsid := by
  cases s with
  | dd ddname dsname sysout sysin =>
    have hsysin (d : DataSet) : (nameSet 'I' DataSet.sysin ⟨ddname, dsname, sc.stepname, sc.procstep⟩ d).dsid = d.dsid :=
      nameSet_dsid 'I' DataSet.sysin_dsid _ d
    have hsysout (d : DataSet) : (nameSet 'O' (DataSet.sysout sysout) ⟨ddname, dsname, sc.stepname, sc.procstep⟩ d).dsid =
        d.dsid := nameSet_dsid 'O' (DataSet.sysout_dsid sysout) _ d
    unfold Statement.onSet
    dsimp only
    split_ifs
    · rw [hsysin, hsysout]
    · exact hsysin d
    · exact hsysout d
    · rfl
  | _ => rfl

theorem relabel_dsid (ss : List Statement) (sc : Scope) (d : DataSet) : (relabel ss sc d).dsid = d.dsid := by
  induction ss generalizing sc d with
  | nil => rfl
  | cons s ss ih => rw [relabel, ih, s.onSet_dsid]

/-! ### Names that are made up -/

/-- A DD name that is none. -/
def Unnamed (s : List UInt8) : Prop := s = [] ∨ s.head? = some blank

instance (s : List UInt8) : Decidable (Unnamed s) := inferInstanceAs (Decidable (_ ∨ _))

/-- A data set without a DD name gets one. -/
def DataSet.fake (jobid : List UInt8) (d : DataSet) : DataSet :=
  if Unnamed d.ddname then
    {d with
      ddname := literal "UNK" ++ padded 4 d.dsid
      dsname := literal "UNKNOWN." ++ jobid ++ literal ".SO" ++ padded 4 d.dsid}
  else d

theorem DataSet.fake_dsid (jobid : List UInt8) (d : DataSet) : (d.fake jobid).dsid = d.dsid := by
  unfold DataSet.fake
  split_ifs <;> rfl

theorem DataSet.fake_named (jobid : List UInt8) (d : DataSet) : ¬ Unnamed (d.fake jobid).ddname := by
  unfold DataSet.fake
  split_ifs with h
  · have hhead : (literal "UNK" ++ padded 4 d.dsid).head? = some (ebcdic 'U') := rfl
    rintro (hnil | hblank)
    · dsimp only at hnil
      rw [hnil] at hhead
      cases hhead
    · rw [hhead] at hblank
      exact absurd hblank (by decide)
  · exact h

theorem str_unnamed {f : List UInt8} {c : UInt8} (h : f.head? = some c) :
    (c = 0 ∨ c = blank) ↔ Unnamed (str f) := by
  refine or_congr (str_head h).symm ?_
  cases f with
  | nil => cases h
  | cons d f =>
    obtain rfl : d = c := Option.some.inj h
    by_cases hd : d = 0
    · rw [hd, str, List.takeWhile_cons_of_neg (by simp)]
      exact ⟨fun hzero => absurd hzero (by decide), fun hnone => absurd hnone.symm (Option.some_ne_none blank)⟩
    · rw [str, List.takeWhile_cons_of_pos (by simpa using hd), List.head?_cons, Option.some.injEq]

theorem fakeName_view {dd : Jesdd} (h : dd.Right) (hdsid : dd.dsid < 2 ^ 16) {jobid : List UInt8}
    (hjobid : Short 8 9 jobid) : ∃ dd', fakeName jobid dd = some dd' ∧ dd'.Right ∧
      dd'.view = dd.view.fake (str jobid) := by
  obtain ⟨c, hc⟩ := h.ddname.head
  have hunnamed := str_unnamed hc
  by_cases hnone : c = 0 ∨ c = blank
  · have hthree : Line 3 (literal "UNK") := ⟨by decide, by decide⟩
    have height : Line 8 (literal "UNKNOWN.") := ⟨by decide, by decide⟩
    have hnumber : Line 5 (padded 4 dd.dsid) := padded_line (by decide) (by omega) (by decide)
    have hdsname : Line 44 (literal "UNKNOWN." ++ str jobid ++ literal ".SO" ++ padded 4 dd.dsid) :=
      (((height.append hjobid.line).append (kind_line (.inr rfl))).append hnumber).mono (by decide)
    obtain ⟨f, hf, hshort, hstr⟩ := sprintf_short (f := dd.ddname) (hthree.append hnumber)
      (by rw [h.ddname.length]; decide)
    obtain ⟨g, hg, hshort', hstr'⟩ := sprintf_short (f := dd.dsname) hdsname (by rw [h.dsname.length]; decide)
    rw [h.ddname.length] at hshort
    rw [h.dsname.length] at hshort'
    refine ⟨{dd with ddname := f, dsname := g}, ?_, ⟨hshort, h.stepname, h.procstep, hshort'⟩, ?_⟩
    · simp only [fakeName, hc, Option.bind_eq_bind, Option.bind_some, if_pos hnone, cstr_eq hjobid, hf, hg]
      rfl
    · rw [DataSet.fake, if_pos (show Unnamed dd.view.ddname from hunnamed.mp hnone)]
      simp only [Jesdd.view, hstr, hstr']
  · refine ⟨dd, ?_, h, ?_⟩
    · simp only [fakeName, hc, Option.bind_eq_bind, Option.bind_some, if_neg hnone]
    · rw [DataSet.fake, if_neg (show ¬ Unnamed dd.view.ddname from mt hunnamed.mpr hnone)]

/-- Every data set of a list has a name. -/
theorem fakeNames_view {dds : List Jesdd} (h : Sets dds) {jobid : List UInt8} (hjobid : Short 8 9 jobid) :
    ∃ dds', dds.mapM (fakeName jobid) = some dds' ∧ Sets dds' ∧
      dds'.map Jesdd.view = (dds.map Jesdd.view).map (DataSet.fake (str jobid)) := by
  have hall : ∃ dds', dds.mapM (fakeName jobid) = some dds' ∧ (∀ dd ∈ dds', dd.Right) ∧
      dds'.map Jesdd.view = (dds.map Jesdd.view).map (DataSet.fake (str jobid)) := by
    have hright := h.right
    have hdsids := h.dsids
    clear h
    induction dds with
    | nil => exact ⟨[], rfl, fun _ hd => absurd hd List.not_mem_nil, rfl⟩
    | cons dd dds ih =>
      obtain ⟨dd', hdd', hright', hview⟩ := fakeName_view (hright dd List.mem_cons_self)
        (hdsids dd.dsid List.mem_cons_self).2 hjobid
      obtain ⟨dds', hdds', hrights, hviews⟩ := ih (fun d hd => hright d (List.mem_cons_of_mem _ hd))
        fun k hk => hdsids k (List.mem_cons_of_mem _ hk)
      refine ⟨dd' :: dds', ?_, List.forall_mem_cons.mpr ⟨hright', hrights⟩, ?_⟩
      · rw [List.mapM_cons, hdd', hdds']
        rfl
      · rw [List.map_cons, hview, hviews]
        rfl
  obtain ⟨dds', hdds', hright, hviews⟩ := hall
  have hids : dds'.map Jesdd.dsid = dds.map Jesdd.dsid := by
    rw [← map_view_dsid, hviews, List.map_map, ← map_view_dsid]
    exact List.map_congr_left fun d _ => DataSet.fake_dsid _ d
  exact ⟨dds', hdds', ⟨⟨hright, hids ▸ h.distinct⟩, hids ▸ h.dsids⟩, hviews⟩

/-! ### The order -/

/-- A pointer of the array. -/
theorem pointers_number {i : Nat} (h : i < 2 ^ 32) : number (List.ofFn (Qsort.elem 4 pointers (0 + 4 * i))) = i := by
  have hbyte : ∀ k < 4, (pointers (0 + 4 * i + k)).toNat = i / 256 ^ (3 - k) % 256 := by
    intro k hk
    have hplace : (0 + 4 * i + k) / 4 = i := by omega
    have hoffset : (0 + 4 * i + k) % 4 = k := by omega
    rw [pointers, hplace, hoffset]
    exact UInt8.toNat_ofNat'
  have h₀ := hbyte 0 (by decide)
  have h₁ := hbyte 1 (by decide)
  have h₂ := hbyte 2 (by decide)
  have h₃ := hbyte 3 (by decide)
  have hnumber : number (List.ofFn (Qsort.elem 4 pointers (0 + 4 * i))) =
      (((0 * 256 + (pointers (0 + 4 * i + 0)).toNat) * 256 + (pointers (0 + 4 * i + 1)).toNat) * 256 +
        (pointers (0 + 4 * i + 2)).toNat) * 256 + (pointers (0 + 4 * i + 3)).toNat := rfl
  rw [hnumber, h₀, h₁, h₂, h₃]
  norm_num
  omega

/-- What is in the places of a list is the list. -/
theorem filterMap_places {α : Type} (l : List α) : ((List.range l.length).filterMap fun i => l[i]?) = l := by
  induction l with
  | nil => rfl
  | cons x l ih =>
    rw [List.length_cons, List.range_succ_eq_map, List.filterMap_cons, List.filterMap_map]
    exact congrArg (x :: ·) ih

/-- The places of a list, by their pointers, are the list. -/
theorem pointers_list {dds : List Jesdd} (h : dds.length < 2 ^ 32) :
    (Qsort.elems 4 pointers 0 dds.length).filterMap (pointedTo dds) = dds ∧
      ∀ x ∈ Qsort.elems 4 pointers 0 dds.length, (pointedTo dds x).isSome = true := by
  have hpointed : ∀ i < dds.length, pointedTo dds (Qsort.elem 4 pointers (0 + 4 * i)) = dds[i]? := by
    intro i hi
    rw [pointedTo, pointers_number (by omega)]
  constructor
  · rw [Qsort.elems, List.filterMap_map]
    have hget : (List.range dds.length).filterMap (pointedTo dds ∘ fun i => Qsort.elem 4 pointers (0 + 4 * i)) =
        (List.range dds.length).filterMap fun i => dds[i]? := by
      refine List.filterMap_congr fun i hi => ?_
      exact hpointed i (List.mem_range.mp hi)
    rw [hget, filterMap_places]
  · intro x hx
    obtain ⟨i, hi, rfl⟩ := Qsort.mem_elems.mp hx
    rw [hpointed i hi, List.getElem?_eq_getElem hi]
    rfl

/-- Where each element gives something, what they give is the list. -/
theorem mapM_filterMap {α β : Type} {f : α → Option β} {l : List α} (h : ∀ x ∈ l, (f x).isSome = true) :
    l.mapM f = some (l.filterMap f) := by
  induction l with
  | nil => rfl
  | cons x l ih =>
    obtain ⟨hx, hl⟩ := List.forall_mem_cons.mp h
    obtain ⟨y, hy⟩ := Option.isSome_iff_exists.mp hx
    rw [List.mapM_cons, hy, ih hl, List.filterMap_cons_some hy]
    rfl

/-- **The list is sorted** by number, and no data set is lost. -/
theorem sortJesdd_spec {dds : List Jesdd} (h : dds.length < 2 ^ 32) :
    ∃ dds', sortJesdd dds = some dds' ∧ dds'.Perm dds ∧ dds'.Pairwise fun a b => a.dsid ≤ b.dsid := by
  unfold sortJesdd
  by_cases hmany : 1 < dds.length
  · obtain ⟨s, hrun, hmoved, hsorted⟩ := Qsort.qsortFrom_spec (C := dsidComparator dds) dds.length 0 dds.length
      ⟨pointers, [], []⟩ (by omega)
    have hsort : Qsort.qsort (dsidComparator dds) 0 dds.length pointers = some s := hrun
    obtain ⟨hlist, hpointed⟩ := pointers_list h
    have hplaces : ∀ x ∈ Qsort.elems 4 s.mem 0 dds.length, (pointedTo dds x).isSome = true := fun x hx =>
      hpointed x (hmoved.perm.mem_iff.mp hx)
    have hperm := hmoved.perm.filterMap (pointedTo dds)
    rw [hlist] at hperm
    refine ⟨(Qsort.elems 4 s.mem 0 dds.length).filterMap (pointedTo dds), ?_, hperm, ?_⟩
    · rw [if_pos hmany, hsort, Option.bind_eq_bind, Option.bind_some, mapM_filterMap hplaces]
    · rw [List.pairwise_filterMap]
      refine List.Pairwise.imp (fun {x y} hle a ha b hb => ?_) hsorted
      have hcompared : dsidAt dds x - dsidAt dds y ≤ 0 := hle
      rw [dsidAt, dsidAt, ha, hb] at hcompared
      simp only [Option.elim_some] at hcompared
      omega
  · refine ⟨dds, if_neg hmany, .refl dds, ?_⟩
    have hplaces : dds.length ≤ 1 := Nat.le_of_not_lt hmany
    rw [List.pairwise_iff_getElem]
    intro i j hi hj hij
    omega

/-- Numbers that are distinct are no more than there may be. -/
theorem Sets.length_lt {dds : List Jesdd} (h : Sets dds) : dds.length < 2 ^ 32 := by
  have hsub : (dds.map Jesdd.dsid).toFinset ⊆ Finset.range (2 ^ 16) := fun k hk =>
    Finset.mem_range.mpr (h.dsids k (List.mem_toFinset.mp hk)).2
  have hcard := Finset.card_le_card hsub
  rw [List.toFinset_card_of_nodup h.distinct, List.length_map, Finset.card_range] at hcard
  omega

/-- The list a caller gets: its data sets are in order, and each of them has a name. -/
structure Listing (dds : List Jesdd) : Prop extends Sets dds where
  named : ∀ dd ∈ dds, ¬ Unnamed (str dd.ddname)
  ordered : dds.Pairwise fun a b => a.dsid < b.dsid

/-- **Naming and sorting** a list of data sets. -/
theorem listing_spec {dds : List Jesdd} (h : Sets dds) {jobid : List UInt8} (hjobid : Short 8 9 jobid) :
    ∃ named sorted, dds.mapM (fakeName jobid) = some named ∧ sortJesdd named = some sorted ∧ Listing sorted ∧
      ∀ k, lookup (sorted.map Jesdd.view) k = (lookup (dds.map Jesdd.view) k).map (DataSet.fake (str jobid)) := by
  obtain ⟨named, hnamed, hsets, hview⟩ := fakeNames_view h hjobid
  obtain ⟨sorted, hsorted, hperm, hordered⟩ := sortJesdd_spec hsets.length_lt
  have hids : (sorted.map Jesdd.dsid).Perm (named.map Jesdd.dsid) := hperm.map Jesdd.dsid
  have hdistinct : (sorted.map Jesdd.dsid).Nodup := hids.nodup_iff.mpr hsets.distinct
  refine ⟨named, sorted, hnamed, hsorted, ⟨⟨⟨fun dd hdd => hsets.right dd (hperm.mem_iff.mp hdd), hdistinct⟩,
    fun k hk => hsets.dsids k (hids.mem_iff.mp hk)⟩, fun dd hdd => ?_, ?_⟩, fun k => ?_⟩
  · have hmem : dd.view ∈ named.map Jesdd.view := List.mem_map_of_mem (hperm.mem_iff.mp hdd)
    rw [hview] at hmem
    obtain ⟨d, -, hd⟩ := List.mem_map.mp hmem
    have hfake := DataSet.fake_named (str jobid) d
    rw [hd] at hfake
    exact hfake
  · have hne : sorted.Pairwise fun a b => a.dsid ≠ b.dsid := List.pairwise_map.mp hdistinct
    exact hordered.imp₂ (fun a b hle hneq => by omega) hne
  · have hkeys : ((named.map Jesdd.view).map DataSet.dsid).Nodup := by
      rw [map_view_dsid]
      exact hsets.distinct
    rw [lookup_perm (hperm.map Jesdd.view) hkeys, hview, lookup_map (DataSet.fake_dsid (str jobid))]

end Libc370.Jesjob
