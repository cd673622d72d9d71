import Libc370.Mvs.Listds

/-! The list that `__listds()` delivers.

What is asked of it is read off the lines: each entry with the lines behind it, up to the
next entry line (`listing`). In a run all steps of which meet a condition (`Meets`) it
comes back with that list, or without one when a request for storage was refused, and no
storage is left over (`listds_delivers`). Two things are followed through a run: the
storage owned, where the records of one catalog count its name once (`Inv`), and the list
still to come (`due`). -/
namespace Libc370.Dslist

open Ext Storage

variable {α : Type*}

/-! ### What is asked -/

/-- What a record says. -/
structure Listed where
  dsn : Bytes
  volser : Bytes
  catnm : Option Bytes
deriving DecidableEq

/-- The string in a field, up to its NUL. -/
def cstr (field : Bytes) : Bytes := field.takeWhile (· ≠ 0)

def Rec.shown (r : Rec α) : Listed := ⟨r.dsn, cstr r.volser, r.catnm.map Name.text⟩

section Asked
variable (filter : Option CString) (locate : Bytes → Option Locwork)

/-- A name passes the filter. -/
def passes (name : Bytes) : Bool :=
  match filter with
  | none => true
  | some pat => Strutil.patmat name pat.val == some true

/-- The volume of a data set: the real one, if the catalog shows the system residence volume. -/
def volumeOf (dsn volser : Bytes) : Bytes :=
  if volser = sysres then
    match locate dsn with
    | none => volser
    | some w => w.volser.val
  else volser

/-- The record of an entry, from the lines behind it up to the next entry line. `catnm` is
the catalog they have named so far. -/
def recordOf (dsn : Bytes) (catnm : Option Bytes) : List Item → Option Listed
  | [] => none
  | .entry _ :: _ => none
  | .count :: _ => none
  | .catalog name :: items => recordOf dsn (some name) items
  | .volume volser :: _ => some ⟨dsn, volumeOf locate dsn volser, catnm⟩
  | .other :: items => recordOf dsn catnm items

/-- The entries that pass the filter and have a volume, in order. -/
def listing : List Item → List Listed
  | [] => []
  | .entry name :: items =>
    (if passes filter name then (recordOf locate name none items).toList else []) ++ listing items
  | _ :: items => listing items

/-- `__listds()` gives the list, and what is freed with it, in whatever order the caller has
put it, is all that was got. Or it gives none for want of storage, and keeps nothing. -/
def Delivers (grant : Nat → Bool) (items : List Item) : Option (Outcome α) → Prop
  | none => False
  | some (.enomem store) => Refused grant store ∧ Settled store
  | some (.list array arrayBlock store) =>
    array.list.map Rec.shown = listing filter locate items ∧
      ∀ array' : VArray (Rec α), array'.list.Perm array.list → Settled (freeds array' arrayBlock store)

/-- When a line is taken as it should be. It does not hold a carriage control digit only;
`__patmat()` stays within the name; a new catalog's name is granted storage; there is no dash
in a volume, and behind that of the work area is a zero. -/
def Meets (grant : Nat → Bool) (u : UData α) (line : Bytes) : Item → Prop
  | .entry name => ∀ pat ∈ filter, Strutil.patmat name pat.val ≠ none
  | .count => True
  | .catalog name => u.dsn ≠ [] → u.catnm.map Name.text ≠ some name → grant u.store.asked = true
  | .volume volser => u.dsn ≠ [] → dash ∉ volser ∧ (volser = sysres → ∀ w ∈ locate u.dsn, w.unused2 = 0)
  | .other => line.head? = some one ∨ lead line ≠ .null

/-- Every line of a run is taken as it should be, as long as storage lasts. -/
def AllMeet (grant : Nat → Bool) (dscb : Bytes → Bytes → α) : UData α → List (Bytes × Item) → Prop
  | _, [] => True
  | u, (line, item) :: lines =>
    (u.failed = false → Meets filter locate grant u line item) ∧
      ∀ u' ∈ parse filter grant locate dscb u line, AllMeet grant dscb u' lines

end Asked

/-! ### Storage -/

/-- The names the records of a list have. -/
def cats (list : List (Rec α)) : List Nat := list.filterMap fun r => r.catnm.map Name.block

/-- The blocks of a list: its records, and each name once. -/
def blocks (list : List (Rec α)) : List Nat := list.map Rec.block ++ (cats list).dedup

/-- The block of the catalog read last, when no record has it. -/
def unused (catnm : Option Name) (catused : Bool) : List Nat :=
  match catnm with
  | none => []
  | some n => if catused then [] else [n.block]

theorem cats_clear (b : Nat) (list : List (Rec α)) : cats (list.map (Rec.clear b)) = (cats list).filter (· ≠ b) := by
  induction list with
  | nil => rfl
  | cons r list ih =>
    rw [List.map_cons, cats, List.filterMap_cons, cats, List.filterMap_cons]
    have hrest : (list.map (Rec.clear b)).filterMap (fun r => r.catnm.map Name.block) =
        (list.filterMap fun r => r.catnm.map Name.block).filter (· ≠ b) := ih
    rw [hrest]
    rcases hr : r.catnm.map Name.block with - | c
    · have hsame : (r.clear b).catnm.map Name.block = none := by
        rw [Rec.clear, if_neg (by rw [hr]; exact (Option.some_ne_none b).symm), hr]
      rw [hsame]
    · by_cases hc : c = b
      · have hclear : (r.clear b).catnm.map Name.block = none := by
          rw [Rec.clear, if_pos (by rw [hr, hc])]
          rfl
        rw [hclear, List.filter_cons_of_neg (by simpa using hc)]
      · have hsame : (r.clear b).catnm.map Name.block = some c := by
          rw [Rec.clear, if_neg (by rw [hr]; simpa using hc), hr]
        rw [hsame, List.filter_cons_of_pos (by simpa using hc)]

theorem map_block_clear (b : Nat) (list : List (Rec α)) :
    (list.map (Rec.clear b)).map Rec.block = list.map Rec.block := by
  rw [List.map_map]
  refine List.map_congr_left fun r _ => ?_
  show (r.clear b).block = r.block
  rw [Rec.clear]
  split <;> rfl

theorem dedup_cons_perm (c : Nat) (l : List Nat) : (c :: l).dedup.Perm (c :: (l.filter (· ≠ c)).dedup) := by
  have hnodup : (c :: (l.filter (· ≠ c)).dedup).Nodup := by
    refine List.nodup_cons.mpr ⟨fun hmem => ?_, List.nodup_dedup _⟩
    rw [List.mem_dedup, List.mem_filter] at hmem
    simpa using hmem.2
  refine (List.perm_ext_iff_of_nodup (List.nodup_dedup _) hnodup).mpr fun x => ?_
  rw [List.mem_dedup, List.mem_cons, List.mem_cons, List.mem_dedup, List.mem_filter]
  by_cases hx : x = c <;> simp [hx]

/-- `__freeds()` frees each record, and each name once. -/
theorem freeLoop_owns (list : List (Rec α)) {s : Store} {rest : List Nat} (h : Owns s (blocks list ++ rest)) :
    Owns (freeLoop list s) rest := by
  generalize hlength : list.length = n
  induction n generalizing list s with
  | zero =>
    obtain rfl := List.length_eq_zero_iff.mp hlength
    rw [freeLoop]
    exact h
  | succ n ih =>
    obtain ⟨r, list, rfl⟩ := List.exists_cons_of_length_eq_add_one hlength
    have hrest : list.length = n := Nat.succ.inj hlength
    rw [freeLoop]
    rw [blocks, cats, List.filterMap_cons] at h
    rcases hcat : r.catnm with - | cat
    · rw [hcat] at h
      exact ih list (Owns.release (b := r.block) h) hrest
    · rw [hcat] at h
      refine ih _ (Owns.release (b := r.block) (Owns.release (b := cat.block) (h.perm ?_)))
        (by rw [List.length_map, hrest])
      rw [blocks, cats_clear, map_block_clear]
      have hnames := dedup_cons_perm cat.block (cats list)
      have hfront : (r.block :: (list.map Rec.block ++ (cat.block :: cats list).dedup)).Perm
          (cat.block :: r.block :: (list.map Rec.block ++ ((cats list).filter (· ≠ cat.block)).dedup)) := by
        refine ((hnames.append_left _).cons _).trans ?_
        exact ((List.perm_middle).cons _).trans (List.Perm.swap _ _ _)
      exact hfront.append_right rest

/-! ### A record -/

section Record
variable (grant : Nat → Bool) (locate : Bytes → Option Locwork) (dscb : Bytes → Bytes → α)

/-- A record is put at the end of the list, or storage for the list was refused. -/
theorem addRecord_cases {u : UData α} (hnull : u.arrayBlock = none → u.array = VArray.null) (r : Rec α) :
    (∃ array block store,
        addRecord grant u r = (0, { u with array := array, arrayBlock := some block, store := store }) ∧
        array.list = u.array.list ++ [r] ∧
        ∀ rest, Owns u.store (u.arrayBlock.toList ++ rest) → Owns store (block :: rest)) ∨
      ∃ store, addRecord grant u r = (-1, { u with store := store }) ∧ Refused grant store ∧
        ∀ rest, Owns u.store rest → Owns store rest := by
  unfold addRecord
  by_cases hfull : u.array.full = true
  · rw [if_pos hfull]
    rcases request_cases grant u.store with ⟨-, hrequest⟩ | ⟨hgrant, hrequest⟩
    · rw [hrequest]
      obtain ⟨hrc, hlist⟩ := arrayadd_granted u.array r
      left
      cases hblock : u.arrayBlock with
      | none =>
        refine ⟨(arrayadd true u.array r).2, u.store.asked, _, ?_, hlist, fun rest howns => howns.granted⟩
        dsimp only
        rw [hrc]
      | some old =>
        refine ⟨(arrayadd true u.array r).2, u.store.asked,
          release ⟨u.store.asked + 1, u.store.got ++ [u.store.asked], u.store.freed⟩ old, ?_, hlist,
            fun rest howns => ?_⟩
        · dsimp only
          rw [hrc]
        · exact (howns.granted.perm (List.Perm.swap _ _ _)).release
    · rw [hrequest]
      refine .inr ⟨⟨u.store.asked + 1, u.store.got, u.store.freed⟩, ?_, ⟨_, Nat.lt_succ_self _, hgrant⟩,
        fun rest howns => howns.refused⟩
      dsimp only
      rw [arrayadd_full hfull]
  · rw [if_neg hfull]
    obtain ⟨hrc, hlist, -⟩ := arrayadd_room (by simpa using hfull) false r
    cases hblock : u.arrayBlock with
    | none => exact absurd (by rw [hnull hblock]; rfl) hfull
    | some old =>
      refine .inl ⟨(arrayadd false u.array r).2, old, u.store, ?_, hlist, fun rest howns => howns⟩
      dsimp only
      rw [hrc, ← hblock]

/-- An entry gets its record, or storage was refused. -/
theorem build_cases {u : UData α} (hnull : u.arrayBlock = none → u.array = VArray.null) :
    (∃ r array block store,
        build grant locate dscb u = { u with
          array := array, arrayBlock := some block, dsn := [], volser := [], entcat := none,
          catused := u.entcat.isSome || u.catused, store := store } ∧
        (r.dsn = u.dsn ∧ r.volser = volume locate u.dsn u.volser ∧ r.catnm = u.entcat) ∧
        array.list = u.array.list ++ [r] ∧
        ∀ rest, Owns u.store (u.arrayBlock.toList ++ rest) → Owns store (block :: r.block :: rest)) ∨
      ∃ entcat store,
        build grant locate dscb u =
          { u with dsn := [], volser := [], entcat := entcat, failed := true, store := store } ∧
        (∀ n, entcat = some n → u.entcat = some n) ∧ Refused grant store ∧
        ∀ rest, Owns u.store rest → Owns store rest := by
  unfold build
  rcases request_cases grant u.store with ⟨-, hrequest⟩ | ⟨hgrant, hrequest⟩
  · rw [hrequest]
    dsimp only
    generalize hr : (⟨u.store.asked, u.dsn, volume locate u.dsn u.volser, u.entcat, _⟩ : Rec α) = r
    have hblock : r.block = u.store.asked := by rw [← hr]
    have hfields : r.dsn = u.dsn ∧ r.volser = volume locate u.dsn u.volser ∧ r.catnm = u.entcat := by
      rw [← hr]
      exact ⟨rfl, rfl, rfl⟩
    rw [← hblock]
    generalize hv : ({ u with dsn := [], volser := [], entcat := none, store := _ } : UData α) = v
    have hvnull : v.arrayBlock = none → v.array = VArray.null := by
      rw [← hv]
      exact hnull
    rcases addRecord_cases grant hvnull r with ⟨array, block, store, hadd, hlist, howns⟩ | ⟨store, hadd, hrefused,
        howns⟩
    · rw [hadd]
      dsimp only
      rw [if_neg (by decide), ← hv]
      rw [← hv] at hlist howns
      refine .inl ⟨r, array, block, store, rfl, hfields, hlist, fun rest hrest => howns _ ?_⟩
      have hgranted := hrest.granted
      rw [← hblock] at hgranted
      exact hgranted.perm List.perm_middle.symm
    · rw [hadd]
      dsimp only
      rw [if_pos (by decide), ← hv]
      rw [← hv] at howns
      refine .inr ⟨none, _, rfl, fun n hn => absurd hn (Option.some_ne_none n).symm, hrefused.release,
        fun rest hrest => ?_⟩
      have hgranted := hrest.granted
      rw [← hblock] at hgranted
      exact (howns _ hgranted).release
  · rw [hrequest]
    exact .inr ⟨u.entcat, _, rfl, fun _ hn => hn, ⟨_, Nat.lt_succ_self _, hgrant⟩, fun rest howns => howns.refused⟩

end Record

/-! ### What a run keeps -/

/-- The storage owned is that of the list, each name once, and of a name no record has. -/
structure Inv (grant : Nat → Bool) (u : UData α) : Prop where
  owns : Owns u.store (u.arrayBlock.toList ++ (blocks u.array.list ++ unused u.catnm u.catused))
  null : u.arrayBlock = none → u.array = VArray.null
  entcat : ∀ n, u.entcat = some n → u.catnm = some n
  used : u.catused = true → ∀ n, u.catnm = some n → n.block ∈ cats u.array.list
  refused : u.failed = true → Refused grant u.store

theorem Inv.start (grant : Nat → Bool) : Inv grant (.start : UData α) := by
  exact ⟨Owns.empty, fun _ => rfl, fun _ hn => absurd hn (Option.some_ne_none _).symm,
    fun hused => absurd hused Bool.false_ne_true, fun hfailed => absurd hfailed Bool.false_ne_true⟩

theorem cats_concat (list : List (Rec α)) (r : Rec α) :
    cats (list ++ [r]) = cats list ++ (r.catnm.map Name.block).toList := by
  rw [cats, List.filterMap_append, List.filterMap_cons]
  rcases r.catnm.map Name.block with - | c <;> rfl

/-- A record more: its block, and its name unless another record has it. -/
theorem blocks_concat (list : List (Rec α)) (r : Rec α) (rest : List Nat) :
    (blocks (list ++ [r]) ++ rest).Perm
      (r.block :: (list.map Rec.block ++ ((cats list ++ (r.catnm.map Name.block).toList).dedup ++ rest))) := by
  rw [blocks, cats_concat, List.map_append, List.map_singleton, List.append_assoc, List.append_assoc,
    List.singleton_append]
  exact List.perm_middle

theorem dedup_concat_mem {l : List Nat} {c : Nat} (h : c ∈ l) : (l ++ [c]).dedup.Perm l.dedup := by
  refine (List.perm_ext_iff_of_nodup (List.nodup_dedup _) (List.nodup_dedup _)).mpr fun x => ?_
  rw [List.mem_dedup, List.mem_dedup, List.mem_append, List.mem_singleton]
  exact or_iff_left_of_imp fun hx => hx ▸ h

theorem dedup_concat_new {l : List Nat} {c : Nat} (h : c ∉ l) : (l ++ [c]).dedup.Perm (l.dedup ++ [c]) := by
  have hnodup : (l.dedup ++ [c]).Nodup := by
    refine List.Nodup.append (List.nodup_dedup _) (List.nodup_singleton _) fun x hx hc => ?_
    rw [List.mem_singleton] at hc
    exact h (hc ▸ List.mem_dedup.mp hx)
  refine (List.perm_ext_iff_of_nodup (List.nodup_dedup _) hnodup).mpr fun x => ?_
  rw [List.mem_dedup, List.mem_append, List.mem_append, List.mem_dedup]

/-- The name of a new record is the one read last: it is owned already. -/
theorem Inv.names {grant : Nat → Bool} {u : UData α} (h : Inv grant u) :
    ((cats u.array.list ++ (u.entcat.map Name.block).toList).dedup ++
        unused u.catnm (u.entcat.isSome || u.catused)).Perm
      ((cats u.array.list).dedup ++ unused u.catnm u.catused) := by
  cases hentcat : u.entcat with
  | none =>
    rw [Option.map_none, Option.toList_none, List.append_nil, Option.isSome_none, Bool.false_or]
  | some n =>
    have hcatnm := h.entcat n hentcat
    have howns := h.owns
    rw [hcatnm] at howns ⊢
    rw [Option.map_some, Option.toList_some, Option.isSome_some, Bool.true_or, unused, unused]
    rw [if_pos rfl, List.append_nil]
    cases hused : u.catused with
    | true =>
      rw [if_pos rfl, List.append_nil]
      exact dedup_concat_mem (h.used hused n hcatnm)
    | false =>
      rw [if_neg Bool.false_ne_true]
      refine dedup_concat_new fun hmem => ?_
      rw [hused] at howns
      have hdisjoint := List.disjoint_of_nodup_append howns.live_nodup.of_append_right
      exact hdisjoint (List.mem_append_right _ (List.mem_dedup.mpr hmem)) (List.mem_singleton_self _)

section Step
variable {filter : Option CString} {grant : Nat → Bool} {locate : Bytes → Option Locwork} {dscb : Bytes → Bytes → α}

theorem Inv.build {u : UData α} (h : Inv grant u) (hgoing : u.failed = false) :
    Inv grant (Dslist.build grant locate dscb u) := by
  rcases build_cases grant locate dscb h.null with
    ⟨r, array, block, store, hbuild, ⟨-, -, hcatnm⟩, hlist, howns⟩ | ⟨entcat, store, hbuild, hentcat, hrefused, howns⟩
  · rw [hbuild]
    refine ⟨?_, fun hnone => absurd hnone (Option.some_ne_none _), fun _ hn => absurd hn (Option.some_ne_none _).symm,
      fun hused n hn => ?_, fun hfailed => ?_⟩
    · have hnew := howns _ h.owns
      refine hnew.perm ?_
      show (block :: r.block :: (blocks u.array.list ++ unused u.catnm u.catused)).Perm
        (block :: (blocks array.list ++ unused u.catnm (u.entcat.isSome || u.catused)))
      rw [hlist]
      refine List.Perm.cons _ (List.Perm.symm ?_)
      refine (blocks_concat _ _ _).trans (List.Perm.cons _ ?_)
      rw [hcatnm, blocks, List.append_assoc]
      exact h.names.append_left _
    · show n.block ∈ cats array.list
      have hn : u.catnm = some n := hn
      rw [hlist, cats_concat, hcatnm]
      cases hentcat : u.entcat with
      | none =>
        refine List.mem_append_left _ (h.used ?_ n hn)
        rwa [hentcat, Option.isSome_none, Bool.false_or] at hused
      | some m =>
        have hm : m = n := Option.some.inj ((h.entcat m hentcat).symm.trans hn)
        rw [hm]
        exact List.mem_append_right _ (List.mem_singleton_self _)
    · exact absurd (hgoing.symm.trans hfailed) Bool.false_ne_true
  · rw [hbuild]
    exact ⟨howns _ h.owns, h.null, fun n hn => h.entcat n (hentcat n hn), h.used, fun _ => hrefused⟩

theorem perm_last (x y z : List Nat) (b : Nat) : (b :: (x ++ (y ++ z))).Perm (z ++ (x ++ (y ++ [b]))) := by
  have hfront : (b :: (x ++ y)).Perm (x ++ y ++ [b]) := (List.perm_append_singleton b (x ++ y)).symm
  have hswap : (b :: (x ++ y) ++ z).Perm (z ++ b :: (x ++ y)) := List.perm_append_comm
  have hcomm := hswap.trans (hfront.append_left z)
  simpa using hcomm

/-- A catalog name that no record has is given back when another one is read. -/
theorem Inv.setCatalog {u : UData α} (h : Inv grant u) (p : Bytes) : Inv grant (setCatalog grant u p) := by
  unfold Dslist.setCatalog
  by_cases hshare : u.catnm.map Name.text = some p
  · rw [if_pos hshare]
    exact ⟨h.owns, h.null, fun _ hn => hn, h.used, h.refused⟩
  · rw [if_neg hshare]
    rcases request_cases grant u.store with ⟨-, hrequest⟩ | ⟨-, hrequest⟩
    · rw [hrequest]
      have howns := h.owns.granted.perm (perm_last _ _ _ _)
      refine ⟨?_, h.null, fun _ hn => hn, fun hused => absurd hused Bool.false_ne_true, fun hfailed => ?_⟩
      · dsimp only
        cases hcatnm : u.catnm with
        | none =>
          rw [hcatnm] at howns
          exact howns
        | some old =>
          rw [hcatnm] at howns
          cases hused : u.catused with
          | true =>
            rw [hused] at howns
            exact howns
          | false =>
            rw [hused] at howns
            exact Owns.release howns
      · have hrefused : Refused grant ⟨u.store.asked + 1, u.store.got ++ [u.store.asked], u.store.freed⟩ :=
          (h.refused hfailed).later (Nat.le_succ _)
        dsimp only
        cases u.catnm with
        | none => exact hrefused
        | some old =>
          dsimp only
          split_ifs
          · exact hrefused
          · exact hrefused
    · rw [hrequest]
      exact ⟨h.owns.refused, h.null, fun _ hn => absurd hn (Option.some_ne_none _).symm, h.used,
        fun hfailed => (h.refused hfailed).later (Nat.le_succ _)⟩

theorem Inv.catalogLine {u : UData α} (h : Inv grant u) (save : Option Bytes) :
    Inv grant (catalogLine grant u save) := by
  unfold Dslist.catalogLine
  split
  · exact h
  · split
    · split
      · exact h
      · exact h.setCatalog _
    · exact h

/-- The entry being in is no matter of storage. -/
theorem Inv.renamed {u : UData α} (h : Inv grant u) (dsn volser : Bytes) :
    Inv grant { u with dsn := dsn, volser := volser } := ⟨h.owns, h.null, h.entcat, h.used, h.refused⟩

theorem Inv.entryLine {u u' : UData α} (h : Inv grant u) {save : Option Bytes}
    (hentry : entryLine filter u save = some u') : Inv grant u' := by
  have hinv : ∀ dsn, Inv grant { u with dsn := dsn, volser := [], entcat := none } := fun dsn =>
    ⟨h.owns, h.null, fun _ hn => absurd hn (Option.some_ne_none _).symm, h.used, h.refused⟩
  unfold Dslist.entryLine at hentry
  dsimp only at hentry
  split at hentry
  · exact Option.some.inj hentry ▸ hinv []
  · split_ifs at hentry
    · exact Option.some.inj hentry ▸ hinv []
    · split at hentry
      · exact Option.some.inj hentry ▸ hinv _
      · split at hentry
        · cases hentry
        · exact Option.some.inj hentry ▸ hinv _
        · exact Option.some.inj hentry ▸ hinv []

theorem Inv.parse {u u' : UData α} {line : Bytes} (h : Inv grant u)
    (hparse : parse filter grant locate dscb u line = some u') : Inv grant u' := by
  unfold Dslist.parse at hparse
  by_cases hfailed : u.failed = true
  · rw [if_pos hfailed] at hparse
    exact Option.some.inj hparse ▸ h
  have hgoing : u.failed = false := by simpa using hfailed
  rw [if_neg hfailed] at hparse
  split at hparse
  · exact Option.some.inj hparse ▸ h
  split at hparse
  · exact Option.some.inj hparse ▸ h
  · cases hparse
  split at hparse
  · exact h.entryLine hparse
  split at hparse
  · exact Option.some.inj hparse ▸ h
  split at hparse
  · exact Option.some.inj hparse ▸ h.catalogLine _
  split at hparse
  · split at hparse
    · exact Option.some.inj hparse ▸ h.renamed [] u.volser
    · exact Option.some.inj hparse ▸ (h.renamed u.dsn _).build hgoing
  split at hparse
  · exact Option.some.inj hparse ▸ h
  · exact Option.some.inj hparse ▸ h.build hgoing

end Step

/-! ### The list still to come -/

section Due
variable {filter : Option CString} {grant : Nat → Bool} {locate : Bytes → Option Locwork} {dscb : Bytes → Bytes → α}

/-- What the list comes to with the lines ahead: the records it has, that of the entry the
run is in, and those of the entries ahead. -/
def due (filter : Option CString) (locate : Bytes → Option Locwork) (u : UData α) (items : List Item) : List Listed :=
  u.array.list.map Rec.shown ++
    ((if u.dsn = [] then [] else (recordOf locate u.dsn (u.entcat.map Name.text) items).toList) ++
      listing filter locate items)

/-- A line is taken: storage ran out, or the list still to come stays as it is. -/
def Takes (filter : Option CString) (locate : Bytes → Option Locwork) (u : UData α) (item : Item) (u' : UData α) :
    Prop :=
  u'.failed = true ∨ ∀ items, due filter locate u' items = due filter locate u (item :: items)

theorem same_other {w : Bytes} {a : String} (h : same w a = true) {b : String}
    (hne : (literal a).map lower ≠ (literal b).map lower) : same w b = false := by
  rw [same, beq_iff_eq] at h
  rw [same, h]
  simpa using hne

theorem no_entry {w : Bytes} {a : String} (h : same w a = true)
    (hne : ∀ b ∈ entryTypes, (literal a).map lower ≠ (literal b).map lower) : entryTypes.any (same w) = false := by
  rw [List.any_eq_false]
  intro b hb
  rw [same_other h (hne b hb)]
  exact Bool.false_ne_true

theorem volser_no_entry : ∀ b ∈ entryTypes, (literal "VOLSER").map lower ≠ (literal b).map lower := by decide

theorem in_no_entry : ∀ b ∈ entryTypes, (literal "IN").map lower ≠ (literal b).map lower := by decide

theorem volser_no_in : (literal "VOLSER").map lower ≠ (literal "IN").map lower := by decide

/-- A line is taken by its first word. -/
theorem parse_first {u : UData α} (hgoing : u.failed = false) {line m w rest : Bytes} (h : First line m w rest) :
    parse filter grant locate dscb u line =
      if entryTypes.any (same w) ∧ m.length ≤ 1 then entryLine filter u (behind rest)
      else if u.dsn = [] then some u
      else if same w "IN" then some (catalogLine grant u (behind rest))
      else if same w "VOLSER" then
        match (tok delims (behind rest)).1 with
        | none => some { u with dsn := [] }
        | some p => some (build grant locate dscb { u with volser := p })
      else if u.volser = [] then some u
      else some (build grant locate dscb u) := by
  unfold parse
  rw [if_neg (by rw [hgoing]; exact Bool.false_ne_true), if_neg h.page]
  exact h.lead.symm ▸ rfl

theorem cstr_whole {s : Bytes} (h : 0 ∉ s) : cstr s = s := by
  rw [cstr, List.takeWhile_eq_self_iff]
  intro c hc
  exact decide_eq_true fun hzero => h (hzero ▸ hc)

theorem cstr_nul {s : Bytes} (h : 0 ∉ s) : cstr (s ++ [0]) = s := by
  have hall : ∀ c ∈ s, decide (c ≠ 0) = true := fun c hc => decide_eq_true fun hzero => h (hzero ▸ hc)
  rw [cstr, List.takeWhile_append_of_pos hall, List.takeWhile_cons_of_neg (by decide), List.append_nil]

/-- The volume in the record is the data set's. -/
theorem volume_right {dsn volser : Bytes} (hnul : 0 ∉ volser)
    (hbehind : volser = sysres → ∀ w ∈ locate dsn, w.unused2 = 0) :
    cstr (volume locate dsn volser) = volumeOf locate dsn volser := by
  unfold volume volumeOf
  by_cases hsysres : volser = sysres
  · rw [if_pos hsysres, if_pos hsysres]
    cases hlocate : locate dsn with
    | none => exact cstr_whole hnul
    | some w =>
      have hzero := hbehind hsysres w hlocate
      dsimp only
      rw [hzero]
      exact cstr_nul w.volser.property
  · rw [if_neg hsysres, if_neg hsysres]
    exact cstr_whole hnul

/-- A line that shows nothing leaves the run as it is. -/
theorem takes_other (u : UData α) : Takes filter locate u .other u := .inr fun _ => rfl

/-- Nor does what an entry shows, outside of one. -/
theorem takes_outside {u : UData α} (hdsn : u.dsn = []) {item : Item} (hitem : ∀ name, item ≠ .entry name) :
    Takes filter locate u item u := by
  refine .inr fun items => ?_
  rw [due, due, if_pos hdsn, if_pos hdsn]
  cases item with
  | entry name => exact absurd rfl (hitem name)
  | count => rfl
  | catalog name => rfl
  | volume volser => rfl
  | other => rfl

theorem takes_entry {u : UData α} {name : Bytes} (hne : name ≠ []) {save : Option Bytes}
    (hname : nametok save = some name)
    (hdigit : startsDigit name = false) (hfilter : ∀ pat ∈ filter, Strutil.patmat name pat.val ≠ none) :
    ∃ u', entryLine filter u save = some u' ∧ u'.volser = [] ∧ Takes filter locate u (.entry name) u' := by
  have hdrop : ∀ items, due filter locate u (.entry name :: items) =
      u.array.list.map Rec.shown ++ ((if passes filter name then (recordOf locate name none items).toList else []) ++
        listing filter locate items) := by
    intro items
    rw [due, recordOf, listing]
    split_ifs <;> rfl
  have htaken : passes filter name = true →
      Takes filter locate u (.entry name) { u with dsn := name, volser := [], entcat := none } := by
    intro hpasses
    refine .inr fun items => ?_
    rw [hdrop, hpasses, due, if_neg hne]
    rfl
  have hleft : passes filter name = false →
      Takes filter locate u (.entry name) { u with dsn := [], volser := [], entcat := none } := by
    intro hpasses
    refine .inr fun items => ?_
    rw [hdrop, hpasses]
    rfl
  unfold entryLine
  rw [hname]
  dsimp only
  rw [if_neg (by rw [hdigit]; exact Bool.false_ne_true)]
  cases filter with
  | none => exact ⟨_, rfl, rfl, htaken rfl⟩
  | some pat =>
    have hpat := hfilter pat rfl
    dsimp only
    rcases hmatch : Strutil.patmat name pat.val with - | (- | -)
    · exact absurd hmatch hpat
    · exact ⟨_, rfl, rfl, hleft (by rw [passes, hmatch]; rfl)⟩
    · exact ⟨_, rfl, rfl, htaken (by rw [passes, hmatch]; rfl)⟩

theorem takes_catalog (filter : Option CString) (locate : Bytes → Option Locwork) {u : UData α} (hdsn : u.dsn ≠ [])
    {name : Bytes}
    (hgranted : u.catnm.map Name.text ≠ some name → grant u.store.asked = true) :
    (setCatalog grant u name).volser = u.volser ∧ Takes filter locate u (.catalog name) (setCatalog grant u name) := by
  unfold setCatalog
  by_cases hshare : u.catnm.map Name.text = some name
  · rw [if_pos hshare]
    refine ⟨rfl, .inr fun items => ?_⟩
    rw [due, due, if_neg hdsn, if_neg hdsn, hshare]
    rfl
  · rw [if_neg hshare]
    rcases request_cases grant u.store with ⟨-, hrequest⟩ | ⟨hrefused, -⟩
    · rw [hrequest]
      refine ⟨rfl, .inr fun items => ?_⟩
      rw [due, due, if_neg hdsn, if_neg hdsn]
      rfl
    · exact absurd ((hgranted hshare).symm.trans hrefused) (by decide)

theorem takes_volume (filter : Option CString) (dscb : Bytes → Bytes → α) {u : UData α}
    (hnull : u.arrayBlock = none → u.array = VArray.null) (hdsn : u.dsn ≠ []) {volser : Bytes}
    (hnul : 0 ∉ volser) (hbehind : volser = sysres → ∀ w ∈ locate u.dsn, w.unused2 = 0) :
    (build grant locate dscb { u with volser := volser }).volser = [] ∧
      Takes filter locate u (.volume volser) (build grant locate dscb { u with volser := volser }) := by
  rcases build_cases grant locate dscb (u := { u with volser := volser }) hnull with
    ⟨r, array, block, store, hbuild, ⟨hname, hvolser, hcatnm⟩, hlist, -⟩ | ⟨entcat, store, hbuild, -, -, -⟩
  · rw [hbuild]
    refine ⟨rfl, .inr fun items => ?_⟩
    have hshown : r.shown = ⟨u.dsn, volumeOf locate u.dsn volser, u.entcat.map Name.text⟩ := by
      rw [Rec.shown, hname, hvolser, hcatnm]
      congr 1
      exact volume_right hnul hbehind
    rw [due, due, if_pos rfl, if_neg hdsn]
    show array.list.map Rec.shown ++ ([] ++ listing filter locate items) =
      u.array.list.map Rec.shown ++
        ([⟨u.dsn, volumeOf locate u.dsn volser, u.entcat.map Name.text⟩] ++ listing filter locate items)
    rw [hlist, List.map_append, List.map_singleton, hshown, List.append_assoc, List.nil_append]
  · rw [hbuild]
    exact ⟨rfl, .inl rfl⟩

theorem behind_value {rest v : Bytes} (h : Value rest v) (hdash : dash ∉ v) :
    (tok delims (behind rest)).1 = some v := by
  obtain ⟨f, r, hne, hf, rfl, hv, -, hsolid, hstop⟩ := h
  have hfiller : ∀ c ∈ filler, c ∈ delims := by decide +kernel
  have hends : ∀ c ∈ ends, c ∈ delims := by decide +kernel
  have hdelims : ∀ c ∈ delims, c = dash ∨ c ∈ ends := by decide +kernel
  have hword : Word v r := by
    refine ⟨hv, fun c hc hmem => ?_, fun c hc => hends c (hstop c hc)⟩
    rcases hdelims c hmem with rfl | hend
    · exact hdash hc
    · exact hsolid c hc hend
  have hnext : Next (f ++ (v ++ r)) v r := ⟨f, hne, fun c hc => hfiller c (hf c hc), rfl, hword⟩
  rw [hnext.tok]

/-- One line of LISTCAT. -/
theorem parse_takes (dscb : Bytes → Bytes → α) {u : UData α} (hinv : Inv grant u) (hgoing : u.failed = false)
    (hquiet : u.volser = [])
    {line : Bytes} (hnul : 0 ∉ line) {item : Item} (hshows : Shows line item)
    (hmeets : Meets filter locate grant u line item) :
    ∃ u', parse filter grant locate dscb u line = some u' ∧ u'.volser = [] ∧ Takes filter locate u item u' := by
  have hrun : ¬ u.failed = true := by
    rw [hgoing]
    exact Bool.false_ne_true
  cases hshows with
  | page hpage =>
    refine ⟨u, ?_, hquiet, takes_other u⟩
    unfold parse
    rw [if_neg hrun, if_pos hpage]
  | entry hfirst hplace htype hvalue hdigit _ =>
    have hne : _ ≠ [] := hvalue.choose_spec.choose_spec.2.2.2.1
    rw [parse_first hgoing hfirst, if_pos ⟨htype, hplace⟩]
    exact takes_entry hne (nametok_value hvalue) hdigit hmeets
  | count hfirst hplace htype hvalue hdigit =>
    rw [parse_first hgoing hfirst, if_pos ⟨htype, hplace⟩]
    unfold entryLine
    rw [nametok_value hvalue]
    dsimp only
    rw [if_pos hdigit]
    refine ⟨_, rfl, rfl, .inr fun items => ?_⟩
    rw [due, due, if_pos rfl]
    split_ifs <;> rfl
  | catalog hfirst hin hnext hcat hvalue =>
    rw [parse_first hgoing hfirst, if_neg (fun hentry => by simp [no_entry hin in_no_entry] at hentry)]
    by_cases hdsn : u.dsn = []
    · rw [if_pos hdsn]
      exact ⟨u, rfl, hquiet, takes_outside hdsn fun _ h => by cases h⟩
    · rw [if_neg hdsn, if_pos hin]
      unfold catalogLine
      rw [hnext.tok]
      dsimp only
      rw [if_pos hcat, nametok_value hvalue]
      obtain ⟨hvolser, htakes⟩ := takes_catalog filter locate hdsn (hmeets hdsn)
      exact ⟨_, rfl, hvolser.trans hquiet, htakes⟩
  | @volume _ _ _ _ volser hfirst hword hvalue _ =>
    rw [parse_first hgoing hfirst, if_neg (fun hentry => by simp [no_entry hword volser_no_entry] at hentry)]
    by_cases hdsn : u.dsn = []
    · rw [if_pos hdsn]
      exact ⟨u, rfl, hquiet, takes_outside hdsn fun _ h => by cases h⟩
    · obtain ⟨hdash, hbehind⟩ := hmeets hdsn
      have hnone : _ = false := same_other hword volser_no_in
      rw [if_neg hdsn, if_neg (by rw [hnone]; exact Bool.false_ne_true), if_pos hword, behind_value hvalue hdash]
      obtain ⟨f, r, -, -, hrest, -⟩ := hvalue
      have hnul' : 0 ∉ volser := fun hmem => hnul (by
        rw [hfirst.text, hrest]
        exact List.mem_append_right _ (List.mem_append_right _ (List.mem_append_right _ (List.mem_append_left _ hmem))))
      obtain ⟨hvolser, htakes⟩ := takes_volume filter dscb hinv.null hdsn hnul' hbehind
      exact ⟨_, rfl, hvolser, htakes⟩
  | other hfirst hplace hin hvolser =>
    refine ⟨u, ?_, hquiet, takes_other u⟩
    rw [parse_first hgoing hfirst, if_neg fun hentry => absurd (hplace hentry.1) (by omega)]
    by_cases hdsn : u.dsn = []
    · rw [if_pos hdsn]
    rw [if_neg hdsn]
    split
    · next hword =>
      unfold catalogLine
      split
      · rfl
      · next w' save hnext =>
        obtain ⟨rest', hnext⟩ := next_of_tok hfirst.word.stop hnext
        rw [if_neg (by rw [hin hword _ _ hnext]; exact Bool.false_ne_true)]
    · have hno : ¬ same _ "VOLSER" = true := ne_true_of_eq_false hvolser
      rw [if_neg hno]
  | blank hgap =>
    refine ⟨u, ?_, hquiet, takes_other u⟩
    unfold parse
    rw [if_neg hrun]
    split
    · rfl
    · rw [lead_blank hgap]
  | control ha hx hb hpage =>
    rcases hmeets with hone | hlead
    · exact absurd hone hpage
    · exact absurd (lead_control ha hx hb) hlead

theorem listc_failed {u : UData α} (h : u.failed = true) (lines : List Bytes) :
    listc filter grant locate dscb u lines = some u := by
  induction lines with
  | nil => rfl
  | cons line lines ih =>
    rw [listc, parse, if_pos h]
    exact ih

/-- A run over the lines of LISTCAT. -/
theorem listc_takes {lines : List CString} {items : List Item}
    (hshows : List.Forall₂ (fun line item => Shows line.val item) lines items) {u : UData α} (hinv : Inv grant u)
    (hquiet : u.volser = []) (hmeets : AllMeet filter locate grant dscb u ((lines.map Subtype.val).zip items)) :
    ∃ u', listc filter grant locate dscb u (lines.map Subtype.val) = some u' ∧ Inv grant u' ∧
      (u'.failed = true ∨ u'.array.list.map Rec.shown = due filter locate u items) := by
  induction hshows generalizing u with
  | nil =>
    refine ⟨u, rfl, hinv, .inr ?_⟩
    rw [due]
    split_ifs
    · exact (List.append_nil _).symm
    · exact (List.append_nil _).symm
  | @cons line item lines items hline _ ih =>
    by_cases hfailed : u.failed = true
    · exact ⟨u, listc_failed hfailed _, hinv, .inl hfailed⟩
    · have hgoing : u.failed = false := by simpa using hfailed
      obtain ⟨hmeet, hrest⟩ := hmeets
      obtain ⟨v, hparse, hvquiet, htakes⟩ := parse_takes dscb hinv hgoing hquiet line.property hline (hmeet hgoing)
      have hvinv := hinv.parse hparse
      rw [List.map_cons, listc, hparse]
      dsimp only
      rcases htakes with hvfailed | hdue
      · exact ⟨v, listc_failed hvfailed _, hvinv, .inl hvfailed⟩
      · rw [← hdue]
        exact ih hvinv hvquiet (hrest v hparse)

end Due

/-! ### The list given back -/

theorem freeLoop_asked (list : List (Rec α)) (s : Store) : (freeLoop list s).asked = s.asked := by
  generalize hlength : list.length = n
  induction n generalizing list s with
  | zero =>
    obtain rfl := List.length_eq_zero_iff.mp hlength
    rw [freeLoop]
  | succ n ih =>
    obtain ⟨r, list, rfl⟩ := List.exists_cons_of_length_eq_add_one hlength
    have hrest : list.length = n := Nat.succ.inj hlength
    rw [freeLoop]
    split
    · rw [ih list _ hrest, release_asked]
    · rw [ih _ _ (by rw [List.length_map, hrest]), release_asked, release_asked]

theorem freeds_asked (array : VArray (Rec α)) (arrayBlock : Option Nat) (s : Store) :
    (freeds array arrayBlock s).asked = s.asked := by
  cases arrayBlock with
  | none => rfl
  | some b => exact freeLoop_asked _ _

theorem blocks_perm {list list' : List (Rec α)} (h : list'.Perm list) : (blocks list').Perm (blocks list) :=
  (h.map _).append (h.filterMap _).dedup

/-- `__freeds()` gives all of a list back, in whatever order it is. -/
theorem freeds_settled {array array' : VArray (Rec α)} {arrayBlock : Option Nat} {s : Store}
    (hnull : arrayBlock = none → array = VArray.null) (h : Owns s (arrayBlock.toList ++ blocks array.list))
    (horder : array'.list.Perm array.list) : Settled (freeds array' arrayBlock s) := by
  cases arrayBlock with
  | none =>
    rw [hnull rfl] at h
    exact Owns.settled h
  | some b =>
    refine Owns.settled (Owns.release (freeLoop_owns array'.list (h.perm ?_)))
    refine (List.perm_append_comm).trans ?_
    exact (blocks_perm horder).symm.append_right _

/-- What `__listds()` owns at its end: the list. -/
theorem Inv.list_owns {grant : Nat → Bool} {u : UData α} (h : Inv grant u) :
    Owns (freeUnused u) (u.arrayBlock.toList ++ blocks u.array.list) := by
  have howns := h.owns
  rw [← List.append_assoc] at howns
  unfold freeUnused
  cases hcatnm : u.catnm with
  | none =>
    rw [hcatnm, unused, List.append_nil] at howns
    exact howns
  | some cat =>
    rw [hcatnm, unused] at howns
    dsimp only
    split_ifs at howns ⊢
    · rwa [List.append_nil] at howns
    · exact (howns.perm (List.perm_append_singleton _ _)).release

theorem freeUnused_asked (u : UData α) : (freeUnused u).asked = u.store.asked := by
  unfold freeUnused
  split
  · rfl
  · split <;> rfl

/-! ### Lines as LISTCAT prints them -/

/-- A name or a volume: no blank in it, and no dash in front. -/
structure Printed (v : Bytes) : Prop where
  ne : v ≠ []
  front : v.head? ≠ some dash
  solid : ∀ c ∈ v, c ∉ ends

instance (v : Bytes) : Decidable (Printed v) :=
  decidable_of_iff (v ≠ [] ∧ v.head? ≠ some dash ∧ ∀ c ∈ v, c ∉ ends)
    ⟨fun h => ⟨h.1, h.2.1, h.2.2⟩, fun h => ⟨h.1, h.2, h.3⟩⟩

theorem Printed.value {v : Bytes} (h : Printed v) {f r : Bytes} (hne : f ≠ []) (hf : ∀ c ∈ f, c ∈ filler)
    (hr : ∀ c ∈ r.head?, c ∈ ends) : Value (f ++ (v ++ r)) v := ⟨f, r, hne, hf, rfl, h.ne, h.front, h.solid, hr⟩

/-- A keyword behind blanks, and a gap. -/
theorem first_line {m w f : Bytes} (hm : Gap m) (hw : w ≠ [] ∧ startsDigit w = false ∧ ∀ c ∈ w, c ∉ delims)
    (hf : f ≠ [] ∧ Gap f) (hpage : (m ++ w).head? ≠ some one) (t : Bytes) :
    First (m ++ (w ++ (f ++ t))) m w (f ++ t) := by
  obtain ⟨d, f, rfl⟩ := List.exists_cons_of_ne_nil hf.1
  refine ⟨rfl, ?_, .gap hm hw.2.1, hw.1, hw.2.2, fun c hc => ?_⟩
  · rw [← List.append_assoc, List.head?_append_of_ne_nil]
    · exact hpage
    · exact fun hnil => hw.1 (List.append_eq_nil_iff.mp hnil).2
  · rw [List.cons_append, List.head?_cons, Option.mem_some_iff] at hc
    exact hc ▸ hf.2 d List.mem_cons_self

/-- `NONVSAM ------- name`. -/
theorem entry_line {name : Bytes} (h : Printed name) (hdigit : startsDigit name = false) (hlength : name.length ≤ 44) :
    Shows (literal "NONVSAM" ++ (literal " ------- " ++ name)) (.entry name) := by
  have hempty : Gap [] := fun _ hc => absurd hc List.not_mem_nil
  have hfirst := first_line hempty (w := literal "NONVSAM") (f := literal " ------- ") (by decide +kernel)
    (by decide +kernel) (by decide) name
  have hvalue := h.value (f := literal " ------- ") (r := []) (by decide) (by decide +kernel)
    (fun _ hc => absurd hc (Option.not_mem_none _))
  rw [List.append_nil] at hvalue
  exact .entry hfirst (Nat.zero_le 1) (by decide) hvalue hdigit hlength

/-- `     IN-CAT --- name`. -/
theorem catalog_line {name : Bytes} (h : Printed name) :
    Shows (literal "     " ++ (literal "IN" ++ (literal "-" ++ (literal "CAT" ++ (literal " --- " ++ name)))))
      (.catalog name) := by
  have hfirst := first_line (m := literal "     ") (w := literal "IN") (f := literal "-") (by decide +kernel)
    (by decide +kernel) (by decide +kernel) (by decide) (literal "CAT" ++ (literal " --- " ++ name))
  have hvalue := h.value (f := literal " --- ") (r := []) (by decide) (by decide +kernel)
    (fun _ hc => absurd hc (Option.not_mem_none _))
  rw [List.append_nil] at hvalue
  have hcat : Word (literal "CAT") (literal " --- " ++ name) := by
    refine ⟨by decide, by decide +kernel, fun c hc => ?_⟩
    rw [show (literal " --- " ++ name).head? = some (ebcdic ' ') from rfl, Option.mem_some_iff] at hc
    exact hc ▸ by decide
  exact .catalog hfirst (by decide) ⟨_, by decide, by decide +kernel, rfl, hcat⟩ (by decide) hvalue

/-- `       VOLSER------------volser     DEVTYPE------X'3050200B'`. -/
theorem volume_line {volser : Bytes} (h : Printed volser) (hlength : volser.length ≤ 6) (devtype : Bytes) :
    Shows (literal "       " ++ (literal "VOLSER" ++ (literal "------------" ++ (volser ++ ebcdic ' ' :: devtype))))
      (.volume volser) := by
  have hfirst := first_line (m := literal "       ") (w := literal "VOLSER") (f := literal "------------")
    (by decide +kernel) (by decide +kernel) (by decide +kernel) (by decide) (volser ++ ebcdic ' ' :: devtype)
  have hvalue := h.value (f := literal "------------") (r := ebcdic ' ' :: devtype) (by decide) (by decide +kernel) (by
    intro c hc
    rw [List.head?_cons, Option.mem_some_iff] at hc
    exact hc ▸ by decide)
  exact .volume hfirst (by decide) hvalue hlength

/-! ### The claim of the list -/

/-- **`__listds()` delivers the data sets of the listing**, or nothing for want of storage,
when every line is taken as it should be. -/
theorem listds_delivers (filter : Option CString) (grant : Nat → Bool) (locate : Bytes → Option Locwork)
    (dscb : Bytes → Bytes → α) {lines : List CString} {items : List Item}
    (hshows : List.Forall₂ (fun line item => Shows line.val item) lines items)
    (hmeets : AllMeet filter locate grant dscb .start ((lines.map Subtype.val).zip items)) :
    Delivers filter locate grant items (listds filter grant locate dscb (lines.map Subtype.val)) := by
  obtain ⟨u, hlistc, hinv, hlist⟩ := listc_takes hshows (Inv.start grant) rfl hmeets
  have howns := hinv.list_owns
  unfold listds
  rw [hlistc]
  dsimp only
  split_ifs with hfailed
  · refine ⟨?_, freeds_settled hinv.null howns (List.Perm.refl _)⟩
    have hrefused := hinv.refused hfailed
    unfold Refused at hrefused ⊢
    rwa [freeds_asked, freeUnused_asked]
  · exact ⟨hlist.resolve_left hfailed, fun array' horder => freeds_settled hinv.null howns horder⟩

/-- What the records given back say. -/
def given : Option (Outcome α) → List Listed
  | some (.list array _ _) => array.list.map Rec.shown
  | _ => []

/-- With all its storage, it has to come back with the list. -/
theorem Delivers.given {filter : Option CString} {locate : Bytes → Option Locwork} {grant : Nat → Bool}
    (hgrant : ∀ i, grant i = true) {items : List Item} {out : Option (Outcome α)}
    (h : Delivers filter locate grant items out) : Dslist.given out = listing filter locate items := by
  cases out with
  | none => exact h.elim
  | some out =>
    cases out with
    | enomem store =>
      obtain ⟨i, -, hi⟩ := h.1
      exact absurd ((hgrant i).symm.trans hi) (by decide)
    | list array arrayBlock store => exact h.1

/-- The entry `IBMUSER.A`, as LISTCAT prints it, with its catalog and the volume `WORK01`. -/
theorem listds_delivers_entry :
    Delivers (some ⟨literal "IBMUSER.*", by decide⟩) (fun _ => none) (fun _ => true)
      [.entry (literal "IBMUSER.A"), .catalog (literal "UC-PUB01"), .volume (literal "WORK01")]
      (listds (some ⟨literal "IBMUSER.*", by decide⟩) (fun _ => true) (fun _ => none) (fun _ _ => ())
        (List.map Subtype.val ([
          ⟨literal "NONVSAM" ++ (literal " ------- " ++ literal "IBMUSER.A"), by decide⟩,
          ⟨literal "     " ++ (literal "IN" ++ (literal "-" ++
            (literal "CAT" ++ (literal " --- " ++ literal "UC-PUB01")))),
            by decide⟩,
          ⟨literal "       " ++ (literal "VOLSER" ++ (literal "------------" ++
            (literal "WORK01" ++ ebcdic ' ' :: []))),
            by decide⟩] : List CString))) := by
  refine listds_delivers _ _ _ _ (.cons ?_ (.cons ?_ (.cons ?_ .nil))) ⟨fun _ pat hpat => ?_,
    fun u _ => ⟨fun _ _ _ => rfl,
    fun v _ => ⟨fun _ _ => ⟨by decide +kernel, fun _ w hw => by cases hw⟩, fun _ _ => trivial⟩⟩⟩
  · exact entry_line (by decide +kernel) (by decide) (by decide)
  · exact catalog_line (by decide +kernel)
  · exact volume_line (by decide +kernel) (by decide) []
  · obtain rfl := Option.some.inj hpat
    exact Strutil.patmat_within _ (by decide +kernel)

/-- The volume `WORK-1` is cut at its dash. -/
theorem dashed_volume_cut : ∃ (lines : List CString) (items : List Item),
    List.Forall₂ (fun line item => Shows line.val item) lines items ∧
      ¬ Delivers none (fun _ => none) (fun _ => true) items
        (listds none (fun _ => true) (fun _ => none) (fun _ _ => ()) (lines.map Subtype.val)) := by
  refine ⟨[⟨literal "NONVSAM" ++ (literal " ------- " ++ literal "IBMUSER.A"), by decide⟩,
    ⟨literal "       " ++ (literal "VOLSER" ++ (literal "------------" ++ (literal "WORK-1" ++ ebcdic ' ' :: []))),
      by decide⟩],
    [.entry (literal "IBMUSER.A"), .volume (literal "WORK-1")], .cons ?_ (.cons ?_ .nil), fun h => ?_⟩
  · exact entry_line (by decide +kernel) (by decide) (by decide)
  · exact volume_line (by decide +kernel) (by decide) []
  · have hgiven := h.given fun _ => rfl
    exact absurd hgiven (by decide +kernel)

end Libc370.Dslist
