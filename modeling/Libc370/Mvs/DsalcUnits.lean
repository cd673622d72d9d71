import Libc370.Mvs.Dsalc

/-! The text units of a request, and their storage.

What a value asks for is said without storage (`asks`). A builder that has room in the list
adds just these text units when all its requests are granted, and fails otherwise (`Does`),
and so do builders in turn. What remains is the first text unit, for which the list itself
needs storage, the volumes, which are left out where their array gets none, and the values
that `SPACE=` cuts off (`requests_whole_iff`). -/
namespace Libc370.Dynalloc

open Ext Storage

/-! ### What is asked -/

/-- The text units some values ask for, if none of the values is invalid. -/
def together : List (Option (List TXT99)) → Option (List TXT99)
  | [] => some []
  | x :: rest =>
    match x, together rest with
    | some a, some b => some (a ++ b)
    | _, _ => none

/-- A keyword that may be missing. -/
def asked (value : Option Bytes) (asks : Bytes → Option (List TXT99)) : Option (List TXT99) :=
  match value with
  | none => some []
  | some v => asks v

def ddnAsks (ddn : Option Bytes) : TXT99 :=
  match nonempty ddn with
  | some ddn => ⟨.ddnam, [ddn]⟩
  | none => ⟨.rtddn, [List.replicate 8 0]⟩

def dsnAsks (dataset : Bytes) : Option (List TXT99) :=
  if 80 ≤ dataset.length then none
  else
    match dataset.dropWhile (· ≠ lparen) with
    | [] => some [⟨.dsnam, [dataset]⟩]
    | _ :: member =>
      some [⟨.membr, [member.takeWhile (· ≠ rparen)]⟩, ⟨.dsnam, [dataset.takeWhile (· ≠ lparen)]⟩]

def statusAsks : Option Bytes → Option (List TXT99)
  | none => some [⟨.stats, [[0x04]]⟩]
  | some p =>
    if strstr p "NEW" then some [⟨.stats, [[0x04]]⟩]
    else if strstr p "OLD" then some [⟨.stats, [[0x01]]⟩]
    else if strstr p "MOD" then some [⟨.stats, [[0x02]]⟩]
    else if strstr p "SHR" then some [⟨.stats, [[0x08]]⟩]
    else none

def dispositionAsks (dal : Dal) (p : Bytes) : Option (List TXT99) :=
  if strstr p "DEL" then some [⟨dal, [[0x04]]⟩]
  else if strstr p "UNCAT" then some [⟨dal, [[0x01]]⟩]
  else if strstr p "CAT" then some [⟨dal, [[0x02]]⟩]
  else if strstr p "KEEP" then some [⟨dal, [[0x08]]⟩]
  else none

def dispAsks (disp : Bytes) : Option (List TXT99) :=
  let (p, save) := tok separators (some disp)
  let (q, save) := tok separators save
  let (r, _) := tok separators save
  together [statusAsks p, asked q (dispositionAsks .ndisp), asked r (dispositionAsks .cdisp)]

def dcbdAsks (dataset : Bytes) : Option (List TXT99) :=
  if dataset.length = 0 ∨ 44 < dataset.length then none else some [⟨.dcbds, [dataset]⟩]

def orgAsks (dsorg : Bytes) : Option (List TXT99) :=
  (orgTable.find? (fun e => literal e.1 = dsorg)).map fun e => [⟨.dsorg, [low 2 e.2]⟩]

def recfAsks (recfm : Bytes) : Option (List TXT99) :=
  if recfmType recfm = 0 then none else some [⟨.recfm, [[recfmType recfm]]⟩]

def lrecAsks (lrecl : Bytes) : Option (List TXT99) := some [⟨.lrecl, [low 2 (lreclValue lrecl)]⟩]

def bkszAsks (blksize : Bytes) : Option (List TXT99) :=
  if 0 < min (atoi blksize) 32760 then some [⟨.blksz, [low 2 (min (atoi blksize) 32760)]⟩] else none

def unitOfSpaceAsks (unit : Bytes) : Option (List TXT99) :=
  if unit = literal "CYL" then some [⟨.cyl, []⟩]
  else if unit = literal "TRK" then some [⟨.trk, []⟩]
  else if atoi unit ≠ 0 then some [⟨.blkln, [low 3 (atoi unit)]⟩]
  else none

def spacAsks (qty : Bytes) : Option (List TXT99) :=
  if qty.length = 0 then none
  else
    let (p, s, d) := quantities qty
    some (⟨.prime, [low 3 p]⟩ :: ⟨.secnd, [low 3 s]⟩ :: if d ≠ 0 then [⟨.dir, [low 3 d]⟩] else [])

/-- A `SPACE=`, of which the unit and the quantities may be cut to some length. -/
def spaceAsks (cut : Option (Nat × Nat)) (space : Bytes) : Option (List TXT99) :=
  together [unitOfSpaceAsks (match cut with | none => spaceUnit space | some (n, _) => (spaceUnit space).take n),
    asked (spaceQty space) fun qty => spacAsks (match cut with | none => qty | some (_, n) => qty.take n)]

def unitAsks (unit : Bytes) : Option (List TXT99) := if unit.length ≠ 0 then some [⟨.unit, [unit]⟩] else none

/-- A list of volumes, in an array that is NULL when it is empty. -/
def volsAsks (vols : List Bytes) : Option (List TXT99) := if vols = [] then none else some [⟨.vlser, vols⟩]

/-- All keywords, with what `SPACE=` and `VOLSER=` ask for. -/
def askedBy (d : Dsalc) (space vols : Bytes → Option (List TXT99)) : Option (List TXT99) :=
  together [
    some [ddnAsks d.ddn],
    asked (nonempty d.dsn) dsnAsks,
    asked d.disp dispAsks,
    asked d.dcbdsn dcbdAsks,
    asked d.dsorg orgAsks,
    asked d.recfm recfAsks,
    asked d.lrecl lrecAsks,
    asked d.blksize bkszAsks,
    asked d.space space,
    asked d.unit unitAsks,
    asked d.volser vols,
    if d.freeclose then some [⟨.close, []⟩] else some []]

/-- Every text unit that every given keyword asks for. -/
def asks (d : Dsalc) : Option (List TXT99) := askedBy d (spaceAsks none) (fun vols => volsAsks (volumes vols))

/-- SVC 99 is issued only with all text units asked for, without it the return code is not
0, and all text units built are freed once. -/
structure Right (d : Dsalc) (out : Outcome) : Prop where
  whole : ∀ rb99, out.issued = some rb99 → asks d = some rb99.txtptr
  failed : out.issued = none → out.err ≠ 0
  freed : Settled out.store

theorem together_cons (x : Option (List TXT99)) (rest : List (Option (List TXT99))) (l : List TXT99) :
    together (x :: rest) = some l ↔ ∃ a b, x = some a ∧ together rest = some b ∧ a ++ b = l := by
  have heq : together (x :: rest) = match x, together rest with
      | some a, some b => some (a ++ b)
      | _, _ => none := rfl
  rw [heq]
  rcases x with - | a
  · simp
  · rcases together rest with - | b
    · simp
    · simp

section Condition
variable (grant : Request → Bool)

/-- The volumes that get a place. -/
def placed (vols : Bytes) : List Bytes := (placeVolumes grant 0 VArray.null (volumes vols)).list

/-- What the request holds: `SPACE=` is cut, and the volumes are those that get a place. -/
def holds (d : Dsalc) : Option (List TXT99) :=
  askedBy d (spaceAsks (some (11, 31))) (fun vols => volsAsks (placed grant vols))

/-- The other storage that is asked for. -/
def buffers (d : Dsalc) : List Request :=
  [.list] ++ (if (d.space.bind spaceQty).isSome then [.spaceBuf] else []) ++ if d.volser.isSome then [.volsBuf] else []

/-- The values are valid, and the storage for the request is granted. -/
def Issues (d : Dsalc) : Prop :=
  grant .temp = true ∧ ∃ l, holds grant d = some l ∧ (∀ txt ∈ l, grant (.txt99 txt.dal) = true) ∧
    ∀ q ∈ buffers d, grant q = true

/-- When the request is right: the list gets storage once its first text unit is built, and
when SVC 99 is issued each volume has got a place and `SPACE=` loses nothing by being cut. -/
structure Kept (d : Dsalc) : Prop where
  list : grant .temp = true → grant (.txt99 (ddnAsks d.ddn).dal) = true → grant .list = true
  space : Issues grant d → ∀ space ∈ d.space, spaceAsks (some (11, 31)) space = spaceAsks none space
  volser : Issues grant d → ∀ vols ∈ d.volser, placed grant vols = volumes vols

end Condition

/-! ### Builders -/

/-- The text units in the list are the ones in storage. -/
def Tidy (w : Work) : Prop := Owns w.store (w.txt99.list.map Tu.block)

/-- There is room for `n` more. -/
def Room (n : Nat) (w : Work) : Prop := ∃ a, w.txt99 = some a ∧ a.items.length + n ≤ a.size

def Work.units (w : Work) : List TXT99 := w.txt99.list.map Tu.txt

/-- A builder that has room for `n` text units adds those it is asked for, when its requests
are granted, and fails otherwise. -/
structure Does (grant : Request → Bool) (b : Builder) (adds : Option (List TXT99)) (bufs : List Request) (n : Nat) :
    Prop where
  tidy : ∀ w, Tidy w → Room n w → Tidy (b w).2
  succeeds : ∀ w, Room n w → ((b w).1 = 0 ↔
    ∃ l, adds = some l ∧ (∀ txt ∈ l, grant (.txt99 txt.dal) = true) ∧ ∀ q ∈ bufs, grant q = true)
  room : ∀ w m, Room (n + m) w → (b w).1 = 0 → Room m (b w).2
  units : ∀ w, Room n w → (b w).1 = 0 → ∀ l, adds = some l → (b w).2.units = w.units ++ l

theorem Room.less {n m : Nat} {w : Work} (h : Room (n + m) w) : Room n w := by
  obtain ⟨a, ha, hroom⟩ := h
  exact ⟨a, ha, by omega⟩

theorem Room.not_full {n : Nat} {w : Work} (h : Room (n + 1) w) : w.txt99.full = false := by
  obtain ⟨a, ha, hroom⟩ := h
  rw [ha]
  exact decide_eq_false (by omega)

section Builders
variable {grant : Request → Bool}

theorem newTXT99_list (txt : TXT99) (w : Work) : (newTXT99 grant txt w).2.txt99 = w.txt99 := by
  unfold newTXT99
  split <;> rfl

theorem does_invalid (bufs : List Request) : Does grant invalid none bufs 0 := by
  refine ⟨fun _ h _ => h, fun w _ => ?_, fun w m _ h => ?_, fun w _ _ l h => ?_⟩
  · refine iff_of_false (fun h => ?_) fun ⟨l, h, _⟩ => ?_
    · exact absurd h (by show ¬ (1 : Int) = 0; decide)
    · cases h
  · exact absurd h (by show ¬ (1 : Int) = 0; decide)
  · cases h

theorem does_nothing : Does grant (fun w => (0, w)) (some []) [] 0 := by
  refine ⟨fun _ h _ => h, fun w _ => ?_, fun w m h _ => by rwa [Nat.zero_add] at h, fun w _ _ l h => ?_⟩
  · exact iff_of_true rfl ⟨[], rfl, fun _ h => absurd h List.not_mem_nil, fun _ h => absurd h List.not_mem_nil⟩
  · rw [← Option.some.inj h, List.append_nil]

theorem Does.more {b : Builder} {adds : Option (List TXT99)} {bufs : List Request} {n : Nat}
    (h : Does grant b adds bufs n) (k : Nat) : Does grant b adds bufs (n + k) := by
  refine ⟨fun w ht hr => h.tidy w ht hr.less, fun w hr => h.succeeds w hr.less, fun w m hr hz => ?_,
    fun w hr => h.units w hr.less⟩
  refine h.room w m ?_ hz
  rw [Nat.add_right_comm] at hr
  exact hr.less

/-- With room in the list, a text unit is added when its storage is granted. -/
theorem addTXT99_room {n : Nat} {w : Work} (h : Room (n + 1) w) (frees : Bool) (code : Int → Int) (txt : TXT99) :
    (grant (.txt99 txt.dal) = true ∧ ∃ b txt99, addTXT99 grant frees code txt w =
        (0, ⟨txt99, ⟨w.store.asked + 1, w.store.got ++ [b], w.store.freed⟩⟩) ∧ b = w.store.asked ∧
        txt99.list = w.txt99.list ++ [⟨b, txt⟩] ∧ Room n ⟨txt99,
          ⟨w.store.asked + 1, w.store.got ++ [b], w.store.freed⟩⟩) ∨
      (grant (.txt99 txt.dal) = false ∧ addTXT99 grant frees code txt w =
        (1, ⟨w.txt99, ⟨w.store.asked + 1, w.store.got, w.store.freed⟩⟩)) := by
  obtain ⟨a, ha, hroom⟩ := h
  rcases request_cases (fun _ => grant (.txt99 txt.dal)) w.store with ⟨hgrant, hrequest⟩ | ⟨hgrant, hrequest⟩
  · left
    have hlt : a.items.length < a.size := by omega
    have hadd : arrayadd (grant .list) w.txt99 ⟨w.store.asked, txt⟩ = (0, some (a.push ⟨w.store.asked, txt⟩ hlt)) := by
      rw [ha]
      unfold arrayadd
      dsimp only
      rw [dif_pos hlt]
      rfl
    refine ⟨hgrant, w.store.asked, some (a.push ⟨w.store.asked, txt⟩ hlt), ?_, rfl, by rw [ha]; rfl, _, rfl, ?_⟩
    · unfold addTXT99 newTXT99
      rw [hrequest]
      dsimp only
      rw [hadd]
      rfl
    · show (a.items ++ [_]).length + n ≤ a.size
      rw [List.length_append, List.length_singleton]
      omega
  · right
    refine ⟨hgrant, ?_⟩
    unfold addTXT99 newTXT99
    rw [hrequest]

theorem does_add (frees : Bool) (code : Int → Int) (txt : TXT99) :
    Does grant (addTXT99 grant frees code txt) (some [txt]) [] 1 := by
  have hno : ¬ ((1 : Int) = 0) := by decide
  refine ⟨fun w ht hr => ?_, fun w hr => ?_, fun w m hr hz => ?_, fun w hr hz l hl => ?_⟩
  · rcases addTXT99_room (n := 0) hr frees code txt with ⟨-, b, txt99, hadd, hb, hlist, -⟩ | ⟨-, hadd⟩
    · rw [hadd, Tidy, hlist, List.map_append, List.map_singleton, hb]
      exact (Owns.granted ht).perm (List.perm_append_singleton _ _).symm
    · rw [hadd]
      exact Owns.refused ht
  · rcases addTXT99_room (n := 0) hr frees code txt with ⟨hgrant, b, txt99, hadd, -⟩ | ⟨hgrant, hadd⟩
    · rw [hadd]
      exact iff_of_true rfl ⟨[txt], rfl, fun t ht => by rwa [List.mem_singleton.mp ht],
        fun _ h => absurd h List.not_mem_nil⟩
    · rw [hadd]
      refine iff_of_false hno ?_
      rintro ⟨l, hl, hall, -⟩
      have hgranted := hall txt (by rw [← Option.some.inj hl]; exact List.mem_singleton_self txt)
      rw [hgrant] at hgranted
      cases hgranted
  · rw [Nat.add_comm] at hr
    rcases addTXT99_room hr frees code txt with ⟨-, b, txt99, hadd, -, -, hroom⟩ | ⟨-, hadd⟩
    · rw [hadd]
      exact hroom
    · rw [hadd] at hz
      exact absurd hz hno
  · rcases addTXT99_room (n := 0) hr frees code txt with ⟨-, b, txt99, hadd, -, hlist, -⟩ | ⟨-, hadd⟩
    · rw [hadd, Work.units, hlist, List.map_append, ← Option.some.inj hl]
      rfl
    · rw [hadd] at hz
      exact absurd hz hno

/-- Builders in turn add what they are asked for together. -/
theorem Does.cons {b : Builder} {adds : Option (List TXT99)} {bufs : List Request} {n : Nat}
    (h : Does grant b adds bufs n) {bs : List Builder} {rest : List (Option (List TXT99))} {bufs' : List Request}
    {n' : Nat}
    (hrest : Does grant (inTurn bs) (together rest) bufs' n') :
    Does grant (inTurn (b :: bs)) (together (adds :: rest)) (bufs ++ bufs') (n + n') := by
  have hstops : ∀ w, (b w).1 ≠ 0 → inTurn (b :: bs) w = b w := by
    intro w hz
    rw [inTurn]
    exact if_pos hz
  have hgoes : ∀ w, (b w).1 = 0 → inTurn (b :: bs) w = inTurn bs (b w).2 := by
    intro w hz
    rw [inTurn]
    exact if_neg (not_not.mpr hz)
  have htogether := together_cons adds rest
  refine ⟨fun w ht hr => ?_, fun w hr => ?_, fun w m hr hz => ?_, fun w hr hz l hl => ?_⟩
  · by_cases hz : (b w).1 = 0
    · rw [hgoes w hz]
      exact hrest.tidy _ (h.tidy w ht hr.less) (h.room w _ hr hz)
    · rw [hstops w hz]
      exact h.tidy w ht hr.less
  · by_cases hz : (b w).1 = 0
    · rw [hgoes w hz, hrest.succeeds _ (h.room w _ hr hz)]
      obtain ⟨x, hx, hxtxt, hxbufs⟩ := (h.succeeds w hr.less).mp hz
      constructor
      · rintro ⟨y, hy, hytxt, hybufs⟩
        refine ⟨x ++ y, (htogether _).mpr ⟨x, y, hx, hy, rfl⟩, fun t ht => ?_, fun q hq => ?_⟩
        · exact (List.mem_append.mp ht).elim (hxtxt t) (hytxt t)
        · exact (List.mem_append.mp hq).elim (hxbufs q) (hybufs q)
      · rintro ⟨l, hl, htxt, hbufs⟩
        obtain ⟨x', y, -, hy, rfl⟩ := (htogether _).mp hl
        exact ⟨y, hy, fun t ht => htxt t (List.mem_append_right _ ht), fun q hq => hbufs q (List.mem_append_right _ hq)⟩
    · rw [hstops w hz]
      refine iff_of_false hz ?_
      rintro ⟨l, hl, htxt, hbufs⟩
      obtain ⟨x, y, hx, -, rfl⟩ := (htogether _).mp hl
      exact hz ((h.succeeds w hr.less).mpr
        ⟨x, hx, fun t ht => htxt t (List.mem_append_left _ ht), fun q hq => hbufs q (List.mem_append_left _ hq)⟩)
  · by_cases hb : (b w).1 = 0
    · rw [hgoes w hb] at hz ⊢
      rw [Nat.add_assoc] at hr
      exact hrest.room _ _ (h.room w _ hr hb) hz
    · rw [hstops w hb] at hz
      exact absurd hz hb
  · by_cases hb : (b w).1 = 0
    · rw [hgoes w hb] at hz ⊢
      obtain ⟨x, y, hx, hy, rfl⟩ := (htogether _).mp hl
      rw [hrest.units _ (h.room w _ hr hb) hz y hy, h.units w hr.less hb x hx, List.append_assoc]
    · rw [hstops w hb] at hz
      exact absurd hz hb

theorem does_end : Does grant (inTurn []) (together []) [] 0 := does_nothing

theorem inTurn_one (b : Builder) : inTurn [b] = b := by
  funext w
  rw [inTurn]
  dsimp only
  split_ifs with hz
  · rfl
  · rw [inTurn, ← not_not.mp hz]

theorem inTurn_cons (a : Builder) (bs : List Builder) :
    inTurn (a :: bs) = fun w => if (a w).1 ≠ 0 then ((a w).1, (a w).2) else inTurn bs (a w).2 := rfl

theorem inTurn_at (a : Builder) (bs : List Builder) (w : Work) :
    inTurn (a :: bs) w = if (a w).1 ≠ 0 then a w else inTurn bs (a w).2 := rfl

theorem does_given (value : Option Bytes) {b : Bytes → Builder} {asks : Bytes → Option (List TXT99)} {n : Nat}
    (h : ∀ v, Does grant (b v) (asks v) [] n) : Does grant (given value b) (asked value asks) [] n := by
  cases value with
  | none =>
    have hnone := (@does_nothing grant).more n
    rwa [Nat.zero_add] at hnone
  | some v => exact h v

theorem does_txdsn (dataset : Bytes) : Does grant (txdsn grant dataset) (dsnAsks dataset) [] 2 := by
  unfold txdsn dsnAsks
  split_ifs
  · exact (does_invalid []).more 2
  · generalize dataset.dropWhile (· ≠ lparen) = rest
    cases rest with
    | nil => exact (does_add true theirs _).more 1
    | cons _ member =>
      have htwo := (@does_add grant true ours ⟨.membr, [member.takeWhile (· ≠ rparen)]⟩).cons
        ((does_add true theirs ⟨.dsnam, [dataset.takeWhile (· ≠ lparen)]⟩).cons does_end)
      rw [inTurn_cons, inTurn_one] at htwo
      exact htwo

theorem does_status (p : Option Bytes) : Does grant (status grant p) (statusAsks p) [] 1 := by
  unfold status statusAsks
  cases p with
  | none => exact does_add false ours _
  | some p =>
    dsimp only
    split_ifs
    · exact does_add false ours _
    · exact does_add false ours _
    · exact does_add false ours _
    · exact does_add false ours _
    · exact (does_invalid []).more 1

theorem does_disposition {dal : Dal} (p : Bytes) :
    Does grant (disposition (addTXT99 grant false theirs ⟨dal, [[0x04]]⟩) (addTXT99 grant false theirs ⟨dal, [[0x01]]⟩)
      (addTXT99 grant false theirs ⟨dal, [[0x02]]⟩) (addTXT99 grant false theirs ⟨dal, [[0x08]]⟩) p)
      (dispositionAsks dal p) [] 1 := by
  unfold disposition dispositionAsks
  split_ifs
  · exact does_add false theirs _
  · exact does_add false theirs _
  · exact does_add false theirs _
  · exact does_add false theirs _
  · exact (does_invalid []).more 1

theorem does_disp (disp : Bytes) : Does grant (dsdisp grant disp) (dispAsks disp) [] 3 :=
  (does_status _).cons ((does_given _ fun p => does_disposition p).cons
  ((does_given _ fun p => does_disposition p).cons does_end))

theorem does_txdcbd (dataset : Bytes) : Does grant (txdcbd grant dataset) (dcbdAsks dataset) [] 1 := by
  unfold txdcbd dcbdAsks
  split_ifs
  · exact (does_invalid []).more 1
  · exact does_add true theirs _

theorem does_txorg (dsorg : Bytes) : Does grant (txorg grant dsorg) (orgAsks dsorg) [] 1 := by
  unfold txorg orgAsks
  split
  · next hnone =>
    rw [hnone]
    exact (does_invalid []).more 1
  · next hsome =>
    rw [hsome]
    exact does_add false theirs _

theorem does_txrecf (recfm : Bytes) : Does grant (txrecf grant recfm) (recfAsks recfm) [] 1 := by
  unfold txrecf recfAsks
  split_ifs
  · exact (does_invalid []).more 1
  · exact does_add false theirs _

theorem does_txlrec (lrecl : Bytes) : Does grant (txlrec grant lrecl) (lrecAsks lrecl) [] 1 := does_add false theirs _

theorem does_txbksz (blksize : Bytes) : Does grant (txbksz grant blksize) (bkszAsks blksize) [] 1 := by
  unfold txbksz bkszAsks
  dsimp only
  split_ifs
  · exact does_add false theirs _
  · exact (does_invalid []).more 1

theorem does_txunit (unit : Bytes) : Does grant (txunit grant unit) (unitAsks unit) [] 1 := by
  unfold txunit unitAsks
  split_ifs
  · exact does_add false theirs _
  · exact (does_invalid []).more 1

theorem does_unitOfSpace (unit : Bytes) :
    Does grant (if unit = literal "CYL" then txcyl grant else if unit =
      literal "TRK" then txtrk grant else txblk grant unit)
      (unitOfSpaceAsks unit) [] 1 := by
  unfold unitOfSpaceAsks txblk
  split_ifs
  · exact does_add false theirs _
  · exact does_add false theirs _
  · exact does_add false theirs _
  · exact (does_invalid []).more 1

/-- A builder fails without a buffer. -/
theorem Does.needs {b : Builder} {adds : Option (List TXT99)} {n : Nat} {q : Request} (h : Does grant b adds [] n)
    {b' : Builder} (hgranted : grant q = true → ∀ w, Room n w → b' w = b w)
    (hrefused : grant q = false → ∀ w, b' w = (1, w)) : Does grant b' adds [q] n := by
  cases hq : grant q with
  | true =>
    have hsame := hgranted hq
    refine ⟨fun w ht hr => ?_, fun w hr => ?_, fun w m hr hz => ?_, fun w hr hz => ?_⟩
    · rw [hsame w hr]
      exact h.tidy w ht hr
    · rw [hsame w hr, h.succeeds w hr]
      refine exists_congr fun l => and_congr_right fun _ => and_congr_right fun _ => ?_
      exact iff_of_true (fun _ hmem => absurd hmem List.not_mem_nil) (List.forall_mem_singleton.mpr hq)
    · rw [hsame w hr.less] at hz ⊢
      exact h.room w m hr hz
    · rw [hsame w hr] at hz ⊢
      exact h.units w hr hz
  | false =>
    have hfails := hrefused hq
    have hno : ¬ ((1 : Int) = 0) := by decide
    refine ⟨fun w ht hr => ?_, fun w hr => ?_, fun w m hr hz => ?_, fun w hr hz => ?_⟩
    · rw [hfails w]
      exact ht
    · rw [hfails w]
      refine iff_of_false hno ?_
      rintro ⟨-, -, -, hall⟩
      have hgrant := hall q (List.mem_singleton_self q)
      rw [hq] at hgrant
      cases hgrant
    · rw [hfails w] at hz
      exact absurd hz hno
    · rw [hfails w] at hz
      exact absurd hz hno

/-- The quantities, in a list with room for them. -/
theorem does_quantities (p s d : Int) :
    Does grant (inTurn [addTXT99 grant false theirs ⟨.prime, [low 3 p]⟩,
      addTXT99 grant false theirs ⟨.secnd, [low 3 s]⟩,
        if d ≠ 0 then addTXT99 grant false theirs ⟨.dir, [low 3 d]⟩ else fun w => (0, w)])
      (some (⟨.prime, [low 3 p]⟩ :: ⟨.secnd, [low 3 s]⟩ :: if d ≠ 0 then [⟨.dir, [low 3 d]⟩] else [])) [] 3 := by
  have hdir : Does grant (if d ≠ 0 then addTXT99 grant false theirs ⟨.dir, [low 3 d]⟩ else fun w => (0, w))
      (some (if d ≠ 0 then [⟨.dir, [low 3 d]⟩] else [])) [] 1 := by
    split_ifs
    · exact does_add false theirs _
    · exact does_nothing.more 1
  have hall := (@does_add grant false theirs ⟨.prime, [low 3 p]⟩).cons
    ((does_add false theirs ⟨.secnd, [low 3 s]⟩).cons (hdir.cons does_end))
  have htogether : together [some [⟨.prime, [low 3 p]⟩], some [⟨.secnd, [low 3 s]⟩],
      some (if d ≠ 0 then [⟨.dir, [low 3 d]⟩] else [])] =
      some (⟨.prime, [low 3 p]⟩ :: ⟨.secnd, [low 3 s]⟩ :: if d ≠ 0 then [⟨.dir, [low 3 d]⟩] else []) := by
    show some (_ ++ (_ ++ (_ ++ []))) = _
    rw [List.append_nil]
    rfl
  rwa [htogether] at hall

/-- With room, the return code that `__txspac()` loses is 0. -/
theorem txspac_room {qty : Bytes} (hqty : qty.length ≠ 0) (hbuf : grant .spaceBuf = true) {w : Work} (hr : Room 3 w) :
    txspac grant qty w =
      inTurn [addTXT99 grant false theirs ⟨.prime, [low 3 (quantities qty).1]⟩,
        addTXT99 grant false theirs ⟨.secnd, [low 3 (quantities qty).2.1]⟩,
        if (quantities qty).2.2 ≠ 0 then addTXT99 grant false theirs ⟨.dir, [low 3 (quantities qty).2.2]⟩
        else fun w => (0, w)] w := by
  have hguard : ¬ (qty.length = 0 ∨ grant .spaceBuf = false) := by
    rintro (h | h)
    · exact hqty h
    · exact absurd (hbuf.symm.trans h) (by decide)
  unfold txspac
  rw [if_neg hguard, inTurn_cons]
  dsimp only
  split
  · rfl
  · next hz =>
    have hroom := (does_add false theirs ⟨.prime, [low 3 (quantities qty).1]⟩).room w 2 hr (not_not.mp hz)
    generalize (addTXT99 grant false theirs ⟨.prime, [low 3 (quantities qty).1]⟩ w).2 = v at hroom
    rw [inTurn_cons]
    dsimp only
    rcases hnew : newTXT99 grant ⟨.secnd, [low 3 (quantities qty).2.1]⟩ v with ⟨- | tu, v'⟩
    · have hadd : addTXT99 grant false theirs ⟨.secnd, [low 3 (quantities qty).2.1]⟩ v = (1, v') := by
        unfold addTXT99
        rw [hnew]
      rw [hadd]
      rfl
    · have hlist : v'.txt99 = v.txt99 := by
        have hkept := @newTXT99_list grant ⟨.secnd, [low 3 (quantities qty).2.1]⟩ v
        rwa [hnew] at hkept
      obtain ⟨hrc, -, -⟩ := arrayadd_room (hlist ▸ hroom.not_full) (grant .list) tu
      have hadd : addTXT99 grant false theirs ⟨.secnd, [low 3 (quantities qty).2.1]⟩ v =
          (0, ⟨(arrayadd (grant .list) v'.txt99 tu).2, v'.store⟩) := by
        unfold addTXT99
        rw [hnew]
        dsimp only
        rw [if_pos hrc]
      rw [hadd, inTurn_one]
      dsimp only
      rw [if_neg (not_not.mpr rfl), hrc]
      split_ifs <;> rfl

theorem does_txspac (qty : Bytes) : Does grant (txspac grant qty) (spacAsks qty) [.spaceBuf] 3 := by
  unfold spacAsks
  by_cases hqty : qty.length = 0
  · rw [if_pos hqty]
    refine ((does_invalid []).more 3).needs (fun _ w _ => ?_) (fun _ w => ?_)
    · unfold txspac
      rw [if_pos (.inl hqty)]
      rfl
    · unfold txspac
      rw [if_pos (.inl hqty)]
  · rw [if_neg hqty]
    refine (does_quantities _ _ _).needs (fun hbuf w hr => txspac_room hqty hbuf hr) (fun hbuf w => ?_)
    unfold txspac
    rw [if_pos (.inr hbuf)]

theorem does_dsspace (space : Bytes) :
    Does grant (dsspace grant space) (spaceAsks (some (11, 31)) space)
      (if (spaceQty space).isSome then [.spaceBuf] else []) 4 := by
  unfold dsspace spaceAsks
  dsimp only
  cases hqty : spaceQty space with
  | none =>
    have hall := (@does_unitOfSpace grant ((spaceUnit space).take 11)).cons ((does_nothing.more 3).cons does_end)
    exact hall
  | some qty =>
    have hall := (@does_unitOfSpace grant ((spaceUnit space).take 11)).cons ((does_txspac (qty.take 31)).cons does_end)
    exact hall

/-! ### Volumes -/

/-- An array of volumes is NULL or has one. -/
theorem placeVolumes_some {vols : List Bytes} {n : Nat} {tmp : VArray Bytes} (h : tmp = VArray.null ∨ tmp.list ≠ []) :
    placeVolumes grant n tmp vols = VArray.null ∨ (placeVolumes grant n tmp vols).list ≠ [] := by
  induction vols generalizing n tmp with
  | nil => exact h
  | cons p rest ih =>
    rw [placeVolumes]
    refine ih ?_
    rcases arrayadd_cases (grant (.volsTmp n)) tmp p with ⟨-, hlist⟩ | ⟨-, -, hsame⟩
    · rw [hlist]
      exact .inr (List.append_ne_nil_of_right_ne_nil _ (List.cons_ne_nil _ _))
    · rw [hsame]
      exact h

theorem does_txvols (vols : Bytes) : Does grant (txvols grant vols) (volsAsks (placed grant vols)) [.volsBuf] 1 := by
  have hloop : Does grant
      ((placeVolumes grant 0 VArray.null (volumes vols)).elim invalid fun tmp => addTXT99 grant false theirs ⟨.vlser,
      tmp.items⟩)
      (volsAsks (placed grant vols)) [] 1 := by
    have hsome : placeVolumes grant 0 VArray.null (volumes vols) = VArray.null ∨
        (placeVolumes grant 0 VArray.null (volumes vols)).list ≠ [] := placeVolumes_some (.inl rfl)
    unfold placed
    generalize placeVolumes grant 0 VArray.null (volumes vols) = tmp at hsome
    cases tmp with
    | none => exact (does_invalid []).more 1
    | some tmp =>
      have hne : tmp.items ≠ [] := hsome.resolve_left (Option.some_ne_none _)
      have hasks : volsAsks (VArray.list (some tmp)) = some [⟨.vlser, tmp.items⟩] := if_neg hne
      rw [hasks]
      exact does_add false theirs _
  refine hloop.needs (fun hbuf w _ => ?_) (fun hbuf w => ?_)
  · unfold txvols
    by_cases hvols : vols.length = 0
    · rw [if_pos (.inl hvols), List.length_eq_zero_iff.mp hvols]
      rfl
    · rw [if_neg]
      · cases placeVolumes grant 0 VArray.null (volumes vols) <;> rfl
      · rintro (h | h)
        · exact hvols h
        · exact absurd (hbuf.symm.trans h) (by decide)
  · unfold txvols
    rw [if_pos (.inr hbuf)]

/-! ### The first text unit and the others -/

/-- The builders behind the first. -/
def others (grant : Request → Bool) (d : Dsalc) : List Builder :=
  [given (nonempty d.dsn) (txdsn grant), given d.disp (dsdisp grant), given d.dcbdsn (txdcbd grant),
    given d.dsorg (txorg grant), given d.recfm (txrecf grant), given d.lrecl (txlrec grant),
    given d.blksize (txbksz grant), given d.space (dsspace grant), given d.unit (txunit grant),
    given d.volser (txvols grant), if d.freeclose then txclos grant else fun w => (0, w)]

/-- What they are asked for. -/
def othersAsked (d : Dsalc) (space vols : Bytes → Option (List TXT99)) : List (Option (List TXT99)) :=
  [asked (nonempty d.dsn) dsnAsks, asked d.disp dispAsks, asked d.dcbdsn dcbdAsks, asked d.dsorg orgAsks,
    asked d.recfm recfAsks, asked d.lrecl lrecAsks, asked d.blksize bkszAsks, asked d.space space,
    asked d.unit unitAsks, asked d.volser vols, if d.freeclose then some [⟨.close, []⟩] else some []]

theorem dsunits_eq (d : Dsalc) :
    dsunits grant d = inTurn (addTXT99 grant false theirs (ddnAsks d.ddn) :: others grant d) := by
  unfold dsunits others ddnAsks
  cases nonempty d.ddn <;> rfl

theorem does_others (d : Dsalc) :
    Does grant (inTurn (others grant d))
      (together (othersAsked d (spaceAsks (some (11, 31))) (fun vols => volsAsks (placed grant vols))))
      ((if (d.space.bind spaceQty).isSome then [.spaceBuf] else []) ++ if d.volser.isSome then [.volsBuf] else []) 17 := by
  have hspace : Does grant (given d.space (dsspace grant)) (asked d.space (spaceAsks (some (11, 31))))
      (if (d.space.bind spaceQty).isSome then [.spaceBuf] else []) 4 := by
    cases d.space with
    | none => exact does_nothing.more 4
    | some space => exact does_dsspace space
  have hvolser : Does grant (given d.volser (txvols grant)) (asked d.volser fun vols => volsAsks (placed grant vols))
      (if d.volser.isSome then [.volsBuf] else []) 1 := by
    cases d.volser with
    | none => exact does_nothing.more 1
    | some vols => exact does_txvols vols
  have hclose : Does grant (if d.freeclose then txclos grant else fun w => (0, w))
      (if d.freeclose then some [⟨.close, []⟩] else some []) [] 1 := by
    split_ifs
    · exact does_add true ours _
    · exact does_nothing.more 1
  have hall := (does_given (nonempty d.dsn) does_txdsn).cons <|
    (does_given d.disp does_disp).cons <| (does_given d.dcbdsn does_txdcbd).cons <|
    (does_given d.dsorg does_txorg).cons <| (does_given d.recfm does_txrecf).cons <|
    (does_given d.lrecl does_txlrec).cons <| (does_given d.blksize does_txbksz).cons <|
    hspace.cons <| (does_given d.unit does_txunit).cons <| hvolser.cons <| hclose.cons does_end
  simp only [List.nil_append, List.append_nil] at hall
  exact hall

/-- The first text unit, and the list. -/
theorem first_cases (txt : TXT99) :
    (grant (.txt99 txt.dal) = false ∧ addTXT99 grant false theirs txt .start = (1, ⟨VArray.null, ⟨1, [], []⟩⟩)) ∨
      (grant (.txt99 txt.dal) = true ∧ grant .list = false ∧
        addTXT99 grant false theirs txt .start = (-1, ⟨VArray.null, ⟨1, [0], []⟩⟩)) ∨
      (grant (.txt99 txt.dal) = true ∧ grant .list = true ∧ (addTXT99 grant false theirs txt .start).1 = 0 ∧
        Tidy (addTXT99 grant false theirs txt .start).2 ∧ Room 17 (addTXT99 grant false theirs txt .start).2 ∧
        (addTXT99 grant false theirs txt .start).2.units = [txt]) := by
  unfold addTXT99 newTXT99 Storage.request
  cases hunit : grant (.txt99 txt.dal) with
  | false => exact .inl ⟨rfl, rfl⟩
  | true =>
    cases hlist : grant .list with
    | false => exact .inr (.inl ⟨rfl, rfl, rfl⟩)
    | true =>
      have hroom : 1 + 17 ≤ arrayDefault := by decide
      exact .inr (.inr ⟨rfl, rfl, rfl, Owns.granted Owns.empty, ⟨_, rfl, hroom⟩, rfl⟩)

end Builders

/-- The text units in the list are freed, each once. -/
theorem freeTXT99Array_settled {w : Work} (h : Tidy w) : Settled (freeTXT99Array w) := by
  have hloop : ∀ (list : List Tu) (s : Store), Owns s (list.map Tu.block) →
      Settled (list.foldl (fun store tu => release store tu.block) s) := by
    intro list
    induction list with
    | nil => exact fun s hs => hs.settled
    | cons tu list ih => exact fun s hs => ih _ (Owns.release hs)
  exact hloop _ _ h

/-! ### The request against what is asked -/

theorem askedBy_eq (d : Dsalc) (space vols : Bytes → Option (List TXT99)) :
    askedBy d space vols = together (some [ddnAsks d.ddn] :: othersAsked d space vols) := rfl

/-- All keywords ask for something, each for its part. -/
theorem askedBy_parts (d : Dsalc) (space vols : Bytes → Option (List TXT99)) (l : List TXT99) :
    askedBy d space vols = some l ↔
      ∃ front s u v c, together [some [ddnAsks d.ddn], asked (nonempty d.dsn) dsnAsks, asked d.disp dispAsks,
          asked d.dcbdsn dcbdAsks, asked d.dsorg orgAsks, asked d.recfm recfAsks, asked d.lrecl lrecAsks,
          asked d.blksize bkszAsks] = some front ∧
        asked d.space space = some s ∧ asked d.unit unitAsks = some u ∧ asked d.volser vols = some v ∧
        (if d.freeclose then some [⟨.close, []⟩] else some []) = some c ∧ front ++ (s ++ (u ++ (v ++ c))) = l := by
  have happend : ∀ (xs ys : List (Option (List TXT99))) (l : List TXT99),
      together (xs ++ ys) = some l ↔ ∃ a b, together xs = some a ∧ together ys = some b ∧ a ++ b = l := by
    intro xs
    induction xs with
    | nil =>
      intro ys l
      rw [List.nil_append, together]
      simp
    | cons x xs ih =>
      intro ys l
      rw [List.cons_append, together_cons]
      constructor
      · rintro ⟨a, b, ha, hb, rfl⟩
        obtain ⟨b₁, b₂, hb₁, hb₂, rfl⟩ := (ih ys b).mp hb
        exact ⟨a ++ b₁, b₂, (together_cons x xs _).mpr ⟨a, b₁, ha, hb₁, rfl⟩, hb₂, List.append_assoc _ _ _⟩
      · rintro ⟨a, b, ha, hb, rfl⟩
        obtain ⟨a₁, a₂, ha₁, ha₂, rfl⟩ := (together_cons x xs a).mp ha
        exact ⟨a₁, a₂ ++ b, ha₁, (ih ys _).mpr ⟨a₂, b, ha₂, hb, rfl⟩, (List.append_assoc _ _ _).symm⟩
  have hsplit : askedBy d space vols = together ([some [ddnAsks d.ddn], asked (nonempty d.dsn) dsnAsks,
      asked d.disp dispAsks,
      asked d.dcbdsn dcbdAsks, asked d.dsorg orgAsks, asked d.recfm recfAsks, asked d.lrecl lrecAsks,
      asked d.blksize bkszAsks] ++ [asked d.space space, asked d.unit unitAsks, asked d.volser vols,
        if d.freeclose then some [⟨.close, []⟩] else some []]) := rfl
  rw [hsplit, happend]
  constructor
  · rintro ⟨front, b, hfront, hb, rfl⟩
    obtain ⟨s, b₁, hs, hb₁, rfl⟩ := (together_cons _ _ _).mp hb
    obtain ⟨u, b₂, hu, hb₂, rfl⟩ := (together_cons _ _ _).mp hb₁
    obtain ⟨v, b₃, hv, hb₃, rfl⟩ := (together_cons _ _ _).mp hb₂
    obtain ⟨c, b₄, hc, hb₄, rfl⟩ := (together_cons _ _ _).mp hb₃
    obtain rfl : [] = b₄ := Option.some.inj hb₄
    exact ⟨front, s, u, v, c, hfront, hs, hu, hv, hc, by rw [List.append_nil]⟩
  · rintro ⟨front, s, u, v, c, hfront, hs, hu, hv, hc, rfl⟩
    refine ⟨front, _, hfront, ?_, rfl⟩
    refine (together_cons _ _ _).mpr ⟨s, _, hs, (together_cons _ _ _).mpr ⟨u, _, hu, (together_cons _ _ _).mpr
      ⟨v, _, hv, (together_cons _ _ _).mpr ⟨c, [], hc, rfl, rfl⟩, rfl⟩, rfl⟩, ?_⟩
    rw [List.append_nil]

theorem asked_vols_length {value : Option Bytes} {f g : Bytes → List Bytes} {v v' : List TXT99}
    (h : (asked value fun vols => volsAsks (f vols)) = some v)
    (h' : (asked value fun vols => volsAsks (g vols)) = some v') :
    v.length = v'.length := by
  have hone : ∀ {vols : List Bytes} {v : List TXT99}, volsAsks vols = some v → v.length = 1 := by
    intro vols v hv
    unfold volsAsks at hv
    split_ifs at hv
    rw [← Option.some.inj hv]
    rfl
  cases value with
  | none => rw [← Option.some.inj h, ← Option.some.inj h']
  | some vols => rw [hone h, hone h']

/-- What the request holds is what is asked, when nothing is cut and all volumes are placed. -/
theorem holds_asks_iff {grant : Request → Bool} {d : Dsalc} {l : List TXT99} (h : holds grant d = some l) :
    asks d = some l ↔
      (∀ space ∈ d.space, spaceAsks (some (11, 31)) space = spaceAsks none space) ∧
        ∀ vols ∈ d.volser, placed grant vols = volumes vols := by
  constructor
  · intro hasks
    obtain ⟨front, s, u, v, c, hfront, hs, hu, hv, hc, rfl⟩ := (askedBy_parts _ _ _ _).mp h
    obtain ⟨front', s', u', v', c', hfront', hs', hu', hv', hc', hsame⟩ := (askedBy_parts _ _ _ _).mp hasks
    obtain rfl := Option.some.inj (hfront.symm.trans hfront')
    obtain rfl := Option.some.inj (hu.symm.trans hu')
    obtain rfl := Option.some.inj (hc.symm.trans hc')
    have hlength := asked_vols_length hv' hv
    obtain ⟨rfl, hbehind⟩ := List.append_inj' (List.append_cancel_left hsame)
        (by simp only [List.length_append, hlength])
    obtain rfl := List.append_cancel_right (List.append_cancel_left hbehind)
    refine ⟨fun space hspace => ?_, fun vols hvols => ?_⟩
    · rw [hspace] at hs hs'
      exact hs.trans hs'.symm
    · rw [hvols] at hv hv'
      have hboth : volsAsks (placed grant vols) = volsAsks (volumes vols) := hv.trans hv'.symm
      have hv : volsAsks (placed grant vols) = some _ := hv
      unfold volsAsks at hboth hv
      split_ifs at hboth hv
      simpa using hboth
  · rintro ⟨hspace, hvols⟩
    rw [← h, asks, holds, askedBy_eq, askedBy_eq, othersAsked, othersAsked]
    have hs : asked d.space (spaceAsks none) = asked d.space (spaceAsks (some (11, 31))) := by
      cases hd : d.space with
      | none => rfl
      | some space => exact (hspace space hd).symm
    have hv : (asked d.volser fun vols => volsAsks (volumes vols)) =
        asked d.volser fun vols => volsAsks (placed grant vols) := by
      cases hd : d.volser with
      | none => rfl
      | some vols => exact congrArg volsAsks (hvols vols hd).symm
    rw [hs, hv]

/-- Once its first text unit is in the list, a request is issued when the others are. -/
theorem issues_iff {grant : Request → Bool} {d : Dsalc} (htemp : grant .temp = true)
    (hunit : grant (.txt99 (ddnAsks d.ddn).dal) = true) (hlist : grant .list = true) :
    Issues grant d ↔
      ∃ l, together (othersAsked d (spaceAsks (some (11, 31))) (fun vols => volsAsks (placed grant vols))) = some l ∧
        (∀ txt ∈ l, grant (.txt99 txt.dal) = true) ∧
        ∀ q ∈ (if (d.space.bind spaceQty).isSome then [Request.spaceBuf] else []) ++
          if d.volser.isSome then [.volsBuf] else [], grant q = true := by
  unfold Issues holds buffers
  rw [askedBy_eq, and_iff_right htemp]
  constructor
  · rintro ⟨l, hl, htxt, hbufs⟩
    obtain ⟨x, y, -, hy, rfl⟩ := (together_cons _ _ _).mp hl
    refine ⟨y, hy, fun txt h => htxt txt (List.mem_append_right _ h), fun q hq => hbufs q ?_⟩
    rw [List.append_assoc]
    exact List.mem_append_right _ hq
  · rintro ⟨l, hl, htxt, hbufs⟩
    refine ⟨_, (together_cons _ _ _).mpr ⟨_, l, rfl, hl, rfl⟩, fun txt h => ?_, fun q hq => ?_⟩
    · rcases List.mem_append.mp h with h | h
      · rwa [List.mem_singleton.mp h]
      · exact htxt txt h
    · rw [List.append_assoc] at hq
      rcases List.mem_append.mp hq with hq | hq
      · rwa [List.mem_singleton.mp hq]
      · exact hbufs q hq

/-- A request is issued as it is held, or not at all. Then a text unit stays in storage when it is
the first and the list has no room for it. -/
theorem dsalc_cases (grant : Request → Bool) (svc99 : RB99 → Int) (opts : Option Bytes) :
    (Issues grant (parse opts) ∧ ∃ l nomnt store, holds grant (parse opts) = some l ∧ Settled store ∧
        dsalc grant svc99 opts = ⟨svc99 ⟨nomnt, l⟩, some ⟨nomnt, l⟩, store⟩) ∨
      (¬ Issues grant (parse opts) ∧ ∃ err store, dsalc grant svc99 opts = ⟨err, none, store⟩ ∧ err ≠ 0 ∧
        (Settled store ↔
          (grant .temp = true → grant (.txt99 (ddnAsks (parse opts).ddn).dal) = true → grant .list = true))) := by
  unfold dsalc
  generalize parse opts = d
  have hno : ¬ ((1 : Int) = 0) := by decide
  cases htemp : grant .temp with
  | false =>
    rw [if_pos rfl]
    refine .inr ⟨fun h => absurd (h.1.symm.trans htemp) (by decide), 1, .empty, rfl, hno, ?_⟩
    exact iff_of_true Owns.empty.settled fun h => absurd h (by decide)
  | true =>
    rw [if_neg (by decide), dsunits_eq, inTurn_at]
    rcases @first_cases grant (ddnAsks d.ddn) with
      ⟨hunit, hadd⟩ | ⟨hunit, hlist, hadd⟩ | ⟨hunit, hlist, hz, htidy, hroom, hunits⟩
    · have hissues : ¬ Issues grant d := by
        rintro ⟨-, l, hl, htxt, -⟩
        obtain ⟨x, y, hx, -, rfl⟩ := (together_cons _ _ _).mp hl
        have hgranted := htxt (ddnAsks d.ddn) (by rw [← Option.some.inj hx]; exact List.mem_cons_self)
        exact absurd (hgranted.symm.trans hunit) (by decide)
      rw [hadd, if_pos hno]
      refine .inr ⟨hissues, 1, _, rfl, hno, iff_of_true Owns.empty.refused.settled fun _ h => ?_⟩
      exact absurd (h.symm.trans hunit) (by decide)
    · have hissues : ¬ Issues grant d := fun h =>
        absurd ((h.2.elim fun _ hl => hl.2.2 .list List.mem_cons_self).symm.trans hlist) (by decide)
      rw [hadd, if_pos (by decide)]
      refine .inr ⟨hissues, -1, _, rfl, by decide, iff_of_false (fun h => ?_) fun h => ?_⟩
      · have hleak := h.all.length_eq
        exact absurd hleak (by show ¬ (0 = 1); decide)
      · exact absurd ((h rfl hunit).symm.trans hlist) (by decide)
    · have hdoes := @does_others grant d
      rw [if_neg (not_not.mpr hz)]
      generalize (addTXT99 grant false theirs (ddnAsks d.ddn) .start).2 = w at htidy hroom hunits
      have hsettled := freeTXT99Array_settled (hdoes.tidy w htidy hroom)
      have hissues : (inTurn (others grant d) w).1 = 0 ↔ Issues grant d :=
        (hdoes.succeeds w hroom).trans (issues_iff htemp hunit hlist).symm
      by_cases hdone : (inTurn (others grant d) w).1 = 0
      · have hissued := hissues.mp hdone
        obtain ⟨l, hl⟩ : ∃ l, holds grant d = some l := hissued.2.imp fun _ h => h.1
        have hholds := hl
        obtain ⟨x, y, hx, hy, rfl⟩ := (together_cons _ _ _).mp hl
        have hlist' : (inTurn (others grant d) w).2.units = x ++ y := by
          rw [hdoes.units w hroom hdone y hy, hunits, ← Option.some.inj hx]
        have hcount : arraycount (inTurn (others grant d) w).2.txt99 ≠ 0 := by
          have hlength := congrArg List.length hlist'
          rw [Work.units, List.length_map, List.length_append, ← Option.some.inj hx, List.length_singleton] at hlength
          unfold arraycount
          omega
        have hissue : issue svc99 d (inTurn (others grant d) w) =
            ⟨svc99 ⟨(d.unit.isSome || d.volser.isSome) && !d.mount, (inTurn (others grant d) w).2.units⟩,
              some ⟨(d.unit.isSome || d.volser.isSome) && !d.mount, (inTurn (others grant d) w).2.units⟩,
              freeTXT99Array (inTurn (others grant d) w).2⟩ :=
          if_neg (not_or.mpr ⟨not_not.mpr hdone, hcount⟩)
        rw [hlist'] at hissue
        exact .inl ⟨hissued, _, _, _, hholds, hsettled, hissue⟩
      · have hissue : issue svc99 d (inTurn (others grant d) w) =
            ⟨(inTurn (others grant d) w).1, none, freeTXT99Array (inTurn (others grant d) w).2⟩ := if_pos (.inl hdone)
        exact .inr ⟨fun h => hdone (hissues.mpr h), _, _, hissue, hdone, iff_of_true hsettled fun _ _ => hlist⟩

/-- **The request is right exactly when the list gets its storage, and no volume or quantity is
lost on the way to SVC 99.** -/
theorem requests_whole_iff (grant : Request → Bool) (svc99 : RB99 → Int) (opts : Option Bytes) :
    Right (parse opts) (dsalc grant svc99 opts) ↔ Kept grant (parse opts) := by
  rcases dsalc_cases grant svc99 opts with
    ⟨hissues, l, nomnt, store, hholds, hsettled, hout⟩ | ⟨hissues, err, store, hout, herr, hsettled⟩
  · rw [hout]
    have hlist : grant .list = true := hissues.2.elim fun _ hl => hl.2.2 .list List.mem_cons_self
    constructor
    · intro h
      obtain ⟨hspace, hvols⟩ := (holds_asks_iff hholds).mp (h.whole _ rfl)
      exact ⟨fun _ _ => hlist, fun _ => hspace, fun _ => hvols⟩
    · intro h
      refine ⟨fun rb99 hrb => ?_, fun hnone => absurd hnone (Option.some_ne_none _), hsettled⟩
      rw [← Option.some.inj hrb]
      exact (holds_asks_iff hholds).mpr ⟨h.space hissues, h.volser hissues⟩
  · rw [hout]
    constructor
    · intro h
      exact ⟨hsettled.mp h.freed, fun h => absurd h hissues, fun h => absurd h hissues⟩
    · intro h
      exact ⟨fun _ hnone => absurd hnone (Option.some_ne_none _).symm, fun _ => herr, hsettled.mpr h.list⟩

/-- Without a place for the first of two volumes, the request goes out with the second alone. -/
theorem volume_left_out : ¬ ∀ grant svc99 opts, Right (parse opts) (dsalc grant svc99 opts) := by
  intro h
  have hissued : (dsalc (fun r => decide (r ≠ .volsTmp 0)) (fun _ => 0)
      (some (literal "DD=SYSUT1;VOLSER=(V1,V2)"))).issued =
      some ⟨true, [⟨.ddnam, [literal "SYSUT1"]⟩, ⟨.vlser, [literal "V2"]⟩]⟩ := by decide +kernel
  have hasks : asks (parse (some (literal "DD=SYSUT1;VOLSER=(V1,V2)"))) =
      some [⟨.ddnam, [literal "SYSUT1"]⟩, ⟨.vlser, [literal "V1", literal "V2"]⟩] := by decide +kernel
  have hwhole := (h _ _ _).whole _ hissued
  rw [hasks] at hwhole
  exact absurd hwhole (by decide +kernel)

end Libc370.Dynalloc
