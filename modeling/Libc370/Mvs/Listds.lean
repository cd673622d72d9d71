import Libc370.Ctype
import Libc370.Ext.Ary
import Libc370.Ext.Patmat
import Libc370.Ext.Tok
import Libc370.Lib.Storage

/-! The data sets of a catalog listing (`mvs/dslist/@@listds.c`, `mvs/dslist/@@freeds.c`).

`__listc()` hands the lines of LISTCAT over one at a time, and `parse()` keeps between them
the entry it is in, the catalog read last and whether storage has run out. A record is
added at the VOLSER line of an entry. Records of one catalog share the storage of its name.

A step is not determined (`none`) where the code goes on with a NULL pointer, on a line that
holds a carriage control digit only, or where `__patmat()` reads past the name it is given.
What a line shows is said by its layout (`Shows`). -/
namespace Libc370.Dslist

open Ext Storage

abbrev Bytes := List UInt8

/-- `" -\n"`. -/
def delims : Bytes := literal " -\n"

/-- `" -"`. -/
def filler : Bytes := literal " -"

/-- `" \n"`. -/
def ends : Bytes := literal " \n"

def one : UInt8 := ebcdic '1'

def dash : UInt8 := ebcdic '-'

/-- `"******"`, the volume the catalog shows for the system residence volume. -/
def sysres : Bytes := literal "******"

/-- A character with `tolower()`. -/
def lower (c : UInt8) : Int := tolower c.toNat

/-- `strcasecmp(p, word) == 0`. -/
def same (p : Bytes) (word : String) : Bool := p.map lower == (literal word).map lower

/-- Whether a string starts with a digit. -/
def startsDigit : Bytes → Bool
  | [] => false
  | c :: _ => isdigit c.toNat

/-- `nametok()`: the name behind a keyword. -/
def nametok : Option Bytes → Option Bytes
  | none => none
  | some save => (tok ends (some (save.dropWhile (· ∈ filler)))).1

/-- A string with storage of its own. -/
structure Name where
  block : Nat
  text : Bytes
deriving DecidableEq

/-- `LOCWORK`: the serial number, and the byte behind it. -/
structure Locwork where
  volser : CString
  unused2 : UInt8

section Records
variable (α : Type*)

/-- `DSLIST`, in a block of its own; `attrs` is what comes from the DSCB. -/
structure Rec where
  block : Nat
  dsn : Bytes
  volser : Bytes
  catnm : Option Name
  attrs : α

/-- `UDATA`, the block of the array and the storage. -/
structure UData where
  array : VArray (Rec α)
  arrayBlock : Option Nat
  dsn : Bytes
  volser : Bytes
  catnm : Option Name
  entcat : Option Name
  catused : Bool
  failed : Bool
  store : Store

end Records

variable {α : Type*}

/-- `UDATA udata = {0}`. -/
def UData.start : UData α := ⟨VArray.null, none, [], [], none, none, false, false, .empty⟩

/-- The first word of a line. -/
inductive Lead
  | none
  /-- a NULL pointer -/
  | null
  /-- `place` is where it starts, `save` the position behind -/
  | word (place : Nat) (p : Bytes) (save : Option Bytes)

/-- The first word, without the carriage control character in front of it. -/
def lead (buf : Bytes) : Lead :=
  let place := (buf.takeWhile (· ∈ delims)).length
  match tok delims (some buf) with
  | (none, _) => .none
  | (some p, save) =>
    if startsDigit p then
      if p.tail = [] then
        match tok delims save with
        | (none, _) => .null
        | (some p, save') => .word (place + 2 + ((save.getD []).takeWhile (· ∈ delims)).length) p save'
      else .word (place + 1) p.tail save
    else .word place p save

section Parse
/- What is around: the filter, the requests for storage that are granted, the catalog that
`__locate()` asks, and what the DSCB of a data set on a volume gives. -/
variable (filter : Option CString) (grant : Nat → Bool) (locate : Bytes → Option Locwork) (dscb : Bytes → Bytes → α)

/-- `arrayadd()` on the list, which asks for storage when there is no room. -/
def addRecord (u : UData α) (dslist : Rec α) : Int × UData α :=
  if u.array.full then
    match request grant u.store with
    | (some b, store) =>
      let (rc, array) := arrayadd true u.array dslist
      let store := match u.arrayBlock with
        | none => store
        | some old => release store old
      (rc, { u with array := array, arrayBlock := some b, store := store })
    | (none, store) =>
      let (rc, array) := arrayadd false u.array dslist
      (rc, { u with array := array, store := store })
  else
    let (rc, array) := arrayadd false u.array dslist
    (rc, { u with array := array })

/-- The volume in the record: for the system residence volume, seven bytes of the work area. -/
def volume (dsn volser : Bytes) : Bytes :=
  if volser = sysres then
    match locate dsn with
    | none => volser
    | some w => w.volser.val ++ [w.unused2]
  else volser

/-- The part of `parse()` that builds a record. -/
def build (u : UData α) : UData α :=
  match request grant u.store with
  | (none, store) => { u with dsn := [], volser := [], failed := true, store := store }
  | (some b, store) =>
    let volser := volume locate u.dsn u.volser
    let dslist : Rec α := ⟨b, u.dsn, volser, u.entcat, dscb u.dsn volser⟩
    let (rc, u) := addRecord grant { u with dsn := [], volser := [], entcat := none, store := store } dslist
    if rc ≠ 0 then { u with failed := true, store := release u.store b }
    else { u with catused := dslist.catnm.isSome || u.catused }

/-- An entry line, behind its type. -/
def entryLine (u : UData α) (save : Option Bytes) : Option (UData α) :=
  let u := { u with dsn := [], volser := [], entcat := none }
  match nametok save with
  | none => some u
  | some p =>
    if startsDigit p then some u
    else
      match filter with
      | none => some { u with dsn := p }
      | some pat =>
        match Strutil.patmat p pat.val with
        | none => none
        | some true => some { u with dsn := p }
        | some false => some u

/-- The catalog of an entry is read: its name is the one read before, or a new string. -/
def setCatalog (u : UData α) (p : Bytes) : UData α :=
  if u.catnm.map Name.text = some p then { u with entcat := u.catnm }
  else
    match request grant u.store with
    | (none, store) => { u with entcat := none, store := store }  -- no name, not a wrong one
    | (some b, store) =>
      let store := match u.catnm with
        | none => store
        | some old => if u.catused then store else release store old.block
      { u with catnm := some ⟨b, p⟩, catused := false, entcat := some ⟨b, p⟩, store := store }

/-- An `IN-CAT` line, behind `IN`. -/
def catalogLine (u : UData α) (save : Option Bytes) : UData α :=
  match tok delims save with
  | (none, _) => u
  | (some p, save) =>
    if same p "CAT" then
      match nametok save with
      | none => u
      | some p => setCatalog grant u p
    else u

/-- The types of the entries listed. -/
def entryTypes : List String := ["NONVSAM", "PAGESPACE", "CLUSTER", "USERCATALOG"]

/-- `parse()`. -/
def parse (u : UData α) (buf : Bytes) : Option (UData α) :=
  if u.failed then some u
  else if buf.head? = some one then some u  -- page headers
  else
    match lead buf with
    | .none => some u
    | .null => none
    | .word place p save =>
      if entryTypes.any (same p) ∧ place ≤ 1 then entryLine filter u save
      else if u.dsn = [] then some u
      else if same p "IN" then some (catalogLine grant u save)
      else if same p "VOLSER" then
        match (tok delims save).1 with
        | none => some { u with dsn := [] }
        | some p => some (build grant locate dscb { u with volser := p })
      else if u.volser = [] then some u
      else some (build grant locate dscb u)

/-- `__listc()` with the lines it reads. -/
def listc : UData α → List Bytes → Option (UData α)
  | u, [] => some u
  | u, buf :: lines =>
    match parse filter grant locate dscb u buf with
    | none => none
    | some u => listc u lines

end Parse

/-! ### The list given back -/

/-- `list[m]->catnm = 0`, where it is the name being freed. -/
def Rec.clear (block : Nat) (r : Rec α) : Rec α :=
  if r.catnm.map Name.block = some block then { r with catnm := none } else r

/-- The loop of `__freeds()`. -/
def freeLoop : List (Rec α) → Store → Store
  | [], store => store
  | r :: rest, store =>
    match r.catnm with
    | none => freeLoop rest (release store r.block)
    | some cat => freeLoop (rest.map (Rec.clear cat.block)) (release (release store cat.block) r.block)
termination_by list => list.length

/-- `__freeds()`, for a list in the block `arrayBlock`. -/
def freeds (array : VArray (Rec α)) (arrayBlock : Option Nat) (store : Store) : Store :=
  match arrayBlock with
  | none => store
  | some b => release (freeLoop array.list store) b

/-- The storage at the end, when a catalog name that no record took is freed. -/
def freeUnused (u : UData α) : Store :=
  match u.catnm with
  | none => u.store
  | some cat => if u.catused then u.store else release u.store cat.block

/-- What `__listds()` comes back with: NULL and `ENOMEM`, or a list, which is NULL when it is
empty. -/
inductive Outcome (α : Type*)
  | enomem (store : Store)
  | list (array : VArray (Rec α)) (arrayBlock : Option Nat) (store : Store)

/-- `__listds()`, with the lines of LISTCAT. -/
def listds (filter : Option CString) (grant : Nat → Bool) (locate : Bytes → Option Locwork) (dscb : Bytes → Bytes → α)
    (lines : List Bytes) : Option (Outcome α) :=
  match listc filter grant locate dscb .start lines with
  | none => none
  | some u =>
    if u.failed then some (.enomem (freeds u.array u.arrayBlock (freeUnused u)))
    else some (.list u.array u.arrayBlock (freeUnused u))

/-! ### What a line shows -/

/-- What is read off a line of the listing: a data set entry, an entry line with a number in
the place of the name, the catalog of an entry, a volume of it, or nothing of these. -/
inductive Item
  | entry (name : Bytes)
  | count
  | catalog (name : Bytes)
  | volume (volser : Bytes)
  | other

/-- Blanks, dashes and newlines. -/
def Gap (f : Bytes) : Prop := ∀ c ∈ f, c ∈ delims

instance (f : Bytes) : Decidable (Gap f) := inferInstanceAs (Decidable (∀ c ∈ f, c ∈ delims))

/-- The word `w` in front of `rest`. -/
structure Word (w rest : Bytes) : Prop where
  ne : w ≠ []
  solid : ∀ c ∈ w, c ∉ delims
  stop : ∀ c ∈ rest.head?, c ∈ delims

/-- What stands in front of the first word of a line: a gap, with a carriage control digit
in it or without. -/
inductive Margin (w : Bytes) : Bytes → Prop
  | gap {m : Bytes} : Gap m → startsDigit w = false → Margin w m
  | control {a b : Bytes} {x : UInt8} : Gap a → startsDigit [x] = true → Gap b → Margin w (a ++ x :: b)

/-- `w` is the first word of a line that is no page header. -/
structure First (line m w rest : Bytes) : Prop where
  text : line = m ++ (w ++ rest)
  page : line.head? ≠ some one
  margin : Margin w m
  word : Word w rest

/-- `w` is the next word of `rest`. -/
def Next (rest w rest' : Bytes) : Prop := ∃ f, f ≠ [] ∧ Gap f ∧ rest = f ++ (w ++ rest') ∧ Word w rest'

/-- The value behind a keyword: past blanks and dashes, up to a blank or the end. It does
not start with a dash. -/
def Value (rest v : Bytes) : Prop :=
  ∃ f r, f ≠ [] ∧ (∀ c ∈ f, c ∈ filler) ∧ rest = f ++ (v ++ r) ∧ v ≠ [] ∧ v.head? ≠ some dash ∧ (∀ c ∈ v, c ∉ ends) ∧
    ∀ c ∈ r.head?, c ∈ ends

/-- What a line of LISTCAT shows, by its layout. -/
inductive Shows : Bytes → Item → Prop
  /-- a page header -/
  | page {line : Bytes} : line.head? = some one → Shows line .other
  /-- an entry type at the left margin, and a name -/
  | entry {line m w rest name : Bytes} : First line m w rest → m.length ≤ 1 → entryTypes.any (same w) = true →
      Value rest name → startsDigit name = false → name.length ≤ 44 → Shows line (.entry name)
  /-- an entry type at the left margin, and a number -/
  | count {line m w rest name : Bytes} : First line m w rest → m.length ≤ 1 → entryTypes.any (same w) = true →
      Value rest name → startsDigit name = true → Shows line .count
  | catalog {line m w rest w' rest' name : Bytes} : First line m w rest → same w "IN" = true → Next rest w' rest' →
      same w' "CAT" = true → Value rest' name → Shows line (.catalog name)
  | volume {line m w rest volser : Bytes} : First line m w rest → same w "VOLSER" = true → Value rest volser →
      volser.length ≤ 6 → Shows line (.volume volser)
  /-- another word, or an entry type that is indented -/
  | other {line m w rest : Bytes} : First line m w rest → (entryTypes.any (same w) = true → 1 < m.length) →
      (same w "IN" = true → ∀ w' rest', Next rest w' rest' → same w' "CAT" = false) → same w "VOLSER" = false →
      Shows line .other
  | blank {line : Bytes} : Gap line → Shows line .other
  /-- a carriage control digit only -/
  | control {a b : Bytes} {x : UInt8} : Gap a → startsDigit [x] = true → Gap b → (a ++ x :: b).head? ≠ some one →
      Shows (a ++ x :: b) .other

/-! ### Reading a line -/

theorem digit_solid {x : UInt8} (h : startsDigit [x] = true) : x ∉ delims := by
  intro hx
  have hcases : x = ebcdic ' ' ∨ x = ebcdic '-' ∨ x = ebcdic '\n' := by simpa [delims, literal] using hx
  rcases hcases with rfl | rfl | rfl <;> exact absurd h (by decide)

theorem gap_place {m w : Bytes} (hm : Gap m) (hw : ∀ c ∈ w.head?, c ∉ delims) :
    (m ++ w).takeWhile (· ∈ delims) = m := by
  have hstop : w.takeWhile (· ∈ delims) = [] := by
    cases w with
    | nil => rfl
    | cons c w => exact List.takeWhile_cons_of_neg (by simpa using hw c rfl)
  rw [List.takeWhile_append_of_pos (by simpa [Gap] using hm), hstop, List.append_nil]

theorem Word.head {w rest : Bytes} (h : Word w rest) : ∀ c ∈ (w ++ rest).head?, c ∉ delims := by
  obtain ⟨c, w, rfl⟩ := List.exists_cons_of_ne_nil h.ne
  intro d hd
  rw [List.cons_append, List.head?_cons, Option.mem_some_iff] at hd
  exact hd ▸ h.solid c List.mem_cons_self

theorem Word.tok {f w rest : Bytes} (h : Word w rest) (hf : Gap f) :
    tok delims (some (f ++ (w ++ rest))) = (some w, behind rest) :=
  tok_word hf h.ne h.solid h.stop

/-- The first word of a line is found, at its place. -/
theorem First.lead {line m w rest : Bytes} (h : First line m w rest) :
    lead line = .word m.length w (behind rest) := by
  obtain ⟨rfl, -, hmargin, hword⟩ := h
  cases hmargin with
  | gap hm hdigit =>
    unfold Dslist.lead
    dsimp only
    rw [hword.tok hm, gap_place hm hword.head]
    dsimp only
    rw [if_neg (by simp [hdigit])]
  | @control a b x ha hx hb =>
    have hsolid := digit_solid hx
    cases b with
    | nil =>
      have hdigit : Word (x :: w) rest :=
        ⟨List.cons_ne_nil _ _, List.forall_mem_cons.mpr ⟨hsolid, hword.solid⟩, hword.stop⟩
      have htext : a ++ [x] ++ (w ++ rest) = a ++ (x :: w ++ rest) := by simp
      unfold Dslist.lead
      dsimp only
      rw [htext, hdigit.tok ha, gap_place ha hdigit.head]
      dsimp only
      rw [if_pos (show startsDigit (x :: w) = true from hx), List.tail_cons, if_neg hword.ne, List.length_append]
      rfl
    | cons d b =>
      obtain ⟨hd, hb⟩ := List.forall_mem_cons.mp hb
      have hdigit : Word [x] (d :: (b ++ (w ++ rest))) := by
        refine ⟨List.cons_ne_nil _ _, List.forall_mem_singleton.mpr hsolid, fun c hc => ?_⟩
        rw [List.head?_cons, Option.mem_some_iff] at hc
        exact hc ▸ hd
      have htext : a ++ x :: d :: b ++ (w ++ rest) = a ++ ([x] ++ d :: (b ++ (w ++ rest))) := by simp
      unfold Dslist.lead
      dsimp only
      rw [htext, hdigit.tok ha, gap_place ha hdigit.head]
      dsimp only [behind]
      rw [if_pos hx, List.tail_cons, if_pos rfl, hword.tok hb]
      dsimp only [Option.getD_some]
      rw [gap_place hb hword.head]
      have hlength : a.length + 2 + b.length = (a ++ x :: d :: b).length := by
        rw [List.length_append, List.length_cons, List.length_cons]
        omega
      rw [hlength]
      rfl

theorem lead_blank {line : Bytes} (h : Gap line) : lead line = .none := by
  unfold lead
  dsimp only
  rw [tok_nothing h]

theorem lead_control {a b : Bytes} {x : UInt8} (ha : Gap a) (hx : startsDigit [x] = true) (hb : Gap b) :
    lead (a ++ x :: b) = .null := by
  have hdigit : Word [x] b := by
    refine ⟨List.cons_ne_nil _ _, List.forall_mem_singleton.mpr (digit_solid hx), fun c hc => ?_⟩
    exact hb c (List.mem_of_mem_head? hc)
  have htext : a ++ x :: b = a ++ ([x] ++ b) := rfl
  have hnext : (tok delims (behind b)).1 = none := by
    cases b with
    | nil => rfl
    | cons d b =>
      have hnothing := tok_nothing (List.forall_mem_cons.mp hb).2
      rw [behind, hnothing]
  unfold lead
  dsimp only
  rw [htext, hdigit.tok ha]
  dsimp only
  rw [if_pos hx, List.tail_cons, if_pos rfl]
  split
  · rfl
  · next hsome => rw [hsome] at hnext; cases hnext

/-- The value behind a keyword is read whole. -/
theorem nametok_value {rest v : Bytes} (h : Value rest v) : nametok (behind rest) = some v := by
  obtain ⟨f, r, hne, hf, rfl, hv, hhead, hsolid, hstop⟩ := h
  obtain ⟨d, f, rfl⟩ := List.exists_cons_of_ne_nil hne
  obtain ⟨c, v, rfl⟩ := List.exists_cons_of_ne_nil hv
  have hc : c ∉ filler := by
    intro hmem
    have hcases : c = ebcdic ' ' ∨ c = ebcdic '-' := by simpa [filler, literal] using hmem
    rcases hcases with rfl | rfl
    · exact hsolid _ List.mem_cons_self (by decide)
    · exact hhead rfl
  have hdrop : (f ++ (c :: v ++ r)).dropWhile (· ∈ filler) = c :: v ++ r := by
    rw [List.dropWhile_append_of_pos (by simpa using (List.forall_mem_cons.mp hf).2), List.cons_append,
      List.dropWhile_cons_of_neg (by simpa using hc)]
  have htok := tok_word (f := []) (fun _ h => absurd h List.not_mem_nil) hv hsolid hstop
  show (tok ends (some ((f ++ (c :: v ++ r)).dropWhile (· ∈ filler)))).1 = some (c :: v)
  rw [hdrop]
  rw [List.nil_append] at htok
  rw [htok]

/-- What `__tok()` finds behind a word is the next one. -/
theorem next_of_tok {rest w : Bytes} {save : Option Bytes} (hstop : ∀ c ∈ rest.head?, c ∈ delims)
    (h : tok delims (behind rest) = (some w, save)) : ∃ rest', Next rest w rest' := by
  cases rest with
  | nil => cases h
  | cons d t =>
    rcases tok_cases delims t with ⟨hnone, -⟩ | ⟨f, w', r, rfl, hf, hne, hw, hr, hsome⟩
    · rw [behind, hnone] at h
      cases h
    · rw [behind, hsome] at h
      obtain rfl := Option.some.inj (Prod.mk.inj h).1
      exact ⟨r, d :: f, List.cons_ne_nil _ _, List.forall_mem_cons.mpr ⟨hstop d rfl, hf⟩, rfl, hne, hw, hr⟩

theorem Next.tok {rest w rest' : Bytes} (h : Next rest w rest') :
    tok delims (behind rest) = (some w, behind rest') := by
  obtain ⟨f, hne, hf, rfl, hword⟩ := h
  obtain ⟨d, f, rfl⟩ := List.exists_cons_of_ne_nil hne
  exact hword.tok (List.forall_mem_cons.mp hf).2

end Libc370.Dslist
