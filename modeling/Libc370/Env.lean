import Libc370.Ctype
import Libc370.Ext.Ary
import Libc370.Lib.Machine

/-! The environment variables.

They are in an array of pointers. A variable that is unset leaves a NULL behind, and the
next new variable takes the first such slot. `setenv()` takes the blanks off both ends of a
name, and those in front of a value; `getenv()` and `unsetenv()` look a name up as it is
given. DD SYSENV is read on the first use of any of them.

What it is for is a finite map from names to values: `Store` says what each call does to
the map, and `Holds` when the array stands for it. -/
namespace Libc370.Env

open Ext

def blank : UInt8 := ebcdic ' '
def equals : UInt8 := 0x7E

/-- `__ENVVAR`. -/
structure EnvVar where
  name : List UInt8
  value : List UInt8
  deriving DecidableEq, Repr

/-- The part of `CLIBGRT` for the environment: the array, and the lines of DD SYSENV as
long as they have not been read. -/
structure Grt where
  grtenv : VArray (Option EnvVar)
  sysenv : Option (List (List UInt8))

/-- The loop of `__findenv()`, from slot `i` on; `empty` is the first empty slot so far. -/
def findFrom (name : List UInt8) (i : Nat) (empty : Option Nat) :
    List (Option EnvVar) → Option (List UInt8) × Option Nat
  | [] => (none, empty)
  | none :: rest => findFrom name (i + 1) (empty.or (some i)) rest
  | some e :: rest => if e.name = name then (some e.value, some i) else findFrom name (i + 1) empty rest

/-- `__findenv()`, when it does not ignore case: the value and its slot, or else the first
empty slot. -/
def findenv (v : VArray (Option EnvVar)) (name : List UInt8) : Option (List UInt8) × Option Nat :=
  findFrom name 0 none v.list

/-- `grtenv[i] = e`. -/
def put (v : VArray (Option EnvVar)) (i : Nat) (e : EnvVar) : VArray (Option EnvVar) :=
  Option.map (fun a => ⟨a.size, a.items.set i (some e), by rw [List.length_set]; exact a.fits⟩) v

/-- A name without the blanks at its ends. -/
def trim (name : List UInt8) : List UInt8 := (name.dropWhile (· = blank)).rdropWhile (· = blank)

/-- `setenv()`, when DD SYSENV has been read. `granted` and `room` say whether storage is
granted for the variable and for a longer array. -/
def setVar (granted room : Bool) (v : VArray (Option EnvVar)) (name value : Option (List UInt8)) (rewrite : Bool) :
    Int × VArray (Option EnvVar) :=
  let name := trim (name.getD [])
  match value with
  | none => (1, v)
  | some value =>
    if name = [] ∨ granted = false then (1, v)
    else
      let envvar : EnvVar := ⟨name, value.dropWhile (· = blank)⟩
      let (found, index) := findenv v name
      if found.isSome ∧ rewrite = false then (0, v)
      else
        match index with
        | some i => (0, put v i envvar)
        | none => arrayadd room v (some envvar)

/-- The turn of the loop in `unsetenv()` at one slot. -/
def cleared (name : List UInt8) (slot : Option EnvVar) : Option EnvVar := slot.filter (fun e => e.name ≠ name)

/-- `unsetenv()`, when DD SYSENV has been read. -/
def unsetVar (v : VArray (Option EnvVar)) (name : Option (List UInt8)) : VArray (Option EnvVar) :=
  match name with
  | none => v
  | some name => Option.map (fun a => ⟨a.size, a.items.map (cleared name), by rw [List.length_map]; exact a.fits⟩) v

/-- The name and the value of `"name=value"`; without a `=` the value is empty. -/
def cut (str : List UInt8) : List UInt8 × List UInt8 :=
  (str.takeWhile (· ≠ equals), (str.dropWhile (· ≠ equals)).drop 1)

/-- `putenv()`, when DD SYSENV has been read. -/
def putVar (granted room : Bool) (v : VArray (Option EnvVar)) (str : List UInt8) : Int × VArray (Option EnvVar) :=
  setVar granted room v (some (cut str).1) (some (cut str).2) true

/-- `numbered()`: the last eight characters are a sequence number. -/
def numbered (buf : List UInt8) : Bool :=
  8 < buf.length ∧ (buf.drop (buf.length - 8)).all (fun c => isdigit c.toNat)

/-- `__envln()`: what a line of DD SYSENV gives `putenv()`, if anything. -/
def envln (buf : List UInt8) : Option (List UInt8) :=
  if buf.head? = some (ebcdic '*') ∨ buf.head? = some (ebcdic '#') then none
  else
    let buf := if numbered buf then buf.take (buf.length - 8) else buf
    -- The loop that takes off trailing blanks stops at the first character.
    let buf := buf.take 1 ++ (buf.drop 1).rdropWhile (· = blank)
    if equals ∈ buf then some buf else none

/-- `__envlz()`: DD SYSENV is read, once. -/
def envlz (g : Grt) : Grt :=
  match g.sysenv with
  | none => g
  | some sysenv => ⟨(sysenv.filterMap envln).foldl (fun v str => (putVar true true v str).2) g.grtenv, none⟩

/-- A call of a program. A pointer may be NULL. -/
inductive Call
  | setenv (name value : Option CString) (rewrite : Bool)
  | putenv (str : CString)
  | unsetenv (name : Option CString)
  | getenv (name : Option CString)

inductive Answer
  | rc (n : Int)
  | value (v : Option (List UInt8))
  deriving DecidableEq

/-- The calls, when all storage is granted. -/
def step (g : Grt) (call : Call) : Answer × Grt :=
  let g := envlz g
  match call with
  | .setenv name value rewrite =>
    let (err, v) := setVar true true g.grtenv (name.map (·.1)) (value.map (·.1)) rewrite
    (.rc err, {g with grtenv := v})
  | .putenv str =>
    let (err, v) := putVar true true g.grtenv str.1
    (.rc err, {g with grtenv := v})
  | .unsetenv name => (.rc 0, {g with grtenv := unsetVar g.grtenv (name.map (·.1))})
  | .getenv name => (.value (name.bind (fun name => (findenv g.grtenv name.1).1)), g)

/-- The environment before its first use; `sysenv` is what is in DD SYSENV. -/
def start (sysenv : List (List UInt8)) : Grt := ⟨.null, some sysenv⟩

/-! ### The map -/

/-- A finite map from names to values. -/
abbrev Store := Finmap (fun _ : List UInt8 => List UInt8)

/-- A name is trimmed, and a value loses the blanks in front of it. Without a value, or with
a name of blanks, nothing is set. -/
def Store.setVar (m : Store) (name value : Option (List UInt8)) (rewrite : Bool) : Int × Store :=
  match value with
  | none => (1, m)
  | some value =>
    let name := trim (name.getD [])
    if name = [] then (1, m)
    else if name ∈ m ∧ rewrite = false then (0, m)
    else (0, m.insert name (value.dropWhile (· = blank)))

def Store.putVar (m : Store) (str : List UInt8) : Int × Store := m.setVar (some (cut str).1) (some (cut str).2) true

/-- What the calls do to the map. -/
def Store.step (m : Store) : Call → Answer × Store
  | .setenv name value rewrite =>
    let (err, m) := m.setVar (name.map (·.1)) (value.map (·.1)) rewrite
    (.rc err, m)
  | .putenv str =>
    let (err, m) := m.putVar str.1
    (.rc err, m)
  | .unsetenv none => (.rc 0, m)
  | .unsetenv (some name) => (.rc 0, m.erase name.1)
  | .getenv name => (.value (name.bind (fun name => m.lookup name.1)), m)

/-- The map that DD SYSENV gives. -/
def Store.loaded (sysenv : List (List UInt8)) : Store :=
  (sysenv.filterMap envln).foldl (fun m str => (Store.putVar m str).2) ∅

/-! ### The array stands for the map -/

/-- The variables in the array. -/
def live (v : VArray (Option EnvVar)) : List EnvVar := v.list.filterMap id

/-- A name that `setenv()` stores: it is not empty, and has no blank at an end. -/
structure Trimmed (name : List UInt8) : Prop where
  nonempty : name ≠ []
  front : name.head? ≠ some blank
  back : name.getLast? ≠ some blank

/-- The variables stand for the map: no two have the same name. -/
structure Holds (es : List EnvVar) (m : Store) : Prop where
  distinct : (es.map EnvVar.name).Nodup
  lookup : ∀ name value, m.lookup name = some value ↔ ⟨name, value⟩ ∈ es
  trimmed : ∀ e ∈ es, Trimmed e.name

theorem trim_trimmed {name : List UInt8} (h : trim name ≠ []) : Trimmed (trim name) := by
  refine ⟨h, fun hhead => ?_, fun hlast => ?_⟩
  · have hprefix : trim name <+: name.dropWhile (· = blank) := List.rdropWhile_prefix _ _
    obtain ⟨rest, hrest⟩ := hprefix
    have hfirst : (name.dropWhile (· = blank)).head? = some blank := by
      rw [← hrest, List.head?_append, hhead]
      rfl
    have hnot := List.head?_dropWhile_not (p := fun c : UInt8 => decide (c = blank)) (l := name)
    rw [hfirst] at hnot
    simp at hnot
  · have hnot := List.rdropWhile_last_not (fun c : UInt8 => decide (c = blank)) _ h
    rw [List.getLast?_eq_some_getLast h] at hlast
    exact hnot (decide_eq_true (Option.some.inj hlast))

theorem Holds.perm {es es' : List EnvVar} {m : Store} (h : Holds es m) (hp : es.Perm es') : Holds es' m where
  distinct := (hp.map EnvVar.name).nodup_iff.mp h.distinct
  lookup := fun name value => (h.lookup name value).trans hp.mem_iff
  trimmed := fun e he => h.trimmed e (hp.mem_iff.mpr he)

theorem Holds.none_iff {es : List EnvVar} {m : Store} (h : Holds es m) (name : List UInt8) :
    name ∉ m ↔ ∀ e ∈ es, e.name ≠ name := by
  rw [← Finmap.lookup_eq_none]
  constructor
  · rintro hnone e he rfl
    rw [(h.lookup e.name e.value).mpr he] at hnone
    cases hnone
  · intro hes
    by_contra hsome
    obtain ⟨value, hvalue⟩ := Option.ne_none_iff_exists'.mp hsome
    exact hes _ ((h.lookup name value).mp hvalue) rfl

/-- A variable with a new name. -/
theorem Holds.insert {es : List EnvVar} {m : Store} (h : Holds es m) {name : List UInt8} (hname : name ∉ m)
    (htrim : Trimmed name) (value : List UInt8) : Holds (⟨name, value⟩ :: es) (m.insert name value) := by
  have hnew := (h.none_iff name).mp hname
  refine ⟨?_, fun k v => ?_, List.forall_mem_cons.mpr ⟨htrim, h.trimmed⟩⟩
  · rw [List.map_cons, List.nodup_cons]
    refine ⟨fun hmem => ?_, h.distinct⟩
    obtain ⟨e, he, heq⟩ := List.mem_map.mp hmem
    exact hnew e he heq
  · by_cases hk : k = name
    · subst hk
      rw [Finmap.lookup_insert, List.mem_cons, Option.some_inj]
      constructor
      · rintro rfl
        exact .inl rfl
      · rintro (heq | hmem)
        · exact (congrArg EnvVar.value heq).symm
        · exact absurd rfl (hnew _ hmem)
    · rw [Finmap.lookup_insert_of_ne m hk, h.lookup, List.mem_cons]
      refine ⟨Or.inr, fun hmem => hmem.resolve_left (fun heq => hk (congrArg EnvVar.name heq))⟩

/-- A variable is taken away. -/
theorem Holds.erase {es : List EnvVar} {m : Store} (h : Holds es m) (name : List UInt8) :
    Holds (es.filter (fun e => e.name ≠ name)) (m.erase name) where
  distinct := h.distinct.sublist (List.filter_sublist.map EnvVar.name)
  lookup := fun k v => by
    rw [List.mem_filter, decide_eq_true_iff]
    by_cases hk : k = name
    · subst hk
      rw [Finmap.lookup_erase]
      exact iff_of_false (fun hno => nomatch hno) (fun hno => hno.2 rfl)
    · rw [Finmap.lookup_erase_ne hk, h.lookup]
      exact (and_iff_left hk).symm
  trimmed := fun e he => h.trimmed e (List.mem_filter.mp he).1

/-- A variable gets another value. -/
theorem Holds.replace {es : List EnvVar} {m : Store} {e : EnvVar} (h : Holds (e :: es) m) (value : List UInt8) :
    Holds (⟨e.name, value⟩ :: es) (m.insert e.name value) := by
  have hothers : ∀ e' ∈ es, e'.name ≠ e.name := fun e' he' heq =>
    (List.nodup_cons.mp h.distinct).1 (heq ▸ List.mem_map_of_mem he')
  have hes : (e :: es).filter (fun e' => e'.name ≠ e.name) = es := by
    rw [List.filter_cons_of_neg (by simp)]
    exact List.filter_eq_self.mpr (fun e' he' => decide_eq_true (hothers e' he'))
  have herase := h.erase e.name
  rw [hes] at herase
  have hinsert := herase.insert Finmap.notMem_erase_self (h.trimmed e List.mem_cons_self) value
  have hmap : (m.erase e.name).insert e.name value = m.insert e.name value := by
    refine Finmap.ext_lookup (fun k => ?_)
    by_cases hk : k = e.name
    · subst hk
      rw [Finmap.lookup_insert, Finmap.lookup_insert]
    · rw [Finmap.lookup_insert_of_ne _ hk, Finmap.lookup_insert_of_ne _ hk, Finmap.lookup_erase_ne hk]
  rwa [hmap] at hinsert

/-! ### The search -/

/-- The search comes to a variable of that name, or there is none and it comes to an empty slot, if there is one. -/
theorem findFrom_cases (name : List UInt8) (i : Nat) (empty : Option Nat) (l : List (Option EnvVar)) :
    (∃ j e, l[j]? = some (some e) ∧ e.name = name ∧ findFrom name i empty l = (some e.value, some (i + j))) ∨
      ((∀ e, some e ∈ l → e.name ≠ name) ∧ ∃ o, findFrom name i empty l = (none, o) ∧
        (o = empty ∨ ∃ j, l[j]? = some none ∧ o = some (i + j))) := by
  induction l generalizing i empty with
  | nil => exact .inr ⟨fun e he => absurd he List.not_mem_nil, empty, rfl, .inl rfl⟩
  | cons slot rest ih =>
    have hshift : ∀ j, i + 1 + j = i + (j + 1) := fun j => by omega
    cases slot with
    | none =>
      rw [findFrom]
      rcases ih (i + 1) (empty.or (some i)) with ⟨j, e, hj, he, hfind⟩ | ⟨hno, o, hfind, ho⟩
      · exact .inl ⟨j + 1, e, hj, he, by rw [hfind, hshift]⟩
      · refine .inr ⟨fun e he => hno e (List.mem_of_ne_of_mem (Option.some_ne_none e) he), o, hfind, ?_⟩
        rcases ho with rfl | ⟨j, hj, rfl⟩
        · cases empty with
          | none => exact .inr ⟨0, rfl, rfl⟩
          | some k => exact .inl rfl
        · exact .inr ⟨j + 1, hj, by rw [hshift]⟩
    | some e =>
      rw [findFrom]
      by_cases hname : e.name = name
      · rw [if_pos hname]
        exact .inl ⟨0, e, rfl, hname, rfl⟩
      · rw [if_neg hname]
        rcases ih (i + 1) empty with ⟨j, e', hj, he, hfind⟩ | ⟨hno, o, hfind, ho⟩
        · exact .inl ⟨j + 1, e', hj, he, by rw [hfind, hshift]⟩
        · refine .inr ⟨fun e' he' => ?_, o, hfind, ho.imp_right (fun ⟨j, hj, ho⟩ => ⟨j + 1, hj, by rw [ho, hshift]⟩)⟩
          rcases List.mem_cons.mp he' with heq | hrest
          · rw [Option.some.inj heq]
            exact hname
          · exact hno e' hrest

theorem mem_live {v : VArray (Option EnvVar)} {e : EnvVar} : e ∈ live v ↔ some e ∈ v.list := by
  rw [live, List.mem_filterMap]
  exact ⟨fun ⟨_, hmem, heq⟩ => heq ▸ hmem, fun hmem => ⟨_, hmem, rfl⟩⟩

/-- What `__findenv()` comes to: the variable's value and slot, or no value and an empty slot, if there is one. -/
theorem findenv_cases {v : VArray (Option EnvVar)} {m : Store} (h : Holds (live v) m) (name : List UInt8) :
    (∃ i e, v.list[i]? = some (some e) ∧ e.name = name ∧ findenv v name = (some e.value, some i) ∧
        m.lookup name = some e.value) ∨
      (name ∉ m ∧ (findenv v name = (none, none) ∨ ∃ i, v.list[i]? = some none ∧ findenv v name = (none, some i))) := by
  unfold findenv
  rcases findFrom_cases name 0 none v.list with ⟨j, e, hj, rfl, hfind⟩ | ⟨hno, o, hfind, ho⟩
  · rw [Nat.zero_add] at hfind
    exact .inl ⟨j, e, hj, rfl, hfind, (h.lookup _ _).mpr (mem_live.mpr (List.mem_of_getElem? hj))⟩
  · refine .inr ⟨(h.none_iff name).mpr (fun e he => hno e (mem_live.mp he)), ?_⟩
    rcases ho with rfl | ⟨j, hj, rfl⟩
    · exact .inl hfind
    · rw [Nat.zero_add] at hfind
      exact .inr ⟨j, hj, hfind⟩

theorem findenv_value {v : VArray (Option EnvVar)} {m : Store} (h : Holds (live v) m) (name : List UInt8) :
    (findenv v name).1 = m.lookup name := by
  rcases findenv_cases h name with ⟨i, e, -, -, hfind, hlookup⟩ | ⟨hno, hfind | ⟨i, -, hfind⟩⟩
  · rw [hfind, hlookup]
  all_goals rw [hfind, Finmap.lookup_eq_none.mpr hno]

/-! ### The calls -/

theorem put_list (v : VArray (Option EnvVar)) (i : Nat) (e : EnvVar) : (put v i e).list = v.list.set i (some e) := by
  cases v with
  | none => rfl
  | some a => rfl

/-- The variables other than the one in slot `i`. -/
def others (v : VArray (Option EnvVar)) (i : Nat) : List EnvVar :=
  (v.list.take i).filterMap id ++ (v.list.drop (i + 1)).filterMap id

theorem live_slot {v : VArray (Option EnvVar)} {i : Nat} {slot : Option EnvVar} (h : v.list[i]? = some slot) :
    (live v).Perm (slot.toList ++ others v i) := by
  obtain ⟨hlt, rfl⟩ := List.getElem?_eq_some_iff.mp h
  have hsplit : live v = (v.list.take i).filterMap id ++ (v.list[i].toList ++ (v.list.drop (i + 1)).filterMap id) := by
    conv_lhs => rw [live, ← List.take_append_drop i v.list, List.filterMap_append, List.drop_eq_getElem_cons hlt]
    cases v.list[i] <;> rfl
  rw [hsplit, others, ← List.append_assoc, ← List.append_assoc]
  exact List.perm_append_comm.append_right _

theorem live_put {v : VArray (Option EnvVar)} {i : Nat} {slot : Option EnvVar} (h : v.list[i]? = some slot)
    (e : EnvVar) :
    (e :: others v i).Perm (live (put v i e)) := by
  obtain ⟨hlt, -⟩ := List.getElem?_eq_some_iff.mp h
  have hslot : (put v i e).list[i]? = some (some e) := by
    rw [put_list, List.getElem?_set_self hlt]
  have hothers : others (put v i e) i = others v i := by
    rw [others, put_list, List.take_set_of_le le_rfl, List.drop_set_of_lt (Nat.lt_succ_self i), others]
  rw [← hothers]
  exact (live_slot hslot).symm

/-- `setenv()` does to the array what `Store.setVar` does to the map. -/
theorem setVar_holds {v : VArray (Option EnvVar)} {m : Store} (h : Holds (live v) m) (name value : Option (List UInt8))
    (rewrite : Bool) :
    (setVar true true v name value rewrite).1 = (m.setVar name value rewrite).1 ∧
      Holds (live (setVar true true v name value rewrite).2) (m.setVar name value rewrite).2 := by
  unfold setVar Store.setVar
  cases value with
  | none => exact ⟨rfl, h⟩
  | some value =>
    dsimp only
    by_cases hempty : trim (name.getD []) = []
    · rw [if_pos (.inl hempty), if_pos hempty]
      exact ⟨rfl, h⟩
    · have htrim := trim_trimmed hempty
      rw [if_neg (by simp [hempty]), if_neg hempty]
      rcases findenv_cases h (trim (name.getD [])) with ⟨i, e, hi, hname, hfind, hlookup⟩ | ⟨hno, hfind⟩
      · have hin : trim (name.getD []) ∈ m := Finmap.lookup_isSome.mp (by rw [hlookup]; rfl)
        rw [hfind]
        cases rewrite with
        | false =>
          rw [if_pos ⟨rfl, rfl⟩, if_pos ⟨hin, rfl⟩]
          exact ⟨rfl, h⟩
        | true =>
          rw [if_neg (by simp), if_neg (by simp)]
          refine ⟨rfl, ?_⟩
          rw [← hname]
          exact ((h.perm (live_slot hi)).replace _).perm (live_put hi _)
      · rw [if_neg (show ¬ (_ ∧ _) from fun hin => hno hin.1)]
        have hinsert := h.insert hno htrim (value.dropWhile (· = blank))
        rcases hfind with hfind | ⟨i, hi, hfind⟩
        · rw [hfind, if_neg (by simp)]
          obtain ⟨hrc, hlist⟩ := arrayadd_granted v (some (⟨trim (name.getD []), value.dropWhile (· = blank)⟩ : EnvVar))
          refine ⟨hrc, ?_⟩
          dsimp only
          rw [live, hlist, List.filterMap_append]
          exact hinsert.perm (List.perm_append_singleton _ _).symm
        · rw [hfind, if_neg (by simp)]
          exact ⟨rfl, (hinsert.perm ((live_slot hi).cons _)).perm (live_put hi _)⟩

theorem unsetVar_list (v : VArray (Option EnvVar)) (name : List UInt8) :
    (unsetVar v (some name)).list = v.list.map (cleared name) := by
  cases v with
  | none => rfl
  | some a => rfl

theorem unsetVar_holds {v : VArray (Option EnvVar)} {m : Store} (h : Holds (live v) m) (name : List UInt8) :
    Holds (live (unsetVar v (some name))) (m.erase name) := by
  have hlive : live (unsetVar v (some name)) = (live v).filter (fun e => e.name ≠ name) := by
    rw [live, live, unsetVar_list, List.filterMap_map, List.filter_filterMap]
    exact List.filterMap_congr (fun slot _ => rfl)
  rw [hlive]
  exact h.erase name

theorem putVar_holds {v : VArray (Option EnvVar)} {m : Store} (h : Holds (live v) m) (str : List UInt8) :
    (putVar true true v str).1 = (m.putVar str).1 ∧ Holds (live (putVar true true v str).2) (m.putVar str).2 :=
  setVar_holds h _ _ true

/-- The array stands for the map once DD SYSENV has been read, and no two of its variables
have the same name at any time. -/
structure Stands (g : Grt) (m : Store) : Prop where
  read : Holds (live (envlz g).grtenv) m
  distinct : ((live g.grtenv).map EnvVar.name).Nodup

theorem start_stands (sysenv : List (List UInt8)) : Stands (start sysenv) (Store.loaded sysenv) := by
  have hlines : ∀ (lines : List (List UInt8)) (v : VArray (Option EnvVar)) (m : Store), Holds (live v) m →
      Holds (live (lines.foldl (fun v str => (putVar true true v str).2) v))
        (lines.foldl (fun m str => (Store.putVar m str).2) m) := by
    intro lines
    induction lines with
    | nil => exact fun v m h => h
    | cons line rest ih => exact fun v m h => ih _ _ (putVar_holds h line).2
  refine ⟨hlines _ _ _ ⟨List.nodup_nil, fun name value => ?_, fun e he => absurd he List.not_mem_nil⟩, List.nodup_nil⟩
  exact iff_of_false (fun h => nomatch h) List.not_mem_nil

theorem envlz_sysenv (g : Grt) : (envlz g).sysenv = none := by
  unfold envlz
  cases h : g.sysenv with
  | none => exact h
  | some sysenv => rfl

/-- Nothing is read a second time. -/
theorem stands_read {v : VArray (Option EnvVar)} {m : Store} (h : Holds (live v) m) (g : Grt) :
    Stands {envlz g with grtenv := v} m := by
  refine ⟨?_, h.distinct⟩
  rw [envlz]
  dsimp only
  rw [envlz_sysenv]
  exact h

/-- A call gives the answer it gives on the map, and does to the array what it does to the map. -/
theorem step_stands (g : Grt) (m : Store) (call : Call) (h : Stands g m) :
    (step g call).1 = (m.step call).1 ∧ Stands (step g call).2 (m.step call).2 := by
  cases call with
  | setenv name value rewrite =>
    obtain ⟨hrc, hholds⟩ := setVar_holds h.read (name.map (·.1)) (value.map (·.1)) rewrite
    exact ⟨congrArg Answer.rc hrc, stands_read hholds g⟩
  | putenv str =>
    obtain ⟨hrc, hholds⟩ := putVar_holds h.read str.1
    exact ⟨congrArg Answer.rc hrc, stands_read hholds g⟩
  | unsetenv name =>
    cases name with
    | none => exact ⟨rfl, stands_read h.read g⟩
    | some name => exact ⟨rfl, stands_read (unsetVar_holds h.read name.1) g⟩
  | getenv name =>
    refine ⟨?_, stands_read h.read g⟩
    cases name with
    | none => rfl
    | some name => exact congrArg Answer.value (findenv_value h.read name.1)

/-- **The environment is a finite map from trimmed names to values.** Whatever is in DD
SYSENV, and whatever the calls, with any names and values: each call answers as it does on
the map, where a value is kept without the blanks in front of it, and `getenv()` and
`unsetenv()` take the name as it is given; and the array stands for the map, with no two
variables of the same name at any time. -/
theorem environment_map (sysenv : List (List UInt8)) (calls : List Call) :
    Machine.answers step (start sysenv) calls = Machine.answers Store.step (Store.loaded sysenv) calls ∧
      Stands (Machine.final step (start sysenv) calls) (Machine.final Store.step (Store.loaded sysenv) calls) :=
  Machine.simulates step_stands (start_stands sysenv) calls

def nameA : CString := ⟨literal "A", by decide⟩
def nameABlank : CString := ⟨literal "A ", by decide⟩
def blankX : CString := ⟨literal " x", by decide⟩

/-- A value that starts with a blank comes back without it, and a name is not trimmed where
it is looked up. -/
theorem value_loses_blanks :
    Machine.answers step (start []) [.setenv (some nameABlank) (some blankX) true, .getenv (some nameA),
      .getenv (some nameABlank)] =
        [.rc 0, .value (some (literal "x")), .value none] ∧
      literal "x" ≠ blankX.1 := by
  decide +kernel

end Libc370.Env
