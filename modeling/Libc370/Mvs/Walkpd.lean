import Libc370.Ext.Patmat
import Libc370.Lib.Bytes
import Libc370.Lib.Loop

/-! A PDS directory, member by member, to a callback (`mvs/dslist/@@walkpd.c`).

A directory is read block by block. A block starts with the number of its used bytes, and an
entry has 12 bytes and as many halfwords of user data as it says itself; neither is trusted.
What is read of a block is read with a check, and `none` is a read outside what `fread()` has
left there, or a loop that does not end.

`Holds` says what the entries of a block are, without the loop: the used part starts with
them, and what is left starts with none. -/
namespace Libc370.Walkpd

open Bytes
open Strutil (patmat blank)

abbrev Entries := List (List UInt8)

/-- A call of `fread()`: the bytes, and what `feof()` and `ferror()` say after it. -/
structure Read where
  data : List UInt8
  fits : data.length ≤ 256
  eof : Bool := false
  err : Bool := false

inductive Errno | einval | eio | other (n : Nat)
  deriving DecidableEq

/-- What a walk comes to: what the callback has been given, the value, and what `errno` is set to. -/
structure Out where
  calls : Entries
  rc : Int
  errno : Option Errno
  deriving DecidableEq

/-- The end of the directory. -/
def sentinel : List UInt8 := List.replicate 8 0xFF

/-- The length of the entry that starts here. -/
def size (l : List UInt8) : Nat := 12 + (l.getD 11 0 &&& 0x1F).toNat * 2

/-- `member`: a name, cut at the first blank. -/
def member (name : List UInt8) : List UInt8 := (name.takeWhile (· ≠ blank)).takeWhile (· ≠ 0)

/-- Does the callback get a member of this name? `behind` stands for the answer of `__patmat()` when it
reads on behind the name. -/
def wanted (filter : Option CString) (behind : List UInt8 → Bool) (name : List UInt8) : Bool :=
  match filter with
  | none => true
  | some pat => (patmat (member name) pat.val).getD (behind (member name))

def read (l : List UInt8) (o n : Nat) : Option (List UInt8) := if o + n ≤ l.length then some (window l o n) else none

section Code

variable (wants : List UInt8 → Bool) (fn : Entries → Bool)

/-- The body of the loop over a block: left with whether the directory is done. -/
def entry (buf : List UInt8) (len : Nat) (pos : Nat) (calls : Entries) :
    Option (Loop.Turn (Nat × Entries) (Bool × Entries)) :=
  if pos + 12 ≤ len then do
    let name ← read buf pos 8
    if name = sentinel then return .leave (true, calls)
    let idc ← buf[pos + 11]?
    let size := 12 + (idc &&& 0x1F).toNat * 2
    if len < pos + size then return .leave (false, calls)
    if !wants name then return .again (pos + size, calls)
    let e ← read buf pos size
    if fn (calls ++ [e]) then return .leave (true, calls ++ [e])
    return .again (pos + size, calls ++ [e])
  else return .leave (false, calls)

/-- The same as a turn: `none` where the block is missed. -/
def turn (buf : List UInt8) (len : Nat) (s : Nat × Entries) : Loop.Turn (Nat × Entries) (Option (Bool × Entries)) :=
  match entry wants fn buf len s.1 s.2 with
  | none => .leave none
  | some (.again s) => .again s
  | some (.leave r) => .leave (some r)

/-- The loop over a block. A turn goes on by 12 bytes or more. -/
def block (buf : List UInt8) (calls : Entries) : Option (Bool × Entries) := do
  let len := min (number (← read buf 0 2)) buf.length
  Loop.run (fun _ => none) (turn wants fn buf len) (buf.length + 1) (2, calls)

/-- Behind the loops. -/
def close (err : Bool) (calls : Entries) : Out :=
  if err then ⟨calls, -1, some .eio⟩ else ⟨calls, calls.length, none⟩

/-- The loop over the blocks. -/
def blocks : List Read → Entries → Option Out
  | [], calls => some (close false calls)
  | r :: rest, calls =>
    if r.data.length < 2 then some (close r.err calls)
    else do
      let (done, calls) ← block wants fn r.data calls
      if done then return ⟨calls, calls.length, none⟩
      else if r.eof then return close r.err calls
      else blocks rest calls

end Code

/-- `__walkpd()`. The callback answers by the entries it has been given so far. -/
def walkpd (fopen : List UInt8 → Except (Option Errno) (List Read)) (behind : List UInt8 → Bool)
    (dataset : Option (List UInt8)) (filter : Option CString) (fn : Option (Entries → Bool)) : Option Out :=
  match dataset, fn with
  | some dataset, some fn =>
    match fopen dataset with
    | .ok reads => blocks (wanted filter behind) fn reads []
    | .error errno => some ⟨[], -1, some (errno.getD .eio)⟩
  | _, _ => some ⟨[], -1, some .einval⟩

/-! ### The entries of a block -/

/-- An entry, from its first byte to its last. -/
structure Entry (e : List UInt8) : Prop where
  fixed : 12 ≤ e.length
  whole : e.length = size e
  name : ¬ sentinel <+: e

/-- These are the entries of an area, and this is behind them. -/
structure Holds (area : List UInt8) (es : Entries) (rest : List UInt8) : Prop where
  bytes : area = es.flatten ++ rest
  entries : ∀ e ∈ es, Entry e
  all : ∀ e, Entry e → ¬ e <+: rest

/-- The used part of a block. -/
def used (buf : List UInt8) : List UInt8 := (buf.take (number (buf.take 2))).drop 2

/-- What is left starts with the end of the directory. -/
def Ended (rest : List UInt8) : Prop := 12 ≤ rest.length ∧ sentinel <+: rest

instance (rest : List UInt8) : Decidable (Ended rest) := inferInstanceAs (Decidable (_ ∧ _))

/-- The entries of a directory: those of its blocks, up to the one that has its end. -/
inductive Directory : List Read → Entries → Prop
  | nil : Directory [] []
  | short {r : Read} {rs : List Read} (h : r.data.length < 2) : Directory (r :: rs) []
  | last {r : Read} {rs : List Read} {es : Entries} {rest : List UInt8} (h : 2 ≤ r.data.length)
      (hes : Holds (used r.data) es rest) (hend : Ended rest ∨ r.eof = true) : Directory (r :: rs) es
  | more {r : Read} {rs : List Read} {es more : Entries} {rest : List UInt8} (h : 2 ≤ r.data.length)
      (hes : Holds (used r.data) es rest) (hend : ¬ (Ended rest ∨ r.eof = true)) (hmore : Directory rs more) :
      Directory (r :: rs) (es ++ more)

/-- The calls of a callback that is to have these entries, and ends it where it answers so. -/
structure Delivered (fn : Entries → Bool) (entries calls : Entries) : Prop where
  order : calls <+: entries
  on : ∀ before, before <+: calls → before ≠ [] → before ≠ calls → fn before = false
  all : calls = entries ∨ calls ≠ [] ∧ fn calls = true

theorem sentinel_length : sentinel.length = 8 := rfl

theorem size_append {e : List UInt8} (h : 12 ≤ e.length) (rest : List UInt8) : size (e ++ rest) = size e := by
  rw [size, size, List.getD_append _ _ _ _ (by omega)]

theorem size_ge (l : List UInt8) : 12 ≤ size l := Nat.le_add_right 12 _

theorem sentinel_append {e : List UInt8} (h : 12 ≤ e.length) (rest : List UInt8) :
    sentinel <+: e ++ rest ↔ sentinel <+: e := by
  constructor
  · intro hpre
    exact List.prefix_of_prefix_length_le hpre (List.prefix_append e rest) (by rw [sentinel_length]; omega)
  · intro hpre
    exact hpre.trans (List.prefix_append e rest)

/-- An entry at the start of an area is the one its bytes say. -/
theorem Entry.eq_take {e area : List UInt8} (h : Entry e) (hpre : e <+: area) : e = area.take (size area) := by
  obtain ⟨rest, rfl⟩ := hpre
  rw [size_append h.fixed, ← h.whole, List.take_left]

/-- An area starts with an entry exactly where the loop takes one. -/
theorem entry_iff {area : List UInt8} (h : 12 ≤ area.length) :
    (∃ e, Entry e ∧ e <+: area) ↔ ¬ sentinel <+: area ∧ size area ≤ area.length := by
  constructor
  · rintro ⟨e, he, rest, rfl⟩
    refine ⟨?_, ?_⟩
    · rw [sentinel_append he.fixed]
      exact he.name
    · rw [size_append he.fixed, ← he.whole, List.length_append]
      omega
  · rintro ⟨hname, hsize⟩
    have hge := size_ge area
    have hlen : (area.take (size area)).length = size area := List.length_take_of_le hsize
    have happ := List.take_append_drop (size area) area
    have hsame := size_append (e := area.take (size area)) (by omega) (area.drop (size area))
    rw [happ] at hsame
    refine ⟨area.take (size area), ⟨by omega, hlen.trans hsame, ?_⟩, List.take_prefix _ _⟩
    intro hpre
    exact hname (hpre.trans (List.take_prefix _ _))

theorem Holds.nil {area : List UInt8} (h : ∀ e, Entry e → ¬ e <+: area) : Holds area [] area :=
  ⟨rfl, by simp, h⟩

theorem Holds.cons {e area rest : List UInt8} {es : Entries} (he : Entry e) (h : Holds area es rest) :
    Holds (e ++ area) (e :: es) rest := by
  refine ⟨?_, ?_, h.all⟩
  · rw [h.bytes, List.flatten_cons, List.append_assoc]
  · intro x hx
    rcases List.mem_cons.mp hx with rfl | hx
    · exact he
    · exact h.entries x hx

/-- Every area holds entries. -/
theorem exists_holds (area : List UInt8) : ∃ es rest, Holds area es rest := by
  induction hn : area.length using Nat.strong_induction_on generalizing area with
  | h n ih =>
    by_cases hfirst : ∃ e, Entry e ∧ e <+: area
    · obtain ⟨e, he, behind, rfl⟩ := hfirst
      have hlt : behind.length < n := by
        rw [← hn, List.length_append]
        have := he.fixed
        omega
      obtain ⟨es, rest, hes⟩ := ih _ hlt behind rfl
      exact ⟨e :: es, rest, hes.cons he⟩
    · exact ⟨[], area, .nil fun e he hpre => hfirst ⟨e, he, hpre⟩⟩

/-- And no others. -/
theorem Holds.unique {area rest rest' : List UInt8} {es es' : Entries} (h : Holds area es rest)
    (h' : Holds area es' rest') : es = es' ∧ rest = rest' := by
  induction es generalizing area es' with
  | nil =>
    have harea : area = rest := by simpa using h.bytes
    cases es' with
    | nil => exact ⟨rfl, by rw [← harea]; simpa using h'.bytes⟩
    | cons e' es' =>
      refine absurd ?_ (h.all e' (h'.entries e' (by simp)))
      rw [← harea, h'.bytes, List.flatten_cons, List.append_assoc]
      exact List.prefix_append e' _
  | cons e es ih =>
    have he := h.entries e (by simp)
    have harea : area = e ++ (es.flatten ++ rest) := by
      rw [h.bytes, List.flatten_cons, List.append_assoc]
    cases es' with
    | nil =>
      refine absurd ?_ (h'.all e he)
      have hrest : area = rest' := by simpa using h'.bytes
      rw [← hrest, harea]
      exact List.prefix_append e _
    | cons e' es' =>
      have he' := h'.entries e' (by simp)
      have harea' : area = e' ++ (es'.flatten ++ rest') := by
        rw [h'.bytes, List.flatten_cons, List.append_assoc]
      have hsame : e = e' := by
        rw [he.eq_take ⟨_, harea.symm⟩, he'.eq_take ⟨_, harea'.symm⟩]
      subst hsame
      have hbehind := List.append_cancel_left (harea.symm.trans harea')
      have htail : Holds (es.flatten ++ rest) es rest :=
        ⟨rfl, fun x hx => h.entries x (List.mem_cons_of_mem e hx), h.all⟩
      have htail' : Holds (es.flatten ++ rest) es' rest' :=
        ⟨hbehind, fun x hx => h'.entries x (List.mem_cons_of_mem e hx), h'.all⟩
      obtain ⟨hes, hrest⟩ := ih htail htail'
      exact ⟨by rw [hes], hrest⟩

/-! ### A block -/

section Walk

variable (wants : List UInt8 → Bool) (fn : Entries → Bool)

/-- The callback is given these, one after the other, until it has what it wants. -/
def deliver : Entries → Entries → Bool × Entries
  | calls, [] => (false, calls)
  | calls, e :: es => if fn (calls ++ [e]) then (true, calls ++ [e]) else deliver (calls ++ [e]) es

theorem deliver_append (calls a b : Entries) :
    deliver fn calls (a ++ b) =
      if (deliver fn calls a).1 then deliver fn calls a else deliver fn (deliver fn calls a).2 b := by
  induction a generalizing calls with
  | nil => rfl
  | cons e a ih =>
    rw [List.cons_append, deliver, deliver]
    split
    · rfl
    · exact ih _

/-- Is this entry one for the callback? -/
def takes (e : List UInt8) : Bool := wants (e.take 8)

variable {buf : List UInt8} {len pos : Nat} (calls : Entries)

section Area

variable {area : List UInt8} (hlen : len ≤ buf.length) (harea : (buf.take len).drop pos = area)

include hlen harea

theorem area_length : area.length = len - pos := by
  rw [← harea, List.length_drop, List.length_take_of_le hlen]

theorem read_area {n : Nat} (hn : 0 < n) (h : n ≤ area.length) : read buf pos n = some (area.take n) := by
  have harealen := area_length hlen harea
  rw [read, if_pos (by omega), window, ← harea, List.drop_take, List.take_take, Nat.min_eq_left (by omega)]

theorem getElem?_area (h : 12 ≤ area.length) : buf[pos + 11]? = some (area.getD 11 0) := by
  have harealen := area_length hlen harea
  have hget : area[11]? = buf[pos + 11]? := by
    rw [← harea, List.getElem?_drop, List.getElem?_take, if_pos (by omega)]
  rw [← hget, List.getD_eq_getElem?_getD, List.getElem?_eq_getElem (by omega), Option.getD_some]

/-- Where no entry starts the loop is left. -/
theorem entry_none (h : ∀ e, Entry e → ¬ e <+: area) :
    entry wants fn buf len pos calls = some (.leave (decide (Ended area), calls)) := by
  have harealen := area_length hlen harea
  by_cases hroom : 12 ≤ area.length
  · rw [entry, if_pos (by omega), read_area hlen harea (by omega) (by omega), getElem?_area hlen harea hroom]
    simp only [Option.bind_eq_bind, Option.bind_some, Option.pure_def]
    by_cases hname : sentinel <+: area
    · have htake : area.take 8 = sentinel := (List.prefix_iff_eq_take.mp hname).symm
      rw [if_pos htake, decide_eq_true (show Ended area from ⟨hroom, hname⟩)]
    · have htake : ¬ area.take 8 = sentinel := fun htake => hname (htake ▸ List.take_prefix 8 area)
      have hsize : ¬ size area ≤ area.length := by
        intro hsize
        obtain ⟨e, he, hpre⟩ := (entry_iff hroom).mpr ⟨hname, hsize⟩
        exact h e he hpre
      rw [size] at hsize
      rw [if_neg htake, if_pos (by omega), decide_eq_false (fun hend => hname hend.2)]
  · rw [entry, if_neg (by omega), decide_eq_false (fun hend => hroom hend.1)]
    rfl

/-- Where an entry starts, it is for the callback or not, and the loop goes on behind it. -/
theorem entry_some {e : List UInt8} (he : Entry e) (hpre : e <+: area) :
    entry wants fn buf len pos calls =
      some (if takes wants e then
        if fn (calls ++ [e]) then .leave (true, calls ++ [e]) else .again (pos + e.length, calls ++ [e])
      else .again (pos + e.length, calls)) := by
  have harealen := area_length hlen harea
  have hle := hpre.length_le
  have hfixed := he.fixed
  obtain ⟨hname, hsize⟩ := (entry_iff (by omega)).mp ⟨e, he, hpre⟩
  have hsame : size area = e.length := by
    obtain ⟨rest, rfl⟩ := hpre
    rw [size_append hfixed, he.whole]
  have htake : area.take e.length = e := (List.prefix_iff_eq_take.mp hpre).symm
  have hhead : area.take 8 = e.take 8 := by
    rw [← htake, List.take_take, Nat.min_eq_left (by omega)]
  have hno : ¬ e.take 8 = sentinel := fun heq => he.name (heq ▸ List.take_prefix 8 e)
  have hcount : 12 + (area.getD 11 0 &&& 0x1F).toNat * 2 = e.length := by rw [← hsame, size]
  rw [entry, if_pos (by omega), read_area hlen harea (by omega) (by omega), getElem?_area hlen harea (by omega)]
  simp only [Option.bind_eq_bind, Option.bind_some, Option.pure_def]
  rw [hcount, if_neg (by rwa [hhead]), if_neg (by omega), read_area hlen harea (by omega) hle, htake, hhead]
  have htakes : wants (e.take 8) = takes wants e := rfl
  rw [htakes]
  cases takes wants e with
  | true =>
    simp only [Option.bind_some, Bool.not_true, Bool.false_eq_true, if_false, if_true]
    split <;> rfl
  | false => rfl

end Area

/-- **The loop over the used part of a block**: its entries that are wanted go to the callback, in order, until
it stops the walk; and the walk is over at the end of the directory. -/
theorem run_turn {area rest : List UInt8} {es : Entries} {fuel : Nat} (hlen : len ≤ buf.length)
    (harea : (buf.take len).drop pos = area) (hes : Holds area es rest) (hfuel : area.length < fuel) :
    Loop.run (fun _ => none) (turn wants fn buf len) fuel (pos, calls) =
      some ((deliver fn calls (es.filter (takes wants))).1 || decide (Ended rest),
        (deliver fn calls (es.filter (takes wants))).2) := by
  induction es generalizing area pos calls fuel with
  | nil =>
    obtain ⟨fuel, rfl⟩ : ∃ k, fuel = k + 1 := ⟨fuel - 1, by omega⟩
    have hrest : area = rest := by simpa using hes.bytes
    have hleft := entry_none wants fn calls hlen harea (hrest ▸ hes.all)
    rw [Loop.run_leave (r := some (decide (Ended area), calls)) (by rw [turn, hleft]), hrest]
    rfl
  | cons e es ih =>
    obtain ⟨fuel, rfl⟩ : ∃ k, fuel = k + 1 := ⟨fuel - 1, by omega⟩
    have he := hes.entries e (by simp)
    have hbytes : area = e ++ (es.flatten ++ rest) := by
      rw [hes.bytes, List.flatten_cons, List.append_assoc]
    have harealen := area_length hlen harea
    have hsum : area.length = e.length + (es.flatten ++ rest).length := by rw [hbytes, List.length_append]
    have hfixed := he.fixed
    have hbehind : (buf.take len).drop (pos + e.length) = es.flatten ++ rest := by
      rw [← List.drop_drop, harea, hbytes, List.drop_left]
    have htail : Holds (es.flatten ++ rest) es rest :=
      ⟨rfl, fun x hx => hes.entries x (List.mem_cons_of_mem e hx), hes.all⟩
    have hgo : ∀ calls, Loop.run (fun _ => none) (turn wants fn buf len) fuel (pos + e.length, calls) = _ :=
      fun calls => ih calls hbehind htail (by omega)
    have hstep := entry_some wants fn calls hlen harea he ⟨_, hbytes.symm⟩
    by_cases htakes : takes wants e = true
    · rw [List.filter_cons_of_pos htakes, deliver]
      rw [if_pos htakes] at hstep
      by_cases hfn : fn (calls ++ [e]) = true
      · rw [if_pos hfn] at hstep ⊢
        rw [Loop.run_leave (r := some (true, calls ++ [e])) (by rw [turn, hstep])]
        rfl
      · rw [if_neg hfn] at hstep ⊢
        have hagain : turn wants fn buf len (pos, calls) = .again (pos + e.length, calls ++ [e]) := by
          rw [turn, hstep]
        rw [Loop.run_again hagain]
        exact hgo _
    · rw [List.filter_cons_of_neg htakes]
      rw [if_neg htakes] at hstep
      have hagain : turn wants fn buf len (pos, calls) = .again (pos + e.length, calls) := by
        rw [turn, hstep]
      rw [Loop.run_again hagain]
      exact hgo _

/-- A block of two bytes or more. -/
theorem block_eq {rest : List UInt8} {es : Entries} (hroom : 2 ≤ buf.length) (hes : Holds (used buf) es rest) :
    block wants fn buf calls =
      some ((deliver fn calls (es.filter (takes wants))).1 || decide (Ended rest),
        (deliver fn calls (es.filter (takes wants))).2) := by
  have hread : read buf 0 2 = some (buf.take 2) := by
    rw [read, if_pos (by omega), window, List.drop_zero]
  rw [block, hread]
  simp only [Option.bind_eq_bind, Option.bind_some]
  have harea : (buf.take (min (number (buf.take 2)) buf.length)).drop 2 = used buf := by
    rw [used, ← List.take_take, List.take_length]
  have hshort : (used buf).length < buf.length + 1 := by
    rw [used, List.length_drop, List.length_take]
    omega
  exact run_turn wants fn calls (Nat.min_le_right _ _) harea hes hshort

/-! ### The directory -/

/-- What is delivered is what a callback is to have. -/
theorem deliver_delivered (calls es : Entries) :
    ∃ made, (deliver fn calls es).2 = calls ++ made ∧ Delivered (fun more => fn (calls ++ more)) es made := by
  induction es generalizing calls with
  | nil =>
    refine ⟨[], by simp [deliver], List.prefix_rfl, ?_, .inl rfl⟩
    intro before hpre hne
    exact absurd (List.prefix_nil.mp hpre) hne
  | cons e es ih =>
    rw [deliver]
    by_cases hfn : fn (calls ++ [e]) = true
    · rw [if_pos hfn]
      refine ⟨[e], rfl, List.prefix_append [e] es, ?_, .inr ⟨by simp, hfn⟩⟩
      intro before hpre hne hneq
      cases before with
      | nil => exact absurd rfl hne
      | cons x more =>
        obtain ⟨rfl, hmore⟩ := List.cons_prefix_cons.mp hpre
        exact absurd (by rw [List.prefix_nil.mp hmore]) hneq
    · rw [if_neg hfn]
      obtain ⟨made, hcalls, hmade⟩ := ih (calls ++ [e])
      refine ⟨e :: made, by rw [hcalls, List.append_assoc, List.singleton_append],
        List.cons_prefix_cons.mpr ⟨rfl, hmade.order⟩, ?_, ?_⟩
      · intro before hpre hne hneq
        cases before with
        | nil => exact absurd rfl hne
        | cons x more =>
          obtain ⟨rfl, hmore⟩ := List.cons_prefix_cons.mp hpre
          by_cases hnil : more = []
          · rw [hnil]
            exact Bool.eq_false_iff.mpr hfn
          · have hon := hmade.on more hmore hnil fun heq => hneq (by rw [heq])
            rwa [List.append_assoc] at hon
      · rcases hmade.all with hall | ⟨_, hstop⟩
        · exact .inl (by rw [hall])
        · rw [List.append_assoc] at hstop
          exact .inr ⟨by simp, hstop⟩

/-- Every directory holds entries. -/
theorem exists_directory (reads : List Read) : ∃ entries, Directory reads entries := by
  induction reads with
  | nil => exact ⟨[], .nil⟩
  | cons r rs ih =>
    obtain ⟨es, rest, hes⟩ := exists_holds (used r.data)
    obtain ⟨more, hmore⟩ := ih
    by_cases hroom : 2 ≤ r.data.length
    · by_cases hend : Ended rest ∨ r.eof = true
      · exact ⟨es, .last hroom hes hend⟩
      · exact ⟨es ++ more, .more hroom hes hend hmore⟩
    · exact ⟨[], .short (by omega)⟩

/-- And no others. -/
theorem Directory.unique {reads : List Read} {es es' : Entries} (h : Directory reads es)
    (h' : Directory reads es') : es = es' := by
  induction h generalizing es' with
  | nil => cases h'; rfl
  | short hshort =>
    cases h' with
    | short => rfl
    | last hroom => omega
    | more hroom => omega
  | last hroom hes hend =>
    cases h' with
    | short hshort => omega
    | last _ hes' => exact (hes.unique hes').1
    | more _ hes' hno => exact absurd ((hes.unique hes').2 ▸ hend) hno
  | more hroom hes hno _ ih =>
    cases h' with
    | short hshort => omega
    | last _ hes' hend => exact absurd hend ((hes.unique hes').2 ▸ hno)
    | more _ hes' _ hmore' => rw [(hes.unique hes').1, ih hmore']

/-- What the end of the walk makes of the calls. -/
structure Closed (reads : List Read) (calls : Entries) (out : Out) : Prop where
  given : out.calls = calls
  value : out.rc = calls.length ∨ out.rc = -1 ∧ ∃ r ∈ reads, r.err = true

theorem closed_close {r : Read} (rs : List Read) (calls : Entries) : Closed (r :: rs) calls (close r.err calls) := by
  rw [close]
  split
  · next herr => exact ⟨rfl, .inr ⟨rfl, r, by simp, herr⟩⟩
  · exact ⟨rfl, .inl rfl⟩

theorem Closed.cons {r : Read} {rs : List Read} {calls : Entries} {out : Out} (h : Closed rs calls out) :
    Closed (r :: rs) calls out := by
  refine ⟨h.given, h.value.imp_right ?_⟩
  rintro ⟨hrc, r', hmem, herr⟩
  exact ⟨hrc, r', List.mem_cons_of_mem r hmem, herr⟩

/-- The blocks of a directory. -/
theorem blocks_eq {reads : List Read} {entries : Entries} (h : Directory reads entries) :
    ∃ out, blocks wants fn reads calls = some out ∧
      Closed reads (deliver fn calls (entries.filter (takes wants))).2 out := by
  induction h generalizing calls with
  | nil => exact ⟨_, rfl, rfl, .inl rfl⟩
  | short hshort =>
    rw [blocks, if_pos hshort]
    exact ⟨_, rfl, closed_close _ calls⟩
  | @last r rs es rest hroom hes hend =>
    rw [blocks, if_neg (by omega), block_eq wants fn calls hroom hes]
    simp only [Option.bind_eq_bind, Option.bind_some, Option.pure_def]
    split
    · exact ⟨_, rfl, rfl, .inl rfl⟩
    · next hdone =>
      have heof : r.eof = true := by
        rcases hend with hend | heof
        · simp [hend] at hdone
        · exact heof
      rw [if_pos heof]
      exact ⟨_, rfl, closed_close _ _⟩
  | @more r rs es more rest hroom hes hno _ ih =>
    obtain ⟨hend, heof⟩ := not_or.mp hno
    rw [blocks, if_neg (by omega), block_eq wants fn calls hroom hes, List.filter_append, deliver_append]
    simp only [Option.bind_eq_bind, Option.bind_some, Option.pure_def, hend, decide_false, Bool.or_false]
    split
    · exact ⟨_, rfl, rfl, .inl rfl⟩
    · obtain ⟨out, hout, hclosed⟩ := ih (deliver fn calls (es.filter (takes wants))).2
      exact ⟨out, hout, hclosed.cons⟩

end Walk

/-- **The entries of a directory go to the callback.** Of any blocks, and for any filter and any callback,
the walk comes to an end without a read outside a block. It has given the callback the entries that lie
in the used parts of the blocks before the end of the directory, all of them, in order, less those whose names
the filter does not match, up to the one at which the callback stops it. -/
theorem walkpd_delivers (reads : List Read) (filter : Option CString) (behind : List UInt8 → Bool)
    (fn : Entries → Bool) (dataset : List UInt8) :
    ∃ entries out, Directory reads entries ∧ (∀ others, Directory reads others → others = entries) ∧
      walkpd (fun _ => .ok reads) behind (some dataset) filter (some fn) = some out ∧
      Delivered fn (entries.filter (takes (wanted filter behind))) out.calls ∧
      (out.rc = out.calls.length ∨ out.rc = -1 ∧ ∃ r ∈ reads, r.err = true) := by
  obtain ⟨entries, hentries⟩ := exists_directory reads
  obtain ⟨out, hout, hclosed⟩ := blocks_eq (wanted filter behind) fn [] hentries
  obtain ⟨made, hmade, hdelivered⟩ := deliver_delivered fn [] (entries.filter (takes (wanted filter behind)))
  have hcalls : out.calls = made := by rw [hclosed.given, hmade, List.nil_append]
  refine ⟨entries, out, hentries, fun others hothers => hothers.unique hentries, hout, ?_, ?_⟩
  · rw [hcalls]
    exact hdelivered
  · have hvalue := hclosed.value
    rwa [hmade, List.nil_append, ← hcalls] at hvalue

/-- A block with one member, `ABCDEFGH`, and the end of the directory. -/
def oneMember : Read where
  data := [0, 26] ++ (literal "ABCDEFGH" ++ [0, 0, 1, 0]) ++ (sentinel ++ [0, 0, 0, 0])
  fits := by decide

/-- A member of another name than the filter's is not for the callback. -/
theorem filtered_out :
    ¬ ∀ (reads : List Read) (filter : Option CString) (behind : List UInt8 → Bool) (fn : Entries → Bool)
        (dataset : List UInt8) (entries : Entries), Directory reads entries →
      ∃ out, walkpd (fun _ => .ok reads) behind (some dataset) filter (some fn) = some out ∧ out.calls = entries := by
  intro h
  have hname : Entry (literal "ABCDEFGH" ++ [0, 0, 1, 0]) := ⟨by decide, by decide, by decide⟩
  have hend : ∀ e, Entry e → ¬ e <+: sentinel ++ [0, 0, 0, 0] := by
    intro e he hpre
    exact absurd ((entry_iff (by decide)).mp ⟨e, he, hpre⟩).1 (by decide)
  have hholds : Holds (used oneMember.data) [literal "ABCDEFGH" ++ [0, 0, 1, 0]] (sentinel ++ [0, 0, 0, 0]) := by
    have hused : used oneMember.data = literal "ABCDEFGH" ++ [0, 0, 1, 0] ++ (sentinel ++ [0, 0, 0, 0]) := by decide
    rw [hused]
    exact .cons hname (.nil hend)
  have hdirectory : Directory [oneMember] [literal "ABCDEFGH" ++ [0, 0, 1, 0]] :=
    .last (by decide) hholds (.inl (by decide))
  obtain ⟨out, hout, hcalls⟩ :=
    h [oneMember] (some ⟨literal "X", by decide⟩) (fun _ => false) (fun _ => false) [] _ hdirectory
  have hnone : wanted (some ⟨literal "X", by decide⟩) (fun _ => false) (literal "ABCDEFGH") = false := by
    have hmember : member (literal "ABCDEFGH") = literal "ABCDEFGH" := by decide
    have hpat : patmat (literal "ABCDEFGH") (literal "X") = some false := by
      rw [show literal "X" = ebcdic 'X' :: [] from rfl, Strutil.patmat_char _ _ (by decide)]
      decide
    rw [wanted, hmember, hpat]
    rfl
  obtain ⟨out', hout', hclosed⟩ := blocks_eq (wanted (some ⟨literal "X", by decide⟩) fun _ => false) (fun _ => false)
    [] hdirectory
  have hsame : out = out' := Option.some.inj (hout.symm.trans hout')
  rw [hsame, hclosed.given, List.filter_cons_of_neg (by rw [takes]; exact ne_true_of_eq_false hnone)] at hcalls
  exact absurd hcalls (by decide)

end Libc370.Walkpd
