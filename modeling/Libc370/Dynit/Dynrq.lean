import Libc370.Ctype
import Libc370.Lib.Bytes

/-! The SVC 99 request of `dynalloc()` (`dynit/@@dynrq.c`).

A request is built on the stack: a list of pointers and a buffer for the text units, each of
a fixed size. An adder puts the next text unit behind the others and a pointer to it into the
list. None of them fails on its own; they set `err`, and from there on nothing is added.

Pointers are words of 32 bits, of which the first marks the end of a list. What is written is
checked against its area, and `none` is a write outside. `Built` says which text units a
request holds, and `Adds` which ones a piece of code adds. -/
namespace Libc370.Dynit

open Bytes

abbrev Bytes8 := List UInt8

abbrev Word := BitVec 32

/-- `DYNRQ_TU`. -/
def dynrqTu : Nat := 48

/-- `DYNRQ_BUF`. -/
def dynrqBuf : Nat := 640

/-- `DYNRQ`, as far as it is built: the pointers, the bytes in use, and the buffer. -/
structure DYNRQ where
  err : Int := 0
  tu : List Word := []
  used : Nat := 0
  buf : Bytes8 := List.replicate dynrqBuf 0

/-- Where the buffer lies. Storage ends below the bit that marks a pointer. -/
abbrev Base := {a : Nat // a + dynrqBuf ≤ 2 ^ 31}

/-- The bit that marks the last pointer. -/
def endMark : Word := 0x80000000

/-- `p & ~0x80000000UL`. -/
def unmarked (p : Word) : Word := p &&& 0x7FFFFFFF

def blank : UInt8 := ebcdic ' '

def write (l : Bytes8) (o : Nat) (bs : Bytes8) : Option Bytes8 :=
  if o + bs.length ≤ l.length then some (patch l o bs) else none

def read (l : Bytes8) (o n : Nat) : Option Bytes8 := if o + n ≤ l.length then some (window l o n) else none

/-- `rq->tu[rq->count++] = p`. -/
def DYNRQ.push (rq : DYNRQ) (p : Word) : Option DYNRQ :=
  if rq.tu.length < dynrqTu then some {rq with tu := rq.tu ++ [p]} else none

/-- `n` bytes of a number, the first one highest: `v & 0xFF` goes last, then `v >>= 8`. -/
def bigEndian : Nat → Nat → Bytes8
  | 0, _ => []
  | n + 1, v => bigEndian n (v / 256) ++ [UInt8.ofNat (v % 256)]

section Code

variable (base : Base)

/-- `room()`: where the text unit goes, if it fits. -/
def room (rq : DYNRQ) (len : Nat) : Option (DYNRQ × Option Nat) :=
  let need := (if len ≠ 0 then 6 + len else 4)
  let need := (need + 1) / 2 * 2
  if rq.err ≠ 0 then some (rq, none)
  else if dynrqTu ≤ rq.tu.length ∨ dynrqBuf < rq.used + need then some ({rq with err := -1}, none)
  else do
    let rq' ← rq.push (BitVec.ofNat 32 (base.val + rq.used))
    return ({rq' with used := rq.used + need}, some rq.used)

/-- What a text unit starts with: the key, the number of values, and the length of the one there is. -/
def header (key len : Nat) : Bytes8 :=
  bigEndian 2 key ++ [0, if len ≠ 0 then 1 else 0] ++ if len ≠ 0 then bigEndian 2 len else []

/-- `unit()`. -/
def unit (rq : DYNRQ) (key len : Nat) : Option (DYNRQ × Option Nat) := do
  let (rq, tu) ← room base rq len
  match tu with
  | none => return (rq, none)
  | some o => return ({rq with buf := ← write rq.buf o (header key len)}, some o)

/-- A text unit and its value. -/
def valued (rq : DYNRQ) (key : Nat) (value : Bytes8) : Option (DYNRQ × Option Nat) := do
  let (rq, tu) ← unit base rq key value.length
  match tu with
  | none => return (rq, none)
  | some o =>
    if value = [] then return (rq, some o)
    else return ({rq with buf := ← write rq.buf (o + 6) value}, some o)

/-- `__dynrqb()`: a number. -/
def dynrqb (key v n : Nat) (rq : DYNRQ) : Option DYNRQ := Prod.fst <$> valued base rq key (bigEndian n v)

/-- `__dynrqs()`: a string that is set. -/
def dynrqs (key : Nat) (s : Option CString) (max : Nat) (rq : DYNRQ) : Option DYNRQ :=
  match s with
  | none => some rq
  | some s =>
    if s.val = [] then some rq
    else Prod.fst <$> valued base rq key ((s.val.take (min s.val.length max)).map toupper)

/-- `__dynrqr()`: a place for MVS to return `n` bytes. -/
def dynrqr (key n : Nat) (rq : DYNRQ) : Option (DYNRQ × Option Nat) := valued base rq key (List.replicate n blank)

end Code

/-- `__dynrqm()`: the caller's own text units, up to the end of the list. -/
def dynrqm : List Word → DYNRQ → Option DYNRQ
  | [], _ => none
  | item :: items, rq =>
    if item = 0 then some rq
    else if rq.err ≠ 0 then some rq
    else if dynrqTu ≤ rq.tu.length then some {rq with err := -1}
    else do
      let rq ← rq.push (unmarked item)
      if item &&& endMark ≠ 0 then return rq else dynrqm items rq

/-- `__dynrqc()`: a value that MVS has returned, as a string, without the blanks at its end. -/
def dynrqc (buf : Bytes8) (o size : Nat) : Option Bytes8 := do
  let len := min (number (← read buf (o + 4) 2)) (size - 1)
  return (← read buf (o + 6) len).rdropWhile (· = blank)

/-! ### Text units -/

/-- A text unit, with one value or none. -/
structure TextUnit where
  key : Nat
  value : Bytes8
  deriving DecidableEq, Repr

/-- The text unit as MVS reads it. -/
def TextUnit.bytes (u : TextUnit) : Bytes8 := header u.key u.value.length ++ u.value

/-- The bytes it takes in the buffer, an even number. -/
def TextUnit.size (u : TextUnit) : Nat := (u.bytes.length + 1) / 2 * 2

/-- Where they lie, behind each other. -/
def places : Nat → List TextUnit → List Nat
  | _, [] => []
  | o, u :: us => o :: places (o + u.size) us

/-- The bytes that text units take. -/
def sizes (us : List TextUnit) : Nat := (us.map TextUnit.size).sum

/-- They fit both areas. -/
structure Fits (us : List TextUnit) : Prop where
  list : us.length ≤ dynrqTu
  buffer : sizes us ≤ dynrqBuf

/-- A request that holds these text units, and no others. -/
structure Built (base : Base) (rq : DYNRQ) (us : List TextUnit) : Prop where
  ok : rq.err = 0
  length : rq.buf.length = dynrqBuf
  used : rq.used = sizes us
  list : rq.tu = (places 0 us).map fun o => BitVec.ofNat 32 (base.val + o)
  held : ∀ v ∈ us.zip (places 0 us), window rq.buf v.2 v.1.bytes.length = v.1.bytes
  fits : Fits us

/-- A piece of code that adds these text units to any request, where it accepts what it is to
add and they fit. Elsewhere it refuses, and so does what follows. -/
structure Adds (base : Base) (ok : Prop) (more : List TextUnit) (f : DYNRQ → Option DYNRQ) : Prop where
  refused : ∀ rq, rq.err ≠ 0 → ∃ rq', f rq = some rq' ∧ rq'.err ≠ 0
  built : ∀ rq us, Built base rq us → ∃ rq', f rq = some rq' ∧
    (ok → Fits (us ++ more) → Built base rq' (us ++ more)) ∧ (¬ (ok ∧ Fits (us ++ more)) → rq'.err ≠ 0)

/-! ### Sizes -/

@[simp] theorem bigEndian_length (n v : Nat) : (bigEndian n v).length = n := by
  induction n generalizing v with
  | zero => rfl
  | succ n ih => rw [bigEndian, List.length_append, ih, List.length_singleton]

theorem header_length (key len : Nat) : (header key len).length = if len ≠ 0 then 6 else 4 := by
  rw [header, List.length_append, List.length_append, bigEndian_length]
  split <;> simp

theorem TextUnit.bytes_length (u : TextUnit) :
    u.bytes.length = if u.value.length ≠ 0 then 6 + u.value.length else 4 := by
  rw [TextUnit.bytes, List.length_append, header_length]
  split <;> omega

theorem TextUnit.length_le_size (u : TextUnit) : u.bytes.length ≤ u.size := by
  rw [TextUnit.size]
  omega

theorem TextUnit.size_pos (u : TextUnit) : 4 ≤ u.size := by
  have hlen := u.bytes_length
  rw [TextUnit.size]
  split at hlen <;> omega

@[simp] theorem sizes_append (us more : List TextUnit) : sizes (us ++ more) = sizes us + sizes more := by
  rw [sizes, List.map_append, List.sum_append, sizes, sizes]

@[simp] theorem sizes_singleton (u : TextUnit) : sizes [u] = u.size := by simp [sizes]

theorem places_length (o : Nat) (us : List TextUnit) : (places o us).length = us.length := by
  induction us generalizing o with
  | nil => rfl
  | cons u us ih => rw [places, List.length_cons, List.length_cons, ih]

theorem places_append (o : Nat) (us : List TextUnit) (u : TextUnit) :
    places o (us ++ [u]) = places o us ++ [o + sizes us] := by
  induction us generalizing o with
  | nil => rfl
  | cons v us ih =>
    rw [List.cons_append, places, ih, places, List.cons_append]
    simp [sizes, Nat.add_assoc]

/-- A text unit ends before what comes behind it. -/
theorem places_le {o : Nat} {us : List TextUnit} {v : TextUnit × Nat} (h : v ∈ us.zip (places o us)) :
    v.2 + v.1.size ≤ o + sizes us := by
  induction us generalizing o with
  | nil => simp at h
  | cons u us ih =>
    rw [places, List.zip_cons_cons, List.mem_cons] at h
    have hsum : sizes (u :: us) = u.size + sizes us := by simp [sizes]
    rcases h with rfl | h
    · dsimp only
      omega
    · have := ih h
      omega

theorem Fits.front {us more : List TextUnit} (h : Fits (us ++ more)) : Fits us := by
  have hlist := h.list
  have hbuffer := h.buffer
  rw [List.length_append] at hlist
  rw [sizes_append] at hbuffer
  exact ⟨by omega, by omega⟩

/-! ### One text unit -/

section Built

variable {base : Base} {rq : DYNRQ} {us : List TextUnit}

theorem Built.empty : Built base {} [] :=
  ⟨rfl, List.length_replicate, rfl, rfl, fun _ hv => absurd hv List.not_mem_nil, ⟨Nat.zero_le _, Nat.zero_le _⟩⟩

theorem Built.count (h : Built base rq us) : rq.tu.length = us.length := by
  rw [h.list, List.length_map, places_length]

/-- Two patches in a row are one. -/
theorem patch_patch {l a b : Bytes8} {o : Nat} (h : o + a.length + b.length ≤ l.length) :
    patch (patch l o a) (o + a.length) b = patch l o (a ++ b) := by
  have ha : o + a.length ≤ l.length := by omega
  have hdrop : (patch l o a).drop (o + a.length + b.length) = l.drop (o + (a ++ b).length) := by
    rw [drop_patch ha (by omega), List.length_append, Nat.add_assoc]
  rw [patch, take_patch_self ha, hdrop, patch, List.append_assoc (l.take o)]

/-- A request with one more text unit. -/
def DYNRQ.with (rq : DYNRQ) (base : Base) (u : TextUnit) : DYNRQ :=
  {rq with
    tu := rq.tu ++ [BitVec.ofNat 32 (base.val + rq.used)]
    used := rq.used + u.size
    buf := patch rq.buf rq.used u.bytes}

/-- Where there is room, a text unit goes behind the others. -/
theorem Built.valued_eq (h : Built base rq us) (u : TextUnit) (hfits : Fits (us ++ [u])) :
    valued base rq u.key u.value = some (rq.with base u, some rq.used) := by
  have hcount := h.count
  have hused := h.used
  have hlen := h.length
  have hlist := hfits.list
  have hbuffer := hfits.buffer
  have hbytes := u.bytes_length
  have hle := u.length_le_size
  have hhead := header_length u.key u.value.length
  rw [List.length_append, List.length_singleton] at hlist
  rw [sizes_append, sizes_singleton] at hbuffer
  have hroom : room base rq u.value.length = some ({rq with
      tu := rq.tu ++ [BitVec.ofNat 32 (base.val + rq.used)], used := rq.used + u.size}, some rq.used) := by
    have hsize : ((if u.value.length ≠ 0 then 6 + u.value.length else 4) + 1) / 2 * 2 = u.size := by
      rw [TextUnit.size, hbytes]
    rw [room]
    simp only [hsize]
    rw [if_neg (not_not.mpr h.ok), if_neg (by omega), DYNRQ.push, if_pos (by omega)]
    rfl
  have hfront : rq.used + (header u.key u.value.length).length ≤ rq.buf.length := by
    have hpart : (header u.key u.value.length).length ≤ u.bytes.length := by
      rw [TextUnit.bytes, List.length_append]
      omega
    omega
  have hunit : unit base rq u.key u.value.length = some ({rq with
      tu := rq.tu ++ [BitVec.ofNat 32 (base.val + rq.used)], used := rq.used + u.size,
      buf := patch rq.buf rq.used (header u.key u.value.length)}, some rq.used) := by
    rw [unit, hroom]
    simp only [Option.bind_eq_bind, Option.bind_some, write]
    rw [if_pos hfront]
    rfl
  rw [valued, hunit]
  simp only [Option.bind_eq_bind, Option.bind_some]
  by_cases hnone : u.value = []
  · rw [if_pos hnone, DYNRQ.with, TextUnit.bytes, hnone, List.append_nil]
    rfl
  · have hsome : u.value.length ≠ 0 := by simpa using hnone
    rw [if_pos hsome] at hbytes hhead
    have hroom' : rq.used + 6 + u.value.length ≤ rq.buf.length := by omega
    rw [if_neg hnone, write, if_pos (by rw [patch_length hfront]; exact hroom'), ← hhead,
      patch_patch (by rw [hhead]; exact hroom')]
    rfl

theorem Built.with (h : Built base rq us) (u : TextUnit) (hfits : Fits (us ++ [u])) :
    Built base (rq.with base u) (us ++ [u]) := by
  have hused := h.used
  have hlen := h.length
  have hbuffer := hfits.buffer
  have hle := u.length_le_size
  rw [sizes_append, sizes_singleton] at hbuffer
  have hin : rq.used + u.bytes.length ≤ rq.buf.length := by omega
  have hplaces : places 0 (us ++ [u]) = places 0 us ++ [rq.used] := by
    rw [places_append, Nat.zero_add, hused]
  refine ⟨h.ok, ?_, ?_, ?_, ?_, hfits⟩
  · rw [DYNRQ.with, patch_length hin, hlen]
  · rw [DYNRQ.with, sizes_append, sizes_singleton, hused]
  · rw [DYNRQ.with, h.list, hplaces, List.map_append]
    rfl
  · intro v hv
    rw [hplaces, List.zip_append (places_length 0 us).symm, List.mem_append] at hv
    rcases hv with hv | hv
    · have hbehind := places_le hv
      have hsmall := v.1.length_le_size
      rw [DYNRQ.with, window_patch_apart hin (.inl (by omega))]
      exact h.held v hv
    · obtain rfl : v = (u, rq.used) := by simpa using hv
      exact window_patch_self hin

/-- Elsewhere it is refused. -/
theorem Built.valued_refused (h : Built base rq us) (u : TextUnit) (hfits : ¬ Fits (us ++ [u])) :
    valued base rq u.key u.value = some ({rq with err := -1}, none) := by
  have hfull : dynrqTu ≤ rq.tu.length ∨ dynrqBuf < rq.used + u.size := by
    by_contra hroom
    rw [not_or] at hroom
    refine hfits ⟨?_, ?_⟩
    · rw [List.length_append, List.length_singleton, ← h.count]
      omega
    · rw [sizes_append, sizes_singleton, ← h.used]
      omega
  have hsize : ((if u.value.length ≠ 0 then 6 + u.value.length else 4) + 1) / 2 * 2 = u.size := by
    rw [TextUnit.size, u.bytes_length]
  rw [valued, unit, room]
  simp only [hsize]
  rw [if_neg (not_not.mpr h.ok), if_pos hfull]
  rfl

end Built

theorem valued_stopped (base : Base) {rq : DYNRQ} (h : rq.err ≠ 0) (key : Nat) (value : Bytes8) :
    valued base rq key value = some (rq, none) := by
  rw [valued, unit, room]
  simp only
  rw [if_pos h]
  rfl

/-! ### Pieces of code -/

section Adds

variable {base : Base} {ok ok' : Prop} {more more' : List TextUnit} {f g : DYNRQ → Option DYNRQ}

/-- One text unit. -/
theorem adds_valued (base : Base) (u : TextUnit) :
    Adds base True [u] fun rq => Prod.fst <$> valued base rq u.key u.value := by
  refine ⟨fun rq herr => ⟨rq, by rw [valued_stopped base herr]; rfl, herr⟩, fun rq us h => ?_⟩
  by_cases hfits : Fits (us ++ [u])
  · refine ⟨rq.with base u, by rw [h.valued_eq u hfits]; rfl, fun _ _ => h.with u hfits, ?_⟩
    intro hnot
    exact absurd ⟨trivial, hfits⟩ hnot
  · refine ⟨{rq with err := -1}, by rw [h.valued_refused u hfits]; rfl, fun _ hfits' => absurd hfits' hfits, ?_⟩
    exact fun _ => (by decide : (-1 : Int) ≠ 0)

/-- Nothing. -/
theorem adds_nothing (base : Base) : Adds base True [] some := by
  refine ⟨fun rq herr => ⟨rq, rfl, herr⟩, fun rq us h => ⟨rq, rfl, fun _ _ => by rwa [List.append_nil], ?_⟩⟩
  intro hnot
  rw [List.append_nil] at hnot
  exact absurd ⟨trivial, h.fits⟩ hnot

/-- A refusal. -/
theorem adds_refusal (base : Base) (err : Int) (herr : err ≠ 0) (more : List TextUnit) :
    Adds base False more fun rq => some {rq with err} := by
  refine ⟨fun rq _ => ⟨_, rfl, herr⟩, fun rq us _ => ⟨_, rfl, fun hfalse => hfalse.elim, fun _ => herr⟩⟩

/-- One piece behind the other. -/
theorem Adds.bind (hf : Adds base ok more f) (hg : Adds base ok' more' g) :
    Adds base (ok ∧ ok') (more ++ more') fun rq => (f rq).bind g := by
  refine ⟨fun rq herr => ?_, fun rq us h => ?_⟩
  · obtain ⟨rq', hf', herr'⟩ := hf.refused rq herr
    obtain ⟨rq'', hg', herr''⟩ := hg.refused rq' herr'
    exact ⟨rq'', by rw [hf', Option.bind_some, hg'], herr''⟩
  · obtain ⟨rq', hf', hbuilt, hrefused⟩ := hf.built rq us h
    by_cases hfirst : ok ∧ Fits (us ++ more)
    · obtain ⟨rq'', hg', hbuilt', hrefused'⟩ := hg.built rq' (us ++ more) (hbuilt hfirst.1 hfirst.2)
      rw [List.append_assoc] at hbuilt' hrefused'
      refine ⟨rq'', by rw [hf', Option.bind_some, hg'], fun hok hfits => hbuilt' hok.2 hfits, ?_⟩
      intro hnot
      exact hrefused' fun hboth => hnot ⟨⟨hfirst.1, hboth.1⟩, hboth.2⟩
    · obtain ⟨rq'', hg', herr''⟩ := hg.refused rq' (hrefused hfirst)
      refine ⟨rq'', by rw [hf', Option.bind_some, hg'], ?_, fun _ => herr''⟩
      intro hok hfits
      rw [← List.append_assoc] at hfits
      exact absurd ⟨hok.1, hfits.front⟩ hfirst

theorem Adds.congr (hf : Adds base ok more f) (hok : ok' ↔ ok) (hmore : more' = more) : Adds base ok' more' f := by
  rw [hmore]
  exact ⟨hf.refused, fun rq us h => by simpa only [hok] using hf.built rq us h⟩

end Adds

/-! ### The caller's text units -/

/-- The text units of a list: up to the first pointer with the mark, or in front of the first null pointer. -/
def listed : List Word → List Word
  | [] => []
  | item :: items =>
    if item = 0 then [] else if item &&& endMark ≠ 0 then [unmarked item] else unmarked item :: listed items

/-- A list of the caller's, with its end. -/
abbrev Items := {items : List Word // ∃ item ∈ items, item = 0 ∨ item &&& endMark ≠ 0}

theorem ended_tail {item : Word} {items : List Word} (h : ∃ i ∈ item :: items, i = 0 ∨ i &&& endMark ≠ 0)
    (hzero : item ≠ 0) (hmark : item &&& endMark = 0) : ∃ i ∈ items, i = 0 ∨ i &&& endMark ≠ 0 := by
  obtain ⟨i, hi, hend⟩ := h
  rcases List.mem_cons.mp hi with rfl | hi
  · exact absurd hend (not_or.mpr ⟨hzero, not_not.mpr hmark⟩)
  · exact ⟨i, hi, hend⟩

theorem dynrqm_stopped {rq : DYNRQ} (herr : rq.err ≠ 0) (items : Items) : dynrqm items.val rq = some rq := by
  obtain ⟨items, hend⟩ := items
  cases items with
  | nil => exact absurd hend (by simp)
  | cons item items =>
    rw [dynrqm]
    split <;> rfl

/-- All of them are passed on, or the request is refused. -/
theorem dynrqm_eq {rq : DYNRQ} (hok : rq.err = 0) (items : Items) (hcount : rq.tu.length ≤ dynrqTu) :
    dynrqm items.val rq = some {rq with tu := rq.tu ++ listed items.val} ∧
        rq.tu.length + (listed items.val).length ≤ dynrqTu ∨
      (∃ rq', dynrqm items.val rq = some rq' ∧ rq'.err ≠ 0) ∧
        dynrqTu < rq.tu.length + (listed items.val).length := by
  obtain ⟨items, hend⟩ := items
  induction items generalizing rq with
  | nil => exact absurd hend (by simp)
  | cons item items ih =>
    dsimp only
    rw [dynrqm, listed]
    by_cases hzero : item = 0
    · rw [if_pos hzero, if_pos hzero, List.append_nil]
      exact .inl ⟨rfl, hcount⟩
    rw [if_neg hzero, if_neg hzero, if_neg (not_not.mpr hok)]
    have hone : 1 ≤ (if item &&& endMark ≠ 0 then [unmarked item] else unmarked item :: listed items).length := by
      split <;> simp
    by_cases hfull : dynrqTu ≤ rq.tu.length
    · rw [if_pos hfull]
      exact .inr ⟨⟨_, rfl, (by decide : (-1 : Int) ≠ 0)⟩, by omega⟩
    rw [if_neg hfull, DYNRQ.push, if_pos (by omega)]
    simp only [Option.bind_eq_bind, Option.bind_some]
    by_cases hmark : item &&& endMark ≠ 0
    · rw [if_pos hmark, if_pos hmark]
      exact .inl ⟨rfl, by rw [List.length_singleton]; omega⟩
    · rw [if_neg hmark, if_neg hmark]
      have hgrown : (rq.tu ++ [unmarked item]).length ≤ dynrqTu := by
        rw [List.length_append, List.length_singleton]
        omega
      rcases @ih {rq with tu := rq.tu ++ [unmarked item]} hok hgrown (ended_tail hend hzero (not_not.mp hmark)) with
        ⟨heq, hroom⟩ | ⟨⟨rq', heq, herr⟩, hfull⟩
      · dsimp only at heq hroom
        rw [List.append_assoc, List.singleton_append] at heq
        rw [List.length_append, List.length_singleton] at hroom
        exact .inl ⟨heq, by rw [List.length_cons]; omega⟩
      · dsimp only at heq hfull
        rw [List.length_append, List.length_singleton] at hfull
        exact .inr ⟨⟨rq', heq, herr⟩, by rw [List.length_cons]; omega⟩

end Libc370.Dynit
