import Libc370.Stdlib.Strtol

/-! IPv4 addresses in text (`net/@@inaton.c`, `@@inpton.c`, `@@inntop.c`).

`inet_aton()` takes BSD's forms, one to four parts of which the last one fills the bytes the
others leave, each in the notation of an integer constant; what stands behind a blank is not
looked at. `inet_pton()` takes four decimal parts and nothing else, and `inet_ntop()` writes
them. A string is the bytes up to its NUL. -/
namespace Libc370.Inet

open Strto (Bytes Subject Numeral numeral_iff magnitude)

/-! ### `inet_aton()` -/

/-- `digit()`: none for -1. -/
def digit (c : UInt8) (base : Nat) : Option Nat :=
  let d :=
    if ebcdic '0' ≤ c ∧ c ≤ ebcdic '9' then some (c.toNat - (ebcdic '0').toNat)
    else if base = 16 ∧ ebcdic 'a' ≤ c ∧ c ≤ ebcdic 'f' then some (c.toNat - (ebcdic 'a').toNat + 10)
    else if base = 16 ∧ ebcdic 'A' ≤ c ∧ c ≤ ebcdic 'F' then some (c.toNat - (ebcdic 'A').toNat + 10)
    else none
  d.filter (· < base)

/-- The loop of `number()`: the value, whether there was a digit, and the place behind. -/
def numberLoop (base : Nat) : Nat → Bool → Bytes → Option (Nat × Bool × Bytes)
  | v, any, [] => some (v, any, [])
  | v, any, c :: s =>
    match digit c base with
    | none => some (v, any, c :: s)
    | some d => if (0xFFFFFFFF - d) / base < v then none else numberLoop base (v * base + d) true s

/-- The end of `number()`: nothing where there was no digit. -/
def numbered : Option (Nat × Bool × Bytes) → Option (Nat × Bytes)
  | some (v, true, s) => some (v, s)
  | _ => none

/-- `number()`: the value and the place behind one part. -/
def number : Bytes → Option (Nat × Bytes)
  | [] => none
  | c :: s =>
    if c < ebcdic '0' ∨ ebcdic '9' < c then none
    else if c = ebcdic '0' then
      if s.head? = some (ebcdic 'x') ∨ s.head? = some (ebcdic 'X') then numbered (numberLoop 16 0 false s.tail)
      else numbered (numberLoop 8 0 true s)
    else numbered (numberLoop 10 0 false (c :: s))

/-- The loop over the parts, with so many points still to come. -/
def partsLoop : Nat → Bytes → Option (List Nat × Bytes)
  | n, s => do
    let (v, s) ← number s
    if s.head? ≠ some (ebcdic '.') then some ([v], s)
    else
      match n with
      | 0 => none
      | n + 1 =>
        let (part, s) ← partsLoop n s.tail
        some (v :: part, s)

/-- A tab; the source writes an escape. -/
def tab : UInt8 := 0x05

/-- A string may go on behind the address. -/
def atEnd (s : Bytes) : Bool :=
  s = [] || s.head? = some (ebcdic ' ') || s.head? = some tab || s.head? = some (ebcdic '\n')

/-- What the last part may be, by the number of parts before it. -/
def last : List Nat := [0xFFFFFFFF, 0x00FFFFFF, 0x0000FFFF, 0x000000FF]

/-- `addr |= part[i] << (24 - 8 * i)` from part `i` on, but for the last one. -/
def orParts : Nat → List Nat → Nat → Nat
  | _, [], addr => addr
  | _, [_], addr => addr
  | i, v :: part, addr => orParts (i + 1) part (addr ||| v <<< (24 - 8 * i))

/-- `inet_aton()`: what it returns, and what `inp` leads to. -/
def inetAton (cp : Option Bytes) (inp : Option (BitVec 32)) : Int × Option (BitVec 32) :=
  match cp.bind (partsLoop 3) with
  | none => (0, inp)
  | some (part, s) =>
    let n := part.length - 1
    if ¬ atEnd s then (0, inp)
    else if part.dropLast.any (0xFF < ·) then (0, inp)
    else if last.getD n 0 < part.getLastD 0 then (0, inp)
    else (1, inp.map fun _ => BitVec.ofNat 32 (orParts 0 part (part.getLastD 0)))

/-! ### `inet_pton()` and `inet_ntop()` -/

inductive Errno | eafnosupport | enospc
  deriving DecidableEq, Repr

def AF_INET : Int := 2

/-- The loop over the digits of a part, with the value and their number. -/
def octetLoop : Nat → Nat → Bytes → Option (Nat × Nat × Bytes)
  | v, len, [] => some (v, len, [])
  | v, len, c :: s =>
    if ebcdic '0' ≤ c ∧ c ≤ ebcdic '9' then
      if len ≠ 0 ∧ v = 0 then none
      else
        let v := v * 10 + (c.toNat - (ebcdic '0').toNat)
        if 255 < v then none else octetLoop v (len + 1) s
    else some (v, len, c :: s)

/-- One part, which has a digit. -/
def octet (s : Bytes) : Option (Nat × Bytes) := do
  let (v, len, s) ← octetLoop 0 0 s
  if len = 0 then none else some (v, s)

/-- So many more parts, each behind a point. -/
def octets : Nat → BitVec 32 → Bytes → Option (BitVec 32 × Bytes)
  | 0, addr, s => some (addr, s)
  | n + 1, addr, s =>
    if s.head? ≠ some (ebcdic '.') then none
    else do
      let (v, s) ← octet s.tail
      octets n (addr <<< 8 ||| BitVec.ofNat 32 v) s

/-- `inet_pton()`: what it returns, what `dst` leads to, and `errno` where it is set. -/
def inetPton (af : Int) (src : Bytes) (dst : BitVec 32) : Int × BitVec 32 × Option Errno :=
  if af ≠ AF_INET then (-1, dst, some .eafnosupport)
  else
    match (octet src).bind fun (v, s) => octets 3 (0 <<< 8 ||| BitVec.ofNat 32 v) s with
    | some (addr, []) => (1, addr, none)
    | _ => (0, dst, none)

/-- A decimal digit. -/
def figure (n : Nat) : UInt8 := ebcdic '0' + UInt8.ofNat n

/-- The digits of a byte. -/
def octetText (b : Nat) : Bytes :=
  (if 100 ≤ b then [figure (b / 100)] else []) ++ (if 10 ≤ b then [figure (b / 10 % 10)] else []) ++ [figure (b % 10)]

/-- `tmp` of `inet_ntop()`. -/
def ntopText (a : BitVec 32) : Bytes :=
  [24, 16, 8, 0].flatMap fun shift =>
    octetText (a >>> shift &&& 0xFF#32).toNat ++ [if shift ≠ 0 then ebcdic '.' else 0]

/-- `INET_ADDRSTRLEN`. -/
def INET_ADDRSTRLEN : Nat := 16

/-- `inet_ntop()`: the bytes put at `dst`. -/
def inetNtop (af : Int) (a : BitVec 32) (size : Nat) : Except Errno Bytes :=
  if af ≠ AF_INET then .error .eafnosupport
  else if size < (ntopText a).length then .error .enospc
  else .ok (ntopText a)

/-! ### The notation of an address -/

/-- Parts with points between them, so many of them at most, and their numbers; each has the form of
an integer constant. -/
inductive Parts : Nat → Bytes → List Nat → Prop
  | one {n v : Nat} {text : Bytes} (h : Subject 0 text v) : Parts n text [v]
  | more {n v : Nat} {text s : Bytes} {part : List Nat} (h : Subject 0 text v) (rest : Parts n s part) :
      Parts (n + 1) (text ++ ebcdic '.' :: s) (v :: part)

/-- The last part fills what the parts before it leave, which are a byte each. -/
structure InRange (part : List Nat) : Prop where
  bytes : ∀ v ∈ part.dropLast, v < 2 ^ 8
  last : part.getLastD 0 < 2 ^ (8 * (5 - part.length))

/-- The number of an address, from part `i` on. -/
def valueFrom : Nat → List Nat → Nat
  | _, [] => 0
  | _, [v] => v
  | i, v :: part => v * 2 ^ (24 - 8 * i) + valueFrom (i + 1) part

/-- A text is one to four parts in range, and its address. -/
def Writes (text : Bytes) (a : BitVec 32) : Prop := ∃ part,
    Parts 3 text part ∧ InRange part ∧ a = BitVec.ofNat 32 (valueFrom 0 part)

/-- The string is such a text, or goes on behind it with a blank, a tab or a new line. -/
def Address (s : Bytes) (a : BitVec 32) : Prop := ∃ text rest, s = text ++ rest ∧ Writes text a ∧ atEnd rest = true

/-! ### One part -/

theorem digit_eq {base : Nat} (hbase : base = 8 ∨ base = 10 ∨ base = 16) (c : UInt8) :
    digit c base = if digval c.toNat < base then some (digval c.toNat) else none := by
  have hc := digval_cases c
  have h₀ : (ebcdic '0').toNat = 0xF0 := rfl
  have h₉ : (ebcdic '9').toNat = 0xF9 := rfl
  have ha : (ebcdic 'a').toNat = 0x81 := rfl
  have hf : (ebcdic 'f').toNat = 0x86 := rfl
  have hA : (ebcdic 'A').toNat = 0xC1 := rfl
  have hF : (ebcdic 'F').toNat = 0xC6 := rfl
  rw [digit]
  simp only [UInt8.le_iff_toNat_le, h₀, h₉, ha, hf, hA, hF]
  by_cases hlt : digval c.toNat < base
  · rw [if_pos hlt]
    have hsome : ∀ n : Nat, n = digval c.toNat →
        (some n).filter (fun d => decide (d < base)) = some (digval c.toNat) := by
      rintro n rfl
      exact Option.filter_some_pos (decide_eq_true hlt)
    split_ifs <;> first | exact hsome _ (by omega) | exact absurd hlt (by omega)
  · rw [if_neg hlt]
    have hnone : ∀ n : Nat, n = digval c.toNat → (some n).filter (fun d => decide (d < base)) = none := by
      rintro n rfl
      exact Option.filter_some_neg (by simpa using hlt)
    split_ifs <;> first | rfl | exact hnone _ (by omega)

theorem past_iff {base v d : Nat} (hd : d < base) (hbase : base ≤ 16) :
    (0xFFFFFFFF - d) / base < v ↔ 0xFFFFFFFF < v * base + d := by
  rw [Nat.div_lt_iff_lt_mul (by omega)]
  omega

/-- The loop takes the digits, as long as the number has no more than 32 bits. -/
theorem numberLoop_spec {base : Nat} (hbase : base = 8 ∨ base = 10 ∨ base = 16) (s : Bytes) (v : Nat) (any : Bool)
    (hv : v ≤ 0xFFFFFFFF) :
    numberLoop base v any s = if magnitude base v (Strto.run base s) ≤ 0xFFFFFFFF then
      some (magnitude base v (Strto.run base s), any || !(Strto.run base s).isEmpty,
        s.drop (Strto.run base s).length) else none := by
  induction s generalizing v any with
  | nil => simp [numberLoop, Strto.run, magnitude, hv]
  | cons c s ih =>
    rw [numberLoop, digit_eq hbase]
    by_cases hd : digval c.toNat < base
    · have hrun := Strto.run_digit hd s
      have hmag : magnitude base v (c :: Strto.run base s) = magnitude base (v * base + digval c.toNat)
          (Strto.run base s) := rfl
      rw [if_pos hd, hrun, hmag]
      dsimp only
      by_cases hpast : 0xFFFFFFFF < v * base + digval c.toNat
      · have hgrows := @Strto.le_magnitude base (by omega) (Strto.run base s) (v * base + digval c.toNat)
        rw [if_pos ((past_iff hd (by omega)).mpr hpast), if_neg (by omega)]
      · rw [if_neg fun h => hpast ((past_iff hd (by omega)).mp h), ih _ _ (by omega)]
        simp
    · have hrun : Strto.run base (c :: s) = [] := List.takeWhile_cons_of_neg (by simpa using hd)
      rw [if_neg hd, hrun]
      simp [magnitude, hv]

/-- A character behind a part belongs to no number. -/
def Halts (s : Bytes) : Prop := ∀ c ∈ s.head?, 16 ≤ digval c.toNat ∧ c ≠ ebcdic 'x' ∧ c ≠ ebcdic 'X'

theorem run_append {base : Nat} {text rest : Bytes} (ht : ∀ c ∈ text, digval c.toNat < base) (hrest : Halts rest)
    (hbase : base ≤ 16) :
    Strto.run base (text ++ rest) = text := by
  rw [Strto.run, List.takeWhile_append_of_pos fun c hc => decide_eq_true (ht c hc)]
  cases rest with
  | nil => exact List.append_nil _
  | cons c rest =>
    have hge := (hrest c rfl).1
    rw [List.takeWhile_cons_of_neg (by simp; omega), List.append_nil]

theorem first_digit {c : UInt8} : ¬ (c < ebcdic '0' ∨ ebcdic '9' < c) ↔ digval c.toNat < 10 := by
  have hc := digval_cases c
  have h₀ : (ebcdic '0').toNat = 0xF0 := rfl
  have h₉ : (ebcdic '9').toNat = 0xF9 := rfl
  rw [UInt8.lt_iff_toNat_lt, UInt8.lt_iff_toNat_lt]
  omega

theorem digval_x {c : UInt8} (hc : c = ebcdic 'x' ∨ c = ebcdic 'X') : 16 ≤ digval c.toNat := by
  rcases hc with rfl | rfl <;> decide

/-- A number of a base behind what the loop has so far. -/
theorem number_loop {base : Nat} (hbase : base = 8 ∨ base = 10 ∨ base = 16) {text rest : Bytes} {v : Nat}
    (hn : Numeral base text v)
    (hv : v < 2 ^ 32) (hrest : Halts rest) (any : Bool) :
    numberLoop base 0 any (text ++ rest) = some (v, true, rest) := by
  obtain ⟨hne, hdigits, rfl⟩ := (numeral_iff (by omega)).mp hn
  rw [numberLoop_spec hbase _ _ _ (Nat.zero_le _), run_append hdigits hrest (by omega), if_pos (by omega),
    List.drop_left]
  simp [hne]

/-- A part in front of what halts it is taken. -/
theorem number_subject {text rest : Bytes} {v : Nat} (h : Subject 0 text v) (hv : v < 2 ^ 32) (hrest : Halts rest) :
    number (text ++ rest) = some (v, rest) := by
  have hzero : ¬ (ebcdic '0' < ebcdic '0' ∨ ebcdic '9' < ebcdic '0') := by decide
  cases h with
  | digits h => exact absurd rfl h
  | @hex text n x h hx hn =>
    have hcode : (x :: (text ++ rest)).head? = some (ebcdic 'x') ∨ (x :: (text ++ rest)).head? = some (ebcdic 'X') :=
      hx.imp (congrArg some) (congrArg some)
    have hloop := number_loop (.inr (.inr rfl)) hn hv hrest false
    rw [List.cons_append, List.cons_append, number, if_neg hzero, if_pos rfl, if_pos hcode, List.tail_cons, hloop]
    rfl
  | octal h hhead hn =>
    obtain ⟨-, hdigits, rfl⟩ := (numeral_iff (by omega)).mp hn
    cases text with
    | nil => cases hhead
    | cons c text =>
      obtain rfl : c = ebcdic '0' := Option.some.inj hhead
      have hcode : ¬ ((text ++ rest).head? = some (ebcdic 'x') ∨ (text ++ rest).head? = some (ebcdic 'X')) := by
        cases text with
        | nil => exact fun hc => hc.elim (fun hc => (hrest _ hc).2.1 rfl) fun hc => (hrest _ hc).2.2 rfl
        | cons d text =>
          have hd := hdigits d (by simp)
          intro hc
          have hge := digval_x (hc.imp Option.some.inj Option.some.inj)
          omega
      have hmag : magnitude 8 0 (ebcdic '0' :: text) = magnitude 8 0 text := rfl
      have htail : ∀ c ∈ text, digval c.toNat < 8 := fun c hc => hdigits c (List.mem_cons_of_mem _ hc)
      rw [hmag] at hv ⊢
      rw [List.cons_append, number, if_neg hzero, if_pos rfl, if_neg hcode,
        numberLoop_spec (.inl rfl) _ _ _ (Nat.zero_le _),
        run_append htail hrest (by omega), if_pos (by omega), List.drop_left]
      rfl
  | decimal h hhead hn =>
    obtain ⟨hne, hdigits, -⟩ := (numeral_iff (by omega)).mp hn
    cases text with
    | nil => exact absurd rfl hne
    | cons c text =>
      have hc : c ≠ ebcdic '0' := fun heq => hhead (congrArg some heq)
      have hloop := number_loop (.inr (.inl rfl)) hn hv hrest false
      rw [List.cons_append] at hloop ⊢
      rw [number, if_neg (first_digit.mpr (hdigits c (List.mem_cons_self ..))), if_neg hc, hloop]
      rfl

/-- The loop has taken digits, which are a number when there are any. -/
theorem numberLoop_some {base : Nat} (hbase : base = 8 ∨ base = 10 ∨ base = 16) {s rest : Bytes} {v : Nat}
    {any any' : Bool}
    (h : numberLoop base 0 any s = some (v, any', rest)) :
    ∃ text, s = text ++ rest ∧ (∀ c ∈ text, digval c.toNat < base) ∧ v = magnitude base 0 text ∧ v < 2 ^ 32 ∧
      any' = (any || !text.isEmpty) := by
  rw [numberLoop_spec hbase _ _ _ (Nat.zero_le _)] at h
  split_ifs at h with hle
  simp only [Option.some.injEq, Prod.mk.injEq] at h
  obtain ⟨rfl, rfl, rfl⟩ := h
  exact ⟨Strto.run base s, (List.prefix_iff_eq_append.mp (Strto.run_prefix base s)).symm,
    fun c hc => Strto.mem_run hc, rfl,
    by omega, rfl⟩

theorem numbered_some {x : Option (Nat × Bool × Bytes)} {v : Nat} {rest : Bytes} (h : numbered x = some (v, rest)) :
    x = some (v, true, rest) := by
  rcases x with - | ⟨v', any, rest'⟩
  · cases h
  · cases any with
    | false => cases h
    | true =>
      obtain ⟨rfl, rfl⟩ := Prod.mk.inj (Option.some.inj h)
      rfl

/-- What is taken is a part. -/
theorem number_some {s rest : Bytes} {v : Nat} (h : number s = some (v, rest)) :
    ∃ text, s = text ++ rest ∧ Subject 0 text v ∧ v < 2 ^ 32 := by
  cases s with
  | nil => cases h
  | cons c s =>
    rw [number] at h
    split_ifs at h with hout hzero hx
    · subst hzero
      obtain ⟨text, htext, hdigits, hv, hlt, hany⟩ := numberLoop_some (.inr (.inr rfl)) (numbered_some h)
      cases s with
      | nil => simp at hx
      | cons x s =>
        have hne : text ≠ [] := by
          rintro rfl
          cases hany
        have hnum := (numeral_iff (by omega)).mpr ⟨hne, hdigits, hv⟩
        refine ⟨ebcdic '0' :: x :: text, ?_, .hex (.inl rfl) (hx.imp Option.some.inj Option.some.inj) hnum, hlt⟩
        rw [List.tail_cons] at htext
        rw [htext]
        rfl
    · subst hzero
      obtain ⟨text, htext, hdigits, hv, hlt, -⟩ := numberLoop_some (.inl rfl) (numbered_some h)
      have hall : ∀ c ∈ ebcdic '0' :: text, digval c.toNat < 8 := List.forall_mem_cons.mpr ⟨by decide, hdigits⟩
      have hnum := (numeral_iff (by omega)).mpr ⟨List.cons_ne_nil _ _, hall, hv⟩
      exact ⟨ebcdic '0' :: text, by rw [htext]; rfl, .octal rfl rfl hnum, hlt⟩
    · obtain ⟨text, htext, hdigits, hv, hlt, hany⟩ := numberLoop_some (.inr (.inl rfl)) (numbered_some h)
      cases text with
      | nil => cases hany
      | cons d text =>
        have hnum := (numeral_iff (by omega)).mpr ⟨List.cons_ne_nil d text, hdigits, hv⟩
        refine ⟨d :: text, htext, .decimal rfl ?_ hnum, hlt⟩
        rw [List.cons_append, List.cons.injEq] at htext
        rw [← htext.1]
        exact fun heq => hzero (Option.some.inj heq)

/-! ### The parts -/

theorem Parts.length {n : Nat} {text : Bytes} {part : List Nat} (h : Parts n text part) :
    1 ≤ part.length ∧ part.length ≤ n + 1 := by
  induction h with
  | one => exact ⟨le_rfl, Nat.le_add_left _ _⟩
  | more _ _ ih =>
    rw [List.length_cons]
    omega

theorem halts_point (s : Bytes) : Halts (ebcdic '.' :: s) := by
  intro c hc
  obtain rfl : ebcdic '.' = c := Option.some.inj hc
  decide

theorem atEnd_cases {s : Bytes} (h : atEnd s = true) : Halts s ∧ s.head? ≠ some (ebcdic '.') := by
  cases s with
  | nil => exact ⟨fun c hc => (by cases hc), by simp⟩
  | cons c s =>
    have hc : c = ebcdic ' ' ∨ c = tab ∨ c = ebcdic '\n' := by simpa [atEnd, or_assoc] using h
    constructor
    · intro d hd
      obtain rfl : c = d := Option.some.inj hd
      rcases hc with rfl | rfl | rfl <;> decide
    · intro hpoint
      have heq := Option.some.inj hpoint
      rcases hc with rfl | rfl | rfl <;> exact absurd heq (by decide)

/-- Parts in front of an end are taken. -/
theorem partsLoop_parts {n : Nat} {text rest : Bytes} {part : List Nat} (h : Parts n text part)
    (hlt : ∀ v ∈ part, v < 2 ^ 32)
    (hrest : atEnd rest = true) : partsLoop n (text ++ rest) = some (part, rest) := by
  induction h with
  | @one n v text h =>
    obtain ⟨hhalts, hpoint⟩ := atEnd_cases hrest
    rw [partsLoop, number_subject h (hlt v (List.mem_singleton_self v)) hhalts]
    simp only [Option.bind_eq_bind, Option.bind_some]
    rw [if_pos hpoint]
  | @more n v text s part h _ ih =>
    have hv := hlt v (List.mem_cons_self ..)
    have htext : text ++ ebcdic '.' :: s ++ rest = text ++ ebcdic '.' :: (s ++ rest) := by simp
    rw [htext, partsLoop, number_subject h hv (halts_point _)]
    simp only [Option.bind_eq_bind, Option.bind_some]
    rw [if_neg (by simp), List.tail_cons, ih fun w hw => hlt w (List.mem_cons_of_mem _ hw)]
    rfl

/-- What is taken are parts. -/
theorem partsLoop_some {n : Nat} {s rest : Bytes} {part : List Nat} (h : partsLoop n s = some (part, rest)) :
    ∃ text, s = text ++ rest ∧ Parts n text part := by
  induction n generalizing s part with
  | zero =>
    rw [partsLoop] at h
    cases hnum : number s with
    | none => rw [hnum] at h; cases h
    | some r =>
      obtain ⟨v, s'⟩ := r
      obtain ⟨text, htext, hsub, -⟩ := number_some hnum
      rw [hnum] at h
      simp only [Option.bind_eq_bind, Option.bind_some] at h
      split_ifs at h with hpoint
      obtain ⟨rfl, rfl⟩ := Prod.mk.inj (Option.some.inj h)
      exact ⟨text, htext, .one hsub⟩
  | succ n ih =>
    rw [partsLoop] at h
    cases hnum : number s with
    | none => rw [hnum] at h; cases h
    | some r =>
      obtain ⟨v, s'⟩ := r
      obtain ⟨text, htext, hsub, -⟩ := number_some hnum
      rw [hnum] at h
      simp only [Option.bind_eq_bind, Option.bind_some] at h
      split_ifs at h with hpoint
      · obtain ⟨rfl, rfl⟩ := Prod.mk.inj (Option.some.inj h)
        exact ⟨text, htext, .one hsub⟩
      · cases hparts : partsLoop n s'.tail with
        | none => rw [hparts] at h; cases h
        | some q =>
          obtain ⟨part', rest'⟩ := q
          rw [hparts] at h
          obtain ⟨rfl, rfl⟩ := Prod.mk.inj (Option.some.inj h)
          obtain ⟨text', htext', hrest⟩ := ih hparts
          refine ⟨text ++ ebcdic '.' :: text', ?_, .more hsub hrest⟩
          rw [htext, List.append_assoc, List.cons_append, ← htext']
          congr 1
          exact List.eq_cons_of_mem_head? (by simpa using hpoint)

/-! ### The address -/

/-- A number with bits above others is their sum. -/
theorem or_shift {x k : Nat} (hx : x < 2 ^ k) (y : Nat) : x ||| y <<< k = x + y * 2 ^ k := by
  rw [Nat.or_comm, ← Nat.shiftLeft_add_eq_or_of_lt hx, Nat.shiftLeft_eq, Nat.add_comm]

theorem two_parts {x y : Nat} (hx : x < 2 ^ 8) (hy : y < 2 ^ 24) :
    y ||| x <<< 24 = x * 2 ^ 24 + y ∧ x * 2 ^ 24 + y < 2 ^ 32 :=
  ⟨by rw [or_shift hy, Nat.add_comm], by omega⟩

theorem three_parts {x y z : Nat} (hx : x < 2 ^ 8) (hy : y < 2 ^ 8) (hz : z < 2 ^ 16) :
    z ||| x <<< 24 ||| y <<< 16 = x * 2 ^ 24 + (y * 2 ^ 16 + z) ∧ x * 2 ^ 24 + (y * 2 ^ 16 + z) < 2 ^ 32 := by
  have hlow : y * 2 ^ 16 + z < 2 ^ 24 := by omega
  obtain ⟨htop, hlt⟩ := two_parts hx hlow
  refine ⟨?_, hlt⟩
  rw [← htop, Nat.or_right_comm, or_shift hz, Nat.add_comm z]

theorem four_parts {x y z w : Nat} (hx : x < 2 ^ 8) (hy : y < 2 ^ 8) (hz : z < 2 ^ 8) (hw : w < 2 ^ 8) :
    w ||| x <<< 24 ||| y <<< 16 ||| z <<< 8 = x * 2 ^ 24 + (y * 2 ^ 16 + (z * 2 ^ 8 + w)) ∧
      x * 2 ^ 24 + (y * 2 ^ 16 + (z * 2 ^ 8 + w)) < 2 ^ 32 := by
  have hlow : z * 2 ^ 8 + w < 2 ^ 16 := by omega
  obtain ⟨htop, hlt⟩ := three_parts hx hy hlow
  refine ⟨?_, hlt⟩
  rw [← htop, Nat.or_right_comm, Nat.or_right_comm w, or_shift hw, Nat.add_comm w]

/-- The address the loop puts together has the parts' value. -/
theorem orParts_value {part : List Nat} (hlength : 1 ≤ part.length ∧ part.length ≤ 4) (h : InRange part) :
    orParts 0 part (part.getLastD 0) = valueFrom 0 part ∧ valueFrom 0 part < 2 ^ 32 := by
  obtain ⟨hbytes, hlast⟩ := h
  match part, hlength with
  | [], hlength => exact absurd hlength.1 (by decide)
  | [x], _ => exact ⟨rfl, hlast⟩
  | [x, y], _ => exact two_parts (hbytes x (by simp)) hlast
  | [x, y, z], _ => exact three_parts (hbytes x (by simp)) (hbytes y (by simp)) hlast
  | [x, y, z, w], _ => exact four_parts (hbytes x (by simp)) (hbytes y (by simp)) (hbytes z (by simp)) hlast
  | _ :: _ :: _ :: _ :: _ :: _, hlength => exact absurd hlength.2 (by simp)

/-- The tests of `inet_aton()` on the parts. -/
theorem inRange_iff {part : List Nat} (hlength : 1 ≤ part.length ∧ part.length ≤ 4) :
    InRange part ↔ part.dropLast.any (0xFF < ·) = false ∧ ¬ last.getD (part.length - 1) 0 < part.getLastD 0 := by
  have hlimit : ∀ n < 4, last.getD n 0 + 1 = 2 ^ (8 * (4 - n)) := by decide
  have hn := hlimit (part.length - 1) (by omega)
  have hsub : 4 - (part.length - 1) = 5 - part.length := by omega
  rw [hsub] at hn
  constructor
  · rintro ⟨hbytes, hlast⟩
    refine ⟨List.any_eq_false.mpr fun v hv => ?_, by omega⟩
    have hlt := hbytes v hv
    simp only [decide_eq_true_eq]
    omega
  · rintro ⟨hbytes, hlast⟩
    refine ⟨fun v hv => ?_, by omega⟩
    have hlt := List.any_eq_false.mp hbytes v hv
    simp only [decide_eq_true_eq] at hlt
    omega

theorem InRange.lt {part : List Nat} (h : InRange part) : ∀ v ∈ part, v < 2 ^ 32 := by
  intro v hv
  rcases List.eq_nil_or_concat part with rfl | ⟨front, x, rfl⟩
  · cases hv
  · obtain ⟨hbytes, hlast⟩ := h
    rw [List.concat_eq_append] at *
    rw [List.dropLast_concat] at hbytes
    rw [List.getLastD_concat] at hlast
    rcases List.mem_append.mp hv with hv | hv
    · have hlt := hbytes v hv
      omega
    · rw [List.mem_singleton.mp hv]
      refine hlast.trans_le (Nat.pow_le_pow_right (by decide) ?_)
      rw [List.length_append, List.length_singleton]
      omega

/-- **`inet_aton()` takes the addresses**, with their value, and nothing else. -/
theorem aton_spec (s : Bytes) (inp : Option (BitVec 32)) :
    (∀ a, Address s a → inetAton (some s) inp = (1, inp.map fun _ => a)) ∧
      ((∀ a, ¬ Address s a) → inetAton (some s) inp = (0, inp)) := by
  constructor
  · rintro a ⟨text, rest, rfl, ⟨part, hparts, hrange, rfl⟩, hend⟩
    obtain ⟨hbytes, hlast⟩ := (inRange_iff hparts.length).mp hrange
    have hloop : (some (text ++ rest)).bind (partsLoop 3) = some (part, rest) := partsLoop_parts hparts hrange.lt hend
    rw [inetAton, hloop]
    dsimp only
    rw [if_neg (by simp [hend]), hbytes, if_neg Bool.false_ne_true, if_neg hlast,
      (orParts_value hparts.length hrange).1]
  · intro hno
    rw [inetAton]
    cases hloop : partsLoop 3 s with
    | none =>
      rw [Option.bind_some, hloop]
    | some r =>
      obtain ⟨part, rest⟩ := r
      obtain ⟨text, rfl, hparts⟩ := partsLoop_some hloop
      rw [Option.bind_some, hloop]
      dsimp only
      by_cases hend : atEnd rest = true
      · by_cases hbytes : part.dropLast.any (0xFF < ·) = true
        · rw [if_neg (by simp [hend]), if_pos hbytes]
        · by_cases hlast : last.getD (part.length - 1) 0 < part.getLastD 0
          · rw [if_neg (by simp [hend]), if_neg hbytes, if_pos hlast]
          · have hrange := (inRange_iff hparts.length).mpr ⟨Bool.eq_false_iff.mpr hbytes, hlast⟩
            exact absurd ⟨text, rest, rfl, ⟨part, hparts, hrange, rfl⟩, hend⟩ (hno _)
      · rw [if_pos (by simp [hend])]

/-! ### The strict form -/

theorem digit_range {c : UInt8} : (ebcdic '0' ≤ c ∧ c ≤ ebcdic '9') ↔ digval c.toNat < 10 := by
  rw [← first_digit]
  rw [not_or, UInt8.not_lt, UInt8.not_lt]

theorem digit_value {c : UInt8} (h : digval c.toNat < 10) : c.toNat - (ebcdic '0').toNat = digval c.toNat := by
  have hc := digval_cases c
  have h₀ : (ebcdic '0').toNat = 0xF0 := rfl
  omega

/-- The digits of a part: behind a leading zero there is none. -/
theorem octetLoop_some {s rest : Bytes} {v len v' len' : Nat} (h : octetLoop v len s = some (v', len', rest))
    (hv : v ≤ 255) :
    ∃ text, s = text ++ rest ∧ (∀ c ∈ text, digval c.toNat < 10) ∧ v' = magnitude 10 v text ∧
      len' = len + text.length ∧ v' ≤ 255 ∧
      (len ≠ 0 ∧ v = 0 → text = []) := by
  induction s generalizing v len with
  | nil =>
    obtain ⟨rfl, hrest⟩ := Prod.mk.inj (Option.some.inj h)
    obtain ⟨rfl, rfl⟩ := Prod.mk.inj hrest
    exact ⟨[], rfl, fun c hc => absurd hc List.not_mem_nil, rfl, rfl, hv, fun _ => rfl⟩
  | cons c s ih =>
    rw [octetLoop] at h
    by_cases hdigit : ebcdic '0' ≤ c ∧ c ≤ ebcdic '9'
    · have hd := digit_range.mp hdigit
      rw [if_pos hdigit] at h
      by_cases hzero : len ≠ 0 ∧ v = 0
      · rw [if_pos hzero] at h
        cases h
      · rw [if_neg hzero, digit_value hd] at h
        dsimp only at h
        by_cases hpast : 255 < v * 10 + digval c.toNat
        · rw [if_pos hpast] at h
          cases h
        · rw [if_neg hpast] at h
          obtain ⟨text, rfl, hdigits, rfl, rfl, hle, -⟩ := ih h (by omega)
          refine ⟨c :: text, rfl, List.forall_mem_cons.mpr ⟨hd, hdigits⟩, rfl, ?_, hle, fun hlead => absurd hlead hzero⟩
          rw [List.length_cons]
          omega
    · rw [if_neg hdigit] at h
      obtain ⟨rfl, hrest⟩ := Prod.mk.inj (Option.some.inj h)
      obtain ⟨rfl, rfl⟩ := Prod.mk.inj hrest
      exact ⟨[], rfl, fun c hc => absurd hc List.not_mem_nil, rfl, rfl, hv, fun _ => rfl⟩

theorem octetLoop_zero {s rest : Bytes} {v len : Nat} (h : octetLoop 0 1 s = some (v, len, rest)) :
    v = 0 ∧ s = rest := by
  obtain ⟨text, rfl, -, rfl, -, -, hnone⟩ := octetLoop_some h (by decide)
  obtain rfl := hnone ⟨by decide, rfl⟩
  exact ⟨rfl, rfl⟩

/-- A part of the strict form is one of the others, and a byte. -/
theorem octet_some {s rest : Bytes} {v : Nat} (h : octet s = some (v, rest)) : ∃ text,
    s = text ++ rest ∧ Subject 0 text v ∧ v < 2 ^ 8 := by
  rw [octet] at h
  cases hloop : octetLoop 0 0 s with
  | none => rw [hloop] at h; cases h
  | some r =>
    obtain ⟨v', len, rest'⟩ := r
    rw [hloop] at h
    simp only [Option.bind_eq_bind, Option.bind_some] at h
    split_ifs at h with hlen
    obtain ⟨rfl, rfl⟩ := Prod.mk.inj (Option.some.inj h)
    obtain ⟨text, rfl, hdigits, hv, hlength, hle, -⟩ := octetLoop_some hloop (by decide)
    cases text with
    | nil => exact absurd hlength (by simpa using hlen)
    | cons c text =>
      by_cases hzero : c = ebcdic '0'
      · -- the zero alone, which reads as an octal one
        subst hzero
        have hnext : octetLoop 0 1 (text ++ rest') = some (v', len, rest') := hloop
        obtain ⟨rfl, htext⟩ := octetLoop_zero hnext
        have hnil : text = [] := by
          have hlen := congrArg List.length htext
          rw [List.length_append] at hlen
          exact List.length_eq_zero_iff.mp (by omega)
        subst hnil
        have hdigit : ∀ c ∈ [ebcdic '0'], digval c.toNat < 8 := by
          intro c hc
          rw [List.mem_singleton.mp hc]
          decide
        have hnum : Numeral 8 [ebcdic '0'] 0 := (numeral_iff (by omega)).mpr ⟨List.cons_ne_nil _ _, hdigit, rfl⟩
        exact ⟨[ebcdic '0'], rfl, .octal rfl rfl hnum, Nat.two_pow_pos 8⟩
      · have hnum := (numeral_iff (by omega)).mpr ⟨List.cons_ne_nil c text, hdigits, hv⟩
        exact ⟨c :: text, rfl, .decimal rfl (fun heq => hzero (Option.some.inj heq)) hnum, by omega⟩

/-- The address so far, with one byte more. -/
def shiftIn (addr : BitVec 32) (v : Nat) : BitVec 32 := addr <<< 8 ||| BitVec.ofNat 32 v

theorem octets_some {n v : Nat} {src s : Bytes} {addr a : BitVec 32} (hfirst : octet src = some (v, s))
    (h : octets n addr s = some (a, [])) :
    ∃ part, part.length = n ∧ Parts n src (v :: part) ∧ (∀ w ∈ v :: part, w < 2 ^ 8) ∧ a = part.foldl shiftIn addr := by
  obtain ⟨text, rfl, hsub, hlt⟩ := octet_some hfirst
  induction n generalizing v s addr text with
  | zero =>
    obtain ⟨rfl, rfl⟩ := Prod.mk.inj (Option.some.inj h)
    rw [List.append_nil]
    exact ⟨[], rfl, .one hsub, by simpa using hlt, rfl⟩
  | succ n ih =>
    rw [octets] at h
    split_ifs at h with hpoint
    rw [ne_eq, not_not] at hpoint
    cases hnext : octet s.tail with
    | none => rw [hnext] at h; cases h
    | some r =>
      obtain ⟨v', s'⟩ := r
      rw [hnext] at h
      obtain ⟨text', htail, hsub', hlt'⟩ := octet_some hnext
      rw [htail] at hnext
      obtain ⟨part, hlength, hparts, hbytes, rfl⟩ := ih h text' hnext hsub' hlt'
      have hs : s = ebcdic '.' :: s.tail := List.eq_cons_of_mem_head? (by simpa using hpoint)
      refine ⟨v' :: part, by rw [List.length_cons, hlength], ?_, List.forall_mem_cons.mpr ⟨hlt, hbytes⟩, rfl⟩
      rw [hs, htail]
      exact .more hsub hparts

theorem shiftIn_toNat {addr : BitVec 32} {v : Nat} (hv : v < 2 ^ 8) (haddr : addr.toNat < 2 ^ 24) :
    (shiftIn addr v).toNat = addr.toNat * 2 ^ 8 + v := by
  have hlow : v < 2 ^ 32 := by omega
  have hhigh : addr.toNat <<< 8 < 2 ^ 32 := by
    rw [Nat.shiftLeft_eq]
    omega
  rw [shiftIn, BitVec.toNat_or, BitVec.toNat_shiftLeft, BitVec.toNat_ofNat, Nat.mod_eq_of_lt hlow,
    Nat.mod_eq_of_lt hhigh,
    Nat.or_comm, or_shift hv, Nat.add_comm]

theorem four_bytes {x y z w : Nat} (hx : x < 2 ^ 8) (hy : y < 2 ^ 8) (hz : z < 2 ^ 8) (hw : w < 2 ^ 8) :
    ([x, y, z, w].foldl shiftIn 0).toNat = x * 2 ^ 24 + (y * 2 ^ 16 + (z * 2 ^ 8 + w)) := by
  have hzero : (0 : BitVec 32).toNat = 0 := rfl
  have h₁ : (shiftIn 0 x).toNat = x := by rw [shiftIn_toNat hx (by rw [hzero]; exact Nat.two_pow_pos 24), hzero,
      Nat.zero_mul, Nat.zero_add]
  have h₂ : (shiftIn (shiftIn 0 x) y).toNat = x * 2 ^ 8 + y := by rw [shiftIn_toNat hy (by omega), h₁]
  have h₃ : (shiftIn (shiftIn (shiftIn 0 x) y) z).toNat =
      (x * 2 ^ 8 + y) * 2 ^ 8 + z := by rw [shiftIn_toNat hz (by omega), h₂]
  have h₄ := @shiftIn_toNat (shiftIn (shiftIn (shiftIn 0 x) y) z) w hw (by omega)
  rw [List.foldl_cons, List.foldl_cons, List.foldl_cons, List.foldl_cons, List.foldl_nil, h₄, h₃]
  omega

/-- **What `inet_pton()` takes is an address**, the one it stores. -/
theorem pton_address {af : Int} {s : Bytes} {dst a : BitVec 32} {e : Option Errno} (h : inetPton af s dst = (1, a, e)) :
    Address s a := by
  by_cases haf : af = AF_INET
  swap
  · rw [inetPton, if_pos haf] at h
    cases h
  rw [inetPton, if_neg (not_not.mpr haf)] at h
  cases hfirst : octet s with
  | none => rw [hfirst] at h; cases h
  | some r =>
    obtain ⟨v, s'⟩ := r
    rw [hfirst, Option.bind_some] at h
    dsimp only at h
    cases hrest : octets 3 (0 <<< 8 ||| BitVec.ofNat 32 v) s' with
    | none => rw [hrest] at h; cases h
    | some q =>
      obtain ⟨addr, tail⟩ := q
      rw [hrest] at h
      cases tail with
      | cons c tail => cases h
      | nil =>
        simp only [Prod.mk.injEq, true_and] at h
        obtain ⟨rfl, -⟩ := h
        obtain ⟨part, hlength, hparts, hbytes, haddr⟩ := octets_some hfirst hrest
        match part, hlength with
        | [y, z, w], _ =>
          have hx := hbytes v (by simp)
          have hy := hbytes y (by simp)
          have hz := hbytes z (by simp)
          have hw := hbytes w (by simp)
          have hrange : InRange [v, y, z, w] := ⟨fun u hu => hbytes u (List.dropLast_subset _ hu), hw⟩
          refine ⟨s, [], (List.append_nil s).symm, ⟨[v, y, z, w], hparts, hrange, ?_⟩, rfl⟩
          have hvalue := four_bytes hx hy hz hw
          have hfold : addr = [v, y, z, w].foldl shiftIn 0 := haddr
          refine BitVec.eq_of_toNat_eq ?_
          rw [hfold, hvalue, BitVec.toNat_ofNat]
          exact (Nat.mod_eq_of_lt (orParts_value hparts.length hrange).2).symm

/-! ### The round trip -/

/-- The loop stops at what is no digit. -/
theorem octetLoop_append {text rest : Bytes} {v len v' len' : Nat} (h : octetLoop v len text = some (v', len', []))
    (hrest : ∀ c ∈ rest.head?, 10 ≤ digval c.toNat) : octetLoop v len (text ++ rest) = some (v', len', rest) := by
  induction text generalizing v len with
  | nil =>
    obtain ⟨rfl, hlen⟩ := Prod.mk.inj (Option.some.inj h)
    obtain ⟨rfl, -⟩ := Prod.mk.inj hlen
    cases rest with
    | nil => rfl
    | cons c rest =>
      have hc := hrest c rfl
      rw [List.nil_append, octetLoop, if_neg fun hdigit => absurd (digit_range.mp hdigit) (by omega)]
  | cons c text ih =>
    rw [octetLoop] at h
    rw [List.cons_append, octetLoop]
    by_cases hdigit : ebcdic '0' ≤ c ∧ c ≤ ebcdic '9'
    · rw [if_pos hdigit] at h ⊢
      by_cases hzero : len ≠ 0 ∧ v = 0
      · rw [if_pos hzero] at h
        cases h
      · rw [if_neg hzero] at h ⊢
        dsimp only at h ⊢
        by_cases hpast : 255 < v * 10 + (c.toNat - (ebcdic '0').toNat)
        · rw [if_pos hpast] at h
          cases h
        · rw [if_neg hpast] at h ⊢
          exact ih h
    · rw [if_neg hdigit] at h
      cases h

/-- The digits of a byte read back. -/
theorem octetText_loop : ∀ b : Fin 256,
    octetLoop 0 0 (octetText b) = some (b.val, (octetText b).length, []) ∧ (octetText b).length ≠ 0 ∧
      (octetText b).length ≤ 3 := by
  decide +kernel

theorem octet_octetText {b : Nat} (hb : b < 2 ^ 8) {rest : Bytes} (hrest : ∀ c ∈ rest.head?, 10 ≤ digval c.toNat) :
    octet (octetText b ++ rest) = some (b, rest) := by
  obtain ⟨hloop, hne, -⟩ := octetText_loop ⟨b, hb⟩
  rw [octet, octetLoop_append hloop hrest]
  simp only [Option.bind_eq_bind, Option.bind_some]
  rw [if_neg hne]

theorem point_halts (s : Bytes) : ∀ c ∈ (ebcdic '.' :: s).head?, 10 ≤ digval c.toNat := by
  intro c hc
  obtain rfl : ebcdic '.' = c := Option.some.inj hc
  decide

theorem octets_point (n : Nat) (addr : BitVec 32) {b : Nat} (hb : b < 2 ^ 8) {rest : Bytes}
    (hrest : ∀ c ∈ rest.head?, 10 ≤ digval c.toNat) :
    octets (n + 1) addr (ebcdic '.' :: (octetText b ++ rest)) = octets n (shiftIn addr b) rest := by
  rw [octets, if_neg (by simp), List.tail_cons, octet_octetText hb hrest]
  rfl

/-- Byte `i` of an address, from the right. -/
def byteOf (a : BitVec 32) (i : Nat) : Nat := (a >>> (8 * i) &&& 0xFF#32).toNat

theorem byteOf_eq (a : BitVec 32) (i : Nat) : byteOf a i = a.toNat / 2 ^ (8 * i) % 2 ^ 8 := by
  have hmask : (0xFF#32).toNat = 2 ^ 8 - 1 := rfl
  rw [byteOf, BitVec.toNat_and, BitVec.toNat_ushiftRight, hmask, Nat.and_two_pow_sub_one_eq_mod,
    Nat.shiftRight_eq_div_pow]

theorem byteOf_lt (a : BitVec 32) (i : Nat) : byteOf a i < 2 ^ 8 := by
  rw [byteOf_eq]
  exact Nat.mod_lt _ (Nat.two_pow_pos 8)

/-- The text of an address without its NUL. -/
def dotted (a : BitVec 32) : Bytes :=
  octetText (byteOf a 3) ++ ebcdic '.' :: (octetText (byteOf a 2) ++ ebcdic '.' ::
    (octetText (byteOf a 1) ++ ebcdic '.' ::
    (octetText (byteOf a 0) ++ [])))

theorem ntopText_eq (a : BitVec 32) : ntopText a = dotted a ++ [0] := by
  simp [ntopText, dotted, byteOf]

theorem ntopText_length (a : BitVec 32) : (ntopText a).length ≤ INET_ADDRSTRLEN := by
  have h (i : Nat) : (octetText (byteOf a i)).length ≤ 3 := (octetText_loop ⟨byteOf a i, byteOf_lt a i⟩).2.2
  have h₃ := h 3
  have h₂ := h 2
  have h₁ := h 1
  have h₀ := h 0
  rw [ntopText_eq, INET_ADDRSTRLEN]
  simp only [dotted, List.length_append, List.length_cons, List.length_nil]
  omega

theorem octetText_ne_nul : ∀ b : Fin 256, 0 ∉ octetText b := by decide +kernel

theorem dotted_ne_nul (a : BitVec 32) : 0 ∉ dotted a := by
  have h (i : Nat) : 0 ∉ octetText (byteOf a i) := octetText_ne_nul ⟨byteOf a i, byteOf_lt a i⟩
  have hpoint : (0 : UInt8) ≠ ebcdic '.' := by decide
  simp only [dotted, List.mem_append, List.mem_cons, not_or]
  exact ⟨h 3, hpoint, h 2, hpoint, h 1, hpoint, h 0, List.not_mem_nil⟩

/-- The bytes of an address, put together. -/
theorem shiftIn_bytes (a : BitVec 32) : [byteOf a 3, byteOf a 2, byteOf a 1, byteOf a 0].foldl shiftIn 0 = a := by
  refine BitVec.eq_of_toNat_eq ?_
  have hlt := a.isLt
  rw [four_bytes (byteOf_lt a 3) (byteOf_lt a 2) (byteOf_lt a 1) (byteOf_lt a 0)]
  simp only [byteOf_eq]
  omega

/-- **`inet_pton()` reads what `inet_ntop()` writes.** -/
theorem pton_dotted (a dst : BitVec 32) : inetPton AF_INET (dotted a) dst = (1, a, none) := by
  have hnone : ∀ c ∈ ([] : Bytes).head?, 10 ≤ digval c.toNat := fun c hc => absurd hc (by simp)
  have hfirst := octet_octetText (byteOf_lt a 3) (point_halts (octetText (byteOf a 2) ++ ebcdic '.' ::
    (octetText (byteOf a 1) ++ ebcdic '.' :: (octetText (byteOf a 0) ++ []))))
  rw [inetPton, if_neg (not_not.mpr rfl), dotted, hfirst, Option.bind_some]
  dsimp only
  rw [octets_point 2 _ (byteOf_lt a 2) (point_halts _), octets_point 1 _ (byteOf_lt a 1) (point_halts _),
    octets_point 0 _ (byteOf_lt a 0) hnone, octets]
  exact congrArg (fun addr => ((1, addr, none) : Int × BitVec 32 × Option Errno)) (shiftIn_bytes a)

/-! ### The three functions -/

/-- **`inet_aton()` takes an address and what stands behind a blank, a tab or a new line**, with the
value of the address; `inet_pton()` takes no more, with the same address, and reads back what
`inet_ntop()` writes. -/
theorem inet_addresses :
    (∀ (s : Bytes) (inp : Option (BitVec 32)),
      (∀ a, Address s a → inetAton (some s) inp = (1, inp.map fun _ => a)) ∧
        ((∀ a, ¬ Address s a) → inetAton (some s) inp = (0, inp))) ∧
      (∀ (af : Int) (s : Bytes) (dst a : BitVec 32) (e : Option Errno), inetPton af s dst = (1, a, e) →
        ∀ inp, inetAton (some s) inp = (1, inp.map fun _ => a)) ∧
      ∀ (a dst : BitVec 32) (size : Nat), INET_ADDRSTRLEN ≤ size →
        ∃ text, inetNtop AF_INET a size = .ok (text ++ [0]) ∧ 0 ∉ text ∧ inetPton AF_INET text dst = (1, a, none) := by
  refine ⟨aton_spec, fun af s dst a e h inp => (aton_spec s inp).1 a (pton_address h), fun a dst size hsize => ?_⟩
  refine ⟨dotted a, ?_, dotted_ne_nul a, pton_dotted a dst⟩
  have hlength := ntopText_length a
  rw [inetNtop, if_neg (not_not.mpr rfl), if_neg (by omega), ntopText_eq]

/-- A loopback address. -/
def loopback : Bytes := "127.0.0.1".toList.map ebcdic

theorem inet_addresses_loopback :
    inetAton (some loopback) (some 0) = (1, some 0x7F000001) ∧
      ∃ text, inetNtop AF_INET 0x7F000001 16 = .ok (text ++ [0]) ∧ 0 ∉ text ∧
        inetPton AF_INET text 0 = (1, 0x7F000001, none) := by
  have hpton : inetPton AF_INET loopback 0 = (1, 0x7F000001, none) := by decide +kernel
  exact ⟨inet_addresses.2.1 AF_INET loopback 0 0x7F000001 none hpton (some 0),
    inet_addresses.2.2 0x7F000001 0 16 le_rfl⟩

/-- An address with a word behind it, which is no address by itself. -/
def addressAndWord : Bytes := "1.2.3.4 x".toList.map ebcdic

theorem word_behind_address :
    inetAton (some addressAndWord) (some 0) = (1, some 0x01020304) ∧ ∀ a, ¬ Writes addressAndWord a := by
  refine ⟨by decide +kernel, ?_⟩
  rintro a ⟨part, hparts, hrange, -⟩
  have hloop := partsLoop_parts hparts hrange.lt (show atEnd [] = true from rfl)
  have hleft : partsLoop 3 addressAndWord = some ([1, 2, 3, 4], " x".toList.map ebcdic) := by decide +kernel
  rw [List.append_nil, hleft] at hloop
  cases hloop
end Libc370.Inet
