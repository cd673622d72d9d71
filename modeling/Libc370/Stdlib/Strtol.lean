import Libc370.Ctype

/-! The `strto*` conversions.

Four copies of one text, which differ in the type they return: `strtol()` and
`strtoll()` are signed, `strtoul()` and `strtoull()` are not. A string is the bytes up
to its NUL, a pointer into it the part that it faces.

`converts_longest`: each of them consumes the longest prefix of the string that has the
form of an integer in the base, and gives its value, or the limit it passes. -/
namespace Libc370.Strto

abbrev Bytes := List UInt8

/-! ### The code -/

inductive Errno | einval | erange
  deriving DecidableEq, Repr

/-- What a call comes to. `endptr` is the place stored, as the characters before it, `errno`
is `none` where the call leaves it. -/
structure Result where
  ret : Int
  endptr : Option Nat
  errno : Option Errno
  deriving DecidableEq, Repr

/-- The sign, and the base and the digits behind it. -/
structure Opened where
  neg : Bool
  base : Nat
  rest : Bytes

/-- The "0x" that is a prefix: a hex digit follows it. -/
def hexPrefix (s : Bytes) : Bool :=
  s.head? = some (ebcdic '0') && (s[1]? = some (ebcdic 'x') || s[1]? = some (ebcdic 'X')) &&
    (s[2]?.any fun c => digval c.toNat < 16)

/-- The base that the digits are read in, and their place behind the prefix. -/
def radix (s : Bytes) (base : Nat) : Nat × Bytes :=
  if (base = 0 ∨ base = 16) ∧ hexPrefix s then (16, s.drop 2)
  else if base = 0 then (if s.head? = some (ebcdic '0') then 8 else 10, s)
  else (base, s)

/-- Up to the first digit: white space, the sign, the prefix of the base. -/
def opened (nptr : Bytes) (base : Nat) : Opened :=
  let s := nptr.dropWhile fun c => isspace c.toNat
  let neg := s.head? = some (ebcdic '-')
  let s := if neg ∨ s.head? = some (ebcdic '+') then s.tail else s
  ⟨neg, (radix s base).1, (radix s base).2⟩

/-- The variables of the loop over the digits. -/
structure Digits where
  x : Nat
  any : Bool
  overflow : Bool

/-- The loop over the digits, in an unsigned type of `bits` bits. -/
def digitLoop (bits base cutoff cutlim : Nat) : Digits → Bytes → Digits × Bytes
  | a, [] => (a, [])
  | a, c :: s =>
    let d := digval c.toNat
    if base ≤ d then (a, c :: s)
    else if a.overflow then digitLoop bits base cutoff cutlim {a with any := true} s
    else if cutoff < a.x ∨ (a.x = cutoff ∧ cutlim < d) then
      digitLoop bits base cutoff cutlim {a with any := true, overflow := true} s
    else digitLoop bits base cutoff cutlim {a with any := true, x := (a.x * base + d) % 2 ^ bits} s

/-- What the four have in common; `limit` is the largest magnitude behind the sign, `past` the
value beyond it, `value` the value of a sign and a magnitude. -/
def convert (bits : Nat) (limit : Bool → Nat) (past : Bool → Int) (value : Bool → Nat → Int) (nptr : Bytes)
    (endptr : Bool) (base : Int) : Result :=
  if base < 0 ∨ base = 1 ∨ 36 < base then ⟨0, if endptr then some 0 else none, some .einval⟩
  else
    let o := opened nptr base.toNat
    let limit := limit o.neg
    let (a, s) := digitLoop bits o.base (limit / o.base) (limit % o.base) ⟨0, false, false⟩ o.rest
    let stored := if endptr then some (if a.any then nptr.length - s.length else 0) else none
    if a.overflow then ⟨past o.neg, stored, some .erange⟩ else ⟨value o.neg a.x, stored, none⟩

/-- A signed member: `-(long)x`, but for the most negative value. -/
def signed (bits : Nat) (max min : Int) : Bytes → Bool → Int → Result :=
  let limit := fun neg => if neg then max.toNat + 1 else max.toNat
  convert bits limit (fun neg => if neg then min else max) fun neg x =>
    if neg then (if x = limit neg then min else -(x : Int).bmod (2 ^ bits)) else (x : Int).bmod (2 ^ bits)

/-- An unsigned member: `-x` in the type. -/
def unsigned (bits : Nat) (max : Int) : Bytes → Bool → Int → Result :=
  convert bits (fun _ => max.toNat) (fun _ => max) fun neg x => if neg then (-x) % 2 ^ bits else x

/-- `strtol()`, between `LONG_MIN` and `LONG_MAX`. -/
def strtol : Bytes → Bool → Int → Result := signed 32 2147483647 (-2147483647 - 1)

/-- `strtoll()`, between `LLONG_MIN` and `LLONG_MAX`. -/
def strtoll : Bytes → Bool → Int → Result := signed 64 9223372036854775807 (-9223372036854775807 - 1)

/-- `strtoul()`, up to `ULONG_MAX`. -/
def strtoul : Bytes → Bool → Int → Result := unsigned 32 4294967295

/-- `strtoull()`, up to `ULLONG_MAX`. -/
def strtoull : Bytes → Bool → Int → Result := unsigned 64 18446744073709551615

/-! ### What is asked of them -/

/-- The digit of a value: a decimal digit, or a letter in either case. -/
def Figure (c : UInt8) (v : Nat) : Prop :=
  (literal "0123456789abcdefghijklmnopqrstuvwxyz")[v]? = some c ∨
    (literal "0123456789ABCDEFGHIJKLMNOPQRSTUVWXYZ")[v]? = some c

/-- Digits of a radix, and the number they write. -/
def Numeral (radix : Nat) (text : Bytes) (n : Nat) : Prop :=
  text ≠ [] ∧ ∃ vs, List.Forall₂ (fun c v => Figure c v ∧ v < radix) text vs ∧ n = Nat.ofDigits radix vs.reverse

/-- The expected form without a sign, and its value. In base 0 it is that of an integer constant. -/
inductive Subject (base : Nat) : Bytes → Nat → Prop
  | digits {text : Bytes} {n : Nat} (h : base ≠ 0) (hn : Numeral base text n) : Subject base text n
  | hex {text : Bytes} {n : Nat} {x : UInt8} (h : base = 0 ∨ base = 16) (hx : x = ebcdic 'x' ∨ x = ebcdic 'X')
      (hn : Numeral 16 text n) : Subject base (ebcdic '0' :: x :: text) n
  | octal {text : Bytes} {n : Nat} (h : base = 0) (hzero : text.head? = some (ebcdic '0')) (hn : Numeral 8 text n) :
      Subject base text n
  | decimal {text : Bytes} {n : Nat} (h : base = 0) (hzero : text.head? ≠ some (ebcdic '0')) (hn : Numeral 10 text n) :
      Subject base text n

/-- The sign of a number, which may be left out where it is positive. -/
def Sign (text : Bytes) (neg : Bool) : Prop :=
  text = [] ∧ neg = false ∨ text = [ebcdic '+'] ∧ neg = false ∨ text = [ebcdic '-'] ∧ neg = true

/-- White space, a sign and a number of the base. -/
def Denotes (base : Nat) (text : Bytes) (neg : Bool) (n : Nat) : Prop :=
  ∃ space sign subject, text = space ++ (sign ++ subject) ∧ (∀ c ∈ space, isspace c.toNat = true) ∧ Sign sign neg ∧
    Subject base subject n

/-- A prefix of the string that denotes a number, as long as any. -/
structure Longest (base : Nat) (s text : Bytes) (neg : Bool) (n : Nat) : Prop where
  within : text <+: s
  denotes : Denotes base text neg n
  longest : ∀ text' neg' n', text' <+: s → Denotes base text' neg' n' → text'.length ≤ text.length

/-- The value in a signed type, or the limit it passes. -/
def inSigned (max min : Int) (neg : Bool) (n : Nat) : Int × Option Errno :=
  let v : Int := if neg then -n else n
  if max < v then (max, some .erange) else if v < min then (min, some .erange) else (v, none)

/-- The value in an unsigned type, in which the sign negates, or the limit it passes. -/
def inUnsigned (bits : Nat) (max : Int) (neg : Bool) (n : Nat) : Int × Option Errno :=
  if max < n then (max, some .erange) else (if neg then (-n) % 2 ^ bits else n, none)

/-- A conversion as it is asked for, in the type that `fit` returns a value in. -/
structure Converts (fit : Bool → Nat → Int × Option Errno) (base : Nat) (s : Bytes) (endptr : Bool) (r : Result) :
    Prop where
  longest : ∀ text neg n, Longest base s text neg n →
    r = ⟨(fit neg n).1, if endptr then some text.length else none, (fit neg n).2⟩
  nothing : (∀ text neg n, text <+: s → ¬ Denotes base text neg n) → r = ⟨0, if endptr then some 0 else none, none⟩

/-! ### Digits -/

/-- The number that digits write, as the loop has it. -/
def magnitude (base : Nat) (x : Nat) (s : Bytes) : Nat := s.foldl (fun x c => x * base + digval c.toNat) x

/-- The digits that a string starts with. -/
def run (base : Nat) (s : Bytes) : Bytes := s.takeWhile fun c => digval c.toNat < base

theorem run_digit {base : Nat} {c : UInt8} (h : digval c.toNat < base) (s : Bytes) :
    run base (c :: s) = c :: run base s :=
  List.takeWhile_cons_of_pos (p := fun c : UInt8 => decide (digval c.toNat < base)) (decide_eq_true h)

theorem figure_values : ∀ v : Fin 36,
    ((literal "0123456789abcdefghijklmnopqrstuvwxyz")[v.val]?.map fun c =>
        (digval c.toNat, decide (c.toNat ≤ 0xA9 ∨ 0xF0 ≤ c.toNat))) = some (v.val, true) ∧
      ((literal "0123456789ABCDEFGHIJKLMNOPQRSTUVWXYZ")[v.val]?.map fun c =>
        (digval c.toNat, decide (0xC1 ≤ c.toNat))) = some (v.val, true) := by
  simp only [digval, digits_eq]
  decide +kernel

/-- The two figures of a value: a digit twice, or a small letter and its capital. -/
theorem figures_at {v : Nat} (hv : v < 36) : ∃ small capital : UInt8,
    (literal "0123456789abcdefghijklmnopqrstuvwxyz")[v]? = some small ∧
      (literal "0123456789ABCDEFGHIJKLMNOPQRSTUVWXYZ")[v]? = some capital ∧
      digval small.toNat = v ∧ digval capital.toNat = v ∧
      (small.toNat ≤ 0xA9 ∨ 0xF0 ≤ small.toNat) ∧ 0xC1 ≤ capital.toNat := by
  obtain ⟨hsmall, hcapital⟩ := figure_values ⟨v, hv⟩
  obtain ⟨small, hs, heq⟩ := Option.map_eq_some_iff.mp hsmall
  obtain ⟨capital, hc, heq'⟩ := Option.map_eq_some_iff.mp hcapital
  rw [Prod.mk.injEq, decide_eq_true_eq] at heq heq'
  exact ⟨small, capital, hs, hc, heq.1, heq'.1, heq.2, heq'.2⟩

theorem figure_iff {c : UInt8} {v : Nat} : Figure c v ↔ digval c.toNat = v ∧ v < 36 := by
  have hlength : ∀ (l : Bytes), l.length = 36 → ∀ v, l[v]? = some c → v < 36 := by
    intro l hl v hv
    rw [← hl]
    exact (List.getElem?_eq_some_iff.mp hv).1
  constructor
  · intro hc
    have hv : v < 36 := hc.elim (hlength _ rfl v) (hlength _ rfl v)
    obtain ⟨small, capital, hsmall, hcapital, hs, hl, -, -⟩ := figures_at hv
    refine ⟨?_, hv⟩
    rcases hc with hc | hc
    · rwa [Option.some.inj (hc.symm.trans hsmall)]
    · rwa [Option.some.inj (hc.symm.trans hcapital)]
  · rintro ⟨rfl, hv⟩
    -- the two figures of the value are a digit or the two letters, and `c` is one of them
    obtain ⟨small, capital, hsmall, hcapital, hs, hl, hleft, hright⟩ := figures_at hv
    have hc := digval_cases c
    by_cases hcase : c.toNat ≤ 0xA9
    · refine Or.inl (hsmall.trans (congrArg some (UInt8.toNat_inj.mp ?_)))
      have hcases := digval_cases small
      omega
    · refine Or.inr (hcapital.trans (congrArg some (UInt8.toNat_inj.mp ?_)))
      have hcases := digval_cases capital
      omega

/-- A digit is neither white space nor a sign. -/
theorem digit_facts {c : UInt8} (h : digval c.toNat < 36) :
    isspace c.toNat = false ∧ c ≠ ebcdic '-' ∧ c ≠ ebcdic '+' := by
  have hcases := digval_cases c
  refine ⟨Bool.eq_false_iff.mpr fun hspace => ?_, ?_, ?_⟩
  · rw [isspace_iff] at hspace
    omega
  · rintro rfl
    exact absurd h (by decide)
  · rintro rfl
    exact absurd h (by decide)

theorem magnitude_eq (base : Nat) (s : Bytes) :
    Nat.ofDigits base (s.map fun c => digval c.toNat).reverse = magnitude base 0 s := by
  rw [Nat.ofDigits_eq_foldr, List.foldr_reverse, List.foldl_map, magnitude]
  congr 1
  funext x c
  rw [Nat.cast_id, Nat.add_comm, Nat.mul_comm]

theorem numeral_iff {base : Nat} (hbase : base ≤ 36) {text : Bytes} {n : Nat} :
    Numeral base text n ↔ text ≠ [] ∧ (∀ c ∈ text, digval c.toNat < base) ∧ n = magnitude base 0 text := by
  constructor
  · rintro ⟨hne, vs, hvs, rfl⟩
    refine ⟨hne, ?_⟩
    have hmap : (∀ c ∈ text, digval c.toNat < base) ∧ vs = text.map fun c => digval c.toNat := by
      clear hne
      induction hvs with
      | nil => exact ⟨fun c hc => absurd hc List.not_mem_nil, rfl⟩
      | cons hc _ ih =>
        obtain ⟨rfl, -⟩ := figure_iff.mp hc.1
        exact ⟨List.forall_mem_cons.mpr ⟨hc.2, ih.1⟩, by rw [List.map_cons, ih.2]⟩
    exact ⟨hmap.1, by rw [hmap.2, magnitude_eq]⟩
  · rintro ⟨hne, hlt, rfl⟩
    refine ⟨hne, text.map fun c => digval c.toNat, ?_, (magnitude_eq base text).symm⟩
    rw [List.forall₂_map_right_iff, List.forall₂_same]
    intro c hc
    have hv := hlt c hc
    exact ⟨figure_iff.mpr ⟨rfl, by omega⟩, hv⟩

theorem le_magnitude {base : Nat} (hbase : 0 < base) (s : Bytes) (x : Nat) : x ≤ magnitude base x s := by
  induction s generalizing x with
  | nil => exact le_rfl
  | cons c s ih =>
    calc x ≤ x * base + digval c.toNat := by nlinarith
      _ ≤ magnitude base x (c :: s) := ih _

/-- The test in front of the multiplication. -/
theorem past_iff {base limit x d : Nat} (hd : d < base) :
    limit / base < x ∨ x = limit / base ∧ limit % base < d ↔ limit < x * base + d := by
  have hlimit := Nat.div_add_mod limit base
  have hmod := Nat.mod_lt limit (show 0 < base by omega)
  rw [Nat.mul_comm] at hlimit
  rcases Nat.lt_trichotomy x (limit / base) with hlt | heq | hgt
  · have hle : (x + 1) * base ≤ limit / base * base := Nat.mul_le_mul_right base hlt
    rw [Nat.add_mul] at hle
    omega
  · rw [← heq] at hlimit ⊢
    omega
  · have hle : (limit / base + 1) * base ≤ x * base := Nat.mul_le_mul_right base hgt
    rw [Nat.add_mul] at hle
    omega

/-- What the loop over the digits comes to: it has overflowed when the number is past the limit,
and no product has wrapped. -/
structure Accumulated (base limit : Nat) (a : Digits) (s : Bytes) (out : Digits × Bytes) : Prop where
  rest : out.2 = s.drop (run base s).length
  any : out.1.any = (a.any || !(run base s).isEmpty)
  overflow : out.1.overflow = true ↔ a.overflow = true ∨ limit < magnitude base a.x (run base s)
  x : out.1.overflow = false → out.1.x = magnitude base a.x (run base s)

theorem accumulated_none {base limit : Nat} {a : Digits} (ha : a.overflow = false → a.x ≤ limit) {s : Bytes}
    (h : run base s = []) : Accumulated base limit a s (a, s) := by
  refine ⟨by rw [h]; rfl, by rw [h]; exact (Bool.or_false _).symm, ?_, fun _ => by rw [h]; rfl⟩
  rw [h]
  refine ⟨.inl, fun hover => ?_⟩
  by_contra hno
  have hle := ha (by simpa using hno)
  exact hover.elim hno fun hlt => absurd hlt (not_lt.mpr hle)

theorem digitLoop_spec {bits base limit : Nat} (hbits : limit < 2 ^ bits) (s : Bytes) (a : Digits)
    (ha : a.overflow = false → a.x ≤ limit) :
    Accumulated base limit a s (digitLoop bits base (limit / base) (limit % base) a s) := by
  induction s generalizing a with
  | nil => exact accumulated_none ha rfl
  | cons c s ih =>
    by_cases hd : base ≤ digval c.toNat
    · rw [digitLoop, if_pos hd]
      exact accumulated_none ha (List.takeWhile_cons_of_neg (by simpa using hd))
    have hrun : run base (c :: s) = c :: run base s := run_digit (not_le.mp hd) s
    have hvalue : magnitude base a.x (c :: run base s) = magnitude base (a.x * base + digval c.toNat) (run base s) :=
        rfl
    have hpast : limit / base < a.x ∨ a.x = limit / base ∧ limit % base < digval c.toNat ↔ _ := past_iff (by omega)
    rw [digitLoop, if_neg hd]
    by_cases hover : a.overflow = true
    · -- past the limit already: the digits are passed over
      rw [if_pos hover]
      have hrest := ih {a with any := true} ha
      have hstays := hrest.overflow.mpr (.inl hover)
      refine ⟨by rw [hrest.rest, hrun]; rfl, by rw [hrest.any, hrun]; simp, ?_, fun hno => ?_⟩
      · exact iff_of_true hstays (.inl hover)
      · exact absurd hstays (by rw [hno]; exact Bool.false_ne_true)
    rw [if_neg hover]
    by_cases hlt : limit < a.x * base + digval c.toNat
    · rw [if_pos (hpast.mpr hlt)]
      have hrest := ih {a with any := true, overflow := true} fun hno => by cases hno
      have hstays := hrest.overflow.mpr (.inl rfl)
      have hgrows := @le_magnitude base (by omega) (run base s) (a.x * base + digval c.toNat)
      refine ⟨by rw [hrest.rest, hrun]; rfl, by rw [hrest.any, hrun]; simp, ?_, fun hno => ?_⟩
      · rw [hrun, hvalue]
        exact iff_of_true hstays (.inr (hlt.trans_le hgrows))
      · exact absurd hstays (by rw [hno]; exact Bool.false_ne_true)
    · have hmod : (a.x * base + digval c.toNat) % 2 ^ bits = a.x * base + digval c.toNat :=
        Nat.mod_eq_of_lt ((not_lt.mp hlt).trans_lt hbits)
      rw [if_neg (mt hpast.mp hlt), hmod]
      have hrest := ih {a with any := true, x := a.x * base + digval c.toNat} fun _ => not_lt.mp hlt
      refine ⟨by rw [hrest.rest, hrun]; rfl, by rw [hrest.any, hrun]; simp, ?_, fun hno => ?_⟩
      · rw [hrest.overflow, hrun, hvalue]
      · rw [hrest.x hno, hrun, hvalue]

/-! ### The prefix -/

theorem length_le_run {base : Nat} {text s : Bytes} (h : text <+: s) (hd : ∀ c ∈ text, digval c.toNat < base) :
    text.length ≤ (run base s).length := by
  obtain ⟨r, rfl⟩ := h
  rw [run, List.takeWhile_append_of_pos fun c hc => decide_eq_true (hd c hc), List.length_append]
  omega

theorem run_prefix (base : Nat) (s : Bytes) : run base s <+: s := List.takeWhile_prefix _

theorem mem_run {base : Nat} {s : Bytes} {c : UInt8} (h : c ∈ run base s) : digval c.toNat < base :=
  of_decide_eq_true (List.mem_takeWhile_imp (p := fun c : UInt8 => decide (digval c.toNat < base)) h)

/-- The prefix of the base, which is in front of the digits. -/
def mark (s : Bytes) (base : Nat) : Bytes := if (base = 0 ∨ base = 16) ∧ hexPrefix s then s.take 2 else []

/-- The number of a base that a string starts with: the prefix and the digits. -/
def subject (s : Bytes) (base : Nat) : Bytes := mark s base ++ run (radix s base).1 (radix s base).2

theorem hexPrefix_iff {s : Bytes} : hexPrefix s = true ↔
    ∃ x c rest, s = ebcdic '0' :: x :: c :: rest ∧ (x = ebcdic 'x' ∨ x = ebcdic 'X') ∧ digval c.toNat < 16 := by
  rcases s with - | ⟨z, - | ⟨x, - | ⟨c, rest⟩⟩⟩ <;> simp [hexPrefix, and_assoc]

theorem mark_append (s : Bytes) (base : Nat) : mark s base ++ (radix s base).2 = s := by
  unfold mark radix
  split_ifs <;> simp

/-- The letter of the prefix is no digit of base 16. -/
theorem mark_letter {x : UInt8} (h : x = ebcdic 'x' ∨ x = ebcdic 'X') : ¬ digval x.toNat < 16 := by
  rcases h with rfl | rfl <;> decide

/-- A number of the base in front of the string is no longer than what is found there, and what
is found has the value that the digits have. -/
theorem subject_found {base : Nat} (hbase : base ≤ 36) {s text : Bytes} {n : Nat} (h : Subject base text n)
    (hs : text <+: s) :
    run (radix s base).1 (radix s base).2 ≠ [] ∧ text.length ≤ (subject s base).length ∧
      (text = subject s base → n = magnitude (radix s base).1 0 (run (radix s base).1 (radix s base).2)) := by
  by_cases hhex : (base = 0 ∨ base = 16) ∧ hexPrefix s
  · obtain ⟨x, c, rest, rfl, hx, hc⟩ := hexPrefix_iff.mp hhex.2
    have hradix : radix (ebcdic '0' :: x :: c :: rest) base = (16, c :: rest) := if_pos hhex
    have hsubject : subject (ebcdic '0' :: x :: c :: rest) base = ebcdic '0' :: x :: run 16 (c :: rest) := by
      rw [subject, hradix, mark, if_pos hhex]
      rfl
    have hrun : run 16 (c :: rest) ≠ [] := by
      rw [run_digit hc]
      exact List.cons_ne_nil _ _
    -- in front of the letter there is the zero alone
    have hshort : ∀ radix n, radix ≤ 16 → Numeral radix text n →
        text.length ≤ (ebcdic '0' :: x :: run 16 (c :: rest)).length ∧
          text ≠ ebcdic '0' :: x :: run 16 (c :: rest) := by
      intro radix n hradix hn
      have hlt := ((numeral_iff (by omega)).mp hn).2.1
      have hx : x ∉ text := fun hmem => mark_letter hx ((hlt x hmem).trans_le hradix)
      refine ⟨?_, fun heq => hx (heq ▸ by simp)⟩
      rcases text with - | ⟨a, - | ⟨b, text⟩⟩
      · simp
      · simp
      · obtain ⟨r, hr⟩ := hs
        obtain ⟨-, hr⟩ := List.cons.inj hr
        obtain ⟨rfl, -⟩ := List.cons.inj hr
        exact absurd (by simp) hx
    rw [hradix, hsubject]
    refine ⟨hrun, ?_⟩
    cases h with
    | digits h hn =>
      obtain ⟨hlength, hne⟩ := hshort base n (by omega) hn
      exact ⟨hlength, fun heq => absurd heq hne⟩
    | octal h hzero hn =>
      obtain ⟨hlength, hne⟩ := hshort 8 n (by decide) hn
      exact ⟨hlength, fun heq => absurd heq hne⟩
    | decimal h hzero hn =>
      obtain ⟨hlength, hne⟩ := hshort 10 n (by decide) hn
      exact ⟨hlength, fun heq => absurd heq hne⟩
    | @hex text n y h hy hn =>
      obtain ⟨-, hletter⟩ := List.cons_prefix_cons.mp hs
      obtain ⟨rfl, hrest⟩ := List.cons_prefix_cons.mp hletter
      obtain ⟨-, hlt, rfl⟩ := (numeral_iff (by decide)).mp hn
      have hlength := length_le_run hrest hlt
      refine ⟨by simpa using hlength, fun heq => ?_⟩
      obtain ⟨-, heq⟩ := List.cons.inj heq
      obtain ⟨-, heq⟩ := List.cons.inj heq
      rw [heq]
  · -- the digits alone, in the base that the code takes
    have hsubject : subject s base = run (radix s base).1 s ∧ (radix s base).2 = s := by
      rw [subject, mark, if_neg hhex, radix, if_neg hhex]
      split_ifs <;> exact ⟨rfl, rfl⟩
    have hdigits : Numeral (radix s base).1 text n := by
      rw [radix, if_neg hhex]
      cases h with
      | digits h hn => rwa [if_neg h]
      | octal h hzero hn =>
        obtain ⟨r, rfl⟩ := hs
        rwa [if_pos h, if_pos (by rw [List.head?_append, hzero]; rfl)]
      | decimal h hzero hn =>
        obtain ⟨r, rfl⟩ := hs
        have hhead : (text ++ r).head? ≠ some (ebcdic '0') := by
          obtain ⟨c, t, rfl⟩ := List.exists_cons_of_ne_nil hn.1
          exact hzero
        rwa [if_pos h, if_neg hhead]
      | @hex text n y h hy hn =>
        obtain ⟨hne, hlt, -⟩ := (numeral_iff (by decide)).mp hn
        obtain ⟨c, t, rfl⟩ := List.exists_cons_of_ne_nil hne
        obtain ⟨r, rfl⟩ := hs
        exact absurd ⟨h, hexPrefix_iff.mpr ⟨y, c, t ++ r, rfl, hy, hlt c List.mem_cons_self⟩⟩ hhex
    have hle : (radix s base).1 ≤ 36 := by
      rw [radix, if_neg hhex]
      split_ifs <;> dsimp only <;> omega
    obtain ⟨hne, hlt, rfl⟩ := (numeral_iff hle).mp hdigits
    have hlength := length_le_run hs hlt
    rw [hsubject.1, hsubject.2]
    refine ⟨fun hnil => ?_, hlength, fun heq => by rw [← heq]⟩
    rw [hnil] at hlength
    exact hne (List.length_eq_zero_iff.mp (Nat.le_zero.mp hlength))

/-- What is found is a number of the base. -/
theorem subject_denotes {base : Nat} (hbase : base ≤ 36) {s : Bytes}
    (h : run (radix s base).1 (radix s base).2 ≠ []) :
    Subject base (subject s base) (magnitude (radix s base).1 0 (run (radix s base).1 (radix s base).2)) := by
  have hnumeral : ∀ r, r ≤ 36 → ∀ t, run r t ≠ [] → Numeral r (run r t) (magnitude r 0 (run r t)) :=
    fun r hr t ht => (numeral_iff hr).mpr ⟨ht, fun c => mem_run, rfl⟩
  by_cases hhex : (base = 0 ∨ base = 16) ∧ hexPrefix s
  · obtain ⟨x, c, rest, rfl, hx, hc⟩ := hexPrefix_iff.mp hhex.2
    have hradix : radix (ebcdic '0' :: x :: c :: rest) base = (16, c :: rest) := if_pos hhex
    rw [subject, mark, if_pos hhex]
    rw [hradix] at h ⊢
    exact .hex hhex.1 hx (hnumeral 16 (by decide) _ h)
  · rw [subject, mark, if_neg hhex, List.nil_append]
    rw [radix, if_neg hhex] at h ⊢
    by_cases hzero : base = 0
    · rw [if_pos hzero] at h ⊢
      dsimp only at h ⊢
      by_cases hhead : s.head? = some (ebcdic '0')
      · rw [if_pos hhead] at h ⊢
        refine .octal hzero ?_ (hnumeral 8 (by decide) _ h)
        obtain ⟨r, hr⟩ := run_prefix 8 s
        obtain ⟨c, t, hc⟩ := List.exists_cons_of_ne_nil h
        rw [← hr, hc] at hhead
        rw [hc]
        exact hhead
      · rw [if_neg hhead] at h ⊢
        refine .decimal hzero (fun hhas => hhead ?_) (hnumeral 10 (by decide) _ h)
        obtain ⟨r, hr⟩ := run_prefix 10 s
        rw [← hr, List.head?_append, hhas]
        rfl
    · rw [if_neg hzero] at h ⊢
      exact .digits hzero (hnumeral base hbase _ h)

/-- The string behind white space and the sign, as `opened` comes to it. -/
def signless (nptr : Bytes) : Bytes :=
  let s := nptr.dropWhile fun c => isspace c.toNat
  if s.head? = some (ebcdic '-') ∨ s.head? = some (ebcdic '+') then s.tail else s

def negative (nptr : Bytes) : Bool := (nptr.dropWhile fun c => isspace c.toNat).head? = some (ebcdic '-')

theorem opened_eq (nptr : Bytes) (base : Nat) :
    opened nptr base = ⟨negative nptr, (radix (signless nptr) base).1, (radix (signless nptr) base).2⟩ := by
  simp only [opened, negative, signless]

theorem subject_head {base : Nat} (hbase : base ≤ 36) {text : Bytes} {n : Nat} (h : Subject base text n) :
    ∃ c rest, text = c :: rest ∧ digval c.toNat < 36 := by
  have hhead : ∀ r, r ≤ 36 → Numeral r text n → ∃ c rest, text = c :: rest ∧ digval c.toNat < 36 := by
    intro r hr hn
    obtain ⟨hne, hlt, -⟩ := (numeral_iff hr).mp hn
    obtain ⟨c, rest, rfl⟩ := List.exists_cons_of_ne_nil hne
    exact ⟨c, rest, rfl, (hlt c List.mem_cons_self).trans_le hr⟩
  cases h with
  | digits h hn => exact hhead base hbase hn
  | hex h hx hn => exact ⟨_, _, rfl, by decide⟩
  | octal h hzero hn => exact hhead 8 (by decide) hn
  | decimal h hzero hn => exact hhead 10 (by decide) hn

/-- White space and a sign in front of a string. -/
structure Front (nptr front : Bytes) : Prop where
  eq : nptr = front ++ signless nptr
  denotes : ∀ {base text n}, Subject base text n → Denotes base (front ++ text) (negative nptr) n
  unique : ∀ {base text neg n}, base ≤ 36 → text <+: nptr → Denotes base text neg n →
    neg = negative nptr ∧ ∃ subject, text = front ++ subject ∧ subject <+: signless nptr ∧ Subject base subject n

/-- Where white space ends. -/
theorem space_ends {space rest : Bytes} (h : ∀ c ∈ space, isspace c.toNat = true)
    (hrest : ∀ c ∈ rest.head?, isspace c.toNat = false) :
    (space ++ rest).dropWhile (fun c => isspace c.toNat) = rest := by
  rw [List.dropWhile_append_of_pos h]
  cases rest with
  | nil => rfl
  | cons c rest =>
    rw [List.dropWhile_cons_of_neg]
    rw [hrest c rfl]
    exact Bool.false_ne_true

/-- The sign in front of digits. -/
theorem sign_found {space sign : Bytes} {neg : Bool} {c : UInt8} (rest : Bytes)
    (hspace : ∀ c ∈ space, isspace c.toNat = true) (hsign : Sign sign neg) (hc : digval c.toNat < 36) :
    signless (space ++ (sign ++ c :: rest)) = c :: rest ∧ negative (space ++ (sign ++ c :: rest)) = neg := by
  obtain ⟨hblank, hminus, hplus⟩ := digit_facts hc
  have hhead : ∀ d ∈ (sign ++ c :: rest).head?, isspace d.toNat = false := by
    rcases hsign with ⟨rfl, -⟩ | ⟨rfl, -⟩ | ⟨rfl, -⟩ <;> rintro d ⟨⟩
    · exact hblank
    · decide
    · decide
  have hdrop := space_ends hspace hhead
  unfold signless negative
  rw [hdrop]
  rcases hsign with ⟨rfl, rfl⟩ | ⟨rfl, rfl⟩ | ⟨rfl, rfl⟩
  · have hno : ∀ b, c ≠ b → ¬ ([] ++ c :: rest).head? = some b := fun b hb heq => hb (Option.some.inj heq)
    simp only [if_neg (not_or.mpr ⟨hno _ hminus, hno _ hplus⟩)]
    exact ⟨rfl, decide_eq_false (hno _ hminus)⟩
  · exact ⟨if_pos (.inr rfl), decide_eq_false fun heq => absurd (Option.some.inj heq) (by decide)⟩
  · exact ⟨if_pos (.inl rfl), decide_eq_true rfl⟩

theorem exists_front (nptr : Bytes) : ∃ front, Front nptr front := by
  have hsplit : ∃ space sign, nptr = space ++ (sign ++ signless nptr) ∧ (∀ c ∈ space, isspace c.toNat = true) ∧
      Sign sign (negative nptr) := by
    refine ⟨nptr.takeWhile fun c => isspace c.toNat, ?_⟩
    have happend : nptr = _ := (List.takeWhile_append_dropWhile (p := fun c : UInt8 => isspace c.toNat)).symm
    unfold signless negative
    have hall : ∀ c ∈ nptr.takeWhile fun c => isspace c.toNat, isspace c.toNat = true := fun c hc =>
      List.mem_takeWhile_imp (p := fun c : UInt8 => isspace c.toNat) hc
    generalize nptr.dropWhile (fun c => isspace c.toNat) = s at happend
    cases s with
    | nil => exact ⟨[], happend, hall, .inl ⟨rfl, rfl⟩⟩
    | cons c s =>
      by_cases hminus : c = ebcdic '-'
      · subst hminus
        exact ⟨[ebcdic '-'], happend, hall, .inr (.inr ⟨rfl, decide_eq_true rfl⟩)⟩
      · have hno : ¬ (c :: s).head? = some (ebcdic '-') := fun heq => hminus (Option.some.inj heq)
        by_cases hplus : c = ebcdic '+'
        · subst hplus
          exact ⟨[ebcdic '+'], happend, hall, .inr (.inl ⟨rfl, decide_eq_false hno⟩)⟩
        · have hno' : ¬ (c :: s).head? = some (ebcdic '+') := fun heq => hplus (Option.some.inj heq)
          refine ⟨[], ?_, hall, .inl ⟨rfl, decide_eq_false hno⟩⟩
          rw [if_neg (not_or.mpr ⟨hno, hno'⟩)]
          exact happend
  obtain ⟨space, sign, heq, hspace, hsign⟩ := hsplit
  refine ⟨space ++ sign, by rw [List.append_assoc]; exact heq, fun hsub => ⟨space, sign, _, by rw [List.append_assoc],
    hspace, hsign, hsub⟩, fun hbase hpre hden => ?_⟩
  obtain ⟨space', sign', sub, rfl, hspace', hsign', hsub⟩ := hden
  obtain ⟨c, rest, rfl, hc⟩ := subject_head hbase hsub
  obtain ⟨r, hr⟩ := hpre
  have hnptr : nptr = space' ++ (sign' ++ c :: (rest ++ r)) := by
    rw [← hr]
    simp only [List.append_assoc, List.cons_append]
  obtain ⟨hless, hneg⟩ := sign_found (rest ++ r) hspace' hsign' hc
  rw [← hnptr] at hless hneg
  have hfront : space' ++ sign' = space ++ sign := by
    have hboth : (space' ++ sign') ++ signless nptr = (space ++ sign) ++ signless nptr := by
      rw [List.append_assoc, List.append_assoc, ← heq, hless]
      exact hnptr.symm
    exact List.append_cancel_right hboth
  refine ⟨hneg.symm, c :: rest, by rw [← hfront, List.append_assoc], ?_, hsub⟩
  rw [hless]
  exact List.prefix_append (c :: rest) r

/-- The digits that the loop takes. -/
def figures (nptr : Bytes) (base : Nat) : Bytes := run (radix (signless nptr) base).1 (radix (signless nptr) base).2

/-- Their value. -/
def number (nptr : Bytes) (base : Nat) : Nat := magnitude (radix (signless nptr) base).1 0 (figures nptr base)

/-- The string falls into what is consumed and what is behind the digits. -/
theorem consumed_append {nptr front : Bytes} (hf : Front nptr front) (base : Nat) :
    (front ++ subject (signless nptr) base) ++ (radix (signless nptr) base).2.drop (figures nptr base).length =
    nptr := by
  have hdigits : figures nptr base ++ (radix (signless nptr) base).2.drop (figures nptr base).length =
      (radix (signless nptr) base).2 := by
    obtain ⟨r, hr⟩ := run_prefix (radix (signless nptr) base).1 (radix (signless nptr) base).2
    have hr : figures nptr base ++ r = (radix (signless nptr) base).2 := hr
    rw [← hr, List.drop_left]
  calc (front ++ subject (signless nptr) base) ++ (radix (signless nptr) base).2.drop (figures nptr base).length
      = front ++ (mark (signless nptr) base ++ (figures nptr base ++
          (radix (signless nptr) base).2.drop (figures nptr base).length)) := by
        simp only [subject, figures, List.append_assoc]
    _ = front ++ signless nptr := by rw [hdigits, mark_append]
    _ = nptr := hf.eq.symm

/-- The longest prefix that denotes a number is the one consumed. -/
theorem longest_found {base : Nat} (hbase : base ≤ 36) {nptr front : Bytes} (hf : Front nptr front) {text : Bytes}
    {neg : Bool} {n : Nat} (h : Longest base nptr text neg n) :
    figures nptr base ≠ [] ∧ text = front ++ subject (signless nptr) base ∧ neg = negative nptr ∧
      n = number nptr base := by
  obtain ⟨hneg, sub, rfl, hpre, hsub⟩ := hf.unique hbase h.within h.denotes
  obtain ⟨hne, hle, hvalue⟩ := subject_found hbase hsub hpre
  have hwithin : front ++ subject (signless nptr) base <+: nptr := ⟨_, consumed_append hf base⟩
  have hlonger := h.longest _ _ _ hwithin (hf.denotes (subject_denotes hbase hne))
  rw [List.length_append, List.length_append] at hlonger
  have hsame : sub = subject (signless nptr) base := by
    obtain ⟨r, hr⟩ := h.within
    rw [← consumed_append hf base, List.append_assoc, List.append_assoc] at hr
    have hr := List.append_cancel_left hr
    exact (List.append_inj hr (by omega)).1
  exact ⟨hne, by rw [hsame], hneg, hvalue hsame⟩

/-- Without digits no prefix denotes a number. -/
theorem nothing_found {base : Nat} (hbase : base ≤ 36) {nptr front : Bytes} (hf : Front nptr front) :
    (∀ text neg n, text <+: nptr → ¬ Denotes base text neg n) ↔ figures nptr base = [] := by
  constructor
  · intro h
    by_contra hne
    exact h _ _ _ ⟨_, consumed_append hf base⟩ (hf.denotes (subject_denotes hbase hne))
  · intro hnil text neg n hpre hden
    obtain ⟨-, sub, -, hsub, hs⟩ := hf.unique hbase hpre hden
    exact (subject_found hbase hs hsub).1 hnil

/-! ### The conversions -/

/-- A base that a caller may give. -/
def Base (base : Nat) : Prop := base = 0 ∨ 2 ≤ base ∧ base ≤ 36

theorem convert_spec {bits : Nat} {limit : Bool → Nat} {past : Bool → Int} {value : Bool → Nat → Int}
    {fit : Bool → Nat → Int × Option Errno} (hlimit : ∀ neg, limit neg < 2 ^ bits) (hzero : ∀ neg, value neg 0 = 0)
    (hvalue : ∀ neg n, n ≤ limit neg → fit neg n = (value neg n, none))
    (hpast : ∀ neg n, limit neg < n → fit neg n = (past neg, some .erange)) {base : Nat} (h : Base base) (nptr : Bytes)
    (endptr : Bool) : Converts fit base nptr endptr (convert bits limit past value nptr endptr base) := by
  have hbase : base ≤ 36 := by unfold Base at h; omega
  have hvalid : ¬ ((base : Int) < 0 ∨ (base : Int) = 1 ∨ 36 < (base : Int)) := by unfold Base at h; omega
  obtain ⟨front, hf⟩ := exists_front nptr
  have hloop := @digitLoop_spec bits (radix (signless nptr) base).1 _ (hlimit (negative nptr))
    (radix (signless nptr) base).2 ⟨0, false, false⟩ fun _ => Nat.zero_le _
  have hconvert : convert bits limit past value nptr endptr base = _ := if_neg hvalid
  rw [hconvert, Int.toNat_natCast, opened_eq]
  dsimp only
  generalize digitLoop bits _ _ _ _ _ = out at hloop
  obtain ⟨a, s⟩ := out
  have hrest : s = (radix (signless nptr) base).2.drop (figures nptr base).length := hloop.rest
  have hany : a.any = !(figures nptr base).isEmpty := hloop.any
  have hover : a.overflow = true ↔ limit (negative nptr) < number nptr base :=
    hloop.overflow.trans (or_iff_right Bool.false_ne_true)
  have hx : a.overflow = false → a.x = number nptr base := hloop.x
  dsimp only
  constructor
  · intro text neg n hlongest
    obtain ⟨hne, rfl, rfl, rfl⟩ := longest_found hbase hf hlongest
    have hplace : nptr.length - s.length = (front ++ subject (signless nptr) base).length := by
      have hwhole := congrArg List.length (consumed_append hf base)
      rw [List.length_append, ← hrest] at hwhole
      omega
    rw [hany, List.isEmpty_eq_false_iff.mpr hne, Bool.not_false, if_pos rfl, hplace]
    by_cases hlt : limit (negative nptr) < number nptr base
    · rw [if_pos (hover.mpr hlt), hpast _ _ hlt]
    · rw [if_neg (mt hover.mp hlt), hvalue _ _ (not_lt.mp hlt), hx (Bool.eq_false_iff.mpr (mt hover.mp hlt))]
  · intro hnone
    have hnil := (nothing_found hbase hf).mp hnone
    have hnumber : number nptr base = 0 := by
      rw [number, hnil]
      rfl
    rw [hnumber] at hover hx
    have hno : ¬ a.overflow = true := mt hover.mp (Nat.not_lt_zero _)
    rw [hany, hnil, if_neg hno, hx (Bool.eq_false_iff.mpr hno), hzero]
    rfl

/-- A signed member, in the type whose limits are `max` and `-max - 1`. -/
theorem signed_spec {bits : Nat} {max : Int} (hmax : 2 * max + 2 = 2 ^ bits) {base : Nat} (h : Base base) (nptr : Bytes)
    (endptr : Bool) :
    Converts (inSigned max (-max - 1)) base nptr endptr (signed bits max (-max - 1) nptr endptr base) := by
  have hbits : ((2 ^ bits : Nat) : Int) = 2 ^ bits := Nat.cast_pow 2 bits
  have hpos : 0 < 2 ^ bits := Nat.two_pow_pos bits
  have hsmall : ∀ n : Nat, (n : Int) ≤ max → (n : Int).bmod (2 ^ bits) = n := fun n hn =>
    Int.bmod_eq_of_le (by omega) (by omega)
  unfold signed
  refine convert_spec ?_ ?_ ?_ ?_ h nptr endptr
  · rintro (_ | _) <;> simp <;> omega
  · rintro (_ | _)
    · exact hsmall 0 (by omega)
    · simp
  · rintro (_ | _) n hn
    · have hn : n ≤ max.toNat := hn
      have hle : (n : Int) ≤ max := by omega
      simp only [inSigned, Bool.false_eq_true, if_false]
      rw [if_neg (by omega), if_neg (by omega), hsmall n hle]
    · have hn : n ≤ max.toNat + 1 := hn
      simp only [inSigned, if_true]
      rw [if_neg (by omega), if_neg (by omega)]
      split_ifs with hlast
      · have hlast : n = max.toNat + 1 := hlast
        congr 1
        omega
      · have hlast : ¬ n = max.toNat + 1 := hlast
        rw [hsmall n (by omega)]
  · rintro (_ | _) n hn
    · have hn : max.toNat < n := hn
      simp only [inSigned, Bool.false_eq_true, if_false]
      rw [if_pos (by omega)]
    · have hn : max.toNat + 1 < n := hn
      simp only [inSigned, if_true]
      rw [if_neg (by omega), if_pos (by omega)]

/-- An unsigned member, in the type whose limit is `max`. -/
theorem unsigned_spec {bits : Nat} {max : Int} (hmax : max + 1 = 2 ^ bits) {base : Nat} (h : Base base) (nptr : Bytes)
    (endptr : Bool) : Converts (inUnsigned bits max) base nptr endptr (unsigned bits max nptr endptr base) := by
  have hbits : ((2 ^ bits : Nat) : Int) = 2 ^ bits := Nat.cast_pow 2 bits
  have hpos : 0 < 2 ^ bits := Nat.two_pow_pos bits
  unfold unsigned
  refine convert_spec ?_ ?_ ?_ ?_ h nptr endptr
  · intro neg
    omega
  · rintro (_ | _) <;> simp
  · intro neg n hn
    rw [inUnsigned, if_neg (by omega)]
  · intro neg n hn
    rw [inUnsigned, if_pos (by omega)]

/-- **Each of the four consumes the longest prefix that is a number of the base**, and returns
its value, or the limit it passes with `ERANGE`. -/
theorem converts_longest {base : Nat} (h : Base base) (nptr : Bytes) (endptr : Bool) :
    Converts (inSigned 2147483647 (-2147483648)) base nptr endptr (strtol nptr endptr base) ∧
      Converts (inUnsigned 32 4294967295) base nptr endptr (strtoul nptr endptr base) ∧
      Converts (inSigned 9223372036854775807 (-9223372036854775808)) base nptr endptr (strtoll nptr endptr base) ∧
      Converts (inUnsigned 64 18446744073709551615) base nptr endptr (strtoull nptr endptr base) :=
  ⟨signed_spec (by decide) h nptr endptr, unsigned_spec (by decide) h nptr endptr,
    signed_spec (by decide) h nptr endptr,
    unsigned_spec (by decide) h nptr endptr⟩

theorem converts_longest_minus_one :
    Base 0 ∧ Converts (inSigned 2147483647 (-2147483648)) 0 (literal " -0x1G") true
      (strtol (literal " -0x1G") true 0) :=
  ⟨.inl rfl, (converts_longest (.inl rfl) (literal " -0x1G") true).1⟩

example : strtol (literal " -0x1G") true 0 = ⟨-1, some 5, none⟩ := by decide
example : strtoul (literal "0xg") true 16 = ⟨0, some 1, none⟩ := by decide

end Libc370.Strto
