import Libc370.Printf.Agreement
import Libc370.Printf.Conversion

/-! What `__examin()` makes of an integer conversion.

It parses what `render` writes (`parse_render`), comes to the value and its digits
(`integer_eq`), and lays them out as C99 has it, but for the sign: `+` and the space
flag are heard also where the conversion has no sign. -/
namespace Libc370.Printf

open Stdio (Bytes toLong toLong_of_lt)

/-! ### Parsing -/

/-- The characters that the flags loop takes. -/
def flagBytes : Bytes := literal "-+ #0*"

theorem flag_none (E : Env) {c : UInt8} (h : c ∉ flagBytes) (s : Spec) (taken : Nat) : flag E c s taken = none := by
  have hne : ∀ b ∈ flagBytes, c ≠ b := fun b hb hc => h (hc ▸ hb)
  unfold flag
  rw [if_neg (hne _ (by decide)), if_neg (hne _ (by decide)), if_neg (hne _ (by decide)), if_neg (hne _ (by decide)),
    if_neg (hne _ (by decide)), if_neg (hne _ (by decide))]

/-- A specification with flags set. -/
def Spec.with (s : Spec) (fs : List Flag) : Spec :=
  {s with
    flagMinus := s.flagMinus || fs.contains .minus, flagPlus := s.flagPlus || fs.contains .plus
    flagSpace := s.flagSpace || fs.contains .space, flagHash := s.flagHash || fs.contains .hash
    flagZero := s.flagZero || fs.contains .zero}

theorem flag_byte (E : Env) (a : Flag) (s : Spec) (taken : Nat) : flag E a.byte s taken = some (s.with [a], taken) := by
  cases a with
  | minus => simp [flag, Flag.byte, Spec.with]
  | plus =>
    have h₁ : ebcdic '+' ≠ ebcdic '-' := by decide
    simp [flag, Flag.byte, Spec.with, h₁]
  | space =>
    have h₁ : ebcdic ' ' ≠ ebcdic '-' ∧ ebcdic ' ' ≠ ebcdic '+' := by decide
    simp [flag, Flag.byte, Spec.with, h₁]
  | hash =>
    have h₁ : ebcdic '#' ≠ ebcdic '-' ∧ ebcdic '#' ≠ ebcdic '+' ∧ ebcdic '#' ≠ ebcdic ' ' := by decide
    simp [flag, Flag.byte, Spec.with, h₁]
  | zero =>
    have h₁ : ebcdic '0' ≠ ebcdic '-' ∧ ebcdic '0' ≠ ebcdic '+' ∧ ebcdic '0' ≠ ebcdic ' ' ∧
      ebcdic '0' ≠ ebcdic '#' := by decide
    simp [flag, Flag.byte, Spec.with, h₁]

theorem flags_bytes (E : Env) (fs : List Flag) (f : Bytes) (s : Spec) (taken : Nat) :
    flags E (fs.map Flag.byte ++ f) s taken = flags E f (s.with fs) taken := by
  induction fs generalizing s with
  | nil => simp [Spec.with]
  | cons a fs ih =>
    have hone := flag_byte E a s taken
    rw [List.map_cons, List.cons_append, flags, hone]
    dsimp only
    rw [ih]
    congr 1
    simp only [Spec.with, List.contains_cons, List.contains_nil, Bool.or_false, Bool.or_assoc]

/-- What a `*` makes of the width. -/
def Spec.starred (s : Spec) (width : Int) : Spec :=
  if width < 0 then {s with flagMinus := true, width := toLong (-width)} else {s with width := width}

theorem flags_star (E : Env) (f : Bytes) (s : Spec) (taken : Nat) :
    flags E (ebcdic '*' :: f) s taken = flags E f (s.starred (E.word taken).toInt) (taken + 1) := by
  rw [flags]
  rfl

theorem flags_end (E : Env) {c : UInt8} (h : c ∉ flagBytes) (f : Bytes) (s : Spec) (taken : Nat) :
    flags E (c :: f) s taken = (s.settled, taken, c :: f) := by
  rw [flags, flag_none E h]

theorem isdigit_digitByte (d : Fin 10) : isdigit (digitByte d).toNat = true := by
  revert d
  decide

theorem digitByte_toNat (d : Fin 10) : (digitByte d).toNat = 0xF0 + d.val := by
  revert d
  decide

/-- Digits are read up to what is none; the number is right if it fits. -/
theorem number_digits (ds : List (Fin 10)) {c : UInt8} (f : Bytes) (hc : isdigit c.toNat = false) (n : Nat)
    (h : ds.foldl (fun n d => n * 10 + d.val) n < 2 ^ 31) :
    number (ds.map digitByte ++ c :: f) n = (((ds.foldl (fun n d => n * 10 + d.val) n : Nat) : Int), c :: f) := by
  induction ds generalizing n with
  | nil => simp [number, hc]
  | cons d ds ih =>
    have hgrows : ∀ (l : List (Fin 10)) (m : Nat), m ≤ l.foldl (fun n d => n * 10 + d.val) m := by
      intro l
      induction l with
      | nil => exact fun m => le_rfl
      | cons d l ih => exact fun m => le_trans (by omega) (ih (m * 10 + d.val))
    have hle := hgrows ds (n * 10 + d.val)
    rw [List.foldl_cons] at h
    have hnext : toLong ((n : Int) * 10 + ((digitByte d).toNat - 0xF0)) = (n * 10 + d.val : Nat) := by
      rw [digitByte_toNat, ← toLong_of_lt (show n * 10 + d.val < 2 ^ 31 by omega)]
      congr 1
      push_cast
      ring
    rw [List.map_cons, List.cons_append, number, if_pos (isdigit_digitByte d), hnext]
    exact ih _ h

/-- What comes behind the width. -/
def Conversion.tail (c : Conversion) : Bytes := precisionBytes c.precision ++ c.modifier.bytes ++ [c.letter.byte]

theorem modifier_head (m : Modifier) (l : Letter) (rest : Bytes) : ∃ b f, m.bytes ++ [l.byte] ++ rest = b :: f ∧
    b ∉ flagBytes ∧ isdigit b.toNat = false ∧ b ≠ ebcdic '.' ∧ b ≠ ebcdic '*' := by
  cases m <;> cases l <;> exact ⟨_, _, rfl, by decide, by decide, by decide, by decide⟩

theorem tail_head (c : Conversion) (rest : Bytes) : ∃ b f, c.tail ++ rest = b :: f ∧
    b ∉ flagBytes ∧ isdigit b.toNat = false := by
  unfold Conversion.tail
  cases hp : c.precision with
  | absent =>
    obtain ⟨b, f, heq, hflag, hdigit, -⟩ := modifier_head c.modifier c.letter rest
    exact ⟨b, f, heq, hflag, hdigit⟩
  | digits ds => exact ⟨_, _, rfl, by decide, by decide⟩
  | star => exact ⟨_, _, rfl, by decide, by decide⟩

/-- The `lng` and the `hmod` of a modifier. -/
def Modifier.lng : Modifier → Nat
  | ll | j => 2
  | l | z | t => 1
  | _ => 0

def Modifier.hmod : Modifier → Nat
  | h => 1
  | hh => 2
  | _ => 0

theorem modifier_bytes (m : Modifier) (l : Letter) (rest : Bytes) :
    modifier (m.bytes ++ [l.byte] ++ rest) = (m.lng, m.hmod, l.byte :: rest) := by
  cases m <;> cases l <;> rfl

theorem number_none {c : UInt8} (hc : isdigit c.toNat = false) (f : Bytes) (n : Int) :
    number (c :: f) n = (n, c :: f) := by
  rw [number, hc]
  rfl

/-- A precision as `__examin()` has it. -/
def Amount.int (E : Env) (taken : Nat) : Amount → Int
  | absent => -1
  | digits ds => numeral ds
  | star => (E.word taken).toInt

theorem precision_bytes (E : Env) (p : Amount) (taken : Nat) (m : Modifier) (l : Letter) (rest : Bytes)
    (h : ∀ ds, p = .digits ds → numeral ds < 2 ^ 31) :
    Printf.precision E (precisionBytes p ++ (m.bytes ++ [l.byte] ++ rest)) taken =
      (p.int E taken, taken + p.args, m.bytes ++ [l.byte] ++ rest) := by
  obtain ⟨b, f, heq, -, hdigit, hpoint, hstar⟩ := modifier_head m l rest
  rw [heq]
  cases p with
  | absent =>
    show Printf.precision E (b :: f) taken = _
    exact if_neg hpoint
  | digits ds =>
    have hnumber : number (ds.map digitByte ++ b :: f) 0 = ((numeral ds : Int), b :: f) :=
      number_digits ds f hdigit 0 (h ds rfl)
    have hcur : cur (ds.map digitByte ++ b :: f) ≠ ebcdic '*' := by
      cases ds with
      | nil => exact hstar
      | cons d ds =>
        have hne : ∀ d : Fin 10, digitByte d ≠ ebcdic '*' := by decide
        exact hne d
    show (if ebcdic '.' = ebcdic '.' then
      if cur (ds.map digitByte ++ b :: f) = ebcdic '*' then _
      else ((number (ds.map digitByte ++ b :: f) 0).1, taken, (number (ds.map digitByte ++ b :: f) 0).2) else _) = _
    rw [if_pos rfl, if_neg hcur, hnumber]
    rfl
  | star => rfl

/-- What the flags loop and the width come to. -/
theorem flags_width (E : Env) (c : Conversion) (rest : Bytes) (taken : Nat) (h : (c.wanted E taken).width < 2 ^ 31) :
    ∃ s f, flags E (c.flags.map Flag.byte ++ c.width.bytes ++ (c.tail ++ rest)) .start taken = (s,
      taken + c.width.args, f) ∧
      number f s.width = (((c.wanted E taken).width : Int), c.tail ++ rest) ∧
      s.flagMinus = (c.wanted E taken).minus ∧ s.flagPlus = (c.wanted E taken).plus ∧
      s.flagSpace = ((c.wanted E taken).space && !(c.wanted E taken).plus) ∧ s.flagHash = (c.wanted E taken).hash ∧
      s.flagZero = ((c.wanted E taken).zero && !(c.wanted E taken).minus) := by
  obtain ⟨b, f, heq, hflag, hdigit⟩ := tail_head c rest
  rw [List.append_assoc, flags_bytes, heq]
  cases hw : c.width with
  | absent =>
    refine ⟨_, _, flags_end E hflag f _ taken, ?_, ?_⟩
    · rw [number_none hdigit]
      simp [Conversion.wanted, hw, Spec.settled, Spec.with, Spec.start]
    · simp [Conversion.wanted, hw, Spec.settled, Spec.with, Spec.start]
  | digits ds =>
    have hfirst : ∃ b' f', ds.map digitByte ++ b :: f = b' :: f' ∧ b' ∉ flagBytes := by
      cases ds with
      | nil => exact ⟨b, f, rfl, hflag⟩
      | cons d ds =>
        have hzero : ∀ d : Fin 10, d ≠ 0 → digitByte d ∉ flagBytes := by decide
        exact ⟨_, _, rfl, hzero d fun hd => c.width_ok _ hw (by simp [hd])⟩
    obtain ⟨b', f', heq', hflag'⟩ := hfirst
    have hsmall : numeral ds < 2 ^ 31 := by simpa [Conversion.wanted, hw] using h
    have hnumber : number (ds.map digitByte ++ b :: f) 0 = ((numeral ds : Int), b :: f) :=
      number_digits ds f hdigit 0 hsmall
    refine ⟨(Spec.start.with c.flags).settled, ds.map digitByte ++ b :: f, ?_, ?_, ?_⟩
    · show flags E (ds.map digitByte ++ b :: f) _ taken = _
      rw [heq']
      exact flags_end E hflag' f' _ taken
    · show number (ds.map digitByte ++ b :: f) 0 = _
      rw [hnumber]
      simp [Conversion.wanted, hw]
    · simp [Conversion.wanted, hw, Spec.settled, Spec.with, Spec.start]
  | star =>
    refine ⟨_, _, (flags_star E _ _ taken).trans (flags_end E hflag f _ _), ?_, ?_⟩
    · rw [number_none hdigit]
      simp only [Conversion.wanted, hw] at h ⊢
      unfold Spec.settled Spec.starred
      split
      · next hneg =>
        dsimp only
        rw [← toLong_of_lt h]
        congr 2
        omega
      · next hneg =>
        dsimp only
        congr 1
        omega
    · simp only [Conversion.wanted, hw, Spec.settled, Spec.starred]
      split
      · next hneg => simp [Spec.with, Spec.start, hneg]
      · next hneg => simp [Spec.with, Spec.start, hneg]

/-- A specification that has been read for what it is. -/
structure Spec.Reads (s : Spec) (w : Wanted) (m : Modifier) : Prop where
  minus : s.flagMinus = w.minus
  plus : s.flagPlus = w.plus
  space : s.flagSpace = (w.space && !w.plus)
  hash : s.flagHash = w.hash
  zero : s.flagZero = (w.zero && !w.minus)
  width : s.width = w.width
  precision : match w.precision with | none => s.precision < 0 | some p => s.precision = p
  lng : s.lng = m.lng
  hmod : s.hmod = m.hmod

/-- A rendering is parsed into what it stands for. -/
theorem parse_render (E : Env) (c : Conversion) (rest : Bytes) (taken : Nat)
    (hwidth : (c.wanted E taken).width < 2 ^ 31)
    (hprec : ∀ p ∈ (c.wanted E taken).precision, p < 2 ^ 31) :
    ∃ s, parse E (c.render ++ rest) taken = (s, taken + c.width.args + c.precision.args, c.letter.byte :: rest) ∧
      s.Reads (c.wanted E taken) c.modifier := by
  obtain ⟨s, f, hflags, hnumber, hminus, hplus, hspace, hhash, hzero⟩ := flags_width E c rest taken hwidth
  have htail : c.tail ++ rest = precisionBytes c.precision ++ (c.modifier.bytes ++ [c.letter.byte] ++ rest) := by
    simp [Conversion.tail]
  have hrender : c.render ++ rest = c.flags.map Flag.byte ++ c.width.bytes ++ (c.tail ++ rest) := by
    simp [Conversion.render, Conversion.tail]
  have hprecision := precision_bytes E c.precision (taken + c.width.args) c.modifier c.letter rest
    (fun ds hds => hprec _ (by simp [Conversion.wanted, hds]))
  rw [htail] at hnumber
  refine ⟨{s with
    width := (c.wanted E taken).width, precision := c.precision.int E (taken + c.width.args), lng := c.modifier.lng,
      hmod := c.modifier.hmod}, ?_,
    hminus, hplus, hspace, hhash, hzero, rfl, ?_, rfl, rfl⟩
  · unfold parse
    rw [hrender, hflags]
    dsimp only
    rw [hnumber]
    dsimp only
    rw [hprecision]
    dsimp only
    rw [modifier_bytes]
  · cases hp : c.precision with
    | absent =>
      simp only [Conversion.wanted, hp, Amount.int]
      decide
    | digits ds => simp only [Conversion.wanted, hp, Amount.int]
    | star =>
      simp only [Conversion.wanted, hp, Amount.int]
      by_cases hneg : (E.word (taken + c.width.args)).toInt < 0
      · rw [if_pos hneg]
        exact hneg
      · rw [if_neg hneg]
        dsimp only
        omega

/-! ### Digits -/

theorem work32_eq {base : Nat} (hb : 1 < base) (fuel n : Nat) (h : n < base ^ fuel) :
    work32 base fuel n = Nat.digits base n := by
  induction fuel generalizing n with
  | zero =>
    obtain rfl : n = 0 := by simpa using h
    rw [Nat.digits_zero]
    rfl
  | succ fuel ih =>
    rw [work32]
    split
    · next hpos =>
      rw [Nat.digits_def' hb hpos, ih]
      rw [pow_succ, Nat.mul_comm] at h
      exact Nat.div_lt_of_lt_mul h
    · next hpos =>
      obtain rfl : n = 0 := by omega
      rw [Nat.digits_zero]

theorem work64_eq {base : Nat} (hb : 1 < base) (hsmall : base < 2 ^ 31) (fuel : Nat) (value : BitVec 64)
    (h : value.toNat < base ^ fuel) : work64 base fuel value = Nat.digits base value.toNat := by
  have hbase : Int64.fromI32 (BitVec.ofNat 32 base) = BitVec.ofNat 64 base :=
    Int64.fromI32_eq (i := base) (by omega) (by omega)
  have hbaseNat : (BitVec.ofNat 64 base).toNat = base := by
    rw [BitVec.toNat_ofNat]
    omega
  have hne : BitVec.ofNat 64 base ≠ 0 := by
    intro hzero
    rw [hzero] at hbaseNat
    simp at hbaseNat
    omega
  induction fuel generalizing value with
  | zero =>
    have hzero : value.toNat = 0 := by simpa using h
    rw [hzero, Nat.digits_zero]
    rfl
  | succ fuel ih =>
    rw [work64]
    by_cases hzero : Int64.isZero value = true
    · rw [hzero, (Int64.isZero_iff value).mp hzero]
      simp
    · have hpos : 0 < value.toNat := by
        rw [Nat.pos_iff_ne_zero]
        intro h0
        exact hzero ((Int64.isZero_iff value).mpr (BitVec.eq_of_toNat_eq h0))
      rw [Bool.not_eq_true] at hzero
      rw [hzero, hbase, Int64.divmod_eq value _ hne]
      have hdiv : (value / BitVec.ofNat 64 base).toNat = value.toNat / base := by
        rw [BitVec.toNat_udiv, hbaseNat]
      have hmod : Int64.toI32 (value % BitVec.ofNat 64 base) = value.toNat % base := by
        have hlt := Nat.mod_lt value.toNat (show 0 < base by omega)
        rw [Int64.toI32, Int64.low, BitVec.toNat_umod, hbaseNat, Nat.mod_eq_of_lt (by omega),
          Nat.mod_eq_of_lt (by omega)]
      rw [Nat.digits_def' hb hpos, ← hdiv, ← ih]
      · simp only [Bool.not_false, if_true, hmod]
      · rw [hdiv]
        rw [pow_succ, Nat.mul_comm] at h
        exact Nat.div_lt_of_lt_mul h

theorem isSigned_byte (l : Letter) : isSigned l.byte = l.signed := by cases l <;> rfl

theorem baseOf_byte (l : Letter) : baseOf l.byte = l.base := by cases l <;> rfl

theorem base_bounds (l : Letter) : 8 ≤ l.base ∧ l.base < 2 ^ 31 := by cases l <;> decide

/-- The magnitude of a two's complement number. -/
theorem magnitude {n : Nat} (v : BitVec n) : (if v.toInt < 0 then -v else v).toNat = v.toInt.natAbs := by
  have hlt := v.isLt
  have hint := BitVec.toInt_eq_toNat_cond v
  have hneg := BitVec.toNat_neg v
  generalize 2 ^ n = N at hlt hint hneg
  by_cases hsmall : 2 * v.toNat < N
  · rw [if_pos hsmall] at hint
    rw [if_neg (by omega), hint, Int.natAbs_natCast]
  · rw [if_neg hsmall] at hint
    rw [if_pos (by omega), hneg, Nat.mod_eq_of_lt (by omega), hint]
    omega

theorem negated_eq (high low : BitVec 32) : negated high low = -(high ++ low) := by
  have hhigh := high.isLt
  have hlow := low.isLt
  have happend : ∀ a b : BitVec 32, (a ++ b).toNat = a.toNat * 2 ^ 32 + b.toNat := by
    intro a b
    rw [BitVec.toNat_append, Nat.shiftLeft_eq, ← Nat.shiftLeft_eq, Nat.shiftLeft_add_eq_or_of_lt b.isLt]
  apply BitVec.eq_of_toNat_eq
  unfold negated
  dsimp only
  have hone : (1 : BitVec 32).toNat = 1 := rfl
  have hcarry : (~~~low + 1 = 0) ↔ low.toNat = 0 := by
    rw [← BitVec.toNat_inj, BitVec.toNat_add, BitVec.toNat_not, hone, show (0 : BitVec 32).toNat = 0 from rfl]
    omega
  rw [happend, BitVec.toNat_neg, happend, BitVec.toNat_add, BitVec.toNat_not]
  by_cases hzero : low.toNat = 0
  · rw [if_pos (hcarry.mpr hzero), BitVec.toNat_add, BitVec.toNat_not, hone]
    omega
  · rw [if_neg (fun h => hzero (hcarry.mp h)), BitVec.toNat_not, hone]
    omega

theorem argument_wide (E : Env) {m : Modifier} (hm : m.words = 2) (signed : Bool) (taken : Nat) :
    argument E m signed taken = if signed then (E.pair taken).toInt else (E.pair taken).toNat := by
  cases m with
  | ll => simp [argument, Modifier.words, Modifier.bits]
  | j => simp [argument, Modifier.words, Modifier.bits]
  | none | hh | h | l | z | t => exact absurd hm (by decide)

theorem narrow_eq (hmod : Nat) (l : Letter) (w : BitVec 32) : narrow hmod l.byte w =
    if hmod = 1 then if l.signed then (w.setWidth 16).signExtend 32 else (w.setWidth 16).setWidth 32
    else if hmod = 2 then if l.signed then (w.setWidth 8).signExtend 32 else (w.setWidth 8).setWidth 32
    else w := by
  rw [narrow, isSigned_byte]

/-- An argument of one word, as `h` and `hh` leave it. -/
theorem argument_narrow (E : Env) {m : Modifier} (hm : m.words ≠ 2) (l : Letter) (taken : Nat) :
    argument E m l.signed taken =
      if l.signed then (narrow m.hmod l.byte (E.word taken)).toInt else
        (narrow m.hmod l.byte (E.word taken)).toNat := by
  have hword : ∀ k, k ≤ 32 → ((E.word taken).setWidth 64).setWidth k = (E.word taken).setWidth k := by
    intro k hk
    exact BitVec.setWidth_setWidth_of_le _ (by omega)
  have hnarrow := narrow_eq m.hmod l (E.word taken)
  unfold argument
  rw [if_neg hm]
  cases m with
  | ll | j => exact absurd rfl hm
  | hh =>
    have hlow := hword 8 (by omega)
    rw [hnarrow]
    cases l.signed with
    | true => exact (congrArg BitVec.toInt hlow).trans (BitVec.toInt_signExtend_of_le (by omega)).symm
    | false => exact congrArg _ ((congrArg BitVec.toNat hlow).trans (BitVec.toNat_setWidth_of_le (by omega)).symm)
  | h =>
    have hlow := hword 16 (by omega)
    rw [hnarrow]
    cases l.signed with
    | true => exact (congrArg BitVec.toInt hlow).trans (BitVec.toInt_signExtend_of_le (by omega)).symm
    | false => exact congrArg _ ((congrArg BitVec.toNat hlow).trans (BitVec.toNat_setWidth_of_le (by omega)).symm)
  | none | l | z | t =>
    have hlow := (hword 32 le_rfl).trans (BitVec.setWidth_eq _)
    rw [hnarrow]
    cases l.signed with
    | true => exact congrArg BitVec.toInt hlow
    | false => exact congrArg _ (congrArg BitVec.toNat hlow)

/-- The sign and the magnitude of an argument. -/
theorem integer_eq (E : Env) {s : Spec} {m : Modifier} (hlng : s.lng = m.lng) (hhmod : s.hmod = m.hmod) (l : Letter)
    (taken : Nat) :
    integer E s l.byte taken =
      (decide (argument E m l.signed taken < 0), Nat.digits l.base (argument E m l.signed taken).natAbs,
        taken + m.words) := by
  obtain ⟨hbase, hsmall⟩ := base_bounds l
  have hlng2 : m.lng = 2 ↔ m.words = 2 := by cases m <;> decide
  unfold integer
  rw [hlng, hhmod, isSigned_byte, baseOf_byte]
  by_cases hwide : m.words = 2
  · have hmsb : (E.word taken).msb = decide ((E.pair taken).toInt < 0) := by
      rw [← BitVec.msb_eq_toInt, Env.pair, BitVec.msb_append]
      simp
    have hfits : ∀ v : BitVec 64, v.toNat < l.base ^ 64 := by
      intro v
      exact lt_of_lt_of_le v.isLt (Nat.pow_le_pow_left (by omega) 64)
    rw [if_pos (hlng2.mpr hwide), argument_wide E hwide]
    dsimp only
    rw [negated_eq, hmsb, work64_eq (by omega) hsmall 64 _ (hfits _)]
    cases l.signed with
    | true =>
      have habs := magnitude (E.pair taken)
      simp only [Bool.true_and, decide_eq_true_eq, if_true, Prod.mk.injEq, hwide, and_true, true_and]
      rw [← habs]
      rfl
    | false =>
      simp only [Bool.false_and, Bool.false_eq_true, if_false, Int.natAbs_natCast, hwide, Prod.mk.injEq, and_true]
      refine ⟨?_, rfl⟩
      simp
  · have hone : m.words = 1 := by
      cases m with
      | ll | j => exact absurd rfl hwide
      | none | hh | h | l | z | t => rfl
    have hlvalue : (if m.lng = 1 then E.word taken else narrow m.hmod l.byte (E.word taken)) =
        narrow m.hmod l.byte (E.word taken) := by
      split
      · next hlong =>
        have hzero : m.hmod = 0 := by
          cases m with
          | none | hh | h | ll | j => exact absurd hlong (by decide)
          | l | z | t => rfl
        rw [hzero]
        rfl
      · rfl
    have hfits : ∀ v : BitVec 32, v.toNat < l.base ^ 32 := by
      intro v
      exact lt_of_lt_of_le v.isLt (Nat.pow_le_pow_left (by omega) 32)
    rw [if_neg (fun h => hwide (hlng2.mp h)), argument_narrow E hwide]
    dsimp only
    rw [hlvalue, hone]
    generalize narrow m.hmod l.byte (E.word taken) = lvalue
    rw [work32_eq (by omega) 32 _ (hfits _)]
    cases l.signed with
    | true =>
      have habs := magnitude lvalue
      simp only [Bool.and_true, decide_eq_true_eq, if_true]
      rw [← habs]
    | false =>
      simp only [Bool.and_false, Bool.false_eq_true, if_false, Int.natAbs_natCast, Prod.mk.injEq, and_true]
      simp

/-! ### Layout -/

theorem digit_ne_zero (upper : Bool) {d : Nat} (h : 0 < d) (hlt : d < 16) : digit upper d ≠ ebcdic '0' := by
  have hall : ∀ upper : Bool, ∀ d : Fin 16, d ≠ 0 → digit upper d ≠ ebcdic '0' := by decide
  exact hall upper ⟨d, hlt⟩ (by intro h0; simp at h0; omega)

/-- The first digit is none or not 0. -/
theorem digits_head (w : Wanted) : w.digits.head? ≠ some (ebcdic '0') := by
  unfold Wanted.digits
  have hbase : 2 ≤ w.letter.base ∧ w.letter.base ≤ 16 := by cases w.letter <;> decide
  by_cases hzero : w.value.natAbs = 0
  · rw [hzero]
    simp
  · have hne : Nat.digits w.letter.base w.value.natAbs ≠ [] := Nat.digits_ne_nil_iff_ne_zero.mpr hzero
    have hlast := Nat.getLast_digit_ne_zero w.letter.base hzero
    have hlt := Nat.digits_lt_base (show 1 < w.letter.base by omega) (List.getLast_mem hne)
    rw [List.head?_map, List.head?_reverse, List.getLast?_eq_getLast_of_ne_nil hne, Option.map_some]
    intro heq
    exact digit_ne_zero _ (Nat.pos_of_ne_zero hlast) (by omega) (Option.some.inj heq)

/-- The leading zeros of the least number of digits, and of an octal. -/
def Wanted.zeros (w : Wanted) : Nat :=
  let nz := w.precision.getD 1 - w.digits.length
  if w.hash ∧ w.letter = .o ∧ nz = 0 then 1 else nz

theorem core_eq (w : Wanted) : w.core = List.replicate w.zeros (ebcdic '0') ++ w.digits := by
  unfold Wanted.core Wanted.zeros
  dsimp only
  cases hnz : w.precision.getD 1 - w.digits.length with
  | zero =>
    have hhead := digits_head w
    by_cases hoctal : w.hash = true ∧ w.letter = .o
    · rw [if_pos ⟨hoctal.1, hoctal.2, hhead⟩, if_pos ⟨hoctal.1, hoctal.2, rfl⟩]
      rfl
    · rw [if_neg (fun h => hoctal ⟨h.1, h.2.1⟩), if_neg (fun h => hoctal ⟨h.1, h.2.1⟩)]
  | succ nz =>
    rw [if_neg (fun h => h.2.2 rfl), if_neg (fun h => absurd h.2.2 (Nat.succ_ne_zero nz))]

theorem pad_natCast (n : Nat) (c : UInt8) : pad n c = List.replicate n c := rfl

/-- The zeros and the blanks of `__examin()`, put together as C99 has them. -/
theorem layout_eq (w : Wanted) (sgn : Bytes) (hfits : (sgn ++ w.base ++ w.core).length < 2 ^ 31)
    (hwide : w.width < 2 ^ 31) (nz y : Int)
    (hnz : nz = if w.fills ∧ toLong (w.digits.length + w.zeros + sgn.length + w.base.length) < w.width then
      (w.width : Int) - sgn.length - w.base.length - w.digits.length else w.zeros)
    (hy : y = toLong (w.digits.length + nz + sgn.length + w.base.length)) :
    (if w.minus then [] else pad (w.width - y) (ebcdic ' ')) ++ sgn ++ w.base ++ pad nz (ebcdic '0') ++ w.digits ++
      (if w.minus then pad (w.width - y) (ebcdic ' ') else []) = w.layout sgn := by
  have hlength : (sgn ++ w.base ++ w.core).length = sgn.length + w.base.length + w.zeros + w.digits.length := by
    rw [core_eq]
    simp only [List.length_append, List.length_replicate]
    omega
  have hlong : toLong (w.digits.length + w.zeros + sgn.length + w.base.length) =
      (sgn ++ w.base ++ w.core).length := by
    rw [← toLong_of_lt hfits, hlength]
    congr 1
    push_cast
    ring
  unfold Wanted.layout
  dsimp only
  generalize (sgn ++ w.base ++ w.core).length = body at hfits hlength hlong hnz ⊢
  rw [hlong] at hnz
  rw [core_eq]
  by_cases hfills : w.fills = true ∧ (body : Int) < w.width
  · rw [if_pos hfills] at hnz
    obtain ⟨hfills, hroom⟩ := hfills
    have hminus : w.minus = false := by
      unfold Wanted.fills at hfills
      simpa using (Bool.and_eq_true_iff.mp (Bool.and_eq_true_iff.mp hfills).1).2
    have hnzNat : nz = (w.width - body + w.zeros : Nat) := by omega
    have hwidth : y = w.width := by
      have hsum : (w.digits.length : Int) + nz + sgn.length + w.base.length = w.width := by omega
      rw [hy, hsum]
      exact toLong_of_lt hwide
    rw [hminus, hfills, hwidth, hnzNat, pad_natCast]
    simp only [Bool.false_eq_true, if_false, if_true, sub_self, pad, Int.toNat_zero, List.replicate_zero,
      List.nil_append,
      List.append_nil, List.replicate_add, List.append_assoc]
  · rw [if_neg hfills] at hnz
    have hbody : y = body := by rw [hy, hnz, hlong]
    have hpad : pad ((w.width : Int) - y) (ebcdic ' ') = List.replicate (w.width - body) (ebcdic ' ') := by
      have hcount : ((w.width : Int) - y).toNat = w.width - body := by omega
      rw [pad, hcount]
    rw [hpad, hnz, pad_natCast]
    by_cases hminus : w.minus = true
    · rw [if_pos hminus, if_pos hminus, if_pos hminus]
      simp
    · rw [if_neg hminus, if_neg hminus, if_neg hminus]
      by_cases hzero : w.fills = true
      · have hnone : w.width - body = 0 := by
          by_contra hroom
          exact hfills ⟨hzero, by omega⟩
        rw [if_pos hzero, hnone]
        simp
      · rw [if_neg hzero]
        simp

/-- The prefix of `__examin()` is the base. -/
theorem base_eq (w : Wanted) (x : Nat) (hx : x = w.digits.length) :
    (if w.hash = true ∧ (w.letter.byte = ebcdic 'X' ∨ w.letter.byte = ebcdic 'x') ∧ (0 : Int) < x then
      [ebcdic '0', if w.letter.byte = ebcdic 'X' then ebcdic 'X' else ebcdic 'x'] else []) = w.base := by
  have hzero : (0 : Int) < x ↔ w.value ≠ 0 := by
    rw [hx, Wanted.digits, List.length_map, List.length_reverse, Int.natCast_pos, List.length_pos_iff,
      Nat.digits_ne_nil_iff_ne_zero, Ne, Int.natAbs_eq_zero]
  unfold Wanted.base
  by_cases hhash : w.hash = true ∧ w.value ≠ 0
  · rw [if_pos hhash]
    cases hl : w.letter with
    | x => rw [if_pos ⟨hhash.1, .inr rfl, hzero.mpr hhash.2⟩, if_neg (by decide)]; rfl
    | X => rw [if_pos ⟨hhash.1, .inl rfl, hzero.mpr hhash.2⟩]; rfl
    | d | i | u | o => exact if_neg fun h => absurd h.2.1 (by decide)
  · rw [if_neg hhash]
    exact if_neg fun h => hhash ⟨h.1, hzero.mp h.2.2⟩

/-- The sign of `__examin()` is the mark, whether the conversion is signed or not. -/
theorem mark_eq {s : Spec} {w : Wanted} {m : Modifier} (h : s.Reads w m) :
    (if decide (w.value < 0) = true then [ebcdic '-'] else if s.flagPlus = true then [ebcdic '+']
      else if s.flagSpace = true then [ebcdic ' '] else []) = w.mark := by
  rw [h.plus, h.space, Wanted.mark]
  by_cases hneg : w.value < 0
  · simp [hneg]
  · cases hplus : w.plus <;> simp [hneg]

theorem precision_eq {s : Spec} {w : Wanted} {m : Modifier} (h : s.Reads w m) :
    (if w.letter.byte = ebcdic 'p' then 8 else if s.precision < 0 then 1 else s.precision) =
        ((w.precision.getD 1 : Nat) : Int) ∧
      (s.flagZero && decide (s.precision < 0)) = w.fills := by
  have hp : w.letter.byte ≠ ebcdic 'p' := by cases w.letter <;> decide
  have hprec := h.precision
  rw [if_neg hp, h.zero, Wanted.fills]
  cases hw : w.precision with
  | none =>
    rw [hw] at hprec
    simp [hprec]
  | some p =>
    rw [hw] at hprec
    replace hprec : s.precision = p := hprec
    have hnonneg : ¬ s.precision < 0 := by omega
    simp [hprec]

/-- The zeros of `__examin()`: the last of the remainders is not 0. -/
theorem zeros_eq (w : Wanted) :
    (if w.hash = true ∧ w.letter.byte = ebcdic 'o' ∧
        (if (w.digits.length : Int) < (w.precision.getD 1 : Nat) then
          ((w.precision.getD 1 : Nat) : Int) - w.digits.length else 0) = 0 ∧
        ((w.digits.length : Int) = 0 ∨ (Nat.digits w.letter.base w.value.natAbs).getLastD 0 ≠ 0) then 1
      else if (w.digits.length : Int) < (w.precision.getD 1 : Nat) then
        ((w.precision.getD 1 : Nat) : Int) - w.digits.length else 0) = (w.zeros : Nat) := by
  have hletter : w.letter.byte = ebcdic 'o' ↔ w.letter = .o := by cases w.letter <;> decide
  have hlast : (w.digits.length : Int) = 0 ∨ (Nat.digits w.letter.base w.value.natAbs).getLastD 0 ≠ 0 := by
    by_cases hzero : w.value.natAbs = 0
    · left
      rw [Wanted.digits, hzero]
      simp
    · right
      have hne : Nat.digits w.letter.base w.value.natAbs ≠ [] := Nat.digits_ne_nil_iff_ne_zero.mpr hzero
      rw [List.getLastD_eq_getLast?, List.getLast?_eq_getLast_of_ne_nil hne]
      exact Nat.getLast_digit_ne_zero w.letter.base hzero
  have hnz : (if (w.digits.length : Int) < (w.precision.getD 1 : Nat) then
      ((w.precision.getD 1 : Nat) : Int) - w.digits.length else 0) =
        (w.precision.getD 1 - w.digits.length : Nat) := by
    split <;> omega
  rw [hnz, Wanted.zeros]
  by_cases hoctal : w.hash = true ∧ w.letter = .o ∧ w.precision.getD 1 - w.digits.length = 0
  · rw [if_pos ⟨hoctal.1, hletter.mpr hoctal.2.1, by omega, hlast⟩]
    simp [hoctal]
  · rw [if_neg fun h => hoctal ⟨h.1, hletter.mp h.2.1, by omega⟩, if_neg hoctal]

theorem digits_eq (w : Wanted) :
    (Nat.digits w.letter.base w.value.natAbs).reverse.map
      (digit (w.letter.byte == ebcdic 'X' || w.letter.byte == ebcdic 'p')) = w.digits := by
  have hupper : (w.letter.byte == ebcdic 'X' || w.letter.byte == ebcdic 'p') = decide (w.letter = .X) := by
    cases w.letter <;> decide
  rw [hupper]
  rfl

/-- **What `__examin()` prints**: the layout of C99 with the mark in the place of the sign. -/
theorem examinInt_eq (E : Env) {s : Spec} {w : Wanted} {m : Modifier} (h : s.Reads w m) (taken : Nat)
    (hvalue : w.value = argument E m w.letter.signed taken) (hfits : (w.mark ++ w.base ++ w.core).length < 2 ^ 31)
    (hwide : w.width < 2 ^ 31) :
    examinInt E s w.letter.byte taken = (w.layout w.mark, taken + m.words) := by
  obtain ⟨hprec, hfills⟩ := precision_eq h
  unfold examinInt
  rw [integer_eq E h.lng h.hmod, ← hvalue]
  dsimp only
  have hlen : (Nat.digits w.letter.base w.value.natAbs).length = w.digits.length := by
    rw [Wanted.digits, List.length_map, List.length_reverse]
  rw [hprec, hfills, h.hash, base_eq w _ hlen, mark_eq h, hlen, h.width, h.minus]
  rw [zeros_eq, digits_eq]
  exact congrArg (·, taken + m.words) (layout_eq w w.mark hfits hwide _ _ rfl rfl)

/-! ### Where the sign is seen -/

/-- What stands behind the sign is digits and the `x` of the base. -/
theorem base_core_bytes (w : Wanted) : ∀ b ∈ w.base ++ w.core, b ≠ ebcdic '+' ∧ b ≠ ebcdic ' ' := by
  have hdigit : ∀ upper : Bool, ∀ d : Fin 16, digit upper d ≠ ebcdic '+' ∧ digit upper d ≠ ebcdic ' ' := by decide
  have hbase : w.letter.base ≤ 16 ∧ 1 < w.letter.base := by cases w.letter <;> decide
  have hlower : ∀ b ∈ literal "0x", b ≠ ebcdic '+' ∧ b ≠ ebcdic ' ' := by decide +kernel
  have hupper : ∀ b ∈ literal "0X", b ≠ ebcdic '+' ∧ b ≠ ebcdic ' ' := by decide +kernel
  have hprefix : ∀ b ∈ w.base, b ≠ ebcdic '+' ∧ b ≠ ebcdic ' ' := by
    unfold Wanted.base
    split
    · cases w.letter with
      | x => exact hlower
      | X => exact hupper
      | d | i | u | o => simp
    · simp
  intro b hb
  rw [core_eq] at hb
  rcases List.mem_append.mp hb with hb | hb
  · exact hprefix b hb
  · rcases List.mem_append.mp hb with hb | hb
    · rw [(List.mem_replicate.mp hb).2]
      decide
    · obtain ⟨d, hd, rfl⟩ := List.mem_map.mp hb
      have hlt := Nat.digits_lt_base hbase.2 (List.mem_reverse.mp hd)
      exact hdigit (decide (w.letter = .X)) ⟨d, by omega⟩

theorem layout_length (w : Wanted) (sgn : Bytes) :
    (w.layout sgn).length = max w.width (sgn ++ w.base ++ w.core).length := by
  unfold Wanted.layout
  dsimp only
  generalize hbody : (sgn ++ w.base ++ w.core).length = body
  simp only [List.length_append] at hbody
  split
  · simp only [List.length_append, List.length_replicate]
    omega
  · split
    · simp only [List.length_append, List.length_replicate]
      omega
    · simp only [List.length_append, List.length_replicate]
      omega

/-- A sign where none belongs is seen, but for a blank among blanks. -/
def Wanted.Unseen (w : Wanted) : Prop :=
  w.letter.signed = true ∨ w.plus = false ∧
    (w.space = false ∨
      (w.base ++ w.core).length < w.width ∧ w.fills = false ∧ (w.minus = false ∨ w.base ++ w.core = []))

/-- Without a sign there are blanks and zeros beside what stands behind it. -/
theorem layout_nil_mem (w : Wanted) {b : UInt8} (h : b ∈ w.layout []) :
    b ∈ w.base ++ w.core ∨ b = ebcdic ' ' ∨ b = ebcdic '0' := by
  have hreplicate : ∀ {n c}, b ∈ List.replicate n c → b = c := fun h => (List.mem_replicate.mp h).2
  unfold Wanted.layout at h
  dsimp only at h
  rw [List.mem_append]
  split at h
  · simp only [List.nil_append, List.mem_append] at h
    exact h.elim .inl fun h => .inr (.inl (hreplicate h))
  · split at h
    · simp only [List.nil_append, List.mem_append] at h
      rcases h with (h | h) | h
      · exact .inl (.inl h)
      · exact .inr (.inr (hreplicate h))
      · exact .inl (.inr h)
    · simp only [List.append_nil, List.mem_append] at h
      rcases h with (h | h) | h
      · exact .inr (.inl (hreplicate h))
      · exact .inl (.inl h)
      · exact .inl (.inr h)

theorem mem_layout (w : Wanted) (c : UInt8) : c ∈ w.layout [c] := by
  unfold Wanted.layout
  dsimp only
  split
  · simp
  · split <;> simp

theorem plus_seen (w : Wanted) : w.layout [ebcdic '+'] ≠ w.layout [] := by
  intro heq
  have hin := mem_layout w (ebcdic '+')
  rw [heq] at hin
  rcases layout_nil_mem w hin with h | h | h
  · exact (base_core_bytes w _ h).1 rfl
  · exact absurd h (by decide)
  · exact absurd h (by decide)

/-- A blank in front of what is laid out is one of the blanks there, or it is seen. -/
theorem space_unseen_iff (w : Wanted) : w.layout [ebcdic ' '] = w.layout [] ↔
    (w.base ++ w.core).length < w.width ∧ w.fills = false ∧ (w.minus = false ∨ w.base ++ w.core = []) := by
  have hbytes := base_core_bytes w
  have hlength := layout_length w [ebcdic ' ']
  have hlength' := layout_length w []
  simp only [List.nil_append, List.length_append, List.length_singleton] at hlength hlength'
  by_cases hroom : (w.base ++ w.core).length < w.width
  · have hroom' := hroom
    rw [List.length_append] at hroom
    obtain ⟨n, hn⟩ : ∃ n, n = w.width - (w.base.length + w.core.length) - 1 := ⟨_, rfl⟩
    have hone : w.width - ([ebcdic ' '] ++ w.base ++ w.core).length = n := by
      simp only [List.length_append, List.length_singleton]
      omega
    have hnone : w.width - (([] : Bytes) ++ w.base ++ w.core).length = n + 1 := by
      simp only [List.length_append, List.nil_append]
      omega
    unfold Wanted.layout
    dsimp only
    rw [hone, hnone, List.nil_append]
    by_cases hminus : w.minus = true
    · have hfills : w.fills = false := by simp [Wanted.fills, hminus]
      rw [if_pos hminus, if_pos hminus]
      cases hbody : w.base ++ w.core with
      | nil =>
        rw [List.append_assoc [ebcdic ' '], hbody]
        rw [hbody, List.length_nil] at hroom'
        simp [hfills, hroom', List.replicate_succ]
      | cons b t =>
        have hhead := (hbytes b (by rw [hbody]; exact List.mem_cons_self)).2
        rw [List.append_assoc [ebcdic ' '], hbody]
        constructor
        · intro heq
          exact absurd (List.cons.inj heq).1.symm hhead
        · intro h
          simp [hminus] at h
    · rw [if_neg hminus, if_neg hminus]
      by_cases hfills : w.fills = true
      · rw [if_pos hfills, if_pos hfills]
        constructor
        · intro heq
          have hhead : ([ebcdic ' '] ++ w.base ++ List.replicate n (ebcdic '0') ++ w.core).head? = some (ebcdic ' ') :=
              rfl
          rw [heq] at hhead
          cases hbase : w.base with
          | nil =>
            rw [hbase] at hhead
            exact absurd (Option.some.inj hhead) (by decide)
          | cons b t =>
            rw [hbase] at hhead
            have hne := (hbytes b (by rw [hbase]; exact List.mem_cons_self)).2
            exact absurd (Option.some.inj hhead) hne
        · intro h
          exact absurd hfills (by rw [h.2.1]; decide)
      · rw [if_neg hfills, if_neg hfills, List.replicate_succ']
        simp [hroom, hfills, hminus]
  · constructor
    · intro heq
      rw [heq, hlength'] at hlength
      rw [List.length_append] at hroom
      omega
    · exact fun h => absurd h.1 hroom

/-- The mark of an unsigned value makes no difference just if it is not seen. -/
theorem layout_mark_iff (w : Wanted) (hvalue : w.letter.signed = false → 0 ≤ w.value) :
    w.layout w.mark = w.text ↔ w.Unseen := by
  unfold Wanted.text Wanted.sign Wanted.Unseen
  cases hsigned : w.letter.signed with
  | true => simp
  | false =>
    have hneg : ¬ w.value < 0 := by
      have := hvalue hsigned
      omega
    rw [Wanted.mark, if_neg hneg]
    cases hplus : w.plus with
    | true =>
      have hseen := plus_seen w
      simp [hseen]
    | false =>
      cases hspace : w.space with
      | true =>
        have hiff := space_unseen_iff w
        simpa using hiff
      | false => simp

theorem argument_nonneg (E : Env) (m : Modifier) (taken : Nat) : 0 ≤ argument E m false taken := by
  unfold argument
  exact Int.natCast_nonneg _

theorem examin_int {E : Env} {f f' : Bytes} {taken taken' : Nat} {s : Spec} {conv : UInt8}
    (hparse : parse E f taken = (s, taken', conv :: f')) (hconv : isIntConv conv = true) (done : Int) :
    examin E f taken done = ⟨(examinInt E s conv taken').1, toLong (examinInt E s conv taken').1.length, [],
      (examinInt E s conv taken').2, f'⟩ := by
  unfold examin
  rw [hparse]
  exact if_pos hconv

theorem mark_length (w : Wanted) : w.mark.length ≤ w.sign.length + 1 := by
  unfold Wanted.mark
  split
  · simp
  · split
    · simp
    · split <;> simp

theorem core_length (w : Wanted) {p : Nat} (hp : w.precision = some p) : p ≤ w.core.length := by
  have hzeros : p - w.digits.length ≤ w.zeros := by
    rw [Wanted.zeros, hp, Option.getD_some]
    split <;> omega
  rw [core_eq, List.length_append, List.length_replicate]
  omega

/-- **`__examin()` prints what C99 prescribes**, for every flag, width, precision, modifier
and letter, and for every argument, just where a `+` or a blank that is to be heard only of
a signed conversion is not seen. -/
theorem examin_prescribed_iff (E : Env) (c : Conversion) (rest : Bytes) (taken : Nat) (done : Int)
    (h : (c.wanted E taken).text.length < 2 ^ 31 - 1) :
    ((examin E (c.render ++ rest) taken done).out = (c.wanted E taken).text ↔ (c.wanted E taken).Unseen) ∧
      (examin E (c.render ++ rest) taken done).taken = taken + c.args ∧
      (examin E (c.render ++ rest) taken done).rest = rest := by
  obtain ⟨w, hw⟩ : ∃ w, w = c.wanted E taken := ⟨_, rfl⟩
  have hlength : w.text.length = max w.width (w.sign ++ w.base ++ w.core).length := layout_length w w.sign
  have hmark := mark_length w
  rw [← hw] at h ⊢
  simp only [List.length_append] at hlength
  have hprec : ∀ p ∈ w.precision, p < 2 ^ 31 := by
    intro p hp
    have hcore := core_length w hp
    omega
  obtain ⟨s, hparse, hreads⟩ := parse_render E c rest taken (by rw [← hw]; omega) (by rw [← hw]; exact hprec)
  rw [← hw] at hreads
  have hletter : w.letter = c.letter := by rw [hw]; rfl
  have hvalue : w.value = argument E c.modifier w.letter.signed (taken + c.width.args + c.precision.args) := by
    rw [hletter, hw]
    rfl
  have hint := examinInt_eq E hreads (taken + c.width.args + c.precision.args) hvalue
    (by simp only [List.length_append]; omega) (by omega)
  have hconv : isIntConv c.letter.byte = true := by cases c.letter <;> decide
  have hexamin : examin E (c.render ++ rest) taken done = ⟨w.layout w.mark, toLong (w.layout w.mark).length, [],
      taken + c.width.args + c.precision.args + c.modifier.words, rest⟩ := by
    rw [hletter] at hint
    rw [examin_int hparse hconv done, hint]
  have hnonneg : w.letter.signed = false → 0 ≤ w.value := by
    intro hsigned
    rw [hvalue, hsigned]
    exact argument_nonneg ..
  rw [hexamin]
  refine ⟨layout_mark_iff w hnonneg, ?_, rfl⟩
  dsimp only
  rw [Conversion.args]
  omega

/-- `%+u`. -/
def plusUnsigned : Conversion := ⟨[.plus], .absent, .absent, .none, .u, by simp⟩

/-- At `%+u` of 7. -/
theorem examin_prescribed_plus :
    ((examin sevens (plusUnsigned.render ++ []) 0 0).out = (plusUnsigned.wanted sevens 0).text ↔
        (plusUnsigned.wanted sevens 0).Unseen) ∧
      (examin sevens (plusUnsigned.render ++ []) 0 0).taken = 0 + plusUnsigned.args ∧
      (examin sevens (plusUnsigned.render ++ []) 0 0).rest = [] :=
  examin_prescribed_iff sevens plusUnsigned [] 0 0 (by decide +kernel)

/-- `%+u` of 7 is `7`, and `__examin()` prints `+7`. -/
theorem plus_heard_of_unsigned : ¬ ∀ (E : Env) (c : Conversion) (rest : Bytes) (taken : Nat) (done : Int),
    (c.wanted E taken).text.length < 2 ^ 31 - 1 →
      (examin E (c.render ++ rest) taken done).out = (c.wanted E taken).text := by
  intro h
  have htext := h sevens plusUnsigned [] 0 0 (by decide +kernel)
  have hdiffer : (examin sevens (plusUnsigned.render ++ []) 0 0).out ≠ (plusUnsigned.wanted sevens 0).text := by
    decide +kernel
  exact hdiffer htext

end Libc370.Printf
