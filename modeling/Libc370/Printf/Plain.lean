import Libc370.Printf.Integers

/-! Integers printed by a plain specification.

Without flags, a width and a precision `snprintf()` prints the sign of a negative value
and its digits, and the first digit is a 0 only if the value is (`figures`). The drivers
print `%d` by themselves and leave the others to `__examin()`; there is no difference. -/
namespace Libc370.Printf

open Stdio Loop

theorem absent_ok : ∀ ds, Amount.absent = .digits ds → ds.head? ≠ some 0 := fun _ h => by cases h

/-- A specification with nothing but its modifier and its letter. -/
def plain (m : Modifier) (l : Letter) : Conversion := ⟨[], .absent, .absent, m, l, absent_ok⟩

/-- The format that is just that specification. -/
def plainFormat (m : Modifier) (l : Letter) : CString :=
  ⟨ebcdic '%' :: (plain m l).render, by cases m <;> cases l <;> decide⟩

/-- The digits of a number, the first one first. -/
def figures (base n : Nat) : List Nat := if n = 0 then [0] else (Nat.digits base n).reverse

/-- What a plain specification prints of a value. -/
def plainText (l : Letter) (v : Int) : Bytes :=
  (if v < 0 then [ebcdic '-'] else []) ++ (figures l.base v.natAbs).map (digit (l = .X))

/-! ### Digits -/

theorem figures_lt {base : Nat} (hb : 1 < base) (n : Nat) : ∀ d ∈ figures base n, d < base := by
  unfold figures
  intro d hd
  split at hd
  · rw [List.mem_singleton.mp hd]
    omega
  · exact Nat.digits_lt_base hb (List.mem_reverse.mp hd)

theorem figures_length {base : Nat} (hb : 1 < base) {n k : Nat} (hk : 0 < k) (h : n < base ^ k) :
    0 < (figures base n).length ∧ (figures base n).length ≤ k := by
  unfold figures
  split
  · exact ⟨Nat.one_pos, hk⟩
  · next hn =>
    rw [List.length_reverse]
    have hne := Nat.digits_ne_nil_iff_ne_zero (b := base).mpr hn
    exact ⟨List.length_pos_iff.mpr hne, (Nat.digits_length_le_iff hb n).mpr h⟩

theorem figures_foldl {base : Nat} (n : Nat) : (figures base n).foldl (fun x d => x * base + d) 0 = n := by
  unfold figures
  split
  · next hn => simp [hn]
  · rw [List.foldl_reverse]
    have hdigits := Nat.ofDigits_digits base n
    rw [Nat.ofDigits_eq_foldr] at hdigits
    conv_rhs => rw [← hdigits]
    congr 1
    funext d x
    rw [Nat.mul_comm, Nat.add_comm]
    rfl

/-- A first digit 0 stands alone. -/
theorem figures_head (base n : Nat) : ∃ d ds, figures base n = d :: ds ∧ (d = 0 → ds = []) := by
  unfold figures
  split
  · exact ⟨0, [], rfl, fun _ => rfl⟩
  · next hn =>
    have hne := Nat.digits_ne_nil_iff_ne_zero (b := base).mpr hn
    obtain ⟨d, ds, hds⟩ := List.exists_cons_of_ne_nil (mt List.reverse_eq_nil_iff.mp hne)
    refine ⟨d, ds, hds, fun hd => ?_⟩
    have hlast := Nat.getLast_digit_ne_zero base hn
    rw [← List.head_reverse (by rwa [ne_eq, List.reverse_eq_nil_iff])] at hlast
    simp only [hds, List.head_cons] at hlast
    exact absurd hd hlast

/-- The digits of the `do` loops. -/
theorem decimal_eq (fuel n : Nat) (hfuel : 0 < fuel) (h : n < 10 ^ fuel) :
    (decimal fuel n).reverse = (figures 10 n).map (digit false) := by
  have hpos : ∀ fuel n : Nat, 0 < n → n < 10 ^ fuel → decimal fuel n = (Nat.digits 10 n).map (digit false) := by
    intro fuel
    induction fuel with
    | zero =>
      intro n hn h
      rw [pow_zero] at h
      omega
    | succ fuel ih =>
      intro n hn h
      rw [decimal, Nat.digits_def' (by omega) hn, List.map_cons]
      congr 1
      split
      · next hmore =>
        rw [pow_succ, Nat.mul_comm] at h
        exact ih (n / 10) hmore (Nat.div_lt_of_lt_mul h)
      · next hmore =>
        rw [show n / 10 = 0 by omega, Nat.digits_zero]
        rfl
  unfold figures
  split
  · next hn =>
    obtain ⟨fuel, rfl⟩ := Nat.exists_eq_succ_of_ne_zero (Nat.pos_iff_ne_zero.mp hfuel)
    rw [hn]
    rfl
  · next hn => rw [hpos fuel n (by omega) h, List.map_reverse]

/-! ### Values -/

/-- The range of an argument. -/
theorem argument_range (E : Env) (m : Modifier) (signed : Bool) (taken : Nat) :
    if signed then -2 ^ (m.bits - 1) ≤ argument E m signed taken ∧ argument E m signed taken < 2 ^ (m.bits - 1)
    else 0 ≤ argument E m signed taken ∧ argument E m signed taken < 2 ^ m.bits := by
  unfold argument
  dsimp only
  generalize BitVec.setWidth m.bits _ = n
  cases signed with
  | true => exact ⟨BitVec.le_toInt n, BitVec.toInt_lt⟩
  | false =>
    have hlt := n.isLt
    exact ⟨Int.natCast_nonneg _, by simp only [Bool.false_eq_true, if_false]; exact_mod_cast hlt⟩

theorem argument_natAbs (E : Env) (m : Modifier) (signed : Bool) (taken : Nat) :
    (argument E m signed taken).natAbs < 2 ^ 64 := by
  have hrange := argument_range E m signed taken
  have hbits : m.bits = 8 ∨ m.bits = 16 ∨ m.bits = 32 ∨ m.bits = 64 := by cases m <;> decide
  cases signed with
  | true =>
    simp only [if_true] at hrange
    rcases hbits with hb | hb | hb | hb <;> rw [hb] at hrange <;> omega
  | false =>
    simp only [Bool.false_eq_true, if_false] at hrange
    rcases hbits with hb | hb | hb | hb <;> rw [hb] at hrange <;> omega

/-! ### The text -/

theorem plainText_length (E : Env) (m : Modifier) (l : Letter) (taken : Nat) :
    (plainText l (argument E m l.signed taken)).length ≤ 65 := by
  obtain ⟨hbase, -⟩ := base_bounds l
  have hfits : (argument E m l.signed taken).natAbs < l.base ^ 64 :=
    (argument_natAbs E m l.signed taken).trans_le (Nat.pow_le_pow_left (by omega) 64)
  have hlength := (figures_length (by omega) (by omega) hfits).2
  rw [plainText, List.length_append, List.length_map]
  split
  · rw [List.length_singleton]
    omega
  · rw [List.length_nil]
    omega

/-- The digits that C99 prescribes, without flags and a precision. -/
theorem plain_core (E : Env) (m : Modifier) (l : Letter) :
    ((plain m l).wanted E 0).core = (figures l.base (argument E m l.signed 0).natAbs).map (digit (l = .X)) := by
  have hdigits : ((plain m l).wanted E 0).digits =
      (Nat.digits l.base (argument E m l.signed 0).natAbs).reverse.map (digit (l = .X)) := rfl
  have hhash : ((plain m l).wanted E 0).hash = false := rfl
  have hprec : ((plain m l).wanted E 0).precision = none := rfl
  unfold Wanted.core
  dsimp only
  rw [hhash, if_neg (by simp), hdigits, hprec, Option.getD_none, figures]
  split
  · next hzero =>
    rw [hzero]
    cases l <;> rfl
  · next hn =>
    have hne := Nat.digits_ne_nil_iff_ne_zero (b := l.base).mpr hn
    have hpos := List.length_pos_iff.mpr hne
    rw [List.length_map, List.length_reverse, Nat.sub_eq_zero_of_le (by omega)]
    rfl

/-- What C99 prescribes for a plain specification. -/
theorem plain_text (E : Env) (m : Modifier) (l : Letter) :
    ((plain m l).wanted E 0).text = plainText l (argument E m l.signed 0) := by
  have hlayout : ∀ sgn, ((plain m l).wanted E 0).layout sgn = sgn ++ ((plain m l).wanted E 0).core := by
    intro sgn
    have hbase : ((plain m l).wanted E 0).base = [] := if_neg (by simp [Conversion.wanted, plain])
    have hminus : ((plain m l).wanted E 0).minus = false := rfl
    have hfills : ((plain m l).wanted E 0).fills = false := rfl
    have hwidth : ((plain m l).wanted E 0).width = 0 := rfl
    unfold Wanted.layout
    dsimp only
    rw [hminus, hfills, hbase, hwidth, Nat.zero_sub]
    simp
  have hsign : ((plain m l).wanted E 0).sign =
      if argument E m l.signed 0 < 0 then [ebcdic '-'] else [] := by
    show (if l.signed = true then (if argument E m l.signed 0 < 0 then _ else _) else _) = _
    cases hsigned : l.signed with
    | true => rfl
    | false =>
      have hnonneg := argument_nonneg E m 0
      exact (if_neg Bool.false_ne_true).trans (if_neg (by omega)).symm
  rw [Wanted.text, hlayout, hsign, plain_core]
  rfl

/-- `__examin()` prints it. -/
theorem examin_plain (E : Env) (m : Modifier) (l : Letter) (done : Int) :
    (examin E (plain m l).render 0 done).out = plainText l (argument E m l.signed 0) ∧
      (examin E (plain m l).render 0 done).rest = [] := by
  have hlength := plainText_length E m l 0
  have hfits : ((plain m l).wanted E 0).text.length < 2 ^ 31 - 1 := by
    rw [plain_text]
    omega
  obtain ⟨hiff, -, hrest⟩ := examin_prescribed_iff E (plain m l) [] 0 done hfits
  rw [List.append_nil] at hiff hrest
  refine ⟨(hiff.mpr (.inr ⟨rfl, .inl rfl⟩)).trans (plain_text E m l), hrest⟩

/-- A plain `%d` of the drivers. -/
theorem decText_eq (E : Env) : decText (E.word 0) = plainText .d (argument E .none true 0) := by
  have hword : argument E .none true 0 = (E.word 0).toInt := by
    show (((E.word 0).setWidth 64).setWidth 32).toInt = _
    rw [BitVec.setWidth_setWidth_of_le _ (by omega), BitVec.setWidth_eq]
  have habs := argument_natAbs E .none true 0
  have hmagnitude := magnitude (E.word 0)
  have hlt := (E.word 0).isLt
  have hint := BitVec.le_toInt (E.word 0)
  have hint' := BitVec.toInt_lt (x := E.word 0)
  unfold decText plainText
  dsimp only
  rw [hword, List.reverse_append, hmagnitude, decimal_eq 10 _ (by omega) (by omega)]
  congr 1
  split <;> rfl

/-- **What a plain specification means**: the text of its argument. -/
theorem meaning_plain (E : Env) (m : Modifier) (l : Letter) :
    (meaning E (plainFormat m l).1).text = plainText l (argument E m l.signed 0) := by
  obtain ⟨hout, hrest⟩ := examin_plain E m l (toLong 0)
  have hpiece : (piece E 0 (toLong 0) (ebcdic '%') (plain m l).render).text = plainText l (argument E m l.signed 0) ∧
      (piece E 0 (toLong 0) (ebcdic '%') (plain m l).render).rest = [] := by
    by_cases hd : m = .none ∧ l = .d
    · obtain ⟨rfl, rfl⟩ := hd
      exact ⟨decText_eq E, rfl⟩
    · have hcur : cur (plain m l).render ≠ ebcdic 'd' ∧ isCvtConv (cur (plain m l).render) = false ∧
          cur (plain m l).render ≠ ebcdic 's' ∧ cur (plain m l).render ≠ ebcdic 'c' ∧
          cur (plain m l).render ≠ ebcdic 'n' ∧ cur (plain m l).render ≠ ebcdic '%' := by
        revert hd
        cases m <;> cases l <;> decide
      obtain ⟨hd, hcvt, hs, hc, hn, hpercent⟩ := hcur
      unfold piece
      generalize examin E (plain m l).render 0 (toLong 0) = r at hout hrest ⊢
      simp only [hd, hcvt, hs, hc, hn, hpercent, hout, hrest, ne_eq, not_true_eq_false, Bool.false_eq_true, if_false,
        and_self]
  have hlast : ∀ mean : Meaning, mean.format = [] → pieceTurn E mean = .leave mean := by
    intro mean hmean
    rw [pieceTurn, hmean]
  have hfirst : ∀ f, pieceTurn E ⟨[], [], 0, ebcdic '%' :: f⟩ =
      .again (Meaning.add ⟨[], [], 0, ebcdic '%' :: f⟩ (piece E 0 (toLong 0) (ebcdic '%') f)) := fun _ => rfl
  have hformat : (plainFormat m l).1 = ebcdic '%' :: (plain m l).render := rfl
  generalize (plain m l).render = f at hpiece hformat
  unfold meaning
  rw [hformat, List.length_cons, run_again (hfirst f), run_leave (hlast _ hpiece.2)]
  exact (List.nil_append _).trans hpiece.1

/-! ### What is left in the buffer -/

/-- The byte that the stores leave at an offset from `s`. -/
def Printed.byteAt (p : Printed) (i : Nat) : UInt8 := p.writes.foldl (fun b w => if w.1 = (i : Int) then w.2 else b) 0

/-- The string that is left at `s`. -/
def Printed.string (p : Printed) : CString :=
  ⟨((List.range p.writes.length).map p.byteAt).takeWhile (· ≠ 0), fun h => by simpa using List.mem_takeWhile_imp h⟩

theorem placed_foldl (bs : Bytes) (s i : Nat) (b : UInt8) :
    (placed s bs).foldl (fun b w => if w.1 = ((s + i : Nat) : Int) then w.2 else b) b = bs.getD i b := by
  have hbelow : ∀ (bs : Bytes) (s t : Nat) (b : UInt8), t < s →
      (placed s bs).foldl (fun b w => if w.1 = (t : Int) then w.2 else b) b = b := by
    intro bs
    induction bs with
    | nil => exact fun _ _ _ _ => rfl
    | cons c bs ih =>
      intro s t b hlt
      have hrest := ih (s + 1) t b (by omega)
      rw [placed, List.foldl_cons, if_neg (by omega)]
      exact_mod_cast hrest
  induction bs generalizing s i b with
  | nil => rfl
  | cons c bs ih =>
    rw [placed, List.foldl_cons]
    cases i with
    | zero =>
      have hrest := hbelow bs (s + 1) s c (by omega)
      rw [Nat.add_zero, if_pos rfl]
      exact_mod_cast hrest
    | succ i =>
      have hrest := ih (s + 1) i b
      rw [if_neg (by omega), List.getD_cons_succ, ← hrest, show s + 1 + i = s + (i + 1) by omega]
      norm_cast

/-- A string that is stored with its NUL is left there. -/
theorem string_placed {p : Printed} {t : CString} (h : p.writes = placed 0 (t.1 ++ [0])) : p.string = t := by
  have hlength : ∀ (bs : Bytes) (s : Int), (placed s bs).length = bs.length := by
    intro bs
    induction bs with
    | nil => exact fun _ => rfl
    | cons b bs ih => exact fun s => congrArg (· + 1) (ih (s + 1))
  have hbytes : (List.range p.writes.length).map p.byteAt = t.1 ++ [0] := by
    apply List.ext_getElem
    · rw [List.length_map, List.length_range, h, hlength]
    · intro i hi hi'
      have hat := placed_foldl (t.1 ++ [0]) 0 i 0
      rw [List.getElem_map, List.getElem_range, Printed.byteAt, h]
      rw [Nat.zero_add, List.getD_eq_getElem _ _ hi'] at hat
      exact hat
  apply Subtype.ext
  unfold Printed.string
  dsimp only
  rw [hbytes, List.takeWhile_append_of_pos]
  · simp
  · intro b hb
    have hne : b ≠ 0 := fun h0 => t.2 (h0 ▸ hb)
    simpa using hne

theorem plainText_nul (l : Letter) (v : Int) : 0 ∉ plainText l v := by
  have hdigit : ∀ upper : Bool, ∀ d : Fin 16, digit upper d ≠ 0 := by decide
  have hbase : l.base ≤ 16 ∧ 1 < l.base := by cases l <;> decide
  intro h
  rcases List.mem_append.mp h with h | h
  · split at h
    · exact absurd (List.mem_singleton.mp h) (by decide)
    · exact List.not_mem_nil h
  · obtain ⟨d, hd, hzero⟩ := List.mem_map.mp h
    have hlt := figures_lt hbase.2 _ d hd
    exact hdigit (decide (l = .X)) ⟨d, by omega⟩ hzero

/-- **`snprintf()` of a value leaves its text**, if there was room for it. -/
theorem vsnprintf_plain (E : Env) (n : Nat) (m : Modifier) (l : Letter)
    (h : (vsnprintf E n (plainFormat m l)).count < n) :
    (vsnprintf E n (plainFormat m l)).string.1 = plainText l (argument E m l.signed 0) := by
  have hmeaning := meaning_plain E m l
  have hlength := plainText_length E m l 0
  have heq := vsnprintf_eq E n (plainFormat m l) (by rw [hmeaning]; omega)
  rw [hmeaning] at heq
  rw [heq] at h ⊢
  dsimp only at h
  have hroom : (plainText l (argument E m l.signed 0)).length ≤ n - 1 := by omega
  refine congrArg Subtype.val
    (string_placed (t := ⟨plainText l (argument E m l.signed 0), plainText_nul l _⟩) ?_)
  dsimp only
  rw [if_neg (by omega), List.take_of_length_le hroom]

end Libc370.Printf
