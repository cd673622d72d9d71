import Libc370.Printf.Plain
import Libc370.Scanf.Safety

/-! Integers that are printed and scanned back.

`vvscanf()` comes from a plain specification to its letter with the size that the modifier
makes, and its digit loop takes the digits that `snprintf()` has printed one by one
(`digits_scanned`); what it stores is the value again, in the object's bits. The two know
the same conversion letters but for `X`, which is printed and not scanned. -/
namespace Libc370.Scanf

open Stdio Loop
open Printf (Env Modifier Letter argument vsnprintf digit figures plain plainFormat plainText vsnprintf_plain
  argument_range argument_natAbs figures_lt figures_length figures_foldl figures_head base_bounds)

/-- The size that a modifier makes. -/
def sizeOf : Modifier → Size
  | .none => .none
  | .hh => .hh
  | .h => .h
  | .l | .z | .t => .l
  | .ll | .j => .ll

theorem sizeOf_bits (m : Modifier) : (sizeOf m).bits = m.bits := by cases m <;> rfl

/-- The scan has 1 item, and its store is the value. -/
structure Returns (e : Exit Nat) (addr bits : Nat) (v : Int) : Prop where
  fault : e.fault = none
  value : e.value = 1
  stores : e.scan.stores = [.int addr bits v]

/-! ### The input -/

/-- The scan with `r` the rest of the string, its first character in `ch`. -/
def Scan.facing (s : Scan Nat) (input r : Bytes) : Scan Nat :=
  {s with ch := ((r.headD 0).toNat : Int), src := input.length - r.length + 1}

variable {input r : Bytes}

theorem inch_facing {b : UInt8} (h : b :: r <:+ input) (s : Scan Nat) :
    inch (stringSource input) (s.facing input (b :: r)) = .ok (s.facing input r) := by
  obtain ⟨pre, rfl⟩ := h
  have hsrc : (pre ++ b :: r).length - (b :: r).length + 1 = pre.length + 1 := by
    rw [List.length_append]
    omega
  have hsrc' : (pre ++ b :: r).length - r.length + 1 = pre.length + 1 + 1 := by
    rw [List.length_append, List.length_cons]
    omega
  have hchar : (pre ++ b :: r).getD (pre.length + 1) 0 = r.headD 0 := by
    rw [List.getD_eq_getElem?_getD, List.getElem?_append_right (by omega), Nat.add_sub_cancel_left,
      List.headD_eq_head?_getD]
    cases r <;> rfl
  have hget : (stringSource (pre ++ b :: r)).getc (pre.length + 1) =
      .ok (((r.headD 0).toNat : Int), pre.length + 1 + 1) := by
    have hle : pre.length + 1 ≤ (pre ++ b :: r).length := by
      rw [List.length_append, List.length_cons]
      omega
    simp only [stringSource, if_pos hle, hchar]
  unfold inch Scan.facing
  dsimp only
  rw [hsrc, hsrc', hget]

/-- The first `inch()`. -/
theorem inch_start (format input : Bytes) :
    inch (stringSource input) (.start format 0) = .ok ((Scan.start format 0).facing input input) := by
  have hchar : input.getD 0 0 = input.headD 0 := by cases input <;> rfl
  have hget : (stringSource input).getc 0 = .ok (((input.headD 0).toNat : Int), 1) := by
    simp only [stringSource, if_pos (Nat.zero_le _), hchar]
  unfold inch Scan.facing
  rw [show (Scan.start format 0).src = 0 from rfl, hget, Nat.sub_self]

theorem atEnd_facing (s : Scan Nat) (h : r.headD 0 ≠ 0) : atEnd (stringSource input) (s.facing input r) = false := by
  have hne : ((r.headD 0).toNat : Int) ≠ 0 := by
    intro hzero
    exact h (UInt8.toNat_inj.mp (Int.natCast_eq_zero.mp hzero))
  simpa [atEnd, stringSource, Scan.facing] using hne

theorem atEnd_nil (s : Scan Nat) : atEnd (stringSource input) (s.facing input []) = true := rfl

/-! ### The digits -/

/-- What the scanner has to know of a digit. -/
theorem digit_facts (d : Fin 16) : digval ((digit false d).toNat : Int) = d ∧ digit false d ≠ 0 ∧
    digit false d ≠ ebcdic 'x' ∧ digit false d ≠ ebcdic 'X' ∧ digit false d ≠ ebcdic '-' ∧ digit false d ≠ ebcdic '+' ∧
    isspace ((digit false d).toNat : Int) = false ∧ (digit false d = ebcdic '0' ↔ d = 0) := by
  revert d
  decide

theorem toNat_ne {b c : UInt8} (h : b ≠ c) : ((b.toNat : Nat) : Int) ≠ (c.toNat : Nat) :=
  fun heq => h (UInt8.toNat_inj.mp (Int.natCast_inj.mp heq))

/-- One digit below the base, which a first digit may have settled. -/
theorem digitTurn_digit {d : Nat} (h16 : d < 16) (g : Digits) (hd : d < (g.settled (digit false d).toNat).base)
    (h : digit false d :: r <:+ input) (s : Scan Nat) (hw : 0 < s.width) :
    digitTurn (stringSource input) (g, s.facing input (digit false d :: r)) =
      .again ({g.settled (digit false d).toNat with
        x := (g.x * (g.settled (digit false d).toNat).base + d) % 2 ^ 64, mcnt := g.mcnt + 1},
        (s.withLocals s.narrowed).facing input r) := by
  obtain ⟨hval, hne, hx, hX, -⟩ := digit_facts ⟨d, h16⟩
  dsimp only at hval hne hx hX
  have hmore : (decide (0 < (s.facing input (digit false d :: r)).width) &&
      !atEnd (stringSource input) (s.facing input (digit false d :: r))) = true := by
    rw [atEnd_facing (r := digit false d :: r) s hne]
    exact (Bool.and_true _).trans (decide_eq_true hw)
  have hch : (s.facing input (digit false d :: r)).ch = ((digit false d).toNat : Int) := rfl
  have hbase : ¬ (g.base = 0 ∧ 10 ≤ d) := by
    rintro ⟨hzero, hten⟩
    unfold Digits.settled at hd
    rw [if_pos hzero] at hd
    split at hd
    · dsimp only at hd
      omega
    · dsimp only at hd
      omega
  have hsettled : ∀ ch, (g.settled ch).x = g.x ∧ (g.settled ch).mcnt = g.mcnt := by
    intro ch
    unfold Digits.settled
    split
    · split <;> exact ⟨rfl, rfl⟩
    · exact ⟨rfl, rfl⟩
  have hinch := inch_facing h (s.withLocals s.narrowed)
  unfold digitTurn
  dsimp only
  rw [if_pos hmore, hch, if_neg (fun hxs => hxs.1.elim (toNat_ne hx) (toNat_ne hX)), hval, if_neg hbase,
    if_neg (by omega),
    (hsettled _).1, (hsettled _).2]
  unfold inchAgain
  rw [show (s.facing input (digit false d :: r)).withLocals (s.facing input (digit false d :: r)).narrowed =
    (s.withLocals s.narrowed).facing input (digit false d :: r) from rfl, hinch]

/-- The scan behind `n` characters of an item. -/
def Scan.narrowedBy (s : Scan Nat) (n : Nat) : Scan Nat := s.withLocals {s.toLocals with width := s.width - n}

theorem narrowedBy_succ (s : Scan Nat) (n : Nat) : (s.withLocals s.narrowed).narrowedBy n = s.narrowedBy (n + 1) := by
  have hwidth : s.width - 1 - (n : Int) = s.width - (n + 1 : Nat) := by omega
  simp only [Scan.narrowedBy, Scan.withLocals, Locals.narrowed, hwidth]

/-- **The digit loop takes digits below its base**, up to the end of the string. -/
theorem digits_scanned (ds : List Nat) (h16 : ∀ d ∈ ds, d < 16) (g : Digits) (hds : ∀ d ∈ ds, d < g.base)
    (h : ds.map (digit false) <:+ input) (s : Scan Nat) (hw : ds.length < s.width) {k : Nat} (hk : ds.length < k) :
    loop k (digitTurn (stringSource input)) g (s.facing input (ds.map (digit false))) =
      .ok ({g with x := ds.foldl (fun x d => (x * g.base + d) % 2 ^ 64) g.x, mcnt := g.mcnt + ds.length},
        (s.narrowedBy ds.length).facing input []) := by
  induction ds generalizing g s k with
  | nil =>
    obtain ⟨k, rfl⟩ := Nat.exists_eq_succ_of_ne_zero (Nat.pos_iff_ne_zero.mp hk)
    have hend : digitTurn (stringSource input) (g, s.facing input []) = .leave (.ok (g, s.facing input [])) := by
      unfold digitTurn
      dsimp only
      rw [atEnd_nil, Bool.not_true, Bool.and_false, if_neg Bool.false_ne_true]
    refine (run_leave hend k).trans ?_
    simp [Scan.narrowedBy, Scan.withLocals]
  | cons d ds ih =>
    obtain ⟨k, rfl⟩ := Nat.exists_eq_succ_of_ne_zero (Nat.pos_iff_ne_zero.mp ((Nat.zero_le _).trans_lt hk))
    rw [List.length_cons] at hw hk
    have hd := hds d List.mem_cons_self
    have hsettled : g.settled (digit false d).toNat = g := if_neg (by omega)
    have hturn := digitTurn_digit (h16 d List.mem_cons_self) g (by rw [hsettled]; exact hd) h s (by omega)
    rw [hsettled] at hturn
    have hrest := ih (fun d' hd' => h16 d' (List.mem_cons_of_mem _ hd'))
      {g with x := (g.x * g.base + d) % 2 ^ 64, mcnt := g.mcnt + 1} (fun d' hd' => hds d' (List.mem_cons_of_mem _ hd'))
      ((List.suffix_cons _ _).trans h) (s.withLocals s.narrowed)
      (by show (ds.length : Int) < s.width - 1; omega) (k := k) (by omega)
    refine (run_again hturn k).trans (hrest.trans ?_)
    have hmcnt : g.mcnt + 1 + ds.length = g.mcnt + (ds.length + 1) := by omega
    dsimp only
    rw [narrowedBy_succ, List.foldl_cons, List.length_cons, hmcnt]

/-- The digits of a number, with the base that the letter has or its first digit makes. -/
theorem figures_scanned {base n : Nat} (hb : 1 < base) (hb16 : base ≤ 16) (hn : n < 2 ^ 64) {b : Nat}
    (hbase : b = base ∨ b = 0 ∧ base = 10) (h : (figures base n).map (digit false) <:+ input) (s : Scan Nat)
    (hw : (figures base n).length < s.width) {k : Nat} (hk : (figures base n).length < k) :
    ∃ g, loop k (digitTurn (stringSource input)) ⟨b, b = 0, 0,
      0⟩ (s.facing input ((figures base n).map (digit false))) =
      .ok (g, (s.narrowedBy (figures base n).length).facing input []) ∧ g.x = n ∧ g.mcnt ≠ 0 := by
  have hlt := figures_lt hb n
  have hfoldl : ∀ (ds : List Nat) (x : Nat), ds.foldl (fun x d => (x * base + d) % 2 ^ 64) (x % 2 ^ 64) =
      ds.foldl (fun x d => x * base + d) x % 2 ^ 64 := by
    intro ds
    induction ds with
    | nil => exact fun _ => rfl
    | cons d ds ih =>
      intro x
      rw [List.foldl_cons, List.foldl_cons, ← ih, Nat.add_mod, Nat.mul_mod, Nat.mod_mod, ← Nat.mul_mod, ← Nat.add_mod]
  have hvalue : (figures base n).foldl (fun x d => (x * base + d) % 2 ^ 64) 0 = n := by
    have hmod := hfoldl (figures base n) 0
    rw [figures_foldl, Nat.mod_eq_of_lt hn] at hmod
    exact hmod
  rcases hbase with rfl | ⟨rfl, rfl⟩
  · refine ⟨_, digits_scanned (figures b n) (fun d hd => (hlt d hd).trans_le hb16) _ hlt h s hw hk, hvalue, ?_⟩
    obtain ⟨d, ds, hds, -⟩ := figures_head b n
    rw [hds, List.length_cons]
    dsimp only
    omega
  · obtain ⟨d, ds, hds, hzero⟩ := figures_head 10 n
    rw [hds] at h hw hk hlt hvalue ⊢
    rw [List.length_cons] at hw hk
    obtain ⟨k, rfl⟩ := Nat.exists_eq_succ_of_ne_zero (Nat.pos_iff_ne_zero.mp ((Nat.zero_le _).trans_lt hk))
    have hd := hlt d List.mem_cons_self
    obtain ⟨-, -, -, -, -, -, -, h0⟩ := digit_facts ⟨d, by omega⟩
    have hch : ((digit false d).toNat : Int) = (ebcdic '0').toNat ↔ d = 0 := by
      constructor
      · intro heq
        have := h0.mp (UInt8.toNat_inj.mp (Int.natCast_inj.mp heq))
        exact congrArg Fin.val this
      · rintro rfl
        rfl
    -- a 0 makes the base 8, and is the last digit
    have hsettled : (Digits.settled ⟨0, true, 0, 0⟩ (digit false d).toNat).base = if d = 0 then 8 else 10 := by
      unfold Digits.settled
      rw [if_pos rfl]
      by_cases hd0 : d = 0
      · rw [if_pos (hch.mpr hd0), if_pos hd0]
      · rw [if_neg (mt hch.mp hd0), if_neg hd0]
    have hturn := digitTurn_digit (r := ds.map (digit false)) (d := d) (by omega) ⟨0, true, 0, 0⟩
      (by rw [hsettled]; split <;> omega) h s (by omega)
    obtain ⟨g, hg⟩ : ∃ g, g = {Digits.settled ⟨0, true, 0, 0⟩ (digit false d).toNat with
        x := (0 * (Digits.settled ⟨0, true, 0, 0⟩ (digit false d).toNat).base + d) % 2 ^ 64, mcnt := 0 + 1} := ⟨_, rfl⟩
    have hgbase : g.base = if d = 0 then 8 else 10 := by rw [hg, ← hsettled]
    have hgx : g.x = d := by
      rw [hg]
      dsimp only
      rw [Nat.zero_mul, Nat.zero_add, Nat.mod_eq_of_lt (by omega)]
    have hgmcnt : g.mcnt = 1 := by rw [hg]
    have hbelow : ∀ d' ∈ ds, d' < g.base := by
      intro d' hd'
      rw [hgbase]
      split
      · next hd0 =>
        rw [hzero hd0] at hd'
        exact absurd hd' List.not_mem_nil
      · exact hlt d' (List.mem_cons_of_mem _ hd')
    have hrest := digits_scanned ds (fun d' hd' => (hlt d' (List.mem_cons_of_mem _ hd')).trans (by omega))
      g hbelow ((List.suffix_cons _ _).trans h) (s.withLocals s.narrowed)
      (by show (ds.length : Int) < s.width - 1; omega) (k := k) (by omega)
    rw [narrowedBy_succ] at hrest
    rw [hg] at hrest
    refine ⟨_, (run_again hturn k).trans hrest, ?_, ?_⟩
    · rw [← hg]
      dsimp only
      rw [hgx]
      rw [List.foldl_cons, Nat.zero_mul, Nat.zero_add, Nat.mod_eq_of_lt (by omega)] at hvalue
      cases hd0 : decide (d = 0) with
      | true =>
        rw [hzero (of_decide_eq_true hd0)] at hvalue ⊢
        exact hvalue
      | false =>
        rw [hgbase, if_neg (of_decide_eq_false hd0)]
        exact hvalue
    · rw [← hg]
      dsimp only
      omega

/-! ### The item -/

theorem skipSpaces_none {σ : Type} (S : Source σ) {s : Scan σ} (h : isspace s.ch = false) (k : Nat) :
    skipSpaces S (k + 1) s = .ok s := by
  have hturn : spaceTurn S ((), s) = .leave (.ok ((), s)) := by
    unfold spaceTurn
    dsimp only
    rw [h, Bool.and_false]
    rfl
  unfold skipSpaces loop
  rw [run_leave hturn]
  rfl

/-- What is left of a text behind its sign. -/
theorem scanSign_text (neg : Bool) {c : UInt8} (hminus : c ≠ ebcdic '-') (hplus : c ≠ ebcdic '+')
    (h : (if neg then [ebcdic '-'] else []) ++ c :: r <:+ input) (s : Scan Nat) :
    ∃ w, s.width - 1 ≤ w ∧ scanSign (stringSource input)
      (s.facing input ((if neg then [ebcdic '-'] else []) ++ c :: r)) =
      .ok (neg, (s.withLocals {s.toLocals with width := w}).facing input (c :: r)) := by
  cases neg with
  | true =>
    have hinch := inch_facing h (s.withLocals s.narrowed)
    refine ⟨s.width - 1, le_rfl, ?_⟩
    unfold scanSign
    rw [if_pos (.inl rfl)]
    exact congrArg (fun x : Part Nat (Scan Nat) => x >>= fun s => .ok (true, s)) hinch
  | false =>
    refine ⟨s.width, by omega, ?_⟩
    exact if_neg fun hsign => hsign.elim (toNat_ne hminus) (toNat_ne hplus)

/-- What an integer item stores of the value's digits and sign. -/
theorem storedInt_eq (E : Env) (m : Modifier) (l : Letter) {v : Int} (hv : v = argument E m l.signed 0) :
    storedInt l.byte (sizeOf m) (if v < 0 then (2 ^ 64 - v.natAbs) % 2 ^ 64 else v.natAbs) = v := by
  have hrange := argument_range E m l.signed 0
  have hbits : m.bits = 8 ∨ m.bits = 16 ∨ m.bits = 32 ∨ m.bits = 64 := by cases m <;> decide
  have hsigned : (l.byte = ebcdic 'd' ∨ l.byte = ebcdic 'i') ↔ l.signed = true := by cases l <;> decide
  rw [← hv] at hrange
  unfold storedInt
  rw [sizeOf_bits]
  cases hl : l.signed with
  | true =>
    rw [if_pos (hsigned.mpr hl)]
    simp only [hl, if_true] at hrange
    have hmod : ((if v < 0 then (2 ^ 64 - v.natAbs) % 2 ^ 64 else v.natAbs : Nat) : Int) = if v <
        0 then v + 2 ^ 64 else v := by
      rcases hbits with hb | hb | hb | hb <;> rw [hb] at hrange <;> split <;> omega
    rw [hmod]
    rw [Int.bmod_def]
    rcases hbits with hb | hb | hb | hb <;> rw [hb] at hrange ⊢ <;> split <;> split <;> omega
  | false =>
    rw [if_neg (by simp [hsigned, hl])]
    simp only [hl, Bool.false_eq_true, if_false] at hrange
    rw [if_neg (by omega)]
    rcases hbits with hb | hb | hb | hb <;> rw [hb] at hrange ⊢ <;> omega

/-- **The item takes the text of a value and stores the value.** -/
theorem scanInt_text (E : Env) (m : Modifier) {l : Letter} (hl : l ≠ .X) (arg : Nat → Nat) (s : Scan Nat)
    (hformat : s.format = [l.byte]) (hsize : s.size = sizeOf m) (hskip : s.skipvar = false) (hwidth : s.width = noWidth)
    {v : Int} (hv : v = argument E m l.signed 0) :
    ∃ s', scanInt (stringSource (plainText l v)) arg ((plainText l v).length + 1)
      (s.facing (plainText l v) (plainText l v)) =
      .ok s' ∧ s'.format = [l.byte] ∧ s'.cnt = s.cnt + 1 ∧
        s'.stores = s.stores ++ [.int (arg s.taken) m.bits v] := by
  obtain ⟨hbase, -⟩ := base_bounds l
  have hbase16 : l.base ≤ 16 := by cases l <;> decide
  have hn : v.natAbs < 2 ^ 64 := by
    rw [hv]
    exact argument_natAbs E m l.signed 0
  have hlength := figures_length (show 1 < l.base by omega) (by omega)
    (hn.trans_le (Nat.pow_le_pow_left (show 2 ≤ l.base by omega) 64))
  have htext : plainText l v =
      (if decide (v < 0) then [ebcdic '-'] else []) ++ (figures l.base v.natAbs).map (digit false) := by
    have hlower : decide (l = .X) = false := decide_eq_false hl
    unfold plainText
    rw [hlower]
    simp only [decide_eq_true_eq]
  obtain ⟨d, ds, hds, -⟩ := figures_head l.base v.natAbs
  have hd16 : d < 16 := by
    have hd := figures_lt (show 1 < l.base by omega) v.natAbs d (by rw [hds]; exact List.mem_cons_self)
    omega
  obtain ⟨-, -, -, -, hminus, hplus, hspace, -⟩ := digit_facts ⟨d, hd16⟩
  have hcons : (figures l.base v.natAbs).map (digit false) = digit false d :: ds.map (digit false) := by
    rw [hds, List.map_cons]
  have htextlen : (figures l.base v.natAbs).length < (plainText l v).length + 1 := by
    rw [htext, List.length_append, List.length_map]
    omega
  generalize hinput : plainText l v = input at htext htextlen ⊢
  have hch : isspace ((input.headD 0).toNat : Int) = false := by
    rw [htext, hcons]
    cases hneg : decide (v < 0) with
    | true => rfl
    | false => exact hspace
  have hbaseOf : baseOf l.byte = l.base ∨ baseOf l.byte = 0 ∧ l.base = 10 := by
    revert hl
    cases l <;> decide
  have hsuffix : (if decide (v < 0) then [ebcdic '-'] else []) ++ digit false d :: ds.map (digit false) <:+ input := by
    rw [← hcons, ← htext]
  obtain ⟨w, hw, hsign⟩ := scanSign_text (decide (v < 0)) hminus hplus hsuffix
    (s.withLocals {s.toLocals with taken := s.taken + 1})
  rw [← hcons, ← htext] at hsign
  have hfigures : (figures l.base v.natAbs).map (digit false) <:+ input := by
    rw [htext]
    exact List.suffix_append _ _
  obtain ⟨g, hloop, hx, hmcnt⟩ := figures_scanned (by omega) hbase16 hn hbaseOf hfigures
    ((s.withLocals {s.toLocals with taken := s.taken + 1}).withLocals
      {(s.withLocals {s.toLocals with taken := s.taken + 1}).toLocals with width := w})
    (by
      show ((figures l.base v.natAbs).length : Int) < w
      have hwide : s.width - 1 ≤ w := hw
      rw [hwidth, noWidth] at hwide
      omega) htextlen
  have hcur : (s.facing input input).cur = l.byte := by
    show s.format.headD 0 = l.byte
    rw [hformat]
    rfl
  have harg : vaArg arg (s.facing input input) =
      (arg s.taken, (s.withLocals {s.toLocals with taken := s.taken + 1}).facing input input) := by
    show (if s.skipvar = true then _ else _) = _
    rw [hskip]
    rfl
  have hspaces := skipSpaces_none (stringSource input)
    (s := (s.withLocals {s.toLocals with taken := s.taken + 1}).facing input input) hch input.length
  obtain ⟨t, ht⟩ : ∃ t, t = (((s.withLocals {s.toLocals with taken := s.taken + 1}).withLocals
      {(s.withLocals {s.toLocals with taken := s.taken + 1}).toLocals with width := w}).narrowedBy
        (figures l.base v.natAbs).length).facing input [] := ⟨_, rfl⟩
  rw [← ht] at hloop
  have htskip : t.skipvar = false := by
    rw [ht]
    exact hskip
  have htsize : t.size = sizeOf m := by
    rw [ht]
    exact hsize
  have hstored : storedInt l.byte t.size (if decide (v < 0) = true then (2 ^ 64 - g.x) % 2 ^ 64 else g.x) = v := by
    rw [htsize, hx]
    simp only [decide_eq_true_eq]
    exact storedInt_eq E m l hv
  obtain ⟨t', ht'⟩ : ∃ t', t' = t.put (.int (arg s.taken) m.bits v) := ⟨_, rfl⟩
  have hput : t' = {t with stores := s.stores ++ [.int (arg s.taken) m.bits v]} := by
    rw [ht', Scan.put, htskip, if_neg Bool.false_ne_true, ht]
    rfl
  refine ⟨t'.withLocals t'.counted, ?_, ?_, ?_, ?_⟩
  · unfold scanInt
    rw [hcur, harg]
    dsimp only
    rw [hspaces]
    show (scanSign _ _ >>= _) = _
    rw [hsign]
    show (loop _ _ _ _ >>= _) = _
    rw [hloop]
    show (if g.mcnt = 0 then _ else _) = _
    rw [if_neg hmcnt]
    dsimp only
    rw [hstored, htsize, sizeOf_bits, ← ht']
  · rw [hput, ht]
    exact hformat
  · rw [hput, ht]
    show s.cnt + (if s.skipvar = true then 0 else 1) = _
    rw [hskip]
    rfl
  · rw [hput]
    rfl

/-! ### The format -/

section Format
variable {σ : Type} (S : Source σ) (arg : Nat → Nat) (fuel : Nat)

/-- A turn that does a format item. -/
def itemTurn (s : Scan σ) : Turn (Scan σ) (Exit σ) :=
  match scanItem S arg fuel s with
  | .ok s => s.next
  | .error e => .leave e

/-- The scan inside an item, in front of `f`, with the size so far. -/
def Scan.inItem (s : Scan σ) (f : Bytes) (size : Size) (b : Bool) : Scan σ :=
  s.withLocals ⟨f, b, size, noWidth, false, s.cnt, s.failed, s.taken⟩

/-- The bytes that are neither a `*`, nor a digit of the width, nor a `%`. -/
def opens (c : UInt8) : Bool := c ≠ ebcdic '*' && c ≠ ebcdic '%' && !isdigit c.toNat

theorem scanTurn_percent {s : Scan σ} {c : UInt8} {f : Bytes} (hformat : s.format = ebcdic '%' :: c :: f)
    (hc : opens c = true) :
    scanTurn S arg fuel s = itemTurn S arg fuel (s.inItem (c :: f) .none s.informatitem) := by
  simp only [opens, Bool.and_eq_true, decide_eq_true_eq, Bool.not_eq_true'] at hc
  obtain ⟨⟨hstar, -⟩, hdigit⟩ := hc
  have hcur : s.cur = ebcdic '%' := by
    show s.format.headD 0 = _
    rw [hformat]
    rfl
  have hopened : s.opened = ⟨c :: f, s.informatitem, .none, noWidth, false, s.cnt, s.failed, s.taken⟩ := by
    unfold Locals.opened
    rw [if_pos hcur, hformat]
    simp [hstar, Locals.getwidth, hdigit]
  unfold scanTurn scanDirective itemTurn Scan.inItem
  rw [if_neg (by rw [hformat]; exact List.cons_ne_nil _ _), if_pos (.inl hcur)]
  simp only [hopened]
  all_goals rfl

theorem scanTurn_item {s : Scan σ} {c : UInt8} {f : Bytes} {size : Size} (hc : opens c = true) :
    scanTurn S arg fuel (s.inItem (c :: f) size true) = itemTurn S arg fuel (s.inItem (c :: f) size true) := by
  simp only [opens, Bool.and_eq_true, decide_eq_true_eq, Bool.not_eq_true'] at hc
  obtain ⟨⟨-, hpercent⟩, -⟩ := hc
  have hopened : (s.inItem (c :: f) size true).opened = (s.inItem (c :: f) size true).toLocals := if_neg hpercent
  have hne : (s.inItem (c :: f) size true).format ≠ [] := List.cons_ne_nil _ _
  unfold scanTurn scanDirective itemTurn
  rw [if_neg hne, if_pos (.inr rfl), hopened]
  rfl

theorem itemTurn_modifier {s : Scan σ} {c : UInt8} {f : Bytes} {size size' : Size} {b : Bool} (hc : opens c = true)
    (hsize : (s.inItem (c :: f) size b).modifier = some size') :
    itemTurn S arg fuel (s.inItem (c :: f) size b) = .again (s.inItem f size' true) := by
  simp only [opens, Bool.and_eq_true, decide_eq_true_eq, Bool.not_eq_true'] at hc
  obtain ⟨⟨-, hpercent⟩, -⟩ := hc
  have hcur : (s.inItem (c :: f) size b).cur = c := rfl
  unfold itemTurn scanItem
  rw [hcur, if_neg hpercent, hsize]
  rfl

/-- The scan comes to the letter with the size of the modifier. -/
theorem reaches_letter (m : Modifier) (l : Letter) (s : Scan σ) (hformat : s.format = (plainFormat m l).1)
    {stuck : Scan σ → Exit σ} :
    ∃ b u, run stuck (scanTurn S arg fuel) ((plainFormat m l).1.length + 1) s = run stuck (scanTurn S arg fuel) 3 u ∧
      scanTurn S arg fuel u = itemTurn S arg fuel (s.inItem [l.byte] (sizeOf m) b) := by
  have hopens : opens (ebcdic 'h') = true ∧ opens (ebcdic 'l') = true ∧ opens (ebcdic 'j') = true ∧
    opens (ebcdic 'z') = true ∧ opens (ebcdic 't') = true := by decide
  obtain ⟨hh, hl, hj, hz, ht⟩ := hopens
  have hletter : opens l.byte = true := by cases l <;> decide
  -- a modifier of one letter, and one of two
  have hone : ∀ (c : UInt8) (size : Size), opens c = true → s.format = ebcdic '%' :: c :: [l.byte] →
      (∀ b, (s.inItem (c :: [l.byte]) .none b).modifier = some size) →
      run stuck (scanTurn S arg fuel) 4 s = run stuck (scanTurn S arg fuel) 3 (s.inItem [l.byte] size true) := by
    intro c size hc hf hsize
    exact run_again ((scanTurn_percent S arg fuel hf hc).trans (itemTurn_modifier S arg fuel hc (hsize _))) 3
  have htwo : ∀ (c : UInt8) (size size' : Size), opens c = true → s.format = ebcdic '%' :: c :: c :: [l.byte] →
      (∀ b, (s.inItem (c :: c :: [l.byte]) .none b).modifier = some size) →
      (s.inItem (c :: [l.byte]) size true).modifier = some size' →
      run stuck (scanTurn S arg fuel) 5 s = run stuck (scanTurn S arg fuel) 3 (s.inItem [l.byte] size' true) := by
    intro c size size' hc hf hsize hsize'
    have hfirst := (scanTurn_percent S arg fuel hf hc).trans (itemTurn_modifier S arg fuel hc (hsize _))
    have hsecond : scanTurn S arg fuel (s.inItem (c :: [l.byte]) size true) = .again (s.inItem [l.byte] size' true) :=
      (scanTurn_item S arg fuel hc).trans (itemTurn_modifier S arg fuel hc hsize')
    exact (run_again hfirst 4).trans (run_again hsecond 3)
  cases m with
  | none => exact ⟨_, s, rfl, scanTurn_percent S arg fuel hformat hletter⟩
  | h => exact ⟨true, _, hone _ .h hh hformat fun _ => rfl, scanTurn_item S arg fuel hletter⟩
  | l => exact ⟨true, _, hone _ .l hl hformat fun _ => rfl, scanTurn_item S arg fuel hletter⟩
  | j => exact ⟨true, _, hone _ .ll hj hformat fun _ => rfl, scanTurn_item S arg fuel hletter⟩
  | z => exact ⟨true, _, hone _ .l hz hformat fun _ => rfl, scanTurn_item S arg fuel hletter⟩
  | t => exact ⟨true, _, hone _ .l ht hformat fun _ => rfl, scanTurn_item S arg fuel hletter⟩
  | hh => exact ⟨true, _, htwo _ .h .hh hh hformat (fun _ => rfl) rfl, scanTurn_item S arg fuel hletter⟩
  | ll => exact ⟨true, _, htwo _ .l .ll hl hformat (fun _ => rfl) rfl, scanTurn_item S arg fuel hletter⟩

/-- An item that ends at the last byte of the format ends the scan. -/
theorem run_last {u t t' : Scan σ} {c : UInt8} (hturn : scanTurn S arg fuel u = itemTurn S arg fuel t)
    (hitem : scanItem S arg fuel t = .ok t') (hformat : t'.format = [c]) {stuck : Scan σ → Exit σ} :
    run stuck (scanTurn S arg fuel) 3 u = (t'.withLocals {t'.toLocals with format := []}).done := by
  have hnext : scanTurn S arg fuel u = .again (t'.withLocals {t'.toLocals with format := []}) := by
    rw [hturn, itemTurn, hitem]
    dsimp only
    unfold Scan.next
    rw [hformat]
  have hleave : scanTurn S arg fuel (t'.withLocals {t'.toLocals with format := []}) =
      .leave (t'.withLocals {t'.toLocals with format := []}).done := if_pos rfl
  rw [run_again hnext, run_leave hleave]

theorem scanItem_letter (l : Letter) (s : Scan σ) (size : Size) (b : Bool) :
    scanItem S arg fuel (s.inItem [l.byte] size b) =
      if l = .X then .ok (s.inItem [l.byte] size false) else scanInt S arg fuel (s.inItem [l.byte] size false) := by
  have hcur : (s.inItem [l.byte] size b).cur = l.byte := rfl
  have hpercent : l.byte ≠ ebcdic '%' := by cases l <;> decide
  have hmodifier : (s.inItem [l.byte] size b).modifier = none := by cases l <;> rfl
  have hletter : l.byte ≠ ebcdic 's' ∧ l.byte ≠ ebcdic '[' ∧ l.byte ≠ ebcdic 'c' ∧ l.byte ≠ ebcdic 'n' ∧
    isFloatConv l.byte = false ∧ isIntConv l.byte = !decide (l = .X) := by cases l <;> decide
  obtain ⟨hs, hset, hc, hn, hfloat, hint⟩ := hletter
  unfold scanItem
  rw [hcur, if_neg hpercent, hmodifier]
  dsimp only
  rw [show ((s.inItem [l.byte] size b).withLocals ((s.inItem [l.byte] size b).withInformatitem false)).cur =
    l.byte from rfl,
    if_neg hs, if_neg hset, if_neg hc, if_neg hn, hint, hfloat]
  by_cases hX : l = .X
  · rw [hX]
    rfl
  · rw [if_neg hX, decide_eq_false hX]
    rfl

end Format

/-- **A value that is printed and scanned with the same plain specification comes back**,
for every modifier and every value, just if the letter is not `X`. -/
theorem round_trip_iff (E : Env) (m : Modifier) (l : Letter) (n : Nat) (arg : Nat → Nat)
    (h : (vsnprintf E n (plainFormat m l)).count < n) :
    Returns (vsscanf (vsnprintf E n (plainFormat m l)).string (plainFormat m l) arg) (arg 0) m.bits
      (argument E m l.signed 0) ↔ l ≠ .X := by
  have htext := vsnprintf_plain E n m l h
  generalize (vsnprintf E n (plainFormat m l)).string = str at htext ⊢
  unfold vsscanf vvscanf
  rw [inch_start]
  dsimp only
  obtain ⟨b, u, hrun, hturn⟩ := @reaches_letter _ (stringSource str.1) arg (str.1.length + 1) m l
    ((Scan.start (plainFormat m l).1 0).facing str.1 str.1) rfl (fun s => s.fault .stuck)
  rw [hrun]
  have hitem := scanItem_letter (stringSource str.1) arg (str.1.length + 1) l
    ((Scan.start (plainFormat m l).1 0).facing str.1 str.1) (sizeOf m) b
  by_cases hX : l = .X
  · rw [if_pos hX] at hitem
    rw [run_last _ _ _ hturn hitem rfl]
    constructor
    · intro hreturns
      exact absurd hreturns.value (by decide : (0 : Int) ≠ 1)
    · exact fun hne => absurd hX hne
  · rw [if_neg hX] at hitem
    obtain ⟨t', hscan, hformat, hcnt, hstores⟩ := scanInt_text E m hX arg
      ((Scan.start (plainFormat m l).1 0).inItem [l.byte] (sizeOf m) false) rfl rfl rfl rfl rfl
    rw [← htext] at hscan
    rw [run_last _ _ _ hturn (hitem.trans hscan) hformat]
    refine iff_of_true ⟨rfl, ?_, hstores⟩ hX
    show (if t'.cnt = 0 && t'.failed then EOF else (t'.cnt : Int)) = 1
    rw [hcnt]
    rfl

/-- At `%hhd` of 7. -/
theorem round_trip_sevens :
    (vsnprintf Printf.sevens 23 (plainFormat .hh .d)).count < 23 ∧
      (Returns (vsscanf (vsnprintf Printf.sevens 23 (plainFormat .hh .d)).string (plainFormat .hh .d) id) (id 0)
        (Modifier.hh).bits (argument Printf.sevens .hh (Letter.d).signed 0) ↔ Letter.d ≠ .X) :=
  ⟨by decide +kernel, round_trip_iff Printf.sevens .hh .d 23 id (by decide +kernel)⟩

/-- `%X` of 7 is `7`, of which a scan with `%X` takes nothing. -/
theorem capital_not_scanned : ¬ ∀ (E : Env) (m : Modifier) (l : Letter) (n : Nat) (arg : Nat → Nat),
    (vsnprintf E n (plainFormat m l)).count < n →
      Returns (vsscanf (vsnprintf E n (plainFormat m l)).string (plainFormat m l) arg) (arg 0) m.bits
        (argument E m l.signed 0) := by
  intro h
  have hvalue := (h Printf.sevens .none .X 23 id (by decide +kernel)).value
  have hnone : (vsscanf (vsnprintf Printf.sevens 23 (plainFormat .none .X)).string (plainFormat .none .X) id).value ≠
      1 := by
    decide +kernel
  exact hnone hvalue

end Libc370.Scanf
