import Libc370.Scanf.Engine

/-! Two scans in lockstep.

Two sources that give the same characters take the scanner through the same
turns: the variables stay equal, the stores stay equal, and one source is at its
end when the other is (`Rel`). The only place where the scanner could tell them
apart is `%n`. There the second source may count the character it has read ahead
(`Same`, `ahead`); `Rel` then records that the stores have come apart. -/
namespace Libc370.Scanf

open Stdio Loop

variable {σ τ : Type}

/-- The character that stands for the end of the input. -/
def Source.last (S : Source σ) : Int := if S.isFile then EOF else 0

theorem Source.last_cases (S : Source σ) : S.last = -1 ∨ S.last = 0 := by
  unfold Source.last
  split
  · exact .inl rfl
  · exact .inr rfl

/-- `R n c s d t`: with `n` characters left, the sources `s` and `t` have given `c` and
`d`. With `ahead` the second counts a character it has read ahead, the first does not. -/
structure Same (S : Source σ) (T : Source τ) (ahead : Bool) (R : Nat → Int → σ → Int → τ → Prop) :
    Prop where
  char : ∀ n c s d t, R (n + 1) c s d t → c = d ∧ 0 < d ∧ d < 256
  last : ∀ c s d t, R 0 c s d t → c = S.last ∧ d = T.last
  inch : ∀ n c s d t, R (n + 1) c s d t →
    ∃ c' s' d' t', S.getc s = .ok (c', s') ∧ T.getc t = .ok (d', t') ∧ R n c' s' d' t'
  count : ∀ n c s d t, R n c s d t → (ahead = true → n = 0) → S.count s = T.count t
  countAhead : ∀ n c s d t, R n c s d t → ahead = true → n ≠ 0 →
    ∀ bits : Size, (S.count s).bmod (2 ^ bits.bits) ≠ (T.count t).bmod (2 ^ bits.bits)

/-- Two scans that agree, `n` characters from the end and with the format `f` still to
do; the stores differ exactly when `apart` says so. -/
structure Rel (R : Nat → Int → σ → Int → τ → Prop) (apart : Bool) (f : Bytes) (n : Nat)
    (s : Scan σ) (t : Scan τ) : Prop where
  locals : s.toLocals = t.toLocals
  format : t.format = f
  src : R n s.ch s.src t.ch t.src
  length : s.stores.length = t.stores.length
  stores : s.stores = t.stores ↔ apart = false

variable {S : Source σ} {T : Source τ} {ahead : Bool} {R : Nat → Int → σ → Int → τ → Prop}
  {apart : Bool} {f : Bytes} {n k l : Nat} {s : Scan σ} {t : Scan τ}

/-- Agreement at most `n` characters from the end. -/
def Near (R : Nat → Int → σ → Int → τ → Prop) (apart : Bool) (f : Bytes) (n : Nat) (s : Scan σ)
    (t : Scan τ) : Prop := ∃ m ≤ n, Rel R apart f m s t

/-- Both scans have left the main loop, without a fault. -/
def Left (R : Nat → Int → σ → Int → τ → Prop) (apart : Bool) (e : Exit σ) (e' : Exit τ) : Prop :=
  e.fault = none ∧ e'.fault = none ∧ ∃ f m, Rel R apart f m e.scan e'.scan

/-- Two parts that do the same. -/
inductive Both {α β : Type} (R : Nat → Int → σ → Int → τ → Prop) (apart : Bool) (P : α → β → Prop) :
    Part σ α → Part τ β → Prop
  | ok {a : α} {b : β} (h : P a b) : Both R apart P (.ok a) (.ok b)
  | error {e : Exit σ} {e' : Exit τ} (h : Left R apart e e') : Both R apart P (.error e) (.error e')

/-- The same with a value beside the scan. -/
def NearWith {υ : Type} (R : Nat → Int → σ → Int → τ → Prop) (apart : Bool) (f : Bytes) (n : Nat)
    (x : υ × Scan σ) (y : υ × Scan τ) : Prop := x.1 = y.1 ∧ Near R apart f n x.2 y.2

theorem Near.mono (h : Near R apart f n s t) {m : Nat} (hm : n ≤ m) : Near R apart f m s t := by
  obtain ⟨i, hi, hrel⟩ := h
  exact ⟨i, by omega, hrel⟩

theorem Both.mono {α β : Type} {P P' : α → β → Prop} {x : Part σ α} {y : Part τ β}
    (h : Both R apart P x y) (hP : ∀ a b, P a b → P' a b) : Both R apart P' x y := by
  cases h with
  | ok h => exact .ok (hP _ _ h)
  | error h => exact .error h

theorem Both.bind {α β γ δ : Type} {P : α → β → Prop} {P' : γ → δ → Prop} {x : Part σ α} {y : Part τ β}
    {g : α → Part σ γ} {g' : β → Part τ δ} (h : Both R apart P x y)
    (hg : ∀ a b, P a b → Both R apart P' (g a) (g' b)) : Both R apart P' (x >>= g) (y >>= g') := by
  cases h with
  | ok h => exact hg _ _ h
  | error h => exact .error h

theorem append_apart {xs ys : List Store} {v w : Store} {far : Bool} (h : xs = ys ↔ apart = false)
    (hv : v = w ↔ far = false) : xs ++ [v] = ys ++ [w] ↔ (apart || far) = false := by
  rw [Bool.or_eq_false_iff, ← h, ← hv]
  constructor
  · intro heq
    obtain ⟨hinit, hlast⟩ := List.append_inj' heq rfl
    exact ⟨hinit, List.singleton_inj.mp hlast⟩
  · rintro ⟨rfl, rfl⟩
    rfl

namespace Rel

theorem near (h : Rel R apart f n s t) : Near R apart f n s t := ⟨n, le_rfl, h⟩

theorem left (h : Rel R apart f n s t) : Left R apart s.done t.done := ⟨rfl, rfl, f, n, h⟩

theorem withLocals (h : Rel R apart f n s t) {l l' : Locals} (hl : l = l') {f' : Bytes}
    (hf : l'.format = f') : Rel R apart f' n (s.withLocals l) (t.withLocals l') :=
  ⟨hl, hf, h.src, h.length, h.stores⟩

theorem narrowed (h : Rel R apart f n s t) :
    Rel R apart f n (s.withLocals s.narrowed) (t.withLocals t.narrowed) :=
  h.withLocals (congrArg Locals.narrowed h.locals) h.format

theorem counted (h : Rel R apart f n s t) :
    Rel R apart f n (s.withLocals s.counted) (t.withLocals t.counted) :=
  h.withLocals (congrArg Locals.counted h.locals) h.format

theorem fail (h : Rel R apart f n s t) (b : Bool) : Left R apart (s.fail b) (t.fail b) :=
  ⟨rfl, rfl, f, n, h.withLocals (by rw [h.locals]) h.format⟩

theorem width (h : Rel R apart f n s t) : s.width = t.width := congrArg Locals.width h.locals

theorem skipvar (h : Rel R apart f n s t) : s.skipvar = t.skipvar := congrArg Locals.skipvar h.locals

/-- Equal stores keep the scans as far apart as they are. -/
theorem put (h : Rel R apart f n s t) (v : Store) : Rel R apart f n (s.put v) (t.put v) := by
  unfold Scan.put
  rw [h.skipvar]
  cases t.skipvar
  · refine ⟨h.locals, h.format, h.src, ?_, ?_⟩
    · simp only [Bool.false_eq_true, if_false, List.length_append, h.length]
    · simp only [Bool.false_eq_true, if_false, List.append_left_inj, h.stores]
  · exact h

theorem vaArg (h : Rel R apart f n s t) (arg : Nat → Nat) :
    (vaArg arg s).1 = (vaArg arg t).1 ∧ Rel R apart f n (vaArg arg s).2 (vaArg arg t).2 := by
  unfold Scanf.vaArg
  rw [h.locals]
  split
  · exact ⟨rfl, h⟩
  · exact ⟨rfl, h.withLocals rfl h.format⟩

end Rel

/-! ### The lookahead -/

section Lookahead
variable (hs : Same S T ahead R)
include hs

/-- Either both sources are at their end, or they have given the same character. -/
theorem Rel.look (h : Rel R apart f n s t) :
    (n = 0 ∧ (s.ch = -1 ∨ s.ch = 0) ∧ (t.ch = -1 ∨ t.ch = 0) ∧ atEnd S s = true ∧ atEnd T t = true) ∨
      (∃ m, n = m + 1) ∧ s.ch = t.ch ∧ 0 < t.ch ∧ t.ch < 256 ∧ atEnd S s = false ∧ atEnd T t = false := by
  have hend : ∀ {υ : Type} (U : Source υ) (x : Scan υ), atEnd U x = (x.ch == U.last) := fun _ _ => rfl
  rw [hend, hend]
  cases n with
  | zero =>
    obtain ⟨hc, hd⟩ := hs.last _ _ _ _ h.src
    rw [hc, hd]
    exact .inl ⟨rfl, S.last_cases, T.last_cases, by simp, by simp⟩
  | succ m =>
    obtain ⟨heq, hpos, hlt⟩ := hs.char _ _ _ _ _ h.src
    have hS := S.last_cases
    have hT := T.last_cases
    refine .inr ⟨⟨m, rfl⟩, heq, hpos, hlt, ?_, ?_⟩ <;> rw [beq_eq_false_iff_ne] <;> omega

theorem Rel.inch (h : Rel R apart f (n + 1) s t) :
    ∃ s' t', inch S s = .ok s' ∧ inch T t = .ok t' ∧ Rel R apart f n s' t' := by
  obtain ⟨c', s', d', t', hget, hget', hR⟩ := hs.inch _ _ _ _ _ h.src
  simp only [Scanf.inch, hget, hget']
  exact ⟨_, _, rfl, rfl, h.locals, h.format, hR, h.length, h.stores⟩

theorem Rel.inchAgain {υ ρ ρ' : Type} {Q : Part σ ρ → Part τ ρ' → Prop} (h : Rel R apart f (n + 1) s t) (v : υ) :
    Turn.Both (fun x y => ∃ m < n + 1, x.1 = y.1 ∧ Rel R apart f m x.2 y.2) Q
      (inchAgain S v s) (inchAgain T v t) := by
  obtain ⟨s', t', hs', ht', hrel⟩ := h.inch hs
  simp only [Scanf.inchAgain, hs', ht']
  exact .again ⟨n, Nat.lt_succ_self n, rfl, hrel⟩

end Lookahead

/-- A loop of an item: turns that agree make loops that agree. -/
theorem loop_both {υ : Type} {body : υ × Scan σ → Turn (υ × Scan σ) (Part σ (υ × Scan σ))}
    {body' : υ × Scan τ → Turn (υ × Scan τ) (Part τ (υ × Scan τ))}
    (hturn : ∀ m v s t, Rel R apart f m s t →
      Turn.Both (fun x y => ∃ i < m, x.1 = y.1 ∧ Rel R apart f i x.2 y.2)
        (Both R apart (NearWith R apart f m)) (body (v, s)) (body' (v, t)))
    (h : Rel R apart f n s t) (hk : n < k) (hl : n < l) (v : υ) :
    Both R apart (NearWith R apart f n) (loop k body v s) (loop l body' v t) := by
  refine run_lockstep (fun _ m x y => m ≤ n ∧ x.1 = y.1 ∧ Rel R apart f m x.2 y.2)
    (fun _ => Both R apart (NearWith R apart f n)) (fun _ => false) ?_ false ⟨le_rfl, rfl, h⟩ hk hl
  rintro b m ⟨v, s⟩ ⟨w, t⟩ ⟨hm, rfl, hrel⟩
  refine (hturn m v s t hrel).mono ?_ ?_
  · rintro x y ⟨i, hi, heq, hx⟩
    exact ⟨i, hi, by omega, heq, hx⟩
  · rintro r r' hboth
    exact hboth.mono (fun x y hx => ⟨hx.1, hx.2.mono hm⟩)

/-! ### The items -/

/-- What an item comes to: the format may have moved on, but not over its NUL. -/
def Onward (R : Nat → Int → σ → Int → τ → Prop) (apart : Bool) (f : Bytes) (n : Nat) (s : Scan σ)
    (t : Scan τ) : Prop := ∃ f', f' <:+ f ∧ (f' = [] → f = []) ∧ Near R apart f' n s t

theorem Near.onward (h : Near R apart f n s t) : Onward R apart f n s t :=
  ⟨f, List.suffix_rfl, id, h⟩

section Items
variable (hs : Same S T ahead R)
include hs

theorem skipSpaces_both (h : Rel R apart f n s t) (hk : n < k) (hl : n < l) :
    Both R apart (Near R apart f n) (skipSpaces S k s) (skipSpaces T l t) := by
  refine (loop_both ?_ h hk hl ()).bind ?_
  · intro m v s t h
    unfold spaceTurn
    rcases h.look hs with ⟨-, hch, hch', -⟩ | ⟨⟨i, rfl⟩, heq, -⟩
    · -- neither end of the input is a space
      have hno : ∀ c : Int, c = -1 ∨ c = 0 → (decide (0 ≤ c) && isspace c) = false := by
        rintro c (rfl | rfl) <;> rfl
      dsimp only
      rw [hno _ hch, hno _ hch']
      exact .leave (.ok ⟨rfl, h.near⟩)
    · dsimp only
      rw [heq]
      split
      · exact h.inchAgain hs _
      · exact .leave (.ok ⟨rfl, h.near⟩)
  · rintro ⟨_, s⟩ ⟨_, t⟩ ⟨-, hnear⟩
    exact .ok hnear

theorem collect_both {go : Scan σ → Bool} {go' : Scan τ → Bool}
    (hgo : ∀ m s t, Rel R apart f m s t → go s = go' t ∧ (go' t = true → m ≠ 0))
    (h : Rel R apart f n s t) (hk : n < k) (hl : n < l) (cptr : Nat) :
    Both R apart (NearWith R apart f n) (collect S k go cptr s) (collect T l go' cptr t) := by
  refine loop_both ?_ h hk hl 0
  intro m v s t h
  obtain ⟨hsame, hpos⟩ := hgo m s t h
  simp only [collectTurn, hsame]
  split
  · next hgoes =>
    obtain ⟨i, rfl⟩ := Nat.exists_eq_succ_of_ne_zero (hpos hgoes)
    rw [show s.char = t.char by rw [Scan.char, (hs.char _ _ _ _ _ h.src).1, Scan.char]]
    exact (h.put _).narrowed.inchAgain hs _
  · exact .leave (.ok ⟨rfl, h.near⟩)

theorem scanString_both (h : Rel R apart f n s t) (hk : n < k) (hl : n < l) (arg : Nat → Nat) :
    Both R apart (Near R apart f n) (scanString S arg k s) (scanString T arg l t) := by
  obtain ⟨hptr, h⟩ := h.vaArg arg
  simp only [scanString, hptr]
  refine (skipSpaces_both hs h hk hl).bind ?_
  rintro s t ⟨m, hm, h⟩
  rcases h.look hs with ⟨-, -, -, hend, hend'⟩ | ⟨-, -, -, -, hend, hend'⟩
  · simp only [hend, hend', if_true]
    exact .error (h.fail true)
  · simp only [hend, hend', Bool.false_eq_true, if_false]
    refine (collect_both hs ?_ h (by omega) (by omega) _).bind ?_
    · intro i s t h
      rcases h.look hs with ⟨-, -, -, hend, hend'⟩ | ⟨⟨i, rfl⟩, heq, -, -, hend, hend'⟩
      · simp [hend, hend']
      · simp [hend, hend', heq, h.width]
    · rintro ⟨_, s⟩ ⟨_, t⟩ ⟨rfl, i, hi, h⟩
      exact .ok ⟨i, by omega, (h.put _).counted⟩

theorem scanChar_both (h : Rel R apart f n s t) (hk : n < k) (hl : n < l) (arg : Nat → Nat) :
    Both R apart (Near R apart f n) (scanChar S arg k s) (scanChar T arg l t) := by
  obtain ⟨hptr, h⟩ := h.vaArg arg
  simp only [scanChar, hptr]
  have h : Rel R apart f n _ _ := h.withLocals
    (congrArg (fun l => {l with width := if l.width = noWidth then 1 else l.width}) h.locals) h.format
  refine (collect_both hs ?_ h hk hl _).bind ?_
  · intro i s t h
    rcases h.look hs with ⟨-, -, -, hend, hend'⟩ | ⟨⟨i, rfl⟩, heq, -, -, hend, hend'⟩
    · simp [hend, hend']
    · simp [hend, hend', h.width]
  · rintro ⟨_, s⟩ ⟨_, t⟩ ⟨-, i, hi, h⟩
    dsimp only
    rw [h.width]
    split
    · exact .error (h.fail true)
    · exact .ok ⟨i, hi, h.counted⟩

theorem scanSign_both (h : Rel R apart f n s t) :
    Both R apart (NearWith R apart f n) (scanSign S s) (scanSign T t) := by
  unfold scanSign
  rcases h.look hs with ⟨-, hch, hch', -⟩ | ⟨⟨i, rfl⟩, heq, -⟩
  · have hno : ∀ c : Int, c = -1 ∨ c = 0 →
        ¬ (c = (ebcdic '-').toNat ∨ c = (ebcdic '+').toNat) := by
      rintro c (rfl | rfl) <;> decide
    rw [if_neg (hno _ hch), if_neg (hno _ hch')]
    exact .ok ⟨rfl, h.near⟩
  · rw [heq]
    split
    · obtain ⟨s', t', hs', ht', hrel⟩ := h.narrowed.inch hs
      rw [hs', ht']
      exact .ok ⟨rfl, i, by omega, hrel⟩
    · exact .ok ⟨rfl, h.near⟩

theorem digitTurn_both (g : Digits) (h : Rel R apart f n s t) :
    Turn.Both (fun x y => ∃ i < n, x.1 = y.1 ∧ Rel R apart f i x.2 y.2)
      (Both R apart (NearWith R apart f n)) (digitTurn S (g, s)) (digitTurn T (g, t)) := by
  simp only [digitTurn]
  rcases h.look hs with ⟨-, -, -, hend, hend'⟩ | ⟨⟨i, rfl⟩, heq, -, -, hend, hend'⟩
  · simp only [hend, hend', Bool.not_true, Bool.and_false, Bool.false_eq_true, if_false]
    exact .leave (.ok ⟨rfl, h.near⟩)
  · simp only [hend, hend', heq, h.width]
    split
    · split
      · exact h.narrowed.inchAgain hs _
      · split
        · exact .leave (.ok ⟨rfl, h.near⟩)
        · split
          · exact .leave (.ok ⟨rfl, h.near⟩)
          · exact h.narrowed.inchAgain hs _
    · exact .leave (.ok ⟨rfl, h.near⟩)

theorem decimalTurn_both (g : Decimal) (h : Rel R apart f n s t) :
    Turn.Both (fun x y => ∃ i < n, x.1 = y.1 ∧ Rel R apart f i x.2 y.2)
      (Both R apart (NearWith R apart f n)) (decimalTurn S (g, s)) (decimalTurn T (g, t)) := by
  simp only [decimalTurn]
  rcases h.look hs with ⟨-, hch, hch', -⟩ | ⟨⟨i, rfl⟩, heq, -⟩
  · have hno : ∀ c : Int, c = -1 ∨ c = 0 → decide (0 < c) = false := by
      rintro c (rfl | rfl) <;> decide
    simp only [hno _ hch, hno _ hch', Bool.false_and, Bool.false_eq_true, if_false]
    exact .leave (.ok ⟨rfl, h.near⟩)
  · simp only [heq, h.width]
    split
    · cases g.take t.ch with
      | some g => exact h.narrowed.inchAgain hs _
      | none => exact .leave (.ok ⟨rfl, h.near⟩)
    · exact .leave (.ok ⟨rfl, h.near⟩)

theorem atEnd_same (h : Rel R apart f n s t) : atEnd S s = atEnd T t := by
  rcases h.look hs with ⟨-, -, -, hend, hend'⟩ | ⟨-, -, -, -, hend, hend'⟩ <;> rw [hend, hend']

theorem scanInt_both (h : Rel R apart f n s t) (hk : n < k) (hl : n < l) (arg : Nat → Nat) :
    Both R apart (Near R apart f n) (scanInt S arg k s) (scanInt T arg l t) := by
  have hcur : s.cur = t.cur := congrArg Locals.cur h.locals
  obtain ⟨hptr, h⟩ := h.vaArg arg
  simp only [scanInt, hptr, hcur]
  refine (skipSpaces_both hs h hk hl).bind ?_
  rintro s t ⟨m, hm, h⟩
  refine (scanSign_both hs h).bind ?_
  rintro ⟨neg, s⟩ ⟨_, t⟩ ⟨rfl, i, hi, h⟩
  refine (loop_both (fun m g s t h => digitTurn_both hs g h) h (by omega) (by omega) _).bind ?_
  rintro ⟨g, s⟩ ⟨_, t⟩ ⟨rfl, j, hj, h⟩
  dsimp only
  split
  · rw [atEnd_same hs h]
    exact .error (h.fail _)
  · rw [show s.size = t.size from congrArg Locals.size h.locals]
    exact .ok ⟨j, by omega, (h.put _).counted⟩

theorem scanFloat_both (h : Rel R apart f n s t) (hk : n < k) (hl : n < l) (arg : Nat → Nat) :
    Both R apart (Near R apart f n) (scanFloat S arg k s) (scanFloat T arg l t) := by
  obtain ⟨hptr, h⟩ := h.vaArg arg
  simp only [scanFloat, hptr]
  refine (skipSpaces_both hs h hk hl).bind ?_
  rintro s t ⟨m, hm, h⟩
  refine (scanSign_both hs h).bind ?_
  rintro ⟨neg, s⟩ ⟨_, t⟩ ⟨rfl, i, hi, h⟩
  refine (loop_both (fun m g s t h => decimalTurn_both hs g h) h (by omega) (by omega) _).bind ?_
  rintro ⟨g, s⟩ ⟨_, t⟩ ⟨rfl, j, hj, h⟩
  dsimp only
  split
  · rw [atEnd_same hs h]
    exact .error (h.fail _)
  · rw [show s.size = t.size from congrArg Locals.size h.locals]
    exact .ok ⟨j, by omega, (h.put _).counted⟩

/-- `%[` leaves the format at its `]`. -/
theorem scanSet_both (h : Rel R apart f n s t) (hk : n < k) (hl : n < l) (arg : Nat → Nat) :
    Both R apart (Onward R apart f n) (scanSet S arg k s) (scanSet T arg l t) := by
  obtain ⟨hptr, h⟩ := h.vaArg arg
  simp only [scanSet, hptr, show (vaArg arg s).2.format = (vaArg arg t).2.format from
    congrArg Locals.format h.locals, h.format]
  generalize hset : (if f.tail.head? = some (ebcdic '^') then f.tail.tail else f.tail) = set
  have hsuffix : set <:+ f := by
    rw [← hset]
    split
    · exact ((List.tail_suffix _).trans (List.tail_suffix f))
    · exact List.tail_suffix f
  rcases set with - | ⟨first, rest⟩
  · exact .error h.left
  dsimp only
  cases hfind : rest.findIdx? (· == ebcdic ']') with
  | none => exact .error h.left
  | some last =>
    have hlast : last < rest.length := (List.findIdx?_eq_some_iff_findIdx_eq.mp hfind).1
    dsimp only
    refine (collect_both hs ?_ h hk hl _).bind ?_
    · intro i s t h
      rcases h.look hs with ⟨-, -, -, hend, hend'⟩ | ⟨⟨i, rfl⟩, heq, -, -, hend, hend'⟩
      · simp [hend, hend']
      · simp [hend, hend', h.width, Scan.char, heq]
    · rintro ⟨mcnt, s⟩ ⟨_, t⟩ ⟨rfl, i, hi, h⟩
      dsimp only
      split
      · refine .ok ⟨rest.drop last, ?_, ?_, i, hi, (h.put _).withLocals (by rw [(h.put _).locals]) rfl⟩
        · exact (List.drop_suffix _ _).trans ((List.suffix_cons _ _).trans hsuffix)
        · intro hnil
          have := List.drop_eq_nil_iff.mp hnil
          omega
      · rw [atEnd_same hs h]
        exact .error (h.fail _)

/-- `%n` is where a source that counts its lookahead shows. -/
theorem scanCount_both (h : Rel R apart f n s t) (arg : Nat → Nat) :
    Both R (apart || (ahead && !atEnd S s)) (Near R (apart || (ahead && !atEnd S s)) f n)
      (scanCount S arg s) (scanCount T arg t) := by
  refine .ok ⟨n, le_rfl, ?_, h.format, h.src, ?_, append_apart h.stores ?_⟩
  · simp only [h.locals]
  · simp only [List.length_append, h.length, List.length_cons, List.length_nil]
  · rw [h.locals, Store.int.injEq]
    simp only [true_and]
    rcases h.look hs with ⟨hn, -, -, hend, -⟩ | ⟨⟨i, rfl⟩, -, -, -, hend, -⟩
    · rw [hs.count _ _ _ _ _ h.src (fun _ => hn), hend]
      simp
    · rw [hend]
      cases ahead with
      | false =>
        rw [hs.count _ _ _ _ _ h.src (fun hc => absurd hc Bool.false_ne_true)]
        simp
      | true => simpa using hs.countAhead _ _ _ _ _ h.src rfl (Nat.succ_ne_zero i) t.size

/-- The scan is at a `%n` with characters left. -/
def countsAhead (S : Source σ) (s : Scan σ) : Bool :=
  (s.cur == ebcdic '%' || s.informatitem) && s.opened.cur == ebcdic 'n' && !atEnd S s

theorem scanItem_both (h : Rel R apart f n s t) (hk : n < k) (hl : n < l) (arg : Nat → Nat) :
    Both R (apart || (ahead && (s.cur == ebcdic 'n' && !atEnd S s)))
      (Onward R (apart || (ahead && (s.cur == ebcdic 'n' && !atEnd S s))) f n)
      (scanItem S arg k s) (scanItem T arg l t) := by
  have hcur : s.cur = t.cur := congrArg Locals.cur h.locals
  have hmod : s.modifier = t.modifier := congrArg Locals.modifier h.locals
  have hitem : Rel R apart f n (s.withLocals (s.withInformatitem false))
      (t.withLocals (t.withInformatitem false)) :=
    h.withLocals (congrArg (Locals.withInformatitem · false) h.locals) h.format
  have hcur' : (s.withLocals (s.withInformatitem false)).cur = t.cur := hcur
  have hcur'' : (t.withLocals (t.withInformatitem false)).cur = t.cur := rfl
  simp only [scanItem, hcur, hmod, hcur', hcur'']
  by_cases hn : t.cur = ebcdic 'n'
  · have hnone : t.modifier = none := by
      rw [Locals.modifier, hn, if_neg (by decide), if_neg (by decide), if_neg (by decide), if_neg (by decide)]
    simp only [hn, hnone, beq_self_eq_true, Bool.true_and]
    exact (scanCount_both hs hitem arg).mono (fun _ _ => Near.onward)
  · rw [beq_eq_false_iff_ne.mpr hn, Bool.false_and, Bool.and_false, Bool.or_false]
    split
    · -- `%%`
      rcases h.look hs with ⟨-, hch, hch', -⟩ | ⟨⟨i, rfl⟩, heq, -⟩
      · have hno : ∀ c : Int, c = -1 ∨ c = 0 → c ≠ (ebcdic '%').toNat := by
          rintro c (rfl | rfl) <;> decide
        rw [if_pos (hno _ hch), if_pos (hno _ hch')]
        exact .error h.left
      · rw [heq]
        split
        · exact .error h.left
        · obtain ⟨s', t', hs', ht', hrel⟩ := hitem.inch hs
          rw [hs', ht']
          exact .ok (Near.onward ⟨i, by omega, hrel⟩)
    · split
      · next size _ =>
        exact .ok (h.withLocals (congrArg (Locals.modified · size) h.locals) h.format).near.onward
      · split
        · exact (scanString_both hs hitem hk hl arg).mono (fun _ _ => Near.onward)
        split
        · exact scanSet_both hs hitem hk hl arg
        split
        · exact (scanChar_both hs hitem hk hl arg).mono (fun _ _ => Near.onward)
        split
        · exact (scanInt_both hs hitem hk hl arg).mono (fun _ _ => Near.onward)
        split
        · exact (scanFloat_both hs hitem hk hl arg).mono (fun _ _ => Near.onward)
        · exact .ok hitem.near.onward

end Items

/-! ### The main loop -/

/-- The format ends inside a conversion specification that opens here. -/
def Locals.endsInside (s : Locals) : Bool := s.cur == ebcdic '%' && s.opened.format.isEmpty

theorem Locals.opened_suffix (s : Locals) : s.opened.format <:+ s.format := by
  unfold Locals.opened
  split
  · dsimp only [Locals.getwidth]
    refine (List.dropWhile_suffix _).trans ?_
    split
    · exact (List.tail_suffix _).trans (List.tail_suffix _)
    · exact List.tail_suffix _
  · exact List.suffix_rfl

theorem Locals.opened_nil {s : Locals} (hne : s.format ≠ []) :
    s.opened.format = [] ↔ s.endsInside = true := by
  unfold Locals.endsInside Locals.opened
  split
  · next hc => simp [hc]
  · next hc => simp [hc, hne]

/-- At the NUL behind a `%` no conversion is done. -/
theorem scanItem_nil (S : Source σ) (arg : Nat → Nat) (k : Nat) (s : Scan σ) (h : s.format = []) :
    scanItem S arg k s = .ok (s.withLocals (s.withInformatitem false)) := by
  have hcur : s.cur = 0 := by rw [Locals.cur, h]; rfl
  have hmod : s.modifier = none := by
    rw [Locals.modifier, hcur, if_neg (by decide), if_neg (by decide), if_neg (by decide), if_neg (by decide)]
  have hcur' : (s.withLocals (s.withInformatitem false)).cur = 0 := hcur
  unfold scanItem
  rw [hcur, hmod, if_neg (by decide)]
  dsimp only
  rw [hcur', if_neg (by decide), if_neg (by decide), if_neg (by decide), if_neg (by decide), if_neg (by decide),
    if_neg (by decide)]

section Turns
variable (hs : Same S T ahead R)
include hs

/-- Whether the scans have come apart when the turn is done. -/
def apartAfter (S : Source σ) (ahead apart : Bool) (s : Scan σ) : Bool := apart || (ahead && countsAhead S s)

theorem scanDirective_both (h : Rel R apart f n s t) (hf : 0 ∉ f) (hne : f ≠ []) (hk : n < k) (hl : n < l)
    (arg : Nat → Nat) :
    Both R (apartAfter S ahead apart s)
      (fun s' t' => ∃ f', f' <:+ f ∧ (f' = [] → t.endsInside = true) ∧
        Near R (apartAfter S ahead apart s) f' n s' t')
      (scanDirective S arg k s) (scanDirective T arg l t) := by
  have hcur : s.cur = t.cur := congrArg Locals.cur h.locals
  have hitem : s.informatitem = t.informatitem := congrArg Locals.informatitem h.locals
  have hopened : s.opened = t.opened := congrArg Locals.opened h.locals
  by_cases hc : t.cur = ebcdic '%' ∨ t.informatitem = true
  · have hopen : Rel R apart t.opened.format n (s.withLocals s.opened) (t.withLocals t.opened) :=
      h.withLocals hopened rfl
    have hafter : apartAfter S ahead apart s =
        (apart || (ahead && ((s.withLocals s.opened).cur == ebcdic 'n' && !atEnd S (s.withLocals s.opened)))) := by
      have hitem' : (t.cur == ebcdic '%' || t.informatitem) = true := by simpa using hc
      simp only [apartAfter, countsAhead, hcur, hitem, hitem', Bool.true_and]
      rfl
    rw [hafter]
    simp only [scanDirective, hcur, hitem, if_pos hc]
    refine (scanItem_both hs hopen hk hl arg).mono ?_
    rintro s' t' ⟨f', hsuffix, hnil, hnear⟩
    refine ⟨f', hsuffix.trans ?_, fun h0 => (t.opened_nil (by rw [h.format]; exact hne)).mp (hnil h0), hnear⟩
    rw [← h.format]
    exact t.opened_suffix
  · have hafter : apartAfter S ahead apart s = apart := by
      have hitem' : (t.cur == ebcdic '%' || t.informatitem) = false := by simpa using hc
      simp only [apartAfter, countsAhead, hcur, hitem, hitem', Bool.false_and, Bool.and_false, Bool.or_false]
    have honward : ∀ {s' : Scan σ} {t' : Scan τ}, Near R apart f n s' t' →
        ∃ f', f' <:+ f ∧ (f' = [] → t.endsInside = true) ∧ Near R apart f' n s' t' :=
      fun hnear => ⟨f, List.suffix_rfl, fun hnil => absurd hnil hne, hnear⟩
    rw [hafter]
    simp only [scanDirective, hcur, hitem, if_neg hc]
    split
    · exact (skipSpaces_both hs h hk hl).mono (fun _ _ => honward)
    -- a character of the format that stands for itself
    rcases h.look hs with ⟨-, hch, hch', -⟩ | ⟨⟨i, rfl⟩, heq, -⟩
    · have hno : ∀ c : Int, c = -1 ∨ c = 0 → c ≠ t.cur.toNat := by
        have hcur0 : t.cur.toNat ≠ 0 := by
          intro h0
          refine hf ?_
          obtain ⟨c, f', rfl⟩ := List.exists_cons_of_ne_nil hne
          have hc0 : c = 0 := by
            rw [Locals.cur, h.format, List.headD_cons] at h0
            exact UInt8.toNat_inj.mp h0
          exact hc0 ▸ List.mem_cons_self ..
        rintro c (rfl | rfl) <;> omega
      rw [if_pos (hno _ hch), if_pos (hno _ hch'), atEnd_same hs h]
      exact .error (h.fail _)
    · rw [heq, atEnd_same hs h]
      split
      · exact .error (h.fail _)
      · obtain ⟨s', t', hs', ht', hrel⟩ := h.inch hs
        rw [hs', ht']
        exact .ok (honward ⟨i, by omega, hrel⟩)

/-- What two turns come to: the format is shorter by a byte at least, and the turn
that opens a specification the format ends inside is the one that steps over the NUL. -/
theorem scanTurn_both (h : Rel R apart f n s t) (hf : 0 ∉ f) (hk : n < k) (hl : n < l) (arg : Nat → Nat) :
    Turn.Both
      (fun s' t' => s.endsInside = false ∧ ∃ f', f' <:+ f ∧ f'.length < f.length ∧
        Near R (apartAfter S ahead apart s) f' n s' t')
      (fun e e' => e.fault = (if s.endsInside then some .pastFormat else none) ∧ e'.fault = e.fault ∧
        ∃ f' m, Rel R (apartAfter S ahead apart s) f' m e.scan e'.scan)
      (scanTurn S arg k s) (scanTurn T arg l t) := by
  have hformat : s.format = f := (congrArg Locals.format h.locals).trans h.format
  have hends : s.endsInside = t.endsInside := congrArg Locals.endsInside h.locals
  have hstill : s.opened.format = [] → apartAfter S ahead apart s = apart := by
    intro hnil
    have hcur : s.opened.cur = 0 := by rw [Locals.cur, hnil]; rfl
    rw [apartAfter, countsAhead, hcur, show (0 == ebcdic 'n') = false from by decide]
    simp
  unfold scanTurn
  rw [hformat, h.format]
  by_cases hne : f = []
  · -- the NUL
    have hcur : s.cur = 0 := by rw [Locals.cur, hformat, hne]; rfl
    have hno : s.endsInside = false := by
      rw [Locals.endsInside, hcur]
      rfl
    have hopened : s.opened.format = [] := List.suffix_nil.mp (hne ▸ hformat ▸ s.opened_suffix)
    rw [if_pos hne, if_pos hne, hno, hstill hopened]
    exact .leave ⟨rfl, rfl, f, n, h⟩
  rw [if_neg hne, if_neg hne]
  have hne' : s.format ≠ [] := by rw [hformat]; exact hne
  by_cases hin : s.endsInside = true
  · -- a specification the format ends inside
    have hnil := (s.opened_nil hne').mpr hin
    have hpct : s.cur = ebcdic '%' := by
      rw [Locals.endsInside, Bool.and_eq_true, beq_iff_eq] at hin
      exact hin.1
    have hdir : ∀ {υ : Type} (U : Source υ) (x : Scan υ) (j : Nat), x.toLocals = s.toLocals →
        scanDirective U arg j x = .ok (x.withLocals (s.opened.withInformatitem false)) := by
      intro υ U x j hx
      have hcur : x.cur = ebcdic '%' := (congrArg Locals.cur hx).trans hpct
      rw [scanDirective, if_pos (.inl hcur), scanItem_nil _ _ _ _ (by
        show x.opened.format = []
        rw [hx]; exact hnil), hx]
      rfl
    have hover : ∀ {υ : Type} (x : Scan υ), (x.withLocals (s.opened.withInformatitem false)).next =
        .leave ((x.withLocals (s.opened.withInformatitem false)).fault .pastFormat) := by
      intro υ x
      rw [Scan.next, show (x.withLocals (s.opened.withInformatitem false)).format = [] from hnil]
    have hrel : Rel R apart [] n _ _ := h.withLocals (rfl : s.opened.withInformatitem false = _) hnil
    rw [hdir S s k rfl, hdir T t l h.locals.symm, hstill hnil, hin]
    dsimp only
    rw [hover, hover]
    exact .leave ⟨rfl, rfl, [], n, hrel⟩
  · have hout : s.endsInside = false := by simpa using hin
    have hboth := scanDirective_both hs h hf hne hk hl arg
    rw [← hends, hout] at hboth
    rw [hout]
    generalize scanDirective S arg k s = x at hboth ⊢
    generalize scanDirective T arg l t = y at hboth ⊢
    cases hboth with
    | @ok s' t' hok =>
      obtain ⟨f', hsuffix, hnil, m, hm, hrel⟩ := hok
      obtain ⟨c, f', rfl⟩ := List.exists_cons_of_ne_nil (fun h0 => Bool.false_ne_true (hnil h0))
      have hs' : s'.format = c :: f' := (congrArg Locals.format hrel.locals).trans hrel.format
      have hlen : f'.length < f.length := hsuffix.length_le
      dsimp only
      rw [Scan.next, Scan.next, hs', hrel.format]
      exact .again ⟨rfl, f', (List.suffix_cons c f').trans hsuffix, hlen, m, hm,
        hrel.withLocals (by rw [hrel.locals]) rfl⟩
    | error hleft =>
      obtain ⟨hfault, hfault', f', m, hrel⟩ := hleft
      exact .leave ⟨hfault, hfault'.trans hfault.symm, f', m, hrel⟩

/-- The main loops: the stores come apart at a `%n` with characters left. -/
theorem run_both (h : Rel R false f n s t) (hf : 0 ∉ f) (hk : n < k) (hl : n < l) (arg : Nat → Nat) :
    (Loop.run (Scan.fault · .stuck) (scanTurn T arg l) (f.length + 1) t).fault =
        (Loop.run (Scan.fault · .stuck) (scanTurn S arg k) (f.length + 1) s).fault ∧
      ∃ f' m, Rel R ((trail (scanTurn S arg k) (f.length + 1) s).any (fun s => ahead && countsAhead S s)) f' m
        (Loop.run (Scan.fault · .stuck) (scanTurn S arg k) (f.length + 1) s).scan
        (Loop.run (Scan.fault · .stuck) (scanTurn T arg l) (f.length + 1) t).scan := by
  refine run_lockstep (fun b i s t => ∃ f', 0 ∉ f' ∧ f'.length = i ∧ Near R b f' n s t)
    (fun b (e : Exit σ) (e' : Exit τ) => e'.fault = e.fault ∧ ∃ f' m, Rel R b f' m e.scan e'.scan)
    (fun s => ahead && countsAhead S s) ?_ false ⟨f, hf, rfl, h.near⟩ (Nat.lt_succ_self _) (Nat.lt_succ_self _)
  rintro b i s t ⟨f', hf', rfl, m, hm, h⟩
  refine (scanTurn_both hs h hf' (hm.trans_lt hk) (hm.trans_lt hl) arg).mono ?_ ?_
  · rintro s' t' ⟨-, f'', hsuffix, hlen, hnear⟩
    exact ⟨f''.length, hlen, f'', fun h0 => hf' (hsuffix.subset h0), rfl, hnear.mono hm⟩
  · rintro e e' ⟨-, hfault, hrel⟩
    exact ⟨hfault, hrel⟩

/-- The only fault is the step over the NUL of a format that ends inside a specification. -/
theorem run_fault (h : Rel R false f n s t) (hf : 0 ∉ f) (hk : n < k) (hl : n < l) (arg : Nat → Nat) :
    (Loop.run (Scan.fault · .stuck) (scanTurn S arg k) (f.length + 1) s).fault =
      if (trail (scanTurn S arg k) (f.length + 1) s).any (·.endsInside) then some .pastFormat else none := by
  refine @run_lockstep _ _ _ _ (Scan.fault · .stuck) _ (Scan.fault · .stuck) (scanTurn T arg l)
    (fun b i s t => b = false ∧ ∃ f', 0 ∉ f' ∧ f'.length = i ∧ ∃ apart, Near R apart f' n s t)
    (fun b e _ => e.fault = if b then some .pastFormat else none)
    (·.endsInside) ?_ false _ _ _ s t
    ⟨rfl, f, hf, rfl, false, h.near⟩ (Nat.lt_succ_self _) (Nat.lt_succ_self _)
  rintro b i s t ⟨rfl, f', hf', rfl, apart, m, hm, h⟩
  refine (scanTurn_both hs h hf' (hm.trans_lt hk) (hm.trans_lt hl) arg).mono ?_ ?_
  · rintro s' t' ⟨hin, f'', hsuffix, hlen, hnear⟩
    exact ⟨f''.length, hlen, by rw [hin]; rfl, f'', fun h0 => hf' (hsuffix.subset h0), rfl, _, hnear.mono hm⟩
  · rintro e e' ⟨hfault, -, -⟩
    rw [Bool.false_or]
    exact hfault

end Turns

end Libc370.Scanf
