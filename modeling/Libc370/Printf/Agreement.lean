import Libc370.Printf.Drivers
import Libc370.Stdio.Delivery
import Libc370.Stdio.Seek

/-! What a format prints, whichever driver prints it.

`meaning` is the text a format and its arguments stand for, and what `%n` stores on
the way, piece by piece. `vvprintf()` refines it on any sink that keeps what it is
given (`Keeps`); `vsnprintf()` keeps the first characters of it, as many as the
budget admits (`Holds`). -/
namespace Libc370.Printf

open Stdio Loop

/-- What one character of the format, or one specification, contributes. -/
structure Piece where
  text : Bytes
  stores : List Store
  taken : Nat
  rest : Bytes

/-- The piece at the front of the format `c :: f`, with the count `done` so far. -/
def piece (E : Env) (taken : Nat) (done : Int) (c : UInt8) (f : Bytes) : Piece :=
  let conv := cur f
  let word := E.word taken
  if c ≠ ebcdic '%' then ⟨[c], [], taken, f⟩
  else if conv = ebcdic 'd' then ⟨decText word, [], taken + 1, f.tail⟩
  else if isCvtConv conv then ⟨(E.dblcvt (E.pair taken) conv).1, [], taken + 2, f.tail⟩
  else if conv = ebcdic 's' then ⟨E.string word, [], taken + 1, f.tail⟩
  else if conv = ebcdic 'c' then ⟨[charByte word.toInt], [], taken + 1, f.tail⟩
  else if conv = ebcdic 'n' then ⟨[], [⟨word, 32, done⟩], taken + 1, f.tail⟩
  else if conv = ebcdic '%' then ⟨[ebcdic '%'], [], taken, f.tail⟩
  else
    let r := examin E f taken done
    ⟨r.out, r.stores, r.taken, r.rest⟩

structure Meaning where
  text : Bytes
  stores : List Store
  taken : Nat
  format : Bytes

def Meaning.add (m : Meaning) (p : Piece) : Meaning :=
  ⟨m.text ++ p.text, m.stores ++ p.stores, p.taken, p.rest⟩

def pieceTurn (E : Env) (m : Meaning) : Turn Meaning Meaning :=
  match m.format with
  | [] => .leave m
  | c :: f => .again (m.add (piece E m.taken (toLong m.text.length) c f))

/-- The text a format stands for, and the stores of its `%n` items. -/
def meaning (E : Env) (format : Bytes) : Meaning :=
  run id (pieceTurn E) (format.length + 1) ⟨[], [], 0, format⟩

/-! ### Facts about one conversion -/

theorem tail_length_le (f : Bytes) : f.tail.length ≤ f.length := by
  rw [List.length_tail]
  exact Nat.sub_le _ _

theorem number_length (f : Bytes) (n : Int) : (number f n).2.length ≤ f.length := by
  induction f generalizing n with
  | nil => exact le_rfl
  | cons c f ih =>
    rw [number]
    split
    · exact (ih _).trans (Nat.le_succ _)
    · exact le_rfl

theorem flags_length (E : Env) (f : Bytes) (s : Spec) (taken : Nat) : (flags E f s taken).2.2.length ≤ f.length := by
  induction f generalizing s taken with
  | nil => exact le_rfl
  | cons c f ih =>
    rw [flags]
    split
    · exact (ih _ _).trans (Nat.le_succ _)
    · exact le_rfl

theorem precision_length (E : Env) (f : Bytes) (taken : Nat) : (precision E f taken).2.2.length ≤ f.length := by
  have htail := tail_length_le f
  unfold precision
  split
  · dsimp only
    split
    · exact (tail_length_le _).trans htail
    · exact (number_length _ _).trans htail
  · exact le_rfl

theorem modifier_length (f : Bytes) : (modifier f).2.2.length ≤ f.length := by
  have htail := tail_length_le f
  have htail' := (tail_length_le f.tail).trans htail
  unfold modifier
  dsimp only
  split_ifs <;> first | exact htail' | exact htail | exact le_rfl

/-- A specification ends where it began, or later. -/
theorem examin_rest_length (E : Env) (f : Bytes) (taken : Nat) (done : Int) :
    (examin E f taken done).rest.length ≤ f.length := by
  have hparse : (parse E f taken).2.2.length ≤ f.length :=
    (modifier_length _).trans ((precision_length E _ _).trans ((number_length _ _).trans (flags_length E f _ _)))
  have hrest : (examin E f taken done).rest = (parse E f taken).2.2.tail := by
    unfold examin
    dsimp only
    split_ifs <;> rfl
  rw [hrest]
  exact (tail_length_le _).trans hparse

/-- The count so far matters to `%n` only. -/
theorem examin_done (E : Env) (f : Bytes) (taken : Nat) (done done' : Int) :
    (examin E f taken done).out = (examin E f taken done').out ∧
      (examin E f taken done).extraCh = (examin E f taken done').extraCh ∧
      (examin E f taken done).taken = (examin E f taken done').taken ∧
      (examin E f taken done).rest = (examin E f taken done').rest := by
  unfold examin
  dsimp only
  split_ifs <;> exact ⟨rfl, rfl, rfl, rfl⟩

theorem pad_length (n : Int) (c : UInt8) : (pad n c).length = n.toNat := List.length_replicate

theorem examinFloat_count (E : Env) (s : Spec) (conv : UInt8) (taken : Nat) :
    (examinFloat E s conv taken).2 = toLong (examinFloat E s conv taken).1.length := by
  have hcount : ∀ (minus zero : Bool) (fill : Int) (sign body : Bytes) (pfx : Nat), 0 ≤ fill →
      fill + sign.length + body.length =
        ((if !minus && !zero then pad fill (ebcdic ' ') else []) ++ sign ++ body.take pfx ++
          (if !minus && zero then pad fill (ebcdic '0') else []) ++ body.drop pfx ++
          (if minus then pad fill (ebcdic ' ') else [])).length := by
    intro minus zero fill sign body pfx hfill
    have hfill' := Int.toNat_of_nonneg hfill
    have hbody : (body.take pfx).length + (body.drop pfx).length = body.length := by
      rw [← List.length_append, List.take_append_drop]
    cases minus <;> cases zero <;>
      simp only [Bool.not_false, Bool.not_true, Bool.and_self, Bool.and_false, Bool.false_and, Bool.false_eq_true,
        if_true,
        if_false, List.length_append, pad_length, List.length_nil] <;> omega
  unfold examinFloat
  dsimp only
  rw [hcount _ _ _ _ _ _ (le_max_left _ _)]

theorem examinString_count (E : Env) (s : Spec) (taken : Nat) :
    (examinString E s taken).2 = toLong (examinString E s taken).1.length := by
  unfold examinString
  dsimp only
  generalize E.string (E.word taken) = svalue
  obtain ⟨length, hlength⟩ : ∃ length : Int, length =
      if 0 < s.precision then min (svalue.length : Int) s.precision else if s.precision < 0 then svalue.length else 0 :=
    ⟨_, rfl⟩
  have hle : 0 ≤ length ∧ length ≤ svalue.length := by
    rw [hlength]
    split
    · omega
    · split <;> omega
  rw [← hlength]
  obtain ⟨fill, hfill⟩ : ∃ fill : Int, fill = if length < s.width then s.width - length else 0 := ⟨_, rfl⟩
  have hnonneg : 0 ≤ fill := by
    rw [hfill]
    split <;> omega
  rw [← hfill]
  congr 1
  cases s.flagMinus <;> simp [pad_length] <;> omega

/-- The count `__examin()` answers is the number of characters it hands out. -/
theorem examin_extraCh (E : Env) (f : Bytes) (taken : Nat) (done : Int) :
    (examin E f taken done).extraCh = toLong (examin E f taken done).out.length := by
  unfold examin
  obtain ⟨s, taken, f'⟩ := parse E f taken
  dsimp only
  split
  · dsimp only
  · split
    · exact examinFloat_count E s (cur f') taken
    · split
      · exact examinString_count E s taken
      · split
        · dsimp only
        · split
          · exact (by decide : (0 : Int) = toLong (0 : Nat))
          · split
            · exact (by decide : (1 : Int) = toLong (1 : Nat))
            · dsimp only

/-! ### The sinks -/

/-- A sink that keeps what it is given: `R` says that it holds a text. -/
structure Keeps {κ : Type} (K : Sink κ) (R : κ → Bytes → Prop) : Prop where
  out1 : ∀ {k t} (ch : Int), R k t → R (K.out1 k ch) (t ++ [charByte ch])
  outs : ∀ {k t} (p : Bytes), R k t → R (K.outs k p) (t ++ p)
  conv : ∀ {k t} (out : Bytes), out.length ≤ intMax → R k t → R (K.conv k out out.length) (t ++ out)

theorem placed_append (s : Int) (a b : Bytes) : placed s (a ++ b) = placed s a ++ placed (s + a.length) b := by
  induction a generalizing s with
  | nil => simp [placed]
  | cons c a ih =>
    rw [List.cons_append, placed, placed, ih, List.cons_append, List.length_cons]
    congr 3
    omega

/-- `vsprintf()` has stored a text from the front of the string on. -/
def Text.Holds (k : Text) (t : Bytes) : Prop := k.s = t.length ∧ k.writes = placed 0 t

theorem stringSink_keeps : Keeps stringSink Text.Holds where
  out1 := by
    rintro k t ch ⟨hs, hwrites⟩
    refine ⟨?_, ?_⟩
    · simp [stringSink, Text.store, hs]
    · simp only [stringSink, Text.store, hs, hwrites, placed_append, zero_add, placed]
  outs := by
    rintro k t p ⟨hs, hwrites⟩
    refine ⟨?_, ?_⟩
    · simp [stringSink, hs]
    · simp only [stringSink, hs, hwrites, placed_append, zero_add]
  conv := by
    rintro k t out hout ⟨hs, hwrites⟩
    refine ⟨?_, ?_⟩
    · simp [stringSink, hs]
    · simp only [stringSink, hs, hwrites, placed_append, zero_add, List.take_of_length_le hout]

theorem charByte_toNat (b : UInt8) : charByte b.toNat = b := by
  have hlt := b.toNat_lt
  rw [charByte, Int.emod_eq_of_lt (by omega) (by omega), Int.toNat_natCast, UInt8.ofNat_toNat]

/-- The calls so far have handed a stream a text. -/
def Hands (puts : List Put) (t : Bytes) : Prop := puts.flatMap Put.bytes = t

theorem fileSink_keeps : Keeps fileSink Hands where
  out1 := by
    rintro k t ch rfl
    simp [fileSink, Hands, Put.bytes]
  outs := by
    rintro k t p rfl
    simp [fileSink, Hands, Put.bytes]
  conv := by
    rintro k t out - rfl
    simp [fileSink, Hands, Put.bytes, List.flatMap_map, charByte_toNat]

/-! ### Drivers -/

/-- A driver of either kind: where it is, what it has stored and counted, and whether what
it has printed so far is a given text. -/
structure Driver (S : Type) where
  format : S → Bytes
  taken : S → Nat
  stores : S → List Store
  count : S → Int
  prints : S → Bytes → Prop

variable {S : Type} {D : Driver S}

/-- A driver comes from `s` to `s'` by the piece `p`, and prints it while the count fits. -/
structure Driver.Adds (D : Driver S) (s : S) (p : Piece) (s' : S) : Prop where
  format : D.format s' = p.rest
  taken : D.taken s' = p.taken
  stores : D.stores s' = D.stores s ++ p.stores
  prints : ∀ {t}, t.length + p.text.length < 2 ^ 31 → D.prints s t → D.prints s' (t ++ p.text)

/-- A loop adds the piece at the front of the format with every turn. -/
structure Driver.Follows (D : Driver S) (E : Env) (turn : S → Turn S S) : Prop where
  count : ∀ {s t}, D.prints s t → D.count s = t.length
  done : ∀ {s}, D.format s = [] → turn s = .leave s
  adds : ∀ {s c f}, D.format s = c :: f →
    ∃ s', turn s = .again s' ∧ D.Adds s (piece E (D.taken s) (D.count s) c f) s'

/-- A driver is as far as the meaning, and prints the same while the count fits. -/
structure Driver.Says (D : Driver S) (s : S) (m : Meaning) : Prop where
  format : D.format s = m.format
  taken : D.taken s = m.taken
  small : m.text.length < 2 ^ 31 → D.stores s = m.stores ∧ D.prints s m.text

/-- The piece does not depend on the count, but for what `%n` stores. -/
theorem piece_done (E : Env) (taken : Nat) (done done' : Int) (c : UInt8) (f : Bytes) :
    (piece E taken done c f).text = (piece E taken done' c f).text ∧
      (piece E taken done c f).taken = (piece E taken done' c f).taken ∧
      (piece E taken done c f).rest = (piece E taken done' c f).rest := by
  obtain ⟨hout, -, htaken, hrest⟩ := examin_done E f taken done done'
  unfold piece
  dsimp only
  split_ifs
  · exact ⟨rfl, rfl, rfl⟩
  · exact ⟨rfl, rfl, rfl⟩
  · exact ⟨rfl, rfl, rfl⟩
  · exact ⟨rfl, rfl, rfl⟩
  · exact ⟨rfl, rfl, rfl⟩
  · exact ⟨rfl, rfl, rfl⟩
  · exact ⟨rfl, rfl, rfl⟩
  · exact ⟨hout, htaken, hrest⟩

theorem piece_rest_length (E : Env) (taken : Nat) (done : Int) (c : UInt8) (f : Bytes) :
    (piece E taken done c f).rest.length ≤ f.length := by
  have htail := tail_length_le f
  have hexamin := examin_rest_length E f taken done
  unfold piece
  dsimp only
  split_ifs
  · exact le_rfl
  · exact htail
  · exact htail
  · exact htail
  · exact htail
  · exact htail
  · exact htail
  · exact hexamin

theorem Driver.Says.turn {E : Env} {turn : S → Turn S S} (hD : D.Follows E turn) {s : S} {m : Meaning}
    (h : D.Says s m) :
    Turn.Both (fun s' m' => m'.format.length < m.format.length ∧ D.Says s' m') D.Says (turn s) (pieceTurn E m) := by
  unfold pieceTurn
  cases hformat : m.format with
  | nil =>
    rw [hD.done (h.format.trans hformat)]
    exact .leave h
  | cons c f =>
    obtain ⟨s', hs', hadds⟩ := hD.adds (h.format.trans hformat)
    obtain ⟨htext, htaken, hrest⟩ := piece_done E m.taken (D.count s) (toLong m.text.length) c f
    rw [h.taken] at hadds
    rw [hs']
    refine .again ⟨?_, hadds.format.trans hrest, hadds.taken.trans htaken, fun hsmall => ?_⟩
    · have hlen := piece_rest_length E m.taken (toLong m.text.length) c f
      rw [List.length_cons]
      exact Nat.lt_succ_of_le hlen
    · have hsum : (m.add (piece E m.taken (toLong m.text.length) c f)).text.length =
          m.text.length + (piece E m.taken (toLong m.text.length) c f).text.length := List.length_append
      obtain ⟨hstores, hprints⟩ := h.small (by omega)
      have hlong : toLong m.text.length = D.count s := by
        rw [hD.count hprints]
        exact toLong_of_lt (by omega)
      rw [hlong] at hsum hsmall ⊢
      refine ⟨?_, hadds.prints (by omega) hprints⟩
      rw [hadds.stores, hstores]
      rfl

/-- **A driver prints the meaning of a format**, and stores its counts. -/
theorem Driver.Follows.run {E : Env} {turn : S → Turn S S} (hD : D.Follows E turn) {s : S} (htaken : D.taken s = 0)
    (hstores : D.stores s = []) (hprints : D.prints s []) :
    D.Says (Loop.run id turn ((D.format s).length + 1) s) (meaning E (D.format s)) := by
  have hstep : ∀ (b : Bool) (n : Nat) (s : S) (m : Meaning), n = m.format.length ∧ D.Says s m →
      Turn.Both (fun s' m' => ∃ n' < n, n' = m'.format.length ∧ D.Says s' m') D.Says (turn s) (pieceTurn E m) := by
    rintro b n s m ⟨rfl, hs⟩
    exact (hs.turn hD).mono (fun s' m' h => ⟨_, h.1, rfl, h.2⟩) (fun _ _ h => h)
  exact run_lockstep (fun _ n s m => n = m.format.length ∧ D.Says s m) (fun _ => D.Says) (fun _ => false) hstep false
    ⟨rfl, rfl, htaken, fun _ => ⟨hstores, hprints⟩⟩ (Nat.lt_succ_self _) (Nat.lt_succ_self _)

/-! ### `vvprintf()` -/

variable {κ : Type} {K : Sink κ} {R : κ → Bytes → Prop}

theorem Keeps.foldl (hK : Keeps K R) (p : Bytes) {k : κ} {t : Bytes} (h : R k t) :
    R (p.foldl (fun k b => K.out1 k b.toNat) k) (t ++ p) := by
  induction p generalizing k t with
  | nil =>
    rw [List.append_nil]
    exact h
  | cons b p ih =>
    have hone := hK.out1 b.toNat h
    rw [charByte_toNat] at hone
    rw [List.foldl_cons, List.append_cons]
    exact ih hone

theorem toLong_of_small {n : Int} (hlo : 0 ≤ n) (hhi : n < 2 ^ 31) : toLong n = n := by
  obtain ⟨k, rfl⟩ := Int.eq_ofNat_of_zero_le hlo
  exact toLong_of_lt (by omega)

/-- `vvprintf()` as a driver, if its sink keeps what it is given. -/
def lineDriver (R : κ → Bytes → Prop) : Driver (Line κ) where
  format l := l.format
  taken l := l.taken
  stores l := l.stores
  count l := l.chcount
  prints l t := l.chcount = t.length ∧ R l.sink t

theorem onespec_adds (hK : Keeps K R) (E : Env) (l : Line κ) :
    (lineDriver R).Adds l (piece E l.taken l.chcount (ebcdic '%') l.format) (onespec K E l) := by
  have hcount : ∀ {t p : Bytes}, t.length + p.length < 2 ^ 31 → l.chcount = t.length →
      toLong (l.chcount + p.length) = ((t ++ p).length : Nat) := by
    intro t p hsmall hl
    rw [hl, List.length_append]
    exact toLong_of_small (by omega) (by omega)
  unfold onespec piece
  dsimp only
  rw [if_neg (not_not.mpr rfl)]
  split_ifs
  · exact ⟨rfl, rfl, (List.append_nil _).symm, fun hsmall h => ⟨hcount hsmall h.1, hK.foldl _ h.2⟩⟩
  · exact ⟨rfl, rfl, (List.append_nil _).symm, fun hsmall h => ⟨hcount hsmall h.1, hK.outs _ h.2⟩⟩
  · exact ⟨rfl, rfl, (List.append_nil _).symm, fun hsmall h => ⟨hcount hsmall h.1, hK.outs _ h.2⟩⟩
  · exact ⟨rfl, rfl, (List.append_nil _).symm, fun hsmall h => ⟨hcount hsmall h.1, hK.out1 _ h.2⟩⟩
  · refine ⟨rfl, rfl, rfl, fun _ h => ?_⟩
    rw [List.append_nil]
    exact h
  · refine ⟨rfl, rfl, (List.append_nil _).symm, fun hsmall h => ⟨hcount hsmall h.1, ?_⟩⟩
    have hone := hK.out1 (ebcdic '%').toNat h.2
    rw [charByte_toNat] at hone
    exact hone
  · have hextra := examin_extraCh E l.format l.taken l.chcount
    refine ⟨rfl, rfl, rfl, fun hsmall h => ?_⟩
    dsimp only at hsmall
    have hlong : (examin E l.format l.taken l.chcount).extraCh = (examin E l.format l.taken l.chcount).out.length := by
      rw [hextra]
      exact toLong_of_lt (by omega)
    refine ⟨?_, ?_⟩
    · show toLong (l.chcount + (examin E l.format l.taken l.chcount).extraCh) = _
      rw [hlong]
      exact hcount hsmall h.1
    · show R (K.conv l.sink (examin E l.format l.taken l.chcount).out (examin E l.format l.taken l.chcount).extraCh) _
      rw [hlong]
      exact hK.conv _ (by unfold intMax; omega) h.2

theorem lineTurn_follows (hK : Keeps K R) (E : Env) : (lineDriver R).Follows E (lineTurn K E) where
  count h := h.1
  done {l} hf := by
    replace hf : l.format = [] := hf
    rw [lineTurn, hf]
  adds {l c f} hf := by
    replace hf : l.format = c :: f := hf
    unfold lineTurn
    rw [hf]
    dsimp only
    split
    · next hc =>
      subst hc
      obtain ⟨hformat, htaken, hstores, hprints⟩ := onespec_adds hK E { l with format := f }
      exact ⟨_, rfl, hformat, htaken, hstores, hprints⟩
    · next hc =>
      have hpiece : piece E l.taken l.chcount c f = ⟨[c], [], l.taken, f⟩ := if_pos hc
      refine ⟨_, rfl, ?_⟩
      show (lineDriver R).Adds l (piece E l.taken l.chcount c f) _
      rw [hpiece]
      refine ⟨rfl, rfl, (List.append_nil _).symm, fun {t} hsmall h => ⟨?_, ?_⟩⟩
      · show toLong (l.chcount + 1) = _
        rw [h.1, List.length_append]
        exact toLong_of_small (by omega) (by dsimp only [List.length_singleton] at hsmall ⊢; omega)
      · have hone := hK.out1 c.toNat h.2
        rw [charByte_toNat] at hone
        exact hone

/-! ### `vsnprintf()` -/

/-- A string with a budget holds the front of a text, and has counted all of it. -/
structure Bounded.Holds (lim : Nat) (b : Bounded) (t : Bytes) : Prop where
  count : b.chcount = t.length
  s : b.text.s = (min t.length lim : Nat)
  writes : b.text.writes = placed 0 (t.take lim)

variable {lim : Nat}

theorem Bounded.Holds.out {b : Bounded} {t : Bytes} (h : b.Holds lim t) (c : UInt8) (hsmall : t.length + 1 < 2 ^ 31) :
    (b.out lim c).Holds lim (t ++ [c]) := by
  have hlong : toLong (b.chcount + 1) = ((t ++ [c]).length : Nat) := by
    rw [h.count, List.length_append, List.length_singleton]
    exact toLong_of_small (by omega) (by omega)
  unfold Bounded.out
  by_cases hroom : b.chcount < lim
  · have hcount := h.count
    refine ⟨hlong, ?_, ?_⟩
    · rw [if_pos hroom, List.length_append, List.length_singleton]
      simp only [Text.store, h.s]
      omega
    · have htake : t.take lim = t := List.take_of_length_le (by omega)
      have htake' : (t ++ [c]).take lim = t ++ [c] := List.take_of_length_le (by simp; omega)
      rw [if_pos hroom, htake', placed_append]
      simp only [Text.store, h.s, h.writes, htake, placed, zero_add]
      congr 4
      omega
  · have hcount := h.count
    refine ⟨hlong, ?_, ?_⟩
    · rw [if_neg hroom, h.s, List.length_append]
      congr 1
      omega
    · rw [if_neg hroom, h.writes, List.take_append_of_le_length (by omega)]

theorem Bounded.Holds.foldl {b : Bounded} {t : Bytes} (h : b.Holds lim t) (p : Bytes)
    (hsmall : t.length + p.length < 2 ^ 31) : (p.foldl (Bounded.out lim) b).Holds lim (t ++ p) := by
  induction p generalizing b t with
  | nil =>
    rw [List.append_nil]
    exact h
  | cons c p ih =>
    rw [List.length_cons] at hsmall
    rw [List.foldl_cons, List.append_cons]
    exact ih (h.out c (by omega)) (by rw [List.length_append, List.length_singleton]; omega)

/-- Printing leaves the arguments and the stores alone. -/
theorem foldl_stores (lim : Int) (p : Bytes) (b : Bounded) : (p.foldl (Bounded.out lim) b).stores = b.stores := by
  induction p generalizing b with
  | nil => rfl
  | cons c p ih => exact ih _

theorem stepOver_spec (lim : Nat) (k : Nat) (b : Bounded) {a : Nat} (hcount : b.chcount = a) (hsmall : a + k < 2 ^ 31) :
    Bounded.stepOver lim k b = {b with
      text := {b.text with s := b.text.s + ((min (a + k) lim : Nat) - (min a lim : Nat))}, chcount :=
        (a + k : Nat)} := by
  induction k generalizing b a with
  | zero => simp [Bounded.stepOver, ← hcount]
  | succ k ih =>
    have hone : toLong (b.chcount + 1) = (a + 1 : Nat) := by
      rw [hcount]
      exact toLong_of_small (by omega) (by omega)
    rw [Bounded.stepOver, ih _ hone (by omega)]
    have hs : (if b.chcount < lim then {b.text with s := b.text.s + 1} else b.text) =
        {b.text with s := b.text.s + ((min (a + 1) lim : Nat) - (min a lim : Nat))} := by
      split
      · rw [show ((min (a + 1) lim : Nat) : Int) - (min a lim : Nat) = 1 by omega]
      · rw [show ((min (a + 1) lim : Nat) : Int) - (min a lim : Nat) = 0 by omega, add_zero]
    rw [hs, show a + 1 + k = a + (k + 1) by omega]
    dsimp only
    congr 2
    omega

theorem stepOver_keeps (lim : Int) (k : Nat) (b : Bounded) :
    (Bounded.stepOver lim k b).format = b.format ∧ (Bounded.stepOver lim k b).taken = b.taken ∧
      (Bounded.stepOver lim k b).stores = b.stores := by
  induction k generalizing b with
  | zero => exact ⟨rfl, rfl, rfl⟩
  | succ k ih => exact ih _

/-- A change that is not one of the text or the count. -/
theorem Bounded.Holds.of_eq {b b' : Bounded} {t : Bytes} (h : b.Holds lim t) (hcount : b'.chcount = b.chcount)
    (htext : b'.text = b.text) : b'.Holds lim t :=
  ⟨hcount.trans h.count, by rw [htext, h.s], by rw [htext, h.writes]⟩

/-- `vsnprintf()` as a driver. -/
def boundedDriver (lim : Nat) : Driver Bounded where
  format b := b.format
  taken b := b.taken
  stores b := b.stores
  count b := b.chcount
  prints b t := b.Holds lim t

theorem sequence_adds (hlim : lim ≤ intMax) (E : Env) (b : Bounded) :
    (boundedDriver lim).Adds b (piece E b.taken b.chcount (ebcdic '%') b.format) (b.sequence lim E) := by
  have hfoldl : ∀ (p : Bytes) (taken : Nat) (format : Bytes),
      (boundedDriver lim).Adds b ⟨p, [], taken, format⟩ {p.foldl (Bounded.out lim) b with taken, format} := by
    intro p taken format
    refine ⟨rfl, rfl, ?_, fun hsmall h => (h.foldl p hsmall).of_eq rfl rfl⟩
    rw [List.append_nil]
    exact foldl_stores _ p b
  unfold Bounded.sequence piece
  dsimp only
  rw [if_neg (not_not.mpr rfl)]
  split_ifs
  · exact hfoldl ..
  · exact hfoldl ..
  · exact hfoldl ..
  · exact hfoldl [_] ..
  · refine ⟨rfl, rfl, rfl, fun _ h => ?_⟩
    rw [List.append_nil]
    exact h.of_eq rfl rfl
  · exact hfoldl [_] ..
  · have hextra := examin_extraCh E b.format b.taken b.chcount
    generalize examin E b.format b.taken b.chcount = r at hextra ⊢
    obtain ⟨b₁, hb₁⟩ : ∃ b₁ : Bounded, b₁ = {b with
        text := {b.text with
          writes := b.text.writes ++ placed b.text.s (r.out.take (max 0 (toLong (lim - b.chcount))).toNat)}
        stores := b.stores ++ r.stores, taken := r.taken, format := r.rest} := ⟨_, rfl⟩
    rw [← hb₁]
    obtain ⟨hformat, htaken, hstores⟩ := stepOver_keeps lim r.extraCh.toNat b₁
    refine ⟨hformat.trans (by rw [hb₁]), htaken.trans (by rw [hb₁]), hstores.trans (by rw [hb₁]; rfl),
      fun {t} hsmall h => ?_⟩
    dsimp only at hsmall ⊢
    have hcount := h.count
    have hleft : (max 0 (toLong (lim - b.chcount))).toNat = lim - t.length := by
      have hfits : toLong (lim - b.chcount) = lim - b.chcount := by
        unfold intMax at hlim
        exact Int.bmod_eq_of_le (by omega) (by omega)
      rw [hfits]
      omega
    have hk : r.extraCh.toNat = r.out.length := by
      rw [hextra, toLong_of_lt (by omega), Int.toNat_natCast]
    have hcount₁ : b₁.chcount = (t.length : Nat) := by
      rw [hb₁]
      exact hcount
    rw [hk, stepOver_spec lim r.out.length b₁ hcount₁ hsmall, hb₁, hleft]
    refine ⟨?_, ?_, ?_⟩
    · dsimp only
      rw [List.length_append]
    · dsimp only
      rw [h.s, List.length_append]
      omega
    · dsimp only
      rw [h.writes, h.s, List.take_append, placed_append, List.length_take, zero_add, Nat.min_comm]

theorem boundedTurn_follows (hlim : lim ≤ intMax) (E : Env) : (boundedDriver lim).Follows E (boundedTurn lim E) where
  count h := h.count
  done {b} hf := by
    replace hf : b.format = [] := hf
    rw [boundedTurn, hf]
  adds {b c f} hf := by
    replace hf : b.format = c :: f := hf
    unfold boundedTurn
    rw [hf]
    dsimp only
    split
    · next hc =>
      subst hc
      obtain ⟨hformat, htaken, hstores, hprints⟩ := sequence_adds hlim E { b with format := f }
      exact ⟨_, rfl, hformat, htaken, hstores, fun hsmall h => hprints hsmall (h.of_eq rfl rfl)⟩
    · next hc =>
      have hpiece : piece E b.taken b.chcount c f = ⟨[c], [], b.taken, f⟩ := if_pos hc
      refine ⟨_, rfl, ?_⟩
      show (boundedDriver lim).Adds b (piece E b.taken b.chcount c f) _
      rw [hpiece]
      exact ⟨rfl, rfl, (List.append_nil _).symm, fun hsmall h => (h.out c hsmall).of_eq rfl rfl⟩

/-! ### What is printed -/

theorem vvprintf_says (hK : Keeps K R) (E : Env) (format : Bytes) {k : κ} (h : R k []) :
    (lineDriver R).Says (vvprintf K E format k) (meaning E format) :=
  (lineTurn_follows hK E).run (s := ⟨k, 0, [], 0, format⟩) rfl rfl ⟨rfl, h⟩

/-- `vsprintf()` prints the meaning, and a NUL. -/
theorem vsprintf_eq (E : Env) (format : CString) (h : (meaning E format.1).text.length < 2 ^ 31) :
    vsprintf E format = ⟨(meaning E format.1).text.length, (meaning E format.1).stores,
      placed 0 ((meaning E format.1).text ++ [0])⟩ := by
  have hsays := ( vvprintf_says stringSink_keeps E format.1 (k := ⟨0, []⟩) ⟨rfl, rfl⟩).small h
  unfold vsprintf
  generalize vvprintf stringSink E format.1 ⟨0, []⟩ = l at hsays ⊢
  obtain ⟨hstores, hcount, -, hwrites⟩ := hsays
  replace hstores : l.stores = (meaning E format.1).stores := hstores
  dsimp only
  rw [hcount, hstores, hwrites, if_pos (by omega), placed_append, zero_add]
  rfl

theorem budget_eq (n : Nat) : budget n = (min (n - 1) intMax : Nat) := by
  unfold budget
  split <;> omega

theorem bounded_says (hlim : lim ≤ intMax) (E : Env) (format : Bytes) :
    (boundedDriver lim).Says (run id (boundedTurn lim E) (format.length + 1) ⟨⟨0, []⟩, 0, [], 0, format⟩)
      (meaning E format) :=
  (boundedTurn_follows hlim E).run (s := ⟨⟨0, []⟩, 0, [], 0, format⟩) rfl rfl ⟨rfl, by simp, by simp [placed]⟩

/-- `vsnprintf()` prints as much of it as there is room for, and a NUL. -/
theorem vsnprintf_eq (E : Env) (n : Nat) (format : CString) (h : (meaning E format.1).text.length < 2 ^ 31) :
    vsnprintf E n format = ⟨(meaning E format.1).text.length, (meaning E format.1).stores,
      if n = 0 then [] else placed 0 ((meaning E format.1).text.take (n - 1) ++ [0])⟩ := by
  have hsays := ( bounded_says (Nat.min_le_right (n - 1) intMax) E format.1).small h
  unfold vsnprintf
  rw [budget_eq]
  generalize run id (boundedTurn (min (n - 1) intMax : Nat) E) (format.1.length + 1) ⟨⟨0, []⟩, 0, [], 0, format.1⟩ = b
    at hsays ⊢
  obtain ⟨hstores, hcount, hs, hwrites⟩ := hsays
  replace hstores : b.stores = (meaning E format.1).stores := hstores
  have htake : (meaning E format.1).text.take (min (n - 1) intMax) = (meaning E format.1).text.take (n - 1) := by
    rw [← List.take_take, List.take_of_length_le (show _ ≤ intMax by unfold intMax; omega)]
  dsimp only
  rw [hcount, hstores, hwrites, hs, htake]
  congr 1
  by_cases hn : n = 0
  · rw [if_neg (by omega), if_pos hn, hn]
    simp [placed]
  · rw [if_pos (by omega), if_neg hn, placed_append, zero_add, List.length_take]
    simp only [placed]
    congr 4
    unfold intMax
    omega

/-- What `vfprintf()` hands a stream is the meaning. -/
theorem vfprintf_hands (E : Env) (fp : File) (format : CString) (h : (meaning E format.1).text.length < 2 ^ 31)
    (hw : fp.write = true) :
    (vfprintf E fp format).1.flatMap Put.bytes = (meaning E format.1).text ∧
      (vfprintf E fp format).2.1 =
        (if (vfprintf E fp format).2.2.2.error then -1 else ((meaning E format.1).text.length : Int)) ∧
      (vfprintf E fp format).2.2.1 = (meaning E format.1).stores := by
  have hsays := ( vvprintf_says fileSink_keeps E format.1 (k := []) rfl).small h
  unfold vfprintf
  rw [hw]
  generalize vvprintf fileSink E format.1 [] = l at hsays ⊢
  obtain ⟨hstores, hcount, hhands⟩ := hsays
  refine ⟨hhands, ?_, hstores⟩
  simp only [Bool.not_true, Bool.false_eq_true, if_false]
  rw [hcount]

theorem placed_bounds (bs : Bytes) (s : Int) : ∀ w ∈ placed s bs, s ≤ w.1 ∧ w.1 < s + bs.length := by
  induction bs generalizing s with
  | nil => simp [placed]
  | cons b bs ih =>
    intro w hw
    rw [List.length_cons]
    rcases List.mem_cons.mp hw with rfl | hw
    · exact ⟨le_rfl, by omega⟩
    · have hrest := ih (s + 1) w hw
      exact ⟨by omega, by omega⟩

/-- What the drivers have in common. There is one text for a format and its arguments:
`vsprintf()` stores it, `vsnprintf()` the front of it that there is room for, within the
buffer, and a stream that takes output is handed it. The counts are the same, but for an
output error. -/
def Agree (E : Env) (format : CString) (n : Nat) (fp : File) : Prop :=
  ∃ text : Bytes,
    ((vsprintf E format).writes = placed 0 (text ++ [0]) ∧ (vsprintf E format).count = text.length) ∧
    ((vsnprintf E n format).count = (vsprintf E format).count ∧
      (vsnprintf E n format).stores = (vsprintf E format).stores ∧
      (vsnprintf E n format).writes = (if n = 0 then [] else placed 0 (text.take (n - 1) ++ [0])) ∧
      ∀ w ∈ (vsnprintf E n format).writes, 0 ≤ w.1 ∧ w.1 < n) ∧
    if fp.write then
      (vfprintf E fp format).1.flatMap Put.bytes = text ∧
        (vfprintf E fp format).2.1 = (if (vfprintf E fp format).2.2.2.error then -1 else (vsprintf E format).count) ∧
        (vfprintf E fp format).2.2.1 = (vsprintf E format).stores
    else (vfprintf E fp format).1 = [] ∧ (vfprintf E fp format).2.1 = -1

/-- **The drivers agree** on every format whose text can be counted. -/
theorem drivers_agree (E : Env) (format : CString) (n : Nat) (fp : File)
    (h : (meaning E format.1).text.length < 2 ^ 31) : Agree E format n fp := by
  have hs := vsprintf_eq E format h
  have hsn := vsnprintf_eq E n format h
  refine ⟨(meaning E format.1).text, ?_, ?_, ?_⟩
  · rw [hs]
    exact ⟨rfl, rfl⟩
  · rw [hs, hsn]
    refine ⟨rfl, rfl, rfl, ?_⟩
    intro w hw
    by_cases hn : n = 0
    · simp [hn] at hw
    · dsimp only at hw
      rw [if_neg hn] at hw
      have hbounds := placed_bounds _ _ w hw
      rw [List.length_append, List.length_take, List.length_singleton] at hbounds
      exact ⟨hbounds.1, by omega⟩
  · split
    · next hw =>
      rw [hs]
      exact vfprintf_hands E fp format h hw
    · next hw =>
      have hclosed : fp.write = false := by simpa using hw
      simp [vfprintf, hclosed]

theorem nul_not_mem_nil : (0 : UInt8) ∉ ([] : Bytes) := List.not_mem_nil

/-- Arguments that are all 7, and converters that have nothing to say. -/
def sevens : Env where
  word _ := 7
  str _ := ⟨[], nul_not_mem_nil⟩
  dblcvt _ _ := ⟨[], nul_not_mem_nil⟩
  dblcvx _ _ _ _ := ⟨[], nul_not_mem_nil⟩

/-- `%3d` into two bytes. -/
theorem drivers_agree_sevens :
    (meaning sevens (literal "%3d")).text.length < 2 ^ 31 ∧
      Agree sevens ⟨literal "%3d", by decide⟩ 2 (emptyRecord.fopenRead true) :=
  ⟨by decide +kernel, drivers_agree sevens ⟨literal "%3d", by decide⟩ 2 (emptyRecord.fopenRead true)
    (by decide +kernel)⟩

/-- A stream that is open for reading is handed nothing, and the answer is no count. -/
theorem reading_stream_refuses : ¬ ∀ (E : Env) (format : CString) (fp : File),
    (meaning E format.1).text.length < 2 ^ 31 →
      (vfprintf E fp format).1.flatMap Put.bytes = (meaning E format.1).text ∧
        (vfprintf E fp format).2.1 = (vsprintf E format).count := by
  intro h
  have hcount := (h sevens ⟨literal "a", by decide⟩ (emptyRecord.fopenRead true) (by decide +kernel)).2
  have hdiffer : (vfprintf sevens (emptyRecord.fopenRead true) ⟨literal "a", by decide⟩).2.1 ≠
      (vsprintf sevens ⟨literal "a", by decide⟩).count := by decide +kernel
  exact hdiffer hcount

end Libc370.Printf
