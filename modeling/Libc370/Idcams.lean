import Libc370.Ctype
import Libc370.Lib.Loop
import Libc370.Lib.Words

/-! The records IDCAMS reads from a command string (`__idcrec()`, `__idcchk()`).

IDCAMS reads columns 2 to 72 of a record. A line of the command that is longer is
broken at a blank outside quotes, with a `-` as the last character of the record; the
rest follows in the next record, behind one blank. A line with no such blank is refused
by `__idcchk()` before IDCAMS is called. -/
namespace Libc370.Idcams

open Loop Words

/-- `IDCREC_MAX`. -/
def idcrecMax : Nat := 72

def newline : UInt8 := ebcdic '\n'
def blank : UInt8 := ebcdic ' '
def quote : UInt8 := 0x7D
def hyphen : UInt8 := ebcdic '-'

/-- `IDCREC`: the cursor through a command string. -/
structure Idcrec where
  next : List UInt8
  cont : Bool
  deriving DecidableEq, Repr

/-- `pre`: the column the continuation of a line leaves free. -/
def Idcrec.pre (c : Idcrec) : Nat := if c.cont then 1 else 0

/-- The rest of the line at the cursor, `s[0..len-1]`. -/
def Idcrec.line (c : Idcrec) : List UInt8 := c.next.takeWhile (· ≠ newline)

/-- The `for` loop that looks for the blank to break at, from column `i` on. -/
def breakFrom (pre : Nat) : Nat → Bool → Option Nat → List UInt8 → Option Nat
  | _, _, b, [] => b
  | i, quoted, b, c :: s =>
    if pre + i + 2 ≤ idcrecMax then
      if c = quote then breakFrom pre (i + 1) (!quoted) b s
      else if c = blank ∧ quoted = false ∧ 0 < pre + i then breakFrom pre (i + 1) quoted (some i) s
      else breakFrom pre (i + 1) quoted b s
    else b

/-- `b`: where the line at the cursor is broken. -/
def Idcrec.breakAt (c : Idcrec) : Option Nat := breakFrom c.pre 0 false none c.line

/-- `__idcrec()`: the next record, or -1 at the end, or -2 where a line cannot be broken. -/
def idcrec (c : Idcrec) : Except Int (List UInt8 × Idcrec) :=
  let len := c.line.length
  if c.next = [] then .error (-1)
  else if c.pre + len ≤ idcrecMax then
    .ok (List.replicate c.pre blank ++ c.line, ⟨c.next.drop (len + 1), false⟩)
  else
    match c.breakAt with
    | none => .error (-2)
    | some b =>
      .ok (List.replicate c.pre blank ++ c.next.take (b + 1) ++ [hyphen],
        ⟨(c.next.drop (b + 1)).dropWhile (· = blank), true⟩)

/-- One turn of `__idcchk()`. -/
def idcchkTurn (c : Idcrec) : Turn Idcrec (Option Int) :=
  match idcrec c with
  | .ok (_, c') => .again c'
  | .error n => .leave (some (if n = -2 then -2 else 0))

/-- The cursor `__idcchk()` and `idcams()` start with. -/
def Idcrec.start (cmds : CString) : Idcrec := ⟨cmds.1, false⟩

/-- `__idcchk()`; a loop that goes on after a call for each byte is stuck. -/
def idcchk (cmds : CString) : Option Int :=
  run (fun _ => none) idcchkTurn (cmds.1.length + 1) (Idcrec.start cmds)

/-- The cursors the calls of `__idcrec()` start from. -/
def cursors (cmds : CString) : List Idcrec := trail idcchkTurn (cmds.1.length + 1) (Idcrec.start cmds)

def Idcrec.record? (c : Idcrec) : Option (List UInt8) := (idcrec c).toOption.map Prod.fst

/-- The records IDCAMS is given. -/
def records (cmds : CString) : List (List UInt8) := (cursors cmds).filterMap Idcrec.record?

/-! ### What the records of a line are -/

/-- The records of one line put together again: all but the last lose their mark. -/
def rejoin : List (List UInt8) → List UInt8
  | [] => []
  | [r] => r
  | r :: r' :: rs => r.dropLast ++ rejoin (r' :: rs)

/-- The records `recs` say the line: none is too long, all but the last end with the mark,
the last one ends with a `-` only if that is the line's own last character, and together
they have the words and quoted parts of the line. -/
structure Renders (line : List UInt8) (recs : List (List UInt8)) : Prop where
  columns : ∀ r ∈ recs, r.length ≤ idcrecMax
  marked : ∀ r ∈ recs.dropLast, r.getLast? = some hyphen
  ends : ∃ r, recs.getLast? = some r ∧ (r.getLast? = some hyphen → line.getLast? = some hyphen)
  tokens : words blank quote false [] (rejoin recs) = words blank quote false [] line

/-- The records say the lines, one after the other. -/
def RendersAll (ls : List (List UInt8)) (recs : List (List UInt8)) : Prop :=
  ∃ groups : List (List (List UInt8)), groups.flatten = recs ∧ List.Forall₂ Renders ls groups

/-- A command is refused, or its records say its lines. -/
def Translates (cmds : CString) : Prop :=
  idcchk cmds = some (-2) ∨ idcchk cmds = some 0 ∧ RendersAll (lines newline cmds.1) (records cmds)

/-- The line at the cursor is broken, and only blanks are behind the break: a record with
the mark is written, and no further record follows. -/
def Idcrec.Dangles (c : Idcrec) : Prop :=
  idcrecMax < c.pre + c.line.length ∧
    ∃ b, c.breakAt = some b ∧ (c.next.drop (b + 1)).dropWhile (· = blank) = []

/-! ### The break -/

/-- A place where a line may be broken: a blank outside quotes, with room for the mark. -/
def Breaks (pre : Nat) (line : List UInt8) (b : Nat) : Prop :=
  pre + b + 2 ≤ idcrecMax ∧
    ∃ u t, line = u ++ blank :: t ∧ u.length = b ∧ quoted quote false u = false

theorem quoted_concat (q : Bool) (p : List UInt8) (c : UInt8) :
    quoted quote q (p ++ [c]) = if c = quote then !(quoted quote q p) else quoted quote q p := by
  rw [quoted_append]
  rfl

/-- The loop comes out with a place to break, if it has found one or finds one. -/
theorem breakFrom_spec {pre n : Nat} {b : Option Nat} {p s line : List UInt8} (hline : p ++ s = line)
    (hb : ∀ n, b = some n → Breaks pre line n)
    (h : breakFrom pre p.length (quoted quote false p) b s = some n) : Breaks pre line n := by
  induction s generalizing p b with
  | nil => exact hb n h
  | cons c s ih =>
    have hline' : (p ++ [c]) ++ s = line := by rw [← hline, List.append_assoc, List.singleton_append]
    have hlength : (p ++ [c]).length = p.length + 1 := List.length_append
    have hquoted := quoted_concat false p c
    rw [breakFrom] at h
    split_ifs at h with hroom hquote hblank
    · rw [if_pos hquote] at hquoted
      exact ih hline' hb (by rw [hlength, hquoted]; exact h)
    · rw [if_neg hquote] at hquoted
      refine ih hline' (fun m hm => ?_) (by rw [hlength, hquoted]; exact h)
      obtain rfl := Option.some.inj hm
      exact ⟨hroom, p, s, by rw [← hline, hblank.1], rfl, hblank.2.1⟩
    · rw [if_neg hquote] at hquoted
      exact ih hline' hb (by rw [hlength, hquoted]; exact h)
    · exact hb n h

theorem Idcrec.breakAt_spec {c : Idcrec} {b : Nat} (h : c.breakAt = some b) : Breaks c.pre c.line b :=
  breakFrom_spec (List.nil_append _) (fun _ hn => absurd hn (by simp)) h

/-! ### One record -/

theorem blank_ne_quote : blank ≠ quote := by decide

theorem blank_ne_newline : blank ≠ newline := by decide

theorem hyphen_ne_blank : hyphen ≠ blank := by decide

theorem Idcrec.pre_le (c : Idcrec) : c.pre ≤ 1 := by
  unfold Idcrec.pre
  split <;> omega

/-- What a call at a line comes to: the line fits; or it is refused; or it is broken. -/
theorem idcrec_cases {c : Idcrec} (h : c.next ≠ []) :
    (c.pre + c.line.length ≤ idcrecMax ∧
      idcrec c = .ok (List.replicate c.pre blank ++ c.line, ⟨c.next.drop (c.line.length + 1), false⟩)) ∨
    (c.breakAt = none ∧ idcrec c = .error (-2)) ∨
    ∃ b, idcrecMax < c.pre + c.line.length ∧ c.breakAt = some b ∧ b + 1 < c.line.length ∧
      idcrec c = .ok (List.replicate c.pre blank ++ c.line.take (b + 1) ++ [hyphen],
        ⟨(c.next.drop (b + 1)).dropWhile (· = blank), true⟩) := by
  unfold idcrec
  dsimp only
  rw [if_neg h]
  by_cases hfit : c.pre + c.line.length ≤ idcrecMax
  · rw [if_pos hfit]
    exact .inl ⟨hfit, rfl⟩
  · rw [if_neg hfit]
    right
    cases hb : c.breakAt with
    | none => exact .inl ⟨rfl, rfl⟩
    | some b =>
      obtain ⟨hroom, -⟩ := c.breakAt_spec hb
      have hlt : b + 1 < c.line.length := by omega
      have htake : c.next.take (b + 1) = c.line.take (b + 1) := by
        conv_lhs => rw [← List.takeWhile_append_dropWhile (p := (· ≠ newline)) (l := c.next)]
        exact List.take_append_of_le_length hlt.le
      refine .inr ⟨b, by omega, rfl, hlt, ?_⟩
      rw [← htake]

/-- The line at the cursor is the first of the lines that are left. -/
theorem Idcrec.lines_next {c : Idcrec} (h : c.next ≠ []) :
    lines newline c.next = c.line :: lines newline (c.next.drop (c.line.length + 1)) := lines_ne_nil h

/-- A line that fits is a record. -/
theorem Idcrec.fits {c : Idcrec} (h : c.pre + c.line.length ≤ idcrecMax) :
    Renders c.line [List.replicate c.pre blank ++ c.line] where
  columns := by
    intro r hr
    rw [List.mem_singleton.mp hr, List.length_append, List.length_replicate]
    exact h
  marked := fun r hr => absurd hr List.not_mem_nil
  ends := by
    refine ⟨List.replicate c.pre blank ++ c.line, rfl, fun hlast => ?_⟩
    rcases List.eq_nil_or_concat' c.line with hnil | ⟨l, x, hl⟩
    · rw [hnil, List.append_nil] at hlast
      exact absurd (List.eq_of_mem_replicate (List.mem_of_getLast? hlast)) hyphen_ne_blank
    · rw [hl, ← List.append_assoc, List.getLast?_concat] at hlast
      rw [hl, List.getLast?_concat]
      exact hlast
  tokens := words_replicate blank_ne_quote c.pre c.line

/-- What ends a line of more than `n` characters ends what is behind them, if it is no blank. -/
theorem last_behind {line : List UInt8} {n : Nat} (h : n < line.length) :
    ((line.drop n).dropWhile (· = blank)).getLast? = some hyphen ↔ line.getLast? = some hyphen := by
  have hdrop : (line.drop n).getLast? = line.getLast? := by rw [List.getLast?_drop, if_neg (by omega)]
  have hsplit := List.takeWhile_append_dropWhile (p := (· = blank)) (l := line.drop n)
  rw [← hdrop]
  cases hrest : (line.drop n).dropWhile (· = blank) with
  | nil =>
    -- nothing but blanks is left, and none of them is a hyphen
    rw [hrest, List.append_nil] at hsplit
    refine iff_of_false (by simp) fun hlast => ?_
    rw [← hsplit] at hlast
    have hblank := List.mem_takeWhile_imp (List.mem_of_getLast? hlast)
    exact hyphen_ne_blank (by simpa using hblank)
  | cons x rest =>
    rw [hrest] at hsplit
    rw [← hsplit, List.getLast?_append, List.getLast?_cons, Option.some_or]

/-- The first record of a broken line, and the records of what is behind the break. -/
theorem Idcrec.broken {c : Idcrec} {b : Nat} (hb : c.breakAt = some b) (hlt : b + 1 < c.line.length)
    {recs : List (List UInt8)} (h : Renders ((c.line.drop (b + 1)).dropWhile (· = blank)) recs) :
    Renders c.line ((List.replicate c.pre blank ++ c.line.take (b + 1) ++ [hyphen]) :: recs) where
  columns := by
    intro r hr
    rcases List.mem_cons.mp hr with rfl | hr
    · obtain ⟨hroom, -⟩ := c.breakAt_spec hb
      simp only [List.length_append, List.length_replicate, List.length_take, List.length_singleton]
      omega
    · exact h.columns r hr
  marked := by
    obtain ⟨r', hr', -⟩ := h.ends
    have hne : recs ≠ [] := by
      rintro rfl
      cases hr'
    intro r hr
    rw [List.dropLast_cons_of_ne_nil hne] at hr
    rcases List.mem_cons.mp hr with rfl | hr
    · exact List.getLast?_concat
    · exact h.marked r hr
  ends := by
    obtain ⟨r, hr, hlast⟩ := h.ends
    refine ⟨r, ?_, fun hend => (last_behind hlt).mp (hlast hend)⟩
    rw [List.getLast?_cons, hr]
    rfl
  tokens := by
    obtain ⟨-, u, t, hline, hlen, hquoted⟩ := c.breakAt_spec hb
    have htake : c.line.take (b + 1) = u ++ [blank] := by
      rw [hline, ← hlen, List.take_length_add_append]
      rfl
    have hdrop : c.line.drop (b + 1) = t := by
      rw [hline, ← hlen, List.drop_length_add_append]
      rfl
    obtain ⟨r, hr, -⟩ := h.ends
    cases recs with
    | nil => cases hr
    | cons r' rs =>
      have htokens := h.tokens
      rw [hdrop, words_dropWhile blank_ne_quote] at htokens
      calc words blank quote false [] (rejoin (_ :: r' :: rs))
          = words blank quote false [] (List.replicate c.pre blank ++ (u ++ blank :: rejoin (r' :: rs))) := by
            rw [rejoin, List.dropLast_concat, htake]
            simp only [List.append_assoc, List.singleton_append]
        _ = words blank quote false [] (u ++ [blank]) ++ words blank quote false [] (rejoin (r' :: rs)) := by
            rw [words_replicate blank_ne_quote, words_append blank_ne_quote hquoted]
        _ = words blank quote false [] (u ++ [blank]) ++ words blank quote false [] t := by rw [htokens]
        _ = words blank quote false [] c.line := by
            rw [hline, words_append blank_ne_quote hquoted [] t]

/-! ### All records -/

/-- The last record of the last line ends with a `-` only if that line does. -/
theorem RendersAll.last {ls recs : List (List UInt8)} (h : RendersAll ls recs) {l : List UInt8}
    (hl : ls.getLast? = some l) :
    ∃ r, recs.getLast? = some r ∧ (r.getLast? = some hyphen → l.getLast? = some hyphen) := by
  obtain ⟨groups, rfl, hgroups⟩ := h
  induction hgroups with
  | nil => cases hl
  | @cons line group ls groups hline _ ih =>
    rw [List.flatten_cons, List.getLast?_append]
    rw [List.getLast?_cons] at hl
    cases hrest : ls.getLast? with
    | none =>
      rw [hrest] at hl
      obtain ⟨r, hr, hends⟩ := hline.ends
      obtain rfl : line = l := Option.some.inj hl
      have hnone : groups.flatten = [] := by
        obtain rfl := List.getLast?_eq_none_iff.mp hrest
        have hlength := ‹List.Forall₂ Renders [] groups›.length_eq
        rw [List.length_eq_zero_iff.mp hlength.symm]
        rfl
      exact ⟨r, by rw [hnone, hr]; rfl, hends⟩
    | some l' =>
      rw [hrest] at hl
      obtain ⟨r, hr, hends⟩ := ih (hrest.trans hl)
      exact ⟨r, by rw [hr, Option.some_or], hends⟩

/-- The last record has a mark, though the last line does not end with a `-`. -/
def EndsOpen (ls recs : List (List UInt8)) : Prop :=
  ∃ l r, ls.getLast? = some l ∧ recs.getLast? = some r ∧ r.getLast? = some hyphen ∧ l.getLast? ≠ some hyphen

theorem EndsOpen.not_rendersAll {ls recs : List (List UInt8)} (h : EndsOpen ls recs) : ¬ RendersAll ls recs := by
  obtain ⟨l, r, hl, hr, hmark, hopen⟩ := h
  intro hall
  obtain ⟨r', hr', hends⟩ := hall.last hl
  obtain rfl := Option.some.inj (hr.symm.trans hr')
  exact hopen (hends hmark)

/-- What the calls from a cursor come to: the line at one of them is refused; or the records
say the lines, unless a call dangles. -/
def Walked (c : Idcrec) (calls : List Idcrec) (rc : Option Int) : Prop :=
  rc = some (-2) ∧ c.next ≠ [] ∧ (∀ x ∈ calls, ¬ x.Dangles) ∨
    rc = some 0 ∧
      ((∀ x ∈ calls, ¬ x.Dangles) ∧ RendersAll (lines newline c.next) (calls.filterMap Idcrec.record?) ∨
        (∃ x ∈ calls, x.Dangles) ∧ EndsOpen (lines newline c.next) (calls.filterMap Idcrec.record?))

/-- What one more record does to the calls behind it, if its own call does not dangle. -/
theorem Walked.cons {c c' : Idcrec} {calls : List Idcrec} {rc : Option Int} (h : Walked c' calls rc) {r : List UInt8}
    (hrec : idcrec c = .ok (r, c')) (hne : c.next ≠ []) (hdangles : ¬ c.Dangles)
    (hall : ∀ recs, RendersAll (lines newline c'.next) recs → RendersAll (lines newline c.next) (r :: recs))
    (hopen : ∀ recs, EndsOpen (lines newline c'.next) recs → EndsOpen (lines newline c.next) (r :: recs)) :
    Walked c (c :: calls) rc := by
  have hrecord : c.record? = some r := by rw [Idcrec.record?, hrec]; rfl
  have hcalls : (c :: calls).filterMap Idcrec.record? = r :: calls.filterMap Idcrec.record? :=
    List.filterMap_cons_some hrecord
  rcases h with ⟨hrc, -, hnone⟩ | ⟨hrc, ⟨hnone, hrenders⟩ | ⟨⟨x, hx, hdangle⟩, hends⟩⟩
  · exact .inl ⟨hrc, hne, List.forall_mem_cons.mpr ⟨hdangles, hnone⟩⟩
  · exact .inr ⟨hrc, .inl ⟨List.forall_mem_cons.mpr ⟨hdangles, hnone⟩, by rw [hcalls]; exact hall _ hrenders⟩⟩
  · exact .inr ⟨hrc, .inr ⟨⟨x, List.mem_cons_of_mem _ hx, hdangle⟩, by rw [hcalls]; exact hopen _ hends⟩⟩

theorem RendersAll.cons {ls recs group : List (List UInt8)} {l : List UInt8} (h : Renders l group)
    (hrest : RendersAll ls recs) : RendersAll (l :: ls) (group ++ recs) := by
  obtain ⟨groups, rfl, hgroups⟩ := hrest
  exact ⟨group :: groups, rfl, .cons h hgroups⟩

/-- A line that fits is one record more, for one line more. -/
theorem walked_fits {c : Idcrec} (h : c.next ≠ []) (hfit : c.pre + c.line.length ≤ idcrecMax) {c' : Idcrec}
    {r : List UInt8}
    (hrec : idcrec c = .ok (r, c')) (hr : r = List.replicate c.pre blank ++ c.line)
    (hnext : c'.next = c.next.drop (c.line.length + 1)) {calls : List Idcrec} {rc : Option Int}
    (hwalked : Walked c' calls rc) : Walked c (c :: calls) rc := by
  have hlines := Idcrec.lines_next h
  rw [← hnext] at hlines
  refine hwalked.cons hrec h (fun hdangles => absurd hdangles.1 (by omega)) ?_ ?_
  · intro recs hrecs
    rw [hlines, hr]
    exact hrecs.cons (Idcrec.fits hfit)
  · rintro recs ⟨l, r', hl, hr', hends⟩
    refine ⟨l, r', ?_, ?_, hends⟩
    · rw [hlines, List.getLast?_cons, hl]
      rfl
    · rw [List.getLast?_cons, hr']
      rfl

theorem RendersAll.uncons {l : List UInt8} {ls recs : List (List UInt8)} (h : RendersAll (l :: ls) recs) :
    ∃ group recs', recs = group ++ recs' ∧ Renders l group ∧ RendersAll ls recs' := by
  obtain ⟨groups, rfl, hgroups⟩ := h
  cases hgroups with
  | cons hline hrest => exact ⟨_, _, List.flatten_cons, hline, _, rfl, hrest⟩

/-- Where the cursor is behind a break: in the same line, at the first that is no blank. -/
theorem Idcrec.behind {c c' : Idcrec} {b : Nat} (hlt : b + 1 < c.line.length)
    (hnext : c'.next = (c.next.drop (b + 1)).dropWhile (· = blank)) :
    c'.line = (c.line.drop (b + 1)).dropWhile (· = blank) ∧
      c'.next.drop (c'.line.length + 1) = c.next.drop (c.line.length + 1) := by
  obtain ⟨htake, hdrop⟩ := takeWhile_drop hlt.le
  obtain ⟨htake', hdrop'⟩ := takeWhile_dropWhile blank_ne_newline (c.next.drop (b + 1))
  rw [← hnext, htake] at htake'
  rw [← hnext, hdrop] at hdrop'
  refine ⟨htake', ?_⟩
  rw [Idcrec.line, drop_takeWhile, Idcrec.line, drop_takeWhile, hdrop']

/-- A line is broken: one record more, and the rest of the line instead of the line. -/
theorem walked_broken {c : Idcrec} (h : c.next ≠ []) {b : Nat} (hlong : idcrecMax < c.pre + c.line.length)
    (hb : c.breakAt = some b) (hlt : b + 1 < c.line.length) {c' : Idcrec} {r : List UInt8}
    (hrec : idcrec c = .ok (r, c'))
    (hr : r = List.replicate c.pre blank ++ c.line.take (b + 1) ++ [hyphen])
    (hnext : c'.next = (c.next.drop (b + 1)).dropWhile (· = blank)) {calls : List Idcrec} {rc : Option Int}
    (hwalked : Walked c' calls rc) : Walked c (c :: calls) rc := by
  obtain ⟨hline, hlines'⟩ := Idcrec.behind hlt hnext
  have hlines := Idcrec.lines_next h
  have hlast := last_behind hlt
  rw [← hline] at hlast
  by_cases hend : c'.next = []
  · -- nothing follows: the record's mark is left dangling
    have hdangles : c.Dangles := ⟨hlong, b, hb, hnext.symm.trans hend⟩
    have hrecord : c.record? = some r := by rw [Idcrec.record?, hrec]; rfl
    have hcline : c'.line = [] := by rw [Idcrec.line, hend]; rfl
    have hrest : lines newline (c.next.drop (c.line.length + 1)) = [] := by
      rw [← hlines', hend, List.drop_nil]
      rfl
    have hnone : rc = some 0 ∧ calls.filterMap Idcrec.record? = [] := by
      rcases hwalked with ⟨-, hne, -⟩ | ⟨hrc, ⟨-, hrenders⟩ | ⟨-, l, r', hl, -⟩⟩
      · exact absurd hend hne
      · obtain ⟨groups, hflat, hgroups⟩ := hrenders
        rw [hend] at hgroups
        rw [← hflat, List.forall₂_nil_left_iff.mp hgroups]
        exact ⟨hrc, rfl⟩
      · rw [hend] at hl
        cases hl
    refine .inr ⟨hnone.1, .inr ⟨⟨c, List.mem_cons_self, hdangles⟩, c.line, r, ?_, ?_, ?_, ?_⟩⟩
    · rw [hlines, hrest]
      rfl
    · rw [List.filterMap_cons_some hrecord, hnone.2]
      rfl
    · rw [hr, List.getLast?_concat]
    · intro hyp
      rw [← hlast, hcline] at hyp
      cases hyp
  · refine hwalked.cons hrec h ?_ ?_ ?_
    · rintro ⟨-, b', hb', hnil⟩
      obtain rfl := Option.some.inj (hb.symm.trans hb')
      exact hend (hnext.trans hnil)
    · intro recs hrecs
      rw [Idcrec.lines_next hend, hlines'] at hrecs
      obtain ⟨group, recs', rfl, hgroup, hrest⟩ := hrecs.uncons
      rw [hline] at hgroup
      rw [hlines, hr, ← List.cons_append]
      exact hrest.cons (Idcrec.broken hb hlt hgroup)
    · rintro recs ⟨l, r', hl, hr', hmark, hopen⟩
      have hrlast : (r :: recs).getLast? = some r' := by
        rw [List.getLast?_cons, hr']
        rfl
      rw [Idcrec.lines_next hend, hlines', List.getLast?_cons] at hl
      rw [EndsOpen, hlines]
      cases hrest : (lines newline (c.next.drop (c.line.length + 1))).getLast? with
      | none =>
        rw [hrest] at hl
        obtain rfl : c'.line = l := Option.some.inj hl
        refine ⟨c.line, r', ?_, hrlast, hmark, fun hyp => hopen (hlast.mpr hyp)⟩
        rw [List.getLast?_cons, hrest]
        rfl
      | some l' =>
        rw [hrest] at hl
        obtain rfl : l' = l := Option.some.inj hl
        refine ⟨l', r', ?_, hrlast, hmark, hopen⟩
        rw [List.getLast?_cons, hrest]
        rfl

theorem Idcrec.walked (c : Idcrec) {k : Nat} (hk : c.next.length < k) :
    Walked c (trail idcchkTurn k c) (run (fun _ => none) idcchkTurn k c) := by
  refine run_history (fun n c => n = c.next.length) Walked ?_ rfl hk
  clear hk c
  rintro n c rfl
  by_cases hnext : c.next = []
  · have hrec : idcrec c = .error (-1) := if_pos hnext
    have hrecord : c.record? = none := by rw [Idcrec.record?, hrec]; rfl
    have hline : c.line = [] := by rw [Idcrec.line, hnext]; rfl
    refine .inr ⟨some 0, ?_, .inr ⟨rfl, .inl ⟨?_, [], ?_, ?_⟩⟩⟩
    · rw [idcchkTurn, hrec]
      rfl
    · intro x hx hdangles
      rw [List.mem_singleton.mp hx] at hdangles
      have hlong := hdangles.1
      rw [hline] at hlong
      exact absurd (c.pre_le) (by simp [idcrecMax] at hlong; omega)
    · rw [List.filterMap_cons_none hrecord]
      rfl
    · rw [hnext]
      exact .nil
  · have hpos := List.length_pos_iff.mpr hnext
    rcases idcrec_cases hnext with ⟨hfit, hrec⟩ | ⟨hnone, hrefused⟩ | ⟨b, hlong, hb, hlt, hrec⟩
    · refine .inl ⟨_, _, ?_, ?_, rfl, fun t r => walked_fits hnext hfit hrec rfl rfl⟩
      · rw [idcchkTurn, hrec]
      · show (c.next.drop _).length < _
        rw [List.length_drop]
        omega
    · refine .inr ⟨some (-2), ?_, .inl ⟨rfl, hnext, ?_⟩⟩
      · rw [idcchkTurn, hrefused]
        rfl
      · intro x hx
        rw [List.mem_singleton.mp hx]
        rintro ⟨-, b, hb, -⟩
        rw [hnone] at hb
        cases hb
    · refine .inl ⟨_, _, ?_, ?_, rfl, fun t r => walked_broken hnext hlong hb hlt hrec rfl rfl⟩
      · rw [idcchkTurn, hrec]
      · have hle := List.length_dropWhile_le (· = blank) (c.next.drop (b + 1))
        show ((c.next.drop (b + 1)).dropWhile (· = blank)).length < _
        rw [List.length_drop] at hle
        omega

/-- A command with a call that dangles is neither refused nor said. -/
theorem not_translates {cmds : CString} {c : Idcrec} (h : c ∈ cursors cmds) (hdangles : c.Dangles) :
    ¬ Translates cmds := by
  have hwalked := (Idcrec.start cmds).walked (Nat.lt_succ_self cmds.1.length)
  rcases hwalked with ⟨-, -, hnone⟩ | ⟨hrc, ⟨hnone, -⟩ | ⟨-, hopen⟩⟩
  · exact absurd hdangles (hnone c h)
  · exact absurd hdangles (hnone c h)
  · rintro (hrefused | ⟨-, hrenders⟩)
    · cases hrc.symm.trans hrefused
    · exact hopen.not_rendersAll hrenders

/-- **A command is translated exactly when no line of it is broken with only blanks behind
the break**: it is refused, or its records say its lines. -/
theorem translates_iff (cmds : CString) : Translates cmds ↔ ∀ c ∈ cursors cmds, ¬ c.Dangles := by
  refine ⟨fun h c hc hdangles => not_translates hc hdangles h, fun h => ?_⟩
  rcases (Idcrec.start cmds).walked (Nat.lt_succ_self cmds.1.length) with
    ⟨hrc, -, -⟩ | ⟨hrc, ⟨-, hrenders⟩ | ⟨⟨x, hx, hdangles⟩, -⟩⟩
  · exact .inl hrc
  · exact .inr ⟨hrc, hrenders⟩
  · exact absurd hdangles (h x hx)

/-- A blank, 60 letters and 20 blanks: the line is broken at one of these. -/
def trailingBlanks : CString :=
  ⟨blank :: (List.replicate 60 (ebcdic 'X') ++ List.replicate 20 blank), by decide⟩

theorem trailing_blanks_dangle : ¬ Translates trailingBlanks := by
  have hstart : Idcrec.start trailingBlanks ∈ cursors trailingBlanks := by decide +kernel
  exact not_translates hstart ⟨by decide +kernel, 70, by decide +kernel, by decide +kernel⟩

end Libc370.Idcams
