import Libc370.Mvs.DsalcUnits
import Libc370.Stdlib.Strtol

/-! The mode string of an open (`stdio/@@fpmode.c`, `@@fpopen.c`, `@@fpnew.c`, `@@fptmp.c`).

`__fpmode()` folds the mode into `fp->mode` and takes its letters and three of the options;
the others are found there again by the function that opens: `__fpopen()` for a DD,
`__fpnew()` for a new data set, in a copy it edits in place, and `__fpdcb()` for a temporary
one, with a buffer a value.

A pointer is what lies from there to the end of its array. What is read or written behind
that is outside, and an end like a function that fails. The sizes of the arrays are parameters. -/
namespace Libc370.OpenMode

open Libc370.Dynalloc (recfmType bkszAsks)
open Ext (tok tokens)

abbrev Bytes := List UInt8

/-- A function that does not return what it is asked for: it leaves an array, or fails. -/
inductive Stop | outside | failed
  deriving DecidableEq, Repr

abbrev Run := Except Stop

/-- `tolower()` on a character. -/
def lower (c : UInt8) : UInt8 := UInt8.ofNat (tolower c.toNat).toNat

/-! ### Strings in arrays -/

/-- The comparison of `strstr()` at one place. -/
def agrees : Bytes → Bytes → Run Bool
  | [], _ => .ok true
  | _ :: _, [] => .error .outside
  | d :: s2, c :: p1 => if c = d then agrees s2 p1 else .ok false

/-- `strstr()`, for a string to look for that is not empty. -/
def strstr (s2 : Bytes) : Bytes → Run (Option Bytes)
  | [] => .error .outside
  | c :: p =>
    if c = 0 then .ok none
    else do
      if ← agrees s2 (c :: p) then .ok (some (c :: p)) else strstr s2 p

/-- `strcpy()` into an array. -/
def strcpy : Bytes → Bytes → Run Bytes
  | [], _ => .error .outside
  | _ :: _, [] => .error .outside
  | c :: src, _ :: dst => if c = 0 then .ok (0 :: dst) else (c :: ·) <$> strcpy src dst

/-- A string, up to its NUL. -/
def cstr (s : Bytes) : Run Bytes := if 0 ∈ s then .ok (s.takeWhile (· ≠ 0)) else .error .outside

/-- The flags of a handle that the mode sets. -/
structure Flags where
  read : Bool := false
  write : Bool := false
  append : Bool := false
  binary : Bool := false
  record : Bool := false
  bsam : Bool := false
  rlse : Bool := false
  posend : Bool := false
  extend : Bool := false
  dcbout : Bool := false
  deriving DecidableEq, Repr

/-- The flags of the options that `__fpmode()` takes. -/
def Flags.options (f : Flags) : Bool × Bool × Bool := (f.record, f.bsam, f.rlse)

/-- The handle: the flags and `mode`. -/
structure File where
  flags : Flags
  mode : Bytes
  deriving DecidableEq, Repr

/-- One letter of the mode. -/
def letter (flags : Flags) (c : UInt8) : Run Flags :=
  if c = ebcdic 'a' then
    if flags.read then .error .failed else .ok {flags with write := true, append := true}
  else if c = ebcdic 'b' then .ok {flags with binary := true}
  else if c = ebcdic 'r' then
    if flags.write then .error .failed else if flags.append then .error .failed else .ok {flags with read := true}
  else if c = ebcdic 'w' then
    if flags.read then .error .failed else .ok {flags with write := true}
  else if c = ebcdic '+' then
    if flags.read || flags.write then .ok {flags with read := true, write := true} else .error .failed
  else .ok flags

/-- The loop over the letters, with what is in the array so far: up to a comma, the end of the mode or
that of the array. What is left of the mode starts with the comma. -/
def letterLoop (size : Nat) : Bytes → Bytes → Flags → Run (Bytes × Bytes × Flags)
  | done, [], flags => .ok (done, [], flags)
  | done, ch :: mode, flags =>
    if size ≤ done.length then .ok (done, [], flags)
    else if lower ch = ebcdic ',' then .ok (done, ch :: mode, flags)
    else do
      let flags ← letter flags (lower ch)
      letterLoop size (done ++ [lower ch]) mode flags

/-- The options that `__fpmode()` looks for, in the array from the comma on. -/
def listed (list : Bytes) (flags : Flags) : Run Flags := do
  let record ← strstr (literal "record") list
  let bsam ← strstr (literal "bsam") list
  let rlse ← strstr (literal "rlse") list
  .ok {flags with record := record.isSome, bsam := bsam.isSome, rlse := rlse.isSome}

/-- The end of `__fpmode()`. -/
def check (first : UInt8) (flags : Flags) : Run Flags := do
  if !(flags.read || flags.write) then .error .failed
  let flags ←
    if flags.read && flags.write then
      if flags.record then .error .failed
      else .ok {flags with posend := flags.append, extend := first ≠ ebcdic 'w'}
    else .ok flags
  .ok {flags with dcbout := flags.write && !(flags.read && first = ebcdic 'r')}

/-- `__fpmode()` on a new handle whose `mode` has so many bytes. -/
def fpmode (size : Nat) (mode : Bytes) : Run File := do
  let (done, rest, flags) ← letterLoop size [] mode {}
  let list := (rest.take (size - done.length)).map lower
  let array := done ++ list ++ List.replicate (size - (done ++ list).length) 0
  let flags ← if rest = [] then .ok flags else listed (array.drop done.length) flags
  let flags ← check (array.headD 0) flags
  .ok ⟨flags, array⟩

/-! ### `__fpopen()` -/

/-- A letter behind the format's own. -/
def recfmLetter (c : UInt8) : Option UInt8 :=
  if c = ebcdic 't' then some 0x20
  else if c = ebcdic 'b' then some 0x10
  else if c = ebcdic 's' then some 0x08
  else if c = ebcdic 'a' then some 0x04
  else if c = ebcdic 'm' then some 0x02
  else none

/-- What ends a record format. -/
def formatEnd (c : UInt8) : Bool := c = 0 || c = ebcdic ',' || c = ebcdic ')' || c = ebcdic ' '

/-- The loop over the letters of a record format. -/
def formatLoop : Bytes → UInt8 → Run UInt8
  | [], _ => .error .outside
  | c :: p, bits =>
    if formatEnd c then .ok bits
    else
      match recfmLetter c with
      | none => .error .failed
      | some bit => formatLoop p (bits ||| bit)

/-- The first letter of a record format: its bits, and its index. -/
def formatType (c : UInt8) : Option (UInt8 × Nat) :=
  if c = ebcdic 'f' then some (0x80, 0)
  else if c = ebcdic 'v' then some (0x40, 1)
  else if c = ebcdic 'u' then some (0xC0, 2)
  else none

/-- The record format: the index, and the bits above it. -/
def format : Bytes → Run Nat
  | [] => .error .outside
  | c :: p =>
    match formatType c with
    | none => .error .failed
    | some (bits, index) => do
      let bits ← formatLoop p bits
      if bits &&& 0x06 = 0x06 then .error .failed else .ok (index ||| bits.toNat <<< 8)

/-- `strtol(p, 0, 10)`, which reads up to what is no part of a number. -/
def strtol (p : Bytes) : Run Int :=
  let s := p.dropWhile fun c => isspace c.toNat
  let s := if s.head? = some (ebcdic '-') ∨ s.head? = some (ebcdic '+') then s.tail else s
  if s.dropWhile (fun c => digval c.toNat < 10) = [] then .error .outside
  else .ok (Strto.strtol (p.takeWhile (· ≠ 0)) false 10).ret

/-- The options of a new data set, each with its value. -/
structure New where
  recfm : Option Bytes
  lrecl : Option Bytes
  blksize : Option Bytes
  space : Option Bytes
  unit : Option Bytes
  volser : Option Bytes
  mount : Bool
  deriving DecidableEq, Repr

/-- A word of the copy. -/
def New.take (o : New) (p : Bytes) : New :=
  if literal "RECFM=" <:+: p then {o with recfm := some (p.drop 6)}
  else if literal "LRECL=" <:+: p then {o with lrecl := some (p.drop 6)}
  else if literal "BLKSIZE=" <:+: p then {o with blksize := some (p.drop 8)}
  else if literal "SPACE=" <:+: p then {o with space := some (p.drop 6)}
  else if literal "UNIT=" <:+: p then {o with unit := some (p.drop 5)}
  else if literal "VOLSER=" <:+: p then {o with volser := some (p.drop 7)}
  else if p = literal "MOUNT" then {o with mount := true}
  else o

/-- What ends a value. -/
def valueEnds : Bytes := literal " ,)"

/-- The values that are handed on. -/
structure Dcb where
  recfm : Bytes
  lrecl : Bytes
  blksize : Option Bytes
  deriving DecidableEq, Repr

/-- What the environment has for a data set. -/
structure Env where
  recfm : Option Bytes
  lrecl : Option Bytes
  blksize : Option Bytes

/-- A format is blocked. -/
def blocked (recfm : Bytes) : Bool := ebcdic 'B' ∈ recfm || ebcdic 'b' ∈ recfm

/-- The letters in front of the list of options, and the list from its comma on. -/
def letters (text : Bytes) : Bytes := text.takeWhile (· ≠ ebcdic ',')

def list (text : Bytes) : Bytes := text.dropWhile (· ≠ ebcdic ',')

/-- The place of a string in another. -/
def find (s2 : Bytes) : Bytes → Option Bytes
  | [] => none
  | c :: p => if s2 <+: c :: p then some (c :: p) else find s2 p

theorem string_split {t : Bytes} (ht : 0 ∉ t) (z : Bytes) :
    (t ++ 0 :: z).takeWhile (· ≠ 0) = t ∧ (t ++ 0 :: z).dropWhile (· ≠ 0) = 0 :: z := by
  have hall : ∀ c ∈ t, decide (c ≠ 0) = true := fun c hc => decide_eq_true fun h => ht (h ▸ hc)
  constructor
  · rw [List.takeWhile_append_of_pos hall, List.takeWhile_cons_of_neg (by simp), List.append_nil]
  · rw [List.dropWhile_append_of_pos hall, List.dropWhile_cons_of_neg (by simp)]

theorem cstr_nul {t : Bytes} (ht : 0 ∉ t) (z : Bytes) : cstr (t ++ 0 :: z) = .ok t := by
  rw [cstr, if_pos (by simp), (string_split ht z).1]

/-- The part of the mode that an array takes, folded. -/
def taken (size : Nat) (mode : Bytes) : Bytes := (mode.take size).map lower

/-- What is left of the mode behind its letters: nothing where the array takes no comma. -/
def left (size : Nat) (mode : Bytes) : Bytes :=
  if list (taken size mode) = [] then [] else mode.drop (letters (taken size mode)).length

/-- The letters that say how the file is opened. -/
def directions (letters : Bytes) : Bytes := letters.filter (· ∈ literal "arw+")

/-- `r`, or `a` and `w`, and behind them only plus signs. -/
def Consistent (ds : Bytes) : Prop :=
  ds.head? ≠ some (ebcdic '+') ∧ ((∀ c ∈ ds.dropWhile (· = ebcdic 'r'), c = ebcdic '+') ∨
    ∀ c ∈ ds.dropWhile (fun c => c = ebcdic 'a' ∨ c = ebcdic 'w'), c = ebcdic '+')

/-- How far a handle's direction has been said. -/
inductive Said | nothing | reading | writing | both
  deriving DecidableEq

/-- What may follow. -/
def Follows : Said → Bytes → Prop
  | .nothing, ds => Consistent ds
  | .reading, ds => ∀ c ∈ ds.dropWhile (· = ebcdic 'r'), c = ebcdic '+'
  | .writing, ds => ∀ c ∈ ds.dropWhile (fun c => c = ebcdic 'a' ∨ c = ebcdic 'w'), c = ebcdic '+'
  | .both, ds => ∀ c ∈ ds, c = ebcdic '+'

/-- Where a letter leads. -/
def goes (s : Said) (c : UInt8) : Option Said :=
  if c = ebcdic 'a' ∨ c = ebcdic 'w' then if s = .nothing ∨ s = .writing then some .writing else none
  else if c = ebcdic 'r' then if s = .nothing ∨ s = .reading then some .reading else none
  else if c = ebcdic '+' then if s = .nothing then none else some .both
  else some s

/-- The flags of the options in a list. -/
def withOptions (list : Bytes) (f : Flags) : Flags :=
  {f with record := literal "record" <:+: list, bsam := literal "bsam" <:+: list, rlse := literal "rlse" <:+: list}

/-- The list has an end in the array, or all that is looked for. -/
def Through (mode : Bytes) : Prop :=
  mode.length ≤ 84 ∨ list (taken 85 mode) = [] ∨ literal "record" <:+: list (taken 85 mode) ∧
    literal "bsam" <:+: list (taken 85 mode) ∧ literal "rlse" <:+: list (taken 85 mode)

/-- A mode is refused: its letters contradict each other, or they name no direction, or both of them for a record stream. -/
def Refused (mode : Bytes) : Prop :=
  ¬ Consistent (directions (letters (taken 85 mode))) ∨ Through mode ∧
    (directions (letters (taken 85 mode)) = [] ∨
      ebcdic '+' ∈ letters (taken 85 mode) ∧ literal "record" <:+: list (taken 85 mode))

/-- What `__fpmode()` comes to with room for the mode. -/
def opened (mode : Bytes) : Run Flags :=
  ((letters (mode.map lower)).foldlM letter {}).bind fun f =>
    check ((mode.map lower).headD 0) (if list (mode.map lower) = [] then f else withOptions (list (mode.map lower)) f)

theorem ok_bind {α β : Type} (a : α) (f : α → Run β) : (Except.ok a : Run α).bind f = f a := rfl

theorem error_bind {α β : Type} (e : Stop) (f : α → Run β) : (Except.error e : Run α).bind f = .error e := rfl

/-- A function stays in an array with a NUL, and what is behind that does not matter. -/
def Settled {α : Type} (f : Bytes → Run α) (t : Bytes) : Prop := ∃ r, r ≠ .error .outside ∧ ∀ z, f (t ++ 0 :: z) = r

/-- One function behind the other. -/
theorem Settled.bind {α β : Type} {f : Bytes → Run α} {g : α → Bytes → Run β} {t : Bytes} (hf : Settled f t)
    (hg : ∀ a, Settled (g a) t) : Settled (fun p => (f p).bind fun a => g a p) t := by
  obtain ⟨r, hr, hrun⟩ := hf
  cases r with
  | error e => exact ⟨.error e, fun h => hr (congrArg _ (Except.error.inj h)),
      fun z => by dsimp only; rw [hrun z, error_bind]⟩
  | ok a =>
    obtain ⟨r', hr', hrun'⟩ := hg a
    exact ⟨r', hr', fun z => by dsimp only; rw [hrun z, ok_bind, hrun' z]⟩

theorem settled_const {α : Type} {r : Run α} (hr : r ≠ .error .outside) (t : Bytes) : Settled (fun _ => r) t :=
    ⟨r, hr, fun _ => rfl⟩

theorem formatLoop_settled {t : Bytes} (ht : 0 ∉ t) (bits : UInt8) : Settled (fun p => formatLoop p bits) t := by
  induction t generalizing bits with
  | nil => exact ⟨.ok bits, by simp, fun z => rfl⟩
  | cons c t ih =>
    have htail : 0 ∉ t := fun h => ht (List.mem_cons_of_mem c h)
    by_cases hend : formatEnd c = true
    · exact ⟨.ok bits, by simp, fun z => by dsimp only; rw [List.cons_append, formatLoop, if_pos hend]⟩
    · cases hletter : recfmLetter c with
      | none => exact ⟨.error .failed, by simp, fun z => by dsimp only; rw [List.cons_append, formatLoop, if_neg hend,
          hletter]⟩
      | some bit =>
        obtain ⟨r, hr, hrun⟩ := ih htail (bits ||| bit)
        refine ⟨r, hr, fun z => ?_⟩
        dsimp only
        rw [List.cons_append, formatLoop, if_neg hend, hletter]
        exact hrun z

theorem format_settled {t : Bytes} (ht : 0 ∉ t) : Settled format t := by
  cases t with
  | nil => exact ⟨.error .failed, by simp, fun z => rfl⟩
  | cons c t =>
    have htail : 0 ∉ t := fun h => ht (List.mem_cons_of_mem c h)
    cases htype : formatType c with
    | none => exact ⟨.error .failed, by simp, fun z => by rw [List.cons_append, format, htype]⟩
    | some first =>
      obtain ⟨bits, index⟩ := first
      have hend (bits : UInt8) : (if bits &&& 0x06 = 0x06 then .error .failed else .ok
          (index ||| bits.toNat <<< 8) : Run Nat) ≠
          .error .outside := by
        split_ifs <;> simp
      obtain ⟨r, hr, hrun⟩ := (formatLoop_settled htail bits).bind fun bits => settled_const (hend bits) t
      refine ⟨r, hr, fun z => ?_⟩
      rw [List.cons_append, format, htype]
      exact hrun z

/-- What is behind a name. -/
def valueText (t name : Bytes) : Option Bytes :=
  ((find (name ++ [ebcdic '=']) t).or (find (name ++ [ebcdic '(']) t)).map (·.drop (name.length + 1))

/-- The value that a buffer of `n` bytes takes. -/
def handed (n : Nat) (t name : Bytes) : Option Bytes :=
    (valueText t name).bind fun v => (tok valueEnds (some (v.take (n - 1)))).1

/-- The value behind a name, with the delimiters in front of it, has at most 15 characters. -/
def Fits (t name : Bytes) : Prop :=
  ∀ v w, valueText t name = some v → (tok valueEnds (some v)).1 = some w →
    (v.takeWhile (· ∈ valueEnds)).length + w.length ≤ 15

/-- A value that its builder refuses, or one of a format, or the same as of the whole option. -/
def Agree (recfm lrecl blksize recfm' lrecl' blksize' : Option Bytes) : Prop :=
  (∃ v, recfm = some v ∧ recfmType v = 0) ∨
    ((∃ v, recfm = some v ∧ blocked v = true) ∧ ∃ b, blksize = some b ∧ bkszAsks b = none) ∨
    recfm = recfm' ∧ lrecl = lrecl' ∧
      ((∃ v, recfm = some v ∧ blocked v = false) ∨ blksize = blksize' ∨ ∃ b, blksize = some b ∧ bkszAsks b = none)

end Libc370.OpenMode
