import Libc370.Ctype
import Libc370.Lib.Bytes

/-! The arguments of a program (`mvs/crt/@@start.c`).

What the caller passes has its length in front: of the text of a PARM field, or of a TSO
command buffer with the four bytes before its text. `__start()` copies the text, cuts the copy
in place, and gives `main()` the pieces.

Every read and write is checked against its array, and `none` is one outside. The text behind
the command name is split as `tokens` says, in its own terms. The arguments are these tokens,
unless a blank of a command buffer is where its operands are to start: when it is the first
one, it is the end of the command name that is cut there, and the text with it
(`passes_iff`). -/
namespace Libc370.Start

open Bytes

abbrev Array8 := List UInt8

def blank : UInt8 := ebcdic ' '

/-- `'"'`. -/
def quote : UInt8 := 0x7F

/-- `MAXPARMS`. -/
def maxparms : Nat := 50

/-- The size of `parmbuf`. -/
def bufsize : Nat := 310

/-- `parmLen`. -/
def parmLen (p : Array8) : Nat := number (p.take 2)

/-- The shape of a TSO command buffer. -/
def isTso (p : Array8) : Bool := 4 ≤ parmLen p && p.getD 2 0 == 0

/-- What the caller passes: as many bytes as its length says. -/
structure Parm where
  bytes : Array8
  whole : bytes.length = if isTso bytes then parmLen bytes else parmLen bytes + 2

/-- The program name, with a place for its NUL. -/
abbrev Pgmname := {name : Array8 // name.length = 9}

/-- An element of `argv`. -/
inductive Ptr
  | parmbuf (o : Nat)
  | pgmname
  | null
  deriving DecidableEq, Repr

/-- What `main()` is called with, and the arrays its arguments lie in. -/
structure Main where
  argc : Nat
  argv : List Ptr
  parmbuf : Array8
  pgmname : Array8
  deriving DecidableEq, Repr

/-! ### The code -/

def read (l : Array8) (o n : Nat) : Option Array8 := if o + n ≤ l.length then some (window l o n) else none

def write (l : Array8) (o : Nat) (c : UInt8) : Option Array8 := if o < l.length then some (l.set o c) else none

/-- `while (*p == ' ') p++`: how far it goes. -/
def blanks : Array8 → Option Nat
  | [] => none
  | c :: p => if c = blank then (· + 1) <$> blanks p else some 0

/-- `strchr()`: how far away the character is. -/
def strchr (srch : UInt8) : Array8 → Option (Option Nat)
  | [] => none
  | c :: p =>
    if c = srch then some (some 0) else if c = 0 then some none else (·.map (· + 1)) <$> strchr srch p

/-- `argv[x++] = p`, of the elements set so far. -/
def push (argv : List Ptr) (p : Ptr) : Option (List Ptr) :=
  if argv.length < maxparms + 1 then some (argv ++ [p]) else none

/-- Is this a command buffer, and `progLen`? The third byte is only there in a buffer of four or more. -/
def shape (p : Array8) (parmLen : Nat) : Option (Option Nat) :=
  if 4 ≤ parmLen then do
    if (← p[2]?) = 0 then return some (← p[3]?).toNat else return none
  else some none

/-- The text, with the length brought down to what `parmbuf` takes. -/
def copyText (p : Array8) (parmLen : Nat) (tso : Bool) : Option Array8 :=
  let parmLen := if bufsize - 2 ≤ parmLen then bufsize - 1 - 2 else parmLen
  if tso then read p 4 (parmLen - 4) else read p 2 parmLen

/-- `parmbuf`: the text, and zeros behind it. -/
def copy (p : Array8) (parmLen : Nat) (tso : Bool) : Option Array8 := do
  let text ← copyText p parmLen tso
  if text.length ≤ bufsize then return text ++ List.replicate (bufsize - text.length) 0 else none

/-- The loop that cuts the command name, over `n` bytes from `x` on. -/
def cutName (buf : Array8) : Nat → Nat → Option Array8
  | 0, _ => some buf
  | n + 1, x => do
    if (← buf[x]?) = blank then write buf x 0 else cutName buf n (x + 1)

/-- The program name up to its first blank. -/
def cutPgmname (pgmname : Array8) : Option Array8 := do
  let pgmname ← write pgmname 8 0
  match ← strchr blank pgmname with
  | some o => write pgmname o 0
  | none => return pgmname

/-- A token that runs to `srch`, and what comes behind it. -/
def arg (more : Array8 → Nat → List Ptr → Option (Array8 × List Ptr)) (srch : UInt8) (buf : Array8) (p : Nat)
    (argv : List Ptr) : Option (Array8 × List Ptr) := do
  let argv ← push argv (.parmbuf p)
  match ← strchr srch (buf.drop p) with
  | none => return (buf, argv)
  | some n =>
    let buf ← write buf (p + n) 0
    let p := p + n + 1 + (← blanks (buf.drop (p + n + 1)))
    if (← buf[p]?) = 0 then return (buf, argv) else more buf p argv

/-- The loop over the tokens, with room for `k` more. -/
def args : Nat → Array8 → Nat → List Ptr → Option (Array8 × List Ptr)
  | 0, buf, _, argv => some (buf, argv)
  | k + 1, buf, p, argv => do
    if (← buf[p]?) = quote then arg (args k) quote buf (p + 1) argv else arg (args k) blank buf p argv

/-- `argv[0]`, and where the arguments start. -/
def command (buf pgmname : Array8) : Option Nat → Option (Array8 × Array8 × Ptr × Nat)
  | some progLen => do return (← cutName buf (progLen + 1) 0, pgmname, .parmbuf 0, progLen)
  | none => do return (buf, ← cutPgmname pgmname, .pgmname, 0)

/-- Where there is anything behind the command name. -/
def operands (buf : Array8) (p : Nat) (argv : List Ptr) : Option (Array8 × List Ptr) := do
  let p := p + (← blanks (buf.drop p))
  if (← buf[p]?) ≠ 0 then args (maxparms - 1) buf p argv else some (buf, argv)

/-- `__start()`, as far as the arguments go. -/
def start (p : Array8) (pgmname : Array8) : Option Main := do
  let parmLen := number (← read p 0 2)
  let tso ← shape p parmLen
  let buf ← copy p parmLen tso.isSome
  let (buf, pgmname, arg0, p) ← command buf pgmname tso
  let argv ← push [] arg0
  let (buf, argv) ← operands buf p argv
  return ⟨argv.length, ← push argv .null, buf, pgmname⟩

/-! ### What it is for -/

theorem dropWhile_shorter {p : UInt8 → Bool} {s : Array8} (h : s.dropWhile p ≠ []) :
    (s.dropWhile p).tail.length < s.length := by
  have hle := (List.dropWhile_suffix p (l := s)).length_le
  have hpos := List.length_pos_iff.mpr h
  rw [List.length_tail]
  omega

/-- The tokens of a text. One that starts with a quotation mark runs to the next one and is without the marks,
another one runs to the next blank; both run to the end otherwise. -/
def tokens (s : Array8) : List Array8 :=
  if h : s.dropWhile (· = blank) = [] then []
  else
    let rest := (s.dropWhile (· = blank)).tail
    have := dropWhile_shorter h
    if (s.dropWhile (· = blank)).head h = quote then
      have := (List.dropWhile_suffix (· ≠ quote) (l := (s.dropWhile (· = blank)).tail)).length_le
      rest.takeWhile (· ≠ quote) :: tokens ((rest.dropWhile (· ≠ quote)).drop 1)
    else
      have := (List.dropWhile_suffix (· ≠ blank) (l := (s.dropWhile (· = blank)).tail)).length_le
      ((s.dropWhile (· = blank)).head h :: rest.takeWhile (· ≠ blank)) :: tokens (rest.dropWhile (· ≠ blank))
termination_by s.length
decreasing_by
  · rw [List.length_drop]
    omega
  · omega

/-- The text that is copied. -/
def copied (p : Array8) : Array8 := if isTso p then (p.drop 4).take 303 else (p.drop 2).take 307

/-- The text that is split: behind the command name, up to a NUL. -/
def text (p : Array8) : Array8 :=
  ((copied p).drop (if isTso p then (p.getD 3 0).toNat else 0)).takeWhile (· ≠ 0)

/-- The string a pointer points to. -/
def Main.string (m : Main) : Ptr → Array8
  | .parmbuf o => (m.parmbuf.drop o).takeWhile (· ≠ 0)
  | .pgmname => m.pgmname.takeWhile (· ≠ 0)
  | .null => []

/-- The string in an array from there on. -/
def stringAt (buf : Array8) (o : Nat) : Array8 := (buf.drop o).takeWhile (· ≠ 0)

/-! ### Up to a character -/

theorem not_mem_takeWhile (c : UInt8) (l : Array8) : c ∉ l.takeWhile (· ≠ c) := by
  intro h
  have hne := List.mem_takeWhile_imp h
  simp at hne

theorem mem_takeWhile_eq {c x : UInt8} {l : Array8} (h : x ∈ l.takeWhile (· = c)) : x = c := by
  simpa using List.mem_takeWhile_imp h

theorem head_eq {c d : UInt8} {l rest : Array8} (h : l.dropWhile (· ≠ c) = d :: rest) : d = c := by
  have hhead := List.head?_dropWhile_not (· ≠ c) l
  rw [h] at hhead
  simpa using hhead

theorem head_ne {c d : UInt8} {l rest : Array8} (h : l.dropWhile (· = c) = d :: rest) : d ≠ c := by
  have hhead := List.head?_dropWhile_not (· = c) l
  rw [h] at hhead
  simpa using hhead

/-! ### Tokens -/

theorem tokens_of_nil {s : Array8} (h : s.dropWhile (· = blank) = []) : tokens s = [] := by
  rw [tokens, dif_pos h]

theorem tokens_of_quote {s rest : Array8} (h : s.dropWhile (· = blank) = quote :: rest) :
    tokens s = rest.takeWhile (· ≠ quote) :: tokens ((rest.dropWhile (· ≠ quote)).drop 1) := by
  have hne : s.dropWhile (· = blank) ≠ [] := by rw [h]; exact List.cons_ne_nil _ _
  rw [tokens, dif_neg hne]
  simp only [h, List.head_cons, List.tail_cons, if_true]

theorem tokens_of_cons {s rest : Array8} {c : UInt8} (h : s.dropWhile (· = blank) = c :: rest) (hc : c ≠ quote) :
    tokens s = (c :: rest.takeWhile (· ≠ blank)) :: tokens (rest.dropWhile (· ≠ blank)) := by
  have hne : s.dropWhile (· = blank) ≠ [] := by rw [h]; exact List.cons_ne_nil _ _
  rw [tokens, dif_neg hne]
  simp only [h, List.head_cons, List.tail_cons, if_neg hc]

theorem tokens_dropWhile (s : Array8) : tokens (s.dropWhile (· = blank)) = tokens s := by
  have hidem : (s.dropWhile (· = blank)).dropWhile (· = blank) = s.dropWhile (· = blank) :=
      List.dropWhile_idempotent _ _
  cases h : s.dropWhile (· = blank) with
  | nil => rw [tokens_of_nil h, tokens_of_nil rfl]
  | cons c rest =>
    rw [h] at hidem
    by_cases hc : c = quote
    · subst hc
      rw [tokens_of_quote h, tokens_of_quote hidem]
    · rw [tokens_of_cons h hc, tokens_of_cons hidem hc]

/-- The blank at which a token ends is no part of the next one. -/
theorem tokens_blank (s : Array8) : tokens (blank :: s) = tokens s := by
  rw [← tokens_dropWhile (blank :: s), ← tokens_dropWhile s, List.dropWhile_cons_of_pos (by decide)]

/-! ### One token -/

theorem blanks_eq {c : UInt8} (hc : c ≠ blank) (gap z : Array8) (hgap : ∀ x ∈ gap, x = blank) :
    blanks (gap ++ c :: z) = some gap.length := by
  induction gap with
  | nil => rw [List.nil_append, blanks, if_neg hc, List.length_nil]
  | cons x gap ih =>
    rw [List.cons_append, blanks, if_pos (hgap x (by simp)), ih fun y hy => hgap y (List.mem_cons_of_mem x hy)]
    rfl

theorem strchr_found {srch : UInt8} (tok z : Array8) (htok : srch ∉ tok) (hnul : 0 ∉ tok) :
    strchr srch (tok ++ srch :: z) = some (some tok.length) := by
  induction tok with
  | nil => rw [List.nil_append, strchr, if_pos rfl, List.length_nil]
  | cons c tok ih =>
    rw [List.mem_cons, not_or] at htok hnul
    rw [List.cons_append, strchr, if_neg (Ne.symm htok.1), if_neg (Ne.symm hnul.1), ih htok.2 hnul.2]
    rfl

theorem strchr_end {srch : UInt8} (hsrch : srch ≠ 0) (tok z : Array8) (htok : srch ∉ tok) (hnul : 0 ∉ tok) :
    strchr srch (tok ++ 0 :: z) = some none := by
  induction tok with
  | nil => rw [List.nil_append, strchr, if_neg hsrch.symm, if_pos rfl]
  | cons c tok ih =>
    rw [List.mem_cons, not_or] at htok hnul
    rw [List.cons_append, strchr, if_neg (Ne.symm htok.1), if_neg (Ne.symm hnul.1), ih htok.2 hnul.2]
    rfl

theorem push_eq {argv : List Ptr} (p : Ptr) (h : argv.length < maxparms + 1) : push argv p = some (argv ++ [p]) :=
    if_pos h

section Arg

variable {more : Array8 → Nat → List Ptr → Option (Array8 × List Ptr)} {srch : UInt8} {argv : List Ptr}
  (pre : Array8) {tok : Array8} (z : Array8) (hargv : argv.length < maxparms + 1) (hsrch : srch ≠ 0)
  (htok : srch ∉ tok) (hnul : 0 ∉ tok)

include hargv hsrch htok hnul

/-- A token that runs to the end. -/
theorem arg_end :
    arg more srch (pre ++ (tok ++ 0 :: z)) pre.length argv =
      some (pre ++ (tok ++ 0 :: z), argv ++ [.parmbuf pre.length]) := by
  rw [arg, push_eq _ hargv]
  simp only [Option.bind_eq_bind, Option.bind_some]
  rw [List.drop_left, strchr_end hsrch tok z htok hnul]
  rfl

omit hsrch in
/-- A token that is cut off. -/
theorem arg_cut (behind : Array8) (hbehind : 0 ∉ behind) :
    arg more srch (pre ++ (tok ++ srch :: (behind ++ 0 :: z))) pre.length argv =
      if behind.dropWhile (· = blank) = [] then
        some (pre ++ (tok ++ 0 :: (behind ++ 0 :: z)), argv ++ [.parmbuf pre.length])
      else
        more (pre ++ (tok ++ 0 :: (behind ++ 0 :: z)))
          (pre.length + tok.length + 1 + (behind.takeWhile (· = blank)).length) (argv ++ [.parmbuf pre.length]) := by
  have hset : (pre ++ (tok ++ srch :: (behind ++ 0 :: z))).set (pre.length + tok.length) 0 =
      pre ++ (tok ++ 0 :: (behind ++ 0 :: z)) := by
    rw [List.set_append_right _ _ (by omega), List.set_append_right _ _ (by omega)]
    simp
  have hdrop : (pre ++ (tok ++ 0 :: (behind ++ 0 :: z))).drop (pre.length + tok.length + 1) = behind ++ 0 :: z := by
    rw [← List.append_assoc, ← List.drop_drop, ← List.length_append, List.drop_left]
    rfl
  have hgap : ∀ x ∈ behind.takeWhile (· = blank), x = blank := fun x hx => mem_takeWhile_eq hx
  have hsplit : behind = behind.takeWhile (· = blank) ++ behind.dropWhile (· = blank) := by
    rw [List.takeWhile_append_dropWhile]
  rw [arg, push_eq _ hargv]
  simp only [Option.bind_eq_bind, Option.bind_some]
  rw [List.drop_left, strchr_found tok _ htok hnul]
  simp only [Option.bind_some]
  rw [write, if_pos (by simp), hset]
  simp only [Option.bind_some]
  rw [hdrop]
  have hget : ∀ c w, behind ++ 0 :: z = behind.takeWhile (· = blank) ++ c :: w → c ≠ blank →
      blanks (behind ++ 0 :: z) = some (behind.takeWhile (· = blank)).length ∧
        (pre ++ (tok ++ 0 :: (behind ++ 0 :: z)))[pre.length + tok.length + 1 +
          (behind.takeWhile (· = blank)).length]? = some c := by
    intro c w heq hc
    refine ⟨by rw [heq, blanks_eq hc _ _ hgap], ?_⟩
    rw [← List.getElem?_drop, hdrop, heq, List.getElem?_append_right (Nat.le_refl _), Nat.sub_self]
    rfl
  cases hrest : behind.dropWhile (· = blank) with
  | nil =>
    rw [hrest, List.append_nil] at hsplit
    obtain ⟨hblanks, hat⟩ := hget 0 z (by rw [← hsplit]) (by decide)
    rw [hblanks]
    simp only [Option.bind_some]
    rw [hat]
    simp only [Option.bind_some, if_true]
    rfl
  | cons c w =>
    rw [hrest] at hsplit
    have hc : c ≠ blank := head_ne hrest
    have hc0 : c ≠ 0 := fun h0 => hbehind (by rw [hsplit, h0]; simp)
    obtain ⟨hblanks, hat⟩ := hget c (w ++ 0 :: z) (by
      conv_lhs => rw [hsplit]
      simp) hc
    rw [hblanks]
    simp only [Option.bind_some]
    rw [hat, if_neg (by simp)]
    simp only [Option.bind_some]
    rw [if_neg hc0]

end Arg

/-! ### The loop -/

theorem stringAt_eq {pre tok buf : Array8} (hnul : 0 ∉ tok) (h : pre ++ (tok ++ [0]) <+: buf) :
    stringAt buf pre.length = tok := by
  obtain ⟨z, rfl⟩ := h
  have hall : ∀ x ∈ tok, decide (x ≠ 0) = true := fun x hx => decide_eq_true fun hx0 => hnul (hx0 ▸ hx)
  rw [stringAt, List.append_assoc, List.drop_left, List.append_assoc, List.takeWhile_append_of_pos hall]
  simp

/-- Where a token starts, and with which mark it ends. -/
theorem args_turn (k : Nat) (pre : Array8) (c : UInt8) (s z : Array8) (argv : List Ptr) (hc : c ≠ blank)
    (hnul : 0 ∉ c :: s) :
    ∃ pre' srch body, args (k + 1) (pre ++ (c :: s ++ 0 :: z)) pre.length argv =
        arg (args k) srch (pre' ++ (body ++ 0 :: z)) pre'.length argv ∧
      pre <+: pre' ∧ srch ≠ 0 ∧ 0 ∉ body ∧
      tokens (c :: s) = body.takeWhile (· ≠ srch) :: tokens ((body.dropWhile (· ≠ srch)).drop 1) := by
  have hstart : (c :: s).dropWhile (· = blank) = c :: s := List.dropWhile_cons_of_neg (by simpa using hc)
  have hget : (pre ++ (c :: s ++ 0 :: z))[pre.length]? = some c := by simp
  rw [args, hget]
  simp only [Option.bind_eq_bind, Option.bind_some]
  by_cases hquote : c = quote
  · subst hquote
    refine ⟨pre ++ [quote], quote, s, ?_, List.prefix_append _ _, by decide, ?_, tokens_of_quote hstart⟩
    · rw [if_pos rfl, List.length_append, List.append_assoc]
      rfl
    · exact fun h0 => hnul (List.mem_cons_of_mem _ h0)
  · refine ⟨pre, blank, c :: s, by rw [if_neg hquote], List.prefix_rfl, by decide, hnul, ?_⟩
    have hkeep : (fun x => decide (x ≠ blank)) c = true := decide_eq_true hc
    rw [tokens_of_cons hstart hquote, List.takeWhile_cons_of_pos (p := fun x => decide (x ≠ blank)) hkeep,
      List.dropWhile_cons_of_pos (p := fun x => decide (x ≠ blank)) hkeep]
    cases hrest : s.dropWhile (· ≠ blank) with
    | nil => rfl
    | cons d rest =>
      rw [head_eq hrest, tokens_blank]
      rfl

/-- **The loop over the tokens** of a text up to its NUL, with room for `k`: what it stores are pointers to the first
`k` tokens. -/
theorem args_run (k : Nat) (pre : Array8) (c : UInt8) (s z : Array8) (argv : List Ptr) (hc : c ≠ blank)
    (hnul : 0 ∉ c :: s) (hroom : argv.length + k ≤ maxparms) :
    ∃ (buf : Array8) (os : List Nat), args k (pre ++ (c :: s ++ 0 :: z)) pre.length argv = some (buf,
      argv ++ os.map .parmbuf) ∧
      pre <+: buf ∧ os.map (stringAt buf) = (tokens (c :: s)).take k := by
  induction k generalizing pre c s argv with
  | zero => exact ⟨pre ++ (c :: s ++ 0 :: z), [], by rw [args, List.map_nil, List.append_nil], List.prefix_append _ _,
      rfl⟩
  | succ k ih =>
    obtain ⟨pre', srch, body, hturn, hpre, hsrch, hbody, htokens⟩ := args_turn k pre c s z argv hc hnul
    rw [hturn, htokens, List.take_succ_cons]
    have hsplit := List.takeWhile_append_dropWhile (p := (· ≠ srch)) (l := body)
    have htok := not_mem_takeWhile srch body
    have htoknul : 0 ∉ body.takeWhile (· ≠ srch) := fun h => hbody (List.takeWhile_subset _ h)
    generalize body.takeWhile (· ≠ srch) = tok at hsplit htok htoknul ⊢
    cases hrest : body.dropWhile (· ≠ srch) with
    | nil =>
      rw [hrest, List.append_nil] at hsplit
      subst hsplit
      rw [arg_end pre' z (by omega) hsrch htok htoknul]
      refine ⟨_, [pre'.length], rfl, hpre.trans (List.prefix_append _ _), ?_⟩
      rw [List.map_singleton, stringAt_eq htoknul ⟨z, by simp⟩, List.drop_nil, tokens_of_nil rfl, List.take_nil]
    | cons d behind =>
      rw [hrest, head_eq hrest] at hsplit
      have hbehind : 0 ∉ behind := fun h => hbody (by rw [← hsplit]; simp [h])
      rw [← hsplit, List.append_assoc, List.cons_append,
        arg_cut pre' z (by omega) htok htoknul behind hbehind, List.drop_one, List.tail_cons]
      cases hmore : behind.dropWhile (· = blank) with
      | nil =>
        rw [if_pos rfl, tokens_of_nil hmore, List.take_nil]
        refine ⟨_, [pre'.length], rfl, hpre.trans (List.prefix_append _ _), ?_⟩
        rw [List.map_singleton, stringAt_eq htoknul ⟨behind ++ 0 :: z, by simp⟩]
      | cons c' s' =>
        have hgap := List.takeWhile_append_dropWhile (p := (· = blank)) (l := behind)
        rw [hmore] at hgap
        have hc' : c' ≠ blank := head_ne hmore
        have hnul' : 0 ∉ c' :: s' := fun h => hbehind (by rw [← hgap]; exact List.mem_append_right _ h)
        obtain ⟨buf, os, hargs, hkept, hstrings⟩ :=
          ih (pre' ++ (tok ++ 0 :: behind.takeWhile (· = blank))) c' s' (argv ++ [.parmbuf pre'.length]) hc' hnul'
            (by rw [List.length_append, List.length_singleton]; omega)
        have hlen : (pre' ++ (tok ++ 0 :: behind.takeWhile (· = blank))).length =
            pre'.length + tok.length + 1 + (behind.takeWhile (· = blank)).length := by
          simp only [List.length_append, List.length_cons]
          omega
        have hbuf : pre' ++ (tok ++ 0 :: behind.takeWhile (· = blank)) ++ (c' :: s' ++ 0 :: z) =
            pre' ++ (tok ++ 0 :: (behind ++ 0 :: z)) := by
          conv_rhs => rw [← hgap]
          simp
        rw [hlen, hbuf] at hargs
        rw [if_neg (List.cons_ne_nil _ _), hargs]
        refine ⟨buf, pre'.length :: os, by simp, ?_, ?_⟩
        · exact (hpre.trans (List.prefix_append _ _)).trans hkept
        · have hhead : pre' ++ (tok ++ [0]) <+: buf :=
            List.IsPrefix.trans ⟨behind.takeWhile (· = blank), by simp⟩ hkept
          rw [List.map_cons, stringAt_eq htoknul hhead, hstrings, ← hmore, tokens_dropWhile]

theorem operands_eq (buf : Array8) (p : Nat) (arg0 : Ptr) (h : 0 ∈ buf.drop p) :
    ∃ (buf' : Array8) (os : List Nat), operands buf p [arg0] = some (buf', [arg0] ++ os.map .parmbuf) ∧
      os.map (stringAt buf') = (tokens (stringAt buf p)).take (maxparms - 1) := by
  have hsplit := List.takeWhile_append_dropWhile (p := (· ≠ 0)) (l := buf.drop p)
  have hstring : stringAt buf p = (buf.drop p).takeWhile (· ≠ 0) := rfl
  have hnul : 0 ∉ stringAt buf p := not_mem_takeWhile 0 _
  rw [← hstring] at hsplit
  cases hz : (buf.drop p).dropWhile (· ≠ 0) with
  | nil =>
    rw [hz, List.append_nil] at hsplit
    exact absurd (hsplit ▸ h) hnul
  | cons d z =>
    rw [hz, head_eq hz] at hsplit
    have hlt : p ≤ buf.length := by
      by_contra hlt
      rw [List.drop_eq_nil_of_le (by omega)] at h
      exact absurd h List.not_mem_nil
    have hgap := List.takeWhile_append_dropWhile (p := (· = blank)) (l := stringAt buf p)
    have hall : ∀ x ∈ (stringAt buf p).takeWhile (· = blank), x = blank := fun x hx => mem_takeWhile_eq hx
    have hget (k : Nat) : buf[p + k]? = (stringAt buf p ++ 0 :: z)[k]? := by
      rw [hsplit, List.getElem?_drop]
    rw [operands, ← hsplit, ← tokens_dropWhile (stringAt buf p)]
    simp only [Option.bind_eq_bind]
    cases hrest : (stringAt buf p).dropWhile (· = blank) with
    | nil =>
      rw [hrest, List.append_nil] at hgap
      rw [← hgap] at hget ⊢
      rw [blanks_eq (by decide) _ _ hall, Option.bind_some, hget, List.getElem?_append_right (Nat.le_refl _)]
      exact ⟨buf, [], by simp, by rw [tokens_of_nil rfl]; rfl⟩
    | cons c s =>
      have hc : c ≠ blank := head_ne hrest
      rw [hrest] at hgap
      have hnul' : 0 ∉ c :: s := fun h0 => hnul (by rw [← hgap]; exact List.mem_append_right _ h0)
      have hc0 : c ≠ 0 := fun h0 => hnul' (by simp [h0])
      have hbuf : buf = buf.take p ++ (stringAt buf p).takeWhile (· = blank) ++ (c :: s ++ 0 :: z) := by
        rw [List.append_assoc, ← List.append_assoc _ (c :: s), hgap, hsplit, List.take_append_drop]
      have hlen : (buf.take p ++ (stringAt buf p).takeWhile (· = blank)).length =
          p + ((stringAt buf p).takeWhile (· = blank)).length := by
        rw [List.length_append, List.length_take_of_le hlt]
      obtain ⟨buf', os, hargs, _, hstrings⟩ := args_run (maxparms - 1)
        (buf.take p ++ (stringAt buf p).takeWhile (· = blank)) c s z [arg0] hc hnul' (by rw [maxparms,
        List.length_singleton])
      rw [← hbuf, hlen] at hargs
      have hblanks : blanks (stringAt buf p ++ 0 :: z) = some ((stringAt buf p).takeWhile (· = blank)).length := by
        conv_lhs => rw [← hgap]
        rw [List.append_assoc]
        exact blanks_eq hc _ _ hall
      have hat : buf[p + ((stringAt buf p).takeWhile (· = blank)).length]? = some c := by
        have hsame : stringAt buf p ++ 0 :: z = (stringAt buf p).takeWhile (· = blank) ++ (c :: s ++ 0 :: z) := by
          rw [← List.append_assoc, hgap]
        rw [hget, hsame, List.getElem?_append_right (Nat.le_refl _), Nat.sub_self]
        rfl
      rw [hblanks, Option.bind_some, hat, Option.bind_some, if_pos hc0]
      exact ⟨buf', os, hargs, hstrings⟩

/-! ### The start -/

theorem Parm.length_ge (p : Parm) : 2 ≤ p.bytes.length := by
  have hwhole := p.whole
  split at hwhole
  · next htso =>
    rw [isTso, Bool.and_eq_true, decide_eq_true_eq] at htso
    omega
  · omega

theorem shape_eq (p : Parm) :
    shape p.bytes (parmLen p.bytes) = some (if isTso p.bytes then some (p.bytes.getD 3 0).toNat else none) := by
  have hwhole := p.whole
  rw [shape]
  by_cases hroom : 4 ≤ parmLen p.bytes
  · have hlen : 4 ≤ p.bytes.length := by
      split at hwhole <;> omega
    have hat (i : Nat) (hi : i < 4) : p.bytes[i]? = some (p.bytes.getD i 0) := by
      rw [List.getD_eq_getElem?_getD, List.getElem?_eq_getElem (by omega), Option.getD_some]
    rw [if_pos hroom, hat 2 (by decide), hat 3 (by decide)]
    simp only [Option.bind_eq_bind, Option.bind_some, isTso, hroom, decide_true, Bool.true_and, beq_iff_eq]
    split <;> rfl
  · rw [if_neg hroom, isTso, decide_eq_false hroom]
    rfl

theorem copied_length (p : Array8) : (copied p).length ≤ 307 := by
  rw [copied]
  split <;> rw [List.length_take] <;> omega

theorem copyText_eq (p : Parm) : copyText p.bytes (parmLen p.bytes) (isTso p.bytes) = some (copied p.bytes) := by
  have hwhole := p.whole
  rw [copyText, copied]
  have hfull {l : Array8} {n m : Nat} (h : l.length = n) (hm : n ≤ m) : l.take n = l.take m := by
    rw [List.take_of_length_le (by omega), List.take_of_length_le (by omega)]
  by_cases htso : isTso p.bytes = true
  · rw [if_pos htso] at hwhole
    rw [if_pos htso, if_pos htso]
    have hfour : 4 ≤ parmLen p.bytes := by
      rw [isTso, Bool.and_eq_true, decide_eq_true_eq] at htso
      exact htso.1
    by_cases hlong : bufsize - 2 ≤ parmLen p.bytes
    · rw [if_pos hlong, read, if_pos (by rw [bufsize] at hlong ⊢; omega), window]
      rfl
    · rw [if_neg hlong, read, if_pos (by omega), window,
        hfull (by rw [List.length_drop, hwhole]) (m := 303) (by rw [bufsize] at hlong; omega)]
  · rw [if_neg htso] at hwhole
    rw [if_neg htso, if_neg htso]
    by_cases hlong : bufsize - 2 ≤ parmLen p.bytes
    · rw [if_pos hlong, read, if_pos (by rw [bufsize] at hlong ⊢; omega), window]
      rfl
    · rw [if_neg hlong, read, if_pos (by omega), window,
        hfull (by rw [List.length_drop]; omega) (m := 307) (by rw [bufsize] at hlong; omega)]

/-- `parmbuf`, as it is split. -/
def padded (p : Array8) : Array8 := copied p ++ List.replicate (bufsize - (copied p).length) 0

theorem copy_eq (p : Parm) : copy p.bytes (parmLen p.bytes) (isTso p.bytes) = some (padded p.bytes) := by
  have hlen := copied_length p.bytes
  rw [copy, copyText_eq]
  simp only [Option.bind_eq_bind, Option.bind_some]
  rw [if_pos (by rw [bufsize]; omega)]
  rfl

theorem padded_length (p : Array8) : (padded p).length = bufsize := by
  have hlen := copied_length p
  rw [padded, List.length_append, List.length_replicate, bufsize]
  omega

/-- There is a NUL behind every place of the text. -/
theorem nul_mem_padded (p : Array8) {o : Nat} (h : o < bufsize - 2) : 0 ∈ (padded p).drop o := by
  have hlen := copied_length p
  have hlast : (padded p)[bufsize - 1]? = some 0 := by
    rw [padded, List.getElem?_append_right (by rw [bufsize]; omega), List.getElem?_replicate,
      if_pos (by rw [bufsize]; omega)]
  have hdrop : ((padded p).drop o)[bufsize - 1 - o]? = some 0 := by
    rw [List.getElem?_drop, Nat.add_sub_cancel' (by omega), hlast]
  exact List.mem_of_getElem? hdrop

/-- The first blank of the command name is cut. -/
theorem cutName_eq (buf : Array8) (n x : Nat) (h : n + x ≤ buf.length) :
    cutName buf n x =
      some (if blank ∈ (buf.drop x).take n then buf.set (x + ((buf.drop x).take n).idxOf blank) 0 else buf) := by
  induction n generalizing x with
  | zero => rw [cutName, List.take_zero, if_neg List.not_mem_nil]
  | succ n ih =>
    have hlt : x < buf.length := by omega
    have hdrop : (buf.drop x).take (n + 1) = buf[x] :: (buf.drop (x + 1)).take n := by
      rw [List.drop_eq_getElem_cons hlt, List.take_succ_cons]
    rw [cutName, List.getElem?_eq_getElem hlt, hdrop]
    simp only [Option.bind_eq_bind, Option.bind_some]
    by_cases hblank : buf[x] = blank
    · rw [if_pos hblank, hblank, if_pos List.mem_cons_self, List.idxOf_cons_self, write, if_pos hlt, Nat.add_zero]
    · rw [if_neg hblank, ih (x + 1) (by omega)]
      by_cases hmem : blank ∈ (buf.drop (x + 1)).take n
      · rw [if_pos hmem, if_pos (List.mem_cons_of_mem _ hmem), List.idxOf_cons_ne _ hblank, Nat.succ_eq_add_one,
          Nat.add_right_comm, Nat.add_assoc]
      · rw [if_neg hmem, if_neg fun hor => (List.mem_cons.mp hor).elim (fun heq => hblank heq.symm) hmem]

theorem cutPgmname_eq (pgmname : Pgmname) : ∃ name, cutPgmname pgmname.val = some name := by
  have hlen := pgmname.property
  have hwrite : write pgmname.val 8 0 = some (pgmname.val.set 8 0) := by rw [write, if_pos (by omega)]
  have hsplit : pgmname.val.set 8 0 = pgmname.val.take 8 ++ [0] := by
    rw [List.set_eq_take_append_cons_drop, if_pos (by omega), List.drop_eq_nil_of_le (by omega)]
  have hchr : ∀ l : Array8, ∃ o, strchr blank (l ++ [0]) = some o ∧ ∀ n, o = some n → n < l.length + 1 := by
    intro l
    induction l with
    | nil => exact ⟨none, rfl, fun n hn => nomatch hn⟩
    | cons c l ih =>
      obtain ⟨o, ho, hle⟩ := ih
      rw [List.cons_append, strchr]
      by_cases hc : c = blank
      · exact ⟨some 0, if_pos hc, fun n hn => by rw [← Option.some.inj hn]; omega⟩
      · rw [if_neg hc]
        by_cases hc0 : c = 0
        · exact ⟨none, if_pos hc0, fun n hn => nomatch hn⟩
        · rw [if_neg hc0, ho]
          refine ⟨o.map (· + 1), rfl, fun n hn => ?_⟩
          obtain ⟨m, hm, rfl⟩ := Option.map_eq_some_iff.mp hn
          have := hle m hm
          rw [List.length_cons]
          omega
  obtain ⟨o, ho, hle⟩ := hchr (pgmname.val.take 8)
  rw [cutPgmname, hwrite]
  simp only [Option.bind_eq_bind, Option.bind_some]
  rw [hsplit, ho, Option.bind_some]
  cases o with
  | none => exact ⟨_, rfl⟩
  | some n =>
    have hn := hle n rfl
    have hsize : n < (pgmname.val.take 8 ++ [0]).length := by
      rw [List.length_append, List.length_singleton]
      exact hn
    exact ⟨_, if_pos hsize⟩

/-! ### What `main()` is given -/

/-- The offset of the operands in the text of a command buffer. -/
def progLen (p : Array8) : Nat := if isTso p then (p.getD 3 0).toNat else 0

/-- `main()` is given the tokens of the text, as many as `argv` takes, and a null pointer behind them. -/
def Passes (p : Parm) (pgmname : Pgmname) : Prop :=
  ∃ (m : Main) (arg0 : Ptr) (ptrs : List Ptr), start p.bytes pgmname.val = some m ∧
    m.argv = arg0 :: (ptrs ++ [.null]) ∧ m.argc = ptrs.length + 1 ∧
    ptrs.map m.string = (tokens (text p.bytes)).take (maxparms - 1)

/-- The first blank of a command buffer's text is where its operands are to start. -/
structure Cut (p : Array8) : Prop where
  tso : isTso p = true
  ends : (copied p)[progLen p]? = some blank
  first : blank ∉ (copied p).take (progLen p)

/-- And there are some. -/
structure Lost (p : Array8) : Prop extends Cut p where
  more : tokens (text p) ≠ []

/-- The copy, when the command name has been cut. -/
def named (p : Array8) : Array8 :=
  if isTso p = true ∧ blank ∈ (padded p).take (progLen p + 1) then
    (padded p).set (((padded p).take (progLen p + 1)).idxOf blank) 0
  else padded p

theorem progLen_lt (p : Array8) : progLen p < bufsize - 2 := by
  rw [progLen, bufsize]
  split
  · have hlt := (p.getD 3 0).toNat_lt
    omega
  · omega

theorem nul_mem_set {l : Array8} {o : Nat} (h : 0 ∈ l.drop o) (i : Nat) : 0 ∈ (l.set i 0).drop o := by
  obtain ⟨k, hk⟩ := List.mem_iff_getElem?.mp h
  rw [List.getElem?_drop] at hk
  have hset : ((l.set i 0).drop o)[k]? = some 0 := by
    rw [List.getElem?_drop, List.getElem?_set]
    split
    · rw [if_pos (by rw [‹i = o + k›]; exact (List.getElem?_eq_some_iff.mp hk).1)]
    · exact hk
  exact List.mem_of_getElem? hset

theorem nul_mem_named (p : Array8) : 0 ∈ (named p).drop (progLen p) := by
  have hnul := nul_mem_padded p (progLen_lt p)
  rw [named]
  split
  · exact nul_mem_set hnul _
  · exact hnul

theorem command_eq (p : Parm) (pgmname : Pgmname) :
    ∃ name arg0, command (padded p.bytes) pgmname.val
        (if isTso p.bytes then some (p.bytes.getD 3 0).toNat else none) =
      some (named p.bytes, name, arg0, progLen p.bytes) := by
  by_cases htso : isTso p.bytes = true
  · have hprog : progLen p.bytes = (p.bytes.getD 3 0).toNat := by rw [progLen, if_pos htso]
    have hlt := progLen_lt p.bytes
    have hcut := cutName_eq (padded p.bytes) (progLen p.bytes + 1) 0 (by rw [padded_length]; omega)
    simp only [List.drop_zero, Nat.zero_add] at hcut
    rw [if_pos htso, command, ← hprog, hcut]
    simp only [named, htso, true_and]
    exact ⟨_, _, rfl⟩
  · obtain ⟨name, hname⟩ := cutPgmname_eq pgmname
    rw [if_neg htso, command, hname]
    simp only [named, progLen, htso]
    exact ⟨_, _, rfl⟩

/-- **What `main()` is given are the tokens of what is in the copy behind the command name**, and
nothing outside the arrays is read or written. -/
theorem start_splits (p : Parm) (pgmname : Pgmname) :
    ∃ (m : Main) (arg0 : Ptr) (os : List Nat), start p.bytes pgmname.val = some m ∧
      m.argv = arg0 :: (os.map .parmbuf ++ [.null]) ∧ m.argc = os.length + 1 ∧
      (os.map .parmbuf).map m.string =
        (tokens (stringAt (named p.bytes) (progLen p.bytes))).take (maxparms - 1) := by
  have hread : read p.bytes 0 2 = some (p.bytes.take 2) := by
    rw [read, if_pos p.length_ge, window, List.drop_zero]
  have hsome : (if isTso p.bytes then some (p.bytes.getD 3 0).toNat else none).isSome = isTso p.bytes := by
    cases isTso p.bytes <;> rfl
  obtain ⟨name, arg0, hcommand⟩ := command_eq p pgmname
  obtain ⟨buf, os, hoperands, hstrings⟩ := operands_eq (named p.bytes) (progLen p.bytes) arg0 (nul_mem_named p.bytes)
  have hfew : os.length ≤ maxparms - 1 := by
    have hlen := congrArg List.length hstrings
    rw [List.length_map, List.length_take] at hlen
    omega
  have hlast : push ([arg0] ++ os.map .parmbuf) .null = some ([arg0] ++ os.map .parmbuf ++ [.null]) := by
    refine push_eq _ ?_
    rw [List.length_append, List.length_map, List.length_singleton]
    rw [maxparms] at hfew ⊢
    omega
  rw [start, hread]
  simp only [Option.bind_eq_bind, Option.bind_some]
  rw [show number (p.bytes.take 2) = parmLen p.bytes from rfl, shape_eq, Option.bind_some, hsome, copy_eq,
    Option.bind_some, hcommand]
  simp only [Option.bind_some]
  rw [push_eq _ (by decide), Option.bind_some, List.nil_append, hoperands]
  simp only [Option.bind_some]
  rw [hlast]
  refine ⟨_, arg0, os, rfl, by simp, by simp, ?_⟩
  rw [List.map_map, ← hstrings]
  rfl

/-! ### The text -/

theorem takeWhile_zeros (l : Array8) (n : Nat) :
    (l ++ List.replicate n 0).takeWhile (· ≠ 0) = l.takeWhile (· ≠ 0) := by
  rw [List.takeWhile_append]
  split
  · next hall =>
    have hsame : l.takeWhile (· ≠ 0) = l := (List.takeWhile_prefix _).eq_of_length hall
    rw [hsame]
    cases n <;> simp [List.replicate_succ]
  · rfl

theorem stringAt_padded (p : Array8) : stringAt (padded p) (progLen p) = text p := by
  rw [stringAt, padded, List.drop_append, List.drop_replicate, takeWhile_zeros, text, progLen]

theorem getElem?_padded (p : Array8) (o : Nat) : (padded p)[o]? = some blank ↔ (copied p)[o]? = some blank := by
  rw [padded]
  by_cases hin : o < (copied p).length
  · rw [List.getElem?_append_left hin]
  · rw [List.getElem?_append_right (by omega), List.getElem?_eq_none (l := copied p) (by omega),
      List.getElem?_replicate]
    split <;> simp [blank, ebcdic]

theorem mem_take_padded (p : Array8) (n : Nat) : blank ∈ (padded p).take n ↔ blank ∈ (copied p).take n := by
  simp only [List.mem_iff_getElem?, List.getElem?_take]
  refine exists_congr fun i => ?_
  split
  · exact getElem?_padded p i
  · rfl

theorem take_padded (p : Array8) : ((padded p).take (progLen p)).length = progLen p ∧
    (padded p).take (progLen p + 1) = (padded p).take (progLen p) ++ (padded p)[progLen p]?.toList := by
  have hlt := progLen_lt p
  exact ⟨List.length_take_of_le (by rw [padded_length]; omega), List.take_add_one⟩

/-- Where the blank is cut that the operands start with, there are none left. -/
theorem stringAt_cut {p : Array8} (h : Cut p) : stringAt (named p) (progLen p) = [] := by
  obtain ⟨hlen, htake⟩ := take_padded p
  have hat := (getElem?_padded p (progLen p)).mpr h.ends
  have hbefore := mt (mem_take_padded p (progLen p)).mp h.first
  have hlt := (List.getElem?_eq_some_iff.mp hat).1
  have hhead : ((padded p).set (progLen p) 0).drop (progLen p) = 0 :: (padded p).drop (progLen p + 1) := by
    rw [List.set_eq_take_append_cons_drop, if_pos hlt, List.drop_left' hlen]
  have hidx : ((padded p).take (progLen p + 1)).idxOf blank = progLen p := by
    rw [htake, hat, List.idxOf_append_of_notMem hbefore, hlen, Option.toList_some, List.idxOf_cons_self, Nat.add_zero]
  have hmem : blank ∈ (padded p).take (progLen p + 1) := by
    rw [htake, hat]
    simp
  rw [named, if_pos ⟨h.tso, hmem⟩, hidx, stringAt, hhead]
  rfl

/-- Elsewhere the text is as it was. -/
theorem stringAt_kept {p : Array8} (h : ¬ Cut p) : stringAt (named p) (progLen p) = text p := by
  obtain ⟨hlen, htake⟩ := take_padded p
  rw [← stringAt_padded, named]
  split
  · next hcut =>
    have hbefore : blank ∈ (padded p).take (progLen p) := by
      by_contra hbefore
      have hat := hcut.2
      rw [htake, List.mem_append, Option.mem_toList] at hat
      have hends := (getElem?_padded p (progLen p)).mp (hat.resolve_left hbefore)
      exact h ⟨hcut.1, hends, mt (mem_take_padded p (progLen p)).mpr hbefore⟩
    have hidx := List.idxOf_lt_length_of_mem hbefore
    rw [hlen] at hidx
    rw [htake, List.idxOf_append_of_mem hbefore, stringAt, stringAt, List.drop_set_of_lt hidx]
  · rfl

/-- **The arguments are the tokens of the text**, unless the first blank of a command buffer stands where its operands
are to start. -/
theorem passes_iff (p : Parm) (pgmname : Pgmname) : Passes p pgmname ↔ ¬ Lost p.bytes := by
  obtain ⟨m, arg0, os, hstart, hargv, hargc, hstrings⟩ := start_splits p pgmname
  have hsame : Passes p pgmname ↔
      (tokens (stringAt (named p.bytes) (progLen p.bytes))).take (maxparms - 1) =
        (tokens (text p.bytes)).take (maxparms - 1) := by
    constructor
    · rintro ⟨m', arg0', ptrs, hstart', hargv', _, hstrings'⟩
      have hm : m' = m := Option.some.inj (hstart'.symm.trans hstart)
      rw [hm] at hargv' hstrings'
      have hptrs := List.append_cancel_right (List.cons.inj (hargv.symm.trans hargv')).2
      rw [← hstrings, hptrs, hstrings']
    · intro hsame
      exact ⟨m, arg0, os.map .parmbuf, hstart, hargv, by rw [hargc, List.length_map], hstrings.trans hsame⟩
  rw [hsame]
  by_cases hcut : Cut p.bytes
  · rw [stringAt_cut hcut, tokens_of_nil rfl, List.take_nil]
    constructor
    · intro hnil hlost
      rcases List.take_eq_nil_iff.mp hnil.symm with hzero | hnone
      · exact absurd hzero (by decide)
      · exact hlost.more hnone
    · intro hkept
      have hnone : tokens (text p.bytes) = [] := by
        by_contra hmore
        exact hkept ⟨hcut, hmore⟩
      rw [hnone, List.take_nil]
  · rw [stringAt_kept hcut]
    exact ⟨fun _ hlost => hcut hlost.toCut, fun _ => rfl⟩

/-- The command `CMD ARG`, whose name has three characters. -/
def command3 : Parm := ⟨[0, 11, 0, 3] ++ literal "CMD ARG", by decide⟩

/-- Its operand does not come to `main()`. -/
theorem operand_lost : ¬ ∀ (p : Parm) (pgmname : Pgmname), Passes p pgmname := by
  intro h
  obtain ⟨m, arg0, ptrs, hstart, hargv, _, hstrings⟩ := h command3 ⟨literal "CMD     " ++ [0], by decide⟩
  have htext : text command3.bytes = literal " ARG" := by decide
  have hdrop : (literal " ARG").dropWhile (· = blank) = ebcdic 'A' :: literal "RG" := by decide
  rw [htext, tokens_of_cons hdrop (by decide), List.take_cons (by decide)] at hstrings
  have hrun : start command3.bytes (literal "CMD     " ++ [0]) =
      some ⟨1, [.parmbuf 0, .null], [0xC3, 0xD4, 0xC4, 0, 0xC1, 0xD9, 0xC7] ++ List.replicate 303 0,
        literal "CMD     " ++ [0]⟩ := by decide +kernel
  have hm := Option.some.inj (hrun.symm.trans hstart)
  rw [← hm] at hargv
  have hnil : ptrs = [] := by
    have hlen := congrArg List.length hargv
    simp only [List.length_cons, List.length_append, List.length_nil] at hlen
    exact List.length_eq_zero_iff.mp (by omega)
  rw [hnil] at hstrings
  cases hstrings

end Libc370.Start
