import Libc370.Mvs.Dsalc

/-! The keywords of a request, written out.

An `Item` is a keyword with a value, as the manual lists them, and a `Slot` is an item between
the blanks and in front of the separator that the string has for it. Whatever the blanks and
the separators, the string is cut into one piece an item (`pieces_render`), and a piece is
taken for the keyword it holds (`keyword_piece`). The value is what the piece has behind as many
characters as the keyword with its `=` has, so blanks in front shift it (`front`). -/
namespace Libc370.Dynalloc

open Ext

set_option maxRecDepth 10000

/-! ### Items -/

/-- The keywords; an alias is the same keyword. -/
inductive Keyword
  | ddn | dsn | disp | dcbdsn | dsorg | recfm | lrecl | blksize | space | unit | volser | freeclose | mount
deriving DecidableEq

inductive Status
  | new | old | mod | shr

def Status.text : Status → Bytes
  | .new => literal "NEW"
  | .old => literal "OLD"
  | .mod => literal "MOD"
  | .shr => literal "SHR"

inductive Disposition
  | keep | delete | del | catlg | cat | uncatlg | uncat

def Disposition.text : Disposition → Bytes
  | .keep => literal "KEEP"
  | .delete => literal "DELETE"
  | .del => literal "DEL"
  | .catlg => literal "CATLG"
  | .cat => literal "CAT"
  | .uncatlg => literal "UNCATLG"
  | .uncat => literal "UNCAT"

inductive SpaceUnit
  | trk | cyl | blklen (n : Bytes)

def SpaceUnit.text : SpaceUnit → Bytes
  | .trk => literal "TRK"
  | .cyl => literal "CYL"
  | .blklen n => n

/-- A keyword with its value. `long` is for the alias, `listed` for parentheses around the
volumes, and `jcl` for a `SPACE=` in the form of JCL. -/
inductive Item
  | ddn (long : Bool) (name : Bytes)
  | dsn (long : Bool) (name : Bytes) (member : Option Bytes)
  | disp (status : Status) (more : Option (Disposition × Option Disposition))
  | dcbdsn (name : Bytes)
  | dsorg (org : Bytes)
  | recfm (fmt : Bytes)
  | lrecl (n : Bytes)
  | lreclK (n : Bytes)
  | lreclX
  | blksize (n : Bytes)
  | space (unit : SpaceUnit) (jcl : Bool) (p : Bytes) (more : Option (Bytes × Option Bytes))
  | unit (name : Bytes)
  | volser (listed : Bool) (vols : List Bytes)
  | freeclose
  | mount

def Item.keyword : Item → Keyword
  | .ddn .. => .ddn
  | .dsn .. => .dsn
  | .disp .. => .disp
  | .dcbdsn _ => .dcbdsn
  | .dsorg _ => .dsorg
  | .recfm _ => .recfm
  | .lrecl _ | .lreclK _ | .lreclX => .lrecl
  | .blksize _ => .blksize
  | .space .. => .space
  | .unit _ => .unit
  | .volser .. => .volser
  | .freeclose => .freeclose
  | .mount => .mount

/-- The characters that stand for something in the string. -/
def marks : Bytes := [lparen, rparen, comma, semicolon, equals, blank]

/-- A word of other characters. -/
structure Word (w : Bytes) : Prop where
  some : w ≠ []
  plain : ∀ c ∈ w, c ∉ marks

/-- A decimal number. -/
structure Number (n : Bytes) : Prop where
  some : n ≠ []
  digits : ∀ c ∈ n, isdigit c.toNat

/-- The value of a decimal number. -/
def number (n : Bytes) : Nat := n.foldl (fun x c => x * 10 + digval c.toNat) 0

/-- A quantity of a `SPACE=`, which a text unit has 3 bytes for. -/
structure Quantity (n : Bytes) : Prop extends Number n where
  short : n.length ≤ 8
  fits : number n < 2 ^ 24

/-- The items of two optional values. -/
def both {α : Type*} : Option (α × Option α) → List α
  | none => []
  | some (x, none) => [x]
  | some (x, some y) => [x, y]

/-- The values the manual has for the keyword. -/
def Item.Valid : Item → Prop
  | .ddn _ name => Word name ∧ name.length ≤ 8
  | .dsn _ name member => Word name ∧ name.length ≤ 44 ∧ ∀ m ∈ member, Word m ∧ m.length ≤ 8
  | .dcbdsn name => Word name ∧ name.length ≤ 44
  | .dsorg org => org ∈ orgTable.map fun e => literal e.1
  | .recfm fmt => Word fmt ∧ ∀ c ∈ fmt, recfmBit c ≠ 0
  | .lrecl n => Number n ∧ 0 < number n ∧ number n ≤ 32760
  | .lreclK n => Number n ∧ 0 < number n ∧ number n * 1024 ≤ 32760
  | .blksize n => Number n ∧ 0 < number n ∧ number n ≤ 32760
  | .space u _ p more =>
    (∀ n, u = .blklen n → Quantity n ∧ 0 < number n) ∧ Quantity p ∧ ∀ n ∈ both more, Quantity n
  | .unit name => Word name
  | .volser listed vols => vols ≠ [] ∧ (listed = false → vols.length = 1) ∧ ∀ v ∈ vols, Word v
  | .disp .. | .lreclX | .freeclose | .mount => True

def commas (words : List Bytes) : Bytes := [comma].intercalate words

def parens (x : Bytes) : Bytes := lparen :: x ++ [rparen]

/-- A keyword as it is written; two have an alias. -/
def Keyword.name (long : Bool) : Keyword → Bytes
  | .ddn => if long then literal "DDNAME" else literal "DD"
  | .dsn => if long then literal "DSNAME" else literal "DSN"
  | .disp => literal "DISP"
  | .dcbdsn => literal "DCBDSN"
  | .dsorg => literal "DSORG"
  | .recfm => literal "RECFM"
  | .lrecl => literal "LRECL"
  | .blksize => literal "BLKSIZE"
  | .space => literal "SPACE"
  | .unit => literal "UNIT"
  | .volser => literal "VOLSER"
  | .freeclose => literal "FREE"
  | .mount => literal "MOUNT"

def Item.long : Item → Bool
  | .ddn long _ => long
  | .dsn long .. => long
  | _ => false

def Item.name (i : Item) : Bytes := i.keyword.name i.long

def memberText : Option Bytes → Bytes
  | none => []
  | some m => parens m

def dispWords (status : Status) (more : Option (Disposition × Option Disposition)) : List Bytes :=
  status.text :: (both more).map Disposition.text

/-- The value as it is written. -/
def Item.written : Item → Bytes
  | .ddn _ name | .dcbdsn name | .dsorg name | .recfm name | .unit name => name
  | .dsn _ name member => name ++ memberText member
  | .disp status none => status.text
  | .disp status more => parens (commas (dispWords status more))
  | .lrecl n | .blksize n => n
  | .lreclK n => n ++ literal "K"
  | .lreclX => literal "X"
  | .space u false p more => u.text ++ parens (commas (p :: both more))
  | .space u true p more => parens (u.text ++ comma :: parens (commas (p :: both more)))
  | .volser listed vols => if listed then parens (commas vols) else commas vols
  | .freeclose => literal "CLOSE"
  | .mount => []

/-- The value in its piece. -/
def Item.value : Item → Bytes
  | .disp status more => commas (dispWords status more)
  | .space u false p more => u.text ++ equals :: commas (p :: both more)
  | .space u true p more => u.text ++ comma :: parens (commas (p :: both more))
  | .volser _ vols => commas vols
  | i => i.written

/-- A keyword with a value behind it, if it is one that has any. -/
def Item.with (i : Item) (value : Bytes) : Bytes :=
  match i with
  | .mount => i.name
  | _ => i.name ++ equals :: value

/-- An item in the string: the blanks around it, and the separator behind them, which is a `;`
or a `,`. -/
structure Slot where
  lead : Nat
  item : Item
  trail : Nat
  byComma : Bool

def blanks (n : Nat) : Bytes := List.replicate n blank

def Slot.written (s : Slot) : Bytes := blanks s.lead ++ s.item.with s.item.written ++ blanks s.trail

def Slot.sep (s : Slot) : UInt8 := if s.byComma then comma else semicolon

/-- The string; no separator is behind the last item. -/
def render : List Slot → Bytes
  | [] => []
  | [s] => s.written
  | s :: rest => s.written ++ s.sep :: render rest

/-- The piece of an item. -/
def Slot.piece (s : Slot) : Bytes := blanks s.lead ++ s.item.with s.item.value ++ blanks s.trail

/-! ### The conversion -/

/-- A text that the conversion goes over. -/
def Quiet (x : Bytes) : Prop := ∀ c ∈ x, c ≠ lparen ∧ c ≠ comma ∧ c ≠ semicolon

theorem convert_quiet {x : Bytes} (hx : Quiet x) (piece rest : Bytes) :
    convert piece (x ++ rest) = convert (piece ++ x) rest := by
  induction x generalizing piece with
  | nil => rw [List.nil_append, List.append_nil]
  | cons c x ih =>
    obtain ⟨hc, hcomma, hsemi⟩ := hx c List.mem_cons_self
    have hstep : convert piece (c :: (x ++ rest)) = convert (piece ++ [c]) (x ++ rest) := by
      rw [convert, if_neg (fun h => hc h.1), if_neg hc, if_neg (not_or.mpr ⟨hcomma, hsemi⟩)]
    rw [List.cons_append, hstep, ih (fun d hd => hx d (List.mem_cons_of_mem _ hd)), List.append_assoc]
    rfl

theorem convert_sep {c : UInt8} (hc : c = comma ∨ c = semicolon) (piece rest : Bytes) :
    convert piece (c :: rest) = piece ++ semicolon :: convert [] rest := by
  have hopen : c ≠ lparen := by
    rcases hc with rfl | rfl
    · decide
    · decide
  rw [convert, if_neg (fun h => hopen h.1), if_neg hopen, if_pos hc]

theorem takeWhile_upto {c : UInt8} {x : Bytes} (hx : c ∉ x) (rest : Bytes) :
    (x ++ c :: rest).takeWhile (· ≠ c) = x := by
  rw [List.takeWhile_append_of_pos, List.takeWhile_cons_of_neg (by simp), List.append_nil]
  intro d hd
  exact decide_eq_true fun heq => hx (heq ▸ hd)

theorem dropWhile_upto {c : UInt8} {x : Bytes} (hx : c ∉ x) (rest : Bytes) :
    (x ++ c :: rest).dropWhile (· ≠ c) = c :: rest := by
  rw [List.dropWhile_append_of_pos, List.dropWhile_cons_of_neg (by simp)]
  intro d hd
  exact decide_eq_true fun heq => hx (heq ▸ hd)

theorem parens_append (x rest : Bytes) : parens x ++ rest = lparen :: (x ++ rparen :: rest) := by
  rw [parens, List.cons_append, List.cons_append, List.append_assoc, List.singleton_append]

/-- The parentheses of a data set name stay. -/
theorem convert_kept {piece x : Bytes} (hx : rparen ∉ x) (rest : Bytes)
    (h : isdsn (piece ++ lparen :: (x ++ rparen :: rest))) :
    convert piece (parens x ++ rest) = convert (piece ++ parens x) rest := by
  rw [parens_append, convert, if_pos ⟨rfl, h⟩]
  split
  · next hnil =>
    rw [dropWhile_upto hx] at hnil
    cases hnil
  · next d after hcons =>
    rw [dropWhile_upto hx] at hcons
    obtain ⟨rfl, rfl⟩ := List.cons.inj hcons
    rw [takeWhile_upto hx, parens, List.append_assoc, List.cons_append]

/-- Other parentheses go, up to the first `)`. -/
theorem convert_parens {piece x : Bytes} (hx : rparen ∉ x) (hne : x ≠ []) {rest : Bytes}
    (hrest : rest.head? ≠ some lparen)
    (h : isdsn (piece ++ lparen :: (x ++ rparen :: rest)) = false) :
    convert piece (parens x ++ rest) =
      convert (if piece.getLast? = some equals then piece ++ x else piece ++ equals :: x) rest := by
  have hunparen : unparen piece (x ++ rparen :: rest) =
      (if piece.getLast? = some equals then piece ++ x else piece ++ equals :: x, rest) := by
    unfold unparen
    by_cases hlast : piece.getLast? = some equals
    · rw [if_neg (not_not.mpr hlast), if_pos hlast]
      obtain ⟨c, x, rfl⟩ := List.exists_cons_of_ne_nil hne
      have hx' : rparen ∉ x := fun hmem => hx (List.mem_cons_of_mem _ hmem)
      rw [List.cons_append]
      dsimp only
      rw [takeWhile_upto hx', dropWhile_upto hx', List.tail_cons]
    · rw [if_pos hlast, if_neg hlast, takeWhile_upto hx, dropWhile_upto hx, List.tail_cons]
  rw [parens_append, convert, if_neg (by rw [h]; simp), if_pos rfl]
  generalize (if piece.getLast? = some equals then piece ++ x else piece ++ equals :: x) = front at hunparen
  split
  · next hfound =>
    rw [hunparen] at hfound
    obtain ⟨rfl, rfl⟩ := Prod.mk.inj hfound
    rw [convert]
  · next d after hfound =>
    rw [hunparen] at hfound
    obtain ⟨rfl, rfl⟩ := Prod.mk.inj hfound
    have hd : d ≠ lparen := fun heq => hrest (by rw [heq]; rfl)
    by_cases hsep : d = comma ∨ d = semicolon
    · rw [if_pos hsep, convert_sep hsep]
    · rw [if_neg hsep, convert, if_neg (fun hc => hd hc.1), if_neg hd, if_neg hsep]

/-! ### Words -/

instance (w : Bytes) : Decidable (Word w) :=
  decidable_of_iff (w ≠ [] ∧ ∀ c ∈ w, c ∉ marks) ⟨fun h => ⟨h.1, h.2⟩, fun h => ⟨h.1, h.2⟩⟩

theorem Word.free {w : Bytes} (h : Word w) {c : UInt8} (hc : c ∈ marks) : c ∉ w := fun hmem => h.plain c hmem hc

theorem Word.quiet {w : Bytes} (h : Word w) : Quiet w := by
  intro c hc
  have hplain := h.plain c hc
  refine ⟨?_, ?_, ?_⟩
  · rintro rfl
    exact hplain (by decide)
  · rintro rfl
    exact hplain (by decide)
  · rintro rfl
    exact hplain (by decide)

theorem isdigit_plain {c : UInt8} (h : isdigit c.toNat) : c ∉ marks := by
  intro hmem
  have hall : ∀ m ∈ marks, ¬ isdigit m.toNat := by decide
  exact hall c hmem h

theorem Number.word {n : Bytes} (h : Number n) : Word n := ⟨h.some, fun c hc => isdigit_plain (h.digits c hc)⟩

theorem Status.word (st : Status) : Word st.text := by
  cases st <;> decide

theorem Disposition.word (d : Disposition) : Word d.text := by
  cases d <;> decide

theorem dispWords_word (status : Status) (more : Option (Disposition × Option Disposition)) :
    ∀ w ∈ dispWords status more, Word w := by
  intro w hw
  rcases List.mem_cons.mp hw with rfl | hw
  · exact status.word
  · obtain ⟨d, -, rfl⟩ := List.mem_map.mp hw
    exact d.word

theorem spaceUnit_word {u : SpaceUnit} (h : ∀ n, u = .blklen n → Quantity n ∧ 0 < number n) : Word u.text := by
  cases u with
  | trk => decide
  | cyl => decide
  | blklen n => exact (h n rfl).1.toNumber.word

theorem quantities_word {p : Bytes} {more : Option (Bytes × Option Bytes)} (hp : Quantity p)
    (hmore : ∀ n ∈ both more, Quantity n) : ∀ w ∈ p :: both more, Word w := by
  intro w hw
  rcases List.mem_cons.mp hw with rfl | hw
  · exact hp.toNumber.word
  · exact (hmore w hw).toNumber.word

theorem mem_commas {c : UInt8} {ws : List Bytes} (h : c ∈ commas ws) : c = comma ∨ ∃ w ∈ ws, c ∈ w := by
  induction ws with
  | nil => exact absurd h List.not_mem_nil
  | cons w ws ih =>
    cases ws with
    | nil =>
      rw [commas, List.intercalate_singleton] at h
      exact .inr ⟨w, List.mem_cons_self, h⟩
    | cons v ws =>
      rw [commas, List.intercalate_cons_cons, List.append_assoc, List.mem_append, List.mem_append,
        List.mem_singleton] at h
      rcases h with h | h | h
      · exact .inr ⟨w, List.mem_cons_self, h⟩
      · exact .inl h
      · exact (ih h).imp_right fun ⟨u, hu, hc⟩ => ⟨u, List.mem_cons_of_mem _ hu, hc⟩

/-- Of the marks, a list of words has only commas. -/
theorem commas_free {ws : List Bytes} (h : ∀ w ∈ ws, Word w) {c : UInt8} (hc : c ∈ marks) (hne : c ≠ comma) :
    c ∉ commas ws := by
  intro hmem
  rcases mem_commas hmem with rfl | ⟨w, hw, hcw⟩
  · exact hne rfl
  · exact (h w hw).free hc hcw

theorem commas_one (w : Bytes) : commas [w] = w := List.intercalate_singleton

theorem commas_cons (w : Bytes) (ws : List Bytes) : ∃ y, commas (w :: ws) = w ++ y := by
  cases ws with
  | nil => exact ⟨[], by rw [commas, List.intercalate_singleton, List.append_nil]⟩
  | cons v ws => exact ⟨_, by rw [commas, List.intercalate_cons_cons, List.append_assoc]⟩

theorem commas_ne_nil {w : Bytes} (hw : Word w) (ws : List Bytes) : commas (w :: ws) ≠ [] := by
  obtain ⟨y, hy⟩ := commas_cons w ws
  rw [hy]
  exact List.append_ne_nil_of_left_ne_nil hw.some y

theorem blanks_quiet (n : Nat) : Quiet (blanks n) := by
  intro c hc
  rw [List.eq_of_mem_replicate hc]
  decide

theorem Quiet.append {x y : Bytes} (hx : Quiet x) (hy : Quiet y) : Quiet (x ++ y) := fun c hc =>
  (List.mem_append.mp hc).elim (hx c) (hy c)

/-! ### The pieces -/

theorem isdsn_blanks (n : Nat) (x : Bytes) : isdsn (blanks n ++ x) = isdsn x := by
  have hdrop : (blanks n ++ x).dropWhile (· = blank) = x.dropWhile (· = blank) := by
    rw [List.dropWhile_append_of_pos]
    intro c hc
    rw [List.eq_of_mem_replicate hc]
    rfl
  unfold isdsn
  rw [hdrop]

theorem Keyword.name_word (k : Keyword) (long : Bool) : Word (k.name long) := by
  cases long <;> cases k <;> decide

theorem Item.name_word (i : Item) : Word i.name := i.keyword.name_word i.long

/-- A value without parentheses stays. -/
theorem convert_plain (i : Item) (n : Nat) {v : Bytes} (hv : Quiet v) (rest : Bytes) :
    convert (blanks n) (i.name ++ equals :: (v ++ rest)) = convert (blanks n ++ (i.name ++ equals :: v)) rest := by
  have hmark : Quiet (equals :: v) := by
    intro c hc
    rcases List.mem_cons.mp hc with rfl | hc
    · decide
    · exact hv c hc
  rw [← List.cons_append, ← List.append_assoc, convert_quiet (i.name_word.quiet.append hmark)]

/-- Parentheses behind the `=` go. -/
theorem convert_value {i : Item} (h : ∀ y, isdsn (i.name ++ equals :: y) = false) (n : Nat) {x : Bytes}
    (hx : rparen ∉ x)
    (hne : x ≠ []) {rest : Bytes} (hrest : rest.head? ≠ some lparen) :
    convert (blanks n) (i.name ++ equals :: (parens x ++ rest)) =
      convert (blanks n ++ (i.name ++ equals :: x)) rest := by
  have hempty : Quiet [] := fun c hc => absurd hc List.not_mem_nil
  have hname := convert_plain i n hempty (parens x ++ rest)
  have hlast : (blanks n ++ (i.name ++ [equals])).getLast? = some equals := by simp
  have hisdsn : isdsn (blanks n ++ (i.name ++ [equals]) ++ lparen :: (x ++ rparen :: rest)) = false := by
    rw [List.append_assoc, isdsn_blanks, List.append_assoc, List.singleton_append]
    exact h _
  rw [List.nil_append] at hname
  rw [hname, convert_parens hx hne hrest hisdsn, if_pos hlast]
  simp only [List.append_assoc, List.singleton_append]

/-- Parentheses behind a word become a second `=`. -/
theorem convert_unit {i : Item} (h : ∀ y, isdsn (i.name ++ equals :: y) = false) (n : Nat) {u x : Bytes} (hu : Word u)
    (hx : rparen ∉ x) (hne : x ≠ []) {rest : Bytes} (hrest : rest.head? ≠ some lparen) :
    convert (blanks n) (i.name ++ equals :: (u ++ (parens x ++ rest))) =
      convert (blanks n ++ (i.name ++ equals :: (u ++ equals :: x))) rest := by
  have hlast : (blanks n ++ (i.name ++ equals :: u)).getLast? ≠ some equals := by
    intro hlast
    obtain ⟨y, c, rfl⟩ := List.eq_nil_or_concat'  u |>.resolve_left hu.some
    simp only [← List.cons_append, ← List.append_assoc, List.getLast?_append, List.getLast?_singleton] at hlast
    have hc : c = equals := Option.some.inj hlast
    exact hu.plain c (List.mem_append_right _ (List.mem_singleton_self c)) (hc ▸ by decide)
  have hisdsn : isdsn (blanks n ++ (i.name ++ equals :: u) ++ lparen :: (x ++ rparen :: rest)) = false := by
    rw [List.append_assoc, isdsn_blanks, List.append_assoc, List.cons_append]
    exact h _
  rw [convert_plain i n hu.quiet, convert_parens hx hne hrest hisdsn, if_neg hlast]
  simp only [List.append_assoc, List.cons_append]

/-- The member of a data set name stays. -/
theorem convert_member {i : Item} (h : ∀ y, isdsn (i.name ++ equals :: y) = true) (n : Nat) {dsn m : Bytes}
    (hdsn : Word dsn) (hm : rparen ∉ m) (rest : Bytes) :
    convert (blanks n) (i.name ++ equals :: (dsn ++ (parens m ++ rest))) =
      convert (blanks n ++ (i.name ++ equals :: (dsn ++ parens m))) rest := by
  have hisdsn : isdsn (blanks n ++ (i.name ++ equals :: dsn) ++ lparen :: (m ++ rparen :: rest)) = true := by
    rw [List.append_assoc, isdsn_blanks, List.append_assoc, List.cons_append]
    exact h _
  rw [convert_plain i n hdsn.quiet, convert_kept hm rest hisdsn]
  simp only [List.append_assoc, List.cons_append]

/-- What an item is converted to. -/
theorem convert_item {i : Item} (h : i.Valid) (n : Nat) {rest : Bytes} (hrest : rest.head? ≠ some lparen) :
    convert (blanks n) (i.with i.written ++ rest) = convert (blanks n ++ i.with i.value) rest := by
  have hplain : i.written = i.value → (∀ v, i.with v = i.name ++ equals :: v) → Quiet i.value →
      convert (blanks n) (i.with i.written ++ rest) = convert (blanks n ++ i.with i.value) rest := by
    intro hsame hwith hquiet
    rw [hsame, hwith, List.append_assoc, List.cons_append, convert_plain i n hquiet]
  have hparens : i.written = parens i.value → (∀ v, i.with v = i.name ++ equals :: v) →
      (∀ y, isdsn (i.name ++ equals :: y) = false) →
      rparen ∉ i.value → i.value ≠ [] →
      convert (blanks n) (i.with i.written ++ rest) = convert (blanks n ++ i.with i.value) rest := by
    intro hsame hwith hdsn hx hne
    rw [hsame, hwith, hwith, List.append_assoc, List.cons_append, convert_value hdsn n hx hne hrest]
  cases i with
  | ddn long name => exact hplain rfl (fun _ => rfl) h.1.quiet
  | dsn long name member =>
    cases member with
    | none => exact hplain rfl (fun _ => rfl) (by show Quiet (name ++ []); rw [List.append_nil]; exact h.1.quiet)
    | some m =>
      have hisdsn : ∀ y, isdsn ((Item.dsn long name (some m)).name ++ equals :: y) = true := by
        intro y
        cases long <;> rfl
      have hkept := convert_member hisdsn n h.1 ((h.2.2 m rfl).1.free (c := rparen) (by decide)) rest
      refine (congrArg _ ?_).trans hkept
      simp only [Item.with, Item.written, memberText, List.append_assoc, List.cons_append]
  | disp status more =>
    have hwords := dispWords_word status more
    have hfree : rparen ∉ commas (dispWords status more) := commas_free hwords (by decide) (by decide)
    cases more with
    | none =>
      have hone : (Item.disp status none).written = (Item.disp status none).value := (commas_one _).symm
      exact hplain hone (fun _ => rfl) (hone ▸ status.word.quiet)
    | some more => exact hparens rfl (fun _ => rfl) (fun _ => rfl) hfree (commas_ne_nil status.word _)
  | dcbdsn name => exact hplain rfl (fun _ => rfl) h.1.quiet
  | dsorg org =>
    have hall : ∀ w ∈ orgTable.map fun e => literal e.1, Word w := by decide
    exact hplain rfl (fun _ => rfl) (hall org h).quiet
  | recfm fmt => exact hplain rfl (fun _ => rfl) h.1.quiet
  | lrecl n => exact hplain rfl (fun _ => rfl) h.1.word.quiet
  | lreclK n => exact hplain rfl (fun _ => rfl) (h.1.word.quiet.append (by unfold Quiet; decide))
  | lreclX => exact hplain rfl (fun _ => rfl) (by unfold Quiet; decide)
  | blksize n => exact hplain rfl (fun _ => rfl) h.1.word.quiet
  | space u jcl p more =>
    have hu := spaceUnit_word h.1
    have hwords := quantities_word h.2.1 h.2.2
    have hfree : rparen ∉ commas (p :: both more) := commas_free hwords (by decide) (by decide)
    have hne : commas (p :: both more) ≠ [] := commas_ne_nil h.2.1.toNumber.word _
    cases jcl with
    | false =>
      have hdone := convert_unit (i := .space u false p more) (fun _ => rfl) n hu hfree hne hrest
      refine (congrArg _ ?_).trans hdone
      simp only [Item.with, Item.written, List.append_assoc, List.cons_append]
    | true =>
      -- the `)` that goes is the inner one
      have hx : rparen ∉ u.text ++ comma :: lparen :: commas (p :: both more) := by
        simp only [List.mem_append, List.mem_cons, not_or]
        exact ⟨hu.free (by decide), by decide, by decide, hfree⟩
      have hhead : (rparen :: rest).head? ≠ some lparen := by
        rw [List.head?_cons]
        decide
      have hclose : Quiet [rparen] := by
        unfold Quiet
        decide
      have hdone := convert_value (i := .space u true p more) (fun _ => rfl) n hx (by simp) hhead
      have hback := convert_quiet hclose (blanks n ++ ((Item.space u true p more).name ++ equals ::
        (u.text ++ comma :: lparen :: commas (p :: both more)))) rest
      refine (congrArg _ ?_).trans (hdone.trans (hback.trans (congrArg₂ _ ?_ rfl)))
      · simp only [Item.with, Item.written, parens, List.append_assoc, List.cons_append, List.nil_append]
      · simp only [Item.with, Item.value, parens, List.append_assoc, List.cons_append]
  | unit name => exact hplain rfl (fun _ => rfl) h.quiet
  | volser listed vols =>
    obtain ⟨hne, hone, hwords⟩ := h
    obtain ⟨v, vols, rfl⟩ := List.exists_cons_of_ne_nil hne
    have hfree : rparen ∉ commas (v :: vols) := commas_free hwords (by decide) (by decide)
    cases listed with
    | false =>
      obtain rfl : vols = [] := List.length_eq_zero_iff.mp (Nat.succ.inj (hone rfl))
      have hquiet : Quiet (commas [v]) := by
        rw [commas_one]
        exact (hwords v List.mem_cons_self).quiet
      exact hplain rfl (fun _ => rfl) hquiet
    | true => exact hparens rfl (fun _ => rfl) (fun _ => rfl) hfree (commas_ne_nil (hwords v List.mem_cons_self) _)
  | freeclose => exact hplain rfl (fun _ => rfl) (by unfold Quiet; decide)
  | mount => exact convert_quiet (Item.name_word .mount).quiet _ _

theorem convert_slot {s : Slot} (h : s.item.Valid) {rest : Bytes} (hrest : rest.head? ≠ some lparen) :
    convert [] (s.written ++ rest) = convert s.piece rest := by
  have hhead : (blanks s.trail ++ rest).head? ≠ some lparen := by
    cases s.trail with
    | zero => exact hrest
    | succ n =>
      rw [blanks, List.replicate_succ, List.cons_append, List.head?_cons]
      decide
  have htext : s.written ++ rest = blanks s.lead ++ (s.item.with s.item.written ++ (blanks s.trail ++ rest)) := by
    rw [Slot.written, List.append_assoc, List.append_assoc]
  rw [htext, convert_quiet (blanks_quiet _), List.nil_append, convert_item h _ hhead, convert_quiet (blanks_quiet _),
    Slot.piece]

theorem convert_render {slots : List Slot} (h : ∀ s ∈ slots, s.item.Valid) :
    convert [] (render slots) = [semicolon].intercalate (slots.map Slot.piece) := by
  induction slots with
  | nil => rw [render, convert, List.map_nil, List.intercalate_nil]
  | cons s rest ih =>
    have hs := h s List.mem_cons_self
    cases rest with
    | nil =>
      have hend : ([] : Bytes).head? ≠ some lparen := by decide
      have hdone := convert_slot hs hend
      rw [List.append_nil, convert] at hdone
      rw [render, List.map_singleton, List.intercalate_singleton, hdone]
    | cons s' rest =>
      have hsep : s.sep = comma ∨ s.sep = semicolon := by
        unfold Slot.sep
        split_ifs
        · exact .inl rfl
        · exact .inr rfl
      have hhead : (s.sep :: render (s' :: rest)).head? ≠ some lparen := by
        rw [List.head?_cons]
        rcases hsep with hsep | hsep
        · rw [hsep]
          decide
        · rw [hsep]
          decide
      rw [render, convert_slot hs hhead, convert_sep hsep, ih fun t ht => h t (List.mem_cons_of_mem _ ht)]
      · simp only [List.map_cons, List.intercalate_cons_cons, List.append_assoc, List.singleton_append]
      · exact List.cons_ne_nil s' rest

/-- Of the other marks, only the value of `SPACE=` may have one, a `=`. -/
theorem value_free {i : Item} (h : i.Valid) {c : UInt8} (hc : c = semicolon ∨ c = equals ∧ i.keyword ≠ .space) :
    c ∉ i.value := by
  obtain ⟨hmark, hcomma, hopen, hclose⟩ : c ∈ marks ∧ c ≠ comma ∧ c ≠ lparen ∧ c ≠ rparen := by
    rcases hc with rfl | ⟨rfl, -⟩
    · decide
    · decide
  have hword : ∀ {w : Bytes}, Word w → c ∉ w := fun hw => hw.free hmark
  have hcommas : ∀ {ws : List Bytes}, (∀ w ∈ ws, Word w) → c ∉ commas ws := fun hws => commas_free hws hmark hcomma
  cases i with
  | ddn long name => exact hword h.1
  | dsn long name member =>
    show c ∉ name ++ memberText member
    rw [List.mem_append, not_or]
    refine ⟨hword h.1, ?_⟩
    cases member with
    | none => exact List.not_mem_nil
    | some m =>
      have hm := hword (h.2.2 m rfl).1
      simp [memberText, parens, hm, hopen, hclose]
  | disp status more => exact hcommas (dispWords_word status more)
  | dcbdsn name => exact hword h.1
  | dsorg org =>
    have hall : ∀ w ∈ orgTable.map fun e => literal e.1, Word w := by decide
    exact hword (hall org h)
  | recfm fmt => exact hword h.1
  | lrecl n => exact hword h.1.word
  | lreclK n =>
    have hk : Word (literal "K") := by decide
    show c ∉ n ++ literal "K"
    rw [List.mem_append, not_or]
    exact ⟨hword h.1.word, hword hk⟩
  | lreclX =>
    have hx : Word (literal "X") := by decide
    exact hword hx
  | blksize n => exact hword h.1.word
  | space u jcl p more =>
    obtain rfl : c = semicolon := hc.resolve_right fun hno => hno.2 rfl
    have hu := hword (spaceUnit_word h.1)
    have hqty := hcommas (quantities_word h.2.1 h.2.2)
    have hequals : semicolon ≠ equals := by decide
    cases jcl <;> simp [Item.value, parens, hu, hqty, hcomma, hopen, hclose, hequals]
  | unit name => exact hword h
  | volser listed vols => exact hcommas h.2.2
  | freeclose =>
    have hclose : Word (literal "CLOSE") := by decide
    exact hword hclose
  | mount => exact List.not_mem_nil

theorem piece_free {s : Slot} (h : s.item.Valid) : semicolon ∉ s.piece := by
  have hblanks : ∀ n, semicolon ∉ blanks n := fun n hmem => (blanks_quiet n _ hmem).2.2 rfl
  have hname : semicolon ∉ s.item.name := s.item.name_word.free (by decide)
  have hwith : semicolon ∉ s.item.with s.item.value := by
    have hall : semicolon ∉ s.item.name ++ equals :: s.item.value := by
      have hne : semicolon ≠ equals := by decide
      simp [hname, hne, value_free h (.inl rfl)]
    unfold Item.with
    split
    · exact hname
    · exact hall
  unfold Slot.piece
  simp only [List.mem_append, not_or]
  exact ⟨⟨hblanks _, hwith⟩, hblanks _⟩

theorem piece_ne_nil (s : Slot) : s.piece ≠ [] := by
  have hwith : s.item.with s.item.value ≠ [] := by
    unfold Item.with
    split
    · exact s.item.name_word.some
    · exact List.append_ne_nil_of_left_ne_nil s.item.name_word.some _
  unfold Slot.piece
  exact List.append_ne_nil_of_left_ne_nil (List.append_ne_nil_of_right_ne_nil _ hwith) _

theorem length_lt_intercalate {α : Type*} (c : α) {ws : List (List α)} (h : ∀ w ∈ ws, w ≠ []) :
    ws.length ≤ ([c].intercalate ws).length := by
  induction ws with
  | nil => exact Nat.zero_le _
  | cons w ws ih =>
    have hw := List.length_pos_of_ne_nil (h w List.mem_cons_self)
    cases ws with
    | nil =>
      rw [List.intercalate_singleton]
      exact hw
    | cons v ws =>
      have hrest := ih fun u hu => h u (List.mem_cons_of_mem _ hu)
      rw [List.intercalate_cons_cons, List.length_append, List.length_append, List.length_cons]
      omega

/-- The string is cut into one piece an item. -/
theorem pieces_render {slots : List Slot} (h : ∀ s ∈ slots, s.item.Valid) {opts : Bytes}
    (hopts : opts.map toupper = render slots) : pieces (some opts) = slots.map Slot.piece := by
  have hne : ∀ p ∈ slots.map Slot.piece, p ≠ [] := by
    intro p hp
    obtain ⟨s, -, rfl⟩ := List.mem_map.mp hp
    exact piece_ne_nil s
  have hfree : ∀ p ∈ slots.map Slot.piece, ∀ c ∈ p, c ∉ [semicolon] := by
    intro p hp c hc hmem
    obtain ⟨s, hs, rfl⟩ := List.mem_map.mp hp
    exact piece_free (h s hs) (List.mem_singleton.mp hmem ▸ hc)
  have hlength := length_lt_intercalate semicolon hne
  have hnil : ∀ c ∈ ([] : Bytes), c ∈ [semicolon] := fun c hc => absurd hc List.not_mem_nil
  have hcut := tokens_intercalate (List.mem_singleton_self semicolon) hne hfree hnil hnil (Nat.lt_succ_of_le hlength)
  rw [List.nil_append, List.append_nil] at hcut
  rw [pieces, Option.getD_some, hopts, convert_render h]
  exact hcut

/-! ### The keyword of a piece -/

/-- What `strstr()` looks for in a piece, in turn. -/
def needles : List (String × Keyword) :=
  [("BLKSIZE=", .blksize), ("DD=", .ddn), ("DDNAME=", .ddn), ("DISP=", .disp), ("DCBDSN=", .dcbdsn), ("DSN=", .dsn),
    ("DSNAME=", .dsn), ("DSORG=", .dsorg), ("RECFM=", .recfm), ("LRECL=", .lrecl), ("SPACE=", .space), ("UNIT=", .unit),
    ("VOLSER=", .volser)]

/-- A keyword's value is put in its field. -/
def put (d : Dsalc) (v : Bytes) : Keyword → Dsalc
  | .ddn => { d with ddn := some v }
  | .dsn => { d with dsn := some v }
  | .disp => { d with disp := some v }
  | .dcbdsn => { d with dcbdsn := some v }
  | .dsorg => { d with dsorg := some v }
  | .recfm => { d with recfm := some v }
  | .lrecl => { d with lrecl := some v }
  | .blksize => { d with blksize := some v }
  | .space => { d with space := some v }
  | .unit => { d with unit := some v }
  | .volser => { d with volser := some v }
  | .freeclose => { d with freeclose := true }
  | .mount => { d with mount := true }

/-- The first of some keywords that is found decides. -/
def dispatch (d : Dsalc) (p : Bytes) (keys : List (String × Keyword)) : Dsalc :=
  match keys.find? fun e => strstr p e.1 with
  | none => d
  | some e => put d (p.drop e.1.length) e.2

theorem dispatch_cons (d : Dsalc) (p : Bytes) (s : String) (k : Keyword) (keys : List (String × Keyword)) :
    dispatch d p ((s, k) :: keys) = if strstr p s then put d (p.drop s.length) k else dispatch d p keys := by
  unfold dispatch
  rw [List.find?_cons]
  cases strstr p s <;> rfl

theorem keyword_dispatch (d : Dsalc) {p : Bytes} (hmount : p ≠ literal "MOUNT") (hfree : p ≠ literal "FREE=CLOSE") :
    keyword d p = dispatch d p needles := by
  unfold keyword needles
  rw [if_neg hmount, if_neg hfree]
  simp only [dispatch_cons]
  rfl

/-- A text with its mark is found at the first mark or behind it. -/
theorem infix_mark {k a v : Bytes} (hk : equals ∉ k) (ha : equals ∉ a) :
    k ++ [equals] <:+: a ++ equals :: v ↔ k <:+ a ∨ k ++ [equals] <:+: v := by
  constructor
  · rintro ⟨s, t, heq⟩
    have heq' : s ++ k ++ equals :: t = a ++ equals :: v := by
      rw [← heq]
      simp only [List.append_assoc, List.singleton_append]
    rcases List.append_eq_append_iff.mp heq' with ⟨y, hy, hv⟩ | ⟨y, hy, hv⟩
    · cases y with
      | nil =>
        rw [List.append_nil] at hy
        exact .inl ⟨s, hy.symm⟩
      | cons c y =>
        obtain rfl : equals = c := (List.cons.inj hv).1
        exact absurd (hy ▸ List.mem_append_right _ List.mem_cons_self) ha
    · cases y with
      | nil =>
        rw [List.append_nil] at hy
        exact .inl ⟨s, hy⟩
      | cons c y =>
        obtain ⟨rfl, rfl⟩ := List.cons.inj hv
        right
        have hy' : s ++ k = (a ++ [equals]) ++ y := by rw [hy, List.append_assoc, List.singleton_append]
        rcases List.append_eq_append_iff.mp hy' with ⟨z, hz, hkz⟩ | ⟨z, hz, hkz⟩
        · rcases List.eq_nil_or_concat' z with rfl | ⟨z', c, rfl⟩
          · rw [List.nil_append] at hkz
            exact ⟨[], t, by rw [hkz]; simp⟩
          · rw [← List.append_assoc] at hz
            have hc : equals = c := (List.append_inj' hz rfl).2 |> List.singleton_inj.mp
            refine absurd ?_ hk
            rw [hkz, hc]
            simp
        · exact ⟨z, t, by rw [hkz]; simp⟩
  · rintro (⟨s, rfl⟩ | ⟨s, t, rfl⟩)
    · exact ⟨s, v, by simp⟩
    · exact ⟨a ++ equals :: s, t, by simp⟩

theorem suffix_blanks {k : Bytes} (hk : blank ∉ k) (n : Nat) (x : Bytes) : k <:+ blanks n ++ x ↔ k <:+ x := by
  induction n with
  | zero => exact Iff.rfl
  | succ n ih =>
    rw [blanks, List.replicate_succ, List.cons_append, List.suffix_cons_iff, ← blanks, ih]
    refine or_iff_right ?_
    rintro rfl
    exact hk List.mem_cons_self

/-- What stands in front of a value, where blanks are in front of the keyword: the end of the
keyword, or more. -/
def front (lead : Nat) (name : Bytes) : Bytes := (blanks lead ++ (name ++ [equals])).drop (name.length + 1)

theorem front_append (lead : Nat) (name v : Bytes) :
    (blanks lead ++ (name ++ equals :: v)).drop (name.length + 1) = front lead name ++ v := by
  have htext : blanks lead ++ (name ++ equals :: v) = blanks lead ++ (name ++ [equals]) ++ v := by
    simp only [List.append_assoc, List.singleton_append]
  have hlength : name.length + 1 ≤ (blanks lead ++ (name ++ [equals])).length := by
    rw [List.length_append, List.length_append, List.length_singleton]
    omega
  rw [htext, List.drop_append_of_le_length hlength, front]

theorem front_length (lead : Nat) (name : Bytes) : (front lead name).length = lead := by
  rw [front, List.length_drop, List.length_append, List.length_append, List.length_singleton, blanks,
    List.length_replicate]
  omega

/-- Blanks, then the last characters of the keyword with its `=`. -/
theorem front_eq (lead : Nat) (name : Bytes) :
    front lead name = blanks (lead - (name.length + 1)) ++ (name ++ [equals]).drop (name.length + 1 - lead) := by
  rw [front, List.drop_append, blanks, List.drop_replicate, List.length_replicate, blanks]

theorem needle_mark {e : String × Keyword} (he : e ∈ needles) :
    literal e.1 = (literal e.1).dropLast ++ [equals] ∧ Word (literal e.1).dropLast := by
  have hall : ∀ e ∈ needles, literal e.1 = (literal e.1).dropLast ++ [equals] ∧ Word (literal e.1).dropLast := by
    decide
  exact hall e he

/-- A keyword is found by its name, when its value has none. -/
theorem strstr_text {e : String × Keyword} (he : e ∈ needles) (n : Nat) {name v : Bytes} (hname : equals ∉ name)
    (hv : ¬ literal e.1 <:+: v) :
    strstr (blanks n ++ (name ++ equals :: v)) e.1 = decide ((literal e.1).dropLast <:+ name) := by
  obtain ⟨hmark, hword⟩ := needle_mark he
  have hblanks : equals ∉ blanks n ++ name := by
    rw [List.mem_append, not_or]
    exact ⟨fun hmem => absurd (List.eq_of_mem_replicate hmem) (by decide), hname⟩
  rw [hmark] at hv
  unfold strstr
  rw [decide_eq_decide, hmark, List.dropLast_concat, ← List.append_assoc, infix_mark (hword.free (by decide)) hblanks,
    suffix_blanks (hword.free (by decide)), or_iff_left hv]

/-- A text without a mark has no keyword. -/
theorem needle_absent {e : String × Keyword} (he : e ∈ needles) {v : Bytes} (hv : equals ∉ v) :
    ¬ literal e.1 <:+: v := by
  intro hinfix
  refine hv (List.IsInfix.subset hinfix ?_)
  rw [(needle_mark he).1]
  exact List.mem_append_right _ (List.mem_singleton_self equals)

theorem dispatch_name (long : Bool) {k : Keyword} (hfree : k ≠ .freeclose) (hmount : k ≠ .mount) :
    (needles.find? fun e => decide ((literal e.1).dropLast <:+ k.name long)).map (fun e => (e.1.length, e.2)) =
      some ((k.name long).length + 1, k) := by
  cases k with
  | freeclose => exact absurd rfl hfree
  | mount => exact absurd rfl hmount
  | _ => cases long <;> decide

/-- The unit of a `SPACE=` ends in no keyword. -/
theorem unit_unheard {u : SpaceUnit} (h : ∀ n, u = .blklen n → Quantity n ∧ 0 < number n) {e : String × Keyword}
    (he : e ∈ needles) : ¬ (literal e.1).dropLast <:+ u.text := by
  cases u with
  | trk =>
    have hall : ∀ e ∈ needles, ¬ (literal e.1).dropLast <:+ literal "TRK" := by decide
    exact hall e he
  | cyl =>
    have hall : ∀ e ∈ needles, ¬ (literal e.1).dropLast <:+ literal "CYL" := by decide
    exact hall e he
  | blklen n =>
    have hall : ∀ e ∈ needles, ∀ c ∈ (literal e.1).dropLast, ¬ isdigit c.toNat := by decide
    intro hsuffix
    obtain ⟨c, rest, hcons⟩ := List.exists_cons_of_ne_nil (needle_mark he).2.some
    have hc : c ∈ (literal e.1).dropLast := by
      rw [hcons]
      exact List.mem_cons_self
    exact hall e he c hc ((h n rfl).1.digits c (hsuffix.subset hc))

/-- A value holds no other keyword. -/
theorem value_unheard {i : Item} (h : i.Valid) (n : Nat) {e : String × Keyword} (he : e ∈ needles) :
    ¬ literal e.1 <:+: i.value ++ blanks n := by
  have hblanks : equals ∉ blanks n := fun hmem => absurd (List.eq_of_mem_replicate hmem) (by decide)
  have habsent : ∀ {v : Bytes}, equals ∉ v → ¬ literal e.1 <:+: v ++ blanks n := fun hv =>
    needle_absent he (by rw [List.mem_append, not_or]; exact ⟨hv, hblanks⟩)
  by_cases hspace : i.keyword = .space
  · cases i with
    | space u jcl p more =>
      have hu : equals ∉ u.text := (spaceUnit_word h.1).free (by decide)
      have hqty : equals ∉ commas (p :: both more) :=
        commas_free (quantities_word h.2.1 h.2.2) (by decide) (by decide)
      cases jcl with
      | false =>
        obtain ⟨hmark, hword⟩ := needle_mark he
        show ¬ literal e.1 <:+: u.text ++ equals :: commas (p :: both more) ++ blanks n
        rw [hmark, List.append_assoc, List.cons_append, infix_mark (hword.free (by decide)) hu, not_or, ← hmark]
        exact ⟨unit_unheard h.1 he, habsent hqty⟩
      | true =>
        refine habsent ?_
        have hmarks : equals ≠ lparen ∧ equals ≠ rparen ∧ equals ≠ comma := by decide
        simp [Item.value, parens, hu, hqty, hmarks]
    | _ => cases hspace
  · exact habsent (value_free h (.inr ⟨rfl, hspace⟩))

theorem name_ne_free {k : Keyword} (h : k ≠ .freeclose) (long : Bool) : ¬ k.name long <:+ literal "FREE" := by
  cases k with
  | freeclose => exact absurd rfl h
  | _ => cases long <;> decide

theorem ne_of_mark {x : Bytes} {y : Bytes} (hx : equals ∈ x) (hy : equals ∉ y) : x ≠ y := fun heq => hy (heq ▸ hx)

theorem text_ne_close (n : Nat) {name : Bytes} (hname : equals ∉ name) (hne : ¬ name <:+ literal "FREE") (v : Bytes) :
    blanks n ++ (name ++ equals :: v) ≠ literal "FREE=CLOSE" := by
  intro heq
  have hblanks : equals ∉ blanks n ++ name := by
    rw [List.mem_append, not_or]
    exact ⟨fun hmem => absurd (List.eq_of_mem_replicate hmem) (by decide), hname⟩
  have hclose : literal "FREE=CLOSE" = literal "FREE" ++ equals :: literal "CLOSE" := by decide
  have hplain : equals ∉ literal "FREE" := by decide
  have hleft := takeWhile_upto hblanks v
  rw [List.append_assoc, heq, hclose, takeWhile_upto hplain] at hleft
  exact hne ⟨_, hleft.symm⟩

/-- A text is taken for its keyword, with what it has behind as many characters. -/
theorem keyword_text (d : Dsalc) (n : Nat) (long : Bool) {k : Keyword} (hfree : k ≠ .freeclose) (hmount : k ≠ .mount)
    {v : Bytes} (hv : ∀ e ∈ needles, ¬ literal e.1 <:+: v) :
    keyword d (blanks n ++ (k.name long ++ equals :: v)) = put d (front n (k.name long) ++ v) k := by
  have hname : equals ∉ k.name long := (Keyword.name_word k long).free (by decide)
  have hfind : (needles.find? fun e => strstr (blanks n ++ (k.name long ++ equals :: v)) e.1) =
      needles.find? fun e => decide ((literal e.1).dropLast <:+ k.name long) :=
    List.find?_congr fun e he => strstr_text he n hname (hv e he)
  obtain ⟨e, he, hmatch⟩ := Option.map_eq_some_iff.mp (dispatch_name long hfree hmount)
  obtain ⟨hlength, hkey⟩ := Prod.mk.inj hmatch
  have hmark : equals ∈ blanks n ++ (k.name long ++ equals :: v) := by simp
  have hplain : equals ∉ literal "MOUNT" := by decide
  rw [keyword_dispatch d (ne_of_mark hmark hplain) (text_ne_close n hname (name_ne_free hfree long) v), dispatch,
    hfind, he]
  dsimp only
  rw [hkey, hlength, front_append]

theorem Item.with_value {i : Item} (h : i.keyword ≠ .mount) (v : Bytes) : i.with v = i.name ++ equals :: v := by
  unfold Item.with
  split
  · exact absurd rfl h
  · rfl

/-- A piece is taken for its keyword, and the value is what it has behind as many characters. -/
theorem keyword_slot (d : Dsalc) {s : Slot} (h : s.item.Valid) (hfree : s.item.keyword ≠ .freeclose)
    (hmount : s.item.keyword ≠ .mount) :
    keyword d s.piece = put d (front s.lead s.item.name ++ (s.item.value ++ blanks s.trail)) s.item.keyword := by
  have hpiece : s.piece = blanks s.lead ++ (s.item.name ++ equals :: (s.item.value ++ blanks s.trail)) := by
    rw [Slot.piece, Item.with_value hmount]
    simp only [List.append_assoc, List.cons_append]
  rw [hpiece]
  exact keyword_text d s.lead s.item.long hfree hmount fun e he => value_unheard h s.trail he

/-- `FREE=CLOSE` and `MOUNT` are the whole piece, or nothing. -/
theorem keyword_freeclose (d : Dsalc) (lead trail : Nat) (byComma : Bool) :
    keyword d (Slot.piece ⟨lead, .freeclose, trail, byComma⟩) =
      if lead = 0 ∧ trail = 0 then { d with freeclose := true } else d := by
  have hpiece : Slot.piece ⟨lead, .freeclose, trail, byComma⟩ =
      blanks lead ++ (literal "FREE" ++ equals :: (literal "CLOSE" ++ blanks trail)) := by
    show blanks lead ++ (literal "FREE" ++ equals :: literal "CLOSE") ++ blanks trail = _
    simp only [List.append_assoc, List.cons_append]
  rw [hpiece]
  by_cases hexact : lead = 0 ∧ trail = 0
  · obtain ⟨rfl, rfl⟩ := hexact
    rw [if_pos ⟨rfl, rfl⟩]
    have hmount : literal "FREE=CLOSE" ≠ literal "MOUNT" := by decide
    have hclose : blanks 0 ++ (literal "FREE" ++ equals :: (literal "CLOSE" ++ blanks 0)) = literal "FREE=CLOSE" := by
      decide
    rw [hclose, keyword, if_neg hmount, if_pos rfl]
  · rw [if_neg hexact]
    have hne : blanks lead ++ (literal "FREE" ++ equals :: (literal "CLOSE" ++ blanks trail)) ≠
        literal "FREE=CLOSE" := by
      intro heq
      have hlength := congrArg List.length heq
      have hten : (literal "FREE=CLOSE").length = 10 ∧ (literal "FREE").length = 4 ∧ (literal "CLOSE").length = 5 := by
        decide
      rw [hten.1, List.length_append, List.length_append, List.length_cons, List.length_append, hten.2.1, hten.2.2,
        blanks,
        blanks, List.length_replicate, List.length_replicate] at hlength
      omega
    have hmark : equals ∈ blanks lead ++ (literal "FREE" ++ equals :: (literal "CLOSE" ++ blanks trail)) := by simp
    have hnone : (needles.find? fun e =>
        strstr (blanks lead ++ (literal "FREE" ++ equals :: (literal "CLOSE" ++ blanks trail))) e.1) = none := by
      rw [List.find?_eq_none]
      intro e he
      have hall : ∀ e ∈ needles, ¬ (literal e.1).dropLast <:+ literal "FREE" := by decide
      have hunheard : ¬ literal e.1 <:+: literal "CLOSE" ++ blanks trail :=
          value_unheard (i := .freeclose) trivial trail he
      have hname : equals ∉ literal "FREE" := by decide
      rw [strstr_text he lead hname hunheard, decide_eq_true_eq]
      exact hall e he
    rw [keyword_dispatch d (ne_of_mark hmark (by decide)) hne, dispatch, hnone]

theorem keyword_mount (d : Dsalc) (lead trail : Nat) (byComma : Bool) :
    keyword d (Slot.piece ⟨lead, .mount, trail, byComma⟩) = if lead = 0 ∧
      trail = 0 then { d with mount := true } else d := by
  have hpiece : Slot.piece ⟨lead, .mount, trail, byComma⟩ = blanks lead ++ literal "MOUNT" ++ blanks trail := rfl
  rw [hpiece]
  by_cases hexact : lead = 0 ∧ trail = 0
  · obtain ⟨rfl, rfl⟩ := hexact
    rw [if_pos ⟨rfl, rfl⟩]
    have hmount : blanks 0 ++ literal "MOUNT" ++ blanks 0 = literal "MOUNT" := by decide
    rw [hmount, keyword, if_pos rfl]
  · rw [if_neg hexact]
    have hne : blanks lead ++ literal "MOUNT" ++ blanks trail ≠ literal "MOUNT" := by
      intro heq
      have hlength := congrArg List.length heq
      rw [List.length_append, List.length_append, blanks, blanks, List.length_replicate,
        List.length_replicate] at hlength
      omega
    have hblanks : ∀ n, equals ∉ blanks n := fun n hmem => absurd (List.eq_of_mem_replicate hmem) (by decide)
    have hname : equals ∉ literal "MOUNT" := by decide
    have hmark : equals ∉ blanks lead ++ literal "MOUNT" ++ blanks trail := by
      simp [hblanks, hname]
    have hclose : blanks lead ++ literal "MOUNT" ++ blanks trail ≠ literal "FREE=CLOSE" :=
      (ne_of_mark (by decide) hmark).symm
    have hnone : (needles.find? fun e => strstr (blanks lead ++ literal "MOUNT" ++ blanks trail) e.1) = none := by
      rw [List.find?_eq_none]
      intro e he
      rw [strstr, decide_eq_true_eq]
      exact needle_absent he hmark
    rw [keyword_dispatch d hne hclose, dispatch, hnone]

end Libc370.Dynalloc
