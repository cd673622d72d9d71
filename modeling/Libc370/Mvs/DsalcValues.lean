import Libc370.Mvs.DsalcUnits
import Libc370.Mvs.DsalcKeywords

/-! The text units of keywords with valid values.

What an item asks for is said by its value alone (`Item.units`). The value found in the string
has blanks behind it, and in front of it the characters that blanks in front of the keyword
let in, so whether it asks for the same depends on the keyword (`Item.Fits`). The keywords of a
request do not disturb each other (`values_whole_iff`). -/
namespace Libc370.Dynalloc

open Ext

set_option maxRecDepth 10000

/-! ### What an item asks for -/

def Status.code : Status → UInt8
  | .new => 0x04
  | .old => 0x01
  | .mod => 0x02
  | .shr => 0x08

def Disposition.code : Disposition → UInt8
  | .keep => 0x08
  | .delete | .del => 0x04
  | .catlg | .cat => 0x02
  | .uncatlg | .uncat => 0x01

def SpaceUnit.asks : SpaceUnit → TXT99
  | .trk => ⟨.trk, []⟩
  | .cyl => ⟨.cyl, []⟩
  | .blklen n => ⟨.blkln, [low 3 (number n)]⟩

/-- The secondary and the directory quantity; no directory is one of 0 blocks. -/
def moreAsks : Option (Bytes × Option Bytes) → List TXT99
  | none => [⟨.secnd, [low 3 0]⟩]
  | some (s, none) => [⟨.secnd, [low 3 (number s)]⟩]
  | some (s, some d) =>
    ⟨.secnd, [low 3 (number s)]⟩ :: if number d = 0 then [] else [⟨.dir, [low 3 (number d)]⟩]

def moreDisp : Option (Disposition × Option Disposition) → List TXT99
  | none => []
  | some (n, none) => [⟨.ndisp, [[n.code]]⟩]
  | some (n, some a) => [⟨.ndisp, [[n.code]]⟩, ⟨.cdisp, [[a.code]]⟩]

/-- The text units of an item. -/
def Item.units : Item → List TXT99
  | .ddn _ name => [⟨.ddnam, [name]⟩]
  | .dsn _ name none => [⟨.dsnam, [name]⟩]
  | .dsn _ name (some m) => [⟨.membr, [m]⟩, ⟨.dsnam, [name]⟩]
  | .disp status more => ⟨.stats, [[status.code]]⟩ :: moreDisp more
  | .dcbdsn name => [⟨.dcbds, [name]⟩]
  | .dsorg org => (orgTable.filter fun e => literal e.1 = org).map fun e => ⟨.dsorg, [low 2 e.2]⟩
  | .recfm fmt => [⟨.recfm, [[recfmType fmt]]⟩]
  | .lrecl n => [⟨.lrecl, [low 2 (number n)]⟩]
  | .lreclK n => [⟨.lrecl, [low 2 (number n * 1024)]⟩]
  | .lreclX => [⟨.lrecl, [low 2 0x8000]⟩]
  | .blksize n => [⟨.blksz, [low 2 (number n)]⟩]
  | .space u _ p more => u.asks :: ⟨.prime, [low 3 (number p)]⟩ :: moreAsks more
  | .unit name => [⟨.unit, [name]⟩]
  | .volser _ vols => [⟨.vlser, vols⟩]
  | .freeclose => [⟨.close, []⟩]
  | .mount => []

/-- When the value found asks for the same: `lead` blanks stand in front of the keyword, and
`trail` behind the value. -/
def Item.Fits (lead trail : Nat) : Item → Prop
  | .ddn .. | .dsn _ _ none | .dcbdsn _ | .dsorg _ | .unit _ | .freeclose => lead = 0 ∧ trail = 0
  | .dsn _ name (some m) => lead = 0 ∧ name.length + m.length + 2 + trail < 80
  | .recfm fmt => recfmType (front lead (literal "RECFM")) ||| recfmType fmt = recfmType fmt
  | .lrecl _ | .lreclK _ | .blksize _ | .space .. | .volser .. => lead = 0
  | .disp .. | .lreclX | .mount => True

/-- What a keyword asks for, in the order of the manual's table. -/
def asksOf (d : Dsalc) : Keyword → Option (List TXT99)
  | .ddn => some [ddnAsks d.ddn]
  | .dsn => asked (nonempty d.dsn) dsnAsks
  | .disp => asked d.disp dispAsks
  | .dcbdsn => asked d.dcbdsn dcbdAsks
  | .dsorg => asked d.dsorg orgAsks
  | .recfm => asked d.recfm recfAsks
  | .lrecl => asked d.lrecl lrecAsks
  | .blksize => asked d.blksize bkszAsks
  | .space => asked d.space (spaceAsks (some (11, 31)))
  | .unit => asked d.unit unitAsks
  | .volser => asked d.volser fun vols => volsAsks (volumes vols)
  | .freeclose => if d.freeclose then some [⟨.close, []⟩] else some []
  | .mount => some []

/-- The order of the text units. -/
def order : List Keyword :=
  [.ddn, .dsn, .disp, .dcbdsn, .dsorg, .recfm, .lrecl, .blksize, .space, .unit, .volser, .freeclose]

/-! ### Numbers -/

theorem isdigit_facts {c : UInt8} (h : isdigit c.toNat) :
    isspace c.toNat = false ∧ c ≠ ebcdic '-' ∧ c ≠ ebcdic '+' := by
  refine ⟨Bool.eq_false_iff.mpr fun hspace => ?_, ?_, ?_⟩
  · rw [isdigit_iff] at h
    rw [isspace_iff] at hspace
    omega
  · rintro rfl
    exact absurd h (by decide)
  · rintro rfl
    exact absurd h (by decide)

theorem number_mono (n : Bytes) (x : Nat) : x ≤ n.foldl (fun x c => x * 10 + digval c.toNat) x := by
  induction n generalizing x with
  | nil => exact Nat.le_refl x
  | cons c n ih =>
    have hstep := ih (x * 10 + digval c.toNat)
    rw [List.foldl_cons]
    omega

theorem accumulate_number {limit : Nat} (n : Bytes) (x : Nat)
    (h : n.foldl (fun x c => x * 10 + digval c.toNat) x ≤ limit) :
    n.foldl (accumulate limit) (some x) = some (n.foldl (fun x c => x * 10 + digval c.toNat) x) := by
  induction n generalizing x with
  | nil => rfl
  | cons c n ih =>
    rw [List.foldl_cons] at h
    have hle := (number_mono n (x * 10 + digval c.toNat)).trans h
    have hstep : accumulate limit (some x) c = some (x * 10 + digval c.toNat) := by
      unfold accumulate
      dsimp only
      rw [if_neg]
      omega
    rw [List.foldl_cons, List.foldl_cons, hstep, ih _ h]

/-- A number up to the first other character. -/
theorem atoi_number {n rest : Bytes} (h : Number n) (hlt : number n < 2 ^ 31)
    (hrest : ∀ c ∈ rest.head?, ¬ isdigit c.toNat) :
    atoi (n ++ rest) = number n := by
  obtain ⟨c, y, rfl⟩ := List.exists_cons_of_ne_nil h.some
  obtain ⟨hspace, hminus, hplus⟩ := isdigit_facts (h.digits c List.mem_cons_self)
  have hdrop : (c :: y ++ rest).dropWhile (fun c => isspace c.toNat) = c :: y ++ rest := by
    rw [List.cons_append, List.dropWhile_cons_of_neg (by rw [hspace]; exact Bool.false_ne_true)]
  have hneg : ¬ (c :: y ++ rest).head? = some (ebcdic '-') := fun heq => hminus (Option.some.inj heq)
  have hpos : ¬ (c :: y ++ rest).head? = some (ebcdic '+') := fun heq => hplus (Option.some.inj heq)
  have htake : (c :: y ++ rest).takeWhile (fun c => digval c.toNat < 10) = c :: y := by
    rw [List.takeWhile_append_of_pos fun d hd => decide_eq_true (digval_lt_ten.mpr (h.digits d hd))]
    cases rest with
    | nil => rw [List.takeWhile_nil, List.append_nil]
    | cons d rest =>
      have hd : ¬ isdigit d.toNat := hrest d rfl
      rw [List.takeWhile_cons_of_neg (by rw [decide_eq_true_eq, digval_lt_ten]; exact hd), List.append_nil]
  have hle : (c :: y).foldl (fun n c => n * 10 + digval c.toNat) 0 ≤ 2 ^ 31 - 1 := by
    unfold number at hlt
    omega
  have hfold := accumulate_number (c :: y) 0 hle
  unfold atoi
  rw [hdrop]
  simp only [hneg, hpos, or_self, if_false, htake, hfold]
  rfl

/-- A character that no number starts with. -/
def Odd (c : UInt8) : Prop := isspace c.toNat = false ∧ isdigit c.toNat = false ∧ c ≠ ebcdic '-' ∧ c ≠ ebcdic '+'

theorem blank_space {n : Nat} {c : UInt8} (h : c ∈ blanks n) : isspace c.toNat = true := by
  rw [List.eq_of_mem_replicate h]
  decide

/-- No number behind blanks. -/
theorem atoi_odd (n : Nat) {x : Bytes} (h : ∀ c ∈ x.head?, Odd c) : atoi (blanks n ++ x) = 0 := by
  have hdrop : (blanks n ++ x).dropWhile (fun c => isspace c.toNat) = x := by
    rw [List.dropWhile_append_of_pos fun c hc => blank_space hc]
    cases x with
    | nil => rfl
    | cons c x => rw [List.dropWhile_cons_of_neg (by rw [(h c rfl).1]; exact Bool.false_ne_true)]
  have hneg : ¬ x.head? = some (ebcdic '-') := fun heq => (h _ heq).2.2.1 rfl
  have hpos : ¬ x.head? = some (ebcdic '+') := fun heq => (h _ heq).2.2.2 rfl
  have htake : x.takeWhile (fun c => digval c.toNat < 10) = [] := by
    cases x with
    | nil => rfl
    | cons c x =>
      rw [List.takeWhile_cons_of_neg]
      rw [decide_eq_true_eq, digval_lt_ten, (h c rfl).2.1]
      exact Bool.false_ne_true
  unfold atoi
  rw [hdrop]
  simp only [hneg, hpos, or_self, if_false, htake]
  rfl

/-! ### The value found -/

/-- The value that is found in a piece. -/
def found (lead : Nat) (name v : Bytes) (trail : Nat) : Bytes := front lead name ++ (v ++ blanks trail)

theorem front_zero (name : Bytes) : front 0 name = [] := List.length_eq_zero_iff.mp (front_length 0 name)

/-- Behind blanks, the last characters of the keyword and its `=`. -/
theorem front_word (lead : Nat) (name : Bytes) :
    ∃ k w, w <:+ name ++ [equals] ∧ front lead name = blanks k ++ w ∧ (w = [] ↔ lead = 0) ∧
      (0 < k → w = name ++ [equals]) := by
  refine ⟨_, _, List.drop_suffix _ _, front_eq lead name, ?_, fun hk => ?_⟩
  · rw [List.drop_eq_nil_iff, List.length_append, List.length_singleton]
    omega
  · rw [Nat.sub_eq_zero_of_le (by omega), List.drop_zero]

theorem suffix_mark {w name : Bytes} (h : w <:+ name ++ [equals]) (hne : w ≠ []) : ∃ y,
    y <:+ name ∧ w = y ++ [equals] := by
  obtain ⟨y, c, rfl⟩ := (List.eq_nil_or_concat' w).resolve_left hne
  obtain ⟨t, ht⟩ := h
  rw [← List.append_assoc] at ht
  obtain ⟨hname, hc⟩ := List.append_inj' ht rfl
  rw [List.singleton_inj.mp hc]
  exact ⟨y, ⟨t, hname⟩, rfl⟩

theorem front_mark {lead : Nat} (h : lead ≠ 0) (name : Bytes) : equals ∈ front lead name := by
  obtain ⟨k, w, hw, hfront, hzero, -⟩ := front_word lead name
  obtain ⟨y, -, rfl⟩ := suffix_mark hw fun hnil => h (hzero.mp hnil)
  rw [hfront]
  simp

/-- The whole value is found when no blanks are around. -/
theorem found_eq_iff (lead : Nat) (name v : Bytes) (trail : Nat) :
    found lead name v trail = v ↔ lead = 0 ∧ trail = 0 := by
  constructor
  · intro h
    have hlength := congrArg List.length h
    rw [found, List.length_append, List.length_append, front_length, blanks, List.length_replicate] at hlength
    omega
  · rintro ⟨rfl, rfl⟩
    rw [found, front_zero, List.nil_append, blanks, List.replicate_zero, List.append_nil]

/-- A word is found alone, or not at all. -/
theorem found_word {lead : Nat} {name v : Bytes} {trail : Nat} (h : Word (found lead name v trail)) :
    lead = 0 ∧ trail = 0 := by
  constructor
  · by_contra hlead
    exact h.free (c := equals) (by decide) (List.mem_append_left _ (front_mark hlead name))
  · by_contra htrail
    obtain ⟨n, rfl⟩ := Nat.exists_eq_succ_of_ne_zero htrail
    refine h.free (c := blank) (by decide) (List.mem_append_right _ (List.mem_append_right _ ?_))
    rw [blanks, List.replicate_succ]
    exact List.mem_cons_self

theorem found_ne_nil {v : Bytes} (h : v ≠ []) (lead : Nat) (name : Bytes) (trail : Nat) :
    found lead name v trail ≠ [] :=
  List.append_ne_nil_of_right_ne_nil _ (List.append_ne_nil_of_left_ne_nil h _)

theorem dcbd_fits {name : Bytes} (h : Word name) (hlength : name.length ≤ 44) (lead trail : Nat) (key : Bytes) :
    dcbdAsks (found lead key name trail) = some [⟨.dcbds, [name]⟩] ↔ lead = 0 ∧ trail = 0 := by
  rw [← found_eq_iff lead key name trail]
  unfold dcbdAsks
  constructor
  · intro heq
    split_ifs at heq
    simpa using heq
  · intro heq
    have hpos := List.length_pos_of_ne_nil h.some
    rw [heq, if_neg (by omega)]

theorem unit_fits {name : Bytes} (h : Word name) (lead trail : Nat) (key : Bytes) :
    unitAsks (found lead key name trail) = some [⟨.unit, [name]⟩] ↔ lead = 0 ∧ trail = 0 := by
  rw [← found_eq_iff lead key name trail]
  unfold unitAsks
  constructor
  · intro heq
    split_ifs at heq
    simpa using heq
  · intro heq
    rw [heq, if_pos (List.length_pos_of_ne_nil h.some).ne']

theorem ddn_fits {name : Bytes} (h : Word name) (lead trail : Nat) (key : Bytes) :
    some [ddnAsks (some (found lead key name trail))] = some [⟨.ddnam, [name]⟩] ↔ lead = 0 ∧ trail = 0 := by
  rw [← found_eq_iff lead key name trail]
  have hsome : nonempty (some (found lead key name trail)) = some (found lead key name trail) := by
    rw [nonempty, Option.filter_some, if_pos (decide_eq_true (found_ne_nil h.some _ _ _))]
  rw [ddnAsks, hsome]
  simp

/-- A name in the table is a word, and asks for its own entry. -/
theorem org_entry {org : Bytes} (h : org ∈ orgTable.map fun e => literal e.1) :
    Word org ∧ orgAsks org = some (Item.dsorg org).units := by
  have hall : ∀ org ∈ orgTable.map fun e => literal e.1, Word org ∧ orgAsks org =
      some ((orgTable.filter fun e => literal e.1 = org).map fun e => ⟨.dsorg, [low 2 e.2]⟩) := by
    decide +kernel
  exact hall org h

theorem org_fits {org : Bytes} (h : org ∈ orgTable.map fun e => literal e.1) (lead trail : Nat) (key : Bytes) :
    orgAsks (found lead key org trail) = some (Item.dsorg org).units ↔ lead = 0 ∧ trail = 0 := by
  constructor
  · intro heq
    have hmem : found lead key org trail ∈ orgTable.map fun e => literal e.1 := by
      obtain ⟨e, he, -⟩ := Option.map_eq_some_iff.mp heq
      have hkey := List.find?_some he
      exact List.mem_map.mpr ⟨e, List.mem_of_find?_eq_some he, of_decide_eq_true hkey⟩
    exact found_word (org_entry hmem).1
  · intro hexact
    rw [(found_eq_iff lead key org trail).mpr hexact]
    exact (org_entry h).2

theorem foldl_recfm (fmt : Bytes) (type : UInt8) :
    fmt.foldl (fun type c => type ||| recfmBit c) type = type ||| recfmType fmt := by
  unfold recfmType
  induction fmt generalizing type with
  | nil => simp
  | cons c fmt ih =>
    rw [List.foldl_cons, List.foldl_cons, ih, ih (0 ||| recfmBit c), UInt8.zero_or, UInt8.or_assoc]

theorem recfmType_append (x y : Bytes) : recfmType (x ++ y) = recfmType x ||| recfmType y := by
  rw [recfmType, List.foldl_append, foldl_recfm]
  rfl

theorem recfmType_blanks (n : Nat) : recfmType (blanks n) = 0 := by
  induction n with
  | zero => rfl
  | succ n ih =>
    have hblank : recfmType [blank] = 0 := by decide
    rw [blanks, List.replicate_succ, ← List.singleton_append, recfmType_append, hblank, ← blanks, ih]
    rfl

theorem recfm_fits {fmt : Bytes} (h : Word fmt) (hbits : ∀ c ∈ fmt, recfmBit c ≠ 0) (lead trail : Nat) (key : Bytes) :
    recfAsks (found lead key fmt trail) = some [⟨.recfm, [[recfmType fmt]]⟩] ↔
      recfmType (front lead key) ||| recfmType fmt = recfmType fmt := by
  have htype : recfmType (found lead key fmt trail) = recfmType (front lead key) ||| recfmType fmt := by
    rw [found, recfmType_append, recfmType_append, recfmType_blanks, UInt8.or_zero]
  have hne : recfmType fmt ≠ 0 := by
    obtain ⟨c, rest, rfl⟩ := List.exists_cons_of_ne_nil h.some
    intro hzero
    rw [← List.singleton_append, recfmType_append, UInt8.or_eq_zero_iff] at hzero
    refine hbits c List.mem_cons_self ?_
    simpa [recfmType] using hzero.1
  unfold recfAsks
  rw [htype]
  constructor
  · intro heq
    split_ifs at heq
    simpa using heq
  · intro heq
    rw [heq, if_neg hne]

/-- Of the marks, what stands in front of a value has blanks and `=` only. -/
theorem front_free {key : Bytes} (h : Word key) {c : UInt8} (hc : c ∈ marks) (hequals : c ≠ equals) (hblank : c ≠ blank)
    (lead : Nat) : c ∉ front lead key := by
  obtain ⟨k, w, hw, hfront, -, -⟩ := front_word lead key
  rw [hfront, List.mem_append, not_or]
  refine ⟨fun hmem => hblank (List.eq_of_mem_replicate hmem), fun hmem => ?_⟩
  rcases List.mem_append.mp (hw.subset hmem) with hmem | hmem
  · exact h.free hc hmem
  · exact hequals (List.mem_singleton.mp hmem)

theorem dsn_fits {name key : Bytes} (h : Word name) (hlength : name.length ≤ 44) (hkey : Word key) (lead trail : Nat) :
    dsnAsks (found lead key name trail) = some [⟨.dsnam, [name]⟩] ↔ lead = 0 ∧ trail = 0 := by
  rw [← found_eq_iff lead key name trail]
  have hfree : lparen ∉ found lead key name trail := by
    rw [found, List.mem_append, List.mem_append, not_or, not_or]
    exact ⟨front_free hkey (by decide) (by decide) (by decide) lead, h.free (by decide),
      fun hmem => absurd (List.eq_of_mem_replicate hmem) (by decide)⟩
  have hdrop : (found lead key name trail).dropWhile (· ≠ lparen) = [] := by
    rw [List.dropWhile_eq_nil_iff]
    intro c hc
    exact decide_eq_true fun heq => hfree (heq ▸ hc)
  unfold dsnAsks
  rw [hdrop]
  constructor
  · intro heq
    split_ifs at heq
    simpa using heq
  · intro heq
    rw [heq, if_neg (by omega)]

theorem member_fits {name m key : Bytes} (h : Word name) (hm : Word m) (hkey : Word key) (lead trail : Nat) :
    dsnAsks (found lead key (name ++ parens m) trail) = some [⟨.membr, [m]⟩, ⟨.dsnam, [name]⟩] ↔
      lead = 0 ∧ name.length + m.length + 2 + trail < 80 := by
  have htext : found lead key (name ++ parens m) trail =
      front lead key ++ name ++ lparen :: (m ++ rparen :: blanks trail) := by
    rw [found, List.append_assoc name, parens_append, List.append_assoc]
  have hlength : (found lead key (name ++ parens m) trail).length = lead + name.length + m.length + 2 + trail := by
    rw [htext, List.length_append, List.length_append, front_length, List.length_cons, List.length_append,
      List.length_cons,
      blanks, List.length_replicate]
    omega
  have hfree : lparen ∉ front lead key ++ name := by
    rw [List.mem_append, not_or]
    exact ⟨front_free hkey (by decide) (by decide) (by decide) lead, h.free (by decide)⟩
  have hname : front lead key ++ name = name ↔ lead = 0 := by
    constructor
    · intro heq
      have hlen := congrArg List.length heq
      rw [List.length_append, front_length] at hlen
      omega
    · rintro rfl
      rw [front_zero, List.nil_append]
  unfold dsnAsks
  rw [hlength, htext, dropWhile_upto hfree]
  dsimp only
  rw [takeWhile_upto hfree, takeWhile_upto (hm.free (by decide))]
  constructor
  · intro heq
    split_ifs at heq with hlong
    have hsame : front lead key ++ name = name := by simpa using heq
    obtain rfl := hname.mp hsame
    exact ⟨rfl, by omega⟩
  · rintro ⟨rfl, hshort⟩
    rw [if_neg (by omega), hname.mpr rfl]

/-! ### The numbers found -/

theorem low_two {a b : Nat} (ha : a < 2 ^ 16) (hb : b < 2 ^ 16) (h : low 2 a = low 2 b) : a = b := by
  have hbytes : ∀ n : Nat, n < 2 ^ 16 → low 2 n = [UInt8.ofNat (n / 256), UInt8.ofNat n] := by
    intro n hn
    have hmod : ((n : Int) % 4294967296).toNat = n := by omega
    simp [low, hmod, List.range_succ]
  rw [hbytes a ha, hbytes b hb] at h
  obtain ⟨hhigh, hlow⟩ := List.cons.inj h
  have hhigh' := congrArg UInt8.toNat hhigh
  have hlow' := congrArg UInt8.toNat (List.cons.inj hlow).1
  simp only [UInt8.toNat_ofNat'] at hhigh' hlow'
  omega

/-- The number in a value, which blanks in front of the keyword hide. -/
theorem atoi_found {key n rest : Bytes} (hkey : ∀ c ∈ key ++ [equals], Odd c) (h : Number n) (hlt : number n < 2 ^ 31)
    (hrest : ∀ c ∈ rest.head?, ¬ isdigit c.toNat) (lead trail : Nat) :
    atoi (found lead key (n ++ rest) trail) = if lead = 0 then (number n : Int) else 0 := by
  have hbehind : ∀ c ∈ (rest ++ blanks trail).head?, ¬ isdigit c.toNat := by
    cases rest with
    | cons d rest => exact hrest
    | nil =>
      intro c hc
      rw [List.eq_of_mem_replicate (List.mem_of_mem_head? hc)]
      decide
  split_ifs with hlead
  · obtain rfl := hlead
    rw [found, front_zero, List.nil_append, List.append_assoc, atoi_number h hlt hbehind]
  · obtain ⟨k, w, hw, hfront, hzero, -⟩ := front_word lead key
    obtain ⟨c, y, rfl⟩ := List.exists_cons_of_ne_nil fun hnil => hlead (hzero.mp hnil)
    rw [found, hfront, List.append_assoc, atoi_odd k]
    rintro d ⟨⟩
    exact hkey c (hw.subset List.mem_cons_self)

/-- The number that is all of the value. -/
theorem atoi_found_alone {key n : Bytes} (hkey : ∀ c ∈ key ++ [equals], Odd c) (h : Number n) (hlt : number n < 2 ^ 31)
    (lead trail : Nat) : atoi (found lead key n trail) = if lead = 0 then (number n : Int) else 0 := by
  have hnone : ∀ c ∈ ([] : Bytes).head?, ¬ isdigit c.toNat := fun c hc => by cases hc
  have hatoi := atoi_found hkey h hlt hnone lead trail
  rwa [List.append_nil] at hatoi

/-- A capital letter of the value, or not: the others have none. -/
theorem letter_found {key n rest : Bytes} {c : UInt8} (hkey : c ∉ key ++ [equals]) (h : Number n)
    (hc : isdigit c.toNat = false)
    (hblank : c ≠ blank) (lead trail : Nat) : c ∈ found lead key (n ++ rest) trail ↔ c ∈ rest := by
  obtain ⟨k, w, hw, hfront, -, -⟩ := front_word lead key
  have hblanks : ∀ m, c ∉ blanks m := fun m hmem => hblank (List.eq_of_mem_replicate hmem)
  have hword : c ∉ w := fun hmem => hkey (hw.subset hmem)
  have hnumber : c ∉ n := fun hmem => absurd ((h.digits c hmem).symm.trans hc) (by decide)
  rw [found, hfront]
  simp [hblanks, hword, hnumber]

/-- A number alone has no such letter. -/
theorem letter_missing {key n : Bytes} {c : UInt8} (hkey : c ∉ key ++ [equals]) (h : Number n)
    (hc : isdigit c.toNat = false)
    (hblank : c ≠ blank) (lead trail : Nat) : c ∉ found lead key n trail := by
  intro hmem
  rw [← List.append_nil n] at hmem
  exact absurd ((letter_found hkey h hc hblank lead trail).mp hmem) List.not_mem_nil

theorem lrecl_odd : ∀ c ∈ literal "LRECL" ++ [equals], Odd c := by
  unfold Odd
  decide

theorem lrecl_letters : ebcdic 'X' ∉ literal "LRECL" ++ [equals] ∧ ebcdic 'K' ∉ literal "LRECL" ++ [equals] := by decide

theorem lrecl_fits {n : Bytes} (h : Number n) (hpos : 0 < number n) (hle : number n ≤ 32760) (lead trail : Nat) :
    lrecAsks (found lead (literal "LRECL") n trail) = some [⟨.lrecl, [low 2 (number n)]⟩] ↔ lead = 0 := by
  have hx := letter_missing lrecl_letters.1 h (by decide) (by decide) lead trail
  have hk := letter_missing lrecl_letters.2 h (by decide) (by decide) lead trail
  have hatoi := atoi_found_alone lrecl_odd h (by omega) lead trail
  rw [lrecAsks, lreclValue, if_neg hx, if_neg hk, hatoi]
  split_ifs with hlead
  · rw [min_eq_left (by omega)]
    exact iff_of_true rfl hlead
  · refine iff_of_false (fun heq => ?_) hlead
    have hzero : low 2 ((0 : Nat) : Int) = low 2 (number n) := by simpa using heq
    have := low_two (by decide) (by omega) hzero
    omega

theorem lreclK_fits {n : Bytes} (h : Number n) (hpos : 0 < number n) (hle : number n * 1024 ≤ 32760)
    (lead trail : Nat) :
    lrecAsks (found lead (literal "LRECL") (n ++ literal "K") trail) = some [⟨.lrecl, [low 2 (number n * 1024)]⟩] ↔
      lead = 0 := by
  have hx : ebcdic 'X' ∉ found lead (literal "LRECL") (n ++ literal "K") trail :=
    (letter_found lrecl_letters.1 h (by decide) (by decide) lead trail).not.mpr (by decide)
  have hk : ebcdic 'K' ∈ found lead (literal "LRECL") (n ++ literal "K") trail :=
    (letter_found lrecl_letters.2 h (by decide) (by decide) lead trail).mpr (by decide)
  have hbehind : ∀ c ∈ (literal "K").head?, ¬ isdigit c.toNat := by decide
  rw [lrecAsks, lreclValue, if_neg hx, if_pos hk, atoi_found lrecl_odd h (by omega) hbehind]
  split_ifs with hlead
  · have hmod : ((number n : Int) * 1024).bmod (2 ^ 32) = number n * 1024 := Int.bmod_eq_of_le (by omega) (by omega)
    rw [hmod, min_eq_left (by omega)]
    exact iff_of_true rfl hlead
  · refine iff_of_false (fun heq => ?_) hlead
    have hzero : low 2 ((0 : Nat) : Int) = low 2 ((number n * 1024 : Nat) : Int) := by simpa using heq
    have := low_two (by decide) (by omega) hzero
    omega

theorem lreclX_fits (lead trail : Nat) :
    lrecAsks (found lead (literal "LRECL") (literal "X") trail) = some [⟨.lrecl, [low 2 0x8000]⟩] := by
  have hx : ebcdic 'X' ∈ found lead (literal "LRECL") (literal "X") trail :=
    List.mem_append_right _ (List.mem_append_left _ (by decide))
  rw [lrecAsks, lreclValue, if_pos hx]

theorem blksize_fits {n : Bytes} (h : Number n) (hpos : 0 < number n) (hle : number n ≤ 32760) (lead trail : Nat) :
    bkszAsks (found lead (literal "BLKSIZE") n trail) = some [⟨.blksz, [low 2 (number n)]⟩] ↔ lead = 0 := by
  have hodd : ∀ c ∈ literal "BLKSIZE" ++ [equals], Odd c := by
    unfold Odd
    decide
  have hatoi := atoi_found_alone hodd h (by omega) lead trail
  rw [bkszAsks, hatoi]
  split_ifs with hlead hless hless
  · rw [min_eq_left (by omega)]
    exact iff_of_true rfl hlead
  · omega
  · exact absurd hless (by omega)
  · exact iff_of_false (fun heq => by cases heq) hlead

/-! ### The lists found -/

theorem status_found (status : Status) {w : Bytes} (hw : w <:+ literal "DISP" ++ [equals]) :
    statusAsks (some (w ++ status.text)) = some [⟨.stats, [[status.code]]⟩] := by
  have hall : ∀ w ∈ (literal "DISP" ++ [equals]).tails, ∀ status ∈ [Status.new, .old, .mod, .shr],
      statusAsks (some (w ++ status.text)) = some [⟨.stats, [[status.code]]⟩] := by decide
  exact hall w ((List.mem_tails _ _).mpr hw) status (by cases status <;> simp)

theorem disposition_found (dal : Dal) (d : Disposition) : dispositionAsks dal d.text = some [⟨dal, [[d.code]]⟩] := by
  cases d <;> rfl

theorem tok_text {f w rest : Bytes} (hf : ∀ c ∈ f, c = blank) (hw : w ≠ []) (hplain : ∀ c ∈ w, c ∉ separators)
    (hrest : ∀ c ∈ rest.head?, c ∈ separators) : tok separators (some (f ++ (w ++ rest))) = (some w, behind rest) :=
  tok_word (fun c hc => hf c hc ▸ List.mem_cons_self) hw hplain hrest

theorem blanks_separators (n : Nat) : ∀ c ∈ blanks n, c ∈ separators := by
  intro c hc
  rw [List.eq_of_mem_replicate hc]
  exact List.mem_cons_self

theorem Word.separators {w : Bytes} (h : Word w) : ∀ c ∈ w, c ∉ Dynalloc.separators := by
  intro c hc hmem
  have hmarks : ∀ c ∈ Dynalloc.separators, c ∈ marks := by decide
  exact h.plain c hc (hmarks c hmem)

/-- The end of a keyword and a word behind it hold no blank and no comma. -/
theorem front_separators {key w v : Bytes} (hkey : Word key) (hw : w <:+ key ++ [equals]) (hv : Word v) :
    ∀ c ∈ w ++ v, c ∉ separators := by
  intro c hc
  rcases List.mem_append.mp hc with hc | hc
  · rcases List.mem_append.mp (hw.subset hc) with hc | hc
    · exact hkey.separators c hc
    · rw [List.mem_singleton.mp hc]
      decide
  · exact hv.separators c hc

theorem disp_fits (status : Status) (more : Option (Disposition × Option Disposition)) (lead trail : Nat) :
    dispAsks (found lead (literal "DISP") (commas (dispWords status more)) trail) =
      some (⟨.stats, [[status.code]]⟩ :: moreDisp more) := by
  obtain ⟨k, w, hw, hfront, -, -⟩ := front_word lead (literal "DISP")
  have hkey : Word (literal "DISP") := by decide
  have hne : w ++ status.text ≠ [] := List.append_ne_nil_of_right_ne_nil _ status.word.some
  have hplain := front_separators hkey hw status.word
  have hblanks : ∀ c ∈ blanks k, c = blank := fun c hc => List.eq_of_mem_replicate hc
  have hnil : ∀ c ∈ ([] : Bytes), c = blank := fun c hc => absurd hc List.not_mem_nil
  have htrail : ∀ c ∈ (blanks trail).head?, c ∈ separators :=
      fun c hc => blanks_separators trail c (List.mem_of_mem_head? hc)
  have hcomma : ∀ x : Bytes, ∀ c ∈ (comma :: x).head?, c ∈ separators := by
    rintro x c ⟨⟩
    decide
  rw [found, hfront, List.append_assoc]
  rcases more with - | ⟨n, - | a⟩
  · have hfirst : tok separators (some (blanks k ++ (w ++ status.text ++ blanks trail))) =
        (some (w ++ status.text), behind (blanks trail)) := tok_text hblanks hne hplain htrail
    have htext : w ++ (commas (dispWords status none) ++ blanks trail) = w ++ status.text ++ blanks trail := by
      rw [dispWords, both, List.map_nil, commas_one, List.append_assoc]
    rw [dispAsks, htext, hfirst]
    dsimp only
    rw [tok_behind (blanks_separators trail)]
    dsimp only
    rw [status_found status hw]
    rfl
  · have hfirst : tok separators (some (blanks k ++ (w ++ status.text ++ comma :: (n.text ++ blanks trail)))) =
        (some (w ++ status.text), some (n.text ++ blanks trail)) := tok_text hblanks hne hplain (hcomma _)
    have hsecond : tok separators (some (n.text ++ blanks trail)) = (some n.text, behind (blanks trail)) :=
      tok_text hnil n.word.some n.word.separators htrail
    have htext : w ++ (commas (dispWords status (some (n, none))) ++ blanks trail) =
        w ++ status.text ++ comma :: (n.text ++ blanks trail) := by
      simp [dispWords, both, commas, List.intercalate_cons_cons]
    rw [dispAsks, htext, hfirst]
    dsimp only
    rw [hsecond]
    dsimp only
    rw [tok_behind (blanks_separators trail), status_found status hw]
    dsimp only [asked]
    rw [disposition_found]
    rfl
  · have hfirst : tok separators (some (blanks k ++ (w ++ status.text ++ comma ::
        (n.text ++ comma :: (a.text ++ blanks trail))))) =
        (some (w ++ status.text), some (n.text ++ comma :: (a.text ++ blanks trail))) :=
        tok_text hblanks hne hplain (hcomma _)
    have hsecond : tok separators (some (n.text ++ comma :: (a.text ++ blanks trail))) =
        (some n.text, some (a.text ++ blanks trail)) := tok_text hnil n.word.some n.word.separators (hcomma _)
    have hthird : tok separators (some (a.text ++ blanks trail)) = (some a.text, behind (blanks trail)) :=
      tok_text hnil a.word.some a.word.separators htrail
    have htext : w ++ (commas (dispWords status (some (n, some a))) ++ blanks trail) =
        w ++ status.text ++ comma :: (n.text ++ comma :: (a.text ++ blanks trail)) := by
      simp [dispWords, both, commas, List.intercalate_cons_cons]
    rw [dispAsks, htext, hfirst]
    dsimp only
    rw [hsecond]
    dsimp only
    rw [hthird, status_found status hw]
    dsimp only [asked]
    rw [disposition_found, disposition_found]
    rfl

theorem volser_fits {vols : List Bytes} (hne : vols ≠ []) (hwords : ∀ v ∈ vols, Word v) (lead trail : Nat) :
    volsAsks (volumes (found lead (literal "VOLSER") (commas vols) trail)) = some [⟨.vlser, vols⟩] ↔ lead = 0 := by
  obtain ⟨k, w, hw, hfront, hzero, -⟩ := front_word lead (literal "VOLSER")
  have hkey : Word (literal "VOLSER") := by decide
  obtain ⟨v, vols, rfl⟩ := List.exists_cons_of_ne_nil hne
  have hv := hwords v List.mem_cons_self
  have hrest : ∀ u ∈ vols, Word u := fun u hu => hwords u (List.mem_cons_of_mem _ hu)
  have hcommas : w ++ commas (v :: vols) = [comma].intercalate ((w ++ v) :: vols) := by
    cases vols with
    | nil => rw [commas, List.intercalate_singleton, List.intercalate_singleton]
    | cons u vols =>
      rw [commas, List.intercalate_cons_cons, List.intercalate_cons_cons]
      simp only [List.append_assoc]
  have hsome : ∀ u ∈ (w ++ v) :: vols, u ≠ [] := by
    intro u hu
    rcases List.mem_cons.mp hu with rfl | hu
    · exact List.append_ne_nil_of_right_ne_nil _ hv.some
    · exact (hrest u hu).some
  have hplain : ∀ u ∈ (w ++ v) :: vols, ∀ c ∈ u, c ∉ separators := by
    intro u hu
    rcases List.mem_cons.mp hu with rfl | hu
    · exact front_separators hkey hw hv
    · exact (hrest u hu).separators
  have htext : found lead (literal "VOLSER") (commas (v :: vols)) trail =
      blanks k ++ ([comma].intercalate ((w ++ v) :: vols) ++ blanks trail) := by
    rw [found, hfront, List.append_assoc, ← List.append_assoc w, hcommas]
  have hlength := length_lt_intercalate comma hsome
  have hvolumes : volumes (found lead (literal "VOLSER") (commas (v :: vols)) trail) = (w ++ v) :: vols := by
    rw [volumes, htext]
    refine tokens_intercalate (by decide) hsome hplain (blanks_separators k) (blanks_separators trail) ?_
    rw [List.length_append, List.length_append]
    omega
  rw [hvolumes, volsAsks, if_neg (List.cons_ne_nil _ _), ← hzero]
  constructor
  · intro heq
    have hsame : w ++ v = v := by simpa using heq
    simpa using hsame
  · rintro rfl
    rfl

/-! ### The space found -/

theorem quantity_number {n rest : Bytes} (h : Quantity n) (hrest : ∀ c ∈ rest.head?, ¬ isdigit c.toNat) :
    quantity (some (n ++ rest)) = number n := by
  have hlt := h.fits
  exact atoi_number h.toNumber (by omega) hrest

theorem quantity_alone {n : Bytes} (h : Quantity n) : quantity (some n) = number n := by
  have hnumber := quantity_number h (show ∀ c ∈ ([] : Bytes).head?, ¬ isdigit c.toNat from fun c hc => by cases hc)
  rwa [List.append_nil] at hnumber

theorem blanks_behind (trail : Nat) : ∀ c ∈ (blanks trail).head?, ¬ isdigit c.toNat := by
  intro c hc
  rw [List.eq_of_mem_replicate (List.mem_of_mem_head? hc)]
  decide

theorem quantity_blanks (n : Nat) : quantity (some (blanks n)) = 0 := by
  have hatoi := atoi_odd n (x := []) fun c hc => by cases hc
  rw [List.append_nil] at hatoi
  exact hatoi

/-- Blanks behind the primary quantity are no secondary quantity. -/
theorem tok_comma_blanks (n : Nat) :
    quantity (tok [comma] (behind (blanks n))).1 = 0 ∧ (tok [comma] (behind (blanks n))).2 = none := by
  have hnot : ∀ m, ∀ c ∈ blanks m, c ∉ [comma] := by
    intro m c hc
    rw [List.eq_of_mem_replicate hc]
    decide
  rcases n with - | - | n
  · exact ⟨rfl, rfl⟩
  · exact ⟨rfl, rfl⟩
  · have htok : tok [comma] (behind (blanks (n + 2))) = (some (blanks (n + 1)), none) :=
      tok_alone (List.cons_ne_nil _ _) (hnot (n + 1))
    rw [htok]
    exact ⟨quantity_blanks _, rfl⟩

theorem spac_found {p : Bytes} {more : Option (Bytes × Option Bytes)} (hp : Quantity p)
    (hmore : ∀ n ∈ both more, Quantity n)
    (trail : Nat) : spacAsks (commas (p :: both more) ++ blanks trail) =
    some (⟨.prime, [low 3 (number p)]⟩ :: moreAsks more) := by
  have hnil : ∀ {s2 : Bytes}, ∀ c ∈ ([] : Bytes), c ∈ s2 := fun c hc => absurd hc List.not_mem_nil
  have hsep : ∀ {x : Bytes}, ∀ c ∈ (comma :: x).head?, ¬ isdigit c.toNat := by
    rintro x c ⟨⟩
    decide
  have hcomma : ∀ {x s2 : Bytes}, comma ∈ s2 → ∀ c ∈ (comma :: x).head?, c ∈ s2 := by
    rintro x s2 hmem c ⟨⟩
    exact hmem
  have hword := hp.toNumber.word
  have hone : ∀ {n : Bytes}, Quantity n → ∀ c ∈ n ++ blanks trail, c ∉ [comma] := by
    intro n hn c hc hmem
    rcases List.mem_append.mp hc with hc | hc
    · exact hn.toNumber.word.free (c := comma) (by decide) (List.mem_singleton.mp hmem ▸ hc)
    · rw [List.eq_of_mem_replicate hc] at hmem
      exact absurd hmem (by decide)
  have hend : ∀ {n : Bytes}, Quantity n → n ++ blanks trail ≠ [] :=
      fun hn => List.append_ne_nil_of_left_ne_nil hn.some _
  have hlength : (commas (p :: both more) ++ blanks trail).length ≠ 0 :=
    (List.length_pos_of_ne_nil (List.append_ne_nil_of_left_ne_nil (commas_ne_nil hword _) _)).ne'
  rw [spacAsks, if_neg hlength]
  rcases more with - | ⟨s, - | d⟩
  · have hfirst : tok separators (some (commas [p] ++ blanks trail)) = (some p, behind (blanks trail)) := by
      rw [commas_one]
      exact tok_word (f := []) hnil hword.some hword.separators
        fun c hc => blanks_separators trail c (List.mem_of_mem_head? hc)
    obtain ⟨hsecond, hnone⟩ := tok_comma_blanks trail
    have hq : quantities (commas [p] ++ blanks trail) = ((number p : Int), 0, 0) := by
      rw [quantities, hfirst]
      dsimp only
      rw [quantity_alone hp, hsecond, hnone]
      rfl
    rw [both, hq]
    rfl
  · have hs : Quantity s := hmore s (by simp [both])
    have htext : commas [p, s] ++ blanks trail = p ++ comma :: (s ++ blanks trail) := by
      simp [commas, List.intercalate_cons_cons]
    have hfirst : tok separators (some (p ++ comma :: (s ++ blanks trail))) = (some p, some (s ++ blanks trail)) :=
      tok_word (f := []) hnil hword.some hword.separators (hcomma (by decide))
    have hsecond : tok [comma] (some (s ++ blanks trail)) = (some (s ++ blanks trail), none) :=
      tok_alone (hend hs) (hone hs)
    have hq : quantities (commas [p, s] ++ blanks trail) = ((number p : Int), (number s : Int), 0) := by
      rw [quantities, htext, hfirst]
      dsimp only
      rw [hsecond]
      dsimp only
      rw [quantity_alone hp, quantity_number hs (blanks_behind trail)]
      rfl
    rw [both, hq]
    rfl
  · have hs : Quantity s := hmore s (by simp [both])
    have hd : Quantity d := hmore d (by simp [both])
    have htext : commas [p, s, d] ++ blanks trail = p ++ comma :: (s ++ comma :: (d ++ blanks trail)) := by
      simp [commas, List.intercalate_cons_cons]
    have hfirst : tok separators (some (p ++ comma :: (s ++ comma :: (d ++ blanks trail)))) =
        (some p, some (s ++ comma :: (d ++ blanks trail))) :=
      tok_word (f := []) hnil hword.some hword.separators (hcomma (by decide))
    have hsecond : tok [comma] (some (s ++ comma :: (d ++ blanks trail))) = (some s, some (d ++ blanks trail)) := by
      refine tok_word (f := []) hnil hs.some (fun c hc hmem => ?_) (hcomma (by decide))
      exact hs.toNumber.word.free (c := comma) (by decide) (List.mem_singleton.mp hmem ▸ hc)
    have hthird : tok ([] : Bytes) (some (d ++ blanks trail)) = (some (d ++ blanks trail), none) :=
      tok_alone (hend hd) fun c _ => List.not_mem_nil
    have hq : quantities (commas [p, s, d] ++ blanks trail) = ((number p : Int), (number s : Int),
        (number d : Int)) := by
      rw [quantities, htext, hfirst]
      dsimp only
      rw [hsecond]
      dsimp only
      rw [hthird, quantity_alone hp, quantity_alone hs, quantity_number hd (blanks_behind trail)]
    rw [both, hq]
    by_cases hzero : number d = 0
    · simp [moreAsks, hzero]
    · simp [moreAsks, hzero]

/-- Three quantities are not cut, only blanks behind them. -/
theorem take_quantities {p : Bytes} {more : Option (Bytes × Option Bytes)} (hp : Quantity p)
    (hmore : ∀ n ∈ both more, Quantity n) (trail : Nat) :
    ∃ m, (commas (p :: both more) ++ blanks trail).take 31 = commas (p :: both more) ++ blanks m := by
  have hlength : (commas (p :: both more)).length ≤ 31 := by
    have hp' := hp.short
    rcases more with - | ⟨s, - | d⟩
    · rw [both, commas_one]
      omega
    · have hs := (hmore s (by simp [both])).short
      simp only [both, commas, List.intercalate_cons_cons, List.intercalate_singleton, List.length_append,
        List.length_singleton]
      omega
    · have hs := (hmore s (by simp [both])).short
      have hd := (hmore d (by simp [both])).short
      simp only [both, commas, List.intercalate_cons_cons, List.intercalate_singleton, List.length_append,
        List.length_singleton]
      omega
  refine ⟨min (31 - (commas (p :: both more)).length) trail, ?_⟩
  rw [List.take_append, List.take_of_length_le hlength, blanks, List.take_replicate, blanks]

/-- The quantities, up to a `)` or blanks. -/
theorem spaceQty_found {space x y : Bytes} {p : Bytes} {more : Option (Bytes × Option Bytes)} (hp : Quantity p)
    (hmore : ∀ n ∈ both more, Quantity n) {front : Bytes} {m : UInt8} (hm : m ∈ [equals, comma])
    (hfront : ∀ c ∈ front, c ∉ [equals, comma]) (hx : ∀ c ∈ x, isdigit c.toNat = false)
    (htext : space = front ++ m :: (x ++ (commas (p :: both more) ++ y)))
    (hy : ∃ n, y = blanks n ∨ y = rparen :: blanks n) :
    spaceUnit space = front ∧ ∃ n, spaceQty space = some (commas (p :: both more) ++ blanks n) := by
  have hpass : ∀ c ∈ front, decide (c ∉ [equals, comma]) = true := fun c hc => decide_eq_true (hfront c hc)
  have hmark : ¬ decide (m ∉ [equals, comma]) = true := by
    rw [decide_eq_true_eq]
    exact not_not.mpr hm
  have hstop : ∀ z, (m :: z).takeWhile (· ∉ [equals, comma]) = [] ∧ (m :: z).dropWhile (· ∉ [equals, comma]) = m :: z :=
    fun z => ⟨List.takeWhile_cons_of_neg hmark, List.dropWhile_cons_of_neg hmark⟩
  have hwords := quantities_word hp hmore
  have hfree : rparen ∉ commas (p :: both more) := commas_free hwords (by decide) (by decide)
  have hdigits : ((x ++ (commas (p :: both more) ++ y)).dropWhile fun c => !isdigit c.toNat) =
      commas (p :: both more) ++ y := by
    rw [List.dropWhile_append_of_pos fun c hc => by rw [hx c hc]; rfl]
    obtain ⟨z, hz⟩ := commas_cons p (both more)
    obtain ⟨c, p', hcons⟩ := List.exists_cons_of_ne_nil hp.some
    have hc : isdigit c.toNat = true := hp.digits c (by rw [hcons]; exact List.mem_cons_self)
    rw [hz, hcons, List.cons_append, List.cons_append,
      List.dropWhile_cons_of_neg (by rw [hc]; exact Bool.false_ne_true)]
  refine ⟨?_, ?_⟩
  · rw [spaceUnit, htext, List.takeWhile_append_of_pos hpass, (hstop _).1, List.append_nil]
  · have hqty : spaceQty space = some ((commas (p :: both more) ++ y).takeWhile (· ≠ rparen)) := by
      rw [spaceQty, htext, List.dropWhile_append_of_pos hpass, (hstop _).2]
      dsimp only
      rw [hdigits]
    obtain ⟨n, rfl | rfl⟩ := hy
    · refine ⟨n, ?_⟩
      rw [hqty, List.takeWhile_eq_self_iff.mpr]
      intro c hc
      refine decide_eq_true fun heq => ?_
      rcases List.mem_append.mp (heq ▸ hc) with hmem | hmem
      · exact hfree hmem
      · exact absurd (List.eq_of_mem_replicate hmem) (by decide)
    · refine ⟨0, ?_⟩
      rw [hqty, takeWhile_upto hfree, blanks, List.replicate_zero, List.append_nil]

theorem unit_asks {u : SpaceUnit} (h : ∀ n, u = .blklen n → Quantity n ∧ 0 < number n) :
    unitOfSpaceAsks (u.text.take 11) = some [u.asks] := by
  cases u with
  | trk => decide
  | cyl => decide
  | blklen n =>
    obtain ⟨hn, hpos⟩ := h n rfl
    have hshort := hn.short
    have hatoi : atoi n = number n := quantity_alone hn
    have hdigit : ∀ s, (∃ c ∈ literal s, isdigit c.toNat = false) → n ≠ literal s := by
      rintro s ⟨c, hc, hno⟩ rfl
      exact absurd ((hn.digits c hc).symm.trans hno) (by decide)
    show unitOfSpaceAsks (n.take 11) = _
    rw [List.take_of_length_le (by omega), unitOfSpaceAsks, if_neg (hdigit _ ⟨ebcdic 'C', by decide, by decide⟩),
      if_neg (hdigit _ ⟨ebcdic 'T', by decide, by decide⟩), hatoi, if_pos (by omega)]
    rfl

/-- Behind blanks in front of the keyword there is no unit. -/
theorem unit_lost {lead : Nat} (hlead : lead ≠ 0) (v : Bytes) :
    unitOfSpaceAsks ((spaceUnit (front lead (literal "SPACE") ++ v)).take 11) = none := by
  obtain ⟨k, w, hw, hfront, hzero, hwhole⟩ := front_word lead (literal "SPACE")
  obtain ⟨y, hy, rfl⟩ := suffix_mark hw fun hnil => hlead (hzero.mp hnil)
  have hpass : ∀ c ∈ blanks k ++ y, decide (c ∉ [equals, comma]) = true := by
    intro c hc
    have hall : ∀ c ∈ literal "SPACE", decide (c ∉ [equals, comma]) = true := by decide
    rcases List.mem_append.mp hc with hc | hc
    · rw [List.eq_of_mem_replicate hc]
      decide
    · exact hall c (hy.subset hc)
  have hunit : spaceUnit (front lead (literal "SPACE") ++ v) = blanks k ++ y := by
    have htext : front lead (literal "SPACE") ++ v = blanks k ++ y ++ equals :: v := by
      rw [hfront]
      simp only [List.append_assoc, List.singleton_append]
    rw [spaceUnit, htext, List.takeWhile_append_of_pos hpass, List.takeWhile_cons_of_neg (by decide), List.append_nil]
  rw [hunit]
  cases k with
  | zero =>
    have hall : ∀ y ∈ (literal "SPACE").tails, unitOfSpaceAsks (y.take 11) = none := by decide
    exact hall y ((List.mem_tails _ _).mpr hy)
  | succ k =>
    have hlong : (blanks (k + 1) ++ y).take 11 = blanks (min 11 (k + 1)) ++ y.take (11 - (k + 1)) := by
      rw [List.take_append, blanks, List.take_replicate, List.length_replicate, blanks]
    have hodd : ∀ c ∈ (y.take (11 - (k + 1))).head?, Odd c := by
      intro c hc
      have hall : ∀ c ∈ literal "SPACE", Odd c := by
        unfold Odd
        decide
      exact hall c (hy.subset (List.mem_of_mem_take (List.mem_of_mem_head? hc)))
    have hhead : ∀ s, (literal s).head? ≠ some blank →
        blanks (min 11 (k + 1)) ++ y.take (11 - (k + 1)) ≠ literal s := by
      intro s hs heq
      refine hs ?_
      rw [← heq, Nat.min_def]
      split_ifs
      · rfl
      · rw [blanks, List.replicate_succ, List.cons_append, List.head?_cons]
    rw [hlong, unitOfSpaceAsks, if_neg (hhead _ (by decide)), if_neg (hhead _ (by decide)), atoi_odd _ hodd]
    exact if_neg (not_not.mpr rfl)

theorem space_fits {u : SpaceUnit} {p : Bytes} {more : Option (Bytes × Option Bytes)}
    (hu : ∀ n, u = .blklen n → Quantity n ∧ 0 < number n) (hp : Quantity p) (hmore : ∀ n ∈ both more, Quantity n)
    (jcl : Bool)
    (lead trail : Nat) :
    spaceAsks (some (11, 31)) (found lead (literal "SPACE") (Item.space u jcl p more).value trail) =
      some (u.asks :: ⟨.prime, [low 3 (number p)]⟩ :: moreAsks more) ↔ lead = 0 := by
  by_cases hlead : lead = 0
  · obtain rfl := hlead
    refine iff_of_true ?_ rfl
    have hword := spaceUnit_word hu
    have hplain : ∀ c ∈ u.text, c ∉ [equals, comma] := by
      intro c hc hmem
      have hmarks : ∀ c ∈ [equals, comma], c ∈ marks := by decide
      exact hword.plain c hc (hmarks c hmem)
    obtain ⟨hunit, n, hqty⟩ : spaceUnit (found 0 (literal "SPACE") (Item.space u jcl p more).value trail) = u.text ∧
        ∃ n, spaceQty (found 0 (literal "SPACE") (Item.space u jcl p more).value trail) =
          some (commas (p :: both more) ++ blanks n) := by
      rw [found, front_zero, List.nil_append]
      cases jcl with
      | false =>
        have htext : (Item.space u false p more).value ++ blanks trail =
            u.text ++ equals :: ([] ++ (commas (p :: both more) ++ blanks trail)) := by simp [Item.value]
        exact spaceQty_found hp hmore (by decide) hplain (fun c hc => absurd hc List.not_mem_nil) htext ⟨trail,
          .inl rfl⟩
      | true =>
        have htext : (Item.space u true p more).value ++ blanks trail =
            u.text ++ comma :: ([lparen] ++ (commas (p :: both more) ++ rparen :: blanks trail)) := by
          simp [Item.value, parens]
        have hopen : ∀ c ∈ [lparen], isdigit c.toNat = false := by decide
        exact spaceQty_found hp hmore (by decide) hplain hopen htext ⟨trail, .inr rfl⟩
    obtain ⟨m, htake⟩ := take_quantities hp hmore n
    rw [spaceAsks, hunit, hqty]
    dsimp only [asked]
    rw [unit_asks hu, htake, spac_found hp hmore]
    simp [together]
  · refine iff_of_false (fun heq => ?_) hlead
    obtain ⟨a, -, hunit, -⟩ := (together_cons _ _ _).mp heq
    have hlost := unit_lost hlead ((Item.space u jcl p more).value ++ blanks trail)
    exact absurd (hunit.symm.trans hlost) (Option.some_ne_none a)

/-! ### One keyword -/

/-- **A keyword asks for its text units exactly when the blanks around it fit.** -/
theorem slot_fits {s : Slot} (h : s.item.Valid) :
    asksOf (keyword .zero s.piece) s.item.keyword = some s.item.units ↔ s.item.Fits s.lead s.trail := by
  obtain ⟨lead, item, trail, byComma⟩ := s
  have hslot := @keyword_slot .zero ⟨lead, item, trail, byComma⟩ h
  cases item with
  | ddn long name =>
    rw [hslot (by simp [Item.keyword]) (by simp [Item.keyword])]
    exact ddn_fits h.1 lead trail _
  | dsn long name member =>
    have hkey : Word (Item.dsn long name member).name := Item.name_word _
    have hsome : ∀ v, v ≠ [] → nonempty (some v) = some v := by
      intro v hv
      rw [nonempty, Option.filter_some, if_pos (decide_eq_true hv)]
    have hfound := hsome _ (found_ne_nil (v := name ++ memberText member)
      (List.append_ne_nil_of_left_ne_nil h.1.some _) lead (Item.dsn long name member).name trail)
    rw [hslot (by simp [Item.keyword]) (by simp [Item.keyword])]
    show asked (nonempty (some (found lead _ (name ++ memberText member) trail))) dsnAsks = _ ↔ _
    rw [hfound]
    cases member with
    | none =>
      rw [memberText, List.append_nil]
      exact dsn_fits h.1 h.2.1 hkey lead trail
    | some m => exact member_fits h.1 (h.2.2 m rfl).1 hkey lead trail
  | disp status more =>
    rw [hslot (by simp [Item.keyword]) (by simp [Item.keyword])]
    exact iff_of_true (disp_fits status more lead trail) trivial
  | dcbdsn name =>
    rw [hslot (by simp [Item.keyword]) (by simp [Item.keyword])]
    exact dcbd_fits h.1 h.2 lead trail _
  | dsorg org =>
    rw [hslot (by simp [Item.keyword]) (by simp [Item.keyword])]
    exact org_fits h lead trail _
  | recfm fmt =>
    rw [hslot (by simp [Item.keyword]) (by simp [Item.keyword])]
    exact recfm_fits h.1 h.2 lead trail _
  | lrecl n =>
    rw [hslot (by simp [Item.keyword]) (by simp [Item.keyword])]
    exact lrecl_fits h.1 h.2.1 h.2.2 lead trail
  | lreclK n =>
    rw [hslot (by simp [Item.keyword]) (by simp [Item.keyword])]
    exact lreclK_fits h.1 h.2.1 h.2.2 lead trail
  | lreclX =>
    rw [hslot (by simp [Item.keyword]) (by simp [Item.keyword])]
    exact iff_of_true (lreclX_fits lead trail) trivial
  | blksize n =>
    rw [hslot (by simp [Item.keyword]) (by simp [Item.keyword])]
    exact blksize_fits h.1 h.2.1 h.2.2 lead trail
  | space u jcl p more =>
    rw [hslot (by simp [Item.keyword]) (by simp [Item.keyword])]
    exact space_fits h.1 h.2.1 h.2.2 jcl lead trail
  | unit name =>
    rw [hslot (by simp [Item.keyword]) (by simp [Item.keyword])]
    exact unit_fits h lead trail _
  | volser listed vols =>
    rw [hslot (by simp [Item.keyword]) (by simp [Item.keyword])]
    exact volser_fits h.1 h.2.2 lead trail
  | freeclose =>
    rw [keyword_freeclose]
    by_cases hexact : lead = 0 ∧ trail = 0
    · rw [if_pos hexact]
      exact iff_of_true rfl hexact
    · rw [if_neg hexact]
      exact iff_of_false (fun heq => by cases heq) hexact
  | mount => exact iff_of_true rfl trivial

/-! ### All keywords -/

/-- A keyword's field alone decides what the keyword asks for. -/
theorem asksOf_put_ne (d : Dsalc) (v : Bytes) {k k' : Keyword} (h : k' ≠ k) : asksOf (put d v k) k' = asksOf d k' := by
  cases k <;> cases k' <;> first | rfl | exact absurd rfl h

theorem asksOf_put (d d' : Dsalc) (v : Bytes) (k : Keyword) : asksOf (put d v k) k = asksOf (put d' v k) k := by
  cases k <;> rfl

/-- A piece leaves what other keywords ask for. -/
theorem asksOf_other (d : Dsalc) {s : Slot} (h : s.item.Valid) {k : Keyword} (hk : k ≠ s.item.keyword) :
    asksOf (keyword d s.piece) k = asksOf d k := by
  by_cases hfree : s.item.keyword = .freeclose
  · obtain ⟨lead, item, trail, byComma⟩ := s
    obtain rfl : item = .freeclose := by cases item <;> first | rfl | cases hfree
    rw [keyword_freeclose]
    split_ifs
    · exact asksOf_put_ne d [] (k := .freeclose) hk
    · rfl
  · by_cases hmount : s.item.keyword = .mount
    · obtain ⟨lead, item, trail, byComma⟩ := s
      obtain rfl : item = .mount := by cases item <;> first | rfl | cases hmount
      rw [keyword_mount]
      split_ifs
      · exact asksOf_put_ne d [] (k := .mount) hk
      · rfl
    · rw [keyword_slot d h hfree hmount, asksOf_put_ne d _ hk]

/-- What a piece asks for does not depend on the pieces in front of it. -/
theorem asksOf_own {d : Dsalc} {s : Slot} (h : s.item.Valid)
    (hd : asksOf d s.item.keyword = asksOf .zero s.item.keyword) :
    asksOf (keyword d s.piece) s.item.keyword = asksOf (keyword .zero s.piece) s.item.keyword := by
  by_cases hfree : s.item.keyword = .freeclose
  · obtain ⟨lead, item, trail, byComma⟩ := s
    obtain rfl : item = .freeclose := by cases item <;> first | rfl | cases hfree
    rw [keyword_freeclose, keyword_freeclose]
    split_ifs
    · rfl
    · exact hd
  · by_cases hmount : s.item.keyword = .mount
    · rw [hmount]
      rfl
    · rw [keyword_slot d h hfree hmount, keyword_slot .zero h hfree hmount, asksOf_put d .zero]

/-- Each keyword asks for what its own piece has, and a keyword that is not given for nothing more. -/
theorem asksOf_parse {slots : List Slot} (h : ∀ s ∈ slots, s.item.Valid)
    (hdistinct : (slots.map fun s => s.item.keyword).Nodup) (d : Dsalc)
    (hd : ∀ s ∈ slots, asksOf d s.item.keyword = asksOf .zero s.item.keyword) :
    (∀ s ∈ slots, asksOf ((slots.map Slot.piece).foldl keyword d) s.item.keyword =
        asksOf (keyword .zero s.piece) s.item.keyword) ∧
      ∀ k, (∀ s ∈ slots, s.item.keyword ≠ k) → asksOf ((slots.map Slot.piece).foldl keyword d) k = asksOf d k := by
  induction slots generalizing d with
  | nil => exact ⟨fun s hs => absurd hs List.not_mem_nil, fun _ _ => rfl⟩
  | cons s rest ih =>
    have hs := h s List.mem_cons_self
    obtain ⟨hfirst, hdistinct⟩ := List.nodup_cons.mp hdistinct
    have hother : ∀ t ∈ rest, t.item.keyword ≠ s.item.keyword := fun t ht heq =>
      hfirst (List.mem_map.mpr ⟨t, ht, heq⟩)
    obtain ⟨hgiven, hleft⟩ := ih (fun t ht => h t (List.mem_cons_of_mem _ ht)) hdistinct (keyword d s.piece) fun t ht =>
      (asksOf_other d hs (hother t ht)).trans (hd t (List.mem_cons_of_mem _ ht))
    rw [List.map_cons, List.foldl_cons]
    constructor
    · intro t ht
      rcases List.mem_cons.mp ht with rfl | ht
      · rw [hleft t.item.keyword hother, asksOf_own hs (hd t List.mem_cons_self)]
      · exact hgiven t ht
    · intro k hk
      rw [hleft k fun t ht => hk t (List.mem_cons_of_mem _ ht), asksOf_other d hs (hk s List.mem_cons_self).symm]

/-- The keyword a text unit is for. -/
def keywordOf : Dal → Keyword
  | .ddnam | .rtddn => .ddn
  | .dsnam | .membr => .dsn
  | .stats | .ndisp | .cdisp => .disp
  | .dcbds => .dcbdsn
  | .dsorg => .dsorg
  | .recfm => .recfm
  | .lrecl => .lrecl
  | .blksz => .blksize
  | .trk | .cyl | .blkln | .prime | .secnd | .dir => .space
  | .unit => .unit
  | .vlser => .volser
  | .close => .freeclose

/-- The text units of some items, one keyword after the other, whatever the order of the
items. -/
def unitsOf (items : List Item) (k : Keyword) : List TXT99 :=
  match items.find? fun i => i.keyword = k with
  | some i => i.units
  | none => if k = .ddn then [⟨.rtddn, [List.replicate 8 0]⟩] else []

def expected (items : List Item) : List TXT99 := order.flatMap (unitsOf items)

/-- Text units for one keyword. -/
def For (k : Keyword) (x : Option (List TXT99)) : Prop := ∀ l ∈ x, ∀ txt ∈ l, keywordOf txt.dal = k

theorem For.none (k : Keyword) : For k none := fun _ hl => absurd hl (Option.some_ne_none _).symm

theorem For.nothing (k : Keyword) : For k (some []) := by
  rintro l ⟨⟩ txt htxt
  exact absurd htxt List.not_mem_nil

theorem For.cons {k : Keyword} {txt : TXT99} (h : keywordOf txt.dal = k) {l : List TXT99} (hl : For k (some l)) :
    For k (some (txt :: l)) := by
  rintro _ ⟨⟩ t ht
  rcases List.mem_cons.mp ht with rfl | ht
  · exact h
  · exact hl l rfl t ht

theorem For.one {k : Keyword} {txt : TXT99} (h : keywordOf txt.dal = k) : For k (some [txt]) := .cons h (.nothing k)

theorem For.ite {k : Keyword} {P : Prop} [Decidable P] {x y : Option (List TXT99)} (hx : For k x) (hy : For k y) :
    For k (if P then x else y) := by
  split_ifs
  · exact hx
  · exact hy

theorem For.asked {k : Keyword} {asks : Bytes → Option (List TXT99)} (h : ∀ v, For k (asks v)) (value : Option Bytes) :
    For k (asked value asks) := by
  cases value with
  | none => exact .nothing k
  | some v => exact h v

theorem For.together {k : Keyword} {xs : List (Option (List TXT99))} (h : ∀ x ∈ xs, For k x) : For k (together xs) := by
  induction xs with
  | nil => exact .nothing k
  | cons x xs ih =>
    intro l hl txt htxt
    obtain ⟨a, b, ha, hb, rfl⟩ := (together_cons x xs l).mp hl
    rcases List.mem_append.mp htxt with hmem | hmem
    · exact h x List.mem_cons_self a ha txt hmem
    · exact ih (fun y hy => h y (List.mem_cons_of_mem _ hy)) b hb txt hmem

theorem dsn_for (dataset : Bytes) : For .dsn (dsnAsks dataset) := by
  unfold dsnAsks
  refine .ite (.none _) ?_
  split
  · exact .one rfl
  · exact .cons rfl (.one rfl)

theorem disp_for (disp : Bytes) : For .disp (dispAsks disp) := by
  have hstatus : ∀ p, For .disp (statusAsks p) := by
    intro p
    cases p with
    | none => exact .one rfl
    | some p => exact .ite (.one rfl) (.ite (.one rfl) (.ite (.one rfl) (.ite (.one rfl) (.none _))))
  have hdisp : ∀ dal, keywordOf dal = .disp → ∀ p, For .disp (dispositionAsks dal p) := fun dal hdal p =>
    .ite (.one hdal) (.ite (.one hdal) (.ite (.one hdal) (.ite (.one hdal) (.none _))))
  refine For.together fun x hx => ?_
  simp only [List.mem_cons, List.not_mem_nil, or_false] at hx
  rcases hx with rfl | rfl | rfl
  · exact hstatus _
  · exact For.asked (hdisp _ rfl) _
  · exact For.asked (hdisp _ rfl) _

theorem space_for (cut : Option (Nat × Nat)) (space : Bytes) : For .space (spaceAsks cut space) := by
  have hunit : ∀ u, For .space (unitOfSpaceAsks u) := fun u =>
    .ite (.one rfl) (.ite (.one rfl) (.ite (.one rfl) (.none _)))
  have hqty : ∀ qty, For .space (spacAsks qty) := by
    intro qty
    refine .ite (.none _) (.cons rfl (.cons rfl ?_))
    split_ifs
    · exact .one rfl
    · exact .nothing _
  refine For.together fun x hx => ?_
  simp only [List.mem_cons, List.not_mem_nil, or_false] at hx
  rcases hx with rfl | rfl
  · exact hunit _
  · exact For.asked (fun qty => hqty _) _

theorem asksOf_for (d : Dsalc) (k : Keyword) : For k (asksOf d k) := by
  cases k with
  | ddn =>
    refine .one ?_
    unfold ddnAsks
    split <;> rfl
  | dsn => exact For.asked dsn_for _
  | disp => exact For.asked disp_for _
  | dcbdsn =>
    have hdcbd : ∀ v, For .dcbdsn (dcbdAsks v) := fun v => .ite (.none _) (.one rfl)
    exact For.asked hdcbd _
  | dsorg =>
    refine For.asked (fun v => ?_) _
    intro l hl txt htxt
    obtain ⟨e, -, rfl⟩ := Option.map_eq_some_iff.mp hl
    rw [List.mem_singleton.mp htxt]
    rfl
  | recfm =>
    have hrecf : ∀ v, For .recfm (recfAsks v) := fun v => .ite (.none _) (.one rfl)
    exact For.asked hrecf _
  | lrecl =>
    have hlrec : ∀ v, For .lrecl (lrecAsks v) := fun v => .one rfl
    exact For.asked hlrec _
  | blksize =>
    have hbksz : ∀ v, For .blksize (bkszAsks v) := fun v => .ite (.one rfl) (.none _)
    exact For.asked hbksz _
  | space => exact For.asked (space_for _) _
  | unit =>
    have hunit : ∀ v, For .unit (unitAsks v) := fun v => .ite (.one rfl) (.none _)
    exact For.asked hunit _
  | volser =>
    have hvols : ∀ v, For .volser (volsAsks (volumes v)) := fun v => .ite (.none _) (.one rfl)
    exact For.asked hvols _
  | freeclose => exact .ite (.one rfl) (.nothing _)
  | mount => exact .nothing _

theorem units_for (i : Item) : For i.keyword (some i.units) := by
  cases i with
  | dsn long name member =>
    cases member with
    | none => exact .one rfl
    | some m => exact .cons rfl (.one rfl)
  | disp status more =>
    refine .cons rfl ?_
    rcases more with - | ⟨n, - | a⟩
    · exact .nothing _
    · exact .one rfl
    · exact .cons rfl (.one rfl)
  | dsorg org =>
    rintro l ⟨⟩ txt htxt
    obtain ⟨e, -, rfl⟩ := List.mem_map.mp htxt
    rfl
  | space u jcl p more =>
    have hunit : keywordOf u.asks.dal = .space := by cases u <;> rfl
    refine .cons hunit (.cons rfl ?_)
    rcases more with - | ⟨s, - | d⟩
    · exact .one rfl
    · exact .one rfl
    · refine .cons rfl ?_
      split_ifs
      · exact .nothing _
      · exact .one rfl
  | mount => exact .nothing _
  | _ => exact .one rfl

theorem unitsOf_for (items : List Item) (k : Keyword) : For k (some (unitsOf items k)) := by
  unfold unitsOf
  split
  · next i hfind =>
    have hkey : i.keyword = k := of_decide_eq_true (List.find?_some (p := fun i : Item => decide (i.keyword = k)) hfind)
    exact hkey ▸ units_for i
  · split_ifs with hk
    · exact .one hk.symm
    · exact .nothing k

/-- Text units of different keywords keep apart, so they are right together when each keyword's are. -/
theorem together_iff {f : Keyword → Option (List TXT99)} {g : Keyword → List TXT99} (hf : ∀ k, For k (f k))
    (hg : ∀ k, For k (some (g k))) {ks : List Keyword} (hks : ks.Nodup) :
    together (ks.map f) = some (ks.flatMap g) ↔ ∀ k ∈ ks, f k = some (g k) := by
  have hfrom : ∀ {ks : List Keyword} {b : List TXT99}, together (ks.map f) = some b → ∀ txt ∈ b,
      keywordOf txt.dal ∈ ks := by
    intro ks
    induction ks with
    | nil =>
      rintro b ⟨⟩ txt htxt
      exact absurd htxt List.not_mem_nil
    | cons k ks ih =>
      intro b hb txt htxt
      obtain ⟨a, c, ha, hc, rfl⟩ := (together_cons _ _ _).mp hb
      rcases List.mem_append.mp htxt with hmem | hmem
      · rw [hf k a ha txt hmem]
        exact List.mem_cons_self
      · exact List.mem_cons_of_mem _ (ih hc txt hmem)
  induction ks with
  | nil => exact iff_of_true rfl fun k hk => absurd hk List.not_mem_nil
  | cons k ks ih =>
    obtain ⟨hk, hks⟩ := List.nodup_cons.mp hks
    have hothers := ih hks
    rw [List.map_cons, together_cons, List.flatMap_cons, List.forall_mem_cons]
    constructor
    · rintro ⟨a, b, ha, hb, heq⟩
      -- what is for the first keyword stands in front
      have hown : ∀ {l : List TXT99}, For k (some l) → l.filter (fun txt => keywordOf txt.dal = k) = l := fun hl =>
        List.filter_eq_self.mpr fun txt htxt => decide_eq_true (hl _ rfl txt htxt)
      have hnone : ∀ {l : List TXT99}, (∀ txt ∈ l, keywordOf txt.dal ∈ ks) →
          l.filter (fun txt => keywordOf txt.dal = k) = [] := by
        intro l hl
        rw [List.filter_eq_nil_iff]
        intro txt htxt heq
        exact hk (of_decide_eq_true heq ▸ hl txt htxt)
      have hrest : ∀ txt ∈ ks.flatMap g, keywordOf txt.dal ∈ ks := by
        intro txt htxt
        obtain ⟨k', hk', hmem⟩ := List.mem_flatMap.mp htxt
        rw [hg k' _ rfl txt hmem]
        exact hk'
      have hfront := congrArg (List.filter fun txt => keywordOf txt.dal = k) heq
      rw [List.filter_append, List.filter_append, hown (ha ▸ hf k), hown (hg k), hnone (hfrom hb), hnone hrest,
        List.append_nil, List.append_nil] at hfront
      rw [hfront] at heq ha
      exact ⟨ha, hothers.mp (hb.trans (congrArg some (List.append_cancel_left heq)))⟩
    · rintro ⟨ha, hb⟩
      exact ⟨_, _, ha, hothers.mpr hb, rfl⟩

/-- With all storage granted, SVC 99 gets what the keywords found ask for. -/
theorem dsalc_granted (svc99 : RB99 → Int) (opts : Option Bytes) :
    (dsalc (fun _ => true) svc99 opts).issued.map RB99.txtptr = together (order.map (asksOf (parse opts))) := by
  have hplaced : ∀ vols, placed (fun _ => true) vols = volumes vols := by
    have hloop : ∀ (vols : List Bytes) (n : Nat) (tmp : VArray Bytes),
        (placeVolumes (fun _ => true) n tmp vols).list = tmp.list ++ vols := by
      intro vols
      induction vols with
      | nil => exact fun n tmp => (List.append_nil _).symm
      | cons p rest ih =>
        intro n tmp
        rw [placeVolumes, ih, (arrayadd_granted tmp p).2, List.append_assoc, List.singleton_append]
    exact fun vols => hloop _ 0 _
  have hholds : holds (fun _ => true) (parse opts) = together (order.map (asksOf (parse opts))) := by
    unfold holds
    simp only [hplaced]
    rfl
  rw [← hholds]
  rcases dsalc_cases (fun _ => true) svc99 opts with
    ⟨-, l, nomnt, store, hl, -, hout⟩ | ⟨hissues, err, store, hout, -, -⟩
  · rw [hout, hl]
    rfl
  · rw [hout]
    cases hl : holds (fun _ => true) (parse opts) with
    | none => rfl
    | some l => exact absurd ⟨rfl, l, hl, fun _ _ => rfl, fun _ _ => rfl⟩ hissues

theorem unitsOf_given {items : List Item} (h : (items.map Item.keyword).Nodup) {i : Item} (hi : i ∈ items) :
    unitsOf items i.keyword = i.units := by
  have hfind : items.find? (fun j => j.keyword = i.keyword) = some i := by
    induction items with
    | nil => exact absurd hi List.not_mem_nil
    | cons j items ih =>
      obtain ⟨hj, h⟩ := List.nodup_cons.mp h
      rcases List.mem_cons.mp hi with rfl | hi
      · exact List.find?_cons_of_pos (decide_eq_true rfl)
      · have hne : ¬ decide (j.keyword = i.keyword) = true := by
          rw [decide_eq_true_eq]
          exact fun heq => hj (List.mem_map.mpr ⟨i, hi, heq.symm⟩)
        exact (List.find?_cons_of_neg (p := fun j : Item => decide (j.keyword = i.keyword)) hne).trans (ih h hi)
  rw [unitsOf, hfind]

theorem unitsOf_missing {items : List Item} {k : Keyword} (h : ∀ i ∈ items, i.keyword ≠ k) :
    some (unitsOf items k) = asksOf .zero k := by
  have hfind : items.find? (fun i => i.keyword = k) = none := by
    rw [List.find?_eq_none]
    intro i hi heq
    exact h i hi (of_decide_eq_true heq)
  rw [unitsOf, hfind]
  cases k <;> rfl

/-- The text units expected do not depend on the order of the items. -/
theorem expected_perm {items items' : List Item} (h : items'.Perm items) (hdistinct : (items.map Item.keyword).Nodup) :
    expected items' = expected items := by
  have hdistinct' : (items'.map Item.keyword).Nodup := (h.map _).nodup_iff.mpr hdistinct
  unfold expected
  refine congrArg (List.flatMap · order) (funext fun k => ?_)
  by_cases hk : ∃ i ∈ items, i.keyword = k
  · obtain ⟨i, hi, rfl⟩ := hk
    rw [unitsOf_given hdistinct hi, unitsOf_given hdistinct' (h.mem_iff.mpr hi)]
  · have hmissing : ∀ i ∈ items, i.keyword ≠ k := fun i hi heq => hk ⟨i, hi, heq⟩
    have hmissing' : ∀ i ∈ items', i.keyword ≠ k := fun i hi => hmissing i (h.mem_iff.mp hi)
    exact Option.some.inj ((unitsOf_missing hmissing').trans (unitsOf_missing hmissing).symm)

/-- **The text units carry each keyword's whole value, whatever the order, when the blanks around
every keyword fit, and otherwise they do not.** -/
theorem values_whole_iff (svc99 : RB99 → Int) (slots : List Slot) (hvalid : ∀ s ∈ slots, s.item.Valid)
    (hdistinct : (slots.map fun s => s.item.keyword).Nodup) (opts : Bytes) (hopts : opts.map toupper = render slots) :
    ((dsalc (fun _ => true) svc99 (some opts)).issued.map RB99.txtptr = some (expected (slots.map Slot.item)) ↔
        ∀ s ∈ slots, s.item.Fits s.lead s.trail) ∧
      ∀ items, items.Perm (slots.map Slot.item) → expected items = expected (slots.map Slot.item) := by
  have hitems : ((slots.map Slot.item).map Item.keyword).Nodup := by
    rw [List.map_map]
    exact hdistinct
  refine ⟨?_, fun items hperm => expected_perm hperm hitems⟩
  obtain ⟨hgiven, hmissing⟩ := asksOf_parse hvalid hdistinct .zero fun s _ => rfl
  have hparse : parse (some opts) = (slots.map Slot.piece).foldl keyword .zero := by
    rw [parse, pieces_render hvalid hopts]
  rw [dsalc_granted, expected, together_iff (asksOf_for _) (unitsOf_for _) (by decide), hparse]
  have hslot : ∀ s ∈ slots, asksOf ((slots.map Slot.piece).foldl keyword .zero) s.item.keyword =
      some (unitsOf (slots.map Slot.item) s.item.keyword) ↔ s.item.Fits s.lead s.trail := by
    intro s hs
    rw [hgiven s hs, unitsOf_given hitems (List.mem_map_of_mem hs)]
    exact slot_fits (hvalid s hs)
  constructor
  · intro h s hs
    by_cases hmount : s.item.keyword = .mount
    · obtain ⟨lead, item, trail, byComma⟩ := s
      obtain rfl : item = .mount := by cases item <;> first | rfl | cases hmount
      trivial
    · have hmem : s.item.keyword ∈ order := by
        have hall : ∀ k : Keyword, k ≠ .mount → k ∈ order := by
          intro k hk
          cases k <;> first | decide | exact absurd rfl hk
        exact hall _ hmount
      exact (hslot s hs).mp (h _ hmem)
  · intro h k _
    by_cases hk : ∃ s ∈ slots, s.item.keyword = k
    · obtain ⟨s, hs, rfl⟩ := hk
      exact (hslot s hs).mpr (h s hs)
    · have hnone : ∀ s ∈ slots, s.item.keyword ≠ k := fun s hs heq => hk ⟨s, hs, heq⟩
      rw [hmissing k hnone]
      refine (unitsOf_missing fun i hi => ?_).symm
      obtain ⟨s, hs, rfl⟩ := List.mem_map.mp hi
      exact hnone s hs

/-- Small letters, and no blanks. -/
theorem values_whole_small :
    (dsalc (fun _ => true) (fun _ => 0) (some (literal "dsn=a.b(m);dd=sysut1"))).issued.map RB99.txtptr =
      some (expected [.dsn false (literal "A.B") (some (literal "M")), .ddn false (literal "SYSUT1")]) := by
  have hvalid : ∀ s ∈ [(⟨0, .dsn false (literal "A.B") (some (literal "M")), 0, false⟩ : Slot),
      ⟨0, .ddn false (literal "SYSUT1"), 0, false⟩], s.item.Valid := by
    intro s hs
    simp only [List.mem_cons, List.not_mem_nil, or_false] at hs
    rcases hs with rfl | rfl
    · refine ⟨by decide, by decide, ?_⟩
      rintro m ⟨⟩
      exact ⟨by decide, by decide⟩
    · exact ⟨by decide, by decide⟩
  refine (values_whole_iff (fun _ => 0) _ hvalid (by decide) (literal "dsn=a.b(m);dd=sysut1")
    (by decide +kernel)).1.mpr ?_
  intro s hs
  simp only [List.mem_cons, List.not_mem_nil, or_false] at hs
  rcases hs with rfl | rfl
  · exact ⟨rfl, by decide⟩
  · exact ⟨rfl, rfl⟩

/-- A blank behind a separator gives a data set the DD name `=SYSUT1`. -/
theorem blank_shifts_name :
    ¬ ∀ (svc99 : RB99 → Int) (slots : List Slot), (∀ s ∈ slots, s.item.Valid) →
      (slots.map fun s => s.item.keyword).Nodup → ∀ opts : Bytes, opts.map toupper = render slots →
      (dsalc (fun _ => true) svc99 (some opts)).issued.map RB99.txtptr = some (expected (slots.map Slot.item)) := by
  intro h
  have hvalid : ∀ s ∈ [(⟨0, .dsn false (literal "A.B") none, 0, true⟩ : Slot),
      ⟨1, .ddn false (literal "SYSUT1"), 0, false⟩],
      s.item.Valid := by
    intro s hs
    simp only [List.mem_cons, List.not_mem_nil, or_false] at hs
    rcases hs with rfl | rfl
    · exact ⟨by decide, by decide, fun m hm => by cases hm⟩
    · exact ⟨by decide, by decide⟩
  have hissued := h (fun _ => 0) _ hvalid (by decide) (literal "DSN=A.B, DD=SYSUT1") (by decide +kernel)
  have hfound : (dsalc (fun _ => true) (fun _ => 0) (some (literal "DSN=A.B, DD=SYSUT1"))).issued.map RB99.txtptr =
      some [⟨.ddnam, [literal "=SYSUT1"]⟩, ⟨.dsnam, [literal "A.B"]⟩] := by decide +kernel
  rw [hfound] at hissued
  exact absurd hissued (by decide +kernel)

end Libc370.Dynalloc
