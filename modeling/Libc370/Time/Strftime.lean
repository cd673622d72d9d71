import Libc370.Time.Timegm
import Libc370.Printf.Plain

/-! `strftime()` (`time/strftime.c`).

The format is gone through once. What a conversion stands for is either one of the names or
made up in a buffer of 26 bytes by a small formatter of its own; it is then copied, byte by
byte, as long as there is room for the NUL behind it. Pointers are offsets, from the start
of the string and of the format, and the model keeps what is stored in the string, which
bytes of the format are read and how much of the buffer each conversion fills. -/
namespace Libc370.Time

open Printf Loop

abbrev Bytes := List UInt8

/-- `aday[]`. -/
def aday : List Bytes := ["Sun", "Mon", "Tue", "Wed", "Thu", "Fri", "Sat"].map literal

/-- `day[]`. -/
def day : List Bytes :=
  ["Sunday", "Monday", "Tuesday", "Wednesday", "Thursday", "Friday", "Saturday"].map literal

/-- `amonth[]`. -/
def amonth : List Bytes :=
  ["Jan", "Feb", "Mar", "Apr", "May", "Jun", "Jul", "Aug", "Sep", "Oct", "Nov", "Dec"].map literal

/-- `month[]`. -/
def month : List Bytes :=
  ["January", "February", "March", "April", "May", "June", "July", "August", "September", "October", "November",
    "December"].map literal

/-- A name out of a table; there is none if the index is not one of the table's. -/
def name (table : List Bytes) (i : Int) : Option Bytes := if 0 ≤ i then table[i.toNat]? else none

/-! ### `strfmt()` -/

inductive Arg
  | str (s : Bytes)
  | int (v : Int)

/-- `ival %= pow[ilen--]; *str++ = (char)('0' + ival / pow[ilen]);` -/
def zeroFilled : Nat → Int → Bytes
  | 0, _ => []
  | ilen + 1, ival =>
    let ival := ival.tmod (10 ^ (ilen + 1))
    charByte (0xF0 + ival.tdiv (10 ^ ilen)) :: zeroFilled ilen ival

/-- `strfmt()`, up to the NUL it puts behind. -/
def strfmt : Bytes → List Arg → Bytes
  | [], _ => []
  | [c], _ => if c = ebcdic '%' then [] else [c]
  | c :: d :: fmt, args =>
    if c = ebcdic '%' then
      let ilen := d.toNat - 0xF0
      match args with
      | [] => strfmt fmt []
      | .str s :: args => if ilen = 0 then s ++ strfmt fmt args else strfmt fmt args
      | .int v :: args => if ilen = 0 then strfmt fmt args else zeroFilled ilen v ++ strfmt fmt args
    else c :: strfmt (d :: fmt) args

/-! ### `strftime()` -/

/-- What a conversion stands for, and the bytes of the buffer that are filled for it. -/
structure Converted where
  text : Bytes
  used : Nat

/-- `r` is set to a string. -/
def pointed (text : Bytes) : Converted := ⟨text, 0⟩

/-- `strfmt(r, fmt, ...)`. -/
def formatted (fmt : String) (args : List Arg) : Converted :=
  let text := strfmt (literal fmt) args
  ⟨text, text.length + 1⟩

/-- The `switch` of `strftime()`, at the character `c`. -/
def conversion (t : Tm) (c : UInt8) : Option Converted :=
  if c = ebcdic '%' then pointed (literal "%")
  else if c = ebcdic 'a' then (name aday t.wday).map pointed
  else if c = ebcdic 'A' then (name day t.wday).map pointed
  else if c = ebcdic 'b' then (name amonth t.mon).map pointed
  else if c = ebcdic 'B' then (name month t.mon).map pointed
  else if c = ebcdic 'c' then do
    let wday ← name aday t.wday
    let mon ← name amonth t.mon
    return formatted "%0 %0 %2 %2:%2:%2 %4"
      [.str wday, .str mon, .int t.mday, .int t.hour, .int t.min, .int t.sec, .int (i32 (t.year + 1900))]
  else if c = ebcdic 'd' then formatted "%2" [.int t.mday]
  else if c = ebcdic 'H' then formatted "%2" [.int t.hour]
  else if c = ebcdic 'I' then
    formatted "%2" [.int (if t.hour.tmod 12 ≠ 0 then t.hour.tmod 12 else 12)]
  else if c = ebcdic 'j' then formatted "%3" [.int (t.yday + 1)]
  else if c = ebcdic 'm' then formatted "%2" [.int (t.mon + 1)]
  else if c = ebcdic 'M' then formatted "%2" [.int t.min]
  else if c = ebcdic 'p' then pointed (if 11 < t.hour then literal "PM" else literal "AM")
  else if c = ebcdic 'S' then formatted "%2" [.int t.sec]
  else if c = ebcdic 'U' then formatted "%2" [.int ((t.yday + 7 - t.wday).tdiv 7)]
  else if c = ebcdic 'W' then formatted "%2" [.int ((t.yday + 7 - (t.wday + 6).tmod 7).tdiv 7)]
  else if c = ebcdic 'w' then formatted "%1" [.int t.wday]
  else if c = ebcdic 'x' then
    formatted "%2/%2/%2" [.int (t.mon + 1), .int t.mday, .int (t.year.tmod 100)]
  else if c = ebcdic 'X' then formatted "%2:%2:%2" [.int t.hour, .int t.min, .int t.sec]
  else if c = ebcdic 'y' then formatted "%2" [.int (t.year.tmod 100)]
  else if c = ebcdic 'Y' then formatted "%4" [.int (i32 (t.year + 1900))]
  -- no zone has a name
  else if c = ebcdic 'Z' then pointed []
  -- the format as it is; a NUL behind the % ends the string
  else some ⟨ebcdic '%' :: if c = 0 then [] else [c], 3⟩

/-- The string as it is written: the offset of the next byte, and what is stored so far. -/
structure Str where
  p : Nat
  writes : List (Int × UInt8)

/-- `*p++ = c`. -/
def Str.put (s : Str) (c : UInt8) : Str := ⟨s.p + 1, s.writes ++ [((s.p : Int), c)]⟩

/-- `while (*r)`: the bytes are copied, or there is no room for one of them. -/
def Str.copy (q : Nat) : Bytes → Str → Str × Bool
  | [], s => (s, true)
  | c :: r, s => if c = 0 then (s, true) else if s.p = q then (s, false) else copy q r (s.put c)

/-- What a call does: its answer, what it stores in the string, the bytes of the format it
reads, the bytes of the buffer it fills for each conversion. -/
structure Result where
  answer : Nat
  writes : List (Int × UInt8)
  reads : List Nat
  used : List Nat

structure Formatting where
  f : Nat
  str : Str
  reads : List Nat
  used : List Nat

/-- `*q = '\0'; return 0;` -/
def Formatting.full (x : Formatting) (q : Nat) : Result := ⟨0, x.str.writes ++ [((q : Int), 0)], x.reads, x.used⟩

/-- One turn of the loop over the format. -/
def strftimeTurn (q : Nat) (format : Bytes) (t : Tm) (x : Formatting) : Turn Formatting (Option Result) :=
  let c := format.getD x.f 0
  if c ≠ 0 then
    if c = ebcdic '%' then
      let d := format.getD (x.f + 1) 0
      let reads := x.reads ++ [x.f, x.f + 1]
      match conversion t d with
      | none => .leave none
      | some r =>
        -- `f` is backed up at the end of the format
        let f := if d = 0 then x.f + 1 else x.f + 2
        let (str, room) := x.str.copy q r.text
        let x : Formatting := ⟨f, str, reads, x.used ++ [r.used]⟩
        if room then .again x else .leave (some (x.full q))
    else
      let x := { x with reads := x.reads ++ [x.f] }
      if x.str.p = q then .leave (some (x.full q)) else .again { x with f := x.f + 1, str := x.str.put c }
  else .leave (some ⟨x.str.p, x.str.writes ++ [((x.str.p : Int), 0)], x.reads ++ [x.f], x.used⟩)

/-- `strftime()`. It is `none` when a name is looked up that is not there. -/
def strftime (maxs : Nat) (format : Bytes) (t : Tm) : Option Result :=
  if maxs = 0 then some ⟨0, [], [], []⟩
  else Loop.run (fun _ => none) (strftimeTurn (maxs - 1) format t) (format.length + 1) ⟨0, ⟨0, []⟩, [], []⟩

/-! ### The conversions -/

/-- The fields are those the calendar has; a year is any `int`. -/
structure Tm.InRange (t : Tm) : Prop where
  sec : 0 ≤ t.sec ∧ t.sec ≤ 60
  min : 0 ≤ t.min ∧ t.min ≤ 59
  hour : 0 ≤ t.hour ∧ t.hour ≤ 23
  mday : 1 ≤ t.mday ∧ t.mday ≤ 31
  mon : 0 ≤ t.mon ∧ t.mon ≤ 11
  wday : 0 ≤ t.wday ∧ t.wday ≤ 6
  yday : 0 ≤ t.yday ∧ t.yday ≤ 365

theorem name_mem {table : List Bytes} {i : Int} (h : 0 ≤ i) (hlt : i < table.length) :
    ∃ s ∈ table, name table i = some s := by
  have hin : i.toNat < table.length := by omega
  exact ⟨table[i.toNat], List.getElem_mem hin, by rw [name, if_pos h, List.getElem?_eq_getElem hin]⟩

theorem zeroFilled_length (k : Nat) (v : Int) : (zeroFilled k v).length = k := by
  induction k generalizing v with
  | zero => rfl
  | succ k ih => rw [zeroFilled, List.length_cons, ih]

/-- A digit's byte, even of a negative number, is no NUL. -/
theorem nul_not_mem_zeroFilled (k : Nat) (v : Int) : 0 ∉ zeroFilled k v := by
  induction k generalizing v with
  | zero => exact List.not_mem_nil
  | succ k ih =>
    have hdigit : ((v.tmod (10 ^ (k + 1))).tdiv (10 ^ k)).natAbs < 10 := by
      rw [Int.natAbs_tdiv, Int.natAbs_tmod, Int.natAbs_pow, Int.natAbs_pow]
      refine Nat.div_lt_of_lt_mul ?_
      have hmod : v.natAbs % 10 ^ (k + 1) < 10 ^ (k + 1) := Nat.mod_lt _ (by positivity)
      rwa [pow_succ] at hmod
    have hbyte : ∀ x : Int, x.natAbs < 10 → charByte (0xF0 + x) ≠ 0 := by
      intro x hx hzero
      have hnat := congrArg UInt8.toNat hzero
      rw [charByte, UInt8.toNat_ofNat', UInt8.toNat_zero] at hnat
      omega
    rw [zeroFilled, List.mem_cons, not_or]
    exact ⟨(hbyte _ hdigit).symm, ih _⟩

/-- The most that is made of a format, when a string in it has three bytes. -/
def room : Bytes → Nat
  | [] => 0
  | [_] => 1
  | c :: d :: fmt =>
    if c = ebcdic '%' then (if d.toNat - 0xF0 = 0 then 3 else d.toNat - 0xF0) + room fmt else 1 + room (d :: fmt)

theorem strfmt_spec {fmt : Bytes} {args : List Arg} (hfmt : 0 ∉ fmt)
    (hargs : ∀ s, .str s ∈ args → 0 ∉ s ∧ s.length ≤ 3) :
    0 ∉ strfmt fmt args ∧ (strfmt fmt args).length ≤ room fmt := by
  fun_induction strfmt fmt args with
  | case1 => exact ⟨List.not_mem_nil, Nat.le_refl _⟩
  | case2 => exact ⟨List.not_mem_nil, Nat.zero_le _⟩
  | case3 c => exact ⟨hfmt, Nat.le_refl _⟩
  | case4 d fmt ih =>
    obtain ⟨hnul, hlen⟩ := ih (by simp_all) hargs
    rw [room, if_pos rfl]
    exact ⟨hnul, by omega⟩
  | case5 d fmt ilen s args hzero ih =>
    obtain ⟨hs, hslen⟩ := hargs s List.mem_cons_self
    obtain ⟨hnul, hlen⟩ := ih (by simp_all) fun s hmem => hargs s (List.mem_cons_of_mem _ hmem)
    rw [room, if_pos rfl, if_pos hzero, List.length_append, List.mem_append, not_or]
    exact ⟨⟨hs, hnul⟩, by omega⟩
  | case6 d fmt ilen s args hzero ih =>
    obtain ⟨hnul, hlen⟩ := ih (by simp_all) fun s hmem => hargs s (List.mem_cons_of_mem _ hmem)
    rw [room, if_pos rfl]
    exact ⟨hnul, by omega⟩
  | case7 d fmt ilen v args hzero ih =>
    obtain ⟨hnul, hlen⟩ := ih (by simp_all) fun s hmem => hargs s (List.mem_cons_of_mem _ hmem)
    rw [room, if_pos rfl]
    exact ⟨hnul, by omega⟩
  | case8 d fmt ilen v args hzero ih =>
    obtain ⟨hnul, hlen⟩ := ih (by simp_all) fun s hmem => hargs s (List.mem_cons_of_mem _ hmem)
    rw [room, if_pos rfl, if_neg hzero, List.length_append, zeroFilled_length, List.mem_append, not_or]
    exact ⟨⟨nul_not_mem_zeroFilled _ _, hnul⟩, by omega⟩
  | case9 c d fmt args hc ih =>
    obtain ⟨hnul, hlen⟩ := ih (by simp_all) hargs
    rw [room, if_neg hc, List.length_cons, List.mem_cons, not_or]
    exact ⟨⟨by simp_all, hnul⟩, by omega⟩

/-- What is asked of a conversion: a string without a NUL, and room in the buffer. -/
def Converted.Fits (r : Converted) : Prop := 0 ∉ r.text ∧ r.used ≤ 26

theorem pointed_fits {s : Bytes} (h : 0 ∉ s) : (pointed s).Fits := ⟨h, Nat.zero_le _⟩

theorem formatted_fits {fmt : String} (hfmt : 0 ∉ literal fmt) (hroom : room (literal fmt) < 26) {args : List Arg}
    (hargs : ∀ s, .str s ∈ args → 0 ∉ s ∧ s.length ≤ 3) : (formatted fmt args).Fits := by
  obtain ⟨hnul, hlen⟩ := strfmt_spec hfmt hargs
  refine ⟨hnul, ?_⟩
  show (strfmt (literal fmt) args).length + 1 ≤ 26
  omega

/-- A conversion that is made, and fits. -/
def Fits (r : Option Converted) : Prop := ∃ c, r = some c ∧ c.Fits

theorem fits_ite {p : Prop} [Decidable p] {a b : Option Converted} (ha : Fits a) (hb : Fits b) :
    Fits (if p then a else b) := by
  split
  · exact ha
  · exact hb

theorem fits_pointed {s : Bytes} (h : 0 ∉ s) : Fits (some (pointed s)) := ⟨_, rfl, pointed_fits h⟩

theorem fits_named {table : List Bytes} (htable : ∀ s ∈ table, 0 ∉ s) {i : Int} (h : 0 ≤ i) (hlt : i < table.length) :
    Fits ((name table i).map pointed) := by
  obtain ⟨s, hs, hname⟩ := name_mem h hlt
  rw [hname]
  exact fits_pointed (htable s hs)

theorem fits_formatted {fmt : String} (hfmt : 0 ∉ literal fmt) (hroom : room (literal fmt) < 26) (vs : List Int) :
    Fits (some (formatted fmt (vs.map Arg.int))) := by
  refine ⟨_, rfl, formatted_fits hfmt hroom fun s hs => ?_⟩
  obtain ⟨v, -, hv⟩ := List.mem_map.mp hs
  cases hv

/-- **Every conversion fits the buffer**, for every year. -/
theorem conversion_fits {t : Tm} (h : t.InRange) (c : UInt8) : Fits (conversion t c) := by
  have hwday : t.wday < 7 := by have := h.wday.2; omega
  have hmon : t.mon < 12 := by have := h.mon.2; omega
  have haday : ∀ s ∈ aday, 0 ∉ s ∧ s.length ≤ 3 := by decide +kernel
  have hamonth : ∀ s ∈ amonth, 0 ∉ s ∧ s.length ≤ 3 := by decide +kernel
  unfold conversion
  repeat' refine fits_ite ?_ ?_
  · exact fits_pointed (by decide)
  · exact fits_named (fun s hs => (haday s hs).1) h.wday.1 hwday
  · exact fits_named (by decide +kernel) h.wday.1 hwday
  · exact fits_named (fun s hs => (hamonth s hs).1) h.mon.1 hmon
  · exact fits_named (by decide +kernel) h.mon.1 hmon
  · obtain ⟨wday, hmem, hname⟩ := @name_mem aday _ h.wday.1 hwday
    obtain ⟨mon, hmem', hname'⟩ := @name_mem amonth _ h.mon.1 hmon
    rw [hname, hname']
    refine ⟨_, rfl, formatted_fits (by decide +kernel) (by decide +kernel) fun s hs => ?_⟩
    rcases List.mem_cons.mp hs with hs | hs
    · cases hs
      exact haday wday hmem
    · rcases List.mem_cons.mp hs with hs | hs
      · cases hs
        exact hamonth mon hmem'
      · simp at hs
  · exact fits_formatted (by decide +kernel) (by decide +kernel) [t.mday]
  · exact fits_formatted (by decide +kernel) (by decide +kernel) [t.hour]
  · exact fits_formatted (by decide +kernel) (by decide +kernel) [_]
  · exact fits_formatted (by decide +kernel) (by decide +kernel) [t.yday + 1]
  · exact fits_formatted (by decide +kernel) (by decide +kernel) [t.mon + 1]
  · exact fits_formatted (by decide +kernel) (by decide +kernel) [t.min]
  · exact fits_pointed (by split <;> decide +kernel)
  · exact fits_formatted (by decide +kernel) (by decide +kernel) [t.sec]
  · exact fits_formatted (by decide +kernel) (by decide +kernel) [_]
  · exact fits_formatted (by decide +kernel) (by decide +kernel) [_]
  · exact fits_formatted (by decide +kernel) (by decide +kernel) [t.wday]
  · exact fits_formatted (by decide +kernel) (by decide +kernel) [_, _, _]
  · exact fits_formatted (by decide +kernel) (by decide +kernel) [_, _, _]
  · exact fits_formatted (by decide +kernel) (by decide +kernel) [_]
  · exact fits_formatted (by decide +kernel) (by decide +kernel) [_]
  · exact fits_pointed List.not_mem_nil
  · refine ⟨_, rfl, ?_, (by decide : 3 ≤ 26)⟩
    by_cases hc : c = 0
    · rw [if_pos hc]
      decide
    · rw [if_neg hc, List.mem_cons, not_or, List.mem_singleton]
      exact ⟨by decide, Ne.symm hc⟩

/-! ### The string -/

/-- What a format comes to without a limit. -/
def rendering (t : Tm) : Bytes → Bytes
  | [] => []
  | [c] => if c = ebcdic '%' then ((conversion t 0).map Converted.text).getD [] else [c]
  | c :: d :: format =>
    if c = ebcdic '%' then ((conversion t d).map Converted.text).getD [] ++ rendering t format
    else c :: rendering t (d :: format)

theorem rendering_char (t : Tm) {c : UInt8} (hc : c ≠ ebcdic '%') (format : Bytes) :
    rendering t (c :: format) = c :: rendering t format := by
  cases format with
  | nil => exact if_neg hc
  | cons d format => exact if_neg hc

theorem rendering_percent (t : Tm) {r : Converted} {rest : Bytes} (hr : conversion t (rest.headD 0) = some r) :
    rendering t (ebcdic '%' :: rest) = r.text ++ rendering t rest.tail := by
  cases rest with
  | nil =>
    rw [rendering, if_pos rfl]
    rw [List.headD_nil] at hr
    rw [hr, List.tail_nil, rendering, List.append_nil]
    rfl
  | cons d rest =>
    rw [rendering, if_pos rfl]
    rw [List.headD_cons] at hr
    rw [hr]
    rfl

/-- Bytes that are copied go behind one another, up to the last place. -/
theorem copy_eq {q : Nat} {r : Bytes} (hr : 0 ∉ r) {out : Bytes} (h : out.length ≤ q) :
    Str.copy q r ⟨out.length, placed 0 out⟩ =
      if (out ++ r).length ≤ q then (⟨(out ++ r).length, placed 0 (out ++ r)⟩, true)
      else (⟨q, placed 0 ((out ++ r).take q)⟩, false) := by
  induction r generalizing out with
  | nil =>
    rw [List.append_nil, if_pos h]
    rfl
  | cons c r ih =>
    rw [List.mem_cons, not_or] at hr
    rw [Str.copy, if_neg (Ne.symm hr.1)]
    dsimp only
    by_cases hfull : out.length = q
    · rw [if_pos hfull, if_neg (by rw [List.length_append, List.length_cons]; omega), ← hfull, List.take_left]
    · have hput : Str.put ⟨out.length, placed 0 out⟩ c = ⟨(out ++ [c]).length, placed 0 (out ++ [c])⟩ := by
        rw [Str.put, placed_append, List.length_append, List.length_singleton, Int.zero_add]
        rfl
      rw [if_neg hfull, hput, ih hr.2 (by rw [List.length_append, List.length_singleton]; omega), List.append_assoc]
      rfl

/-- What is asked of a call. It stores in the string and nowhere else, fills the buffer and
no more, and reads the format and its NUL. It answers 0, or the length of the rendering,
having stored that and a NUL from the start of the string on; it does not answer 0 when
the rendering is not empty and fits. -/
structure Formats (maxs : Nat) (format : Bytes) (t : Tm) (r : Result) : Prop where
  inside : ∀ w ∈ r.writes, 0 ≤ w.1 ∧ w.1 < maxs
  buffer : ∀ n ∈ r.used, n ≤ 26
  within : ∀ i ∈ r.reads, i ≤ format.length
  answer : r.answer = 0 ∨
    (r.answer = (rendering t format).length ∧ r.writes = placed 0 (rendering t format ++ [0]))
  whole : rendering t format ≠ [] → (rendering t format).length + 1 ≤ maxs → r.answer ≠ 0

/-- The loop with `n` bytes of the format to go, and `out` in the string. -/
structure Going (q : Nat) (format : Bytes) (t : Tm) (out : Bytes) (n : Nat) (x : Formatting) : Prop where
  left : x.f + n = format.length
  str : x.str = ⟨out.length, placed 0 out⟩
  fits : out.length ≤ q
  renders : rendering t format = out ++ rendering t (format.drop x.f)
  within : ∀ i ∈ x.reads, i ≤ format.length
  buffer : ∀ n ∈ x.used, n ≤ 26

theorem placed_nul (out : Bytes) : placed 0 out ++ [((out.length : Int), 0)] = placed 0 (out ++ [0]) := by
  rw [placed_append, Int.zero_add]
  rfl

/-- The string is full: a byte more does not fit. -/
theorem formats_full {q : Nat} {format : Bytes} {t : Tm} {x : Formatting} {out : Bytes} (hlen : out.length = q)
    (hstr : x.str = ⟨q, placed 0 out⟩) (hmore : q < (rendering t format).length)
    (hwithin : ∀ i ∈ x.reads, i ≤ format.length) (hbuffer : ∀ n ∈ x.used, n ≤ 26) :
    Formats (q + 1) format t (x.full q) := by
  have hwrites : (x.full q).writes = placed 0 (out ++ [0]) := by
    rw [← placed_nul, hlen, Formatting.full, hstr]
  refine ⟨?_, hbuffer, hwithin, .inl rfl, fun _ hfit => by omega⟩
  rw [hwrites]
  intro w hw
  obtain ⟨hlow, hhigh⟩ := placed_bounds _ _ w hw
  rw [List.length_append, List.length_singleton] at hhigh
  omega

/-- The format has come to its end. -/
theorem formats_done {q : Nat} {format : Bytes} {t : Tm} {x : Formatting} {out : Bytes}
    (h : Going q format t out 0 x) :
    Formats (q + 1) format t ⟨x.str.p, x.str.writes ++ [((x.str.p : Int), 0)], x.reads ++ [x.f], x.used⟩ := by
  have hf : x.f = format.length := h.left
  have hrenders := h.renders
  rw [hf, List.drop_length, rendering, List.append_nil] at hrenders
  have hfits := h.fits
  rw [h.str]
  dsimp only
  rw [placed_nul]
  refine ⟨fun w hw => ?_, h.buffer, fun i hi => ?_, .inr ⟨by rw [hrenders], by rw [hrenders]⟩, fun hne _ => ?_⟩
  · obtain ⟨hlow, hhigh⟩ := placed_bounds _ _ w hw
    rw [List.length_append, List.length_singleton] at hhigh
    omega
  · rcases List.mem_append.mp hi with hi | hi
    · exact h.within i hi
    · rw [List.mem_singleton.mp hi, hf]
  · rw [hrenders] at hne
    exact fun hzero => hne (List.length_eq_zero_iff.mp hzero)

/-- A turn with a conversion. -/
theorem turn_percent {q : Nat} {format : Bytes} (hformat : 0 ∉ format) {t : Tm} (ht : t.InRange) {n : Nat}
    {out : Bytes} {x : Formatting} (hgoing : Going q format t out (n + 1) x)
    (hpercent : format.getD x.f 0 = ebcdic '%') :
    (∃ x' m, strftimeTurn q format t x = .again x' ∧ m < n + 1 ∧ ∃ out, Going q format t out m x') ∨
      ∃ r, strftimeTurn q format t x = .leave r ∧ ∃ r', r = some r' ∧ Formats (q + 1) format t r' := by
  have hleft := hgoing.left
  have hlt : x.f < format.length := by omega
  have hdrop := List.drop_eq_getElem_cons hlt
  have hget : format[x.f] = format.getD x.f 0 := List.getElem_eq_getD 0
  rw [strftimeTurn, if_pos (by rw [hpercent]; decide)]
  have hd : format.getD (x.f + 1) 0 = (format.drop (x.f + 1)).headD 0 := by
    rw [List.headD_eq_head?_getD, List.head?_drop, List.getD_eq_getElem?_getD]
  obtain ⟨r, hconv, hnul, hused⟩ := conversion_fits ht (format.getD (x.f + 1) 0)
  have hrenders := hgoing.renders
  rw [hdrop, hget, hpercent, rendering_percent t (hd ▸ hconv), ← List.append_assoc, List.tail_drop] at hrenders
  have hwithin : ∀ i ∈ x.reads ++ [x.f, x.f + 1], i ≤ format.length := by
    refine List.forall_mem_append.mpr ⟨hgoing.within, ?_⟩
    exact List.forall_mem_cons.mpr ⟨by omega, List.forall_mem_singleton.mpr (by omega)⟩
  have hbuffer : ∀ n ∈ x.used ++ [r.used], n ≤ 26 :=
    List.forall_mem_append.mpr ⟨hgoing.buffer, List.forall_mem_singleton.mpr hused⟩
  rw [if_pos hpercent]
  dsimp only
  rw [hconv]
  dsimp only
  rw [hgoing.str, copy_eq hnul hgoing.fits]
  by_cases hfits : (out ++ r.text).length ≤ q
  · rw [if_pos hfits]
    by_cases hend : format.getD (x.f + 1) 0 = 0
    · -- the % is the last byte
      have hlast : x.f + 1 = format.length := by
        by_contra hbefore
        have hin : x.f + 1 < format.length := by omega
        have hbyte : format[x.f + 1] = format.getD (x.f + 1) 0 := List.getElem_eq_getD 0
        exact hformat (hend ▸ hbyte ▸ List.getElem_mem hin)
      refine .inl ⟨_, 0, rfl, Nat.succ_pos n, out ++ r.text, ?_, rfl, hfits, ?_, hwithin, hbuffer⟩
      · rw [if_pos hend]
        exact hlast
      · rw [if_pos hend]
        dsimp only
        rw [hrenders, hlast, List.drop_length, List.drop_eq_nil_of_le (by omega)]
    · have hin : x.f + 1 < format.length := by
        by_contra hbehind
        exact hend (List.getD_eq_default _ _ (by omega))
      refine .inl ⟨_, n - 1, rfl, by omega, out ++ r.text, ?_, rfl, hfits, ?_, hwithin, hbuffer⟩
      · rw [if_neg hend]
        dsimp only
        omega
      · rw [if_neg hend]
        exact hrenders
  · rw [if_neg hfits]
    have htake : ((out ++ r.text).take q).length = q := by
      rw [List.length_take]
      omega
    have hmore : q < (rendering t format).length := by
      rw [hrenders, List.length_append]
      omega
    exact .inr ⟨_, rfl, _, rfl, formats_full htake rfl hmore hwithin hbuffer⟩

/-- A turn with a byte of the format that stands for itself. -/
theorem turn_char {q : Nat} {format : Bytes} {t : Tm} {n : Nat} {out : Bytes} {x : Formatting}
    (hgoing : Going q format t out (n + 1) x) (hnul : format.getD x.f 0 ≠ 0)
    (hpercent : format.getD x.f 0 ≠ ebcdic '%') :
    (∃ x' m, strftimeTurn q format t x = .again x' ∧ m < n + 1 ∧ ∃ out, Going q format t out m x') ∨
      ∃ r, strftimeTurn q format t x = .leave r ∧ ∃ r', r = some r' ∧ Formats (q + 1) format t r' := by
  have hleft := hgoing.left
  have hlt : x.f < format.length := by omega
  have hdrop := List.drop_eq_getElem_cons hlt
  have hget : format[x.f] = format.getD x.f 0 := List.getElem_eq_getD 0
  rw [strftimeTurn, if_pos hnul]
  have hrenders := hgoing.renders
  rw [hdrop, hget, rendering_char t hpercent] at hrenders
  have hwithin : ∀ i ∈ x.reads ++ [x.f], i ≤ format.length :=
    List.forall_mem_append.mpr ⟨hgoing.within, List.forall_mem_singleton.mpr (Nat.le_of_lt hlt)⟩
  rw [if_neg hpercent]
  dsimp only
  rw [hgoing.str]
  dsimp only
  by_cases hfull : out.length = q
  · rw [if_pos hfull]
    have hmore : q < (rendering t format).length := by
      rw [hrenders, List.length_append, List.length_cons]
      omega
    exact .inr ⟨_, rfl, _, rfl, formats_full hfull (by rw [hfull]) hmore hwithin hgoing.buffer⟩
  · have hfits : (out ++ [format.getD x.f 0]).length ≤ q := by
      have hbefore := hgoing.fits
      rw [List.length_append, List.length_singleton]
      omega
    rw [if_neg hfull]
    refine .inl ⟨_, n, rfl, Nat.lt_succ_self n, out ++ [format.getD x.f 0], ?_, ?_, hfits, ?_, hwithin, hgoing.buffer⟩
    · show x.f + 1 + n = format.length
      omega
    · rw [Str.put, placed_append, List.length_append, List.length_singleton, Int.zero_add]
      rfl
    · rw [hrenders, List.append_assoc]
      rfl

/-- One turn. -/
theorem strftime_turn {q : Nat} {format : Bytes} (hformat : 0 ∉ format) {t : Tm} (ht : t.InRange) {n : Nat}
    {x : Formatting} (h : ∃ out, Going q format t out n x) :
    (∃ x' m, strftimeTurn q format t x = .again x' ∧ m < n ∧ ∃ out, Going q format t out m x') ∨
      ∃ r, strftimeTurn q format t x = .leave r ∧ ∃ r', r = some r' ∧ Formats (q + 1) format t r' := by
  obtain ⟨out, hgoing⟩ := h
  cases n with
  | zero =>
    have hend : format.getD x.f 0 = 0 := by
      have hf := hgoing.left
      rw [List.getD_eq_default]
      omega
    refine .inr ⟨_, ?_, _, rfl, formats_done hgoing⟩
    rw [strftimeTurn, if_neg (not_not.mpr hend)]
  | succ n =>
    have hlt : x.f < format.length := by
      have hleft := hgoing.left
      omega
    have hget : format[x.f] = format.getD x.f 0 := List.getElem_eq_getD 0
    have hnul : format.getD x.f 0 ≠ 0 := fun hzero => hformat (hzero ▸ hget ▸ List.getElem_mem hlt)
    by_cases hpercent : format.getD x.f 0 = ebcdic '%'
    · exact turn_percent hformat ht hgoing hpercent
    · exact turn_char hgoing hnul hpercent

/-- **`strftime()`** formats into any room, whatever the format. -/
theorem strftime_formats (maxs : Nat) (format : CString) {t : Tm} (ht : t.InRange) :
    ∃ r, strftime maxs format.val t = some r ∧ Formats maxs format.val t r := by
  unfold strftime
  cases maxs with
  | zero =>
    rw [if_pos rfl]
    refine ⟨_, rfl, ?_, ?_, ?_, .inl rfl, fun _ hfit => by omega⟩
    all_goals exact fun _ h => absurd h List.not_mem_nil
  | succ q =>
    rw [if_neg (Nat.succ_ne_zero q), Nat.add_sub_cancel]
    refine Loop.run_rank (fun n x => ∃ out, Going q format.val t out n x)
      (fun r => ∃ r', r = some r' ∧ Formats (q + 1) format.val t r')
      (fun n x h => strftime_turn format.property ht h) ?_ (Nat.lt_succ_self _)
    refine ⟨[], Nat.zero_add _, rfl, Nat.zero_le _, rfl, ?_, ?_⟩
    all_goals exact fun _ h => absurd h List.not_mem_nil

/-- A year into five bytes. -/
theorem strftime_formats_year :
    ∃ r, strftime 5 (literal "%Y") ⟨0, 0, 0, 1, 0, 124, 1, 0, 0⟩ = some r ∧
      Formats 5 (literal "%Y") ⟨0, 0, 0, 1, 0, 124, 1, 0, 0⟩ r :=
  strftime_formats 5 ⟨literal "%Y", by decide⟩
    ⟨by decide, by decide, by decide, by decide, by decide, by decide, by decide⟩

example : (strftime 5 (literal "%Y") ⟨0, 0, 0, 1, 0, 124, 1, 0, 0⟩).map (fun r => (r.answer, r.writes.map Prod.snd)) =
    some (4, literal "2024" ++ [0]) := by decide +kernel

end Libc370.Time
