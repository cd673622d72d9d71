import Libc370.Ctype
import Libc370.Lib.Wildcard

/-! Pattern matching (`ext/strutil/@@patmat.c`).

A string is given by the bytes before its NUL, and a pointer into it by the bytes from
there on. A pointer is moved past the NUL only by the loop of a `*` that stands in front of
another character, when it starts at the NUL; what it reads from there on is not the
string's, and the model gives up (`none`).

As documented, a `*` at the end of the pattern stands for any rest and one in front of
another character for one character or more (`items`). What is matched is a string that
this pattern generates with some of the blanks at its end (`patmat_true_iff`); with none
of them, unless the pattern can take a blank for its last character. -/
namespace Libc370.Strutil

open Wildcard

abbrev Bytes := List UInt8

def star : UInt8 := ebcdic '*'

def query : UInt8 := ebcdic '?'

def blank : UInt8 := ebcdic ' '

/-- The loop `while(*(++str))`, from the second place on. `rest` is the call behind the
character `c`. -/
def scan (rest : Bytes → Option Bool) (c : UInt8) : Bytes → Option Bool
  | [] => some false
  | x :: str =>
    if x = c ∨ c = query then
      match rest str with
      | some false => scan rest c str
      | out => out
    else scan rest c str

/-- `__patmat()`. -/
def patmat (str : Bytes) : Bytes → Option Bool
  | [] => some (str.dropWhile (· == blank) == [])
  | p :: pat =>
    if p = star then
      -- `while(*(pat+1)=='*') pat++`
      match h : pat.dropWhile (· == star) with
      | [] => some true
      | c :: rest =>
        have : rest.length < pat.length := by
          have hle := (List.dropWhile_suffix (· == star) (l := pat)).length_le
          rw [h, List.length_cons] at hle
          omega
        match str with
        | [] => none
        | _ :: str => scan (fun str => patmat str rest) c str
    else
      match str with
      | [] => some false
      | x :: str => if p = query ∨ x = p then patmat str pat else some false
termination_by pat => pat.length

/-! ### Readings of a pattern -/

/-- What a character other than `*` stands for. -/
def oneOf (c : UInt8) : Item UInt8 := .one (fun x => c == query || x == c)

/-- The documented reading of a pattern. -/
def items : Bytes → List (Item UInt8)
  | [] => []
  | p :: pat =>
    if p = star then
      match h : pat.dropWhile (· == star) with
      | [] => [.run 0]
      | c :: rest =>
        have : rest.length < pat.length := by
          have hle := (List.dropWhile_suffix (· == star) (l := pat)).length_le
          rw [h, List.length_cons] at hle
          omega
        .run 1 :: oneOf c :: items rest
    else oneOf p :: items pat
termination_by pat => pat.length

/-- The reading in which every `*` may stand for nothing. -/
def glob (pat : Bytes) : List (Item UInt8) := pat.map (fun c => if c = star then .run 0 else oneOf c)

/-- A string without the blanks at its end. -/
def strip (str : Bytes) : Bytes := str.rdropWhile (· == blank)

/-! ### Cases -/

theorem patmat_stars (str : Bytes) {pat : Bytes} (h : pat.dropWhile (· == star) = []) :
    patmat str (star :: pat) = some true := by
  rw [patmat.eq_def]
  dsimp only
  rw [if_pos rfl]
  split
  · rfl
  · next hcons => rw [h] at hcons; cases hcons

theorem patmat_star (str : Bytes) {pat : Bytes} {c : UInt8} {rest : Bytes}
    (h : pat.dropWhile (· == star) = c :: rest) :
    patmat str (star :: pat) =
      match str with
      | [] => none
      | _ :: str => scan (fun str => patmat str rest) c str := by
  rw [patmat.eq_def]
  dsimp only
  rw [if_pos rfl]
  split
  · next hnil => rw [h] at hnil; cases hnil
  · next hcons =>
    rw [h] at hcons
    obtain ⟨rfl, rfl⟩ := List.cons.inj hcons
    rfl

theorem patmat_char (str : Bytes) {p : UInt8} (pat : Bytes) (hp : p ≠ star) :
    patmat str (p :: pat) =
      match str with
      | [] => some false
      | x :: str => if p = query ∨ x = p then patmat str pat else some false := by
  rw [patmat.eq_def]
  dsimp only
  rw [if_neg hp]

theorem items_stars {pat : Bytes} (h : pat.dropWhile (· == star) = []) : items (star :: pat) = [.run 0] := by
  rw [items, if_pos rfl]
  split
  · rfl
  · next hcons => rw [h] at hcons; cases hcons

theorem items_star {pat : Bytes} {c : UInt8} {rest : Bytes} (h : pat.dropWhile (· == star) = c :: rest) :
    items (star :: pat) = .run 1 :: oneOf c :: items rest := by
  rw [items, if_pos rfl]
  split
  · next hnil => rw [h] at hnil; cases hnil
  · next hcons =>
    rw [h] at hcons
    obtain ⟨rfl, rfl⟩ := List.cons.inj hcons
    rfl

theorem items_char {p : UInt8} (pat : Bytes) (hp : p ≠ star) : items (p :: pat) = oneOf p :: items pat := by
  rw [items, if_neg hp]

/-- Induction along the pattern, as the code goes through it. -/
theorem along {P : Bytes → Prop} (nil : P [])
    (stars : ∀ pat, pat.dropWhile (· == star) = [] → P (star :: pat))
    (star : ∀ pat c rest, pat.dropWhile (· == star) = c :: rest → P rest → P (star :: pat))
    (char : ∀ p pat, p ≠ Strutil.star → P pat → P (p :: pat)) (pat : Bytes) : P pat := by
  induction pat using items.induct with
  | case1 => exact nil
  | case2 pat h => exact stars pat h
  | case3 pat c rest h _ ih => exact star pat c rest h ih
  | case4 p pat hp ih => exact char p pat hp ih

/-! ### What is matched -/

/-- The loop of a `*` finds a place behind which the rest matches. -/
theorem scan_true {rest : Bytes → Option Bool} {c : UInt8} {str : Bytes} (h : scan rest c str = some true) :
    ∃ u x t, str = u ++ x :: t ∧ (x = c ∨ c = query) ∧ rest t = some true := by
  induction str with
  | nil => cases h
  | cons x str ih =>
    rw [scan] at h
    split at h
    · next hx =>
      split at h
      · obtain ⟨u, y, t, rfl, hy, ht⟩ := ih h
        exact ⟨x :: u, y, t, rfl, hy, ht⟩
      · exact ⟨[], x, str, rfl, hx, h⟩
    · obtain ⟨u, y, t, rfl, hy, ht⟩ := ih h
      exact ⟨x :: u, y, t, rfl, hy, ht⟩

/-- Or the rest matches behind none. -/
theorem scan_false {rest : Bytes → Option Bool} {c : UInt8} {str : Bytes} (h : scan rest c str = some false)
    {u : Bytes} {x : UInt8} {t : Bytes} (hstr : str = u ++ x :: t) (hx : x = c ∨ c = query) : rest t = some false := by
  induction u generalizing str with
  | nil =>
    rw [hstr, List.nil_append, scan, if_pos hx] at h
    split at h
    · next hfalse => exact hfalse
    · next hout => exact absurd h hout
  | cons y u ih =>
    rw [hstr, List.cons_append, scan] at h
    split at h
    · split at h
      · exact ih h rfl
      · next hout => exact absurd h hout
    · exact ih h rfl

/-- The blanks at the end of a string. -/
def Blanks (v : Bytes) : Prop := ∀ x ∈ v, x = blank

theorem blanks_iff (v : Bytes) : (v.dropWhile (· == blank) == []) = true ↔ Blanks v := by
  rw [beq_iff_eq, List.dropWhile_eq_nil_iff]
  exact forall₂_congr fun x _ => beq_iff_eq

theorem oneOf_iff (c x : UInt8) : (c == query || x == c) = true ↔ x = c ∨ c = query := by
  rw [Bool.or_eq_true, beq_iff_eq, beq_iff_eq, or_comm]

/-- A string that the pattern generates with some of the blanks at its end. -/
def Matched (pat str : Bytes) : Prop := ∃ u v, str = u ++ v ∧ Blanks v ∧ Generates (items pat) u

theorem matched_char {p : UInt8} (pat : Bytes) (hp : p ≠ star) (str : Bytes) :
    Matched (p :: pat) str ↔ ∃ x t, str = x :: t ∧ (x = p ∨ p = query) ∧ Matched pat t := by
  unfold Matched
  rw [items_char pat hp]
  constructor
  · rintro ⟨u, v, rfl, hv, x, t, rfl, hx, ht⟩
    exact ⟨x, t ++ v, rfl, (oneOf_iff p x).mp hx, t, v, rfl, hv, ht⟩
  · rintro ⟨x, t, rfl, hx, u, v, rfl, hv, hu⟩
    exact ⟨x :: u, v, rfl, hv, x, u, rfl, (oneOf_iff p x).mpr hx, hu⟩

theorem matched_star {pat : Bytes} {c : UInt8} {rest : Bytes} (h : pat.dropWhile (· == star) = c :: rest)
    (str : Bytes) :
    Matched (star :: pat) str ↔
      ∃ w y u x t, str = w :: y ∧ y = u ++ x :: t ∧ (x = c ∨ c = query) ∧ Matched rest t := by
  unfold Matched
  rw [items_star h]
  constructor
  · rintro ⟨_, v, rfl, hv, u, _, rfl, hu, x, t, rfl, hx, ht⟩
    obtain ⟨w, u, rfl⟩ := List.exists_cons_of_length_pos hu
    exact ⟨w, u ++ (x :: (t ++ v)), u, x, t ++ v, by simp, rfl, (oneOf_iff c x).mp hx, t, v, rfl, hv, ht⟩
  · rintro ⟨w, _, u, x, _, rfl, rfl, hx, t, v, rfl, hv, ht⟩
    exact ⟨(w :: u) ++ (x :: t), v, by simp, hv, w :: u, x :: t, rfl, by simp, x, t, rfl, (oneOf_iff c x).mpr hx, ht⟩

/-- **A result of `__patmat()`** is whether the string is matched. -/
theorem patmat_true_iff (pat : Bytes) {str : Bytes} {b : Bool} (h : patmat str pat = some b) :
    b = true ↔ Matched pat str := by
  induction pat using along generalizing str b with
  | nil =>
    rw [patmat.eq_def, Option.some_inj] at h
    rw [← h, blanks_iff, Matched, items]
    constructor
    · exact fun hblanks => ⟨[], str, rfl, hblanks, rfl⟩
    · rintro ⟨u, v, rfl, hv, rfl⟩
      exact hv
  | stars pat hstars =>
    rw [patmat_stars str hstars, Option.some_inj] at h
    rw [← h, Matched, items_stars hstars]
    exact iff_of_true rfl ⟨str, [], (List.append_nil str).symm, fun _ hx => absurd hx List.not_mem_nil,
      generates_any str⟩
  | star pat c rest hcons ih =>
    rw [patmat_star str hcons] at h
    rw [matched_star hcons]
    cases str with
    | nil => cases h
    | cons w str =>
      cases b with
      | true =>
        obtain ⟨u, x, t, hstr, hx, ht⟩ := scan_true h
        exact iff_of_true rfl ⟨w, str, u, x, t, rfl, hstr, hx, (ih ht).mp rfl⟩
      | false =>
        refine iff_of_false Bool.false_ne_true ?_
        rintro ⟨w', y, u, x, t, hw, hy, hx, ht⟩
        obtain ⟨rfl, rfl⟩ := List.cons.inj hw
        exact absurd ((ih (scan_false h hy hx)).mpr ht) Bool.false_ne_true
  | char p pat hp ih =>
    rw [patmat_char str pat hp] at h
    rw [matched_char pat hp]
    cases str with
    | nil =>
      rw [Option.some_inj] at h
      rw [← h]
      refine iff_of_false Bool.false_ne_true ?_
      rintro ⟨x, t, hnil, -⟩
      cases hnil
    | cons x str =>
      dsimp only at h
      split_ifs at h with hx
      · rw [ih h]
        constructor
        · exact fun hm => ⟨x, str, rfl, hx.symm, hm⟩
        · rintro ⟨y, t, hy, -, hm⟩
          obtain ⟨rfl, rfl⟩ := List.cons.inj hy
          exact hm
      · rw [Option.some_inj] at h
        rw [← h]
        refine iff_of_false Bool.false_ne_true ?_
        rintro ⟨y, t, hy, hyp, -⟩
        obtain ⟨rfl, rfl⟩ := List.cons.inj hy
        exact hx hyp.symm

/-- Without a `*` in front of another character nothing past the string's NUL is read. -/
theorem patmat_within (str : Bytes) {pat : Bytes} (h : ∀ c ∈ pat.dropWhile (· != star), c = star) :
    patmat str pat ≠ none := by
  induction pat using along generalizing str with
  | nil =>
    rw [patmat.eq_def]
    exact Option.some_ne_none _
  | stars pat hstars =>
    rw [patmat_stars str hstars]
    exact Option.some_ne_none _
  | star pat c rest hcons ih =>
    rw [List.dropWhile_cons_of_neg (by simp), List.forall_mem_cons] at h
    have hnil : pat.dropWhile (· == star) = [] := by
      rw [List.dropWhile_eq_nil_iff]
      exact fun x hx => beq_iff_eq.mpr (h.2 x hx)
    rw [hnil] at hcons
    cases hcons
  | char p pat hp ih =>
    rw [List.dropWhile_cons_of_pos (by simpa using hp)] at h
    rw [patmat_char str pat hp]
    cases str with
    | nil => exact Option.some_ne_none _
    | cons x str =>
      dsimp only
      split_ifs
      · exact ih str h
      · exact Option.some_ne_none _

/-! ### Blanks at the end -/

theorem strip_append {v : Bytes} (hv : Blanks v) (u : Bytes) : strip (u ++ v) = strip u := by
  induction v using List.reverseRecOn with
  | nil => rw [List.append_nil]
  | append_singleton v x ih =>
    obtain ⟨hbefore, hx⟩ := List.forall_mem_append.mp hv
    have hblank : (x == blank) = true := beq_iff_eq.mpr (hx x (List.mem_singleton_self x))
    have hdrop : strip (u ++ v ++ [x]) = strip (u ++ v) := List.rdropWhile_concat_pos (· == blank) _ _ hblank
    rw [← List.append_assoc, hdrop]
    exact ih hbefore

theorem strip_concat {u : Bytes} {x : UInt8} (hx : x ≠ blank) : strip (u ++ [x]) = u ++ [x] :=
  List.rdropWhile_concat_neg _ _ _ (by simpa using hx)

theorem strip_blanks (str : Bytes) : ∃ v, str = strip str ++ v ∧ Blanks v := by
  induction str using List.reverseRecOn with
  | nil => exact ⟨[], rfl, fun x hx => absurd hx List.not_mem_nil⟩
  | append_singleton u x ih =>
    by_cases hx : x = blank
    · obtain ⟨v, hu, hv⟩ := ih
      have hone : Blanks [x] := List.forall_mem_singleton.mpr hx
      refine ⟨v ++ [x], ?_, List.forall_mem_append.mpr ⟨hv, hone⟩⟩
      rw [strip_append hone, ← List.append_assoc, ← hu]
    · exact ⟨[], by rw [strip_concat hx, List.append_nil], fun y hy => absurd hy List.not_mem_nil⟩

/-- Behind a last character that is no blank. -/
theorem strip_behind {a : Bytes} (ha : a = [] ∨ ∃ u x, a = u ++ [x] ∧ x ≠ blank) (v : Bytes) :
    strip (a ++ v) = a ++ strip v := by
  induction v using List.reverseRecOn with
  | nil =>
    rw [List.append_nil]
    rcases ha with rfl | ⟨u, x, rfl, hx⟩
    · rfl
    · rw [strip_concat hx]
      exact (List.append_nil _).symm
  | append_singleton v x ih =>
    rw [← List.append_assoc]
    by_cases hx : x = blank
    · have hone : Blanks [x] := List.forall_mem_singleton.mpr hx
      rw [strip_append hone, strip_append hone, ih]
    · rw [strip_concat hx, strip_concat hx, List.append_assoc]

/-- The last character of a pattern, but for the `*` at its end. -/
def lastChar (pat : Bytes) : Option UInt8 := (pat.filter (· != star)).getLast?

theorem lastChar_star (pat : Bytes) : lastChar (star :: pat) = lastChar pat := by
  rw [lastChar, List.filter_cons_of_neg (by simp)]
  rfl

theorem lastChar_char {p : UInt8} (pat : Bytes) (hp : p ≠ star) :
    lastChar (p :: pat) = (lastChar pat).or (some p) := by
  rw [lastChar, List.filter_cons_of_pos (by simpa using hp), List.getLast?_cons]
  cases h : lastChar pat <;> rw [lastChar] at h <;> rw [h] <;> rfl

theorem lastChar_dropWhile (pat : Bytes) : lastChar (pat.dropWhile (· == star)) = lastChar pat := by
  induction pat with
  | nil => rfl
  | cons p pat ih =>
    by_cases hp : p = star
    · rw [hp, lastChar_star, List.dropWhile_cons_of_pos (by simp), ih]
    · rw [List.dropWhile_cons_of_neg (by simpa using hp)]

/-- The reading of a pattern up to its last character, and a run for the `*` behind. -/
structure Split (pat : Bytes) (init tail : List (Item UInt8)) : Prop where
  items_eq : items pat = init ++ tail
  tail_eq : tail = [] ∨ tail = [.run 0]
  last : (init = [] ∧ lastChar pat = none) ∨ ∃ p c, init = p ++ [oneOf c] ∧ lastChar pat = some c

/-- One more character in front of a reading. -/
theorem Split.cons {rest : Bytes} {init tail : List (Item UInt8)} (h : Split rest init tail)
    (front : List (Item UInt8)) (c : UInt8) {pat : Bytes} (hitems : items pat = front ++ oneOf c :: items rest)
    (hlast : lastChar pat = (lastChar rest).or (some c)) : Split pat (front ++ oneOf c :: init) tail := by
  refine ⟨by rw [hitems, h.items_eq]; simp, h.tail_eq, .inr ?_⟩
  rcases h.last with ⟨rfl, hnone⟩ | ⟨p, d, rfl, hsome⟩
  · exact ⟨front, c, rfl, by rw [hlast, hnone]; rfl⟩
  · exact ⟨front ++ oneOf c :: p, d, by simp, by rw [hlast, hsome]; rfl⟩

theorem exists_split (pat : Bytes) : ∃ init tail, Split pat init tail := by
  induction pat using along with
  | nil => exact ⟨[], [], by rw [items]; rfl, .inl rfl, .inl ⟨rfl, rfl⟩⟩
  | stars pat hstars =>
    refine ⟨[], [.run 0], items_stars hstars, .inr rfl, .inl ⟨rfl, ?_⟩⟩
    rw [lastChar_star, ← lastChar_dropWhile, hstars]
    rfl
  | star pat c rest hcons ih =>
    obtain ⟨init, tail, hsplit⟩ := ih
    have hc : c ≠ star := by
      have hhead := List.head_dropWhile_not (· == star) (l := pat) (by rw [hcons]; exact List.cons_ne_nil _ _)
      simp only [hcons, List.head_cons] at hhead
      simpa using hhead
    refine ⟨_, tail, hsplit.cons [.run 1] c (items_star hcons) ?_⟩
    rw [lastChar_star, ← lastChar_dropWhile, hcons, lastChar_char rest hc]
  | char p pat hp ih =>
    obtain ⟨init, tail, hsplit⟩ := ih
    exact ⟨_, tail, hsplit.cons [] p (items_char pat hp) (lastChar_char pat hp)⟩

/-! ### The claim of the pattern -/

/-- What is generated without the blanks at the end is matched. -/
theorem matched_of_strip {pat str : Bytes} (h : Generates (items pat) (strip str)) : Matched pat str := by
  obtain ⟨v, hstr, hv⟩ := strip_blanks str
  exact ⟨strip str, v, hstr, hv, h⟩

/-- The other way, when the last character of the pattern cannot stand for a blank. -/
theorem strip_of_matched {pat str : Bytes} (hlast : ∀ c, lastChar pat = some c → c ≠ query ∧ c ≠ blank)
    (h : Matched pat str) : Generates (items pat) (strip str) := by
  obtain ⟨u, v, rfl, hv, hu⟩ := h
  obtain ⟨init, tail, hitems, htail, hinit⟩ := exists_split pat
  rw [hitems] at hu ⊢
  obtain ⟨a, w, rfl, ha, hw⟩ := (generates_append init tail u).mp hu
  have hsolid : a = [] ∨ ∃ u x, a = u ++ [x] ∧ x ≠ blank := by
    rcases hinit with ⟨rfl, -⟩ | ⟨p, c, rfl, hc⟩
    · exact .inl ha
    · obtain ⟨hquery, hblank⟩ := hlast c hc
      obtain ⟨u, x, hux, -, hx⟩ := (generates_concat_one p _ a).mp ha
      have hxc : x = c := by simpa [hquery] using hx
      exact .inr ⟨u, x, hux, by rw [hxc]; exact hblank⟩
  rw [List.append_assoc, strip_behind hsolid]
  refine (generates_append init tail _).mpr ⟨a, _, rfl, ha, ?_⟩
  rcases htail with rfl | rfl
  · rw [hw, List.nil_append]
    exact strip_append hv []
  · exact generates_any _

/-- What is asked of `__patmat()`. It ends within the string when no `*` is in front of
another character. A string is matched if the pattern generates it without the blanks at
its end; and only then, unless it has such blanks and the pattern's last character, but
for `*`, can stand for one. -/
structure Reads (pat str : Bytes) : Prop where
  within : (∀ c ∈ pat.dropWhile (· != star), c = star) → patmat str pat ≠ none
  found : ∀ b, patmat str pat = some b → Generates (items pat) (strip str) → b = true
  right : ∀ b, patmat str pat = some b →
    (str.getLast? ≠ some blank ∨ ∀ c, lastChar pat = some c → c ≠ query ∧ c ≠ blank) →
      b = true → Generates (items pat) (strip str)

/-- **`__patmat()` reads a pattern as documented**: a `*` at its end is any rest, another
one is a character or more. -/
theorem patmat_reads (pat str : CString) : Reads pat.val str.val := by
  refine ⟨patmat_within str.val, fun b h hgen => ?_, fun b h hends hb => ?_⟩
  · exact (patmat_true_iff pat.val h).mpr (matched_of_strip hgen)
  · have hmatched := (patmat_true_iff pat.val h).mp hb
    rcases hends with hends | hlast
    · obtain ⟨u, v, hstr, hv, hu⟩ := hmatched
      have hnil : v = [] := by
        rcases List.eq_nil_or_concat v with hnil | ⟨v', x, rfl⟩
        · exact hnil
        · refine absurd ?_ hends
          rw [hstr, List.concat_eq_append, ← List.append_assoc, List.getLast?_concat, hv x (by simp)]
      rw [hnil, List.append_nil] at hstr
      have hsame : strip str.val = str.val := by
        rcases List.eq_nil_or_concat str.val with hempty | ⟨u', x, hu'⟩
        · rw [hempty]
          rfl
        · rw [List.concat_eq_append] at hu'
          rw [hu', List.getLast?_concat] at hends
          rw [hu']
          exact strip_concat fun hx => hends (by rw [hx])
      rw [hsame, hstr]
      exact hu
    · exact strip_of_matched hlast hmatched

/-- `ABC` does not match `*ABC`. -/
theorem star_takes_one :
    ¬ (patmat (literal "ABC") (literal "*ABC") = some true ↔
      Generates (glob (literal "*ABC")) (strip (literal "ABC"))) := by
  intro h
  have hgen : Generates (glob (literal "*ABC")) (strip (literal "ABC")) := by
    refine ⟨[], literal "ABC", by decide, Nat.le_refl 0, ?_⟩
    exact ⟨_, _, rfl, by decide, _, _, rfl, by decide, _, _, rfl, by decide, rfl⟩
  have hstar : (literal "ABC").dropWhile (· == star) = ebcdic 'A' :: literal "BC" := by decide
  have hnot : patmat (literal "ABC") (star :: literal "ABC") = some false := by
    rw [patmat_star _ hstar]
    rfl
  exact absurd ((h.mpr hgen).symm.trans hnot) (by decide)

end Libc370.Strutil
