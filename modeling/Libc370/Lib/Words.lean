import Mathlib

/-! Lines and words of a text.

`lines` cuts a text at its newlines; a newline at the very end opens no further line.
`words` cuts a line at its blanks, except between quotes: a quote opens or closes a
quoted part, which stays whole with the word it stands in. Cutting at a blank outside
quotes cuts no word in two (`words_append`), and blanks in front add none
(`words_dropWhile`). -/
namespace Libc370.Words

variable {α : Type*}

/-- The word `w`, if there is one. -/
def word (w : List α) : List (List α) := if w = [] then [] else [w]

@[simp] theorem word_nil : word ([] : List α) = [] := rfl

theorem drop_takeWhile (p : α → Bool) (s : List α) (n : Nat) :
    s.drop ((s.takeWhile p).length + n) = (s.dropWhile p).drop n := by
  have hleft : (s.takeWhile p ++ s.dropWhile p).drop ((s.takeWhile p).length + n) = (s.dropWhile p).drop n := by
    rw [← List.drop_drop, List.drop_left]
  rwa [List.takeWhile_append_dropWhile] at hleft

variable [DecidableEq α] (newline blank quote : α)

/-- The lines of a text. -/
def lines : List α → List (List α)
  | [] => []
  | c :: s =>
    if c = newline then [] :: lines s
    else
      match lines s with
      | [] => [[c]]
      | line :: rest => (c :: line) :: rest

/-- Whether a quoted part is open behind `s`. -/
def quoted (q : Bool) (s : List α) : Bool := s.foldl (fun q c => if c = quote then !q else q) q

/-- The words of a line, from inside the word `w`; `q` says whether a quoted part is open. -/
def words (q : Bool) (w : List α) : List α → List (List α)
  | [] => word w
  | c :: s =>
    if c = quote then words (!q) (w ++ [c]) s
    else if c = blank ∧ q = false then word w ++ words false [] s
    else words q (w ++ [c]) s

variable {newline blank quote}

/-! ### Lines -/

/-- The first line is the text up to the newline, the others are the lines behind it. -/
theorem lines_ne_nil {s : List α} (h : s ≠ []) :
    lines newline s =
      s.takeWhile (· ≠ newline) :: lines newline (s.drop ((s.takeWhile (· ≠ newline)).length + 1)) := by
  induction s with
  | nil => exact absurd rfl h
  | cons c s ih =>
    rw [lines]
    by_cases hc : c = newline
    · simp [hc]
    · rw [if_neg hc]
      cases s with
      | nil => simp [hc, lines]
      | cons d s =>
        rw [ih (List.cons_ne_nil d s)]
        simp [hc]

/-- What is behind a piece of the first line starts with the rest of that line. -/
theorem takeWhile_drop {s : List α} {n : Nat} (h : n ≤ (s.takeWhile (· ≠ newline)).length) :
    (s.drop n).takeWhile (· ≠ newline) = (s.takeWhile (· ≠ newline)).drop n ∧
      (s.drop n).dropWhile (· ≠ newline) = s.dropWhile (· ≠ newline) := by
  induction n generalizing s with
  | zero => exact ⟨rfl, rfl⟩
  | succ n ih =>
    cases s with
    | nil => exact ⟨rfl, rfl⟩
    | cons c s =>
      by_cases hc : c = newline
      · simp [hc] at h
      · simp only [List.takeWhile_cons, List.dropWhile_cons, List.drop_succ_cons, decide_not, hc, decide_false,
          Bool.not_false,
          if_true, List.length_cons] at h ⊢
        simpa using ih (s := s) (by simpa using h)

theorem takeWhile_dropWhile (hne : blank ≠ newline) (s : List α) :
    (s.dropWhile (· = blank)).takeWhile (· ≠ newline) = (s.takeWhile (· ≠ newline)).dropWhile (· = blank) ∧
      (s.dropWhile (· = blank)).dropWhile (· ≠ newline) = s.dropWhile (· ≠ newline) := by
  induction s with
  | nil => exact ⟨rfl, rfl⟩
  | cons c s ih =>
    by_cases hc : c = blank
    · subst hc
      simpa [hne] using ih
    · rw [List.dropWhile_cons_of_neg (by simpa using hc)]
      refine ⟨?_, rfl⟩
      by_cases hnl : c = newline
      · rw [List.takeWhile_cons_of_neg (by simpa using hnl)]
        rfl
      · rw [List.takeWhile_cons_of_pos (by simpa using hnl), List.dropWhile_cons_of_neg (by simpa using hc)]

/-! ### Words -/

@[simp] theorem quoted_nil (q : Bool) : quoted quote q [] = q := rfl

theorem quoted_append (q : Bool) (s t : List α) :
    quoted quote q (s ++ t) = quoted quote (quoted quote q s) t := List.foldl_append

theorem words_blank (hne : blank ≠ quote) (w t : List α) :
    words blank quote false w (blank :: t) = word w ++ words blank quote false [] t := by
  rw [words, if_neg hne, if_pos ⟨rfl, rfl⟩]

/-- At a blank outside quotes the words of the two sides are the words of the whole. -/
theorem words_append (hne : blank ≠ quote) {q : Bool} {s : List α} (h : quoted quote q s = false) (w t : List α) :
    words blank quote q w (s ++ blank :: t) =
      words blank quote q w (s ++ [blank]) ++ words blank quote false [] t := by
  induction s generalizing q w with
  | nil =>
    have hq : q = false := h
    rw [hq, List.nil_append, List.nil_append, words_blank hne, words_blank hne, words, word_nil, List.append_nil]
  | cons c s ih =>
    have hrest : quoted quote (if c = quote then !q else q) s = false := h
    rw [List.cons_append, List.cons_append, words, words]
    split_ifs with hquote hblank
    · rw [if_pos hquote] at hrest
      exact ih hrest _
    · rw [if_neg hquote, hblank.2] at hrest
      rw [ih hrest, List.append_assoc]
    · rw [if_neg hquote] at hrest
      exact ih hrest _

theorem words_dropWhile (hne : blank ≠ quote) (s : List α) :
    words blank quote false [] (s.dropWhile (· = blank)) = words blank quote false [] s := by
  induction s with
  | nil => rfl
  | cons c s ih =>
    by_cases hc : c = blank
    · rw [List.dropWhile_cons_of_pos (by simpa using hc), ih, hc, words_blank hne, word_nil, List.nil_append]
    · rw [List.dropWhile_cons_of_neg (by simpa using hc)]

theorem words_replicate (hne : blank ≠ quote) (n : Nat) (s : List α) :
    words blank quote false [] (List.replicate n blank ++ s) = words blank quote false [] s := by
  induction n with
  | zero => rfl
  | succ n ih => rw [List.replicate_succ, List.cons_append, words_blank hne, word_nil, List.nil_append, ih]

end Libc370.Words
