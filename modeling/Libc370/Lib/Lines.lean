import Libc370.Lib.Machine

/-! Cutting a stream of items into lines, and lines into pieces of a bounded size.

A `Token` is an item or a stop. A hard stop ends a line even if nothing is on it;
a soft one does so only if something is. `lines` is the list of lines a token
list has ended, with the line it leaves open, and `pieces cap` cuts one line
after every `cap` items. A writer with a buffer of `cap` items does not see lines:
it is the machine `feed`, which sends the buffer off when it is full or when a stop
comes. Both come to the same (`feed_lines`), and nothing is lost, doubled or put in
another order (`sent_flatten`). -/
namespace Libc370.Lines

inductive Token (α : Type*)
  | item (x : α)
  | stop (hard : Bool)

variable {α : Type*}

/-- A line cut after every `cap` items; an empty line is one empty piece. -/
def pieces (cap : Nat) (line : List α) : List (List α) :=
  if cap = 0 ∨ line.length ≤ cap then [line]
  else line.take cap :: pieces cap (line.drop cap)
termination_by line.length
decreasing_by simp only [List.length_drop]; omega

/-- The lines ended so far, each with the kind of its stop, and the line still open. -/
structure Cut (α : Type*) where
  ended : List (List α × Bool)
  current : List α

def Cut.next (s : Cut α) : Token α → Cut α
  | .item x => ⟨s.ended, s.current ++ [x]⟩
  | .stop hard => ⟨s.ended ++ [(s.current, hard)], []⟩

def lines (tokens : List (Token α)) : Cut α := tokens.foldl Cut.next ⟨[], []⟩

/-- The pieces of a line that a stop has ended. -/
def endedPieces (cap : Nat) (line : List α × Bool) : List (List α) :=
  if line.1 = [] ∧ line.2 = false then [] else pieces cap line.1

/-- The pieces sent off: those of the ended lines, and the full ones of the open line. -/
def sent (cap : Nat) (s : Cut α) : List (List α) :=
  s.ended.flatMap (endedPieces cap) ++ (pieces cap s.current).dropLast

/-- The last piece of the open line: what a buffer of `cap` items holds. -/
def held (cap : Nat) (s : Cut α) : List α := (pieces cap s.current).getLast?.getD []

/-- A writer that holds at most `cap` items: what it sends off, and what it then holds. -/
def feed (cap : Nat) (held : List α) : Token α → List (List α) × List α
  | .item x => if held.length = cap then ([held], [x]) else ([], held ++ [x])
  | .stop hard => if held.length = 0 ∧ hard = false then ([], []) else ([held], [])

/-- The items of a token list. -/
def items (tokens : List (Token α)) : List α :=
  tokens.filterMap fun | .item x => some x | .stop _ => none

theorem items_append (a b : List (Token α)) : items (a ++ b) = items a ++ items b :=
  List.filterMap_append

theorem items_flatMap {β : Type*} (f : β → List (Token α)) (l : List β) :
    items (l.flatMap f) = l.flatMap (fun x => items (f x)) := by
  induction l with
  | nil => rfl
  | cons x rest ih => rw [List.flatMap_cons, List.flatMap_cons, items_append, ih]

@[simp] theorem lines_nil : lines ([] : List (Token α)) = ⟨[], []⟩ := rfl

theorem lines_append (a b : List (Token α)) : lines (a ++ b) = b.foldl Cut.next (lines a) :=
  List.foldl_append

@[simp] theorem lines_concat (tokens : List (Token α)) (t : Token α) :
    lines (tokens ++ [t]) = (lines tokens).next t := by
  rw [lines_append]
  rfl

/-! ### Pieces -/

variable {cap : Nat}

theorem pieces_short {line : List α} (h : line.length ≤ cap) : pieces cap line = [line] := by
  rw [pieces, if_pos (.inr h)]

theorem pieces_long {line : List α} (hcap : 0 < cap) (h : cap < line.length) :
    pieces cap line = line.take cap :: pieces cap (line.drop cap) := by
  rw [pieces, if_neg (by omega)]

theorem pieces_ne_nil (line : List α) : pieces cap line ≠ [] := by
  rw [pieces]
  split <;> exact List.cons_ne_nil _ _

/-- No piece is longer than `cap`, and only the last may be shorter. -/
theorem length_of_mem_pieces (hcap : 0 < cap) {line piece : List α} (h : piece ∈ pieces cap line) :
    piece.length ≤ cap := by
  by_cases hline : line.length ≤ cap
  · rw [pieces_short hline, List.mem_singleton] at h
    rw [h]
    exact hline
  · have hshorter : (line.drop cap).length < line.length := by rw [List.length_drop]; omega
    rw [pieces_long hcap (by omega), List.mem_cons] at h
    rcases h with rfl | h
    · exact List.length_take_le _ _
    · exact length_of_mem_pieces hcap h
termination_by line.length

/-- One more item goes into the last piece, or starts a new one when that is full. -/
theorem pieces_concat (hcap : 0 < cap) (line : List α) (x : α) :
    pieces cap (line ++ [x]) =
      if ((pieces cap line).getLast?.getD []).length = cap then pieces cap line ++ [[x]]
      else (pieces cap line).dropLast ++ [(pieces cap line).getLast?.getD [] ++ [x]] := by
  by_cases hline : line.length ≤ cap
  · rw [pieces_short hline]
    simp only [List.getLast?_singleton, Option.getD_some, List.dropLast_singleton, List.nil_append,
      List.cons_append]
    split
    · next hfull =>
      have hone : ([x] : List α).length ≤ cap := by rw [List.length_singleton]; exact hcap
      rw [pieces_long hcap (by rw [List.length_append, List.length_singleton]; omega), ← hfull,
        List.take_left, List.drop_left, hfull, pieces_short hone]
    · exact pieces_short (by rw [List.length_append, List.length_singleton]; omega)
  · have hshorter : (line.drop cap).length < line.length := by rw [List.length_drop]; omega
    have hcut : pieces cap line = line.take cap :: pieces cap (line.drop cap) :=
      pieces_long hcap (by omega)
    have hlong : pieces cap (line ++ [x]) = line.take cap :: pieces cap (line.drop cap ++ [x]) := by
      rw [pieces_long hcap (by rw [List.length_append]; omega), List.take_append_of_le_length (by omega),
        List.drop_append_of_le_length (by omega)]
    rw [hlong, pieces_concat hcap (line.drop cap) x, hcut,
      List.getLast?_cons_of_ne_nil (pieces_ne_nil _), List.dropLast_cons_of_ne_nil (pieces_ne_nil _)]
    split <;> rfl
termination_by line.length

/-- Only an empty line ends in an empty piece. -/
theorem getLast_pieces_eq_nil (hcap : 0 < cap) {line : List α}
    (h : (pieces cap line).getLast?.getD [] = []) : line = [] := by
  by_cases hline : line.length ≤ cap
  · rwa [pieces_short hline] at h
  · have hshorter : (line.drop cap).length < line.length := by rw [List.length_drop]; omega
    rw [pieces_long hcap (by omega), List.getLast?_cons_of_ne_nil (pieces_ne_nil _)] at h
    have hnil := getLast_pieces_eq_nil hcap h
    have hlen := congrArg List.length hnil
    rw [List.length_drop, List.length_nil] at hlen
    omega
termination_by line.length

/-! ### What is sent off and what is held -/

theorem sent_held (s : Cut α) :
    (pieces cap s.current).dropLast ++ [held cap s] = pieces cap s.current := by
  have hne : pieces cap s.current ≠ [] := pieces_ne_nil _
  rw [held, List.getLast?_eq_some_getLast hne, Option.getD_some]
  exact List.dropLast_append_getLast hne

theorem held_eq_nil_iff (hcap : 0 < cap) (s : Cut α) : held cap s = [] ↔ s.current = [] := by
  constructor
  · exact getLast_pieces_eq_nil hcap
  · intro h
    rw [held, h, pieces_short (Nat.zero_le _)]
    rfl

/-- An item goes to what is held, which is sent off first if there is no room. -/
theorem held_item (hcap : 0 < cap) (s : Cut α) (x : α) :
    held cap (s.next (.item x)) = if (held cap s).length = cap then [x] else held cap s ++ [x] := by
  have hpush := pieces_concat hcap s.current x
  rw [← held] at hpush
  show (pieces cap (s.current ++ [x])).getLast?.getD [] = _
  rw [hpush]
  split <;> simp

theorem sent_item (hcap : 0 < cap) (s : Cut α) (x : α) :
    sent cap (s.next (.item x)) =
      if (held cap s).length = cap then sent cap s ++ [held cap s] else sent cap s := by
  have hpush := pieces_concat hcap s.current x
  simp only [sent, Cut.next, hpush]
  rw [← held]
  split
  · rw [List.dropLast_concat, List.append_assoc, sent_held]
  · rw [List.dropLast_concat]

/-- A stop sends off what is held; a soft one only if something is. -/
theorem held_stop (s : Cut α) (hard : Bool) : held cap (s.next (.stop hard)) = [] := by
  rw [held, Cut.next, pieces_short (Nat.zero_le _)]
  rfl

theorem sent_stop (hcap : 0 < cap) (s : Cut α) (hard : Bool) :
    sent cap (s.next (.stop hard)) =
      if held cap s = [] ∧ hard = false then sent cap s else sent cap s ++ [held cap s] := by
  have hempty : (pieces cap ([] : List α)).dropLast = [] := by
    rw [pieces_short (Nat.zero_le _)]
    rfl
  simp only [sent, Cut.next, hempty, List.append_nil, List.flatMap_append, List.flatMap_singleton,
    endedPieces, held_eq_nil_iff hcap]
  split
  · next h =>
    rw [h.1, hempty]
  · rw [List.append_assoc, sent_held]

/-- Nothing longer than the buffer is sent off. -/
theorem length_of_mem_sent (hcap : 0 < cap) {s : Cut α} {piece : List α} (h : piece ∈ sent cap s) :
    piece.length ≤ cap := by
  rcases List.mem_append.mp h with h | h
  · obtain ⟨line, -, hmem⟩ := List.mem_flatMap.mp h
    unfold endedPieces at hmem
    split at hmem
    · exact absurd hmem List.not_mem_nil
    · exact length_of_mem_pieces hcap hmem
  · exact length_of_mem_pieces hcap (List.mem_of_mem_dropLast h)

/-- The writer sends off the pieces of the lines and holds the end of the open one. -/
theorem feed_lines (hcap : 0 < cap) (tokens : List (Token α)) :
    (Machine.answers (feed cap) [] tokens).flatten = sent cap (lines tokens) ∧
      Machine.final (feed cap) [] tokens = held cap (lines tokens) := by
  induction tokens using List.reverseRecOn with
  | nil =>
    have hnil : pieces cap ([] : List α) = [[]] := pieces_short (Nat.zero_le _)
    simp [sent, held, hnil]
  | append_singleton tokens t ih =>
    rw [lines_concat, Machine.answers_append, Machine.final_append, List.flatten_append, ih.1, ih.2]
    simp only [Machine.answers_cons, Machine.answers_nil, Machine.final_cons, Machine.final_nil,
      List.flatten_cons, List.flatten_nil, List.append_nil]
    cases t with
    | item x =>
      rw [sent_item hcap, held_item hcap]
      simp only [feed]
      split <;> simp
    | stop hard =>
      rw [sent_stop hcap, held_stop]
      simp only [feed, List.length_eq_zero_iff]
      split <;> simp

/-- Sent off and held are the items, in order and once each. -/
theorem sent_flatten (hcap : 0 < cap) (tokens : List (Token α)) :
    (sent cap (lines tokens)).flatten ++ held cap (lines tokens) = items tokens := by
  induction tokens using List.reverseRecOn with
  | nil =>
    have hnil : pieces cap ([] : List α) = [[]] := pieces_short (Nat.zero_le _)
    simp [sent, held, hnil, items]
  | append_singleton tokens t ih =>
    rw [lines_concat]
    cases t with
    | item x =>
      have hitems : items (tokens ++ [.item x]) = items tokens ++ [x] := by simp [items]
      rw [sent_item hcap, held_item hcap, hitems, ← ih]
      split <;> simp
    | stop hard =>
      have hitems : items (tokens ++ [.stop hard]) = items tokens := by simp [items]
      rw [sent_stop hcap, held_stop, hitems, ← ih]
      split
      · next h => rw [h.1]
      · simp

/-! ### Lines of a bounded length -/

/-- The lines with the open one, which nothing has ended. -/
def Cut.all (s : Cut α) : List (List α × Bool) := s.ended ++ [(s.current, false)]

/-- Lines that come to a piece at all are shorter than `m`. -/
def Cut.Under (m : Nat) (s : Cut α) : Prop :=
  ∀ line ∈ s.all, line.1 ≠ [] ∨ line.2 = true → line.1.length < m

/-- A line only grows, so lines that end up under a bound were so before. -/
theorem Cut.Under.of_next {m : Nat} {s : Cut α} {t : Token α} (h : (s.next t).Under m) : s.Under m := by
  intro line hline hpiece
  rcases List.mem_append.mp hline with hended | hopen
  · refine h line (List.mem_append_left _ ?_) hpiece
    cases t with
    | item x => exact hended
    | stop hard => exact List.mem_append_left _ hended
  · obtain rfl := List.mem_singleton.mp hopen
    have hne : s.current ≠ [] := hpiece.resolve_right (by simp)
    cases t with
    | item x =>
      have hnext := h (s.current ++ [x], false) (List.mem_append_right _ (List.mem_singleton_self _))
        (.inl (by simp))
      rw [List.length_append] at hnext
      exact (Nat.le_add_right _ _).trans_lt hnext
    | stop hard =>
      exact h (s.current, hard) (List.mem_append_left _ (List.mem_append_right _ (List.mem_singleton_self _)))
        (.inl hne)

theorem Cut.Under.of_foldl {m : Nat} {tokens : List (Token α)} {s : Cut α}
    (h : (tokens.foldl Cut.next s).Under m) : s.Under m := by
  induction tokens generalizing s with
  | nil => exact h
  | cons t rest ih => exact (ih h).of_next

/-- Pieces are under a bound that is not above the buffer's exactly when the line is: the first
piece of a longer line is too long. -/
theorem forall_pieces_lt {m : Nat} (hm : m ≤ cap) (line : List α) :
    (∀ piece ∈ pieces cap line, piece.length < m) ↔ line.length < m := by
  by_cases hline : cap = 0 ∨ line.length ≤ cap
  · rw [pieces, if_pos hline, List.forall_mem_singleton]
  · rw [pieces_long (by omega) (by omega), List.forall_mem_cons, List.length_take]
    exact iff_of_false (fun h => by omega) (by omega)

/-- What is sent off when a last stop comes is under such a bound exactly when the lines are. -/
theorem forall_sent_lt {m : Nat} (hm : m ≤ cap) (s : Cut α) :
    (∀ piece ∈ sent cap (s.next (.stop false)), piece.length < m) ↔ s.Under m := by
  have hempty : (pieces cap ([] : List α)).dropLast = [] := by
    rw [pieces_short (Nat.zero_le _)]
    rfl
  have hall : sent cap (s.next (.stop false)) = s.all.flatMap (endedPieces cap) := by
    rw [sent, Cut.next, hempty, List.append_nil]
    rfl
  rw [hall]
  simp only [List.mem_flatMap, forall_exists_index, and_imp]
  have hline : ∀ line : List α × Bool, (∀ piece ∈ endedPieces cap line, piece.length < m) ↔
      (line.1 ≠ [] ∨ line.2 = true → line.1.length < m) := by
    intro line
    unfold endedPieces
    by_cases hnone : line.1 = [] ∧ line.2 = false
    · rw [if_pos hnone]
      exact iff_of_true (by simp) fun h => by simp [hnone] at h
    · rw [if_neg hnone, forall_pieces_lt hm, imp_iff_right]
      by_contra hc
      exact hnone (by simpa using hc)
  exact ⟨fun h line hmem => (hline line).mp fun piece hp => h piece line hmem hp,
    fun h piece line hmem hp => (hline line).mpr (h line hmem) piece hp⟩

end Libc370.Lines
