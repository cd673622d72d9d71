import Mathlib

/-! Tokens of a string (`internal/tok.h`).

A position in a string is what is left of it from there on, or NULL when the string is
used up. -/
namespace Libc370.Ext

variable {α : Type*} [DecidableEq α]

/-- The position behind the separator at the head, which becomes the token's NUL. -/
def behind : List α → Option (List α)
  | [] => none
  | _ :: s => some s

/-- `__tok()`: the token, and the position kept in `old`. -/
def tok (s2 : List α) : Option (List α) → Option (List α) × Option (List α)
  | none => (none, none)
  | some old =>
    let p := old.dropWhile (· ∈ s2)
    if p = [] then (none, none) else (some (p.takeWhile (· ∉ s2)), behind (p.dropWhile (· ∉ s2)))

/-- The loop over the tokens of a string, of at most `n` turns. -/
def tokens (s2 : List α) : Nat → Option (List α) → List (List α)
  | 0, _ => []
  | n + 1, old =>
    match tok s2 old with
    | (none, _) => []
    | (some p, old) => p :: tokens s2 n old

variable {s2 f w rest : List α}

/-- Separators, then a word that runs up to a separator or the end. -/
theorem tok_word (hf : ∀ c ∈ f, c ∈ s2) (hne : w ≠ []) (hw : ∀ c ∈ w, c ∉ s2) (hrest : ∀ c ∈ rest.head?, c ∈ s2) :
    tok s2 (some (f ++ (w ++ rest))) = (some w, behind rest) := by
  obtain ⟨c, w, rfl⟩ := List.exists_cons_of_ne_nil hne
  have hdrop : (f ++ (c :: w ++ rest)).dropWhile (· ∈ s2) = c :: w ++ rest := by
    rw [List.dropWhile_append_of_pos (by simpa using hf), List.cons_append, List.dropWhile_cons_of_neg]
    simpa using hw c List.mem_cons_self
  have hstop : rest.takeWhile (· ∉ s2) = [] ∧ rest.dropWhile (· ∉ s2) = rest := by
    cases rest with
    | nil => exact ⟨rfl, rfl⟩
    | cons d rest =>
      have hd : d ∈ s2 := hrest d rfl
      exact ⟨List.takeWhile_cons_of_neg (by simpa using hd), List.dropWhile_cons_of_neg (by simpa using hd)⟩
  have hall : ∀ x ∈ c :: w, decide (x ∉ s2) = true := by simpa using hw
  unfold tok
  dsimp only
  rw [hdrop, if_neg (by simp), List.takeWhile_append_of_pos hall, List.dropWhile_append_of_pos hall, hstop.1, hstop.2,
    List.append_nil]

/-- Separators alone. -/
theorem tok_nothing (hf : ∀ c ∈ f, c ∈ s2) : tok s2 (some f) = (none, none) := by
  have hdrop : f.dropWhile (· ∈ s2) = [] := List.dropWhile_eq_nil_iff.mpr (by simpa using hf)
  unfold tok
  dsimp only
  rw [hdrop, if_pos rfl]

/-- A word alone, without a separator. -/
theorem tok_alone (hne : w ≠ []) (hw : ∀ c ∈ w, c ∉ s2) : tok s2 (some w) = (some w, none) := by
  have hrest : ∀ c ∈ ([] : List α).head?, c ∈ s2 := fun c hc => by cases hc
  have hword := tok_word (f := []) (fun c hc => absurd hc List.not_mem_nil) hne hw hrest
  rwa [List.nil_append, List.append_nil] at hword

/-- Behind the last word there is no token. -/
theorem tok_behind (hf : ∀ c ∈ f, c ∈ s2) : tok s2 (behind f) = (none, none) := by
  cases f with
  | nil => rfl
  | cons d f => exact tok_nothing fun c hc => hf c (List.mem_cons_of_mem _ hc)

theorem tokens_of_none {old : Option (List α)} (h : tok s2 old = (none, none)) (n : Nat) : tokens s2 n old = [] := by
  cases n with
  | zero => rfl
  | succ n => rw [tokens, h]

/-- Words with a separator between them, and separators in front and behind. -/
theorem tokens_intercalate {c : α} (hc : c ∈ s2) {ws : List (List α)} (hne : ∀ w ∈ ws, w ≠ [])
    (hws : ∀ w ∈ ws, ∀ x ∈ w, x ∉ s2) (hf : ∀ x ∈ f, x ∈ s2) (hrest : ∀ x ∈ rest, x ∈ s2) {n : Nat}
    (hn : ws.length < n) :
    tokens s2 n (some (f ++ ([c].intercalate ws ++ rest))) = ws := by
  induction ws generalizing f n with
  | nil =>
    refine tokens_of_none (tok_nothing fun x hx => ?_) n
    exact (List.mem_append.mp hx).elim (hf x) (hrest x)
  | cons w ws ih =>
    obtain ⟨n, rfl⟩ : ∃ k, n = k + 1 := ⟨n - 1, by omega⟩
    have hwne := hne w List.mem_cons_self
    have hw := hws w List.mem_cons_self
    cases ws with
    | nil =>
      have htok := tok_word hf hwne hw fun x hx => hrest x (List.mem_of_mem_head? hx)
      rw [List.intercalate_singleton, tokens, htok]
      dsimp only
      rw [tokens_of_none (tok_behind hrest)]
    | cons v ws =>
      have htext : f ++ ([c].intercalate (w :: v :: ws) ++ rest) =
          f ++ (w ++ c :: ([] ++ ([c].intercalate (v :: ws) ++ rest))) := by
        rw [List.intercalate_cons_cons]
        simp only [List.append_assoc, List.nil_append, List.cons_append]
      have hhead : ∀ x ∈ (c :: ([] ++ ([c].intercalate (v :: ws) ++ rest))).head?, x ∈ s2 := by
        rintro x ⟨⟩
        exact hc
      rw [htext, tokens, tok_word hf hwne hw hhead]
      dsimp only
      rw [behind, ih (fun u hu => hne u (List.mem_cons_of_mem _ hu)) (fun u hu => hws u (List.mem_cons_of_mem _ hu))
        (fun x hx => absurd hx List.not_mem_nil) (Nat.lt_of_succ_lt_succ hn)]

/-- There is no token, or the first word of the text is the token. -/
theorem tok_cases (s2 t : List α) :
    (tok s2 (some t) = (none, none) ∧ ∀ c ∈ t, c ∈ s2) ∨
      ∃ f w r, t = f ++ (w ++ r) ∧ (∀ c ∈ f, c ∈ s2) ∧ w ≠ [] ∧ (∀ c ∈ w, c ∉ s2) ∧ (∀ c ∈ r.head?, c ∈ s2) ∧
        tok s2 (some t) = (some w, behind r) := by
  by_cases hall : ∀ c ∈ t, c ∈ s2
  · exact .inl ⟨tok_nothing hall, hall⟩
  · let p := t.dropWhile (· ∈ s2)
    have hp : p ≠ [] := by
      intro hnil
      refine hall fun c hc => ?_
      simpa using (List.dropWhile_eq_nil_iff.mp hnil) c hc
    have hhead : p.head hp ∉ s2 := by simpa using List.head_dropWhile_not (· ∈ s2) hp
    have htext : t = t.takeWhile (· ∈ s2) ++ (p.takeWhile (· ∉ s2) ++ p.dropWhile (· ∉ s2)) := by
      rw [List.takeWhile_append_dropWhile, List.takeWhile_append_dropWhile]
    have hf : ∀ c ∈ t.takeWhile (· ∈ s2), c ∈ s2 := fun c hc => by simpa using List.mem_takeWhile_imp hc
    have hw : ∀ c ∈ p.takeWhile (· ∉ s2), c ∉ s2 := fun c hc => by simpa using List.mem_takeWhile_imp hc
    have hne : p.takeWhile (· ∉ s2) ≠ [] := by
      rw [← List.cons_head_tail hp, List.takeWhile_cons_of_pos (by simpa using hhead)]
      exact List.cons_ne_nil _ _
    have hr : ∀ c ∈ (p.dropWhile (· ∉ s2)).head?, c ∈ s2 := by
      intro c hc
      have hnot := List.head?_dropWhile_not (· ∉ s2) p
      rw [hc] at hnot
      simpa using hnot
    refine .inr ⟨_, _, _, htext, hf, hne, hw, hr, ?_⟩
    have hfound := tok_word hf hne hw hr
    rwa [← htext] at hfound

end Libc370.Ext
