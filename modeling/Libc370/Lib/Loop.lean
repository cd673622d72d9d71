import Mathlib

/-! `while` loops, and two of them in lockstep.

A loop is its body: one turn either goes round again or leaves with a result.
`run` gives it a number of turns and answers `stuck` when they are used up, and
`trail` lists the states the turns start from. The rules say what a rank that
falls with every turn is good for: the loop leaves, and what holds of its turns
holds of its result. Two loops whose turns stay related leave together. -/
namespace Libc370.Loop

/-- What one turn of a loop's body comes to. -/
inductive Turn (σ ρ : Type*)
  | again (s : σ)
  | leave (r : ρ)

variable {σ τ ρ ρ' : Type*}

/-- At most `k` turns from `s`. -/
def run (stuck : σ → ρ) (body : σ → Turn σ ρ) : Nat → σ → ρ
  | 0, s => stuck s
  | k + 1, s =>
    match body s with
    | .again s' => run stuck body k s'
    | .leave r => r

/-- The states in which a turn starts, in order. -/
def trail (body : σ → Turn σ ρ) : Nat → σ → List σ
  | 0, _ => []
  | k + 1, s =>
    match body s with
    | .again s' => s :: trail body k s'
    | .leave _ => [s]

variable {stuck : σ → ρ} {body : σ → Turn σ ρ} {stuck' : τ → ρ'} {body' : τ → Turn τ ρ'}

theorem run_again {s s' : σ} (h : body s = .again s') (k : Nat) :
    run stuck body (k + 1) s = run stuck body k s' := by
  rw [run, h]

theorem run_leave {s : σ} {r : ρ} (h : body s = .leave r) (k : Nat) :
    run stuck body (k + 1) s = r := by
  rw [run, h]

/-- A loop with a falling rank leaves, and with a result its last turn gives. -/
theorem run_rank (P : Nat → σ → Prop) (Q : ρ → Prop)
    (hstep : ∀ n s, P n s → (∃ s' m, body s = .again s' ∧ m < n ∧ P m s') ∨ ∃ r, body s = .leave r ∧ Q r)
    {n k : Nat} {s : σ} (h : P n s) (hk : n < k) : Q (run stuck body k s) := by
  induction k generalizing n s with
  | zero => omega
  | succ k ih =>
    rcases hstep n s h with ⟨s', m, hs, hm, hP⟩ | ⟨r, hs, hQ⟩
    · rw [run_again hs]
      exact ih hP (by omega)
    · rw [run_leave hs]
      exact hQ

/-- What every turn keeps holds of the result, even of a loop that is stuck. -/
theorem run_keeps (P : σ → Prop) (Q : ρ → Prop) (hstuck : ∀ s, P s → Q (stuck s))
    (hagain : ∀ s s', P s → body s = .again s' → P s') (hleave : ∀ s r, P s → body s = .leave r → Q r)
    {s : σ} (h : P s) (k : Nat) : Q (run stuck body k s) := by
  induction k generalizing s with
  | zero => exact hstuck s h
  | succ k ih =>
    cases hs : body s with
    | again s' =>
      rw [run_again hs]
      exact ih (hagain s s' h hs)
    | leave r =>
      rw [run_leave hs]
      exact hleave s r h hs

/-- A relation between where a loop starts, its trail and its result, turn by turn from
the last one back. -/
theorem run_history (P : Nat → σ → Prop) (R : σ → List σ → ρ → Prop)
    (hstep : ∀ n s, P n s →
      (∃ s' m, body s = .again s' ∧ m < n ∧ P m s' ∧ ∀ t r, R s' t r → R s (s :: t) r) ∨
        ∃ r, body s = .leave r ∧ R s [s] r)
    {n k : Nat} {s : σ} (h : P n s) (hk : n < k) : R s (trail body k s) (run stuck body k s) := by
  induction k generalizing n s with
  | zero => omega
  | succ k ih =>
    rcases hstep n s h with ⟨s', m, hs, hm, hP, hR⟩ | ⟨r, hs, hR⟩
    · rw [run_again hs, trail, hs]
      exact hR _ _ (ih hP (by omega))
    · rw [run_leave hs, trail, hs]
      exact hR

/-- Two turns that do the same: both go round, or both leave. -/
inductive Turn.Both (R : σ → τ → Prop) (Q : ρ → ρ' → Prop) : Turn σ ρ → Turn τ ρ' → Prop
  | again {s : σ} {t : τ} (h : R s t) : Turn.Both R Q (.again s) (.again t)
  | leave {r : ρ} {r' : ρ'} (h : Q r r') : Turn.Both R Q (.leave r) (.leave r')

theorem Turn.Both.mono {R R' : σ → τ → Prop} {Q Q' : ρ → ρ' → Prop} {x : Turn σ ρ} {y : Turn τ ρ'}
    (h : Turn.Both R Q x y) (hR : ∀ s t, R s t → R' s t) (hQ : ∀ r r', Q r r' → Q' r r') :
    Turn.Both R' Q' x y := by
  cases h with
  | again h => exact .again (hR _ _ h)
  | leave h => exact .leave (hQ _ _ h)

/-- **Lockstep.** Loops whose turns stay related leave together. `mark` picks out
turns of the first loop; the relation may depend on one of them having been met. -/
theorem run_lockstep (R : Bool → Nat → σ → τ → Prop) (Q : Bool → ρ → ρ' → Prop) (mark : σ → Bool)
    (hstep : ∀ b n s t, R b n s t →
      Turn.Both (fun s' t' => ∃ m < n, R (b || mark s) m s' t') (Q (b || mark s)) (body s) (body' t))
    (b : Bool) {n k l : Nat} {s : σ} {t : τ} (h : R b n s t) (hk : n < k) (hl : n < l) :
    Q (b || (trail body k s).any mark) (run stuck body k s) (run stuck' body' l t) := by
  induction k generalizing b n l s t with
  | zero => omega
  | succ k ih =>
    obtain ⟨l, rfl⟩ : ∃ l', l = l' + 1 := ⟨l - 1, by omega⟩
    have hturn := hstep b n s t h
    revert hturn
    simp only [run, trail]
    cases body s with
    | again s' =>
      cases body' t with
      | again t' =>
        intro hboth
        cases hboth with
        | again hR =>
          obtain ⟨m, hm, hR⟩ := hR
          rw [List.any_cons, ← Bool.or_assoc]
          exact ih _ hR (by omega) (by omega)
      | leave r' => intro hboth; cases hboth
    | leave r =>
      cases body' t with
      | again t' => intro hboth; cases hboth
      | leave r' =>
        intro hboth
        cases hboth with
        | leave hQ =>
          rw [List.any_cons, List.any_nil, Bool.or_false]
          exact hQ

end Libc370.Loop
