import Mathlib

/-! Runs of a system of several parties, and what holds in all their states.

`next` says what an action does; an action that is not possible in a state is not taken
there, so every list of actions is a schedule, and every interleaving is one. `states`
lists the states of a run, `visits` the actions taken, each with the state it was taken
in. An invariant that the good steps keep and the others break at once makes the two
sides of a claim about runs meet: all states are good exactly when all steps are
(`always_iff`). -/
namespace Libc370.Runs

variable {σ ι : Type*} (next : σ → ι → Option σ)

/-- The states of a run, the first and the last included. -/
def states : σ → List ι → List σ
  | s, [] => [s]
  | s, i :: rest => s :: states ((next s i).getD s) rest

/-- The actions taken, each behind the state it was taken in. -/
def visits : σ → List ι → List (σ × ι)
  | _, [] => []
  | s, i :: rest =>
    match next s i with
    | some t => (s, i) :: visits t rest
    | none => visits s rest

/-- The state a run ends in. -/
def final : σ → List ι → σ
  | s, [] => s
  | s, i :: rest => final ((next s i).getD s) rest

variable {next}

theorem mem_states_self (s : σ) (is : List ι) : s ∈ states next s is := by
  cases is <;> exact List.mem_cons_self

theorem final_mem_states (s : σ) (is : List ι) : final next s is ∈ states next s is := by
  induction is generalizing s with
  | nil => exact List.mem_cons_self
  | cons i rest ih => exact List.mem_cons_of_mem _ (ih _)

/-- What the good steps keep holds in all states of a run of good steps. -/
theorem always {Inv : σ → Prop} {Meets : σ → ι → Prop} (hstep : ∀ s i t, Inv s → next s i = some t → Meets s i → Inv t)
    {s : σ} (h : Inv s) (is : List ι) (hmeets : ∀ v ∈ visits next s is, Meets v.1 v.2) :
    ∀ t ∈ states next s is, Inv t := by
  induction is generalizing s with
  | nil => exact List.forall_mem_singleton.mpr h
  | cons i rest ih =>
    rw [visits] at hmeets
    refine List.forall_mem_cons.mpr ⟨h, ?_⟩
    cases hi : next s i with
    | none =>
      rw [hi] at hmeets
      exact ih h hmeets
    | some t =>
      rw [hi] at hmeets
      obtain ⟨hm, hrest⟩ := List.forall_mem_cons.mp hmeets
      exact ih (hstep s i t h hi hm) hrest

/-- All states of a run are good exactly when all its steps meet the condition. -/
theorem always_iff {Inv Good : σ → Prop} {Meets : σ → ι → Prop} (hgood : ∀ s, Inv s → Good s)
    (hmeets : ∀ s i t, Inv s → next s i = some t → Meets s i → Inv t)
    (hbreaks : ∀ s i t, Inv s → next s i = some t → ¬ Meets s i → ¬ Good t) {s : σ} (h : Inv s) (is : List ι) :
    (∀ t ∈ states next s is, Good t) ↔ ∀ v ∈ visits next s is, Meets v.1 v.2 := by
  induction is generalizing s with
  | nil => exact iff_of_true (List.forall_mem_singleton.mpr (hgood s h)) (fun v hv => absurd hv List.not_mem_nil)
  | cons i rest ih =>
    rw [states, visits, List.forall_mem_cons, and_iff_right (hgood s h)]
    cases hi : next s i with
    | none => exact ih h
    | some t =>
      rw [Option.getD_some, List.forall_mem_cons]
      by_cases hm : Meets s i
      · rw [and_iff_right hm]
        exact ih (hmeets s i t h hi hm)
      · refine iff_of_false (fun hall => ?_) (fun hall => hm hall.1)
        exact hbreaks s i t h hi hm (hall t (mem_states_self t rest))

end Libc370.Runs
