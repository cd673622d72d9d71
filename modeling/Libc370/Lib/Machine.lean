import Mathlib

/-! Machines that take an input and give an answer, and their runs.

A machine is its step function. `run` collects the answers of a list of inputs;
`final` is the state they leave. The two induction rules say what a whole run
preserves from what one step preserves: a plain invariant, and an invariant that
also sees the answers given so far. A machine that simulates another one step by step
gives the same answers in every run (`simulates`), or in the runs whose inputs may come
where they do (`simulates_along`); one whose steps a relation allows runs as the relation
allows (`follows_along`). -/
namespace Libc370.Machine

variable {σ ι ο : Type*} (step : σ → ι → ο × σ)

/-- The answers to a list of inputs, and the state after the last of them. -/
def run : σ → List ι → List ο × σ
  | s, [] => ([], s)
  | s, i :: rest =>
    let (o, s') := step s i
    let (os, s'') := run s' rest
    (o :: os, s'')

def answers (s : σ) (inputs : List ι) : List ο := (run step s inputs).1

def final (s : σ) (inputs : List ι) : σ := (run step s inputs).2

@[simp] theorem answers_nil (s : σ) : answers step s [] = [] := rfl

@[simp] theorem final_nil (s : σ) : final step s [] = s := rfl

@[simp] theorem answers_cons (s : σ) (i : ι) (rest : List ι) :
    answers step s (i :: rest) = (step s i).1 :: answers step (step s i).2 rest := rfl

@[simp] theorem final_cons (s : σ) (i : ι) (rest : List ι) :
    final step s (i :: rest) = final step (step s i).2 rest := rfl

theorem final_append (s : σ) (a b : List ι) :
    final step s (a ++ b) = final step (final step s a) b := by
  induction a generalizing s with
  | nil => rfl
  | cons i rest ih => exact ih _

theorem answers_append (s : σ) (a b : List ι) :
    answers step s (a ++ b) = answers step s a ++ answers step (final step s a) b := by
  induction a generalizing s with
  | nil => rfl
  | cons i rest ih => simp only [List.cons_append, answers_cons, final_cons, ih]

variable {step}

/-- What every step on the inputs preserves, the run preserves. -/
theorem final_invariant {Inv : σ → Prop} {inputs : List ι}
    (hstep : ∀ s, ∀ i ∈ inputs, Inv s → Inv (step s i).2) {s : σ} (h : Inv s) :
    Inv (final step s inputs) := by
  induction inputs generalizing s with
  | nil => exact h
  | cons i rest ih =>
    exact ih (fun s j hj => hstep s j (List.mem_cons_of_mem i hj)) (hstep s i (List.mem_cons_self ..) h)

/-- The same for an invariant that relates the state to the inputs and answers so far. -/
theorem history_invariant (Inv : List ι → List ο → σ → Prop)
    (hstep : ∀ is os s i, Inv is os s → Inv (is ++ [i]) (os ++ [(step s i).1]) (step s i).2)
    {s : σ} (h : Inv [] [] s) (inputs : List ι) :
    Inv inputs (answers step s inputs) (final step s inputs) := by
  have hgeneral : ∀ is os s, Inv is os s →
      Inv (is ++ inputs) (os ++ answers step s inputs) (final step s inputs) := by
    induction inputs with
    | nil => intro is os s h; simpa using h
    | cons i rest ih => intro is os s h; simpa using ih _ _ _ (hstep is os s i h)
  exact hgeneral [] [] s h

/-- Machines whose steps answer alike and keep a relation answer alike in every run. -/
theorem simulates {σ' : Type*} {step' : σ' → ι → ο × σ'} {R : σ → σ' → Prop}
    (hstep : ∀ s t i, R s t → (step s i).1 = (step' t i).1 ∧ R (step s i).2 (step' t i).2) {s : σ} {t : σ'} (h : R s t)
    (inputs : List ι) :
    answers step s inputs = answers step' t inputs ∧ R (final step s inputs) (final step' t inputs) := by
  induction inputs generalizing s t with
  | nil => exact ⟨rfl, h⟩
  | cons i rest ih =>
    obtain ⟨hanswer, hnext⟩ := hstep s t i h
    obtain ⟨hanswers, hfinal⟩ := ih hnext
    rw [answers_cons, answers_cons, hanswer, hanswers]
    exact ⟨rfl, hfinal⟩

section Along

variable (step) (Ok : σ → ι → Prop)

/-- Every input of the run is one that may come in the state it finds. -/
def Along : σ → List ι → Prop
  | _, [] => True
  | s, i :: rest => Ok s i ∧ Along (step s i).2 rest

variable {step Ok}

section Follows

variable {α : Type*} (Spec : α → ι → ο → α → Prop)

/-- A run as a specification allows it: what it is given, what it answers, and where it ends. -/
def Follows : α → List ι → List ο → α → Prop
  | a, [], [], b => a = b
  | a, i :: is, o :: os, b => ∃ c, Spec a i o c ∧ Follows c is os b
  | _, _, _, _ => False

variable {Spec}

/-- A machine whose steps are steps of a specification as a view of its states shows them
follows the specification in every run. -/
theorem follows_along {Inv : σ → Prop} (view : σ → α)
    (hstep : ∀ s i, Inv s → Ok s i → Spec (view s) i (step s i).1 (view (step s i).2) ∧ Inv (step s i).2) {s : σ}
    (h : Inv s) {inputs : List ι} (hinputs : Along step Ok s inputs) :
    Follows Spec (view s) inputs (answers step s inputs) (view (final step s inputs)) ∧ Inv (final step s inputs) := by
  induction inputs generalizing s with
  | nil => exact ⟨rfl, h⟩
  | cons i rest ih =>
    obtain ⟨hok, hrest⟩ := hinputs
    obtain ⟨hspec, hnext⟩ := hstep s i h hok
    obtain ⟨hfollows, hfinal⟩ := ih hnext hrest
    exact ⟨⟨_, hspec, hfollows⟩, hfinal⟩

end Follows

end Along

/-- The same where both machines need an input to be one that may come. -/
theorem simulates_along {σ' : Type*} {step' : σ' → ι → ο × σ'} {R : σ → σ' → Prop} {Ok : σ → ι → Prop}
    (hstep : ∀ s t i, R s t → Ok s i → (step s i).1 = (step' t i).1 ∧ R (step s i).2 (step' t i).2) {s : σ} {t : σ'}
    (h : R s t) {inputs : List ι} (hinputs : Along step Ok s inputs) :
    answers step s inputs = answers step' t inputs ∧ R (final step s inputs) (final step' t inputs) := by
  induction inputs generalizing s t with
  | nil => exact ⟨rfl, h⟩
  | cons i rest ih =>
    obtain ⟨hok, hrest⟩ := hinputs
    obtain ⟨hanswer, hnext⟩ := hstep s t i h hok
    obtain ⟨hanswers, hfinal⟩ := ih hnext hrest
    rw [answers_cons, answers_cons, hanswer, hanswers]
    exact ⟨rfl, hfinal⟩

end Libc370.Machine
