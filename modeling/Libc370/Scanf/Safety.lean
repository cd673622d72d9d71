import Libc370.Scanf.Lockstep

/-! How far `vvscanf()` looks at a string and at the format.

A string scan in lockstep with itself: no loop runs out of turns and `inch()` never
goes past the NUL of the input. Of the format it never reads past the NUL either, but
for one case: a conversion specification that ends behind its `%`, `*` and width.
The NUL is then taken for a conversion letter, and the common `format++` steps over it. -/
namespace Libc370.Scanf

open Stdio Loop

/-- A string source with `n` characters left, `c` the first of them: `s` is behind it. -/
structure StringAt (input : Bytes) (n : Nat) (c : Int) (s : Nat) : Prop where
  le : n ≤ input.length
  place : s = input.length - n + 1
  char : c = (input.getD (input.length - n) 0).toNat

variable {input : Bytes} {n : Nat} {c : Int} {s : Nat}

namespace StringAt

theorem inch (h : StringAt input (n + 1) c s) :
    ∃ c', (stringSource input).getc s = .ok (c', s + 1) ∧ StringAt input n c' (s + 1) := by
  have hle := h.le
  have hplace := h.place
  refine ⟨_, if_pos (by omega), by omega, by omega, ?_⟩
  rw [show s = input.length - n by omega]

theorem positive (h : StringAt input (n + 1) c s) (hnul : 0 ∉ input) : 0 < c ∧ c < 256 := by
  have hle := h.le
  have hlt : input.length - (n + 1) < input.length := by omega
  have hmem : input.getD (input.length - (n + 1)) 0 ∈ input := by
    rw [List.getD_eq_getElem _ _ hlt]
    exact List.getElem_mem hlt
  have hne : input.getD (input.length - (n + 1)) 0 ≠ 0 := fun h0 => hnul (h0 ▸ hmem)
  have hpos : (input.getD (input.length - (n + 1)) 0).toNat ≠ 0 :=
    fun h0 => hne (UInt8.toNat_inj.mp h0)
  have hbyte := (input.getD (input.length - (n + 1)) 0).toNat_lt
  rw [h.char]
  omega

theorem last (h : StringAt input 0 c s) : c = (stringSource input).last := by
  rw [h.char, Nat.sub_zero, List.getD_eq_default _ _ le_rfl]
  rfl

/-- The first `inch()`. -/
theorem start (input : Bytes) :
    ∃ c, (stringSource input).getc 0 = .ok (c, 1) ∧ StringAt input input.length c 1 := by
  have hget : (stringSource input).getc 0 = .ok ((input.getD 0 0).toNat, 1) := by
    simp [stringSource]
  refine ⟨_, hget, le_rfl, by omega, ?_⟩
  rw [Nat.sub_self]

end StringAt

/-- A string gives the same characters as itself. -/
theorem same_string (input : CString) :
    Same (stringSource input.1) (stringSource input.1) false
      (fun n c s d t => c = d ∧ s = t ∧ StringAt input.1 n c s) := by
  constructor
  case char =>
    rintro n c s d t ⟨rfl, rfl, h⟩
    exact ⟨rfl, h.positive input.2⟩
  case last =>
    rintro c s d t ⟨rfl, rfl, h⟩
    exact ⟨h.last, h.last⟩
  case inch =>
    rintro n c s d t ⟨rfl, rfl, h⟩
    obtain ⟨c', hget, h'⟩ := h.inch
    exact ⟨c', _, c', _, hget, hget, rfl, rfl, h'⟩
  case count =>
    rintro n c s d t ⟨rfl, rfl, -⟩ -
    rfl
  case countAhead =>
    rintro n c s d t - hahead
    exact absurd hahead Bool.false_ne_true

/-- A format that ends inside the conversion specification it opens with. -/
def EndsInside (f : Bytes) : Prop :=
  ∃ star width : Bytes, f = ebcdic '%' :: (star ++ width) ∧ (star = [] ∨ star = [ebcdic '*']) ∧
    ∀ c ∈ width, isdigit c.toNat = true

theorem Locals.endsInside_iff (s : Locals) : s.endsInside = true ↔ EndsInside s.format := by
  have hdrop : ∀ l : Bytes, l.dropWhile (isdigit ·.toNat) = [] ↔ ∀ c ∈ l, isdigit c.toNat = true :=
    fun l => List.dropWhile_eq_nil_iff
  unfold Locals.endsInside Locals.opened Locals.cur EndsInside
  rcases s.format with - | ⟨c, f⟩
  · simp [show (0 : UInt8) ≠ ebcdic '%' from by decide]
  by_cases hc : c = ebcdic '%'
  case neg => simp [hc]
  subst hc
  simp only [List.headD_cons, beq_self_eq_true, Bool.true_and, if_true, List.tail_cons, Locals.getwidth,
    List.isEmpty_iff, hdrop, List.cons.injEq, true_and]
  by_cases hstar : f.head? = some (ebcdic '*')
  · obtain ⟨f', rfl⟩ : ∃ f', f = ebcdic '*' :: f' := ⟨f.tail, (List.cons_head?_tail hstar).symm⟩
    simp only [List.head?_cons, if_true, List.tail_cons]
    constructor
    · exact fun hdigits => ⟨[ebcdic '*'], f', rfl, .inr rfl, hdigits⟩
    · rintro ⟨star, width, heq, rfl | rfl, hdigits⟩
      · -- a digit is no star
        have := hdigits (ebcdic '*') (by rw [← List.nil_append width, ← heq]; exact List.mem_cons_self ..)
        exact absurd this (by decide)
      · rw [List.singleton_append, List.cons.injEq] at heq
        exact heq.2 ▸ hdigits
  · simp only [hstar, if_false]
    constructor
    · exact fun hdigits => ⟨[], f, rfl, .inl rfl, hdigits⟩
    · rintro ⟨star, width, rfl, rfl | rfl, hdigits⟩
      · exact hdigits
      · exact absurd rfl hstar

/-- **A string scan reads neither the format nor the string past its NUL, and ends,**
exactly when it does not come to a specification that the format ends inside. -/
theorem vsscanf_safe_iff (input format : CString) (arg : Nat → Nat) :
    (vsscanf input format arg).fault = none ↔
      ∀ s ∈ scanTrail (stringSource input.1) arg (input.1.length + 1) format.1 0, ¬ EndsInside s.format := by
  obtain ⟨c, hget, hstart⟩ := StringAt.start input.1
  have hfirst : inch (stringSource input.1) (.start format.1 0) =
      .ok {Scan.start format.1 1 with ch := c} := by
    rw [inch, show (Scan.start format.1 0).src = 0 from rfl, hget]
    rfl
  have hrel : Rel (fun n c s d t => c = d ∧ s = t ∧ StringAt input.1 n c s) false format.1 input.1.length
      {Scan.start format.1 1 with ch := c} {Scan.start format.1 1 with ch := c} :=
    ⟨rfl, rfl, ⟨rfl, rfl, hstart⟩, rfl, by simp⟩
  have hfault := run_fault (same_string input) hrel format.2 (Nat.lt_succ_self _) (Nat.lt_succ_self _) arg
  simp only [vsscanf, vvscanf, scanTrail, hfirst, hfault, ← Locals.endsInside_iff]
  split
  · next hany =>
    obtain ⟨s, hmem, hends⟩ := List.any_eq_true.mp hany
    simp only [reduceCtorEq, false_iff, not_forall]
    exact ⟨s, hmem, fun hno => hno hends⟩
  · next hany =>
    simp only [true_iff]
    intro s hmem hends
    exact hany (List.any_eq_true.mpr ⟨s, hmem, hends⟩)

def emptyString : CString := ⟨[], by decide⟩

def lonePercent : CString := ⟨[ebcdic '%'], by decide⟩

/-- The scan goes on behind the NUL. -/
theorem lone_percent_passes_format : (vsscanf emptyString lonePercent id).fault = some .pastFormat := by
  decide

end Libc370.Scanf
