import Mathlib

/-! Numbers kept as limbs.

A number in base `B` is the list of its limbs, the lowest first, and `Nat.ofDigits`
is its value. Addition carries and subtraction borrows from limb to limb; either is
right modulo the base to the number of limbs. -/
namespace Libc370.Limbs

open Nat (ofDigits)

variable (B : Nat)

/-- `xs + ys + carry`, limb by limb; the last carry is lost. -/
def add : List Nat → List Nat → Nat → List Nat
  | x :: xs, y :: ys, carry =>
    let t := x + y + carry
    t % B :: add xs ys (if B ≤ t then 1 else 0)
  | _, _, _ => []

/-- `xs - ys - borrow`, limb by limb; the last borrow is lost. -/
def sub : List Nat → List Nat → Nat → List Nat
  | x :: xs, y :: ys, borrow =>
    let t := x + B - (y + borrow)
    t % B :: sub xs ys (if t < B then 1 else 0)
  | _, _, _ => []

variable {B}

/-- A limb and a carry: the number they are together. -/
theorem carry_eq (t : Nat) (h : t < 2 * B) : t % B + B * (if B ≤ t then 1 else 0) = t := by
  split
  · next hle =>
    rw [Nat.mod_eq_sub_mod hle, Nat.mod_eq_of_lt (by omega)]
    omega
  · next hlt => rw [Nat.mod_eq_of_lt (by omega), Nat.mul_zero, Nat.add_zero]

/-- Adding is right but for the carry out of the highest limb. -/
theorem add_value {xs ys : List Nat} (carry : Nat) (hlen : xs.length = ys.length)
    (hxs : ∀ x ∈ xs, x < B) (hys : ∀ y ∈ ys, y < B) (hc : carry ≤ 1) :
    ∃ out ≤ 1, ofDigits B (add B xs ys carry) + B ^ xs.length * out =
      ofDigits B xs + ofDigits B ys + carry := by
  induction xs generalizing ys carry with
  | nil =>
    obtain rfl := List.length_eq_zero_iff.mp hlen.symm
    exact ⟨carry, hc, by simp [add]⟩
  | cons x xs ih =>
    obtain ⟨y, ys, rfl⟩ := List.exists_cons_of_length_eq_add_one hlen.symm
    have hx := hxs x (List.mem_cons_self ..)
    have hy := hys y (List.mem_cons_self ..)
    have hcarry := carry_eq (x + y + carry) (show x + y + carry < 2 * B by omega)
    obtain ⟨out, hout, heq⟩ := ih (if B ≤ x + y + carry then 1 else 0) (by simpa using hlen)
      (fun z hz => hxs z (List.mem_cons_of_mem x hz)) (fun z hz => hys z (List.mem_cons_of_mem y hz))
      (by split <;> omega)
    refine ⟨out, hout, ?_⟩
    simp only [add, Nat.ofDigits_cons, List.length_cons, pow_succ']
    generalize (if B ≤ x + y + carry then 1 else 0) = k at hcarry heq ⊢
    calc (x + y + carry) % B + B * ofDigits B (add B xs ys k) + B * B ^ xs.length * out
        = (x + y + carry) % B + B * (ofDigits B (add B xs ys k) + B ^ xs.length * out) := by ring
      _ = ((x + y + carry) % B + B * k) + B * (ofDigits B xs + ofDigits B ys) := by rw [heq]; ring
      _ = _ := by rw [hcarry]; ring

/-- Subtracting is right but for the borrow into the highest limb. -/
theorem sub_value {xs ys : List Nat} (borrow : Nat) (hlen : xs.length = ys.length)
    (hxs : ∀ x ∈ xs, x < B) (hys : ∀ y ∈ ys, y < B) (hb : borrow ≤ 1) :
    ∃ out ≤ 1, ofDigits B (sub B xs ys borrow) + ofDigits B ys + borrow =
      ofDigits B xs + B ^ xs.length * out := by
  induction xs generalizing ys borrow with
  | nil =>
    obtain rfl := List.length_eq_zero_iff.mp hlen.symm
    exact ⟨borrow, hb, by simp [sub]⟩
  | cons x xs ih =>
    obtain ⟨y, ys, rfl⟩ := List.exists_cons_of_length_eq_add_one hlen.symm
    have hx := hxs x (List.mem_cons_self ..)
    have hy := hys y (List.mem_cons_self ..)
    have hlimb : (x + B - (y + borrow)) % B + (y + borrow) =
        x + B * (if x + B - (y + borrow) < B then 1 else 0) := by
      split
      · next hlt => rw [Nat.mod_eq_of_lt hlt]; omega
      · next hge =>
        rw [Nat.mod_eq_sub_mod (by omega), Nat.mod_eq_of_lt (by omega)]
        omega
    obtain ⟨out, hout, heq⟩ := ih (if x + B - (y + borrow) < B then 1 else 0) (by simpa using hlen)
      (fun z hz => hxs z (List.mem_cons_of_mem x hz)) (fun z hz => hys z (List.mem_cons_of_mem y hz))
      (by split <;> omega)
    refine ⟨out, hout, ?_⟩
    simp only [sub, Nat.ofDigits_cons, List.length_cons, pow_succ']
    generalize (if x + B - (y + borrow) < B then 1 else 0) = k at hlimb heq ⊢
    calc (x + B - (y + borrow)) % B + B * ofDigits B (sub B xs ys k) + (y + B * ofDigits B ys) + borrow
        = ((x + B - (y + borrow)) % B + (y + borrow)) +
            B * (ofDigits B (sub B xs ys k) + ofDigits B ys) := by ring
      _ = x + B * (ofDigits B (sub B xs ys k) + ofDigits B ys + k) := by rw [hlimb]; ring
      _ = _ := by rw [heq]; ring

end Libc370.Limbs
