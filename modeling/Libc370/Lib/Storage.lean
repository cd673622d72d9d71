import Mathlib

/-! Storage that is asked for and given back.

A block is named after the request that got it, and a schedule says which requests are
granted. A program owns the blocks it has got and not given back; when it owns none, all
that was got has been given back, each block once (`Owns.settled`). -/
namespace Libc370.Storage

/-- The requests made so far, and the blocks got and given back, in order. -/
structure Store where
  asked : Nat
  got : List Nat
  freed : List Nat

def Store.empty : Store := ⟨0, [], []⟩

/-- A request for storage: the block, if it is granted. -/
def request (grant : Nat → Bool) (s : Store) : Option Nat × Store :=
  if grant s.asked then (some s.asked, ⟨s.asked + 1, s.got ++ [s.asked], s.freed⟩)
  else (none, ⟨s.asked + 1, s.got, s.freed⟩)

/-- A block given back. -/
def release (s : Store) (b : Nat) : Store := ⟨s.asked, s.got, s.freed ++ [b]⟩

@[simp] theorem release_asked (s : Store) (b : Nat) : (release s b).asked = s.asked := rfl

/-- All storage was given back, and nothing was given back twice. -/
structure Settled (s : Store) : Prop where
  once : s.freed.Nodup
  all : s.freed.Perm s.got

/-- A request was refused. -/
def Refused (grant : Nat → Bool) (s : Store) : Prop := ∃ i < s.asked, grant i = false

/-- The blocks got and not given back. -/
structure Owns (s : Store) (live : List Nat) : Prop where
  account : s.got.Perm (s.freed ++ live)
  nodup : s.got.Nodup
  asked : ∀ b ∈ s.got, b < s.asked

variable {grant : Nat → Bool} {s : Store} {live rest : List Nat} {b : Nat}

/-- A request is granted or refused. -/
theorem request_cases (grant : Nat → Bool) (s : Store) :
    (grant s.asked = true ∧ request grant s = (some s.asked, ⟨s.asked + 1, s.got ++ [s.asked], s.freed⟩)) ∨
      (grant s.asked = false ∧ request grant s = (none, ⟨s.asked + 1, s.got, s.freed⟩)) := by
  rw [request]
  cases hgrant : grant s.asked with
  | true => exact .inl ⟨rfl, rfl⟩
  | false => exact .inr ⟨rfl, rfl⟩

theorem Owns.empty : Owns .empty [] := ⟨List.Perm.refl _, List.nodup_nil, fun _ hb => absurd hb List.not_mem_nil⟩

theorem Owns.perm (h : Owns s live) (hperm : live.Perm rest) : Owns s rest :=
  ⟨h.account.trans (hperm.append_left _), h.nodup, h.asked⟩

theorem Owns.live_nodup (h : Owns s live) : live.Nodup := ((h.account.nodup_iff.mp h.nodup).of_append_right)

theorem Owns.granted (h : Owns s live) : Owns ⟨s.asked + 1, s.got ++ [s.asked], s.freed⟩ (s.asked :: live) := by
  refine ⟨?_, ?_, ?_⟩
  · have hswap : (s.freed ++ live ++ [s.asked]).Perm (s.freed ++ s.asked :: live) := by
      rw [List.append_assoc]
      exact (List.perm_append_singleton _ _).append_left _
    exact (h.account.append_right _).trans hswap
  · refine List.Nodup.append h.nodup (List.nodup_singleton _) ?_
    intro x hx hsingle
    rw [List.mem_singleton] at hsingle
    have hlt := h.asked x hx
    omega
  · intro x hx
    rcases List.mem_append.mp hx with hx | hx
    · exact (h.asked x hx).trans (Nat.lt_succ_self _)
    · rw [List.mem_singleton.mp hx]
      exact Nat.lt_succ_self _

theorem Owns.refused (h : Owns s live) : Owns ⟨s.asked + 1, s.got, s.freed⟩ live :=
  ⟨h.account, h.nodup, fun x hx => (h.asked x hx).trans (Nat.lt_succ_self _)⟩

theorem Owns.release (h : Owns s (b :: live)) : Owns (release s b) live := by
  refine ⟨?_, h.nodup, h.asked⟩
  show s.got.Perm (s.freed ++ [b] ++ live)
  rw [List.append_assoc]
  exact h.account

/-- What a program that owns nothing has got, it has given back once. -/
theorem Owns.settled (h : Owns s []) : Settled s := by
  have hall : s.got.Perm s.freed := by simpa using h.account
  exact ⟨hall.nodup_iff.mp h.nodup, hall.symm⟩

theorem Refused.release (h : Refused grant s) : Refused grant (release s b) := h

theorem Refused.later {t : Store} (h : Refused grant s) (hasked : s.asked ≤ t.asked) : Refused grant t := by
  obtain ⟨i, hi, hgrant⟩ := h
  exact ⟨i, hi.trans_le hasked, hgrant⟩

end Libc370.Storage
