import Mathlib

/-! A heap of numbered blocks.

A block gets the next number when it is allocated and keeps it; nothing is live under the
number of a block that was freed, and freeing it again fails. What a block holds is a
parameter. What an operation does is a relation between the heaps (`Changed`), and the ones
on the same block compose. -/
namespace Libc370.Blocks

/-- The blocks by number, `none` where one was freed. -/
structure Heap (β : Type*) where
  blocks : List (Option β)

variable {β : Type*}

namespace Heap

/-- What a live block holds. -/
def block (h : Heap β) (b : Nat) : Option β := h.blocks[b]?.join

/-- The number the next block gets. -/
def next (h : Heap β) : Nat := h.blocks.length

def alloc (h : Heap β) (x : β) : Heap β := ⟨h.blocks ++ [some x]⟩

/-- A live block overwritten. -/
def put (h : Heap β) (b : Nat) (x : β) : Option (Heap β) :=
  (h.block b).map fun _ => ⟨h.blocks.set b (some x)⟩

/-- A live block given back. -/
def free (h : Heap β) (b : Nat) : Option (Heap β) :=
  (h.block b).map fun _ => ⟨h.blocks.set b none⟩

end Heap

/-- Of two heaps the second one holds something else, or nothing, in one block. -/
structure Changed (h : Heap β) (b : Nat) (x : Option β) (h' : Heap β) : Prop where
  next : h'.next = h.next
  here : h'.block b = x
  elsewhere : ∀ c ≠ b, h'.block c = h.block c

variable {h h' h'' : Heap β} {b c : Nat} {x y z : β}

theorem block_lt (hb : h.block b = some x) : b < h.next := by
  unfold Heap.block at hb
  by_contra hle
  rw [List.getElem?_eq_none (not_lt.mp hle)] at hb
  cases hb

theorem block_next (h : Heap β) : h.block h.next = none := by
  unfold Heap.block Heap.next
  rw [List.getElem?_eq_none le_rfl]
  rfl

theorem block_set (h : Heap β) (hlt : b < h.next) (x : Option β) : Changed h b x ⟨h.blocks.set b x⟩ := by
  refine ⟨List.length_set, ?_, fun c hc => ?_⟩
  · unfold Heap.block Heap.next at *
    rw [List.getElem?_set_self hlt]
    rfl
  · unfold Heap.block
    rw [List.getElem?_set_ne hc.symm]

theorem put_some (hb : h.block b = some y) (x : β) : ∃ h', h.put b x = some h' ∧ Changed h b (some x) h' :=
  ⟨_, by rw [Heap.put, hb, Option.map_some], block_set h (block_lt hb) (some x)⟩

theorem free_some (hb : h.block b = some y) : ∃ h', h.free b = some h' ∧ Changed h b none h' :=
  ⟨_, by rw [Heap.free, hb, Option.map_some], block_set h (block_lt hb) none⟩

theorem Changed.trans {x z : Option β} (h₁ : Changed h b x h') (h₂ : Changed h' b z h'') : Changed h b z h'' :=
  ⟨h₂.next.trans h₁.next, h₂.here, fun c hc => (h₂.elsewhere c hc).trans (h₁.elsewhere c hc)⟩

@[simp] theorem alloc_block (h : Heap β) (x : β) : (h.alloc x).block h.next = some x := by
  simp [Heap.alloc, Heap.next, Heap.block]

/-- Allocation leaves the other blocks as they are. -/
theorem alloc_other (h : Heap β) (x : β) (hb : b ≠ h.next) : (h.alloc x).block b = h.block b := by
  unfold Heap.alloc Heap.block
  rcases Nat.lt_or_gt_of_ne hb with hlt | hgt
  · rw [List.getElem?_append_left hlt]
  · have hlen : (h.blocks ++ [some x]).length ≤ b := by
      rw [List.length_append]
      exact hgt
    rw [List.getElem?_eq_none hlen, List.getElem?_eq_none (le_of_lt hgt)]

theorem alloc_live (hb : h.block b = some y) (x : β) : (h.alloc x).block b = some y := by
  rw [alloc_other h x (block_lt hb).ne]
  exact hb

end Libc370.Blocks
