import Mathlib

/-! Windows of a string, and the number a window of bytes is.

`window l o n` are the `n` values of `l` from `o` on; `patch l o bs` is `l` with `bs` put
over it there. A patch that fits leaves the length and every window beside it as they
were. The number of some bytes has the first byte highest. -/
namespace Libc370.Bytes

variable {α : Type*}

/-- The `n` values from `o` on. -/
def window (l : List α) (o n : Nat) : List α := (l.drop o).take n

/-- `bs` put over `l` from `o` on. -/
def patch (l : List α) (o : Nat) (bs : List α) : List α := l.take o ++ bs ++ l.drop (o + bs.length)

/-- The number of some bytes, the first one highest. -/
def number (bs : List UInt8) : Nat := bs.foldl (fun n b => n * 256 + b.toNat) 0

@[simp] theorem window_length {l : List α} {o n : Nat} (h : o + n ≤ l.length) : (window l o n).length = n := by
  rw [window, List.length_take, List.length_drop]
  omega

theorem window_getElem? (l : List α) (o n i : Nat) : (window l o n)[i]? = if i < n then l[o + i]? else none := by
  rw [window, List.getElem?_take, List.getElem?_drop]

section Patch

variable {l bs : List α} {o : Nat} (h : o + bs.length ≤ l.length)

include h

theorem patch_length : (patch l o bs).length = l.length := by
  simp only [patch, List.length_append, List.length_take, List.length_drop]
  omega

theorem patch_getElem?_inside {i : Nat} (hi : i < bs.length) : (patch l o bs)[o + i]? = bs[i]? := by
  have hlen : (l.take o).length = o := by
    rw [List.length_take]
    omega
  rw [patch, List.append_assoc, List.getElem?_append_right (by omega), hlen, Nat.add_sub_cancel_left,
    List.getElem?_append_left hi]

theorem patch_getElem?_outside {i : Nat} (hi : i < o ∨ o + bs.length ≤ i) : (patch l o bs)[i]? = l[i]? := by
  have hlen : (l.take o).length = o := by
    rw [List.length_take]
    omega
  rcases hi with hlow | hhigh
  · rw [patch, List.append_assoc, List.getElem?_append_left (by omega), List.getElem?_take, if_pos hlow]
  · rw [patch, List.append_assoc, List.getElem?_append_right (by omega), hlen, List.getElem?_append_right (by omega),
      List.getElem?_drop]
    congr 1
    omega

/-- What is put there is read there. -/
theorem window_patch_self : window (patch l o bs) o bs.length = bs := by
  apply List.ext_getElem?
  intro i
  rw [window_getElem?]
  split
  · next hi => exact patch_getElem?_inside h hi
  · next hi => rw [List.getElem?_eq_none (not_lt.mp hi)]

/-- A window beside the patch. -/
theorem window_patch_apart {o' n : Nat} (hapart : o' + n ≤ o ∨ o + bs.length ≤ o') :
    window (patch l o bs) o' n = window l o' n := by
  apply List.ext_getElem?
  intro i
  rw [window_getElem?, window_getElem?]
  split
  · exact patch_getElem?_outside h (by omega)
  · rfl

/-- What comes behind the patch. -/
theorem drop_patch {k : Nat} (hk : o + bs.length ≤ k) : (patch l o bs).drop k = l.drop k := by
  apply List.ext_getElem?
  intro i
  rw [List.getElem?_drop, List.getElem?_drop]
  exact patch_getElem?_outside h (by omega)

/-- A patch grows what comes before it. -/
theorem take_patch_self : (patch l o bs).take (o + bs.length) = l.take o ++ bs := by
  have hlen : (l.take o ++ bs).length = o + bs.length := by
    rw [List.length_append, List.length_take]
    omega
  rw [patch, ← hlen, List.take_left]

end Patch

theorem number_append (a b : List UInt8) : number (a ++ b) = number a * 256 ^ b.length + number b := by
  have hfold : ∀ (bs : List UInt8) (n : Nat),
      bs.foldl (fun n b => n * 256 + b.toNat) n = n * 256 ^ bs.length + number bs := by
    intro bs
    induction bs with
    | nil => intro n; simp [number]
    | cons b bs ih =>
      intro n
      simp only [number, List.foldl_cons, List.length_cons]
      rw [ih, ih (0 * 256 + b.toNat), pow_succ]
      ring
  rw [number, List.foldl_append, hfold]
  rfl

theorem number_lt (bs : List UInt8) : number bs < 256 ^ bs.length := by
  induction bs using List.reverseRecOn with
  | nil => simp [number]
  | append_singleton bs b ih =>
    have hb := b.toNat_lt
    have hone : number [b] = b.toNat := by simp [number]
    rw [number_append, hone, List.length_append, List.length_singleton, pow_one, pow_succ]
    omega

/-- Bytes as many as others have another number than they. -/
theorem number_injective {a b : List UInt8} (hlen : a.length = b.length) (h : number a = number b) : a = b := by
  induction a using List.reverseRecOn generalizing b with
  | nil => exact (List.length_eq_zero_iff.mp hlen.symm).symm
  | append_singleton a x ih =>
    rcases List.eq_nil_or_concat' b with rfl | ⟨b, y, rfl⟩
    · simp at hlen
    · have hlast : ∀ (l : List UInt8) (z : UInt8), number (l ++ [z]) = number l * 256 + z.toNat := by
        intro l z
        rw [number_append]
        simp [number]
      rw [hlast, hlast] at h
      have hx := x.toNat_lt
      have hy := y.toNat_lt
      have hfront : a = b := ih (by simpa using hlen) (by omega)
      have hback : x = y := UInt8.toNat_inj.mp (by omega)
      rw [hfront, hback]

end Libc370.Bytes
