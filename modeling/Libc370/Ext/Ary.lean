import Mathlib

/-! Dynamic arrays (`ext/array.h`).

An array is reached through a pointer that is NULL until something is added. It has room
for a number of items, and gets room for 20 more when it is full; the storage for that may
be refused, and then nothing is added. Indices start at 1. -/
namespace Libc370.Ext

/-- `ARRAY_DEFAULT`. -/
def arrayDefault : Nat := 20

/-- `ARRAY`: room for `size` items, and the items in it. -/
structure Ary (α : Type*) where
  size : Nat
  items : List α
  fits : items.length ≤ size

variable {α : Type*}

/-- The pointer to an array, or NULL. -/
def VArray (α : Type*) := Option (Ary α)

def VArray.null : VArray α := none

/-- The items an array pointer leads to. -/
def VArray.list : VArray α → List α
  | none => []
  | some a => a.items

/-- `arraycount()`. -/
def arraycount (v : VArray α) : Nat := v.list.length

/-- `arraynew()`, when its storage is granted. -/
def arraynew (size : Nat) : Ary α := ⟨if size = 0 then arrayDefault else size, [], Nat.zero_le _⟩

/-- An array with one item more, when there is room. -/
def Ary.push (a : Ary α) (x : α) (h : a.items.length < a.size) : Ary α :=
  ⟨a.size, a.items ++ [x], by rw [List.length_append]; exact h⟩

/-- The array moved to storage with room for 20 more. -/
def Ary.grow (a : Ary α) : Ary α :=
  ⟨a.size + arrayDefault, a.items, a.fits.trans (Nat.le_add_right _ _)⟩

theorem Ary.grow_room (a : Ary α) : a.grow.items.length < a.grow.size := by
  have hfits := a.fits
  show a.items.length < a.size + 20
  omega

/-- `arrayadd()`: its return code, and the array. `alloc` says whether storage is granted,
where the call asks for some. -/
def arrayadd (alloc : Bool) (v : VArray α) (x : α) : Int × VArray α :=
  match v with
  | none => if alloc then (0, some ((arraynew arrayDefault).push x (by show 0 < arrayDefault; decide))) else (-1, none)
  | some a =>
    if h : a.items.length < a.size then (0, some (a.push x h))
    else if alloc then (0, some (a.grow.push x a.grow_room))
    else (-1, some a)

/-- Whether `arrayadd()` has to ask for storage. -/
def VArray.full : VArray α → Bool
  | none => true
  | some a => a.size ≤ a.items.length

/-- `arrayget()`. -/
def arrayget (v : VArray α) (index : Nat) : Option α :=
  if 0 < index ∧ index ≤ arraycount v then v.list[index - 1]? else none

/-- `arraydel()`: the item taken out, and the array without it. -/
def arraydel (v : VArray α) (index : Nat) : Option α × VArray α :=
  match v with
  | none => (none, none)
  | some a =>
    if 0 < index ∧ index ≤ a.items.length then
      (a.items[index - 1]?, some ⟨a.size, a.items.eraseIdx (index - 1), (List.length_eraseIdx_le _ _).trans a.fits⟩)
    else (none, some a)

@[simp] theorem list_null : (VArray.null : VArray α).list = [] := rfl

/-- An item is added behind the others, or nothing is. -/
theorem arrayadd_cases (alloc : Bool) (v : VArray α) (x : α) :
    ((arrayadd alloc v x).1 = 0 ∧ (arrayadd alloc v x).2.list = v.list ++ [x]) ∨
      (alloc = false ∧ (arrayadd alloc v x).1 = -1 ∧ (arrayadd alloc v x).2 = v) := by
  unfold arrayadd
  cases v with
  | none =>
    cases alloc with
    | true => exact .inl ⟨rfl, rfl⟩
    | false => exact .inr ⟨rfl, rfl, rfl⟩
  | some a =>
    dsimp only
    split_ifs with hroom halloc
    · exact .inl ⟨rfl, rfl⟩
    · exact .inl ⟨rfl, rfl⟩
    · exact .inr ⟨Bool.eq_false_iff.mpr halloc, rfl, rfl⟩

theorem arrayadd_granted (v : VArray α) (x : α) :
    (arrayadd true v x).1 = 0 ∧ (arrayadd true v x).2.list = v.list ++ [x] := by
  rcases arrayadd_cases true v x with h | ⟨h, -⟩
  · exact h
  · cases h

/-- Where there is room no storage is asked for. -/
theorem arrayadd_room {v : VArray α} (h : v.full = false) (alloc : Bool) (x : α) :
    (arrayadd alloc v x).1 = 0 ∧ (arrayadd alloc v x).2.list = v.list ++ [x] ∧
    (arrayadd alloc v x).2 ≠ VArray.null := by
  cases v with
  | none => cases h
  | some a =>
    have hroom : a.items.length < a.size := by simpa [VArray.full] using h
    have hadd : arrayadd alloc (some a) x = (0, some (a.push x hroom)) := by
      unfold arrayadd
      dsimp only
      rw [dif_pos hroom]
      rfl
    rw [hadd]
    exact ⟨rfl, rfl, Option.some_ne_none _⟩

theorem arrayadd_full {v : VArray α} (h : v.full = true) (x : α) : arrayadd false v x = (-1, v) := by
  cases v with
  | none => rfl
  | some a =>
    have hroom : ¬ a.items.length < a.size := by simpa [VArray.full] using h
    unfold arrayadd
    dsimp only
    rw [dif_neg hroom]
    rfl

theorem arraydel_list (v : VArray α) {index : Nat} (h : 0 < index) :
    (arraydel v index).1 = v.list[index - 1]? ∧ (arraydel v index).2.list = v.list.eraseIdx (index - 1) := by
  unfold arraydel
  cases v with
  | none => exact ⟨rfl, rfl⟩
  | some a =>
    dsimp only
    split_ifs with hin
    · exact ⟨rfl, rfl⟩
    · have hout : a.items.length ≤ index - 1 := by omega
      exact ⟨(List.getElem?_eq_none hout).symm, (List.eraseIdx_of_length_le hout).symm⟩

/-- The last item is taken out, if there is one. -/
theorem arraydel_last (v : VArray α) :
    (arraydel v (arraycount v)).1 = v.list.getLast? ∧ (arraydel v (arraycount v)).2.list = v.list.dropLast := by
  by_cases hcount : arraycount v = 0
  · have hnil : v.list = [] := List.length_eq_zero_iff.mp hcount
    have hnone : arraydel v 0 = (none, v) := by
      cases v with
      | none => rfl
      | some a => simp [arraydel]
    rw [hcount, hnone]
    dsimp only
    rw [hnil]
    exact ⟨rfl, rfl⟩
  · obtain ⟨hitem, hrest⟩ := arraydel_list v (Nat.pos_of_ne_zero hcount)
    exact ⟨hitem.trans List.getLast?_eq_getElem?.symm,
      hrest.trans (List.dropLast_eq_eraseIdx (by unfold arraycount at *; omega)).symm⟩

theorem arrayget_eq (v : VArray α) {index : Nat} (h : 0 < index) : arrayget v index = v.list[index - 1]? := by
  unfold arrayget
  split_ifs with hin
  · rfl
  · have hcount : v.list.length ≤ index - 1 := by
      rw [arraycount] at hin
      omega
    exact (List.getElem?_eq_none hcount).symm

end Libc370.Ext
