import Mathlib.Data.List.Basic
import Mathlib.Data.List.Range

/-!
# Slices of an indexed store

`slice f pos n` lists the `n` values of `f` from index `pos` on: the contents of a stretch
of a device, a tape or a file. Two adjacent slices join, and every piece of a slice is a slice.
-/

set_option autoImplicit false

namespace MaerOS.Lib

variable {α : Type}

/-- The values `f pos`, ..., `f (pos + n - 1)`. -/
def slice (f : ℕ → α) (pos n : ℕ) : List α := (List.range n).map fun i => f (pos + i)

@[simp] theorem slice_zero (f : ℕ → α) (pos : ℕ) : slice f pos 0 = [] := rfl

@[simp] theorem length_slice (f : ℕ → α) (pos n : ℕ) : (slice f pos n).length = n := by
  simp [slice]

/-- A value of a slice, by its index. -/
theorem getElem?_slice (f : ℕ → α) (pos : ℕ) {n i : ℕ} (hi : i < n) :
    (slice f pos n)[i]? = some (f (pos + i)) := by
  simp [slice, List.getElem?_range hi]

/-- Adjacent slices join. -/
theorem slice_append (f : ℕ → α) (pos n m : ℕ) :
    slice f pos n ++ slice f (pos + n) m = slice f pos (n + m) := by
  unfold slice
  rw [List.range_add, List.map_append, List.map_map]
  congr 1
  refine List.map_congr_left fun i _ => ?_
  rw [Function.comp_apply, Nat.add_assoc]

/-- A piece of a list that lies in a slice at its front is a slice. -/
theorem take_drop_slice_append (f : ℕ → α) (pos : ℕ) {n a b : ℕ} (h : a + b ≤ n) (l : List α) :
    ((slice f pos n ++ l).drop a).take b = slice f (pos + a) b := by
  obtain ⟨c, rfl⟩ := Nat.exists_eq_add_of_le h
  rw [← slice_append f pos (a + b) c, ← slice_append f pos a b, List.append_assoc,
    List.append_assoc, List.drop_left' (length_slice f pos a),
    List.take_left' (length_slice f (pos + a) b)]

/-- A piece of a slice is a slice. -/
theorem take_drop_slice (f : ℕ → α) (pos : ℕ) {n a b : ℕ} (h : a + b ≤ n) :
    ((slice f pos n).drop a).take b = slice f (pos + a) b := by
  rw [← List.append_nil (slice f pos n)]
  exact take_drop_slice_append f pos h []

end MaerOS.Lib
