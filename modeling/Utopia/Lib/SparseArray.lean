/-
Sparse arrays: a size, and an entry for every index, which is zero from the size on.
Writing behind the end leaves zeros in between.
-/
import Mathlib.Algebra.Order.Ring.Int
import Mathlib.Data.List.Basic
import Mathlib.Order.CompletePartialOrder

namespace Utopia

universe u

structure SparseArray (α : Type u) [Zero α] where
  size : ℕ
  entry : ℕ → α
  entry_eq_zero : ∀ i, size ≤ i → entry i = 0

namespace SparseArray

variable {α : Type u} [Zero α]

def empty : SparseArray α := ⟨0, fun _ => 0, fun _ _ => rfl⟩

/-- The array with `xs` from index `o` on. -/
def write (f : SparseArray α) (o : ℕ) (xs : List α) : SparseArray α where
  size := max f.size (o + xs.length)
  entry i := if o ≤ i ∧ i < o + xs.length then xs.getD (i - o) 0 else f.entry i
  entry_eq_zero i hi := by
    rw [if_neg fun h => absurd h.2 (not_lt.mpr ((le_max_right _ _).trans hi))]
    exact f.entry_eq_zero i ((le_max_left _ _).trans hi)

/-- The `n` entries from index `o` on, as far as the array goes. -/
def read (f : SparseArray α) (o n : ℕ) : List α :=
  (List.range (min n (f.size - o))).map fun i => f.entry (o + i)

/-- The array with room for `n` entries. -/
def grow (f : SparseArray α) (n : ℕ) : SparseArray α where
  size := max f.size n
  entry := f.entry
  entry_eq_zero i hi := f.entry_eq_zero i ((le_max_left _ _).trans hi)

variable (f : SparseArray α) {o n i : ℕ} {xs : List α}

@[simp]
theorem size_grow : (f.grow n).size = max f.size n := rfl

@[simp]
theorem size_write : (f.write o xs).size = max f.size (o + xs.length) := rfl

theorem entry_write_inside (hlow : o ≤ i) (hhigh : i < o + xs.length) :
    (f.write o xs).entry i = xs.getD (i - o) 0 :=
  if_pos ⟨hlow, hhigh⟩

theorem entry_write_outside (h : ¬ (o ≤ i ∧ i < o + xs.length)) :
    (f.write o xs).entry i = f.entry i :=
  if_neg h

/-- Room made for a write does not show behind it. -/
theorem write_grow (h : n ≤ o + xs.length) : (f.grow n).write o xs = f.write o xs := by
  have hsize : max (max f.size n) (o + xs.length) = max f.size (o + xs.length) := by omega
  simp only [write, grow, hsize]

@[simp]
theorem length_read : (f.read o n).length = min n (f.size - o) := by
  rw [read, List.length_map, List.length_range]

theorem getD_read (h : i < min n (f.size - o)) : (f.read o n).getD i 0 = f.entry (o + i) := by
  rw [read, List.getD_eq_getElem?_getD, List.getElem?_map, List.getElem?_range h]
  rfl

end SparseArray

end Utopia
