/-
Ring buffers with a write index and a read index, of whose cells one stays unused, and the queue
that they hold.
-/
import Mathlib.Algebra.Order.Ring.Int
import Mathlib.Data.Int.ModEq
import Mathlib.Data.Nat.ModEq
import Mathlib.Logic.Function.Basic
import Mathlib.Order.CompletePartialOrder

namespace Utopia

universe u

/-- The cells of a ring of `size` cells, where the next item is written (`head`) and where the
next one is read (`tail`). -/
structure Ring (α : Type u) (size : ℕ) where
  cells : ℕ → α
  head : ℕ
  tail : ℕ

namespace Ring

variable {α : Type u} {size : ℕ} {r : Ring α size} {x : α} {xs : List α}

/-- The items between the read index and the write index are `xs`. -/
structure Holds (r : Ring α size) (xs : List α) : Prop where
  length : xs.length < size
  tail : r.tail < size
  head : r.head = (r.tail + xs.length) % size
  cells : ∀ i (hi : i < xs.length), r.cells ((r.tail + i) % size) = xs.get ⟨i, hi⟩

def push (r : Ring α size) (x : α) : Ring α size :=
  { r with cells := Function.update r.cells r.head x, head := (r.head + 1) % size }

def drop (r : Ring α size) : Ring α size := { r with tail := (r.tail + 1) % size }

theorem holds_empty (cells : ℕ → α) (hsize : 0 < size) :
    (⟨cells, 0, 0⟩ : Ring α size).Holds [] :=
  ⟨hsize, hsize, (Nat.zero_mod size).symm, fun i hi => absurd hi (Nat.not_lt_zero i)⟩

/-- Offsets from one place that lead to the same cell. -/
theorem offset_inj {i j : ℕ} (hi : i < size) (hj : j < size)
    (h : (r.tail + i) % size = (r.tail + j) % size) : i = j :=
  (Nat.ModEq.add_left_cancel' r.tail h).eq_of_lt_of_lt hi hj

/-- The indices meet exactly in an empty ring. -/
theorem Holds.head_eq_tail_iff (h : r.Holds xs) : r.head = r.tail ↔ xs = [] := by
  have htail : (r.tail + 0) % size = r.tail := Nat.mod_eq_of_lt h.tail
  constructor
  · intro heq
    rw [h.head] at heq
    have hlength := offset_inj h.length (Nat.zero_lt_of_lt h.length) (heq.trans htail.symm)
    exact List.length_eq_zero_iff.mp hlength
  · rintro rfl
    exact h.head.trans htail

/-- One more step of the write index meets the read index exactly in a full ring. -/
theorem Holds.next_eq_tail_iff (h : r.Holds xs) :
    (r.head + 1) % size = r.tail ↔ xs.length + 1 = size := by
  have htail : (r.tail + 0) % size = r.tail := Nat.mod_eq_of_lt h.tail
  have hnext : (r.head + 1) % size = (r.tail + (xs.length + 1)) % size := by
    rw [h.head, Nat.mod_add_mod, Nat.add_assoc]
  have hlength := h.length
  rw [hnext]
  constructor
  · intro heq
    by_contra hroom
    have hoffset := offset_inj (by omega) (by omega) (heq.trans htail.symm)
    omega
  · intro hfull
    rw [hfull, Nat.add_mod_right, Nat.mod_eq_of_lt h.tail]

theorem Holds.push (h : r.Holds xs) (hroom : xs.length + 1 < size) (x : α) :
    (r.push x).Holds (xs ++ [x]) := by
  refine ⟨by simpa using hroom, h.tail, ?_, fun i hi => ?_⟩
  · rw [Ring.push, List.length_append, List.length_singleton, h.head, Nat.mod_add_mod,
      Nat.add_assoc]
  · rw [List.length_append, List.length_singleton] at hi
    change Function.update r.cells r.head x ((r.tail + i) % size) = _
    by_cases hlast : i = xs.length
    · subst hlast
      rw [← h.head, Function.update_self]
      simp
    · have hold : i < xs.length := by omega
      have hne : (r.tail + i) % size ≠ r.head := fun heq =>
        hlast (offset_inj (by omega) h.length (heq.trans h.head))
      rw [Function.update_of_ne hne, h.cells i hold]
      simp [List.getElem_append_left hold]

theorem Holds.drop (h : r.Holds (x :: xs)) : r.drop.Holds xs := by
  have hlength := h.length
  have hshift : ∀ i, ((r.tail + 1) % size + i) % size = (r.tail + (i + 1)) % size := fun i => by
    rw [Nat.mod_add_mod, Nat.add_assoc, Nat.add_comm 1 i]
  rw [List.length_cons] at hlength
  refine ⟨by omega, Nat.mod_lt _ (by omega), ?_, fun i hi => ?_⟩
  · exact h.head.trans (hshift xs.length).symm
  · change r.cells (((r.tail + 1) % size + i) % size) = _
    rw [hshift, h.cells (i + 1) (by simpa using hi)]
    rfl

/-- The item at the read index. -/
theorem Holds.first (h : r.Holds (x :: xs)) : r.cells r.tail = x := by
  have hfirst := h.cells 0 (Nat.zero_lt_succ _)
  rw [Nat.add_zero, Nat.mod_eq_of_lt h.tail] at hfirst
  exact hfirst

end Ring

end Utopia
