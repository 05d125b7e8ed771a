/-
Records of different lengths: which of a list a buffer has room for, and how records that
stand one behind the other are read.
-/
import Mathlib.Algebra.BigOperators.Group.List.Basic
import Mathlib.Algebra.Order.Ring.Int
import Mathlib.Data.List.Infix

namespace Utopia

universe u v

section Fitting

variable {α : Type u} {size : α → ℕ}

/-- The records at the front of a list that there is room for. -/
def fitting (size : α → ℕ) : (room : ℕ) → List α → List α
  | _, [] => []
  | room, a :: l => if size a ≤ room then a :: fitting size (room - size a) l else []

theorem fitting_starts (room : ℕ) (l : List α) : fitting size room l <+: l := by
  induction l generalizing room with
  | nil => exact List.nil_prefix
  | cons a l ih =>
      rw [fitting]
      split_ifs
      · exact List.prefix_cons_inj a |>.mpr (ih _)
      · exact List.nil_prefix

theorem sum_fitting_le (room : ℕ) (l : List α) : ((fitting size room l).map size).sum ≤ room := by
  induction l generalizing room with
  | nil => exact Nat.zero_le _
  | cons a l ih =>
      rw [fitting]
      split_ifs with hfits
      · rw [List.map_cons, List.sum_cons]
        have hrest := ih (room - size a)
        omega
      · exact Nat.zero_le _

/-- Nothing fits only if there is nothing, or no room for the first record. -/
theorem fitting_eq_nil_iff {room : ℕ} {l : List α} :
    fitting size room l = [] ↔ ∀ a ∈ l.head?, room < size a := by
  cases l with
  | nil => simp [fitting]
  | cons a l => simp [fitting]

/-- What does not fit is a record that there is no room for behind the others. -/
theorem fitting_full (room : ℕ) (l : List α) :
    fitting size room l = l ∨
      ∃ a ∈ l, room < ((fitting size room l).map size).sum + size a := by
  induction l generalizing room with
  | nil => exact .inl rfl
  | cons a l ih =>
      rw [fitting]
      split_ifs with hfits
      · rcases ih (room - size a) with hall | ⟨b, hb, hroom⟩
        · exact .inl (congrArg (a :: ·) hall)
        · refine .inr ⟨b, List.mem_cons_of_mem a hb, ?_⟩
          rw [List.map_cons, List.sum_cons]
          omega
      · refine .inr ⟨a, List.mem_cons_self, ?_⟩
        rw [List.map_nil, List.sum_nil]
        omega

end Fitting

section Reading

variable {α : Type u} {β : Type v} {read : List β → Option (α × List β)}

/-- The records in a buffer, read until nothing is left; `fuel` bounds their number. -/
def readRecords (read : List β → Option (α × List β)) : (fuel : ℕ) → List β → Option (List α)
  | _, [] => some []
  | 0, _ :: _ => none
  | fuel + 1, b :: bytes =>
      (read (b :: bytes)).bind fun r => (readRecords read fuel r.2).map (r.1 :: ·)

theorem readRecords_of_read {fuel : ℕ} {bytes rest : List β} {a : α} (hne : bytes ≠ [])
    (h : read bytes = some (a, rest)) :
    readRecords read (fuel + 1) bytes = (readRecords read fuel rest).map (a :: ·) := by
  cases bytes with
  | nil => exact absurd rfl hne
  | cons b bytes => rw [readRecords, h, Option.bind_some]

/-- Records that are read back are as long as the buffer. -/
theorem length_of_readRecords {size : α → ℕ}
    (hread : ∀ bytes a rest, read bytes = some (a, rest) → bytes.length = size a + rest.length)
    {fuel : ℕ} {bytes : List β} {l : List α} (h : readRecords read fuel bytes = some l) :
    bytes.length = (l.map size).sum := by
  induction fuel generalizing bytes l with
  | zero =>
      cases bytes with
      | nil =>
          cases h
          rfl
      | cons b bytes => cases h
  | succ fuel ih =>
      cases bytes with
      | nil =>
          cases h
          rfl
      | cons b bytes =>
          rw [readRecords, Option.bind_eq_some_iff] at h
          obtain ⟨⟨a, rest⟩, hfirst, hrest⟩ := h
          obtain ⟨l', hl', rfl⟩ := Option.map_eq_some_iff.mp hrest
          rw [hread _ _ _ hfirst, ih hl', List.map_cons, List.sum_cons]

end Reading

end Utopia
