/-
Regions of an address space, by base and size: the first of the longest, and what a range that
is taken out leaves of them.
-/
import Mathlib.Data.List.Induction

namespace Utopia

variable {w : ℕ} {start stop : BitVec w} {r : BitVec w × BitVec w}
  {rs : List (BitVec w × BitVec w)}

/-- The address behind a region, unless it wraps around. -/
def regionStop (r : BitVec w × BitVec w) : ℕ := r.1.toNat + r.2.toNat

/-! ### The first of the longest regions -/

/-- `r` is the first of the longest regions. -/
def Longest (rs : List (BitVec w × BitVec w)) (r : BitVec w × BitVec w) : Prop :=
  ∃ before after, rs = before ++ r :: after ∧ (∀ x ∈ before, x.2 < r.2) ∧
    ∀ x ∈ after, x.2 ≤ r.2

/-- A search that keeps the longest region so far; of no regions, the empty one at 0. -/
def firstLongest (rs : List (BitVec w × BitVec w)) : BitVec w × BitVec w :=
  rs.foldl (fun largest r => if largest.2 < r.2 then r else largest) (0, 0)

theorem Longest.mem (h : Longest rs r) : r ∈ rs := by
  obtain ⟨before, after, rfl, -⟩ := h
  simp

theorem firstLongest_append (rs : List (BitVec w × BitVec w)) (r : BitVec w × BitVec w) :
    firstLongest (rs ++ [r]) = if (firstLongest rs).2 < r.2 then r else firstLongest rs := by
  rw [firstLongest, List.foldl_append]
  rfl

theorem Longest.firstLongest_eq (h : Longest rs r) (hpos : 0 < r.2.toNat) :
    firstLongest rs = r := by
  obtain ⟨before, after, rfl, hbefore, hafter⟩ := h
  have hlow : (firstLongest before).2 < r.2 := by
    induction before using List.reverseRecOn with
    | nil =>
        have hzero : (firstLongest ([] : List (BitVec w × BitVec w))).2.toNat = 0 :=
          BitVec.toNat_zero
        rw [BitVec.lt_def, hzero]
        exact hpos
    | append_singleton before x ih =>
        rw [firstLongest_append]
        have hrest := ih fun y hy => hbefore y (List.mem_append_left _ hy)
        split_ifs with hx
        · exact hbefore x (by simp)
        · exact hrest
  induction after using List.reverseRecOn with
  | nil => rw [firstLongest_append, if_pos hlow]
  | append_singleton after x ih =>
      have hassoc : before ++ r :: (after ++ [x]) = before ++ r :: after ++ [x] := by simp
      rw [hassoc, firstLongest_append, ih fun y hy => hafter y (List.mem_append_left _ hy)]
      exact if_neg (BitVec.not_lt.mpr (hafter x (by simp)))

theorem firstLongest_spec (rs : List (BitVec w × BitVec w)) :
    (∀ x ∈ rs, x.2 ≤ (firstLongest rs).2) ∧
      (firstLongest rs = (0, 0) ∨ Longest rs (firstLongest rs)) := by
  induction rs using List.reverseRecOn with
  | nil => exact ⟨fun x hx => absurd hx List.not_mem_nil, Or.inl rfl⟩
  | append_singleton rs r ih =>
      obtain ⟨hbound, hfound⟩ := ih
      rw [firstLongest_append]
      split_ifs with hlt
      · have hshorter : ∀ x ∈ rs, x.2 < r.2 := fun x hx => BitVec.lt_def.mpr
          (Nat.lt_of_le_of_lt (BitVec.le_def.mp (hbound x hx)) (BitVec.lt_def.mp hlt))
        refine ⟨fun x hx => ?_, Or.inr ⟨rs, [], rfl, hshorter, by simp⟩⟩
        rcases List.mem_append.mp hx with hold | hnew
        · exact BitVec.le_of_lt (hshorter x hold)
        · rw [List.mem_singleton.mp hnew]
          exact BitVec.le_refl _
      · have hle := BitVec.not_lt.mp hlt
        refine ⟨fun x hx => ?_, hfound.imp_right ?_⟩
        · rcases List.mem_append.mp hx with hold | hnew
          · exact hbound x hold
          · rw [List.mem_singleton.mp hnew]
            exact hle
        · rintro ⟨before, after, heq, hbefore, hafter⟩
          refine ⟨before, after ++ [r], ?_, hbefore, fun x hx => ?_⟩
          · conv_lhs => rw [heq]
            simp
          · rcases List.mem_append.mp hx with hold | hnew
            · exact hafter x hold
            · rw [List.mem_singleton.mp hnew]
              exact hle

/-! ### Taking a range out -/

/-- The range lies strictly inside the region, so that two parts of the region remain. -/
def Splits (start stop : BitVec w) (r : BitVec w × BitVec w) : Prop :=
  r.1 < start ∧ stop < r.1 + r.2

instance (start stop : BitVec w) (r : BitVec w × BitVec w) : Decidable (Splits start stop r) :=
  inferInstanceAs (Decidable (_ ∧ _))

/-- The part of a region that stays in its place: all of it, the part in front of the range,
the part behind, or none. -/
def keptPart (start stop : BitVec w) (r : BitVec w × BitVec w) : List (BitVec w × BitVec w) :=
  if stop ≤ r.1 ∨ r.1 + r.2 ≤ start then [r]
  else if r.1 < start then [(r.1, start - r.1)]
  else if stop < r.1 + r.2 then [(stop, r.1 + r.2 - stop)]
  else []

/-- What stays of the regions in their places, and the second parts of those that the range
splits.  Each of these takes one of the free places; where there is none, the rest stays. -/
def takeOut (start stop : BitVec w) :
    ℕ → List (BitVec w × BitVec w) → List (BitVec w × BitVec w) × List (BitVec w × BitVec w)
  | _, [] => ([], [])
  | 0, r :: rs =>
      if Splits start stop r then (r :: rs, [])
      else (keptPart start stop r ++ (takeOut start stop 0 rs).1, (takeOut start stop 0 rs).2)
  | free + 1, r :: rs =>
      if Splits start stop r then
        ((r.1, start - r.1) :: (takeOut start stop free rs).1,
          (stop, r.1 + r.2 - stop) :: (takeOut start stop free rs).2)
      else
        (keptPart start stop r ++ (takeOut start stop (free + 1) rs).1,
          (takeOut start stop (free + 1) rs).2)

/-- The free places and the regions when the range is taken out; an empty range takes nothing. -/
def without (start stop : BitVec w) (m : ℕ × List (BitVec w × BitVec w)) :
    ℕ × List (BitVec w × BitVec w) :=
  if start < stop then
    (m.1 - (takeOut start stop m.1 m.2).2.length,
      (takeOut start stop m.1 m.2).1 ++ (takeOut start stop m.1 m.2).2)
  else m

/-- The range would split a region, and no place is free for the second part. -/
def NoPlace (start stop : BitVec w) (m : ℕ × List (BitVec w × BitVec w)) : Prop :=
  start < stop ∧ m.1 = 0 ∧ ∃ r ∈ m.2, Splits start stop r

theorem takeOut_cons_of_not_splits (free : ℕ) (h : ¬ Splits start stop r) :
    takeOut start stop free (r :: rs) =
      (keptPart start stop r ++ (takeOut start stop free rs).1,
        (takeOut start stop free rs).2) := by
  cases free <;> rw [takeOut, if_neg h]

theorem takeOut_cons_full (h : Splits start stop r) :
    takeOut start stop 0 (r :: rs) = (r :: rs, []) := by
  rw [takeOut, if_pos h]

theorem takeOut_cons_split (free : ℕ) (h : Splits start stop r) :
    takeOut start stop (free + 1) (r :: rs) =
      ((r.1, start - r.1) :: (takeOut start stop free rs).1,
        (stop, r.1 + r.2 - stop) :: (takeOut start stop free rs).2) := by
  rw [takeOut, if_pos h]

end Utopia
