/-
A loop whose body returns a status: any status but 0 ends it at once.
-/
import Mathlib.Algebra.Order.Ring.Int
import Mathlib.Data.List.Basic
import Mathlib.Order.CompletePartialOrder

namespace Utopia

universe u v

variable {ι : Type u} {σ : Type v}

/-- `for (x in xs) if ((status = body(x)) != 0) return status; return 0;` -/
def forEach (body : ι → σ → Int × σ) : List ι → σ → Int × σ
  | [], s => (0, s)
  | x :: xs, s =>
      if (body x s).1 = 0 then forEach body xs (body x s).2 else body x s

theorem forEach_append (body : ι → σ → Int × σ) (xs ys : List ι) (s : σ) :
    forEach body (xs ++ ys) s =
      if (forEach body xs s).1 = 0 then forEach body ys (forEach body xs s).2
      else forEach body xs s := by
  induction xs generalizing s with
  | nil => rfl
  | cons x xs ih =>
      rw [List.cons_append, forEach, forEach]
      by_cases hzero : (body x s).1 = 0
      · rw [if_pos hzero, if_pos hzero, ih]
      · rw [if_neg hzero, if_neg hzero, if_neg hzero]

/-- What a round of the loop may do: keep the invariant with one more element
done, or end the loop in a state of `Fail`. -/
def RoundKeeps (Inv : List ι → σ → Prop) (Fail : σ → Prop) (done : List ι) (x : ι)
    (result : Int × σ) : Prop :=
  (result.1 = 0 ∧ Inv (done ++ [x]) result.2) ∨ (result.1 ≠ 0 ∧ Fail result.2)

private theorem forEach_from {body : ι → σ → Int × σ} {Inv : List ι → σ → Prop}
    {Fail : σ → Prop} {xs : List ι} (done : List ι) {s : σ} (hinit : Inv done s)
    (hround : ∀ before x after s, xs = before ++ x :: after → Inv (done ++ before) s →
      RoundKeeps Inv Fail (done ++ before) x (body x s)) :
    ((forEach body xs s).1 = 0 ∧ Inv (done ++ xs) (forEach body xs s).2) ∨
      ((forEach body xs s).1 ≠ 0 ∧ Fail (forEach body xs s).2) := by
  induction xs generalizing done s with
  | nil => exact Or.inl ⟨rfl, by simpa [forEach] using hinit⟩
  | cons x xs ih =>
      have hfirst : RoundKeeps Inv Fail done x (body x s) := by
        simpa using hround [] x xs s rfl (by simpa using hinit)
      rw [forEach]
      rcases hfirst with ⟨hzero, hinv⟩ | ⟨hne, hfail⟩
      · rw [if_pos hzero]
        have hrest := ih (done ++ [x]) hinv fun before y after s hsplit hinv => by
          have hnext := hround (x :: before) y after s (by simp [hsplit])
          simp only [List.append_assoc, List.singleton_append] at hinv ⊢
          exact hnext hinv
        simpa using hrest
      · rw [if_neg hne]
        exact Or.inr ⟨hne, hfail⟩

/-- The invariant rule: `Inv done s` holds after the elements `done`, and a round
either keeps it or leaves the loop in a state of `Fail`. -/
theorem forEach_rule (body : ι → σ → Int × σ) (xs : List ι) (Inv : List ι → σ → Prop)
    (Fail : σ → Prop) {s : σ} (hinit : Inv [] s)
    (hround : ∀ done x rest s, xs = done ++ x :: rest → Inv done s →
      RoundKeeps Inv Fail done x (body x s)) :
    ((forEach body xs s).1 = 0 ∧ Inv xs (forEach body xs s).2) ∨
      ((forEach body xs s).1 ≠ 0 ∧ Fail (forEach body xs s).2) :=
  forEach_from [] hinit hround

/-- The element of `range n` behind `done` is the number of rounds done. -/
theorem eq_length_of_range_eq {n x : ℕ} {done rest : List ℕ}
    (h : List.range n = done ++ x :: rest) : x = done.length ∧ done.length < n := by
  have hlen := congrArg List.length h
  rw [List.length_range, List.length_append, List.length_cons] at hlen
  have hget := congrArg (·[done.length]?) h
  simp only [List.getElem?_append_right (Nat.le_refl _), Nat.sub_self, List.getElem?_cons_zero]
    at hget
  rw [List.getElem?_range (by omega), Option.some.injEq] at hget
  exact ⟨hget.symm, by omega⟩

/-- An invariant that says nothing about the progress of the loop. -/
theorem forEach_invariant (Inv : σ → Prop) {body : ι → σ → Int × σ} {xs : List ι} {s : σ}
    (hinit : Inv s) (hround : ∀ x ∈ xs, ∀ s, Inv s → Inv (body x s).2) :
    Inv (forEach body xs s).2 := by
  induction xs generalizing s with
  | nil => exact hinit
  | cons x xs ih =>
      have hfirst := hround x List.mem_cons_self s hinit
      rw [forEach]
      split_ifs
      · exact ih hfirst fun y hy => hround y (List.mem_cons_of_mem x hy)
      · exact hfirst

end Utopia
