/-
Invariants of programs over a state that may stop early: what a program keeps
however it ends, with one rule for each way to build a program.
-/
import Mathlib.Algebra.Order.Ring.Int
import Mathlib.Order.CompletePartialOrder

namespace Utopia

universe u

variable {ε σ α β : Type u}

/-- The state in which a run ends, with a result or stopped. -/
def finalState : EStateM.Result ε σ α → σ
  | .ok _ s => s
  | .error _ s => s

section Runs

variable {x : EStateM ε σ α} {f : α → EStateM ε σ β} {s s' : σ}

theorem bind_of_ok {a : α} (h : x s = .ok a s') : (x >>= f) s = f a s' := by
  have hrun : (x >>= f) s = match x s with
      | .ok a s' => f a s'
      | .error e s' => .error e s' := rfl
  rw [hrun, h]

theorem bind_of_error {e : ε} (h : x s = .error e s') : (x >>= f) s = .error e s' := by
  have hrun : (x >>= f) s = match x s with
      | .ok a s' => f a s'
      | .error e s' => .error e s' := rfl
  rw [hrun, h]

theorem map_of_ok {g : α → β} {a : α} (h : x s = .ok a s') : (g <$> x) s = .ok (g a) s' := by
  rw [map_eq_pure_bind, bind_of_ok h]
  rfl

theorem map_of_error {g : α → β} {e : ε} (h : x s = .error e s') :
    (g <$> x) s = .error e s' := by
  rw [map_eq_pure_bind, bind_of_error h]

end Runs

/-- From any state of `Inv` the program ends in a state of `Inv`, and its result, if
there is one, is in `Post`. -/
def Keeps (Inv : σ → Prop) (x : EStateM ε σ α) (Post : α → Prop) : Prop :=
  ∀ s, Inv s → Inv (finalState (x s)) ∧ ∀ a s', x s = .ok a s' → Post a

namespace Keeps

variable {Inv : σ → Prop} {x : EStateM ε σ α} {f : α → EStateM ε σ β}
  {Post Post' : α → Prop} {Last : β → Prop}

theorem state (h : Keeps Inv x Post) {s : σ} (hs : Inv s) : Inv (finalState (x s)) :=
  (h s hs).1

theorem mono (h : Keeps Inv x Post) (himp : ∀ a, Post a → Post' a) : Keeps Inv x Post' := by
  intro s hs
  obtain ⟨hinv, hpost⟩ := h s hs
  exact ⟨hinv, fun a s' hrun => himp a (hpost a s' hrun)⟩

theorem pure {a : α} (ha : Post a) : Keeps Inv (pure a : EStateM ε σ α) Post := by
  intro s hs
  refine ⟨hs, fun b s' hrun => ?_⟩
  cases hrun
  exact ha

theorem throw {e : ε} : Keeps Inv (throw e : EStateM ε σ α) Post := by
  intro s hs
  refine ⟨hs, fun b s' hrun => ?_⟩
  cases hrun

theorem bind (hx : Keeps Inv x Post) (hf : ∀ a, Post a → Keeps Inv (f a) Last) :
    Keeps Inv (x >>= f) Last := by
  intro s hs
  obtain ⟨hinv, hpost⟩ := hx s hs
  cases hxs : x s with
  | ok a s' =>
      rw [hxs] at hinv
      rw [bind_of_ok hxs]
      exact hf a (hpost a s' hxs) s' hinv
  | error e s' =>
      rw [hxs] at hinv
      rw [bind_of_error hxs]
      refine ⟨hinv, fun b s' h => ?_⟩
      cases h

/-- A change of the result alone. -/
theorem of_map {g : α → β} (h : Keeps Inv (g <$> x) fun _ => True) :
    Keeps Inv x fun _ => True := by
  intro s hs
  have hinv := h.state hs
  cases hxs : x s with
  | ok a s' =>
      rw [map_of_ok hxs] at hinv
      exact ⟨hinv, fun _ _ _ => trivial⟩
  | error e s' =>
      rw [map_of_error hxs] at hinv
      exact ⟨hinv, fun _ _ _ => trivial⟩

theorem ite {c : Prop} [Decidable c] {x y : EStateM ε σ α} (hx : c → Keeps Inv x Post)
    (hy : ¬ c → Keeps Inv y Post) : Keeps Inv (if c then x else y) Post := by
  by_cases hc : c
  · rw [if_pos hc]
    exact hx hc
  · rw [if_neg hc]
    exact hy hc

/-- A test that ends the program early. -/
theorem guard {c : Prop} [Decidable c] {a : α} {y : EStateM ε σ α} (ha : Post a)
    (hy : ¬ c → Keeps Inv y Post) : Keeps Inv (if c then Pure.pure a else y) Post :=
  ite (fun _ => pure ha) hy

theorem get : Keeps Inv (get : EStateM ε σ σ) fun _ => True := by
  intro s hs
  exact ⟨hs, fun _ _ _ => trivial⟩

theorem modify {g : σ → σ} (hg : ∀ s, Inv s → Inv (g s)) :
    Keeps Inv (modify g : EStateM ε σ PUnit) fun _ => True := by
  intro s hs
  exact ⟨hg s hs, fun _ _ _ => trivial⟩

/-- A loop keeps what each of its rounds keeps. -/
theorem foldlM {ι : Type u} {round : α → ι → EStateM ε σ α} {xs : List ι} {a : α} (ha : Post a)
    (hround : ∀ a, Post a → ∀ i ∈ xs, Keeps Inv (round a i) Post) :
    Keeps Inv (xs.foldlM round a) Post := by
  induction xs generalizing a with
  | nil => exact pure ha
  | cons i xs ih =>
      rw [List.foldlM_cons]
      refine bind (hround a ha i List.mem_cons_self) fun b hb => ?_
      exact ih hb fun a ha j hj => hround a ha j (List.mem_cons_of_mem i hj)

end Keeps

end Utopia
