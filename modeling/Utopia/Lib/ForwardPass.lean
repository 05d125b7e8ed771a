/-
A pass over the nodes `0, 1, 2, …` of a tree that fills in parent links as it meets
children lists, and marks a node if it is all right and its parent is marked.
-/
import Mathlib.Algebra.Order.Ring.Int
import Mathlib.Data.Nat.Notation
import Mathlib.Logic.Function.Basic
import Mathlib.Logic.Relation
import Mathlib.Order.CompletePartialOrder
import Mathlib.Tactic.Common

namespace Utopia

/-- The parent links and marks set so far. -/
structure Marks where
  parent : ℕ → ℕ
  mark : ℕ → Bool

namespace Marks

variable (children : ℕ → List ℕ) (ok : ℕ → Bool)

/-- The visit of node `i`. -/
def visit (m : Marks) (i : ℕ) : Marks :=
  let parent := (children i).foldl (fun parent child => Function.update parent child i) m.parent
  ⟨parent, Function.update m.mark i (ok i && (i == 0 || m.mark (parent i)))⟩

/-- The visits of the first `n` nodes. -/
def forward : ℕ → Marks
  | 0 => ⟨fun _ => 0, fun _ => false⟩
  | n + 1 => (forward n).visit children ok n

/-- `i` and all its ancestors are all right. -/
def Shown (i : ℕ) : Prop :=
  ∀ a, Relation.ReflTransGen (fun p c => c ∈ children p) a i → ok a = true

/-- Parents stand before their children, and no node has two. -/
structure ParentFirst : Prop where
  before : ∀ p c, c ∈ children p → p < c
  unique : ∀ p q c, c ∈ children p → c ∈ children q → p = q

variable {children ok}

theorem link_apply (list : List ℕ) (parent : ℕ → ℕ) (i c : ℕ) :
    list.foldl (fun parent child => Function.update parent child i) parent c =
      if c ∈ list then i else parent c := by
  induction list generalizing parent with
  | nil => rfl
  | cons child list ih =>
      rw [List.foldl_cons, ih]
      by_cases hlist : c ∈ list
      · rw [if_pos hlist, if_pos (List.mem_cons_of_mem _ hlist)]
      · rw [if_neg hlist]
        by_cases hc : c = child
        · rw [hc, Function.update_self, if_pos List.mem_cons_self]
        · rw [Function.update_of_ne hc, if_neg]
          exact fun hmem => (List.mem_cons.mp hmem).elim hc hlist

/-- After `n` visits the children of the first `n` nodes know their parents. -/
theorem ParentFirst.forward_parent (h : ParentFirst children) {n p c : ℕ} (hp : p < n)
    (hc : c ∈ children p) : (forward children ok n).parent c = p := by
  induction n with
  | zero => exact absurd hp (Nat.not_lt_zero p)
  | succ n ih =>
      rw [forward, visit]
      dsimp only
      rw [link_apply]
      split_ifs with hn
      · exact h.unique n p c hn hc
      · refine ih (Nat.lt_of_le_of_ne (Nat.le_of_lt_succ hp) ?_)
        rintro rfl
        exact hn hc

theorem ParentFirst.shown_zero (h : ParentFirst children) :
    Shown children ok 0 ↔ ok 0 = true := by
  constructor
  · intro hshown
    exact hshown 0 .refl
  · intro hok a ha
    rcases Relation.ReflTransGen.cases_tail ha with rfl | ⟨p, _, hp⟩
    · exact hok
    · exact absurd (h.before p 0 hp) (Nat.not_lt_zero p)

theorem ParentFirst.shown_child (h : ParentFirst children) {p c : ℕ} (hc : c ∈ children p) :
    Shown children ok c ↔ ok c = true ∧ Shown children ok p := by
  constructor
  · intro hshown
    exact ⟨hshown c .refl, fun a ha => hshown a (ha.tail hc)⟩
  · rintro ⟨hok, hparent⟩ a ha
    rcases Relation.ReflTransGen.cases_tail ha with rfl | ⟨q, hq, hqc⟩
    · exact hok
    · rw [h.unique q p c hqc hc] at hq
      exact hparent a hq

/-- The pass marks exactly the nodes below the root that are shown. -/
theorem ParentFirst.forward_mark (h : ParentFirst children) {n i : ℕ} (hi : i < n)
    (hroot : Relation.ReflTransGen (fun p c => c ∈ children p) 0 i) :
    (forward children ok n).mark i = true ↔ Shown children ok i := by
  induction n generalizing i with
  | zero => exact absurd hi (Nat.not_lt_zero i)
  | succ n ih =>
      have hparent : ∀ p, i ∈ children p → (forward children ok (n + 1)).parent i = p := by
        intro p hp
        exact h.forward_parent (Nat.lt_trans (h.before p i hp) hi) hp
      rw [forward, visit]
      dsimp only
      rcases Nat.lt_succ_iff_lt_or_eq.mp hi with hlt | rfl
      · rw [Function.update_of_ne (Nat.ne_of_lt hlt)]
        exact ih hlt hroot
      · rw [Function.update_self]
        rcases Relation.ReflTransGen.cases_tail hroot with rfl | ⟨p, hp, hchild⟩
        · simp [h.shown_zero]
        · have hbefore := h.before p i hchild
          have hlink := hparent p hchild
          rw [forward, visit] at hlink
          dsimp only at hlink
          rw [hlink, h.shown_child hchild, ← ih hbefore hp]
          have hpos : i ≠ 0 := Nat.ne_of_gt (Nat.lt_of_le_of_lt (Nat.zero_le p) hbefore)
          simp [hpos]

end Marks

end Utopia
