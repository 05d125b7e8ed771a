/-
Words stored one after the other, at any places: the last store of a byte is the one that counts.
-/
import Mathlib.Data.List.Induction
import Utopia.Lib.Fields

namespace Utopia

theorem lookup_map_key {α β γ : Type} [BEq α] [LawfulBEq α] [BEq β] [LawfulBEq β] {f : α → β}
    {a : α} {ws : List (α × γ)} (hinj : ∀ w ∈ ws, f a = f w.1 → a = w.1) :
    (ws.map fun w => (f w.1, w.2)).lookup (f a) = ws.lookup a := by
  induction ws with
  | nil => rfl
  | cons w ws ih =>
      rw [List.forall_mem_cons] at hinj
      rw [List.map_cons, List.lookup_cons, List.lookup_cons, ih hinj.2]
      by_cases heq : a = w.1
      · rw [beq_iff_eq.mpr heq, beq_iff_eq.mpr (congrArg f heq)]
      · rw [beq_eq_false_iff_ne.mpr heq, beq_eq_false_iff_ne.mpr (mt hinj.1 heq)]

namespace Memory

/-- Store each word at its address. -/
def storeWords (m : Memory) (ws : List (Word × Word)) : Memory :=
  ws.foldl (fun m w => m.write64 w.1 w.2) m

variable {m m' : Memory} {ws vs : List (Word × Word)} {w : Word × Word} {a x : Word}

theorem storeWords_nil (m : Memory) : m.storeWords [] = m := rfl

theorem storeWords_cons (m : Memory) (w : Word × Word) (ws : List (Word × Word)) :
    m.storeWords (w :: ws) = (m.write64 w.1 w.2).storeWords ws := rfl

theorem storeWords_append (m : Memory) (ws vs : List (Word × Word)) :
    m.storeWords (ws ++ vs) = (m.storeWords ws).storeWords vs := List.foldl_append

theorem storeWords_concat (m : Memory) (ws : List (Word × Word)) (w : Word × Word) :
    m.storeWords (ws ++ [w]) = (m.storeWords ws).write64 w.1 w.2 := storeWords_append m ws [w]

/-- A byte that no word reaches stays as it is. -/
theorem storeWords_of_notMem (h : ∀ w ∈ ws, x ∉ reach w.1 8) : m.storeWords ws x = m x := by
  induction ws using List.reverseRecOn with
  | nil => rfl
  | append_singleton ws w ih =>
      rw [List.forall_mem_append, List.forall_mem_singleton] at h
      rw [storeWords_concat, write64]
      exact (if_neg h.2).trans (ih h.1)

/-- A byte that some word reaches does not depend on the memory before. -/
theorem storeWords_of_mem (h : ∃ w ∈ ws, x ∈ reach w.1 8) :
    m.storeWords ws x = m'.storeWords ws x := by
  induction ws using List.reverseRecOn with
  | nil =>
      obtain ⟨w, hw, -⟩ := h
      exact absurd hw List.not_mem_nil
  | append_singleton ws w ih =>
      rw [storeWords_concat, storeWords_concat, write64, write64]
      by_cases hlast : (x - w.1).toNat < 8
      · rw [if_pos hlast, if_pos hlast]
      · rw [if_neg hlast, if_neg hlast]
        obtain ⟨v, hv, hreach⟩ := h
        rcases List.mem_append.mp hv with hv | hv
        · exact ih ⟨v, hv, hreach⟩
        · rw [List.mem_singleton.mp hv] at hreach
          exact absurd hreach hlast

/-- To store the same words once more changes nothing. -/
theorem storeWords_idem (m : Memory) (ws : List (Word × Word)) :
    (m.storeWords ws).storeWords ws = m.storeWords ws := by
  funext x
  by_cases hx : ∃ w ∈ ws, x ∈ reach w.1 8
  · exact storeWords_of_mem hx
  · exact storeWords_of_notMem fun w hw hreach => hx ⟨w, hw, hreach⟩

/-- An aligned word is the last that was stored there. -/
theorem read64_storeWords (halign : ∀ w ∈ ws, w.1.toNat % 8 = 0) (ha : a.toNat % 8 = 0) :
    (m.storeWords ws).read64 a = (ws.reverse.lookup a).getD (m.read64 a) := by
  induction ws using List.reverseRecOn with
  | nil => rfl
  | append_singleton ws w ih =>
      rw [List.forall_mem_append, List.forall_mem_singleton] at halign
      rw [storeWords_concat, List.reverse_append, List.reverse_singleton, List.singleton_append,
        List.lookup_cons]
      by_cases heq : a = w.1
      · rw [heq, read64_write64, beq_self_eq_true]
        rfl
      · have hne : a.toNat ≠ w.1.toNat := fun h => heq (BitVec.eq_of_toNat_eq h)
        have halt := a.isLt
        have hwlt := w.1.isLt
        rw [read64_write64_of_disjoint _ _ (by omega) (by omega) (by omega), ih halign.1,
          beq_eq_false_iff_ne.mpr heq]

/-! ### A row of words -/

/-- Words stored into slots of the row of words at `a`. -/
def storeSlots (m : Memory) (a : Word) (vs : List (ℕ × Word)) : Memory :=
  vs.foldl (fun m v => m.write64 (a + BitVec.ofNat 64 (8 * v.1)) v.2) m

variable {us : List (ℕ × Word)} {n k : ℕ}

theorem storeSlots_append (m : Memory) (a : Word) (us vs : List (ℕ × Word)) :
    m.storeSlots a (us ++ vs) = (m.storeSlots a us).storeSlots a vs := List.foldl_append

theorem slot_toNat (hfit : a.toNat + 8 * n ≤ 2 ^ 64) (hk : k < n) :
    (a + BitVec.ofNat 64 (8 * k)).toNat = a.toNat + 8 * k := by
  rw [BitVec.toNat_add, BitVec.toNat_ofNat]
  omega

/-- Only the row is written. -/
theorem storeSlots_eqOn (hfit : a.toNat + 8 * n ≤ 2 ^ 64) (hus : ∀ v ∈ us, v.1 < n) :
    Set.EqOn (m.storeSlots a us) m (span a (8 * n))ᶜ := by
  induction us generalizing m with
  | nil => exact Set.eqOn_refl _ _
  | cons v us ih =>
      rw [List.forall_mem_cons] at hus
      have hslot := slot_toNat hfit hus.1
      have hone := m.write64_eqOn v.2 (a := a + BitVec.ofNat 64 (8 * v.1)) (by omega)
      have hinside := span_subset_span (a := a + BitVec.ofNat 64 (8 * v.1)) (b := a) (n := 8)
        (k := 8 * n) (by omega) (by omega)
      exact (ih hus.2).trans (hone.mono (Set.compl_subset_compl.mpr hinside))

/-- A slot holds the last word that was stored into it. -/
theorem read64_storeSlots (hfit : a.toNat + 8 * n ≤ 2 ^ 64) (hus : ∀ v ∈ us, v.1 < n)
    (hk : k < n) :
    (m.storeSlots a us).read64 (a + BitVec.ofNat 64 (8 * k)) =
      (us.reverse.lookup k).getD (m.read64 (a + BitVec.ofNat 64 (8 * k))) := by
  induction us using List.reverseRecOn with
  | nil => rfl
  | append_singleton us v ih =>
      rw [List.forall_mem_append, List.forall_mem_singleton] at hus
      rw [storeSlots_append, List.reverse_append, List.reverse_singleton, List.singleton_append,
        List.lookup_cons]
      change ((m.storeSlots a us).write64 _ v.2).read64 _ = _
      by_cases heq : k = v.1
      · rw [heq, read64_write64, beq_self_eq_true]
        rfl
      · have hslot := slot_toNat hfit hk
        have hslot' := slot_toNat hfit hus.2
        rw [read64_write64_of_disjoint _ _ (by omega) (by omega) (by omega), ih hus.1,
          beq_eq_false_iff_ne.mpr heq]

end Memory

end Utopia
