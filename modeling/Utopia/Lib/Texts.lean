/-
Texts that end with a NUL and rows of words that end with a null, in memory: what it is to hold
them, and what the usual loops read where they are held.
-/
import Mathlib.Data.List.GetD
import Mathlib.Data.List.Induction
import Utopia.Lib.Memory

namespace Utopia

namespace Memory

/-- A text and the NUL behind it. -/
def HoldsText (m : Memory) : Word → List Byte → Prop
  | a, [] => m a = 0
  | a, b :: s => b ≠ 0 ∧ m a = b ∧ HoldsText m (a + 1) s

/-- Words one behind the other. -/
def HoldsWords (m : Memory) : Word → List Word → Prop
  | _, [] => True
  | a, v :: vs => m.read64 a = v ∧ HoldsWords m (a + 8) vs

/-- The bytes in front of the next NUL. -/
def readText (m : Memory) : (fuel : ℕ) → Word → Option (List Byte)
  | 0, _ => none
  | fuel + 1, a => if m a = 0 then some [] else (m.readText fuel (a + 1)).map (m a :: ·)

/-- The words in front of the next null, and the address behind it. -/
def readVector (m : Memory) : (fuel : ℕ) → Word → Option (List Word × Word)
  | 0, _ => none
  | fuel + 1, a =>
      if m.read64 a = 0 then some ([], a + 8)
      else (m.readVector fuel (a + 8)).map fun r => (m.read64 a :: r.1, r.2)

/-- Pairs of words, up to one that begins with a null. -/
def readPairs (m : Memory) : (fuel : ℕ) → Word → Option (List (Word × Word))
  | 0, _ => none
  | fuel + 1, a =>
      if m.read64 a = 0 then some []
      else (m.readPairs fuel (a + 16)).map ((m.read64 a, m.read64 (a + 8)) :: ·)

variable {m m' : Memory} {a b : Word} {s : List Byte} {vs ws : List Word}

/-! ### Texts -/

theorem add_ofNat_succ (a : Word) (i : ℕ) :
    a + BitVec.ofNat 64 (i + 1) = a + 1 + BitVec.ofNat 64 i := by
  rw [Nat.add_comm, BitVec.ofNat_add, BitVec.add_assoc]
  rfl

theorem add_ofNat_zero (a : Word) : a + BitVec.ofNat 64 0 = a := BitVec.add_zero a

/-- A text is held where its bytes and the NUL are. -/
theorem holdsText_iff : m.HoldsText a s ↔
    0 ∉ s ∧ ∀ i ≤ s.length, m (a + BitVec.ofNat 64 i) = s.getD i 0 := by
  induction s generalizing a with
  | nil =>
      rw [HoldsText]
      constructor
      · intro h
        refine ⟨List.not_mem_nil, fun i hi => ?_⟩
        rw [Nat.le_zero.mp hi, add_ofNat_zero]
        exact h
      · intro h
        have hfirst := h.2 0 le_rfl
        rw [add_ofNat_zero] at hfirst
        exact hfirst
  | cons b s ih =>
      rw [HoldsText, ih, List.mem_cons, not_or]
      constructor
      · rintro ⟨hne, hfirst, hrest, hbytes⟩
        refine ⟨⟨hne.symm, hrest⟩, fun i hi => ?_⟩
        cases i with
        | zero =>
            rw [add_ofNat_zero]
            exact hfirst
        | succ i =>
            rw [add_ofNat_succ]
            exact hbytes i (Nat.le_of_succ_le_succ hi)
      · rintro ⟨⟨hne, hrest⟩, hbytes⟩
        have hfirst := hbytes 0 (Nat.zero_le _)
        rw [add_ofNat_zero] at hfirst
        refine ⟨Ne.symm hne, hfirst, hrest, fun i hi => ?_⟩
        have hbyte := hbytes (i + 1) (Nat.succ_le_succ hi)
        rw [add_ofNat_succ] at hbyte
        exact hbyte

/-- The same bytes elsewhere are the same text. -/
theorem HoldsText.congr (h : m.HoldsText a s)
    (heq : ∀ i ≤ s.length, m' (b + BitVec.ofNat 64 i) = m (a + BitVec.ofNat 64 i)) :
    m'.HoldsText b s := by
  rw [holdsText_iff] at h ⊢
  exact ⟨h.1, fun i hi => (heq i hi).trans (h.2 i hi)⟩

/-- A text that was stored with its NUL. -/
theorem holdsText_store (hs : 0 ∉ s) (hlen : s.length < 2 ^ 64) :
    (m.store a (s ++ [0])).HoldsText a s := by
  refine holdsText_iff.mpr ⟨hs, fun i hi => ?_⟩
  have hsub : (a + BitVec.ofNat 64 i - a).toNat = i := by
    rw [BitVec.add_comm, BitVec.add_sub_cancel, BitVec.toNat_ofNat]
    exact Nat.mod_eq_of_lt (by omega)
  rw [store, hsub, List.getD_eq_getElem?_getD, List.getD_eq_getElem?_getD]
  by_cases hlt : i < s.length
  · rw [List.getElem?_append_left hlt, List.getElem?_eq_getElem hlt]
    rfl
  · have heq : i = s.length := by omega
    subst heq
    simp

/-- The loop over a text reads it, and there is no other. -/
theorem HoldsText.readText (h : m.HoldsText a s) {fuel : ℕ} (hfuel : s.length < fuel) :
    m.readText fuel a = some s := by
  induction s generalizing a fuel with
  | nil =>
      obtain ⟨fuel, rfl⟩ := Nat.exists_eq_succ_of_ne_zero (Nat.ne_of_gt hfuel)
      exact if_pos h
  | cons b s ih =>
      obtain ⟨hne, rfl, hrest⟩ := h
      cases fuel with
      | zero => cases hfuel
      | succ fuel =>
          rw [Memory.readText, if_neg hne, ih hrest (Nat.lt_of_succ_lt_succ hfuel)]
          rfl

theorem HoldsText.unique {s' : List Byte} (h : m.HoldsText a s) (h' : m.HoldsText a s') :
    s = s' := by
  have hread := h.readText (Nat.lt_succ_of_le (Nat.le_max_left s.length s'.length))
  rw [h'.readText (Nat.lt_succ_of_le (Nat.le_max_right s.length s'.length))] at hread
  exact (Option.some.inj hread).symm

/-! ### Rows of words -/

theorem holdsWords_append : m.HoldsWords a (vs ++ ws) ↔
    m.HoldsWords a vs ∧ m.HoldsWords (a + 8 * BitVec.ofNat 64 vs.length) ws := by
  induction vs generalizing a with
  | nil =>
      have hzero : a + 8 * BitVec.ofNat 64 ([] : List Word).length = a := by simp
      rw [List.nil_append, hzero]
      exact (and_iff_right trivial).symm
  | cons v vs ih =>
      have hstep : a + 8 * BitVec.ofNat 64 (v :: vs).length =
          a + 8 + 8 * BitVec.ofNat 64 vs.length := by
        rw [List.length_cons, BitVec.ofNat_add, BitVec.mul_add]
        change a + (8 * BitVec.ofNat 64 vs.length + 8) = _
        rw [BitVec.add_comm (8 * _), BitVec.add_assoc]
      rw [List.cons_append, HoldsWords, HoldsWords, ih, hstep, and_assoc]

theorem holdsWords_iff : m.HoldsWords a vs ↔
    ∀ i < vs.length, m.read64 (a + 8 * BitVec.ofNat 64 i) = vs.getD i 0 := by
  induction vs using List.reverseRecOn with
  | nil => exact iff_of_true trivial fun i hi => absurd hi (Nat.not_lt_zero i)
  | append_singleton vs v ih =>
      rw [holdsWords_append, ih, HoldsWords, HoldsWords, List.length_append, List.length_singleton]
      constructor
      · rintro ⟨hbefore, hlast, -⟩ i hi
        by_cases hlt : i < vs.length
        · rw [hbefore i hlt, List.getD_append _ _ _ _ hlt]
        · have heq : i = vs.length := by omega
          subst heq
          rw [hlast, List.getD_append_right _ _ _ _ le_rfl, Nat.sub_self]
          rfl
      · intro h
        refine ⟨fun i hi => ?_, ?_, trivial⟩
        · rw [h i (by omega), List.getD_append _ _ _ _ hi]
        · rw [h vs.length (by omega), List.getD_append_right _ _ _ _ le_rfl, Nat.sub_self]
          rfl

/-- The loop up to the null. -/
theorem HoldsWords.readVector (h : m.HoldsWords a (vs ++ [0])) (hne : 0 ∉ vs) {fuel : ℕ}
    (hfuel : vs.length < fuel) :
    m.readVector fuel a = some (vs, a + 8 * BitVec.ofNat 64 (vs.length + 1)) := by
  induction vs generalizing a fuel with
  | nil =>
      obtain ⟨fuel, rfl⟩ := Nat.exists_eq_succ_of_ne_zero (Nat.ne_of_gt hfuel)
      exact if_pos h.1
  | cons v vs ih =>
      obtain ⟨rfl, hrest⟩ := h
      rw [List.mem_cons, not_or] at hne
      cases fuel with
      | zero => cases hfuel
      | succ fuel =>
          have hstep : a + 8 + 8 * BitVec.ofNat 64 (vs.length + 1) =
              a + 8 * BitVec.ofNat 64 (vs.length + 1 + 1) := by
            rw [BitVec.ofNat_add (vs.length + 1) 1, BitVec.mul_add, BitVec.add_assoc,
              BitVec.add_comm 8]
            rfl
          rw [Memory.readVector, if_neg (Ne.symm hne.1), ih hrest hne.2
            (Nat.lt_of_succ_lt_succ hfuel), List.length_cons, Option.map_some, hstep]

/-- The words of pairs. -/
def pairWords (ps : List (Word × Word)) : List Word := ps.flatMap fun p => [p.1, p.2]

theorem HoldsWords.readPairs {ps : List (Word × Word)}
    (h : m.HoldsWords a (pairWords ps ++ [0])) (hne : ∀ p ∈ ps, p.1 ≠ 0) {fuel : ℕ}
    (hfuel : ps.length < fuel) : m.readPairs fuel a = some ps := by
  induction ps generalizing a fuel with
  | nil =>
      obtain ⟨fuel, rfl⟩ := Nat.exists_eq_succ_of_ne_zero (Nat.ne_of_gt hfuel)
      exact if_pos h.1
  | cons p ps ih =>
      obtain ⟨hfirst, hsecond, hrest⟩ := h
      cases fuel with
      | zero => cases hfuel
      | succ fuel =>
          have hstep : a + 8 + 8 = a + 16 := BitVec.add_assoc a 8 8
          rw [hstep] at hrest
          rw [Memory.readPairs, hfirst, hsecond, if_neg (hne p List.mem_cons_self),
            ih hrest (fun q hq => hne q (List.mem_cons_of_mem p hq)) (Nat.lt_of_succ_lt_succ hfuel)]
          rfl

end Memory

end Utopia
