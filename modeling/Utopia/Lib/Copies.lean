/-
Copying and filling one unit after the other: when this is the same as reading all bytes first.
-/
import Utopia.Lib.Memory

namespace Utopia

namespace Memory

variable {m m' : Memory} {dst src a b : Word} {k w n : ℕ}

/-! ### Bytes of words -/

/-- A word that was read has the bytes that stood there. -/
theorem read64_byte (m : Memory) (a : Word) {j : ℕ} (hj : j < 8) :
    (m.read64 a >>> (8 * j)).setWidth 8 = m (a + BitVec.ofNat 64 j) := by
  apply BitVec.eq_of_getLsbD_eq
  intro i hi
  simp only [read64, wordByte, BitVec.getLsbD_setWidth, BitVec.getLsbD_ushiftRight,
    BitVec.getLsbD_or, BitVec.getLsbD_shiftLeft, hi, decide_true, Bool.true_and]
  interval_cases j <;> interval_cases i <;> simp

/-- A word that is read in one place and stored in another takes its eight bytes along. -/
theorem write64_read64_apply (m m' : Memory) (a b x : Word) :
    m.write64 a (m'.read64 b) x = if (x - a).toNat < 8 then m' (b + (x - a)) else m x := by
  rw [write64]
  split_ifs with hx
  · rw [read64_byte m' b hx]
    congr 2
    apply BitVec.eq_of_toNat_eq
    rw [BitVec.toNat_ofNat]
    exact Nat.mod_eq_of_lt (by omega)
  · rfl

theorem write8_apply (m : Memory) (a x : Word) (v : Byte) :
    m.write8 a v x = if (x - a).toNat < 1 then v else m x := by
  have hiff : x = a ↔ (x - a).toNat < 1 := by
    rw [Nat.lt_one_iff]
    constructor
    · rintro rfl
      rw [BitVec.sub_self]
      rfl
    · intro hzero
      have hsub : x - a = 0 := BitVec.eq_of_toNat_eq hzero
      calc x = x - a + a := (BitVec.sub_add_cancel x a).symm
        _ = a := by rw [hsub]; exact BitVec.zero_add a
  rw [write8]
  simp only [hiff]

/-! ### Upwards -/

theorem toNat_sub_add_ofNat (x a : Word) (hk : k < 2 ^ 64) :
    (x - (a + BitVec.ofNat 64 k)).toNat =
      if k ≤ (x - a).toNat then (x - a).toNat - k else 2 ^ 64 + (x - a).toNat - k := by
  have hx := x.isLt
  have ha := a.isLt
  rw [BitVec.toNat_sub, BitVec.toNat_sub, BitVec.toNat_add, BitVec.toNat_ofNat]
  split_ifs <;> omega

theorem copy_zero (m : Memory) (dst src : Word) : m.copy dst src 0 = m :=
  funext fun _ => if_neg (Nat.not_lt_zero _)

/-- One more unit at the end: the bytes read have not been written yet. -/
theorem copy_append (hw : 0 < w) (hahead : (src - dst).toNat + k + w ≤ 2 ^ 64)
    (h : ∀ x, m' x = if (x - (dst + BitVec.ofNat 64 k)).toNat < w then
      m.copy dst src k (src + BitVec.ofNat 64 k + (x - (dst + BitVec.ofNat 64 k)))
      else m.copy dst src k x) : m' = m.copy dst src (k + w) := by
  funext x
  have hplace : src + BitVec.ofNat 64 k + (x - (dst + BitVec.ofNat 64 k)) = src + (x - dst) := by
    grind
  have hread : (src + (x - dst) - dst).toNat =
      ((src - dst).toNat + (x - dst).toNat) % 2 ^ 64 := by
    rw [← BitVec.toNat_add]
    congr 1
    grind
  have hx := (x - dst).isLt
  rw [h, hplace, toNat_sub_add_ofNat x dst (by omega), copy, copy, copy, hread]
  split_ifs <;> first | rfl | (exfalso; omega)

/-- What is still to be read is as it was. -/
theorem copy_ahead (hahead : (src - dst).toNat + k < 2 ^ 64) :
    m.copy dst src k (src + BitVec.ofNat 64 k) = m (src + BitVec.ofNat 64 k) := by
  have hsub : src + BitVec.ofNat 64 k - dst = src - dst + BitVec.ofNat 64 k := by
    grind
  rw [copy, hsub, toNat_add_of_lt] <;> rw [BitVec.toNat_ofNat]
  · exact if_neg (by omega)
  · omega

/-- One more byte at the end. -/
theorem copy_append_byte (hahead : (src - dst).toNat + k + 1 ≤ 2 ^ 64) :
    (m.copy dst src k).write8 (dst + BitVec.ofNat 64 k)
      (m.copy dst src k (src + BitVec.ofNat 64 k)) = m.copy dst src (k + 1) := by
  refine copy_append Nat.one_pos hahead fun x => ?_
  rw [write8_apply]
  split_ifs with hx
  · have hzero : x - (dst + BitVec.ofNat 64 k) = 0 :=
      BitVec.eq_of_toNat_eq (Nat.lt_one_iff.mp hx)
    have hsame (y : Word) : y + 0 = y := BitVec.add_zero y
    rw [hzero, hsame]
  · rfl

/-- From the top down, the same holds at the front. -/
theorem copy_prepend (m : Memory) (dst src : Word) (hbehind : (dst - src).toNat + k + 1 ≤ 2 ^ 64) :
    (m.copy (dst + 1) (src + 1) k).write8 dst (m.copy (dst + 1) (src + 1) k src) =
      m.copy dst src (k + 1) := by
  funext x
  have hplace : src + 1 + (x - (dst + 1)) = src + (x - dst) := by
    grind
  have hone (y : Word) : (y - (dst + 1)).toNat =
      if 1 ≤ (y - dst).toNat then (y - dst).toNat - 1 else 2 ^ 64 + (y - dst).toNat - 1 :=
    toNat_sub_add_ofNat y dst (by decide)
  have hself : (src - dst).toNat = (2 ^ 64 - (dst - src).toNat) % 2 ^ 64 := by
    have hs := src.isLt
    have hd := dst.isLt
    rw [BitVec.toNat_sub, BitVec.toNat_sub]
    omega
  have hkept : m.copy (dst + 1) (src + 1) k src = m src := by
    rw [copy, hone, hself]
    refine if_neg ?_
    split_ifs <;> omega
  have hx := (x - dst).isLt
  rw [write8_apply, hkept, copy, copy, hone, hplace]
  by_cases hfirst : (x - dst).toNat < 1
  · have hzero : x - dst = 0 := BitVec.eq_of_toNat_eq (Nat.lt_one_iff.mp hfirst)
    have hsame : src + (x - dst) = src := by
      rw [hzero]
      exact BitVec.add_zero src
    rw [if_pos hfirst, if_pos (by omega), hsame]
  · rw [if_neg hfirst]
    split_ifs <;> first | rfl | (exfalso; omega)

/-- Bytes copied to where they are. -/
theorem copy_self (m : Memory) (a : Word) (n : ℕ) : m.copy a a n = m := by
  funext x
  have hback : a + (x - a) = x := by
    grind
  rw [copy, hback, ite_self]

/-! ### Filling -/

theorem fill_zero (m : Memory) (a : Word) (v : Byte) : m.fill a 0 v = m :=
  funext fun _ => if_neg (Nat.not_lt_zero _)

theorem fill_append {v : Byte} (hw : 0 < w) (hfit : k + w ≤ 2 ^ 64)
    (h : ∀ x, m' x = if (x - (a + BitVec.ofNat 64 k)).toNat < w then v else m.fill a k v x) :
    m' = m.fill a (k + w) v := by
  funext x
  have hx := (x - a).isLt
  rw [h, toNat_sub_add_ofNat x a (by omega), fill, fill]
  split_ifs <;> first | rfl | (exfalso; omega)

end Memory

end Utopia
