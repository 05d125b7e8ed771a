/-
The block operations of `mm/utils.c`, with their loops over words and over the bytes behind them.
-/
import Utopia.Lib.Copies

namespace Utopia

open Memory

/-! ### The code -/

/-- The loop of `memcpy` over the words. -/
def memcpyWords (m : Memory) (dest src : Word) : (rounds : ℕ) → Memory
  | 0 => m
  | i + 1 =>
      let m := memcpyWords m dest src i
      m.write64 (dest + BitVec.ofNat 64 i * 8) (m.read64 (src + BitVec.ofNat 64 i * 8))

/-- The loop of `memcpy` over the bytes from `start` on. -/
def memcpyBytes (m : Memory) (dest src : Word) (start : ℕ) : (rounds : ℕ) → Memory
  | 0 => m
  | i + 1 =>
      let m := memcpyBytes m dest src start i
      m.write8 (dest + BitVec.ofNat 64 (start + i)) (m (src + BitVec.ofNat 64 (start + i)))

/-- `memcpy`. -/
def memcpy (m : Memory) (dest src n : Word) : Memory :=
  let n64 := n / 8
  memcpyBytes (memcpyWords m dest src n64.toNat) dest src (n64 * 8).toNat (n - n64 * 8).toNat

/-- `memcmp`. -/
def memcmpFrom (m : Memory) (a b : Word) : (rounds : ℕ) → (i : ℕ) → Int
  | 0, _ => 0
  | rounds + 1, i =>
      if m (a + BitVec.ofNat 64 i) ≠ m (b + BitVec.ofNat 64 i) then 1
      else memcmpFrom m a b rounds (i + 1)

def memcmp (m : Memory) (a b n : Word) : Int := memcmpFrom m a b n.toNat 0

/-- `v64`: the byte eight times. -/
def memsetWord (val : Byte) : Word :=
  let v64 := val.setWidth 64
  let v64 := v64 ||| v64 <<< 8
  let v64 := v64 ||| v64 <<< 16
  v64 ||| v64 <<< 32

/-- The loop of `memset` over the words. -/
def memsetWords (m : Memory) (dest : Word) (val : Byte) : (rounds : ℕ) → Memory
  | 0 => m
  | i + 1 => (memsetWords m dest val i).write64 (dest + BitVec.ofNat 64 i * 8) (memsetWord val)

/-- The loop of `memset` over the bytes from `start` on. -/
def memsetBytes (m : Memory) (dest : Word) (val : Byte) (start : ℕ) : (rounds : ℕ) → Memory
  | 0 => m
  | i + 1 =>
      (memsetBytes m dest val start i).write8 (dest + BitVec.ofNat 64 (start + i)) val

/-- `memset`. -/
def memset (m : Memory) (dest : Word) (val : BitVec 32) (n : Word) : Memory :=
  let n64 := n / 8
  memsetBytes (memsetWords m dest (val.setWidth 8) n64.toNat) dest (val.setWidth 8)
    (n64 * 8).toNat (n - n64 * 8).toNat

/-- The loop of `memmove` that goes up. -/
def memmoveUp (m : Memory) (d s : Word) : (n : ℕ) → Memory
  | 0 => m
  | n + 1 => memmoveUp (m.write8 d (m s)) (d + 1) (s + 1) n

/-- The loop of `memmove` that goes down. -/
def memmoveDown (m : Memory) (d s : Word) : (n : ℕ) → Memory
  | 0 => m
  | n + 1 => memmoveDown (m.write8 (d - 1) (m (s - 1))) (d - 1) (s - 1) n

/-- `memmove`. -/
def memmove (m : Memory) (dst src n : Word) : Memory :=
  if dst < src then memmoveUp m dst src n.toNat
  else if src < dst then memmoveDown m (dst + n) (src + n) n.toNat
  else m

/-! ### Words and bytes -/

section Copy

variable {m : Memory} {dest src : Word} {n : ℕ}

theorem div_eight_toNat (n : Word) : (n / 8).toNat = n.toNat / 8 := by
  rw [BitVec.toNat_udiv]
  rfl

theorem div_eight_mul_toNat (n : Word) : (n / 8 * 8).toNat = 8 * (n.toNat / 8) := by
  have hlt := n.isLt
  rw [BitVec.toNat_mul, div_eight_toNat]
  change n.toNat / 8 * 8 % 2 ^ 64 = _
  omega

theorem sub_div_eight_toNat (n : Word) : (n - n / 8 * 8).toNat = n.toNat % 8 := by
  have hlt := n.isLt
  rw [BitVec.toNat_sub, div_eight_mul_toNat]
  omega

theorem ofNat_mul_eight (i : ℕ) : BitVec.ofNat 64 i * 8 = BitVec.ofNat 64 (8 * i) := by
  rw [Nat.mul_comm, BitVec.ofNat_mul]
  rfl

theorem memcpyWords_eq (hahead : (src - dest).toNat + 8 * n ≤ 2 ^ 64) :
    memcpyWords m dest src n = m.copy dest src (8 * n) := by
  induction n with
  | zero => exact (copy_zero m dest src).symm
  | succ n ih =>
      rw [memcpyWords, ih (by omega), ofNat_mul_eight, Nat.mul_succ]
      refine copy_append (by decide) (by omega) fun x => ?_
      exact write64_read64_apply _ _ _ _ x

theorem memcpyBytes_eq {start : ℕ} (hahead : (src - dest).toNat + start + n ≤ 2 ^ 64) :
    memcpyBytes (m.copy dest src start) dest src start n = m.copy dest src (start + n) := by
  induction n with
  | zero => rfl
  | succ n ih =>
      rw [memcpyBytes, ih (by omega), ← Nat.add_assoc]
      exact copy_append_byte (by omega)

end Copy

/-- `memcpy`, word by word and then byte by byte, is the same as reading all bytes first, where the
destination does not start within the source, behind its first byte. -/
theorem memcpy_eq_copy (m : Memory) {dest src n : Word}
    (hahead : (src - dest).toNat + n.toNat ≤ 2 ^ 64) :
    memcpy m dest src n = m.copy dest src n.toNat := by
  have hsplit : 8 * (n.toNat / 8) + n.toNat % 8 = n.toNat := Nat.div_add_mod _ _
  rw [memcpy]
  simp only [div_eight_toNat, div_eight_mul_toNat, sub_div_eight_toNat]
  rw [memcpyWords_eq (by omega), memcpyBytes_eq (by omega), hsplit]

/-- The low byte of each address. -/
def sampleBytes : Memory := fun x => x.setWidth 8

/-- Seventeen bytes, moved down by one. -/
theorem memcpy_eq_copy_sample :
    memcpy sampleBytes 0x1000 0x1001 17 = sampleBytes.copy 0x1000 0x1001 17 :=
  memcpy_eq_copy sampleBytes (by decide)

/-! ### Filling -/

theorem memsetWord_byte (val : Byte) {j : ℕ} (hj : j < 8) :
    (memsetWord val >>> (8 * j)).setWidth 8 = val := by
  apply BitVec.eq_of_getLsbD_eq
  intro i hi
  simp only [memsetWord, BitVec.getLsbD_setWidth, BitVec.getLsbD_ushiftRight, BitVec.getLsbD_or,
    BitVec.getLsbD_shiftLeft, hi, decide_true, Bool.true_and]
  interval_cases j <;> interval_cases i <;> simp

theorem memsetWords_eq (m : Memory) (dest : Word) (val : Byte) {n : ℕ} (hfit : 8 * n ≤ 2 ^ 64) :
    memsetWords m dest val n = m.fill dest (8 * n) val := by
  induction n with
  | zero => exact (fill_zero m dest val).symm
  | succ n ih =>
      rw [memsetWords, ih (by omega), ofNat_mul_eight, Nat.mul_succ]
      refine fill_append (by decide) (by omega) fun x => ?_
      rw [write64]
      split_ifs with hx
      · exact memsetWord_byte val hx
      · rfl

theorem memsetBytes_eq (m : Memory) (dest : Word) (val : Byte) {start n : ℕ}
    (hfit : start + n ≤ 2 ^ 64) :
    memsetBytes (m.fill dest start val) dest val start n = m.fill dest (start + n) val := by
  induction n with
  | zero => rfl
  | succ n ih =>
      rw [memsetBytes, ih (by omega), ← Nat.add_assoc]
      exact fill_append Nat.one_pos (by omega) fun x => write8_apply _ _ x _

/-- `memset` fills its range with the lowest byte of the value. -/
theorem memset_eq_fill (m : Memory) (dest : Word) (val : BitVec 32) (n : Word) :
    memset m dest val n = m.fill dest n.toNat (val.setWidth 8) := by
  have hlt := n.isLt
  have hsplit : 8 * (n.toNat / 8) + n.toNat % 8 = n.toNat := Nat.div_add_mod _ _
  rw [memset]
  simp only [div_eight_toNat, div_eight_mul_toNat, sub_div_eight_toNat]
  rw [memsetWords_eq m _ _ (by omega), memsetBytes_eq m _ _ (by omega), hsplit]

/-! ### Ranges that overlap -/

section Move

variable {m : Memory} {d s : Word} {k n : ℕ}

theorem memmoveUp_eq (hahead : (s - d).toNat + k + n ≤ 2 ^ 64) :
    memmoveUp (m.copy d s k) (d + BitVec.ofNat 64 k) (s + BitVec.ofNat 64 k) n =
      m.copy d s (k + n) := by
  have hnext (x : Word) (k : ℕ) : x + BitVec.ofNat 64 k + 1 = x + BitVec.ofNat 64 (k + 1) := by
    rw [BitVec.ofNat_add, BitVec.add_assoc]
    rfl
  induction n generalizing k with
  | zero => rfl
  | succ n ih =>
      have hstep : (m.copy d s k).write8 (d + BitVec.ofNat 64 k)
          (m.copy d s k (s + BitVec.ofNat 64 k)) = m.copy d s (k + 1) :=
        copy_append_byte (by omega)
      rw [memmoveUp, hstep, hnext, hnext, ih (by omega), Nat.add_assoc, Nat.add_comm 1]

theorem memmoveDown_eq (hbehind : (d - s).toNat + k + n ≤ 2 ^ 64) :
    memmoveDown (m.copy d s k) d s n =
      m.copy (d - BitVec.ofNat 64 n) (s - BitVec.ofNat 64 n) (k + n) := by
  induction n generalizing d s k with
  | zero =>
      have hsame (x : Word) : x - BitVec.ofNat 64 0 = x := BitVec.sub_zero x
      rw [hsame, hsame]
      rfl
  | succ n ih =>
      have hback (x : Word) : x - 1 + 1 = x := BitVec.sub_add_cancel x 1
      have hdiff : d - 1 - (s - 1) = d - s := by
        grind
      have hdown (x : Word) : x - 1 - BitVec.ofNat 64 n = x - BitVec.ofNat 64 (n + 1) := by
        rw [BitVec.ofNat_add]
        grind
      have hstep := copy_prepend m (d - 1) (s - 1) (k := k) (by rw [hdiff]; omega)
      rw [hback, hback] at hstep
      rw [memmoveDown, hstep, ih (by rw [hdiff]; omega), hdown, hdown, Nat.add_assoc,
        Nat.add_comm 1]

end Move

/-- `memmove` is the same as reading all bytes first, however the ranges overlap. -/
theorem memmove_eq_copy (m : Memory) {dst src n : Word} (hdst : dst.toNat + n.toNat ≤ 2 ^ 64)
    (hsrc : src.toNat + n.toNat ≤ 2 ^ 64) :
    memmove m dst src n = m.copy dst src n.toNat := by
  have hnat : BitVec.ofNat 64 n.toNat = n := by simp
  rw [memmove]
  split_ifs with hup hdown
  · have hlt : dst.toNat < src.toNat := hup
    have hsub : (src - dst).toNat = src.toNat - dst.toNat := by
      rw [BitVec.toNat_sub]
      omega
    have hloop := memmoveUp_eq (m := m) (d := dst) (s := src) (k := 0) (n := n.toNat) (by omega)
    have hsame (x : Word) : x + BitVec.ofNat 64 0 = x := BitVec.add_zero x
    rw [copy_zero, hsame, hsame, Nat.zero_add] at hloop
    exact hloop
  · have hlt : src.toNat < dst.toNat := hdown
    have hsub : (dst + n - (src + n)).toNat = dst.toNat - src.toNat := by
      have heq : dst + n - (src + n) = dst - src := by
        grind
      rw [heq, BitVec.toNat_sub]
      omega
    have hloop := memmoveDown_eq (m := m) (d := dst + n) (s := src + n) (k := 0) (n := n.toNat)
      (by omega)
    rw [copy_zero, hnat, BitVec.add_sub_cancel, BitVec.add_sub_cancel, Nat.zero_add] at hloop
    exact hloop
  · have heq : dst = src := BitVec.eq_of_toNat_eq
      (Nat.le_antisymm (not_lt.mp hdown) (not_lt.mp hup))
    rw [heq, copy_self]

/-- Four bytes, moved up by one. -/
theorem memmove_eq_copy_sample :
    memmove sampleBytes 0x1001 0x1000 4 = sampleBytes.copy 0x1001 0x1000 4 :=
  memmove_eq_copy sampleBytes (by decide) (by decide)

/-! ### Comparing -/

theorem memcmpFrom_eq (m : Memory) (a b : Word) (n i : ℕ) :
    memcmpFrom m a b n i =
      if ∀ j < n, m (a + BitVec.ofNat 64 (i + j)) = m (b + BitVec.ofNat 64 (i + j)) then 0
      else 1 := by
  induction n generalizing i with
  | zero => exact (if_pos fun j hj => absurd hj (Nat.not_lt_zero j)).symm
  | succ n ih =>
      have hiff : (∀ j < n + 1, m (a + BitVec.ofNat 64 (i + j)) = m (b + BitVec.ofNat 64 (i + j))) ↔
          m (a + BitVec.ofNat 64 i) = m (b + BitVec.ofNat 64 i) ∧ ∀ j < n,
            m (a + BitVec.ofNat 64 (i + 1 + j)) = m (b + BitVec.ofNat 64 (i + 1 + j)) := by
        rw [Nat.forall_lt_succ_left]
        simp only [Nat.add_zero, Nat.add_assoc, Nat.add_comm 1]
      rw [memcmpFrom, ih]
      simp only [hiff]
      by_cases hfirst : m (a + BitVec.ofNat 64 i) = m (b + BitVec.ofNat 64 i)
      · rw [if_neg (not_not.mpr hfirst)]
        simp only [hfirst, true_and]
      · rw [if_pos hfirst, if_neg fun h => hfirst h.1]

/-- `memcmp` says whether two ranges hold the same bytes. -/
theorem memcmp_eq (m : Memory) (a b n : Word) :
    memcmp m a b n =
      if ∀ j < n.toNat, m (a + BitVec.ofNat 64 j) = m (b + BitVec.ofNat 64 j) then 0 else 1 := by
  rw [memcmp, memcmpFrom_eq]
  simp only [Nat.zero_add]

end Utopia
