/-
Byte-addressed memory with 64-bit words, and the frame facts about it: which
bytes an access touches, and what every other byte keeps.
-/
import Mathlib.Algebra.Order.Ring.Int
import Mathlib.Data.Set.Function
import Mathlib.Order.CompletePartialOrder
import Mathlib.Tactic.IntervalCases

namespace Utopia

/-- A 64-bit machine word: `uint64_t`, `size_t`, `uintptr_t` or a pointer. -/
abbrev Word := BitVec 64

abbrev Byte := BitVec 8

/-- The bytes the kernel can address. -/
abbrev Memory := Word → Byte

/-- The `n` addresses from `a` on, not wrapping around the address space. -/
def span (a : Word) (n : Nat) : Set Word :=
  { x | a.toNat ≤ x.toNat ∧ x.toNat < a.toNat + n }

/-- The addresses from `start` up to but not including `stop`. -/
def between (start stop : Nat) : Set Word :=
  { x | start ≤ x.toNat ∧ x.toNat < stop }

theorem mem_span {a x : Word} {n : Nat} :
    x ∈ span a n ↔ a.toNat ≤ x.toNat ∧ x.toNat < a.toNat + n :=
  Iff.rfl

theorem mem_between {start stop : Nat} {x : Word} :
    x ∈ between start stop ↔ start ≤ x.toNat ∧ x.toNat < stop :=
  Iff.rfl

theorem span_eq_between (a : Word) (n : Nat) :
    span a n = between a.toNat (a.toNat + n) :=
  rfl

/-- Modular offsets and spans agree as long as the span does not wrap. -/
theorem sub_toNat_lt_iff_mem_span {a x : Word} {n : Nat}
    (hfit : a.toNat + n ≤ 2 ^ 64) : (x - a).toNat < n ↔ x ∈ span a n := by
  have hx := x.isLt
  have ha := a.isLt
  rw [mem_span, BitVec.toNat_sub]
  omega

theorem span_subset_span {a b : Word} {n k : Nat} (hle : b.toNat ≤ a.toNat)
    (hend : a.toNat + n ≤ b.toNat + k) : span a n ⊆ span b k := by
  intro x hx
  rw [mem_span] at hx ⊢
  omega

theorem toNat_add_of_lt {a b : Word} (hlt : a.toNat + b.toNat < 2 ^ 64) :
    (a + b).toNat = a.toNat + b.toNat := by
  rw [BitVec.toNat_add, Nat.mod_eq_of_lt hlt]

/-- Clearing the low `k` bits rounds down to a multiple of `2 ^ k`. -/
theorem toNat_and_not_mask {x mask : Word} {k : Nat}
    (hmask : mask.toNat = 2 ^ k - 1) :
    (x &&& ~~~mask).toNat = x.toNat / 2 ^ k * 2 ^ k := by
  rw [← Nat.shiftRight_eq_div_pow, ← Nat.shiftLeft_eq]
  apply Nat.eq_of_testBit_eq
  intro i
  rw [Nat.testBit_shiftLeft, BitVec.testBit_toNat, BitVec.getLsbD_and,
    BitVec.getLsbD_not, ← BitVec.testBit_toNat, ← BitVec.testBit_toNat, hmask,
    Nat.testBit_two_pow_sub_one]
  by_cases hk : i < k
  · simp [hk]
  · have hge : k ≤ i := by omega
    by_cases h64 : i < 64
    · simp [hk, h64, hge]
    · have hhigh : x.toNat.testBit i = false :=
        Nat.testBit_lt_two_pow
          (x.isLt.trans_le (Nat.pow_le_pow_right (by decide) (by omega)))
      simp [hk, h64, hge, hhigh]

namespace Memory

/-- Byte `i` of the word at `a`, in its place within the word. -/
def wordByte (m : Memory) (a : Word) (i : Nat) : Word :=
  (m (a + BitVec.ofNat 64 i)).setWidth 64 <<< (8 * i)

/-- A little-endian 64-bit load. -/
def read64 (m : Memory) (a : Word) : Word :=
  m.wordByte a 0 ||| m.wordByte a 1 ||| m.wordByte a 2 ||| m.wordByte a 3 |||
    m.wordByte a 4 ||| m.wordByte a 5 ||| m.wordByte a 6 ||| m.wordByte a 7

/-- A little-endian 64-bit store. -/
def write64 (m : Memory) (a v : Word) : Memory := fun x =>
  if (x - a).toNat < 8 then (v >>> (8 * (x - a).toNat)).setWidth 8 else m x

def write8 (m : Memory) (a : Word) (v : Byte) : Memory := fun x =>
  if x = a then v else m x

/-- `memset(a, v, n)`. -/
def fill (m : Memory) (a : Word) (n : Nat) (v : Byte) : Memory := fun x =>
  if (x - a).toNat < n then v else m x

/-- `memcpy(dst, src, n)` between buffers that do not overlap. -/
def copy (m : Memory) (dst src : Word) (n : Nat) : Memory := fun x =>
  if (x - dst).toNat < n then m (src + (x - dst)) else m x

/-- The loop that stores the word `f i m` at index `i`, for `i` from 0 to `n`;
`m` is the memory as the earlier rounds left it. -/
def fillWords (m : Memory) (a : Word) : Nat → (Nat → Memory → Word) → Memory
  | 0, _ => m
  | n + 1, f =>
      let m := m.fillWords a n f
      m.write64 (a + 8 * BitVec.ofNat 64 n) (f n m)

/-- Store the bytes of `bytes` from `a` on. -/
def store (m : Memory) (a : Word) (bytes : List Byte) : Memory := fun x =>
  bytes.getD (x - a).toNat (m x)

theorem write64_eqOn {a : Word} (m : Memory) (v : Word)
    (hfit : a.toNat + 8 ≤ 2 ^ 64) : Set.EqOn (m.write64 a v) m (span a 8)ᶜ := by
  intro x hx
  have hout : ¬ (x - a).toNat < 8 := fun h =>
    hx ((sub_toNat_lt_iff_mem_span hfit).mp h)
  exact if_neg hout

theorem write8_eqOn (m : Memory) (a : Word) (v : Byte) :
    Set.EqOn (m.write8 a v) m (span a 1)ᶜ := by
  intro x hx
  have hne : x ≠ a := by
    rintro rfl
    exact hx (by rw [mem_span]; omega)
  simp [write8, hne]

@[simp]
theorem write8_self (m : Memory) (a : Word) (v : Byte) : m.write8 a v a = v := by
  simp [write8]

theorem fill_eqOn {a : Word} {n : Nat} (m : Memory) (v : Byte)
    (hfit : a.toNat + n ≤ 2 ^ 64) : Set.EqOn (m.fill a n v) m (span a n)ᶜ := by
  intro x hx
  have hout : ¬ (x - a).toNat < n := fun h =>
    hx ((sub_toNat_lt_iff_mem_span hfit).mp h)
  exact if_neg hout

theorem fill_of_mem_span {a x : Word} {n : Nat} (m : Memory) (v : Byte)
    (hfit : a.toNat + n ≤ 2 ^ 64) (hx : x ∈ span a n) : m.fill a n v x = v :=
  if_pos ((sub_toNat_lt_iff_mem_span hfit).mpr hx)

theorem copy_eqOn {dst : Word} {n : Nat} (m : Memory) (src : Word)
    (hfit : dst.toNat + n ≤ 2 ^ 64) :
    Set.EqOn (m.copy dst src n) m (span dst n)ᶜ := by
  intro x hx
  have hout : ¬ (x - dst).toNat < n := fun h =>
    hx ((sub_toNat_lt_iff_mem_span hfit).mp h)
  exact if_neg hout

theorem store_eqOn {a : Word} {bytes : List Byte} (m : Memory)
    (hfit : a.toNat + bytes.length ≤ 2 ^ 64) :
    Set.EqOn (m.store a bytes) m (span a bytes.length)ᶜ := by
  intro x hx
  have hout : ¬ (x - a).toNat < bytes.length := fun h =>
    hx ((sub_toNat_lt_iff_mem_span hfit).mp h)
  rw [store, List.getD_eq_getElem?_getD, List.getElem?_eq_none (by omega)]
  rfl

private theorem write64_byte (m : Memory) (a v : Word) {i : Nat} (hi : i < 8) :
    m.write64 a v (a + BitVec.ofNat 64 i) = (v >>> (8 * i)).setWidth 8 := by
  have hsub : a + BitVec.ofNat 64 i - a = BitVec.ofNat 64 i := by
    rw [BitVec.add_comm, BitVec.add_sub_cancel]
  have hnat : (BitVec.ofNat 64 i).toNat = i := by
    rw [BitVec.toNat_ofNat, Nat.mod_eq_of_lt (by omega)]
  rw [write64, hsub, hnat, if_pos hi]

@[simp]
theorem read64_write64 (m : Memory) (a v : Word) :
    (m.write64 a v).read64 a = v := by
  simp only [read64, wordByte]
  rw [write64_byte _ _ _ (by decide), write64_byte _ _ _ (by decide),
    write64_byte _ _ _ (by decide), write64_byte _ _ _ (by decide),
    write64_byte _ _ _ (by decide), write64_byte _ _ _ (by decide),
    write64_byte _ _ _ (by decide), write64_byte _ _ _ (by decide)]
  apply BitVec.eq_of_getLsbD_eq
  intro i hi
  simp only [BitVec.getLsbD_or, BitVec.getLsbD_shiftLeft,
    BitVec.getLsbD_setWidth, BitVec.getLsbD_ushiftRight]
  interval_cases i <;> simp

private theorem wordByte_congr {m m' : Memory} {a : Word} {i : Nat}
    (hfit : a.toNat + 8 ≤ 2 ^ 64) (heq : Set.EqOn m m' (span a 8)) (hi : i < 8) :
    m.wordByte a i = m'.wordByte a i := by
  have hnat : (BitVec.ofNat 64 i).toNat = i := by
    rw [BitVec.toNat_ofNat, Nat.mod_eq_of_lt (by omega)]
  have hmem : a + BitVec.ofNat 64 i ∈ span a 8 := by
    rw [mem_span, toNat_add_of_lt (by omega)]
    omega
  rw [wordByte, wordByte, heq hmem]

/-- A load only depends on the eight bytes it reads. -/
theorem read64_congr {m m' : Memory} {a : Word} (hfit : a.toNat + 8 ≤ 2 ^ 64)
    (heq : Set.EqOn m m' (span a 8)) : m.read64 a = m'.read64 a := by
  have hbyte := fun i hi => wordByte_congr (i := i) hfit heq hi
  rw [read64, read64, hbyte 0 (by decide), hbyte 1 (by decide),
    hbyte 2 (by decide), hbyte 3 (by decide), hbyte 4 (by decide),
    hbyte 5 (by decide), hbyte 6 (by decide), hbyte 7 (by decide)]

theorem read64_write64_of_disjoint {a b : Word} (m : Memory) (v : Word)
    (ha : a.toNat + 8 ≤ 2 ^ 64) (hb : b.toNat + 8 ≤ 2 ^ 64)
    (hdis : a.toNat + 8 ≤ b.toNat ∨ b.toNat + 8 ≤ a.toNat) :
    (m.write64 a v).read64 b = m.read64 b := by
  apply read64_congr hb
  intro x hx
  apply write64_eqOn m v ha
  intro hxa
  rw [mem_span] at hx hxa
  omega

/-- A word of the copy is the word of the original at the same offset. -/
theorem read64_copy (m : Memory) (dst src : Word) {off : Word} {n : Nat}
    (hoff : off.toNat + 8 ≤ n) (hn : n ≤ 2 ^ 64) :
    (m.copy dst src n).read64 (dst + off) = m.read64 (src + off) := by
  have hbyte : ∀ i < 8, m.copy dst src n (dst + off + BitVec.ofNat 64 i) =
      m (src + off + BitVec.ofNat 64 i) := by
    intro i hi
    have hsub : dst + off + BitVec.ofNat 64 i - dst = off + BitVec.ofNat 64 i := by
      rw [BitVec.add_assoc, BitVec.add_comm, BitVec.add_sub_cancel]
    have hnat : (BitVec.ofNat 64 i).toNat = i := by
      rw [BitVec.toNat_ofNat, Nat.mod_eq_of_lt (by omega)]
    rw [copy, hsub, if_pos, BitVec.add_assoc]
    rw [toNat_add_of_lt (by omega), hnat]
    omega
  simp only [read64, wordByte]
  rw [hbyte 0 (by decide), hbyte 1 (by decide), hbyte 2 (by decide), hbyte 3 (by decide),
    hbyte 4 (by decide), hbyte 5 (by decide), hbyte 6 (by decide), hbyte 7 (by decide)]

private theorem word_addr {a : Word} {i n : Nat} (hi : i < n)
    (hfit : a.toNat + 8 * n ≤ 2 ^ 64) :
    (a + 8 * BitVec.ofNat 64 i).toNat = a.toNat + 8 * i := by
  have hnat : (8 * BitVec.ofNat 64 i).toNat = 8 * i := by
    rw [BitVec.toNat_mul, BitVec.toNat_ofNat]
    change 8 * (i % 2 ^ 64) % 2 ^ 64 = 8 * i
    omega
  rw [toNat_add_of_lt (by omega), hnat]

theorem fillWords_eqOn {a : Word} {n : Nat} (m : Memory) (f : Nat → Memory → Word)
    (hfit : a.toNat + 8 * n ≤ 2 ^ 64) :
    Set.EqOn (m.fillWords a n f) m (span a (8 * n))ᶜ := by
  induction n with
  | zero => exact Set.eqOn_refl _ _
  | succ n ih =>
      have haddr := word_addr (Nat.lt_succ_self n) hfit
      have hlast : Set.EqOn (m.fillWords a (n + 1) f) (m.fillWords a n f)
          (span a (8 * (n + 1)))ᶜ := by
        apply (write64_eqOn _ _ (by omega)).mono
        apply Set.compl_subset_compl.mpr
        exact span_subset_span (by omega) (by omega)
      refine hlast.trans ((ih (by omega)).mono ?_)
      exact Set.compl_subset_compl.mpr (span_subset_span le_rfl (by omega))

/-- The round that stores word `i` is the last to touch it. -/
theorem read64_fillWords {a : Word} {n i : Nat} (m : Memory)
    (f : Nat → Memory → Word) (hfit : a.toNat + 8 * n ≤ 2 ^ 64) (hi : i < n) :
    (m.fillWords a n f).read64 (a + 8 * BitVec.ofNat 64 i) =
      f i (m.fillWords a i f) := by
  induction n with
  | zero => omega
  | succ n ih =>
      have hlast := word_addr (Nat.lt_succ_self n) hfit
      have haddr := word_addr hi hfit
      rw [fillWords]
      rcases Nat.lt_succ_iff_lt_or_eq.mp hi with hlt | rfl
      · rw [read64_write64_of_disjoint _ _ (by omega) (by omega) (by omega),
          ih (by omega) hlt]
      · rw [read64_write64]

/-- Every word inside a zero-filled span reads zero. -/
theorem read64_eq_zero {m : Memory} {a : Word} (hfit : a.toNat + 8 ≤ 2 ^ 64)
    (hzero : ∀ x ∈ span a 8, m x = 0) : m.read64 a = 0 := by
  have hcongr : m.read64 a = Memory.read64 (fun _ => 0) a :=
    read64_congr hfit hzero
  rw [hcongr]
  simp [read64, wordByte]

end Memory

end Utopia
