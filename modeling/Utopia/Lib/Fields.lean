/-
Little-endian fields of up to eight bytes, and bytes that are stored piece by piece.
-/
import Utopia.Lib.Memory
import Mathlib.Algebra.Order.Ring.Int
import Mathlib.Data.List.GetD
import Mathlib.Order.CompletePartialOrder

namespace Utopia

namespace Memory

/-- The number in the `n` bytes from `a` on. -/
def loadField (m : Memory) (a : Word) : Nat → Nat
  | 0 => 0
  | n + 1 => (m a).toNat + 256 * m.loadField (a + 1) n

/-- The low `n` bytes of `v`, from `a` on. -/
def storeField (m : Memory) (a : Word) (n : Nat) (v : Word) : Memory :=
  m.store a ((List.range n).map fun i => (v >>> (8 * i)).setWidth 8)

end Memory

/-- The low `n` bytes of a word. -/
def leBytes (n : Nat) (v : Word) : List Byte :=
  (List.range n).map fun i => (v >>> (8 * i)).setWidth 8

/-- The number that bytes stand for. -/
def leValue : List Byte → Nat
  | [] => 0
  | b :: bytes => b.toNat + 256 * leValue bytes

@[simp]
theorem length_leBytes (n : Nat) (v : Word) : (leBytes n v).length = n := by
  rw [leBytes, List.length_map, List.length_range]

theorem leBytes_succ (n : Nat) (v : Word) :
    leBytes (n + 1) v = v.setWidth 8 :: leBytes n (v >>> 8) := by
  rw [leBytes, List.range_succ_eq_map, List.map_cons, List.map_map]
  refine congrArg₂ List.cons rfl (List.map_congr_left fun i _ => ?_)
  rw [Function.comp_apply, Nat.mul_succ, Nat.add_comm, BitVec.shiftRight_add]

theorem leValue_leBytes (n : Nat) (v : Word) : leValue (leBytes n v) = v.toNat % 256 ^ n := by
  induction n generalizing v with
  | zero => exact (Nat.mod_one _).symm
  | succ n ih =>
      have hlow : (v.setWidth 8).toNat = v.toNat % 256 := BitVec.toNat_setWidth _ _
      have hhigh : (v >>> 8).toNat = v.toNat / 256 := by
        rw [BitVec.toNat_ushiftRight, Nat.shiftRight_eq_div_pow]
      rw [leBytes_succ, leValue, ih, hlow, hhigh, Nat.pow_succ', Nat.mod_mul]

/-- The `n` bytes from an address on. -/
def bytesFrom (m : Memory) (a : Word) (n : ℕ) : List Byte :=
  (List.range n).map fun i => m (a + BitVec.ofNat 64 i)

/-- The addresses of `n` bytes from `a` on; they may wrap. -/
def reach (a : Word) (n : ℕ) : Set Word := { x | (x - a).toNat < n }

section Bytes

variable {m : Memory} {a : Word} {n i : ℕ}

@[simp]
theorem length_bytesFrom : (bytesFrom m a n).length = n := by
  rw [bytesFrom, List.length_map, List.length_range]

theorem getD_bytesFrom (h : i < n) : (bytesFrom m a n).getD i 0 = m (a + BitVec.ofNat 64 i) := by
  rw [bytesFrom, List.getD_eq_getElem?_getD, List.getElem?_map, List.getElem?_range h]
  rfl

theorem add_sub_toNat (a : Word) (h : i < 2 ^ 64) : (a + BitVec.ofNat 64 i - a).toNat = i := by
  rw [BitVec.add_comm, BitVec.add_sub_cancel, BitVec.toNat_ofNat, Nat.mod_eq_of_lt h]

/-- Bytes that are stored are read back. -/
theorem bytesFrom_store {bytes : List Byte} (h : bytes.length ≤ 2 ^ 64) :
    bytesFrom (m.store a bytes) a bytes.length = bytes := by
  apply List.ext_getElem
  · exact length_bytesFrom
  · intro i _ hi
    have hbyte : m.store a bytes (a + BitVec.ofNat 64 i) = bytes[i] := by
      rw [Memory.store, add_sub_toNat a (hi.trans_le h), List.getD_eq_getElem _ _ hi]
    simpa only [bytesFrom, List.getElem_map, List.getElem_range] using hbyte

theorem reach_subset_reach {k : ℕ} (h : i + k ≤ n) (hn : n ≤ 2 ^ 64) :
    reach (a + BitVec.ofNat 64 i) k ⊆ reach a n := by
  intro x hx
  have hlt : (x - (a + BitVec.ofNat 64 i)).toNat < k := hx
  have hxlt := x.isLt
  have halt := a.isLt
  rw [BitVec.toNat_sub, BitVec.toNat_add, BitVec.toNat_ofNat] at hlt
  change (x - a).toNat < n
  rw [BitVec.toNat_sub]
  omega

theorem Memory.store_eqOn_reach (m : Memory) (a : Word) (bytes : List Byte) :
    Set.EqOn (m.store a bytes) m (reach a bytes.length)ᶜ :=
  fun _ hx => List.getD_eq_default _ _ (not_lt.mp hx)

@[simp]
theorem Memory.store_nil : m.store a [] = m := rfl

/-- Bytes stored behind others are stored with them. -/
theorem Memory.store_store {bytes more : List Byte} (h : bytes.length + more.length ≤ 2 ^ 64) :
    (m.store a bytes).store (a + BitVec.ofNat 64 bytes.length) more =
      m.store a (bytes ++ more) := by
  funext x
  have hoffset : (x - (a + BitVec.ofNat 64 bytes.length)).toNat =
      ((x - a).toNat + (2 ^ 64 - bytes.length)) % 2 ^ 64 := by
    have hx := x.isLt
    have ha := a.isLt
    rw [BitVec.toNat_sub, BitVec.toNat_add, BitVec.toNat_ofNat, BitVec.toNat_sub]
    omega
  rw [Memory.store, Memory.store, Memory.store, hoffset]
  have hx := (x - a).isLt
  by_cases hin : (x - a).toNat < bytes.length
  · rw [List.getD_append _ _ _ _ hin, List.getD_eq_default more]
    omega
  · rw [List.getD_append_right _ _ _ _ (by omega), List.getD_eq_default bytes _ (by omega)]
    congr 1
    omega

theorem Memory.fill_eq_store (m : Memory) (a : Word) (n : Nat) (v : Byte) :
    m.fill a n v = m.store a (List.replicate n v) := by
  funext x
  rw [Memory.fill, Memory.store]
  split_ifs with hin
  · rw [List.getD_replicate _ hin]
  · rw [List.getD_eq_default]
    rwa [List.length_replicate, ← not_lt]

end Bytes

end Utopia
