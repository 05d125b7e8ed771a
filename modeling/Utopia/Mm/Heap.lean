/-
The heap as a list of blocks: what the headers in memory have to say for the
list walk of `mm/pmm.c` to visit blocks that lie back to back, and what each
write to a header does to that list.
-/
import Utopia.Mm.Pmm

namespace Utopia

/-- A block that the list walk visits, with the header fields found there. -/
structure Block where
  addr : Word
  size : Word
  free : Bool
deriving DecidableEq, Repr

/-- The pointer a caller gets for the block. -/
def Block.payload (b : Block) : Word := b.addr + sizeofHeapBlock

/-- The first address behind the block. -/
def Block.stop (b : Block) : Nat := b.addr.toNat + 24 + b.size.toNat

/-- Following `next` from the address `p` visits the blocks `bs` and arrives at
`q`; the blocks lie back to back from `start` to `stop`. -/
def Chain (m : Memory) : Word → Nat → List Block → Word → Nat → Prop
  | p, start, [], q, stop => p = q ∧ start = stop
  | p, start, b :: bs, q, stop =>
      p = b.addr ∧ b.addr.toNat = start ∧
        ∃ next, loadBlock m b.addr = ⟨b.size, next, b.free⟩ ∧
          Chain m next b.stop bs q stop

theorem chain_append {m : Memory} {p q : Word} {start stop : Nat}
    {xs ys : List Block} :
    Chain m p start (xs ++ ys) q stop ↔
      ∃ r mid, Chain m p start xs r mid ∧ Chain m r mid ys q stop := by
  induction xs generalizing p start with
  | nil =>
      constructor
      · exact fun h => ⟨p, start, ⟨rfl, rfl⟩, h⟩
      · rintro ⟨r, mid, ⟨rfl, rfl⟩, h⟩
        exact h
  | cons b bs ih =>
      simp only [List.cons_append, Chain, ih]
      constructor
      · rintro ⟨hp, hs, next, hload, r, mid, hxs, hys⟩
        exact ⟨r, mid, ⟨hp, hs, next, hload, hxs⟩, hys⟩
      · rintro ⟨r, mid, ⟨hp, hs, next, hload, hxs⟩, hys⟩
        exact ⟨hp, hs, next, hload, r, mid, hxs, hys⟩

theorem Chain.length_le {m : Memory} {p q : Word} {start stop : Nat}
    {bs : List Block} (h : Chain m p start bs q stop) :
    start + 24 * bs.length ≤ stop := by
  induction bs generalizing p start with
  | nil =>
      obtain ⟨-, rfl⟩ := h
      simp
  | cons b bs ih =>
      obtain ⟨-, hstart, next, -, htail⟩ := h
      have hle := ih htail
      simp only [Block.stop, List.length_cons] at hle ⊢
      omega

theorem Chain.start_le {m : Memory} {p q : Word} {start stop : Nat}
    {bs : List Block} (h : Chain m p start bs q stop) : start ≤ stop := by
  have := h.length_le
  omega

/-- Every block of a chain lies between the two ends of the chain. -/
theorem Chain.bounds {m : Memory} {p q : Word} {start stop : Nat}
    {bs : List Block} (h : Chain m p start bs q stop) {b : Block} (hb : b ∈ bs) :
    start ≤ b.addr.toNat ∧ b.stop ≤ stop := by
  induction bs generalizing p start with
  | nil => simp at hb
  | cons c bs ih =>
      obtain ⟨-, hstart, next, -, htail⟩ := h
      rcases List.mem_cons.mp hb with rfl | hmem
      · exact ⟨hstart.ge, htail.start_le⟩
      · have hrec := ih htail hmem
        have hc : start ≤ c.stop := by
          simp only [Block.stop]
          omega
        exact ⟨hc.trans hrec.1, hrec.2⟩

/-! ### Headers under writes -/

theorem fieldAddr_toNat {p : Word} (hfit : p.toNat + 24 ≤ 2 ^ 64) :
    (p + 8).toNat = p.toNat + 8 ∧ (p + 16).toNat = p.toNat + 16 := by
  constructor <;> bv_omega

theorem loadBlock_congr {m m' : Memory} {p : Word}
    (hfit : p.toNat + 24 ≤ 2 ^ 64) (heq : Set.EqOn m m' (span p 24)) :
    loadBlock m p = loadBlock m' p := by
  obtain ⟨hnext, hflag⟩ := fieldAddr_toNat hfit
  have hsize : m.read64 p = m'.read64 p :=
    Memory.read64_congr (by omega)
      (heq.mono (span_subset_span le_rfl (by omega)))
  have hlink : m.read64 (p + 8) = m'.read64 (p + 8) :=
    Memory.read64_congr (by omega)
      (heq.mono (span_subset_span (by omega) (by omega)))
  have hbyte : m (p + 16) = m' (p + 16) := heq (by
    rw [mem_span]
    omega)
  simp only [loadBlock, blockSize, blockNext, blockFree, hsize, hlink, hbyte]

section SetFields

variable {p : Word} (hfit : p.toNat + 24 ≤ 2 ^ 64)

include hfit

theorem setBlockSize_eqOn (m : Memory) (v : Word) :
    Set.EqOn (setBlockSize m p v) m (span p 24)ᶜ :=
  (Memory.write64_eqOn m v (by omega)).mono
    (Set.compl_subset_compl.mpr (span_subset_span le_rfl (by omega)))

theorem setBlockNext_eqOn (m : Memory) (v : Word) :
    Set.EqOn (setBlockNext m p v) m (span p 24)ᶜ := by
  obtain ⟨hnext, -⟩ := fieldAddr_toNat hfit
  exact (Memory.write64_eqOn m v (by omega)).mono
    (Set.compl_subset_compl.mpr (span_subset_span (by omega) (by omega)))

theorem setBlockFree_eqOn (m : Memory) (free : Bool) :
    Set.EqOn (setBlockFree m p free) m (span p 24)ᶜ := by
  obtain ⟨-, hflag⟩ := fieldAddr_toNat hfit
  exact (Memory.write8_eqOn m _ _).mono
    (Set.compl_subset_compl.mpr (span_subset_span (by omega) (by omega)))

theorem loadBlock_setBlockSize (m : Memory) (v : Word) :
    loadBlock (setBlockSize m p v) p = { loadBlock m p with size := v } := by
  obtain ⟨hnext, hflag⟩ := fieldAddr_toNat hfit
  have hlink : (m.write64 p v).read64 (p + 8) = m.read64 (p + 8) :=
    Memory.read64_write64_of_disjoint m v (by omega) (by omega) (by omega)
  have hbyte : m.write64 p v (p + 16) = m (p + 16) :=
    Memory.write64_eqOn m v (by omega) (by
      rw [Set.mem_compl_iff, mem_span]
      omega)
  simp only [loadBlock, blockSize, blockNext, blockFree, setBlockSize,
    Memory.read64_write64, hlink, hbyte]

theorem loadBlock_setBlockNext (m : Memory) (v : Word) :
    loadBlock (setBlockNext m p v) p = { loadBlock m p with next := v } := by
  obtain ⟨hnext, hflag⟩ := fieldAddr_toNat hfit
  have hsize : (m.write64 (p + 8) v).read64 p = m.read64 p :=
    Memory.read64_write64_of_disjoint m v (by omega) (by omega) (by omega)
  have hbyte : m.write64 (p + 8) v (p + 16) = m (p + 16) :=
    Memory.write64_eqOn m v (by omega) (by
      rw [Set.mem_compl_iff, mem_span]
      omega)
  simp only [loadBlock, blockSize, blockNext, blockFree, setBlockNext,
    Memory.read64_write64, hsize, hbyte]

theorem loadBlock_setBlockFree (m : Memory) (free : Bool) :
    loadBlock (setBlockFree m p free) p = { loadBlock m p with free := free } := by
  obtain ⟨hnext, hflag⟩ := fieldAddr_toNat hfit
  have hout : ∀ x, x ∈ span p 16 →
      m.write8 (p + 16) (if free then 1 else 0) x = m x := by
    intro x hx
    apply Memory.write8_eqOn
    rw [mem_span] at hx
    rw [Set.mem_compl_iff, mem_span]
    omega
  have hsize : (setBlockFree m p free).read64 p = m.read64 p :=
    Memory.read64_congr (by omega) fun x hx =>
      hout x (span_subset_span le_rfl (by omega) hx)
  have hlink : (setBlockFree m p free).read64 (p + 8) = m.read64 (p + 8) :=
    Memory.read64_congr (by omega) fun x hx =>
      hout x (span_subset_span (by omega) (by omega) hx)
  have hbyte : blockFree (setBlockFree m p free) p = free := by
    cases free <;> simp [blockFree, setBlockFree]
  simp only [loadBlock, blockSize, blockNext, hsize, hlink, hbyte]

end SetFields

theorem loadBlock_of_eqOn_compl {m m' : Memory} {p r : Word}
    (heq : Set.EqOn m' m (span p 24)ᶜ) (hr : r.toNat + 24 ≤ 2 ^ 64)
    (hdis : p.toNat + 24 ≤ r.toNat ∨ r.toNat + 24 ≤ p.toNat) :
    loadBlock m' r = loadBlock m r := by
  apply loadBlock_congr hr
  apply heq.mono
  intro x hx hxp
  rw [mem_span] at hx hxp
  omega

/-! ### Chains under writes -/

/-- A chain only depends on the bytes between its two ends. -/
theorem Chain.congr {m m' : Memory} {p q : Word} {start stop : Nat}
    {bs : List Block} (h : Chain m p start bs q stop)
    (hfit : stop ≤ 2 ^ 64) (heq : Set.EqOn m m' (between start stop)) :
    Chain m' p start bs q stop := by
  induction bs generalizing p start with
  | nil => exact h
  | cons b bs ih =>
      obtain ⟨hp, hstart, next, hload, htail⟩ := h
      have hle := htail.start_le
      simp only [Block.stop] at hle
      refine ⟨hp, hstart, next, ?_, ih htail (heq.mono ?_)⟩
      · rw [← hload]
        refine (loadBlock_congr (by omega) (heq.mono ?_)).symm
        intro x hx
        rw [mem_span] at hx
        rw [mem_between]
        omega
      · intro x hx
        simp only [mem_between, Block.stop] at hx ⊢
        omega

/-- Rewriting the blocks between two ends, and no byte outside, replaces them
in every chain they are part of. -/
theorem Chain.replace {m m' : Memory} {p q r t : Word} {start stop s e : Nat}
    {pre new post : List Block} (hpre : Chain m p start pre r s)
    (hpost : Chain m t e post q stop) (hnew : Chain m' r s new t e)
    (hfit : stop ≤ 2 ^ 64) (heq : Set.EqOn m' m (between s e)ᶜ) :
    Chain m' p start (pre ++ new ++ post) q stop := by
  have hse := hnew.start_le
  have hes := hpost.start_le
  have hpre' : Chain m' p start pre r s := by
    apply hpre.congr (by omega)
    apply Set.EqOn.symm
    apply heq.mono
    intro x hx hx'
    rw [mem_between] at hx hx'
    omega
  have hpost' : Chain m' t e post q stop := by
    apply hpost.congr hfit
    apply Set.EqOn.symm
    apply heq.mono
    intro x hx hx'
    rw [mem_between] at hx hx'
    omega
  rw [chain_append]
  exact ⟨t, e, chain_append.mpr ⟨r, s, hpre', hnew⟩, hpost'⟩

/-! ### What the allocator's writes do to a chain -/

theorem loadBlock_storeHeader {m : Memory} {p : Word}
    (hfit : p.toNat + 24 ≤ 2 ^ 64) (size next : Word) (free : Bool) :
    loadBlock (setBlockFree (setBlockNext (setBlockSize m p size) p next) p free) p =
      ⟨size, next, free⟩ := by
  rw [loadBlock_setBlockFree hfit, loadBlock_setBlockNext hfit,
    loadBlock_setBlockSize hfit]

theorem storeHeader_eqOn {p : Word} (hfit : p.toNat + 24 ≤ 2 ^ 64) (m : Memory)
    (size next : Word) (free : Bool) :
    Set.EqOn (setBlockFree (setBlockNext (setBlockSize m p size) p next) p free) m
      (span p 24)ᶜ :=
  ((setBlockFree_eqOn hfit _ free).trans (setBlockNext_eqOn hfit _ next)).trans
    (setBlockSize_eqOn hfit m size)

theorem resizeHeader_eqOn {p : Word} (hfit : p.toNat + 24 ≤ 2 ^ 64) (m : Memory)
    (size next : Word) :
    Set.EqOn (setBlockNext (setBlockSize m p size) p next) m (span p 24)ᶜ :=
  (setBlockNext_eqOn hfit _ next).trans (setBlockSize_eqOn hfit m size)

theorem loadBlock_resizeHeader {m : Memory} {p : Word}
    (hfit : p.toNat + 24 ≤ 2 ^ 64) (size next : Word) :
    loadBlock (setBlockNext (setBlockSize m p size) p next) p =
      ⟨size, next, (loadBlock m p).free⟩ := by
  rw [loadBlock_setBlockNext hfit, loadBlock_setBlockSize hfit]

theorem eqOn_between_compl {m m' : Memory} {p : Word} {start stop : Nat}
    (heq : Set.EqOn m' m (span p 24)ᶜ) (hstart : start ≤ p.toNat)
    (hstop : p.toNat + 24 ≤ stop) : Set.EqOn m' m (between start stop)ᶜ := by
  apply heq.mono
  apply Set.compl_subset_compl.mpr
  intro x hx
  rw [mem_span] at hx
  rw [mem_between]
  omega

/-- Marking the first block of a chain changes its flag and nothing else. -/
theorem Chain.setBlockFree {m : Memory} {p q : Word} {start stop : Nat}
    {b : Block} {bs : List Block} (h : Chain m p start (b :: bs) q stop)
    (hfit : stop ≤ 2 ^ 64) (free : Bool) :
    Chain (setBlockFree m b.addr free) p start ({ b with free := free } :: bs) q stop ∧
      Set.EqOn (setBlockFree m b.addr free) m (span b.addr 24)ᶜ := by
  obtain ⟨hp, hstart, next, hload, htail⟩ := h
  have hle := htail.start_le
  simp only [Block.stop] at hle
  have heq := setBlockFree_eqOn (p := b.addr) (by omega) m free
  refine ⟨⟨hp, hstart, next, ?_, htail.congr hfit (heq.symm.mono ?_)⟩, heq⟩
  · rw [loadBlock_setBlockFree (by omega), hload]
  · intro x hx
    simp only [mem_between, Block.stop] at hx
    rw [Set.mem_compl_iff, mem_span]
    omega

/-- `splitBlock` keeps the first `size` bytes in the block; what it cuts off
becomes a free block. -/
theorem splitBlock_spec {m : Memory} {p q : Word} (size : Word)
    {start stop : Nat} {b : Block} (h : Chain m p start [b] q stop) (hstart : 4096 ≤ start)
    (hfit : stop ≤ 2 ^ 64) (hsize : size.toNat ≤ b.size.toNat) :
    ∃ b' rest, Chain (splitBlock m b.addr size) p start (b' :: rest) q stop ∧
      b'.addr = b.addr ∧ b'.free = b.free ∧ size.toNat ≤ b'.size.toNat ∧
      (∀ c ∈ rest, c.free = true) ∧ rest.length ≤ 1 ∧
      Set.EqOn (splitBlock m b.addr size) m (between start stop)ᶜ := by
  obtain ⟨hp, haddr, next, hload, hq, hstop⟩ := h
  simp only [Block.stop] at hstop
  have hbsize : blockSize m b.addr = b.size := congrArg HeapBlock.size hload
  by_cases hcut : size + sizeofHeapBlock + 16 ≤ blockSize m b.addr
  · have hroom : size.toNat + 40 ≤ b.size.toNat := by
      rw [hbsize] at hcut
      simp only [sizeofHeapBlock] at hcut
      bv_omega
    have hnx : (b.addr + sizeofHeapBlock + size).toNat =
        b.addr.toNat + 24 + size.toNat := by
      simp only [sizeofHeapBlock]
      bv_omega
    have hrest : (blockSize m b.addr - size - sizeofHeapBlock).toNat =
        b.size.toNat - size.toNat - 24 := by
      rw [hbsize]
      simp only [sizeofHeapBlock]
      bv_omega
    simp only [splitBlock, if_pos hcut]
    set nx := b.addr + sizeofHeapBlock + size with hnxdef
    set rest := blockSize m b.addr - size - sizeofHeapBlock with hrestdef
    have hbfit : b.addr.toNat + 24 ≤ 2 ^ 64 := by omega
    have hnxfit : nx.toNat + 24 ≤ 2 ^ 64 := by omega
    have hnext : blockNext (setBlockSize m nx rest) b.addr = next := by
      have hdis := loadBlock_of_eqOn_compl (setBlockSize_eqOn hnxfit m rest)
        hbfit (by omega)
      rw [hload] at hdis
      exact congrArg HeapBlock.next hdis
    rw [hnext]
    set m₁ := Utopia.setBlockFree (setBlockNext (setBlockSize m nx rest) nx next)
      nx true with hm₁
    have heq₁ : Set.EqOn m₁ m (span nx 24)ᶜ := storeHeader_eqOn hnxfit m _ _ _
    have heq₂ := resizeHeader_eqOn hbfit m₁ size nx
    have hb₁ : loadBlock m₁ b.addr = ⟨b.size, next, b.free⟩ := by
      rw [loadBlock_of_eqOn_compl heq₁ hbfit (by omega), hload]
    refine ⟨⟨b.addr, size, b.free⟩, [⟨nx, rest, true⟩],
      ⟨hp, haddr, nx, ?_, rfl, by simp only [Block.stop]; omega, next, ?_, hq, ?_⟩,
      rfl, rfl, le_rfl, by simp, le_rfl, ?_⟩
    · rw [loadBlock_resizeHeader hbfit, hb₁]
    · rw [loadBlock_of_eqOn_compl heq₂ hnxfit (by omega), hm₁,
        loadBlock_storeHeader hnxfit]
    · simp only [Block.stop]
      omega
    · exact (eqOn_between_compl heq₂ (by omega) (by omega)).trans
        (eqOn_between_compl heq₁ (by omega) (by omega))
  · rw [splitBlock, if_neg hcut]
    exact ⟨b, [], ⟨hp, haddr, next, hload, hq, hstop⟩, rfl, rfl, hsize, by simp,
      Nat.zero_le 1, Set.eqOn_refl _ _⟩

end Utopia
