/-
Which bytes the page tables of a GRUB boot map at their direct-map address.
-/
import Utopia.Mm.BootHeap
import Utopia.Mm.BootTables
import Utopia.Mm.PageTables

namespace Utopia

open GrubTables (slot)

/-! ### Slots -/

theorem entryAddr_ptIndex (table va : Word) (level : ℕ) :
    entryAddr table (ptIndex va level) = slot table (va.toNat / 2 ^ (12 + level * 9) % 512) := by
  rw [entryAddr, slot, ptIndex_val]

namespace GrubTables

variable {g : GrubTables}

theorem slot_table (t i : ℕ) : slot (g.table t) i = slot g.pageTableL4 (512 * t + i) := by
  have h8 : (8 : Word).toNat = 8 := rfl
  apply BitVec.eq_of_toNat_eq
  simp only [slot, table, BitVec.toNat_add, BitVec.toNat_mul, BitVec.toNat_ofNat, h8]
  omega

theorem slot_toNat {n : ℕ} (hn : n < 15 * 512) :
    (slot g.pageTableL4 n).toNat = g.pageTableL4.toNat + 8 * n := by
  have hlow := g.low
  rw [slot, BitVec.toNat_add, BitVec.toNat_mul, BitVec.toNat_ofNat]
  change (_ + 8 * _ % _) % _ = _
  omega

theorem slot_inj {n n' : ℕ} (hn : n < 15 * 512) (hn' : n' < 15 * 512) :
    slot g.pageTableL4 n = slot g.pageTableL4 n' ↔ n = n' := by
  refine ⟨fun h => ?_, fun h => by rw [h]⟩
  have hnat := congrArg BitVec.toNat h
  rw [slot_toNat hn, slot_toNat hn'] at hnat
  omega

theorem table_toNat {t : ℕ} (ht : t < 15) :
    (g.table t).toNat = g.pageTableL4.toNat + 4096 * t := by
  have hlow := g.low
  rw [table, BitVec.toNat_add, BitVec.toNat_ofNat]
  omega

theorem isFrame_table {t : ℕ} (ht : t < 15) : Arch.x86_64.IsFrame (g.table t) := by
  have hlow := g.low
  have halign := g.aligned
  rw [Arch.IsFrame, table_toNat ht]
  exact ⟨by omega, by rw [Arch.physBound]; omega⟩

end GrubTables

section Stores

variable {g : GrubTables} {m : PhysMem} {n n' s : ℕ} {v : Word} {addr value : ℕ → Word}

theorem store_slot : (m.store (slot g.pageTableL4 n) v) (slot g.pageTableL4 n) = v :=
  if_pos rfl

theorem store_slot_of_ne (hn : n < 15 * 512) (hn' : n' < 15 * 512) (hne : n' ≠ n) :
    (m.store (slot g.pageTableL4 n) v) (slot g.pageTableL4 n') = m (slot g.pageTableL4 n') :=
  if_neg fun h => hne ((GrubTables.slot_inj hn' hn).mp h)

theorem storeLoop_slot_of_outside {count : ℕ}
    (haddr : ∀ i, addr i = slot g.pageTableL4 (s + i)) (hfits : s + count ≤ 15 * 512)
    (hn : n < 15 * 512) (hout : n < s ∨ s + count ≤ n) :
    (m.storeLoop addr value count) (slot g.pageTableL4 n) = m (slot g.pageTableL4 n) := by
  induction count with
  | zero => rfl
  | succ count ih =>
      rw [PhysMem.storeLoop, haddr, store_slot_of_ne (by omega) hn (by omega)]
      exact ih (by omega) (by omega)

theorem storeLoop_slot {count i : ℕ}
    (haddr : ∀ i, addr i = slot g.pageTableL4 (s + i)) (hfits : s + count ≤ 15 * 512)
    (hi : i < count) :
    (m.storeLoop addr value count) (slot g.pageTableL4 (s + i)) = value i := by
  induction count with
  | zero => omega
  | succ count ih =>
      rw [PhysMem.storeLoop, haddr]
      by_cases hlast : i = count
      · rw [hlast, store_slot]
      · rw [store_slot_of_ne (by omega) (by omega) (by omega)]
        exact ih (by omega) (by omega)

end Stores

/-! ### The entries of the tables -/

/-- A frame of a huge page from 2^47 on. -/
def HighFrame (phys : Word) : Prop := phys.toNat % 2 ^ 21 = 0 ∧ phys.toNat / 2 ^ 47 % 2 = 1

/-- A huge leaf that leads to memory below 4 GiB or from 2^47 on. -/
def FarLeaf (entry : Word) : Prop :=
  X86.ptePresent entry = true ∧ X86.pteIsLeaf entry 1 = true ∧
    ((X86.ptePhys entry).toNat < 2 ^ 32 ∨ HighFrame (X86.ptePhys entry))

/-- An entry that `memory_init_base` wrote: a huge leaf from 2^47 on. -/
def HighLeaf (entry : Word) : Prop :=
  X86.ptePresent entry = true ∧ X86.pteIsLeaf entry 1 = true ∧ HighFrame (X86.ptePhys entry)

/-- The entry of the direct map for huge page `j`. -/
def hhdmEntry (j : ℕ) : Word := BitVec.ofNat 64 j <<< 21 ||| 0b10000011

/-- The tables, with other frames for the huge pages `bad` of the direct map. -/
structure HhdmTables (g : GrubTables) (bad : Set ℕ) (m : PhysMem) : Prop where
  l4Hhdm : m (slot g.pageTableL4 256) = g.table 10 ||| 0b111
  l4Kernel : m (slot g.pageTableL4 511) = g.table 8 ||| 0b11
  l4Rest : ∀ i < 512, i ≠ 256 → i ≠ 511 → m (slot g.pageTableL4 i) = 0
  l3Hhdm : ∀ i < 4, m (slot (g.table 10) i) = g.table (11 + i) ||| 0b111
  l3HhdmRest : ∀ i < 512, 4 ≤ i → m (slot (g.table 10) i) = 0
  l3Kernel : m (slot (g.table 8) 510) = g.table 9 ||| 0b11
  l3KernelRest : ∀ i < 512, i ≠ 510 → m (slot (g.table 8) i) = 0
  hhdm : ∀ j < 2048, j ∉ bad → m (slot (g.table 11) j) = hhdmEntry j
  spoiled : ∀ j < 2048, j ∈ bad → HighLeaf (m (slot (g.table 11) j))
  l2Kernel : ∀ i < 512, m (slot (g.table 9) i) = g.table 4 ||| 0b11 ∨
    FarLeaf (m (slot (g.table 9) i))
  l1Kernel : ∀ i < 512, (X86.ptePhys (m (slot (g.table 4) i))).toNat < 2 ^ 32

theorem ptePhys_or {phys bits : Word} (hphys : Arch.x86_64.IsFrame phys)
    (hbits : bits &&& X86.pagePhysMask = 0) : X86.ptePhys (phys ||| bits) = phys := by
  rw [X86.ptePhys, or_and_of_disjoint hbits, and_pagePhysMask_eq hphys.1 hphys.2]

theorem ptePresent_or {bits : Word} (phys : Word) (hbits : hasBits bits X86.pagePresent = true) :
    X86.ptePresent (phys ||| bits) = true := by
  rw [X86.ptePresent, hasBits_or, hbits, Bool.or_true]

theorem pteIsLeaf_or {phys bits : Word} (hphys : Arch.x86_64.IsFrame phys) {level : ℕ} :
    X86.pteIsLeaf (phys ||| bits) (level + 1) = hasBits bits X86.pageHuge := by
  rw [X86.pteIsLeaf, hasBits_or, ← and_pagePhysMask_eq hphys.1 hphys.2,
    hasBits_and_of_disjoint _ _ _ (by decide)]
  simp

section Boot

variable {g : GrubTables} {m : PhysMem} {n : ℕ} {value : ℕ → Word}

theorem storeLoop_table_of_outside {t count : ℕ} (hfits : 512 * t + count ≤ 15 * 512)
    (hn : n < 15 * 512) (hout : n < 512 * t ∨ 512 * t + count ≤ n) :
    (m.storeLoop (slot (g.table t)) value count) (slot g.pageTableL4 n) =
      m (slot g.pageTableL4 n) :=
  storeLoop_slot_of_outside (fun i => GrubTables.slot_table t i) hfits hn hout

theorem storeLoop_tail_of_outside {t count : ℕ} (hfits : 512 * t + 1 + count ≤ 15 * 512)
    (hn : n < 15 * 512) (hout : n < 512 * t + 1 ∨ 512 * t + 1 + count ≤ n) :
    (m.storeLoop (fun i => slot g.pageTableL4 (512 * t + (1 + i))) value count)
      (slot g.pageTableL4 n) = m (slot g.pageTableL4 n) :=
  storeLoop_slot_of_outside (fun i => by rw [Nat.add_assoc]) hfits hn hout

theorem storeLoop_table {t count i : ℕ} (hfits : 512 * t + count ≤ 15 * 512) (hi : i < count) :
    (m.storeLoop (slot (g.table t)) value count) (slot g.pageTableL4 (512 * t + i)) = value i :=
  storeLoop_slot (fun i => GrubTables.slot_table t i) hfits hi

theorem storeLoop_tail {t count i : ℕ} (hfits : 512 * t + 1 + count ≤ 15 * 512)
    (hi : i < count) :
    (m.storeLoop (fun i => slot g.pageTableL4 (512 * t + (1 + i))) value count)
      (slot g.pageTableL4 (512 * t + (1 + i))) = value i := by
  rw [← Nat.add_assoc]
  exact storeLoop_slot (fun i => by rw [Nat.add_assoc]) hfits hi

theorem hhdmTables_bootTables (g : GrubTables) : HhdmTables g ∅ g.bootTables where
  l4Hhdm := by
    simp (disch := omega) only [GrubTables.bootTables, GrubTables.setupPageTables,
      GrubTables.slot_table, store_slot, store_slot_of_ne, storeLoop_table_of_outside]
  l4Kernel := by
    simp (disch := omega) only [GrubTables.bootTables, GrubTables.setupPageTables,
      GrubTables.slot_table, store_slot, store_slot_of_ne, storeLoop_table_of_outside,
      storeLoop_tail_of_outside]
  l4Rest := by
    intro i hi h256 h511
    by_cases hlow : i < 4
    · interval_cases i <;>
        simp (disch := omega) only [GrubTables.bootTables, store_slot, store_slot_of_ne]
    · simp (disch := omega) only [GrubTables.bootTables, GrubTables.setupPageTables,
        GrubTables.slot_table, store_slot_of_ne, storeLoop_table_of_outside,
        storeLoop_tail_of_outside]
      exact g.bss i (by omega)
  l3Hhdm := by
    intro i hi
    interval_cases i <;>
      simp (disch := omega) only [GrubTables.bootTables, GrubTables.setupPageTables,
        GrubTables.slot_table, store_slot, store_slot_of_ne, storeLoop_table_of_outside]
  l3HhdmRest := by
    intro i hi h4
    simp (disch := omega) only [GrubTables.bootTables, GrubTables.setupPageTables,
      GrubTables.slot_table, store_slot_of_ne, storeLoop_table_of_outside,
      storeLoop_tail_of_outside]
    exact g.bss _ (by omega)
  l3Kernel := by
    simp (disch := omega) only [GrubTables.bootTables, GrubTables.setupPageTables,
      GrubTables.slot_table, store_slot, store_slot_of_ne, storeLoop_table_of_outside,
      storeLoop_tail_of_outside]
  l3KernelRest := by
    intro i hi h510
    simp (disch := omega) only [GrubTables.bootTables, GrubTables.setupPageTables,
      GrubTables.slot_table, store_slot_of_ne, storeLoop_table_of_outside,
      storeLoop_tail_of_outside]
    exact g.bss _ (by omega)
  hhdm := by
    intro j hj _
    simp (disch := omega) only [GrubTables.bootTables, GrubTables.setupPageTables,
      GrubTables.slot_table, store_slot_of_ne, storeLoop_table]
    rfl
  spoiled := fun j _ hj => absurd hj (Set.notMem_empty j)
  l2Kernel := by
    intro i hi
    rcases Nat.eq_zero_or_pos i with rfl | hpos
    · left
      simp (disch := omega) only [GrubTables.bootTables, GrubTables.setupPageTables,
        GrubTables.slot_table, store_slot, store_slot_of_ne, storeLoop_table_of_outside,
        storeLoop_tail_of_outside]
    · right
      obtain ⟨j, rfl⟩ := Nat.exists_eq_add_of_le hpos
      have hphys : (GrubTables.kernelLma + 0x200000 + BitVec.ofNat 64 (0x200000 * j)).toNat =
          0x400000 + 0x200000 * j := by
        rw [BitVec.toNat_add, BitVec.toNat_ofNat]
        change (0x400000 + _) % _ = _
        omega
      simp (disch := omega) only [GrubTables.bootTables, GrubTables.setupPageTables,
        GrubTables.slot_table, store_slot_of_ne, storeLoop_table_of_outside, storeLoop_tail]
      have hframe : Arch.x86_64.IsFrame
          (GrubTables.kernelLma + 0x200000 + BitVec.ofNat 64 (0x200000 * j)) := by
        rw [Arch.IsFrame, hphys, Arch.physBound]
        omega
      refine ⟨ptePresent_or _ (by decide), ?_, Or.inl ?_⟩
      · rw [pteIsLeaf_or hframe]
        decide
      · rw [ptePhys_or hframe (by decide), hphys]
        omega
  l1Kernel := by
    intro i hi
    have hphys : (GrubTables.kernelLma + BitVec.ofNat 64 (0x1000 * i)).toNat =
        0x200000 + 0x1000 * i := by
      rw [BitVec.toNat_add, BitVec.toNat_ofNat]
      change (0x200000 + _) % _ = _
      omega
    simp (disch := omega) only [GrubTables.bootTables, GrubTables.setupPageTables,
      GrubTables.slot_table, store_slot_of_ne, storeLoop_table_of_outside,
      storeLoop_tail_of_outside, storeLoop_table]
    rw [ptePhys_or (by rw [Arch.IsFrame, hphys, Arch.physBound]; omega) (by decide), hphys]
    omega

end Boot

/-! ### A round of `map_physical_range` -/

/-- In its lower 48 bits, `addr` is the direct-map address of huge page `j`. -/
def HhdmPage (addr : Word) (j : ℕ) : Prop :=
  addr.toNat % 2 ^ 48 = 2 ^ 47 + j * 2 ^ 21 ∧ j < 2048

/-- In its lower 48 bits, `addr` is page `i` of the mapping of the kernel image. -/
def KernelPage (addr : Word) (i : ℕ) : Prop :=
  addr.toNat % 2 ^ 48 = 2 ^ 48 - 2 ^ 31 + i * 2 ^ 21 ∧ i < 512

section Round

variable {g : GrubTables} {bad : Set ℕ} {m : PhysMem} {addr : Word} {flags : VmFlags} {i j : ℕ}
  {v : Word}

theorem store_table_of_ne {t t' : ℕ} (hi : 512 * t + i < 15 * 512)
    (hj : 512 * t' + j < 15 * 512) (hne : 512 * t' + j ≠ 512 * t + i) :
    (m.store (slot (g.table t) i) v) (slot (g.table t') j) = m (slot (g.table t') j) := by
  rw [GrubTables.slot_table, GrubTables.slot_table, store_slot_of_ne hi hj hne]

theorem store_table_top {t : ℕ} (hi : 512 * t + i < 15 * 512)
    (hj : j < 15 * 512) (hne : j ≠ 512 * t + i) :
    (m.store (slot (g.table t) i) v) (slot g.pageTableL4 j) = m (slot g.pageTableL4 j) := by
  rw [GrubTables.slot_table, store_slot_of_ne hi hj hne]

theorem HhdmTables.congr {bad' : Set ℕ} (h : HhdmTables g bad m)
    (hbad : ∀ j < 2048, j ∈ bad' ↔ j ∈ bad) : HhdmTables g bad' m :=
  { h with
    hhdm := fun j hj hno => h.hhdm j hj fun hmem => hno ((hbad j hj).mpr hmem)
    spoiled := fun j hj hmem => h.spoiled j hj ((hbad j hj).mp hmem) }

/-- A new frame for a huge page of the direct map. -/
theorem HhdmTables.storeHhdm (h : HhdmTables g bad m) (hj : j < 2048) (hv : HighLeaf v) :
    HhdmTables g (insert j bad) (m.store (slot (g.table 11) j) v) where
  l4Hhdm := by rw [store_table_top (by omega) (by omega) (by omega), h.l4Hhdm]
  l4Kernel := by rw [store_table_top (by omega) (by omega) (by omega), h.l4Kernel]
  l4Rest i hi h256 h511 := by
    rw [store_table_top (by omega) (by omega) (by omega), h.l4Rest i hi h256 h511]
  l3Hhdm i hi := by rw [store_table_of_ne (by omega) (by omega) (by omega), h.l3Hhdm i hi]
  l3HhdmRest i hi h4 := by
    rw [store_table_of_ne (by omega) (by omega) (by omega), h.l3HhdmRest i hi h4]
  l3Kernel := by rw [store_table_of_ne (by omega) (by omega) (by omega), h.l3Kernel]
  l3KernelRest i hi h510 := by
    rw [store_table_of_ne (by omega) (by omega) (by omega), h.l3KernelRest i hi h510]
  hhdm i hi hno := by
    have hne : i ≠ j := fun heq => hno (Or.inl heq)
    rw [store_table_of_ne (by omega) (by omega) (by omega)]
    exact h.hhdm i hi fun hmem => hno (Or.inr hmem)
  spoiled i hi hmem := by
    by_cases heq : i = j
    · rw [heq, GrubTables.slot_table, store_slot]
      exact hv
    · rw [store_table_of_ne (by omega) (by omega) (by omega)]
      exact h.spoiled i hi (hmem.resolve_left heq)
  l2Kernel i hi := by
    rw [store_table_of_ne (by omega) (by omega) (by omega)]
    exact h.l2Kernel i hi
  l1Kernel i hi := by
    rw [store_table_of_ne (by omega) (by omega) (by omega)]
    exact h.l1Kernel i hi

/-- A new leaf in the table that maps the kernel image. -/
theorem HhdmTables.storeKernel (h : HhdmTables g bad m) (hj : j < 512) (hv : FarLeaf v) :
    HhdmTables g bad (m.store (slot (g.table 9) j) v) where
  l4Hhdm := by rw [store_table_top (by omega) (by omega) (by omega), h.l4Hhdm]
  l4Kernel := by rw [store_table_top (by omega) (by omega) (by omega), h.l4Kernel]
  l4Rest i hi h256 h511 := by
    rw [store_table_top (by omega) (by omega) (by omega), h.l4Rest i hi h256 h511]
  l3Hhdm i hi := by rw [store_table_of_ne (by omega) (by omega) (by omega), h.l3Hhdm i hi]
  l3HhdmRest i hi h4 := by
    rw [store_table_of_ne (by omega) (by omega) (by omega), h.l3HhdmRest i hi h4]
  l3Kernel := by rw [store_table_of_ne (by omega) (by omega) (by omega), h.l3Kernel]
  l3KernelRest i hi h510 := by
    rw [store_table_of_ne (by omega) (by omega) (by omega), h.l3KernelRest i hi h510]
  hhdm i hi hno := by
    rw [store_table_of_ne (by omega) (by omega) (by omega)]
    exact h.hhdm i hi hno
  spoiled i hi hmem := by
    rw [store_table_of_ne (by omega) (by omega) (by omega)]
    exact h.spoiled i hi hmem
  l2Kernel i hi := by
    by_cases heq : i = j
    · rw [heq, GrubTables.slot_table, store_slot]
      exact Or.inr hv
    · rw [store_table_of_ne (by omega) (by omega) (by omega)]
      exact h.l2Kernel i hi
  l1Kernel i hi := by
    rw [store_table_of_ne (by omega) (by omega) (by omega)]
    exact h.l1Kernel i hi

theorem ptePresent_zero_x86 : X86.ptePresent 0 = false := by decide

theorem hugeTable_eq (h : HhdmTables g bad m) (addr : Word) :
    m.hugeTable addr 2 g.pageTableL4 =
      if addr.toNat / 2 ^ 39 % 512 = 256 ∧ addr.toNat / 2 ^ 30 % 512 < 4 then
        some (g.table (11 + addr.toNat / 2 ^ 30 % 512))
      else if addr.toNat / 2 ^ 39 % 512 = 511 ∧ addr.toNat / 2 ^ 30 % 512 = 510 then
        some (g.table 9)
      else none := by
  have h3 : entryAddr g.pageTableL4 (ptIndex addr 3) =
      slot g.pageTableL4 (addr.toNat / 2 ^ 39 % 512) := entryAddr_ptIndex _ addr 3
  have h2 (t : ℕ) : entryAddr (g.table t) (ptIndex addr 2) =
      slot (g.table t) (addr.toNat / 2 ^ 30 % 512) := entryAddr_ptIndex _ addr 2
  have hi3 : addr.toNat / 2 ^ 39 % 512 < 512 := Nat.mod_lt _ (by decide)
  have hi2 : addr.toNat / 2 ^ 30 % 512 < 512 := Nat.mod_lt _ (by decide)
  rw [PhysMem.hugeTable]
  simp only [h3]
  generalize addr.toNat / 2 ^ 39 % 512 = i3 at *
  generalize addr.toNat / 2 ^ 30 % 512 = i2 at *
  by_cases h256 : i3 = 256
  · rw [h256, h.l4Hhdm, ptePresent_or _ (by decide), ptePhys_or
      (GrubTables.isFrame_table (by decide)) (by decide), PhysMem.hugeTable]
    simp only [h2]
    by_cases h4 : i2 < 4
    · rw [h.l3Hhdm i2 h4, ptePresent_or _ (by decide), ptePhys_or
        (GrubTables.isFrame_table (by omega)) (by decide)]
      simp [PhysMem.hugeTable, h4]
    · rw [h.l3HhdmRest i2 hi2 (by omega), ptePresent_zero_x86]
      simp [h4]
  · by_cases h511 : i3 = 511
    · rw [h511, h.l4Kernel, ptePresent_or _ (by decide), ptePhys_or
        (GrubTables.isFrame_table (by decide)) (by decide), PhysMem.hugeTable]
      simp only [h2]
      by_cases h510 : i2 = 510
      · rw [h510, h.l3Kernel, ptePresent_or _ (by decide), ptePhys_or
          (GrubTables.isFrame_table (by omega)) (by decide)]
        simp [PhysMem.hugeTable]
      · rw [h.l3KernelRest i2 hi2 h510, ptePresent_zero_x86]
        simp [h510]
    · rw [h.l4Rest i3 hi3 h256 h511, ptePresent_zero_x86]
      simp [h256, h511]

/-- The leaf of a page from 2^47 on. -/
theorem highLeaf_pteLeaf (hhigh : addr.toNat / 2 ^ 47 % 2 = 1) :
    HighLeaf (X86.pteLeaf (addr &&& ~~~(hugeSpan - 1)) flags true) := by
  have hphys : X86.ptePhys (X86.pteLeaf (addr &&& ~~~(hugeSpan - 1)) flags true) =
      addr &&& ~~~(hugeSpan - 1) &&& X86.pagePhysMask := by
    simp only [X86.ptePhys, X86.pteLeaf, X86.orFlags]
    rw [orIf_and_of_disjoint (by decide), orIf_and_of_disjoint (by decide),
      orIf_and_of_disjoint (by decide), orIf_and_of_disjoint (by decide),
      orIf_and_of_disjoint (by decide), or_and_of_disjoint (by decide), BitVec.and_assoc,
      BitVec.and_self]
  refine ⟨@Arch.ptePresent_pteLeaf .x86_64 _ flags true, ?_, ?_⟩
  · simp [X86.pteIsLeaf, X86.pteLeaf, orIf, show hasBits X86.pageHuge X86.pageHuge = true by decide]
  · rw [hphys, HighFrame]
    constructor
    · have hlow : addr &&& ~~~(hugeSpan - 1) &&& X86.pagePhysMask &&& 0x1fffff = 0#64 := by
        rw [BitVec.and_assoc, BitVec.and_assoc,
          show ~~~(hugeSpan - 1) &&& (X86.pagePhysMask &&& 0x1fffff) = 0#64 by decide,
          BitVec.and_zero]
      have hand := congrArg BitVec.toNat hlow
      rw [BitVec.toNat_and] at hand
      exact (Nat.and_two_pow_sub_one_eq_mod _ 21).symm.trans hand
    · have hbit : addr.getLsbD 47 = true := by
        rw [← BitVec.testBit_toNat, Nat.testBit_eq_decide_div_mod_eq, hhigh]
        rfl
      have hmask : (addr &&& ~~~(hugeSpan - 1) &&& X86.pagePhysMask).getLsbD 47 = true := by
        rw [BitVec.getLsbD_and, BitVec.getLsbD_and, hbit]
        decide
      rw [← BitVec.testBit_toNat, Nat.testBit_eq_decide_div_mod_eq] at hmask
      exact of_decide_eq_true hmask

theorem HighLeaf.far (h : HighLeaf v) : FarLeaf v := ⟨h.1, h.2.1, Or.inr h.2.2⟩

theorem mapHugePage_hhdm (flags : VmFlags) (h : HhdmTables g bad m) (hpage : HhdmPage addr j) :
    ∃ v, HighLeaf v ∧
      m.mapHugePage g.pageTableL4 addr flags = (0, m.store (slot (g.table 11) j) v) := by
  obtain ⟨haddr, hj⟩ := hpage
  have htable : m.hugeTable addr 2 g.pageTableL4 = some (g.table (11 + j / 512)) := by
    rw [hugeTable_eq h, if_pos ⟨by omega, by omega⟩]
    congr 3
    omega
  have hslot : entryAddr (g.table (11 + j / 512)) (ptIndex addr 1) = slot (g.table 11) j := by
    rw [entryAddr_ptIndex, GrubTables.slot_table, GrubTables.slot_table]
    congr 1
    change 512 * (11 + j / 512) + addr.toNat / 2 ^ 21 % 512 = 512 * 11 + j
    omega
  have hhigh : addr.toNat / 2 ^ 47 % 2 = 1 := by omega
  refine ⟨X86.pteLeaf (addr &&& ~~~(hugeSpan - 1)) flags true, highLeaf_pteLeaf hhigh, ?_⟩
  rw [PhysMem.mapHugePage, htable]
  simp only [hslot]

theorem mapHugePage_kernel (flags : VmFlags) (h : HhdmTables g bad m) (hpage : KernelPage addr i) :
    ∃ v, HighLeaf v ∧
      m.mapHugePage g.pageTableL4 addr flags = (0, m.store (slot (g.table 9) i) v) := by
  obtain ⟨haddr, hi⟩ := hpage
  have htable : m.hugeTable addr 2 g.pageTableL4 = some (g.table 9) := by
    rw [hugeTable_eq h, if_neg (by omega), if_pos ⟨by omega, by omega⟩]
  have hslot : entryAddr (g.table 9) (ptIndex addr 1) = slot (g.table 9) i := by
    rw [entryAddr_ptIndex]
    congr 1
    change addr.toNat / 2 ^ 21 % 512 = i
    omega
  have hhigh : addr.toNat / 2 ^ 47 % 2 = 1 := by omega
  refine ⟨X86.pteLeaf (addr &&& ~~~(hugeSpan - 1)) flags true, highLeaf_pteLeaf hhigh, ?_⟩
  rw [PhysMem.mapHugePage, htable]
  simp only [hslot]

theorem mapRounds_of_none {n : ℕ} (h : m.hugeTable addr 2 g.pageTableL4 = none) :
    (PhysMem.mapRounds g.pageTableL4 flags n addr m).2 = m := by
  cases n with
  | zero => rfl
  | succ n =>
      rw [PhysMem.mapRounds, PhysMem.mapHugePage, h]
      rfl

theorem mapRounds_succ {n : ℕ} {m' : PhysMem}
    (h : m.mapHugePage g.pageTableL4 addr flags = (0, m')) :
    PhysMem.mapRounds g.pageTableL4 flags (n + 1) addr m =
      PhysMem.mapRounds g.pageTableL4 flags n (addr + hugeSpan) m' := by
  rw [PhysMem.mapRounds, h]
  rfl

theorem add_hugeSpan_mod (addr : Word) :
    (addr + hugeSpan).toNat % 2 ^ 48 = (addr.toNat % 2 ^ 48 + 2 ^ 21) % 2 ^ 48 := by
  have hspan : hugeSpan.toNat = 2 ^ 21 := rfl
  rw [BitVec.toNat_add, hspan]
  omega

/-- From a page of the direct map on, the rounds go on to its end. -/
theorem mapRounds_hhdm {n : ℕ} (h : HhdmTables g bad m) (hpage : HhdmPage addr j) :
    HhdmTables g (bad ∪ { x | j ≤ x ∧ x < j + n })
      (PhysMem.mapRounds g.pageTableL4 flags n addr m).2 := by
  induction n generalizing addr bad m j with
  | zero =>
      refine h.congr fun x _ => ?_
      simp
  | succ n ih =>
      obtain ⟨v, hv, hround⟩ := mapHugePage_hhdm flags h hpage
      have hstored := h.storeHhdm hpage.2 hv
      have hnext := add_hugeSpan_mod addr
      rw [hpage.1] at hnext
      rw [mapRounds_succ hround]
      by_cases hlast : j + 1 < 2048
      · refine (ih hstored ⟨by omega, hlast⟩).congr fun x _ => ?_
        simp only [Set.mem_union, Set.mem_insert_iff, Set.mem_ofPred_eq]
        by_cases hx : x ∈ bad
        · simp [hx]
        · simp only [hx, or_false, false_or]
          omega
      · have hj := hpage.2
        rw [mapRounds_of_none]
        · refine hstored.congr fun x hx => ?_
          simp only [Set.mem_union, Set.mem_insert_iff, Set.mem_ofPred_eq]
          by_cases hmem : x ∈ bad
          · simp [hmem]
          · simp only [hmem, or_false, false_or]
            omega
        · rw [hugeTable_eq hstored, if_neg (by omega), if_neg (by omega)]

/-- From a page of the kernel's mapping on, the rounds never come to the direct map. -/
theorem mapRounds_kernel {n : ℕ} (h : HhdmTables g bad m) (hpage : KernelPage addr i) :
    HhdmTables g bad (PhysMem.mapRounds g.pageTableL4 flags n addr m).2 := by
  induction n generalizing addr m i with
  | zero => exact h
  | succ n ih =>
      obtain ⟨v, hv, hround⟩ := mapHugePage_kernel flags h hpage
      have hstored := h.storeKernel hpage.2 hv.far
      have hnext := add_hugeSpan_mod addr
      rw [hpage.1] at hnext
      rw [mapRounds_succ hround]
      by_cases hlast : i + 1 < 512
      · exact ih hstored ⟨by omega, hlast⟩
      · have hi := hpage.2
        rw [mapRounds_of_none]
        · exact hstored
        · rw [hugeTable_eq hstored, if_neg (by omega), if_neg (by omega)]

end Round

/-! ### The mapping loop of `memory_init_base` -/

/-- Mapping the entry gives huge page `j` of the direct map another frame: the entry starts
at an address whose lower 48 bits are a direct-map address, and goes on to page `j`. -/
def Overwrites (e : MapEntry) (j : ℕ) : Prop :=
  e.NeedsMap ∧ 2 ^ 47 ≤ e.mapStart.toNat % 2 ^ 48 ∧
    e.mapStart.toNat % 2 ^ 48 ≤ 2 ^ 47 + j * 2 ^ 21 ∧
    2 ^ 47 + j * 2 ^ 21 <
      e.mapStart.toNat % 2 ^ 48 + (e.mapEnd.toNat - e.mapStart.toNat)

section Loop

variable {g : GrubTables} {bad : Set ℕ} {m : PhysMem} {e : MapEntry} {map : List MapEntry}

theorem toNat_mapStart_mod (e : MapEntry) : e.mapStart.toNat % 2 ^ 21 = 0 := by
  rw [MapEntry.mapStart, toNat_and_not_mask (k := 21) rfl]
  omega

theorem toNat_mapEnd_mod (e : MapEntry) : e.mapEnd.toNat % 2 ^ 21 = 0 := by
  rw [MapEntry.mapEnd, toNat_and_not_mask (k := 21) rfl]
  omega

theorem hhdmTables_mapEntryHigh (h : HhdmTables g bad m) :
    HhdmTables g (bad ∪ { j | Overwrites e j }) (mapEntryHigh g.pageTableL4 m e) := by
  rw [mapEntryHigh]
  by_cases hneeds : e.NeedsMap
  · rw [if_pos hneeds, PhysMem.mapPhysicalRange]
    have hstop : e.mapStart + (e.mapEnd - e.mapStart) = e.mapEnd := by grind
    have hspan : hugeSpan.toNat = 2 ^ 21 := rfl
    simp only [hstop, hspan]
    have hstart := toNat_mapStart_mod e
    have hend := toNat_mapEnd_mod e
    by_cases hhhdm : ∃ first, HhdmPage e.mapStart first
    · obtain ⟨first, hfirst⟩ := hhhdm
      refine (mapRounds_hhdm h hfirst).congr fun j hj => ?_
      have hiff : Overwrites e j ↔
          first ≤ j ∧ j < first + (e.mapEnd.toNat - e.mapStart.toNat) / 2 ^ 21 := by
        have haddr := hfirst.1
        rw [Overwrites]
        simp only [hneeds, true_and]
        omega
      simp only [Set.mem_union, Set.mem_ofPred_eq, hiff]
    · have hnone : ∀ j < 2048, ¬ Overwrites e j := by
        rintro j hj ⟨-, hlow, hup, -⟩
        exact hhhdm ⟨(e.mapStart.toNat % 2 ^ 48 - 2 ^ 47) / 2 ^ 21, by omega, by omega⟩
      have hsame : HhdmTables g bad
          (PhysMem.mapRounds g.pageTableL4 ⟨false, false, false, false⟩
            ((e.mapEnd.toNat - e.mapStart.toNat) / 2 ^ 21) e.mapStart m).2 := by
        by_cases hkernel : ∃ i, KernelPage e.mapStart i
        · obtain ⟨i, hi⟩ := hkernel
          exact mapRounds_kernel h hi
        · rw [mapRounds_of_none]
          · exact h
          · rw [hugeTable_eq h, if_neg, if_neg]
            · rintro ⟨h511, h510⟩
              exact hkernel ⟨e.mapStart.toNat / 2 ^ 21 % 512, by omega, by omega⟩
            · rintro ⟨h256, h4⟩
              exact hhhdm ⟨(e.mapStart.toNat % 2 ^ 48 - 2 ^ 47) / 2 ^ 21, by omega, by omega⟩
      refine hsame.congr fun j hj => ?_
      simp [hnone j hj]
  · rw [if_neg hneeds]
    refine h.congr fun j _ => ?_
    simp [Overwrites, hneeds]

theorem hhdmTables_mapEntries (h : HhdmTables g bad m) :
    HhdmTables g (bad ∪ { j | ∃ e ∈ map, Overwrites e j })
      (map.foldl (mapEntryHigh g.pageTableL4) m) := by
  induction map generalizing bad m with
  | nil => exact h.congr fun j _ => by simp
  | cons e map ih =>
      refine (ih (hhdmTables_mapEntryHigh h)).congr fun j _ => ?_
      simp only [Set.mem_union, Set.mem_ofPred_eq, List.mem_cons, exists_eq_or_imp, or_assoc]

end Loop

/-! ### The walk for a direct-map address -/

section Walk

variable {g : GrubTables} {bad : Set ℕ} {m : PhysMem} {entry va : Word}

theorem toNat_add_offset (phys : Word) (hphys : phys.toNat < 2 ^ 52) {level : ℕ}
    (hlevel : level ≤ 1) :
    (phys + (va &&& (levelSpan level - 1))).toNat =
      phys.toNat + va.toNat % 2 ^ (12 + level * 9) := by
  have hlt : va.toNat % 2 ^ (12 + level * 9) < 2 ^ 21 :=
    lt_of_lt_of_le (Nat.mod_lt _ (Nat.two_pow_pos _)) (Nat.pow_le_pow_right (by decide) (by omega))
  rw [BitVec.toNat_add, toNat_and_span va (by omega), Nat.mod_eq_of_lt (by omega)]

theorem ptePhys_lt (entry : Word) : (X86.ptePhys entry).toNat < 2 ^ 52 :=
  (@Arch.isFrame_ptePhys .x86_64 entry).2

theorem HighLeaf.target (h : HighLeaf entry) :
    (X86.ptePhys entry + (va &&& (levelSpan 1 - 1))).toNat / 2 ^ 47 % 2 = 1 := by
  obtain ⟨-, -, halign, hhigh⟩ := h
  rw [toNat_add_offset _ (ptePhys_lt entry) le_rfl]
  omega

theorem FarLeaf.target (h : FarLeaf entry) :
    (X86.ptePhys entry + (va &&& (levelSpan 1 - 1))).toNat < 2 ^ 33 ∨
      (X86.ptePhys entry + (va &&& (levelSpan 1 - 1))).toNat / 2 ^ 47 % 2 = 1 := by
  obtain ⟨hpresent, hleaf, hlow | hhigh⟩ := h
  · left
    rw [toNat_add_offset _ (ptePhys_lt entry) le_rfl]
    omega
  · exact Or.inr (HighLeaf.target ⟨hpresent, hleaf, hhigh⟩)

theorem hhdmEntry_leaf {j : ℕ} (hj : j < 2048) :
    X86.ptePresent (hhdmEntry j) = true ∧ X86.pteIsLeaf (hhdmEntry j) 1 = true ∧
      (X86.ptePhys (hhdmEntry j)).toNat = j * 2 ^ 21 := by
  have hphys : (BitVec.ofNat 64 j <<< 21).toNat = j * 2 ^ 21 := by
    rw [BitVec.toNat_shiftLeft, BitVec.toNat_ofNat, Nat.shiftLeft_eq]
    omega
  have hframe : Arch.x86_64.IsFrame (BitVec.ofNat 64 j <<< 21) := by
    rw [Arch.IsFrame, hphys, Arch.physBound]
    omega
  refine ⟨ptePresent_or _ (by decide), ?_, ?_⟩
  · rw [hhdmEntry, pteIsLeaf_or hframe]
    decide
  · rw [hhdmEntry, ptePhys_or hframe (by decide), hphys]

theorem walk_leaf {table : Word} {i : ℕ} (hi : va.toNat / 2 ^ 21 % 512 = i)
    (hpresent : X86.ptePresent (m (slot table i)) = true)
    (hleaf : X86.pteIsLeaf (m (slot table i)) 1 = true) :
    m.walk va 1 table = some (X86.ptePhys (m (slot table i)) + (va &&& (levelSpan 1 - 1))) := by
  have hslot : entryAddr table (ptIndex va 1) = slot table i := by
    rw [entryAddr_ptIndex, ← hi]
  rw [PhysMem.walk, hslot, hpresent, hleaf]
  rfl

/-- An entry of an upper table: nothing, or another table. -/
def UpperEntry (g : GrubTables) (ts : Set ℕ) (entry : Word) : Prop :=
  entry = 0 ∨ ∃ t ∈ ts, t < 15 ∧ ∃ bits, (bits = 0b111 ∨ bits = 0b11) ∧ entry = g.table t ||| bits

theorem UpperEntry.not_leaf {ts : Set ℕ} (h : UpperEntry g ts entry) (level : ℕ) :
    X86.pteIsLeaf entry (level + 1) = false := by
  rcases h with rfl | ⟨t, -, ht, bits, rfl | rfl, rfl⟩
  · simp [X86.pteIsLeaf, hasBits]
  · rw [pteIsLeaf_or (GrubTables.isFrame_table ht)]
    decide
  · rw [pteIsLeaf_or (GrubTables.isFrame_table ht)]
    decide

theorem UpperEntry.phys {ts : Set ℕ} (h : UpperEntry g ts entry)
    (hpresent : X86.ptePresent entry = true) : ∃ t ∈ ts, X86.ptePhys entry = g.table t := by
  rcases h with rfl | ⟨t, hmem, ht, bits, rfl | rfl, rfl⟩
  · exact absurd hpresent (by decide)
  · exact ⟨t, hmem, ptePhys_or (GrubTables.isFrame_table ht) (by decide)⟩
  · exact ⟨t, hmem, ptePhys_or (GrubTables.isFrame_table ht) (by decide)⟩

theorem HhdmTables.l4_upper (h : HhdmTables g bad m) {i : ℕ} (hi : i < 512) :
    UpperEntry g {10, 8} (m (slot g.pageTableL4 i)) := by
  by_cases h256 : i = 256
  · rw [h256, h.l4Hhdm]
    exact Or.inr ⟨10, by simp, by decide, _, Or.inl rfl, rfl⟩
  · by_cases h511 : i = 511
    · rw [h511, h.l4Kernel]
      exact Or.inr ⟨8, by simp, by decide, _, Or.inr rfl, rfl⟩
    · exact Or.inl (h.l4Rest i hi h256 h511)

theorem HhdmTables.l3_upper (h : HhdmTables g bad m) {t i : ℕ} (ht : t ∈ ({10, 8} : Set ℕ))
    (hi : i < 512) : UpperEntry g Set.univ (m (slot (g.table t) i)) := by
  rcases ht with rfl | ht
  · by_cases h4 : i < 4
    · rw [h.l3Hhdm i h4]
      exact Or.inr ⟨11 + i, trivial, by omega, _, Or.inl rfl, rfl⟩
    · exact Or.inl (h.l3HhdmRest i hi (by omega))
  · rw [Set.mem_singleton_iff] at ht
    rw [ht]
    by_cases h510 : i = 510
    · rw [h510, h.l3Kernel]
      exact Or.inr ⟨9, trivial, by decide, _, Or.inr rfl, rfl⟩
    · exact Or.inl (h.l3KernelRest i hi h510)

/-- No huge page lies above level 1, so the walk passes the same tables as
`map_physical_range`. -/
theorem walk_eq_hugeTable (h : HhdmTables g bad m) (va : Word) :
    m.walk va 3 g.pageTableL4 = (m.hugeTable va 2 g.pageTableL4).bind (m.walk va 1) := by
  have h3 : entryAddr g.pageTableL4 (ptIndex va 3) =
      slot g.pageTableL4 (va.toNat / 2 ^ 39 % 512) := entryAddr_ptIndex _ va 3
  have h2 (t : ℕ) : entryAddr (g.table t) (ptIndex va 2) =
      slot (g.table t) (va.toNat / 2 ^ 30 % 512) := entryAddr_ptIndex _ va 2
  have hupper := h.l4_upper (i := va.toNat / 2 ^ 39 % 512) (Nat.mod_lt _ (by decide))
  rw [PhysMem.walk, PhysMem.hugeTable]
  simp only [h3, hupper.not_leaf 2]
  cases hpresent : X86.ptePresent (m (slot g.pageTableL4 (va.toNat / 2 ^ 39 % 512))) with
  | false => rfl
  | true =>
      obtain ⟨t, ht, hphys⟩ := hupper.phys hpresent
      have hnext := h.l3_upper (i := va.toNat / 2 ^ 30 % 512) ht (Nat.mod_lt _ (by decide))
      rw [hphys, PhysMem.walk, PhysMem.hugeTable]
      simp only [h2, hnext.not_leaf 1]
      cases X86.ptePresent (m (slot (g.table t) (va.toNat / 2 ^ 30 % 512))) <;> rfl

/-- The address that the walk makes of a direct-map address of the first 4 GiB. -/
theorem walk_hhdm (h : HhdmTables g bad m) (va : Word) {j : ℕ} (hj : j < 2048)
    (hva : va.toNat % 2 ^ 48 / 2 ^ 21 = 2 ^ 26 + j) :
    ∃ x, m.walk va 3 g.pageTableL4 = some x ∧
      (j ∉ bad → x.toNat = j * 2 ^ 21 + va.toNat % 2 ^ 21) ∧
      (j ∈ bad → x.toNat / 2 ^ 47 % 2 = 1) := by
  have htable : m.hugeTable va 2 g.pageTableL4 = some (g.table (11 + j / 512)) := by
    rw [hugeTable_eq h, if_pos ⟨by omega, by omega⟩]
    congr 3
    omega
  have hslot : slot (g.table (11 + j / 512)) (j % 512) = slot (g.table 11) j := by
    rw [GrubTables.slot_table, GrubTables.slot_table]
    congr 1
    omega
  have hidx : va.toNat / 2 ^ 21 % 512 = j % 512 := by omega
  rw [walk_eq_hugeTable h, htable, Option.bind_some]
  by_cases hbad : j ∈ bad
  · have hleaf := h.spoiled j hj hbad
    rw [walk_leaf hidx (by rw [hslot]; exact hleaf.1) (by rw [hslot]; exact hleaf.2.1), hslot]
    exact ⟨_, rfl, fun hno => absurd hbad hno, fun _ => hleaf.target⟩
  · have hentry := h.hhdm j hj hbad
    obtain ⟨hpresent, hleaf, hphys⟩ := hhdmEntry_leaf hj
    rw [walk_leaf hidx (by rw [hslot, hentry]; exact hpresent)
      (by rw [hslot, hentry]; exact hleaf), hslot, hentry]
    refine ⟨_, rfl, fun _ => ?_, fun hmem => absurd hmem hbad⟩
    rw [toNat_add_offset _ (ptePhys_lt _) le_rfl, hphys]

/-- Through the table of the kernel image, no address far above 4 GiB below 2^47 is
reached. -/
theorem walk_kernel (h : HhdmTables g bad m) {x : Word}
    (hwalk : m.walk va 1 (g.table 9) = some x) :
    x.toNat < 2 ^ 33 ∨ x.toNat / 2 ^ 47 % 2 = 1 := by
  have hidx : va.toNat / 2 ^ 21 % 512 < 512 := Nat.mod_lt _ (by decide)
  rcases h.l2Kernel _ hidx with htable | hfar
  · left
    have h1 : entryAddr (g.table 9) (ptIndex va 1) =
        slot (g.table 9) (va.toNat / 2 ^ 21 % 512) := entryAddr_ptIndex _ va 1
    have h0 : entryAddr (g.table 4) (ptIndex va 0) =
        slot (g.table 4) (va.toNat / 2 ^ 12 % 512) := entryAddr_ptIndex _ va 0
    have hframe := GrubTables.isFrame_table (g := g) (t := 4) (by decide)
    rw [PhysMem.walk, h1, htable, ptePresent_or _ (by decide), pteIsLeaf_or hframe,
      ptePhys_or hframe (by decide), PhysMem.walk, h0] at hwalk
    have hphys := h.l1Kernel (va.toNat / 2 ^ 12 % 512) (Nat.mod_lt _ (by decide))
    cases hpresent : X86.ptePresent (m (slot (g.table 4) (va.toNat / 2 ^ 12 % 512))) with
    | false =>
        rw [hpresent] at hwalk
        cases hwalk
    | true =>
        rw [hpresent] at hwalk
        obtain rfl := Option.some.inj hwalk
        rw [toNat_add_offset _ (ptePhys_lt _) (by decide)]
        omega
  · rw [walk_leaf rfl hfar.1 hfar.2.1, Option.some.injEq] at hwalk
    rw [← hwalk]
    exact hfar.target

theorem walk_hhdm_iff (h : HhdmTables g bad m) (phys : Word) :
    m.walk (0xffff800000000000 + phys) 3 g.pageTableL4 = some phys ↔
      phys.toNat < 2 ^ 32 ∧ phys.toNat / 2 ^ 21 ∉ bad := by
  have hva : (0xffff800000000000 + phys).toNat % 2 ^ 48 =
      (phys.toNat % 2 ^ 48 + 2 ^ 47) % 2 ^ 48 := by
    rw [BitVec.toNat_add]
    change ((2 ^ 64 - 2 ^ 47) + phys.toNat) % 2 ^ 64 % 2 ^ 48 = _
    omega
  generalize 0xffff800000000000 + phys = va at hva
  by_cases hlow : phys.toNat % 2 ^ 48 < 2 ^ 32
  · have hpage : va.toNat % 2 ^ 48 / 2 ^ 21 = 2 ^ 26 + phys.toNat % 2 ^ 48 / 2 ^ 21 := by omega
    obtain ⟨x, hwalk, hgood, hspoiled⟩ := walk_hhdm h va (by omega) hpage
    rw [hwalk, Option.some.injEq]
    by_cases hbad : phys.toNat % 2 ^ 48 / 2 ^ 21 ∈ bad
    · have hx := hspoiled hbad
      constructor
      · rintro rfl
        omega
      · rintro ⟨hlt, hno⟩
        rw [Nat.mod_eq_of_lt (by omega)] at hbad
        exact absurd hbad hno
    · have hx := hgood hbad
      constructor
      · rintro rfl
        have hlt : x.toNat < 2 ^ 32 := by omega
        rw [Nat.mod_eq_of_lt (by omega)] at hbad
        exact ⟨hlt, hbad⟩
      · rintro ⟨hlt, -⟩
        apply BitVec.eq_of_toNat_eq
        omega
  · constructor
    · intro hwalk
      exfalso
      rw [walk_eq_hugeTable h, hugeTable_eq h, if_neg (by omega)] at hwalk
      split_ifs at hwalk with hkernel
      · have hfar := walk_kernel h hwalk
        omega
      · cases hwalk
    · rintro ⟨hlt, -⟩
      omega

end Walk

/-! ### The heap of a GRUB boot -/

/-- A boot through GRUB: the layout that the linker script and the direct map give, and the
tables of the boot code. -/
structure GrubBoot where
  layout : BootLayout
  tables : GrubTables
  grub : layout.bootloader = .grub
  hhdm : layout.hhdmOffset = 0xffff800000000000
  virtual : layout.virtualBase = 0xffffffff80000000
  physical : layout.physicalBase = GrubTables.kernelLma

namespace GrubBoot

variable (b : GrubBoot)

/-- The bytes of a region, by base and size. -/
def regionBytes (region : Word × Word) : Set Word :=
  { x | (x - region.1).toNat < region.2.toNat }

/-- Every byte of the heap's region is mapped where `phys_to_virt` expects it, once
`memory_init_base` is done. -/
def HeapMapped (entries : Option (List BootEntry)) (initramfs font : Option BootModule) :
    Prop :=
  ∀ phys ∈ regionBytes (b.layout.heapRegion (b.layout.bootMap entries initramfs font)),
    (b.tables.afterBase b.layout entries).walk (b.layout.physToVirt phys) ptTopLevel
      b.tables.pageTableL4 = some phys

/-- Mapping the usable entry gives huge page `j` of the direct map another frame: the entry ends
above 4 GiB, what of it lies there starts, rounded down, at an address whose lower 48 bits are a
direct-map address, and its rounded end lies behind page `j`. -/
def EntryOverwrites (e : BootEntry) (j : ℕ) : Prop :=
  let first := max e.base.toNat (2 ^ 32) / 2 ^ 21 * 2 ^ 21
  let stop := (e.base.toNat + e.length.toNat + (2 ^ 21 - 1)) % 2 ^ 64 / 2 ^ 21 * 2 ^ 21
  e.type = 1 ∧ 2 ^ 32 < (e.base.toNat + e.length.toNat) % 2 ^ 64 ∧
    2 ^ 47 ≤ first % 2 ^ 48 ∧ first % 2 ^ 48 ≤ 2 ^ 47 + j * 2 ^ 21 ∧
    2 ^ 47 + j * 2 ^ 21 < first % 2 ^ 48 + (stop - first)

/-- An entry of GRUB's map, as far as the kernel has slots for it, gives page `j` another
frame. -/
def Overwritten (entries : Option (List BootEntry)) (j : ℕ) : Prop :=
  ∃ list ∈ entries, ∃ e ∈ list.take mapSlots, EntryOverwrites e j

/-- The bytes of a region, from the page-rounded end of the kernel on if that lies inside. -/
def heapPart (r : Word × Word) : Set Word :=
  { x | x ∈ regionBytes r ∧
    (r.1 < b.layout.kernelEndPhys → b.layout.kernelEndPhys < r.1 + r.2 →
      b.layout.kernelEndPhys - r.1 ≤ x - r.1) }

/-- The first of the longest regions that the modules leave of GRUB's map lies, as far as it is
behind the kernel, below 4 GiB and in pages of the direct map that are still in place. -/
def InFirst4GiB (entries : Option (List BootEntry)) (initramfs font : Option BootModule) :
    Prop :=
  ∀ r, Longest (b.layout.leftOver entries initramfs font).2 r → ∀ phys ∈ b.heapPart r,
    phys.toNat < 2 ^ 32 ∧ ¬ Overwritten entries (phys.toNat / 2 ^ 21)

variable {b}

theorem overwrites_mapEntry (e : BootEntry) (j : ℕ) :
    Overwrites (Bootloader.grub.mapEntry e) j ↔ EntryOverwrites e j := by
  have hentry : Bootloader.grub.mapEntry e = ⟨e.base, e.length, e.type⟩ := rfl
  have h4g : (0x100000000 : Word).toNat = 2 ^ 32 := rfl
  have hround : (0x1FFFFF : Word).toNat = 2 ^ 21 - 1 := rfl
  have hstart : (MapEntry.mapStart ⟨e.base, e.length, e.type⟩).toNat =
      max e.base.toNat (2 ^ 32) / 2 ^ 21 * 2 ^ 21 := by
    rw [MapEntry.mapStart, toNat_and_not_mask (k := 21) rfl]
    congr 2
    dsimp only
    split_ifs with hlow <;> rw [BitVec.lt_def, h4g] at hlow
    · rw [h4g, max_eq_right hlow.le]
    · rw [max_eq_left (not_lt.mp hlow)]
  have hstop : (MapEntry.mapEnd ⟨e.base, e.length, e.type⟩).toNat =
      (e.base.toNat + e.length.toNat + (2 ^ 21 - 1)) % 2 ^ 64 / 2 ^ 21 * 2 ^ 21 := by
    rw [MapEntry.mapEnd, toNat_and_not_mask (k := 21) rfl, BitVec.toNat_add, BitVec.toNat_add,
      hround, Nat.mod_add_mod]
  have hneeds : MapEntry.NeedsMap ⟨e.base, e.length, e.type⟩ ↔
      e.type = 1 ∧ 2 ^ 32 < (e.base.toNat + e.length.toNat) % 2 ^ 64 := by
    rw [MapEntry.NeedsMap, BitVec.le_def, h4g, BitVec.toNat_add, not_le]
    exact Iff.rfl
  rw [hentry, Overwrites, EntryOverwrites, hstart, hstop, hneeds, and_assoc]

theorem hhdmTables_afterBase (entries : Option (List BootEntry)) :
    HhdmTables b.tables { j | Overwritten entries j }
      (b.tables.afterBase b.layout entries) := by
  have hboot := hhdmTables_bootTables b.tables
  cases entries with
  | none =>
      refine hboot.congr fun j _ => ?_
      simp [Overwritten]
  | some list =>
      refine (hhdmTables_mapEntries hboot).congr fun j _ => ?_
      have hmap : b.layout.memoryInitBase (some list) =
          (list.take mapSlots).map Bootloader.grub.mapEntry := by
        rw [BootLayout.memoryInitBase, b.grub]
      rw [hmap]
      simp only [Overwritten, Set.mem_union, Set.mem_empty_iff_false, false_or, Set.mem_ofPred_eq,
        Option.mem_some_iff, exists_eq_left', List.mem_map, exists_exists_and_eq_and,
        overwrites_mapEntry]

theorem mem_behindKernel_iff (r : Word × Word) (phys : Word) :
    phys ∈ regionBytes (b.layout.behindKernel r) ↔ phys ∈ b.heapPart r := by
  rw [BootLayout.behindKernel, heapPart, Set.mem_ofPred_eq]
  by_cases hin : r.1 < b.layout.kernelEndPhys ∧ b.layout.kernelEndPhys < r.1 + r.2
  · rw [if_pos hin]
    obtain ⟨hlow, hup⟩ := hin
    simp only [hlow, hup, true_imp_iff, regionBytes, Set.mem_ofPred_eq]
    rw [BitVec.lt_def] at hlow hup
    rw [BitVec.le_def]
    bv_omega
  · rw [if_neg hin]
    exact ⟨fun h => ⟨h, fun hlow hup => absurd ⟨hlow, hup⟩ hin⟩, And.left⟩

/-- The bytes of the heap's region are those of the first of the longest regions. -/
theorem mem_heapRegion_iff (map : List MapEntry) (phys : Word) :
    phys ∈ regionBytes (b.layout.heapRegion map) ↔
      ∃ r, Longest (freeRegions map) r ∧ phys ∈ b.heapPart r := by
  rw [BootLayout.heapRegion, largestFree_eq, mem_behindKernel_iff]
  constructor
  · intro hphys
    rcases (firstLongest_spec (freeRegions map)).2 with hzero | hlongest
    · rw [hzero] at hphys
      exact absurd hphys.1 (Nat.not_lt_zero _)
    · exact ⟨_, hlongest, hphys⟩
  · rintro ⟨r, hr, hphys⟩
    have hpos : 0 < r.2.toNat := Nat.zero_lt_of_lt hphys.1
    rwa [hr.firstLongest_eq hpos]

/-- The heap is mapped before it is written exactly when it lies in the first 4 GiB, which
without a map from GRUB it does not. -/
theorem heapMapped_iff (b : GrubBoot) (entries : Option (List BootEntry))
    (initramfs font : Option BootModule) :
    b.HeapMapped entries initramfs font ↔ b.InFirst4GiB entries initramfs font := by
  have htables := hhdmTables_afterBase (b := b) entries
  have hregions : freeRegions (b.layout.bootMap entries initramfs font) =
      (b.layout.leftOver entries initramfs font).2 :=
    congrArg Prod.snd (BootLayout.mapView_bootMap entries initramfs font)
  have hwalk (phys : Word) : (b.tables.afterBase b.layout entries).walk
      (b.layout.physToVirt phys) ptTopLevel b.tables.pageTableL4 = some phys ↔
      phys.toNat < 2 ^ 32 ∧ ¬ Overwritten entries (phys.toNat / 2 ^ 21) := by
    rw [BootLayout.physToVirt, b.hhdm]
    exact walk_hhdm_iff htables phys
  rw [InFirst4GiB, ← hregions]
  constructor
  · intro h r hr phys hphys
    exact (hwalk phys).mp (h phys ((mem_heapRegion_iff _ phys).mpr ⟨r, hr, hphys⟩))
  · intro h phys hphys
    obtain ⟨r, hr, hmem⟩ := (mem_heapRegion_iff _ phys).mp hphys
    exact (hwalk phys).mpr (h r hr phys hmem)

/-- Tables at 14 MiB, in a kernel that ends at 16 MiB. -/
def sampleTables : GrubTables where
  pageTableL4 := 0xe00000
  mem := fun _ => 0
  aligned := by decide
  low := by decide
  bss _ _ := rfl

def sampleBoot : GrubBoot where
  layout := BootLayout.grubLayout
  tables := sampleTables
  grub := rfl
  hhdm := rfl
  virtual := rfl
  physical := rfl

/-- 63 MiB of usable memory from 1 MiB on, and 16 MiB from 4 GiB on. -/
def lowAndHigh : List BootEntry := [⟨0x100000, 0x3f00000, 1⟩, ⟨0x100000000, 0x1000000, 1⟩]

/-- The heap goes from the end of the kernel to 64 MiB, and is mapped. -/
theorem heapMapped_lowAndHigh :
    sampleBoot.layout.heapRegion (sampleBoot.layout.bootMap (some lowAndHigh) none none) =
        (0x1000000, 0x3000000) ∧
      sampleBoot.HeapMapped (some lowAndHigh) none none := by
  have hregion : sampleBoot.layout.heapRegion (sampleBoot.layout.bootMap (some lowAndHigh) none
      none) = (0x1000000, 0x3000000) := by decide +kernel
  have hleft : sampleBoot.layout.leftOver (some lowAndHigh) none none =
      (62, [(0x100000, 0x3f00000), (0x100000000, 0x1000000)]) := by decide +kernel
  refine ⟨hregion, (heapMapped_iff sampleBoot (some lowAndHigh) none none).mpr ?_⟩
  intro r hr phys hphys
  have hfirst : r = (0x100000, 0x3f00000) := by
    have hlongest : Longest (sampleBoot.layout.leftOver (some lowAndHigh) none none).2
        (0x100000, 0x3f00000) := by
      rw [hleft]
      exact ⟨[], [(0x100000000, 0x1000000)], rfl, by simp, by simp⟩
    rw [← hr.firstLongest_eq ?_, hlongest.firstLongest_eq (by decide)]
    exact Nat.zero_lt_of_lt hphys.1
  have hlow : phys.toNat < 0x4000000 := by
    have hmem := hphys.1
    rw [hfirst, regionBytes, Set.mem_ofPred_eq] at hmem
    bv_omega
  refine ⟨by omega, ?_⟩
  rintro ⟨list, hlist, e, he, -, hhigh, hupper, -⟩
  obtain rfl := Option.some.inj hlist
  have hcases : e = ⟨0x100000, 0x3f00000, 1⟩ ∨ e = ⟨0x100000000, 0x1000000, 1⟩ := by
    simpa [lowAndHigh, mapSlots] using he
  rcases hcases with rfl | rfl
  · exact absurd hhigh (by decide)
  · exact absurd hupper (by decide)

/-- Without a map the heap is put at the direct-map address of a virtual address. -/
theorem not_heapMapped_without_map : ¬ sampleBoot.HeapMapped none none none := by
  have htables := hhdmTables_afterBase (b := sampleBoot) none
  intro h
  have hregion : sampleBoot.layout.heapRegion (sampleBoot.layout.bootMap none none none) =
      (0xffffffff80e00000, 0x7ffffe8) := by
    decide +kernel
  have hfirst := h 0xffffffff80e00000 (by
    rw [hregion, regionBytes, Set.mem_ofPred_eq]
    decide)
  have hlow := ((walk_hhdm_iff htables _).mp hfirst).1
  exact absurd hlow (by decide)

end GrubBoot

end Utopia
