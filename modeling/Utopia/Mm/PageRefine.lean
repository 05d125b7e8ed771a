/-
The page table of a machine refines a partial map from pages to frames and
permissions, on both architectures and for every lawful heap.
-/
import Utopia.Mm.HeapArena
import Utopia.Mm.PageOps

namespace Utopia

namespace Machine

variable {k : Machine} {m : Memory} {live : Set Chunk} {roots : Set TableAddr}
  {r : TableAddr} {virt : Word}

/-- On well-formed tables, mapping a frame, protecting and unmapping a page of
the user half take the step of the same name on the address space, or return -1
and change nothing; the tables stay well formed. -/
theorem pageOps_refine_addressSpace (h : k.PageTables m live roots) (hr : r ∈ roots)
    (hvirt : virt.toNat < 2 ^ 47) (flags : VmFlags) :
    (∀ phys, k.arch.IsFrame phys →
      (∃ live', k.PageTables (k.mapPage4k m r.addr virt phys flags).2 live' roots) ∧
        k.Returns roots r m (k.mapPage4k m r.addr virt phys flags)
          ((k.spaceOf m r.addr).map (vpn virt) phys flags)) ∧
    ((∃ live', k.PageTables (k.protectPage4k m r.addr virt flags).2 live' roots) ∧
      k.Returns roots r m (k.protectPage4k m r.addr virt flags)
        ((k.spaceOf m r.addr).protect (vpn virt) flags) ∧
      ((k.protectPage4k m r.addr virt flags).1 = 0 →
        (k.spaceOf m r.addr (vpn virt)).isSome)) ∧
    ((∃ live', k.PageTables (k.unmapPage4k m r.addr virt).2 live' roots) ∧
      k.Returns roots r m (k.unmapPage4k m r.addr virt)
        ((k.spaceOf m r.addr).unmap (vpn virt))) ∧
    ∀ m va, k.vmUserToKernel m r.addr va =
      ((k.spaceOf m r.addr (vpn va)).map
        fun x => k.physToVirt (x.phys + (va &&& 4095))).getD 0 := by
  have hprivate := not_kernelIndex_of_lt hvirt
  have huser : ptIndex virt ptTopLevel ∈ userTops := hprivate
  refine ⟨fun phys hphys => ?_, ?_, ?_, fun m va => ?_⟩
  · obtain ⟨live', hextends, hreturns⟩ := h.mapPage4k_spec hr huser phys flags
    rw [pageMapping_pteLeaf hphys] at hreturns
    exact ⟨⟨live', hextends.tables⟩, hreturns.returns hprivate⟩
  · obtain ⟨live', hextends, hreturns, hmapped⟩ := h.protectPage4k_spec hr huser flags
    exact ⟨⟨live', hextends.tables⟩, hreturns.returns hprivate, hmapped⟩
  · obtain ⟨live', hextends, hreturns⟩ := h.unmapPage4k_spec hr huser
    exact ⟨⟨live', hextends.tables⟩, hreturns.returns hprivate⟩
  · rw [vmUserToKernel_eq, translate_eq_spaceOf, Option.map_map]
    rfl

/-- A root without entries is a well-formed address space. -/
theorem pageTables_of_empty (hheap : k.alloc.Live m live) (hne : r.addr ≠ 0)
    (hkept : r.bytes ⊆ k.alloc.kept live) (hempty : ∀ i, ptEntry m r i = 0) :
    k.PageTables m live {r} := by
  have hnil : ∀ p t, k.tableAt m ptTopLevel r p = some t → p = [] ∧ t = r := by
    intro p t ht
    cases p with
    | nil => exact ⟨rfl, by simpa using ht.symm⟩
    | cons i p =>
        rw [tableAt, ptTopLevel, Radix.tableAt_cons, hempty,
          child_eq_none_iff.mpr (Or.inl Arch.ptePresent_zero)] at ht
        cases ht
  refine ⟨hheap, by simpa using hne, ?_, ?_, ?_⟩
  · rintro r₁ rfl r₂ rfl p q t hp hq
    exact ⟨(hnil p t hp).1.trans (hnil q t hq).1.symm, Or.inl rfl⟩
  · rintro t ⟨r', rfl, p, ht⟩
    rw [(hnil p t ht).2]
    exact hkept
  · rintro r' rfl p t i ht hpresent
    rw [(hnil p t ht).2, hempty, Arch.ptePresent_zero] at hpresent
    cases hpresent

end Machine

/-! ### A machine with 64 KiB of heap -/

/-- The direct map starts at the higher half; the kernel's table lies below the
heap. -/
def sampleMachine (arch : Arch) : Machine where
  arch := arch
  hhdmOffset := 0xffff800000000000
  alloc := sampleRegion.allocator
  pageTableL4 := 0xffff800000001000
  hhdm_aligned := by decide
  arena_frames := by
    intro x hx
    have hbytes : 0xffff800000100000 ≤ x.toNat ∧ x.toNat < 0xffff800000110000 := hx
    have hbound : 2 ^ 52 ≤ arch.physBound := by
      cases arch <;> decide
    refine Nat.lt_of_lt_of_le ?_ hbound
    bv_omega

def sampleRoot : TableAddr := ⟨0xffff800000001000, by decide⟩

/-- All zeros but for the free block that is the heap. -/
def sampleMemory : Memory := initHead (fun _ => 0) sampleRegion.head sampleRegion.size

theorem sampleMemory_eq_zero {x : Word} (hx : x ∉ span sampleRegion.head 24) :
    sampleMemory x = 0 := by
  have hfit : sampleRegion.head.toNat + 24 ≤ 2 ^ 64 := by decide
  rw [sampleMemory, initHead, setBlockFree_eqOn hfit _ _ hx,
    setBlockNext_eqOn hfit _ _ hx, setBlockSize_eqOn hfit _ _ hx]

theorem sampleRoot_empty (i : Fin 512) : ptEntry sampleMemory sampleRoot i = 0 := by
  apply Machine.ptEntry_eq_zero
  intro x hx
  apply sampleMemory_eq_zero
  rintro ⟨hlow, -⟩
  have hhigh : x.toNat < 0xffff800000001000 + 4096 := hx.2
  have hhead : 0xffff800000100000 ≤ x.toNat := hlow
  omega

theorem sampleTables (arch : Arch) :
    (sampleMachine arch).PageTables sampleMemory ∅ {sampleRoot} := by
  apply Machine.pageTables_of_empty (HeapRegion.live_initHead sampleRegion _) (by decide)
  · intro x hx
    left
    rintro ⟨hlow, -⟩
    have hhigh : x.toNat < 0xffff800000001000 + 4096 := hx.2
    have hhead : 0xffff800000100000 ≤ x.toNat := hlow
    omega
  · exact sampleRoot_empty

/-- Read and write from user mode. -/
def userData : VmFlags := ⟨true, true, false, false⟩

/-- An x86-64 entry drops the bits of the frame address from 52 on: mapping the
page-aligned 2 ^ 52 succeeds and maps another frame. -/
theorem mapPage4k_drops_high_bits :
    ∃ (k : Machine) (m : Memory) (live : Set Chunk) (r : TableAddr) (virt phys : Word)
      (flags : VmFlags), k.PageTables m live {r} ∧ virt.toNat < 2 ^ 47 ∧
        phys.toNat % 4096 = 0 ∧ (k.mapPage4k m r.addr virt phys flags).1 = 0 ∧
        k.spaceOf (k.mapPage4k m r.addr virt phys flags).2 r.addr (vpn virt) ≠
          some ⟨phys, flags⟩ := by
  have hstatus : ((sampleMachine .x86_64).mapPage4k sampleMemory sampleRoot.addr 0x400000
      0x10000000000000 userData).1 = 0 := by decide
  refine ⟨sampleMachine .x86_64, sampleMemory, ∅, sampleRoot, 0x400000, 0x10000000000000,
    userData, sampleTables _, by decide, by decide, hstatus, ?_⟩
  obtain ⟨live', -, hreturns⟩ := (sampleTables .x86_64).mapPage4k_spec
    (Set.mem_singleton sampleRoot) (show ptIndex 0x400000 ptTopLevel ∈ Set.univ from trivial)
    0x10000000000000 userData
  rcases hreturns with ⟨-, hspace, -⟩ | ⟨hfail, -⟩
  · rw [hspace, Function.update_self]
    decide
  · rw [hstatus] at hfail
    cases hfail

/-- The sample machine maps a page. -/
def sampleOnePage : Int × Memory :=
  (sampleMachine .riscv64).mapPage4k sampleMemory sampleRoot.addr 0x400000 0x5000 userData

def readOnly : VmFlags := ⟨true, false, false, false⟩

/-- A page of the sample machine is mapped; then it is found there, gets new permissions
and is unmapped. -/
theorem pageOps_refine_addressSpace_sample :
    (sampleMachine .riscv64).spaceOf sampleOnePage.2 sampleRoot.addr (vpn 0x400000) =
        some ⟨0x5000, userData⟩ ∧
      (sampleMachine .riscv64).vmUserToKernel sampleOnePage.2 sampleRoot.addr 0x400123 =
        0xffff800000005123 ∧
      (sampleMachine .riscv64).spaceOf ((sampleMachine .riscv64).protectPage4k sampleOnePage.2
        sampleRoot.addr 0x400000 readOnly).2 sampleRoot.addr (vpn 0x400000) =
          some ⟨0x5000, readOnly⟩ ∧
      (sampleMachine .riscv64).spaceOf ((sampleMachine .riscv64).unmapPage4k sampleOnePage.2
        sampleRoot.addr 0x400000).2 sampleRoot.addr (vpn 0x400000) = none := by
  have hvirt : (0x400000 : Word).toNat < 2 ^ 47 := by decide
  have hroot : sampleRoot ∈ ({sampleRoot} : Set TableAddr) := rfl
  obtain ⟨⟨live, htables⟩, hmap⟩ := (Machine.pageOps_refine_addressSpace
    (sampleTables .riscv64) hroot hvirt userData).1 0x5000 ⟨by decide, by decide⟩
  have hmapped : (sampleMachine .riscv64).spaceOf sampleOnePage.2 sampleRoot.addr
      (vpn 0x400000) = some ⟨0x5000, userData⟩ := by
    rw [sampleOnePage, hmap.of_status (by decide)]
    exact Function.update_self ..
  obtain ⟨-, ⟨-, hprotect, -⟩, ⟨-, hunmap⟩, hfound⟩ :=
    Machine.pageOps_refine_addressSpace htables hroot hvirt readOnly
  refine ⟨hmapped, ?_, ?_, ?_⟩
  · rw [hfound, show vpn 0x400123 = vpn 0x400000 by decide, hmapped]
    decide
  · rw [sampleOnePage, hprotect.of_status (by decide), AddressSpace.protect, Function.update_self]
    exact congrArg (Option.map fun x => { x with flags := readOnly }) hmapped
  · rw [sampleOnePage, hunmap.of_status (by decide)]
    exact Function.update_self ..

end Utopia
