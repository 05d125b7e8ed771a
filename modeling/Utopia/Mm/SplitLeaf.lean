/-
What `split_leaf` of `mm/vmm.c` keeps, for every entry that the encoders build.
-/
import Utopia.Mm.PageWalk
import Utopia.Mm.PageRefine

namespace Utopia

namespace Arch

/-- The entries that the kernel builds for leaves. -/
inductive Built (arch : Arch) : Word → Prop where
  | leaf (phys : Word) (flags : VmFlags) (huge : Bool) : Built arch (arch.pteLeaf phys flags huge)
  | withFlags {existing : Word} (flags : VmFlags) (hpresent : arch.ptePresent existing = true) :
      Built arch (arch.pteWithFlags existing flags)
  | child {parent : Word} (phys : Word) (level : Nat) (hparent : Built arch parent) :
      Built arch (arch.pteChildLeaf parent phys level)

variable {arch : Arch}

/-- A table entry that takes no permission away from the leaves below it and adds none. -/
def pteNeutral : Arch → Word → Bool
  | x86_64, entry =>
      hasBits entry X86.pageRw && hasBits entry X86.pageUser && !hasBits entry X86.pageNx
  | riscv64, entry => !hasBits entry (Riscv.pteU ||| Riscv.pteG)

theorem pteNeutral_pteTable (phys : Word) : arch.pteNeutral (arch.pteTable phys) = true := by
  cases arch
  · simp +decide [pteNeutral, pteTable, X86.pteTable, hasBits_and_of_disjoint]
  · simp +decide [pteNeutral, pteTable, Riscv.pteTable, hasBits_physToPpn]

theorem ptePresent_pteWithFlags {existing : Word} (flags : VmFlags)
    (hpresent : arch.ptePresent existing = true) :
    arch.ptePresent (arch.pteWithFlags existing flags) = true := by
  cases arch
  · simp only [ptePresent, X86.ptePresent, pteWithFlags, X86.pteWithFlags, X86.orFlags,
      hasBits_orIf] at *
    rw [hasBits_and _ _ _ (by decide), hpresent]
    simp
  · simp +decide [ptePresent, Riscv.ptePresent, pteWithFlags, Riscv.pteWithFlags, Riscv.orFlags,
      hasBits_orIf]

theorem Built.present {entry : Word} (h : arch.Built entry) : arch.ptePresent entry = true := by
  induction h with
  | leaf phys flags huge => exact ptePresent_pteLeaf phys flags huge
  | withFlags flags hpresent => exact ptePresent_pteWithFlags flags hpresent
  | child phys level _ ih => exact ptePresent_pteChildLeaf phys level ih

end Arch

namespace Machine

variable {k : Machine} {m m' : Memory} {live : Set Chunk} {t : TableAddr} {i : Fin 512} {e : Word}
  {level n : Nat}

/-- An aligned leaf ends where the architecture's addresses end, or before. -/
theorem leafFits_of_aligned (hlevel : level ≤ 3)
    (halign : (k.arch.ptePhys e).toNat % (levelSpan level).toNat = 0) : k.LeafFits level e := by
  intro _ _
  have hframe : k.arch.IsFrame (k.arch.ptePhys e) := Arch.isFrame_ptePhys e
  have hbound := hframe.2
  rw [levelSpan_toNat hlevel] at halign
  have hmul : k.arch.physBound % 2 ^ (12 + level * 9) = 0 := by
    cases k.arch <;> interval_cases level <;> rfl
  interval_cases level <;> norm_num at halign hmul ⊢ <;> omega

/-- A walk that meets a leaf ends there. -/
theorem translateFrom_leaf (va table : Word) (hleaf : k.arch.pteIsLeaf
      (m.read64 (entryAddr table (ptIndex va level))) level = true) :
    k.translateFrom m va level table =
      k.mappingOf level (m.read64 (entryAddr table (ptIndex va level))) va := by
  cases level with
  | zero => cases hpresent : k.arch.ptePresent (m.read64 (entryAddr table (ptIndex va 0))) <;>
      simp [translateFrom, mappingOf, hpresent]
  | succ level =>
      cases hpresent : k.arch.ptePresent
          (m.read64 (entryAddr table (ptIndex va (level + 1)))) <;>
        simp [translateFrom, mappingOf, hpresent, hleaf]

/-- A walk that meets a table goes on there. -/
theorem translateFrom_table (va table : Word)
    (hpresent : k.arch.ptePresent (m.read64 (entryAddr table (ptIndex va (level + 1)))) = true)
    (hleaf : k.arch.pteIsLeaf (m.read64 (entryAddr table (ptIndex va (level + 1))))
      (level + 1) = false) :
    k.translateFrom m va (level + 1) table =
      k.translateFrom m va level
        (k.physToVirt (k.arch.ptePhys (m.read64 (entryAddr table (ptIndex va (level + 1)))))) := by
  simp [translateFrom, hpresent, hleaf]

/-- What a successful `split_leaf` of entry `i` of a table at `level` has done. -/
structure LeafSplit (k : Machine) (m m' : Memory) (live : Set Chunk) (t : TableAddr) (i : Fin 512)
    (level : Nat) : Prop where
  present : k.arch.ptePresent (ptEntry m' t i) = true
  isTable : k.arch.pteIsLeaf (ptEntry m' t i) level = false
  neutral : k.arch.pteNeutral (ptEntry m' t i) = true
  children : ∀ j, k.arch.ptePresent (ptEntry m' (k.childTable (ptEntry m' t i)) j) = true ∧
    k.arch.pteIsLeaf (ptEntry m' (k.childTable (ptEntry m' t i)) j) (level - 1) = true
  before : ∀ va, ptIndex va level = i → k.translateFrom m va level t.addr =
    some ⟨k.arch.ptePhys (ptEntry m t i) + (va &&& (levelSpan level - 1)),
      k.arch.pteFlags (ptEntry m t i)⟩
  after : ∀ va, ptIndex va level = i →
    k.translateFrom m' va level t.addr = k.translateFrom m va level t.addr
  others : Set.EqOn m' m (k.alloc.kept live \ span (entryAddr t.addr i) 8)

theorem splitLeaf_split (hlive : k.alloc.Live m live)
    (hkept : span (entryAddr t.addr i) 8 ⊆ k.alloc.kept live) (hn : n ≤ 2)
    (hpresent : k.arch.ptePresent (ptEntry m t i) = true)
    (hleaf : k.arch.pteIsLeaf (ptEntry m t i) (n + 1) = true)
    (hfits : k.LeafFits (n + 1) (ptEntry m t i)) :
    ((k.ptPoolAlloc m).1 = 0 ∧ k.splitLeaf m (entryAddr t.addr i) (n + 1) = (false, m)) ∨
      ((k.ptPoolAlloc m).1 ≠ 0 ∧ ∃ m', k.splitLeaf m (entryAddr t.addr i) (n + 1) = (true, m') ∧
        k.LeafSplit m m' live t i (n + 1)) := by
  rcases ptPoolAlloc_spec hlive with
    hnull | ⟨u, c, m₁, halloc, hptr, hne, hsize, hnew, hheap, hkeep, -⟩
  · left
    simp only [splitLeaf, hnull, if_true, and_self]
  right
  have hold : m.read64 (entryAddr t.addr i) = ptEntry m t i := rfl
  simp only [splitLeaf, halloc, if_neg hne, Nat.add_sub_cancel, hold]
  generalize hf : (fun j _ => k.arch.pteChildLeaf (ptEntry m t i)
    (k.arch.ptePhys (ptEntry m t i) + BitVec.ofNat 64 j * levelSpan n) n :
      Nat → Memory → Word) = f
  have hfill := Memory.fillWords_eqOn (n := 512) m₁ f u.fits
  have hc := Set.mem_insert c live
  have hbytes : span u.addr 4096 ⊆ c.bytes := by
    rw [Chunk.bytes, hptr]
    exact span_subset_span le_rfl (by omega)
  have haway : Disjoint (span u.addr 4096) (k.alloc.kept live) :=
    (Allocator.bytes_disjoint_kept hheap (Set.subset_insert c live) hc hnew).mono_left hbytes
  obtain ⟨-, hfilled⟩ := Allocator.written hnew hheap hkeep hbytes hfill
  have hslot := entryAddr_toNat t i
  have htfits := t.fits
  have hi := i.isLt
  have hwrite := Memory.write64_eqOn (a := entryAddr t.addr i) (m₁.fillWords u.addr 512 f)
    (k.arch.pteTable (k.hhdmVirtToPhys u.addr)) (by omega)
  set m' := (m₁.fillWords u.addr 512 f).write64 (entryAddr t.addr i)
    (k.arch.pteTable (k.hhdmVirtToPhys u.addr)) with hm'
  have hentry : ptEntry m' t i = k.arch.pteTable (k.hhdmVirtToPhys u.addr) :=
    Memory.read64_write64 _ _ _
  have htable : k.childTable (ptEntry m' t i) = u := by
    rw [hentry]
    exact childTable_pteTable (isFrame_hhdmVirtToPhys hheap hc hptr hsize)
  have hchild (j : Fin 512) : ptEntry m' u j = k.arch.pteChildLeaf (ptEntry m t i)
      (k.arch.ptePhys (ptEntry m t i) + BitVec.ofNat 64 j * levelSpan n) n := by
    have hsame : ptEntry m' u = ptEntry (m₁.fillWords u.addr 512 f) u :=
      ptEntry_congr (hwrite.mono fun x hx hspan => Set.disjoint_left.mp haway hx (hkept hspan))
    rw [hsame, ptEntry_fillWords, ← hf]
  have hbefore (va : Word) (hva : ptIndex va (n + 1) = i) :
      k.translateFrom m va (n + 1) t.addr = k.mappingOf (n + 1) (ptEntry m t i) va := by
    subst hva
    exact translateFrom_leaf va t.addr hleaf
  have hnotLeaf : k.arch.pteIsLeaf (ptEntry m' t i) (n + 1) = false := by
    rw [hentry, Arch.pteIsLeaf_pteTable]
  have hthere : k.arch.ptePresent (ptEntry m' t i) = true := by
    rw [hentry, Arch.ptePresent_pteTable]
  refine ⟨hne, m', rfl, ?_⟩
  constructor
  · exact hthere
  · exact hnotLeaf
  · rw [hentry, Arch.pteNeutral_pteTable]
  · intro j
    rw [htable, hchild, Nat.add_sub_cancel]
    exact ⟨Arch.ptePresent_pteChildLeaf _ _ hpresent, Arch.pteIsLeaf_pteChildLeaf _ hleaf⟩
  · intro va hva
    rw [hbefore va hva, mappingOf, if_pos hpresent]
  · intro va hva
    have hdown : k.translateFrom m' va (n + 1) t.addr = k.translateFrom m' va n u.addr := by
      subst hva
      rw [translateFrom_table va t.addr hthere hnotLeaf]
      exact congrArg (fun u : TableAddr => k.translateFrom m' va n u.addr) htable
    have hleaf' : k.arch.pteIsLeaf (ptEntry m' u (ptIndex va n)) n = true := by
      rw [hchild]
      exact Arch.pteIsLeaf_pteChildLeaf _ hleaf
    calc k.translateFrom m' va (n + 1) t.addr
        = k.mappingOf n (ptEntry m' u (ptIndex va n)) va :=
          hdown.trans (translateFrom_leaf va u.addr hleaf')
      _ = k.mappingOf (n + 1) (ptEntry m t i) va := by
          rw [hchild, mappingOf_pteChildLeaf hn hpresent hleaf hfits]
      _ = k.translateFrom m va (n + 1) t.addr := (hbefore va hva).symm
  · intro x hx
    rw [hwrite hx.2, hfilled hx.1]

/-- `split_leaf` keeps every translation below an aligned leaf that the kernel built; without
memory for the table it changes nothing. -/
theorem split_leaf_preserves (hlive : k.alloc.Live m live)
    (hkept : span (entryAddr t.addr i) 8 ⊆ k.alloc.kept live) (hlevel : level = 1 ∨ level = 2)
    (hbuilt : k.arch.Built (ptEntry m t i))
    (hleaf : k.arch.pteIsLeaf (ptEntry m t i) level = true)
    (halign : (k.arch.ptePhys (ptEntry m t i)).toNat % (levelSpan level).toNat = 0) :
    ((k.splitLeaf m (entryAddr t.addr i) level).1 = true →
      k.LeafSplit m (k.splitLeaf m (entryAddr t.addr i) level).2 live t i level) ∧
    ((k.ptPoolAlloc m).1 = 0 ↔ (k.splitLeaf m (entryAddr t.addr i) level).1 = false) ∧
    ((k.splitLeaf m (entryAddr t.addr i) level).1 = false →
      (k.splitLeaf m (entryAddr t.addr i) level).2 = m) := by
  obtain ⟨n, rfl⟩ : ∃ n, level = n + 1 := ⟨level - 1, by omega⟩
  rcases splitLeaf_split hlive hkept (by omega) hbuilt.present hleaf
    (leafFits_of_aligned (by omega) halign) with ⟨hnull, hsplit⟩ | ⟨hne, m', hsplit, hdone⟩
  · rw [hsplit]
    exact ⟨fun h => Bool.noConfusion h, ⟨fun _ => rfl, fun _ => hnull⟩, fun _ => rfl⟩
  · rw [hsplit]
    exact ⟨fun _ => hdone, ⟨fun hnull => absurd hnull hne, fun h => Bool.noConfusion h⟩,
      fun h => Bool.noConfusion h⟩

end Machine

/-- The sample memory with an entry in its root. -/
def leafMemory (i : Fin 512) (entry : Word) : Memory :=
  sampleMemory.write64 (entryAddr sampleRoot.addr i) entry

theorem leafMemory_entry (i : Fin 512) (entry : Word) :
    ptEntry (leafMemory i entry) sampleRoot i = entry :=
  Memory.read64_write64 _ _ _

theorem sampleSlot_kept (arch : Arch) (i : Fin 512) :
    span (entryAddr sampleRoot.addr i) 8 ⊆ (sampleMachine arch).alloc.kept ∅ :=
  (entry_subset sampleRoot i).trans
    ((sampleTables arch).kept sampleRoot ⟨sampleRoot, rfl, [], Radix.tableAt_nil _ _⟩)

theorem leafMemory_live (arch : Arch) (i : Fin 512) (entry : Word) :
    (sampleMachine arch).alloc.Live (leafMemory i entry) ∅ := by
  have hslot := entryAddr_toNat sampleRoot i
  have hfits := sampleRoot.fits
  have hi := i.isLt
  exact (sampleTables arch).heap.of_eqOn_compl (sampleSlot_kept arch i)
    (Memory.write64_eqOn _ _ (by omega))

/-- A leaf of 1 GiB. -/
def sampleGigabyte : Word := X86.pteLeaf 0x80000000 userData true

/-- A leaf of 2 MiB that has lost the right to be written. -/
def sampleMegabyte : Word :=
  Riscv.pteWithFlags (Riscv.pteLeaf 0x80200000 userData true) ⟨false, true, true, false⟩

/-- A split on each architecture. -/
theorem split_leaf_preserves_sample :
    (sampleMachine .x86_64).LeafSplit (leafMemory 3 sampleGigabyte)
        ((sampleMachine .x86_64).splitLeaf (leafMemory 3 sampleGigabyte)
          (entryAddr sampleRoot.addr 3) 2).2 ∅ sampleRoot 3 2 ∧
      (sampleMachine .riscv64).LeafSplit (leafMemory 3 sampleMegabyte)
        ((sampleMachine .riscv64).splitLeaf (leafMemory 3 sampleMegabyte)
          (entryAddr sampleRoot.addr 3) 1).2 ∅ sampleRoot 3 1 := by
  constructor
  · refine (Machine.split_leaf_preserves (leafMemory_live _ _ _) (sampleSlot_kept _ _) (Or.inr rfl)
      ?_ ?_ ?_).1 (by decide)
    · rw [leafMemory_entry]
      exact .leaf _ _ _
    · rw [leafMemory_entry]
      decide
    · rw [leafMemory_entry]
      decide
  · refine (Machine.split_leaf_preserves (leafMemory_live _ _ _) (sampleSlot_kept _ _) (Or.inl rfl)
      ?_ ?_ ?_).1 (by decide)
    · rw [leafMemory_entry]
      exact .withFlags _ (Arch.ptePresent_pteLeaf 0x80200000 userData true)
    · rw [leafMemory_entry]
      decide
    · rw [leafMemory_entry]
      decide

end Utopia
