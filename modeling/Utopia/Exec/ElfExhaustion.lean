/-
`elf_load` when the heap has no page for a segment: the null pointer goes through the direct
map before it is tested.
-/
import Utopia.Exec.ElfRights

namespace Utopia

/-- A round of the loop over the pages: the header, `prev_seg_flags`, the memory, and the
address of the page. -/
structure ElfRound where
  ph : ElfPhdr
  prev : VmFlags
  mem : Memory
  pageVa : Word

namespace Machine

variable (k : Machine) (file : ElfFile) (l4 loadBias : Word) (m : Memory)

/-- `elf_load` comes to the round. -/
def ReachesRound (round : ElfRound) : Prop :=
  file.checkHeader k.arch = none ∧
    ∃ s : ElfLoadState,
      FoldReaches (k.loadHeader file l4 (file.biasFor loadBias)) file.phdrs
        ⟨m, 0, VmFlags.none, ~~~0, 0, none, none⟩ s round.ph ∧
      round.ph.type = ptLoad ∧ ¬ file.size < round.ph.offset + round.ph.filesz ∧
      round.prev = s.prevSegFlags ∧
      FoldReaches (k.loadPage file l4 (file.biasFor loadBias) round.ph round.prev)
        (round.ph.pages (file.biasFor loadBias)) s.memory round.mem round.pageVa

/-- The round needs a page, and `pt_pool_alloc` returns null. -/
def PageRefused (round : ElfRound) : Prop :=
  k.elfUv2kv round.mem l4 round.pageVa = 0 ∧ (k.ptPoolAlloc round.mem).1 = 0

/-- Where a page is refused, `elf_load` returns `ELF_ERR_NO_MEMORY` at once, and what the
allocator left of the memory stays. -/
def NoticesRefusal : Prop :=
  ∀ round, k.ReachesRound file l4 loadBias m round → k.PageRefused l4 round →
    k.loadPage file l4 (file.biasFor loadBias) round.ph round.prev round.mem round.pageVa =
        .error (.noMemory, (k.ptPoolAlloc round.mem).2) ∧
      k.elfLoad file l4 loadBias m = .error (.noMemory, (k.ptPoolAlloc round.mem).2)

variable {k file l4 loadBias m} {bias : Word} {round : ElfRound}

theorem hhdmVirtToPhys_null : k.hhdmVirtToPhys 0 = 0 ↔ k.hhdmOffset = 0 := by
  rw [hhdmVirtToPhys]
  constructor
  · intro h
    have hsum := BitVec.sub_add_cancel 0 k.hhdmOffset
    rw [h] at hsum
    exact (BitVec.zero_add _).symm.trans hsum
  · intro h
    rw [h]
    rfl

/-- What a round without a page comes to. -/
theorem loadPage_refused (h : k.PageRefused l4 round) :
    (∃ after, k.loadPage file l4 bias round.ph round.prev round.mem round.pageVa =
        .error (.noMemory, after)) ↔ k.hhdmOffset = 0 := by
  obtain ⟨hmissing, hnull⟩ := h
  rw [loadPage, hmissing, ← hhdmVirtToPhys_null]
  generalize k.ptPoolAlloc round.mem = alloc at hnull
  obtain ⟨page, m₁⟩ := alloc
  obtain rfl : page = 0 := hnull
  simp only [ne_eq, not_true_eq_false, if_false]
  by_cases hphys : k.hhdmVirtToPhys 0 = 0
  · rw [if_pos hphys]
    exact iff_of_true ⟨m₁, rfl⟩ hphys
  · rw [if_neg hphys]
    refine iff_of_false ?_ hphys
    rintro ⟨after, hafter⟩
    split at hafter <;> cases hafter

theorem loadPage_noticed (h : k.PageRefused l4 round) (hoffset : k.hhdmOffset = 0) :
    k.loadPage file l4 bias round.ph round.prev round.mem round.pageVa =
      .error (.noMemory, (k.ptPoolAlloc round.mem).2) := by
  obtain ⟨hmissing, hnull⟩ := h
  have hphys : k.hhdmVirtToPhys (k.ptPoolAlloc round.mem).1 = 0 := by
    rw [hnull]
    exact hhdmVirtToPhys_null.mpr hoffset
  rw [loadPage, hmissing]
  simp only [ne_eq, not_true_eq_false, if_false, hphys, if_true]

/-- An error of a round is the error of the load. -/
theorem ReachesRound.elfLoad_eq {e : ElfLoadStatus × Memory}
    (h : k.ReachesRound file l4 loadBias m round)
    (he : k.loadPage file l4 (file.biasFor loadBias) round.ph round.prev round.mem
      round.pageVa = .error e) :
    k.elfLoad file l4 loadBias m = .error e := by
  obtain ⟨hheader, s, hreached, htype, hfits, hprev, hpage⟩ := h
  have hpages := hpage.error he
  obtain ⟨hphdr, hdynamic, hinterp⟩ := ptLoad_only htype
  have hround : k.loadHeader file l4 (file.biasFor loadBias) s round.ph = .error e := by
    rw [loadHeader, if_neg hphdr, if_neg hdynamic, if_neg hinterp, if_neg (not_not.mpr htype),
      if_neg hfits, ← hprev, hpages]
    rfl
  rw [elfLoad, hheader]
  dsimp only
  rw [hreached.error hround]
  rfl

/-- A refused page is noticed only where the direct map starts at 0. -/
theorem elfLoad_noticesRefusal_iff (k : Machine) (file : ElfFile) (l4 loadBias : Word)
    (m : Memory) :
    k.NoticesRefusal file l4 loadBias m ↔
      k.hhdmOffset = 0 ∨ ∀ round, k.ReachesRound file l4 loadBias m round →
        ¬ k.PageRefused l4 round := by
  constructor
  · intro hnotices
    by_cases hoffset : k.hhdmOffset = 0
    · exact Or.inl hoffset
    · refine Or.inr fun round hreached hrefused => hoffset ?_
      exact (loadPage_refused hrefused).mp ⟨_, (hnotices round hreached hrefused).1⟩
  · rintro (hoffset | hnever) round hreached hrefused
    · have hround := @loadPage_noticed k file l4 (file.biasFor loadBias) round hrefused hoffset
      exact ⟨hround, hreached.elfLoad_eq hround⟩
    · exact absurd hrefused (hnever round hreached)

/-- The heap of the sample, all of it in one block. -/
def fullMemory : Memory := (sampleRegion.allocator.malloc sampleMemory 0xffe0).2

/-- The first page of the sample image, with the heap full. -/
def fullRound : ElfRound :=
  ⟨sampleElf.phdrAt 64, VmFlags.none, fullMemory, 0x400000⟩

theorem fullRound_reached :
    (sampleMachine .x86_64).ReachesRound sampleElf sampleRoot.addr 0 fullMemory fullRound := by
  have hheaders : sampleElf.phdrs = [] ++ fullRound.ph :: sampleElf.phdrs.tail := by
    decide +kernel
  have hpages : fullRound.ph.pages (sampleElf.biasFor 0) =
      [] ++ fullRound.pageVa :: (fullRound.ph.pages (sampleElf.biasFor 0)).tail := by
    decide +kernel
  exact ⟨by decide +kernel, _, ⟨[], _, hheaders, rfl⟩, by decide +kernel, by decide +kernel, rfl,
    ⟨[], _, hpages, rfl⟩⟩

theorem fullRound_refused : (sampleMachine .x86_64).PageRefused sampleRoot.addr fullRound := by
  constructor <;> decide +kernel

/-- With the heap full, the first page of the sample image is refused, and the load goes on. -/
theorem not_elfLoad_noticesRefusal :
    ¬ ∀ (k : Machine) (file : ElfFile) (l4 loadBias : Word) (m : Memory),
      k.NoticesRefusal file l4 loadBias m := by
  intro h
  obtain ⟨hround, -⟩ := h (sampleMachine .x86_64) sampleElf sampleRoot.addr 0 fullMemory
    fullRound fullRound_reached fullRound_refused
  have hoffset := (loadPage_refused fullRound_refused).mp ⟨_, hround⟩
  exact absurd hoffset (by decide)

end Machine

end Utopia
