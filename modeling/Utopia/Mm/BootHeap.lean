/-
Where the heap lies after boot, and when it stays clear of the modules and of the
kernel.
-/
import Utopia.Mm.BootRegions

namespace Utopia

def BootEntry.bytes (e : BootEntry) : Set Word :=
  between e.base.toNat (e.base.toNat + e.length.toNat)

/-- The bytes that a heap block with this header stands for, the header included. -/
def heapBytes (head size : Word) : Set Word :=
  { x | (x - head).toNat < sizeofHeapBlock.toNat + size.toNat }

/-- The heap with its first header at `head` lies in usable memory, beside the modules
and beside the kernel image. -/
def BootLayout.HeapApart (k : BootLayout) (entries : List BootEntry) (modules : List BootModule)
    (head : Word) (m : Memory) : Prop :=
  ∀ phys, k.physToVirt phys ∈ heapBytes head (blockSize m head) →
    (∃ e ∈ entries, k.bootloader.Usable e ∧ phys ∈ e.bytes) ∧
      (∀ mod ∈ modules, phys ∉ k.moduleBytes mod) ∧ phys ∉ k.kernelImage

namespace BootLayout

variable (k : BootLayout)

/-- The page-rounded end of the kernel lies strictly inside the region. -/
def EndsInside (r : Word × Word) : Prop :=
  r.1.toNat < k.kernelEndPhys.toNat ∧ k.kernelEndPhys.toNat < regionStop r

instance (r : Word × Word) : Decidable (k.EndsInside r) := inferInstanceAs (Decidable (_ ∧ _))

/-- The first byte of the region that may become heap. -/
def heapStart (r : Word × Word) : ℕ :=
  if k.EndsInside r then k.kernelEndPhys.toNat else r.1.toNat

/-- The region lies on one side of the kernel image. -/
def BesideImage (r : Word × Word) : Prop :=
  k.imageStart = k.imageEnd ∨
    regionStop r ≤ (k.kernelVirtToPhys k.imageStart).toNat ∨
    (k.kernelVirtToPhys k.imageStart).toNat + (k.imageEnd.toNat - k.imageStart.toNat) ≤ r.1.toNat

/-- A module inside one of the regions `m`, of which no second part finds a slot, lies on one
side of what becomes heap. -/
def BesideRefused (m : ℕ × List (Word × Word)) (r : Word × Word) : Option BootModule → Prop
  | none => True
  | some mod =>
      NoPlace (k.hhdmVirtToPhys mod.addr) (k.hhdmVirtToPhys mod.addr + mod.size) m →
        (k.hhdmVirtToPhys mod.addr + mod.size).toNat ≤ k.heapStart r ∨
          regionStop r ≤ (k.hhdmVirtToPhys mod.addr).toNat

/-- The first of the longest regions that the modules leave of the usable memory has room for a
header, either goes on behind the kernel or lies beside it, and holds no module that found no
slot. -/
def HeapFits (entries : List BootEntry) (initramfs font : Option BootModule) : Prop :=
  ∃ r, Longest (k.leftOver (some entries) initramfs font).2 r ∧
    sizeofHeapBlock.toNat ≤ regionStop r - k.heapStart r ∧
    (k.EndsInside r ∨ k.BesideImage r) ∧
    k.BesideRefused (k.reported (some entries)) r initramfs ∧
    k.BesideRefused (k.withoutModule (k.reported (some entries)) initramfs) r font

end BootLayout

/-- Two intervals that are not empty do not meet, if one ends where or before the other
starts. -/
theorem disjoint_between_iff {a b c d : ℕ} (hab : a < b) (hb : b ≤ 2 ^ 64) (hcd : c < d) :
    Disjoint (between a b) (between c d) ↔ b ≤ c ∨ d ≤ a := by
  rw [Set.disjoint_left]
  constructor
  · intro h
    by_contra hmeet
    have hnat : (BitVec.ofNat 64 (max a c)).toNat = max a c := by
      rw [BitVec.toNat_ofNat, Nat.mod_eq_of_lt (by omega)]
    refine h (a := BitVec.ofNat 64 (max a c)) ?_ ?_ <;> rw [mem_between, hnat] <;> omega
  · intro h x hx hx'
    rw [mem_between] at hx hx'
    omega

namespace BootLayout

variable (k : BootLayout)

theorem kernelImage_before_end {x : Word} (hx : x ∈ k.kernelImage) :
    x.toNat < k.kernelEndPhys.toNat := by
  have hround : k.kernelEnd.toNat = (k.imageEnd.toNat + 4095) / 4096 * 4096 := by
    have h := @toNat_and_not_mask (k.imageEnd + 4095) 4095 12 rfl
    rw [toNat_add_of_lt (by have := k.end_fits; simpa using this)] at h
    exact h
  have hsplit : k.kernelEndPhys =
      k.kernelVirtToPhys k.imageStart + (k.kernelEnd - k.imageStart) := by
    rw [kernelEndPhys, kernelVirtToPhys, kernelVirtToPhys]
    grind
  have hle := k.start_le_end
  have hfits := k.image_fits
  have hsub : (k.kernelEnd - k.imageStart).toNat = k.kernelEnd.toNat - k.imageStart.toNat :=
    BitVec.toNat_sub_of_le (by rw [BitVec.le_def]; omega)
  rw [kernelImage, mem_between] at hx
  change (k.kernelVirtToPhys k.imageStart).toNat + _ + _ < _ at hfits
  rw [hsplit, toNat_add_of_lt (by omega), hsub]
  omega

variable {k}

/-- The region of the heap is what the longest region gives. -/
theorem heapRegion_of_longest {map : List MapEntry} {r : Word × Word}
    (h : Longest (freeRegions map) r) (hpos : 0 < r.2.toNat) (hfits : regionStop r < 2 ^ 64) :
    (k.heapRegion map).1.toNat = k.heapStart r ∧
      (k.heapRegion map).2.toNat = regionStop r - k.heapStart r := by
  have hcond : r.1 < k.kernelEndPhys ∧ k.kernelEndPhys < r.1 + r.2 ↔ k.EndsInside r := by
    rw [BitVec.lt_def, BitVec.lt_def, toNat_add_of_lt hfits, EndsInside, regionStop]
  rw [heapRegion, largestFree_eq, h.firstLongest_eq hpos, behindKernel, heapStart]
  by_cases hin : k.EndsInside r
  · rw [if_pos (hcond.mpr hin), if_pos hin]
    have hsub : (k.kernelEndPhys - r.1).toNat = k.kernelEndPhys.toNat - r.1.toNat :=
      BitVec.toNat_sub_of_le (by rw [BitVec.le_def]; exact hin.1.le)
    have hend := hin.2
    have hstart := hin.1
    rw [regionStop] at hend
    refine ⟨rfl, ?_⟩
    rw [BitVec.toNat_sub_of_le (by rw [BitVec.le_def, hsub]; omega), hsub, regionStop]
    omega
  · rw [if_neg (hcond.not.mpr hin), if_neg hin, regionStop]
    refine ⟨rfl, ?_⟩
    change r.2.toNat = _
    omega

/-! ### The heap bytes -/

theorem read64_of_bytes {m m' : Memory} {a : Word}
    (h : ∀ i < 8, m (a + BitVec.ofNat 64 i) = m' (a + BitVec.ofNat 64 i)) :
    m.read64 a = m'.read64 a := by
  simp only [Memory.read64, Memory.wordByte]
  rw [h 0 (by decide), h 1 (by decide), h 2 (by decide), h 3 (by decide), h 4 (by decide),
    h 5 (by decide), h 6 (by decide), h 7 (by decide)]

theorem blockSize_initHead (m : Memory) (head size : Word) :
    blockSize (initHead m head size) head = size - sizeofHeapBlock := by
  have hoff (d : Word) (i : ℕ) :
      head + BitVec.ofNat 64 i - (head + d) = BitVec.ofNat 64 i - d := by grind
  have hfield : ∀ i < 8, initHead m head size (head + BitVec.ofNat 64 i) =
      setBlockSize m head (size - sizeofHeapBlock) (head + BitVec.ofNat 64 i) := by
    intro i hi
    have hnext : ¬ (head + BitVec.ofNat 64 i - (head + 8)).toNat < 8 := by
      rw [hoff, BitVec.toNat_sub, BitVec.toNat_ofNat]
      change ¬ (2 ^ 64 - 8 + _) % 2 ^ 64 < 8
      omega
    have hfree : head + BitVec.ofNat 64 i ≠ head + 16 := by
      intro heq
      have hzero := hoff 16 i
      rw [heq, BitVec.sub_self] at hzero
      have hnat := congrArg BitVec.toNat hzero
      have h16 : (16 : Word).toNat = 16 := rfl
      rw [BitVec.toNat_sub, BitVec.toNat_ofNat, BitVec.toNat_ofNat, h16] at hnat
      omega
    rw [initHead, setBlockFree, setBlockNext]
    simp only [Memory.write8, Memory.write64, hnext, hfree, if_false]
  rw [blockSize, read64_of_bytes hfield, setBlockSize, Memory.read64_write64]

theorem physToVirt_mem_heapBytes {base size phys : Word} (hroom : 24 ≤ size.toNat)
    (hfits : base.toNat + size.toNat ≤ 2 ^ 64) :
    k.physToVirt phys ∈ heapBytes (k.physToVirt base) (size - sizeofHeapBlock) ↔
      phys ∈ between base.toNat (base.toNat + size.toNat) := by
  have hoff : k.physToVirt phys - k.physToVirt base = phys - base := by
    rw [physToVirt, physToVirt]
    grind
  have hsize : sizeofHeapBlock.toNat + (size - sizeofHeapBlock).toNat = size.toNat := by
    have h24 : sizeofHeapBlock.toNat = 24 := rfl
    rw [BitVec.toNat_sub_of_le (by rw [BitVec.le_def]; omega)]
    omega
  rw [heapBytes, Set.mem_ofPred_eq, hoff, hsize, sub_toNat_lt_iff_mem_span hfits,
    span_eq_between]

/-- Without room for a header, the size wraps around. -/
theorem physToVirt_mem_heapBytes_of_lt {base size phys : Word} (hroom : size.toNat < 24) :
    k.physToVirt phys ∈ heapBytes (k.physToVirt base) (size - sizeofHeapBlock) := by
  have hsize : (size - sizeofHeapBlock).toNat = 2 ^ 64 - (24 - size.toNat) := by
    rw [BitVec.toNat_sub]
    change (2 ^ 64 - 24 + size.toNat) % 2 ^ 64 = _
    omega
  have h24 : sizeofHeapBlock.toNat = 24 := rfl
  have hlt := (k.physToVirt phys - k.physToVirt base).isLt
  rw [heapBytes, Set.mem_ofPred_eq, hsize, h24]
  omega

/-! ### The map after the reservations -/

theorem mapTidy_memoryInitBase {entries : List BootEntry}
    (hfits : ∀ e ∈ entries, e.base.toNat + e.length.toNat < 2 ^ 64)
    (hapart : entries.Pairwise fun e e' =>
      k.bootloader.Usable e → k.bootloader.Usable e' → Disjoint e.bytes e'.bytes) :
    MapTidy (k.memoryInitBase (some entries)) where
  slots := by
    rw [memoryInitBase, List.length_map]
    exact List.length_take_le _ _
  fits := by
    intro x hx _
    obtain ⟨e, he, rfl⟩ := List.mem_map.mp hx
    exact hfits e (List.mem_of_mem_take he)
  apart := by
    rw [memoryInitBase, List.pairwise_map]
    refine (hapart.sublist (List.take_sublist _ _)).imp fun {a b} hab ha hb => ?_
    exact hab ((mapEntry_available _ a).mp ha) ((mapEntry_available _ b).mp hb)

theorem beside_moduleBytes {p : MapEntry} {b : BootModule}
    (hfits : (k.hhdmVirtToPhys b.addr).toNat + b.size.toNat < 2 ^ 64)
    (h : Beside (k.hhdmVirtToPhys b.addr) (k.hhdmVirtToPhys b.addr + b.size) p) :
    Disjoint p.bytes (k.moduleBytes b) := by
  have hdisjoint := h.disjoint
  rwa [toNat_add_of_lt hfits] at hdisjoint

/-- What the reservation for a module leaves. -/
structure ModuleReserved (map map' : List MapEntry) (mod : Option BootModule) : Prop where
  tidy : MapTidy map'
  parts : ∀ p ∈ map', p.Available → ∃ e ∈ map, PartOf e p
  beside : ∀ b ∈ mod, ∀ p ∈ map', p.Available →
    Refused (k.hhdmVirtToPhys b.addr) (k.hhdmVirtToPhys b.addr + b.size) map ∨
      Disjoint p.bytes (k.moduleBytes b)

theorem reserveModule_spec {map : List MapEntry} (h : MapTidy map) (mod : Option BootModule)
    (hmod : ∀ b ∈ mod, (k.hhdmVirtToPhys b.addr).toNat + b.size.toNat < 2 ^ 64) :
    k.ModuleReserved map (k.reserveModule map mod) mod := by
  cases mod with
  | none => exact ⟨h, fun p hp havail => ⟨p, hp, PartOf.refl havail⟩, fun b hb => by cases hb⟩
  | some b =>
      have hfits := hmod b rfl
      have hspec := (memoryReserveRange_spec h (k.hhdmVirtToPhys b.addr)
        (k.hhdmVirtToPhys b.addr + b.size)).1
      refine ⟨hspec.tidy, hspec.parts, fun b' hb' p hp havail => ?_⟩
      obtain rfl : b = b' := Option.some.inj hb'
      by_cases hlt : k.hhdmVirtToPhys b.addr < k.hhdmVirtToPhys b.addr + b.size
      · by_cases hrefused : Refused (k.hhdmVirtToPhys b.addr)
            (k.hhdmVirtToPhys b.addr + b.size) map
        · exact Or.inl hrefused
        · exact Or.inr (beside_moduleBytes hfits (hspec.beside hlt hrefused p hp havail))
      · right
        -- a module of no bytes
        rw [BitVec.lt_def, toNat_add_of_lt hfits] at hlt
        rw [Set.disjoint_right]
        intro x hx
        rw [moduleBytes, mem_between] at hx
        omega

section Region

variable {map : List MapEntry} {m : Memory}

theorem physToVirt_mem_heap_iff (phys : Word) :
    k.physToVirt phys ∈ heapBytes (k.memoryInit map m).1
        (blockSize (k.memoryInit map m).2 (k.memoryInit map m).1) ↔
      k.physToVirt phys ∈ heapBytes (k.physToVirt (k.heapRegion map).1)
        ((k.heapRegion map).2 - sizeofHeapBlock) := by
  rw [memoryInit]
  dsimp only
  rw [blockSize_initHead]

theorem heapStart_mem {r : Word × Word} : r.1.toNat ≤ k.heapStart r := by
  rw [heapStart]
  split_ifs with hin
  · exact hin.1.le
  · exact le_rfl

theorem mem_heap_of_longest {r : Word × Word} (hr : Longest (freeRegions map) r)
    (hroom : sizeofHeapBlock.toNat ≤ regionStop r - k.heapStart r) (hfits : regionStop r < 2 ^ 64)
    (phys : Word) :
    k.physToVirt phys ∈ heapBytes (k.memoryInit map m).1
        (blockSize (k.memoryInit map m).2 (k.memoryInit map m).1) ↔
      phys ∈ between (k.heapStart r) (regionStop r) := by
  have hstart := heapStart_mem (k := k) (r := r)
  have h24 : sizeofHeapBlock.toNat = 24 := rfl
  have hstop : regionStop r = r.1.toNat + r.2.toNat := rfl
  obtain ⟨hbase, hsize⟩ := heapRegion_of_longest (k := k) hr (by omega) hfits
  rw [physToVirt_mem_heap_iff, physToVirt_mem_heapBytes (by omega) (by omega), hbase, hsize]
  rw [show k.heapStart r + (regionStop r - k.heapStart r) = regionStop r by omega]

/-- Without a region that has room, the heap is the whole address space. -/
theorem mem_heap_of_no_room
    (hno : ∀ r, Longest (freeRegions map) r →
      regionStop r - k.heapStart r < sizeofHeapBlock.toNat)
    (hfits : ∀ e ∈ map, e.Available → e.stop < 2 ^ 64) (phys : Word) :
    k.physToVirt phys ∈ heapBytes (k.memoryInit map m).1
      (blockSize (k.memoryInit map m).2 (k.memoryInit map m).1) := by
  rw [physToVirt_mem_heap_iff]
  apply physToVirt_mem_heapBytes_of_lt
  by_cases hzero : (largestFree map).2 = 0
  · have hcond : ¬ ((largestFree map).1 < k.kernelEndPhys ∧
        k.kernelEndPhys < (largestFree map).1 + (largestFree map).2) := by
      rw [hzero, show (largestFree map).1 + 0 = (largestFree map).1 from BitVec.add_zero _,
        BitVec.lt_def, BitVec.lt_def]
      omega
    rw [heapRegion, behindKernel]
    rw [if_neg hcond, hzero]
    decide
  · rw [largestFree_eq] at hzero
    rcases (firstLongest_spec (freeRegions map)).2 with hnone | hlongest
    · rw [hnone] at hzero
      exact absurd rfl hzero
    · have hpos : 0 < (firstLongest (freeRegions map)).2.toNat :=
        Nat.pos_of_ne_zero fun h => hzero (BitVec.eq_of_toNat_eq h)
      obtain ⟨e, he, havail, heq⟩ := mem_freeRegions.mp hlongest.mem
      have hstop : regionStop (firstLongest (freeRegions map)) < 2 ^ 64 := by
        rw [← heq]
        exact hfits e he havail
      rw [(heapRegion_of_longest hlongest hpos hstop).2]
      exact hno _ hlongest

end Region

theorem besideImage_iff {r : Word × Word} (hpos : 0 < r.2.toNat) (hfits : regionStop r < 2 ^ 64) :
    k.BesideImage r ↔ Disjoint (between r.1.toNat (regionStop r)) k.kernelImage := by
  have hle := k.start_le_end
  have himage := k.image_fits
  have hstop : regionStop r = r.1.toNat + r.2.toNat := rfl
  change (k.kernelVirtToPhys k.imageStart).toNat + _ + _ < _ at himage
  rw [BesideImage, kernelImage]
  by_cases hempty : k.imageStart = k.imageEnd
  · refine iff_of_true (Or.inl hempty) (Set.disjoint_right.mpr fun x hx => ?_)
    rw [hempty, Nat.sub_self, mem_between] at hx
    omega
  · have hlt : k.imageStart.toNat < k.imageEnd.toNat :=
      lt_of_le_of_ne hle fun h => hempty (BitVec.eq_of_toNat_eq h)
    rw [disjoint_between_iff (by omega) (by omega) (by omega)]
    simp only [hempty, false_or]

theorem besideRefused_of_disjoint {m : ℕ × List (Word × Word)} {r : Word × Word}
    {mod : Option BootModule}
    (hmod : ∀ b ∈ mod, (k.hhdmVirtToPhys b.addr).toNat + b.size.toNat < 2 ^ 64)
    (hroom : k.heapStart r < regionStop r)
    (h : ∀ b ∈ mod, Disjoint (k.moduleBytes b) (between (k.heapStart r) (regionStop r))) :
    k.BesideRefused m r mod := by
  cases mod with
  | none => trivial
  | some b =>
      rintro ⟨hlt, -⟩
      have hb := hmod b rfl
      have hdisjoint := h b rfl
      rw [BitVec.lt_def, toNat_add_of_lt hb] at hlt
      rw [moduleBytes, disjoint_between_iff hlt hb.le hroom] at hdisjoint
      rw [toNat_add_of_lt hb]
      exact hdisjoint

theorem disjoint_moduleBytes_of_refused {m : ℕ × List (Word × Word)} {r : Word × Word}
    {b : BootModule} {mod : Option BootModule} (hb : b ∈ mod)
    (hmod : (k.hhdmVirtToPhys b.addr).toNat + b.size.toNat < 2 ^ 64)
    (h : k.BesideRefused m r mod)
    (hspec : NoPlace (k.hhdmVirtToPhys b.addr) (k.hhdmVirtToPhys b.addr + b.size) m ∨
      Disjoint (between r.1.toNat (regionStop r)) (k.moduleBytes b)) :
    Disjoint (k.moduleBytes b) (between (k.heapStart r) (regionStop r)) := by
  obtain rfl : mod = some b := hb
  rw [Set.disjoint_left]
  rcases hspec with hrefused | hdisjoint
  · intro x hx hx'
    have hside := h hrefused
    rw [moduleBytes, mem_between] at hx
    rw [mem_between] at hx'
    rw [toNat_add_of_lt hmod] at hside
    omega
  · intro x hx hx'
    have hstart := heapStart_mem (k := k) (r := r)
    rw [mem_between] at hx'
    exact Set.disjoint_left.mp hdisjoint (mem_between.mpr ⟨by omega, hx'.2⟩) hx

/-- The heap is clear of the image: it starts behind the image, or its region has nothing
of it. -/
theorem disjoint_kernelImage_iff {r : Word × Word} (hroom : k.heapStart r < regionStop r)
    (hfits : regionStop r < 2 ^ 64) :
    Disjoint (between (k.heapStart r) (regionStop r)) k.kernelImage ↔
      k.EndsInside r ∨ k.BesideImage r := by
  have hstart := heapStart_mem (k := k) (r := r)
  have hlen : regionStop r = r.1.toNat + r.2.toNat := rfl
  rw [besideImage_iff (by omega) hfits]
  by_cases hin : k.EndsInside r
  · refine iff_of_true (Set.disjoint_right.mpr fun x himg hx => ?_) (Or.inl hin)
    have hlow := k.kernelImage_before_end himg
    rw [heapStart, if_pos hin, mem_between] at hx
    omega
  · rw [heapStart, if_neg hin, or_iff_right hin]

/-- With no room for a block header the heap has all addresses, also the last one, which is
in no entry. -/
theorem exists_room_of_heapApart {entries : List BootEntry} {mods : List BootModule}
    {map : List MapEntry} {m : Memory}
    (hfits : ∀ e ∈ entries, e.base.toNat + e.length.toNat < 2 ^ 64)
    (hends : ∀ e ∈ map, e.Available → e.stop < 2 ^ 64)
    (h : k.HeapApart entries mods (k.memoryInit map m).1 (k.memoryInit map m).2) :
    ∃ r, Longest (freeRegions map) r ∧
      sizeofHeapBlock.toNat ≤ regionStop r - k.heapStart r := by
  by_contra hnone
  have hlast := mem_heap_of_no_room (m := m) (fun r hr => by
    by_contra hroom
    exact hnone ⟨r, hr, not_lt.mp hroom⟩) hends (BitVec.allOnes 64)
  obtain ⟨⟨e, he, -, hx⟩, -⟩ := h _ hlast
  have hend := hfits e he
  rw [BootEntry.bytes, mem_between] at hx
  rw [BitVec.toNat_allOnes] at hx
  omega

/-- The heap stays clear exactly when the regions and the modules let it. -/
theorem heapApart_iff (k : BootLayout) (entries : List BootEntry)
    (initramfs font : Option BootModule) (m : Memory)
    (hfits : ∀ e ∈ entries, e.base.toNat + e.length.toNat < 2 ^ 64)
    (hapart : entries.Pairwise fun e e' =>
      k.bootloader.Usable e → k.bootloader.Usable e' → Disjoint e.bytes e'.bytes)
    (hmods : ∀ b ∈ initramfs.toList ++ font.toList,
      (k.hhdmVirtToPhys b.addr).toNat + b.size.toNat < 2 ^ 64) :
    k.HeapApart entries (initramfs.toList ++ font.toList)
        (k.memoryInit (k.bootMap (some entries) initramfs font) m).1
        (k.memoryInit (k.bootMap (some entries) initramfs font) m).2 ↔
      k.HeapFits entries initramfs font := by
  have hbase : MapTidy (k.memoryInitBase (some entries)) := mapTidy_memoryInitBase hfits hapart
  have hmod₁ : ∀ b ∈ initramfs, (k.hhdmVirtToPhys b.addr).toNat + b.size.toNat < 2 ^ 64 :=
    fun b hb => hmods b (by simp_all)
  have hmod₂ : ∀ b ∈ font, (k.hhdmVirtToPhys b.addr).toNat + b.size.toNat < 2 ^ 64 :=
    fun b hb => hmods b (by simp_all)
  have hfirst := reserveModule_spec hbase initramfs hmod₁
  have hsecond := reserveModule_spec hfirst.tidy font hmod₂
  -- the map has the regions that are read off the entries
  have hview₀ := (mapView_memoryInitBase (k := k) (some entries)).2
  have hview₁ := (mapView_reserveModule (k := k) hbase.slots initramfs).2
  have hview := mapView_bootMap (k := k) (some entries) initramfs font
  have hregions : freeRegions (k.bootMap (some entries) initramfs font) =
      (k.leftOver (some entries) initramfs font).2 := congrArg Prod.snd hview
  rw [hview₀] at hview₁
  rw [HeapFits, ← hregions, ← hview₁, ← hview₀]
  have hstop : ∀ r, Longest (freeRegions (k.bootMap (some entries) initramfs font)) r →
      ∃ e ∈ k.bootMap (some entries) initramfs font, e.Available ∧ (e.addr, e.len) = r ∧
        regionStop r < 2 ^ 64 := by
    intro r hr
    obtain ⟨e, he, havail, heq⟩ := mem_freeRegions.mp hr.mem
    exact ⟨e, he, havail, heq, heq ▸ hsecond.tidy.fits e he havail⟩
  have h24 : sizeofHeapBlock.toNat = 24 := rfl
  constructor
  · intro h
    obtain ⟨r, hr, hroom⟩ := exists_room_of_heapApart hfits hsecond.tidy.fits h
    obtain ⟨e, he, havail, heq, hend⟩ := hstop r hr
    have hheap := mem_heap_of_longest (m := m) hr hroom hend
    have hmodule : ∀ b ∈ initramfs.toList ++ font.toList,
        Disjoint (k.moduleBytes b) (between (k.heapStart r) (regionStop r)) := by
      intro b hb
      rw [Set.disjoint_right]
      intro x hx
      exact (h x ((hheap x).mpr hx)).2.1 b hb
    have himage : Disjoint (between (k.heapStart r) (regionStop r)) k.kernelImage :=
      Set.disjoint_left.mpr fun x hx => (h x ((hheap x).mpr hx)).2.2
    exact ⟨r, hr, hroom, (disjoint_kernelImage_iff (by omega) hend).mp himage,
      besideRefused_of_disjoint hmod₁ (by omega) fun b hb => hmodule b (by simp_all),
      besideRefused_of_disjoint hmod₂ (by omega) fun b hb => hmodule b (by simp_all)⟩
  · rintro ⟨r, hr, hroom, himage, hinitramfs, hfont⟩ phys hphys
    obtain ⟨e, hmem, havail, heq, hend⟩ := hstop r hr
    have hstart := heapStart_mem (k := k) (r := r)
    have hlen : regionStop r = r.1.toNat + r.2.toNat := rfl
    rw [mem_heap_of_longest hr hroom hend] at hphys
    have hbytes : phys ∈ between r.1.toNat (regionStop r) := by
      rw [mem_between] at hphys
      exact mem_between.mpr ⟨by omega, hphys.2⟩
    have hbytes' : between r.1.toNat (regionStop r) = e.bytes := by
      rw [← heq]
      rfl
    obtain ⟨e₁, he₁, hpart₁⟩ := hsecond.parts e hmem havail
    obtain ⟨e₀, he₀, hpart₀⟩ := hfirst.parts e₁ he₁ hpart₁.1
    refine ⟨?_, ?_, ?_⟩
    · obtain ⟨b, hb, rfl⟩ := List.mem_map.mp he₀
      exact ⟨b, List.mem_of_mem_take hb, (mapEntry_available _ b).mp hpart₀.1,
        hpart₀.bytes_subset (hpart₁.bytes_subset (hbytes' ▸ hbytes))⟩
    · intro b hb hmod
      rcases List.mem_append.mp hb with hone | htwo
      · have hone : b ∈ initramfs := by simpa using hone
        have hspec := (hfirst.beside b hone e₁ he₁ hpart₁.1).imp refused_iff_noPlace.mp
          fun hdisjoint => hdisjoint.mono_left (hbytes' ▸ hpart₁.bytes_subset)
        exact Set.disjoint_left.mp (disjoint_moduleBytes_of_refused hone (hmod₁ b hone) hinitramfs
          hspec) hmod hphys
      · have htwo : b ∈ font := by simpa using htwo
        have hspec := (hsecond.beside b htwo e hmem havail).imp refused_iff_noPlace.mp
          fun hdisjoint => hbytes'.symm ▸ hdisjoint
        exact Set.disjoint_left.mp (disjoint_moduleBytes_of_refused htwo (hmod₂ b htwo) hfont
          hspec) hmod hphys
    · have hclear := (disjoint_kernelImage_iff (by omega) hend).mpr himage
      exact Set.disjoint_left.mp hclear hphys

/-- A kernel of 14 MiB, loaded by GRUB. -/
def grubLayout : BootLayout where
  bootloader := .grub
  hhdmOffset := 0xffff800000000000
  virtualBase := 0xffffffff80000000
  physicalBase := 0x200000
  imageStart := 0xffffffff80000000
  imageEnd := 0xffffffff80e00000
  start_le_end := by decide
  end_fits := by decide
  image_fits := by decide

/-- 63 MiB of usable memory from 1 MiB on. -/
def oneRegion : List BootEntry := [⟨0x100000, 0x3f00000, 1⟩]

/-- An initramfs of 44 MiB right behind the kernel. -/
def largeInitramfs : BootModule := ⟨0xffff800001000000, 0x2c00000⟩

/-- What the initramfs leaves in front of it is the largest region, and ends where the
kernel ends. -/
theorem not_heapApart_largeInitramfs :
    ¬ grubLayout.HeapApart oneRegion [largeInitramfs]
      (grubLayout.memoryInit (grubLayout.bootMap (some oneRegion) (some largeInitramfs) none)
        (fun _ => 0)).1
      (grubLayout.memoryInit (grubLayout.bootMap (some oneRegion) (some largeInitramfs) none)
        (fun _ => 0)).2 := by
  intro h
  have hregion : grubLayout.heapRegion
      (grubLayout.bootMap (some oneRegion) (some largeInitramfs) none) =
        (0x100000, 0xf00000) := by
    decide +kernel
  refine (h 0x200000 ?_).2.2 ?_
  · rw [physToVirt_mem_heap_iff, hregion, physToVirt_mem_heapBytes (by decide) (by decide)]
    exact mem_between.mpr ⟨by decide, by decide⟩
  · exact mem_between.mpr ⟨by decide, by decide⟩

/-- An initramfs of 1 MiB at 32 MiB. -/
def smallInitramfs : BootModule := ⟨0xffff800002000000, 0x100000⟩

/-- With a smaller initramfs the longest region goes on behind the kernel, and the heap stays
clear. -/
theorem heapApart_smallInitramfs :
    grubLayout.HeapFits oneRegion (some smallInitramfs) none ∧
      grubLayout.HeapApart oneRegion [smallInitramfs]
        (grubLayout.memoryInit (grubLayout.bootMap (some oneRegion) (some smallInitramfs) none)
          (fun _ => 0)).1
        (grubLayout.memoryInit (grubLayout.bootMap (some oneRegion) (some smallInitramfs) none)
          (fun _ => 0)).2 := by
  have hleft : grubLayout.leftOver (some oneRegion) (some smallInitramfs) none =
      (62, [(0x100000, 0x1f00000), (0x2100000, 0x1f00000)]) := by decide +kernel
  have hfits : grubLayout.HeapFits oneRegion (some smallInitramfs) none := by
    refine ⟨(0x100000, 0x1f00000), ?_, by decide, Or.inl (by decide), ?_, trivial⟩
    · rw [hleft]
      exact ⟨[], [(0x2100000, 0x1f00000)], rfl, by simp, by simp⟩
    · rintro ⟨-, hfull, -⟩
      exact absurd hfull (by decide)
  exact ⟨hfits, (heapApart_iff grubLayout oneRegion (some smallInitramfs) none (fun _ => 0)
    (by decide) (by simp [oneRegion]) (by decide)).mpr hfits⟩

end BootLayout

end Utopia
