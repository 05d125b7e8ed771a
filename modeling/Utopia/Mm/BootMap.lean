/-
The memory map that `mm/pmm.c` keeps at boot: what the bootloader reports, what a
reservation makes of it, and the region that becomes the heap.
-/
import Utopia.Mm.Pmm

namespace Utopia

/-- `memory_map_entry_t`. -/
structure MapEntry where
  addr : Word
  len : Word
  type : Word
deriving DecidableEq, Repr

namespace MapEntry

def Available (e : MapEntry) : Prop := e.type = 1

instance (e : MapEntry) : Decidable e.Available := inferInstanceAs (Decidable (e.type = 1))

def stop (e : MapEntry) : ℕ := e.addr.toNat + e.len.toNat

def bytes (e : MapEntry) : Set Word := between e.addr.toNat e.stop

end MapEntry

inductive Bootloader where
  | grub
  | limine
deriving DecidableEq, Repr

/-- An entry of the bootloader's own map, with the bootloader's number for its type. -/
structure BootEntry where
  base : Word
  length : Word
  type : Word
deriving DecidableEq, Repr

namespace Bootloader

/-- GRUB's types are stored as they are, Limine's are translated. -/
def entryType : Bootloader → Word → Word
  | grub, type => type
  | limine, type =>
      if type = 0 then 1
      else if type = 1 then 2
      else if type = 2 then 3
      else if type = 3 then 4
      else if type = 4 then 5
      else 2

/-- What the bootloader means by usable: `MULTIBOOT_MEMORY_AVAILABLE` or
`LIMINE_MEMMAP_USABLE`. -/
def Usable : Bootloader → BootEntry → Prop
  | grub, e => e.type = 1
  | limine, e => e.type = 0

def mapEntry (b : Bootloader) (e : BootEntry) : MapEntry :=
  ⟨e.base, e.length, b.entryType e.type⟩

end Bootloader

/-- The number of slots of `kernel_memory_map`. -/
def mapSlots : ℕ := 64

/-- A multiboot or Limine boot: who loaded the kernel, the direct map, and where the
image lies. -/
structure BootLayout where
  bootloader : Bootloader
  hhdmOffset : Word
  virtualBase : Word
  physicalBase : Word
  imageStart : Word
  /-- `&_end`. -/
  imageEnd : Word
  start_le_end : imageStart.toNat ≤ imageEnd.toNat
  end_fits : imageEnd.toNat + 4095 < 2 ^ 64
  image_fits : (imageStart - virtualBase + physicalBase).toNat +
    (imageEnd.toNat - imageStart.toNat) + 4095 < 2 ^ 64

namespace BootLayout

variable (k : BootLayout)

def physToVirt (phys : Word) : Word := k.hhdmOffset + phys

def hhdmVirtToPhys (addr : Word) : Word := addr - k.hhdmOffset

def kernelVirtToPhys (addr : Word) : Word := addr - k.virtualBase + k.physicalBase

/-- `kernel_end`: the end of the image, rounded up to a page. -/
def kernelEnd : Word := (k.imageEnd + 4095) &&& ~~~4095

def kernelEndPhys : Word := k.kernelVirtToPhys k.kernelEnd

/-- The physical addresses of the kernel image. -/
def kernelImage : Set Word :=
  between (k.kernelVirtToPhys k.imageStart).toNat
    ((k.kernelVirtToPhys k.imageStart).toNat + (k.imageEnd.toNat - k.imageStart.toNat))

/-- The map that `memory_init_base` fills in; without a map from the bootloader it has
one entry, made of the virtual address behind the kernel. -/
def memoryInitBase : Option (List BootEntry) → List MapEntry
  | none => [⟨k.kernelEnd, 128 * 1024 * 1024 - sizeofHeapBlock, 1⟩]
  | some entries => (entries.take mapSlots).map k.bootloader.mapEntry

end BootLayout

/-- The body of the loop of `memory_reserve_range`, for entry `i`. -/
def reserveEntry (reserveStart reserveEnd : Word) (map : List MapEntry) (i : ℕ)
    (e : MapEntry) : Int × List MapEntry :=
  if ¬ e.Available then (0, map)
  else
    let regionStart := e.addr
    let regionEnd := regionStart + e.len
    if reserveEnd ≤ regionStart ∨ regionEnd ≤ reserveStart then (0, map)
    else if reserveStart ≤ regionStart ∧ regionEnd ≤ reserveEnd then
      (0, map.set i { e with type := 2 })
    else if reserveStart ≤ regionStart ∧ reserveEnd < regionEnd then
      (0, map.set i { e with addr := reserveEnd, len := regionEnd - reserveEnd })
    else if regionStart < reserveStart ∧ regionEnd ≤ reserveEnd then
      (0, map.set i { e with len := reserveStart - regionStart })
    -- what is left lies strictly inside the entry
    else if mapSlots ≤ map.length then (-1, map)
    else
      (0, map.set i { e with len := reserveStart - regionStart } ++
        [⟨reserveEnd, regionEnd - reserveEnd, 1⟩])

/-- The loop of `memory_reserve_range`, which also comes to the entries it appends. -/
def reserveLoop (reserveStart reserveEnd : Word) : ℕ → ℕ → List MapEntry → Int × List MapEntry
  | 0, _, map => (0, map)
  | slots + 1, i, map =>
      match map[i]? with
      | none => (0, map)
      | some e =>
          let (status, map) := reserveEntry reserveStart reserveEnd map i e
          if status = 0 then reserveLoop reserveStart reserveEnd slots (i + 1) map
          else (status, map)

def memoryReserveRange (map : List MapEntry) (reserveStart reserveEnd : Word) :
    Int × List MapEntry :=
  if reserveEnd ≤ reserveStart then (0, map)
  else reserveLoop reserveStart reserveEnd mapSlots 0 map

/-- The loop of `memory_init`: the base and the size of the first entry that is longer
than all before it. -/
def largestFree (map : List MapEntry) : Word × Word :=
  map.foldl (fun largest e =>
    if e.Available ∧ largest.2 < e.len then (e.addr, e.len) else largest) (0, 0)

namespace BootLayout

variable (k : BootLayout)

/-- A region without the kernel, if the end of the kernel lies inside. -/
def behindKernel (region : Word × Word) : Word × Word :=
  let (base, size) := region
  if base < k.kernelEndPhys ∧ k.kernelEndPhys < base + size then
    (k.kernelEndPhys, size - (k.kernelEndPhys - base))
  else (base, size)

/-- The region of the heap, by base and size. -/
def heapRegion (map : List MapEntry) : Word × Word := k.behindKernel (largestFree map)

/-- `memory_init`: the new `head`, and the memory with its header. -/
def memoryInit (map : List MapEntry) (m : Memory) : Word × Memory :=
  let (base, size) := k.heapRegion map
  (k.physToVirt base, initHead m (k.physToVirt base) size)

end BootLayout

/-- A module as `kmain` finds it in the boot structure. -/
structure BootModule where
  addr : Word
  size : Word
deriving DecidableEq, Repr

namespace BootLayout

variable (k : BootLayout)

/-- The bytes of a module, as physical addresses. -/
def moduleBytes (mod : BootModule) : Set Word :=
  between (k.hhdmVirtToPhys mod.addr).toNat
    ((k.hhdmVirtToPhys mod.addr).toNat + mod.size.toNat)

/-- `kmain` reserves what a module occupies, and ignores the status. -/
def reserveModule (map : List MapEntry) : Option BootModule → List MapEntry
  | none => map
  | some mod =>
      (memoryReserveRange map (k.hhdmVirtToPhys mod.addr)
        (k.hhdmVirtToPhys mod.addr + mod.size)).2

/-- The map when `kmain` calls `memory_init`. -/
def bootMap (entries : Option (List BootEntry)) (initramfs font : Option BootModule) :
    List MapEntry :=
  k.reserveModule (k.reserveModule (k.memoryInitBase entries) initramfs) font

end BootLayout

end Utopia
