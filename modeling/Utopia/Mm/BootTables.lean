/-
The page tables of a GRUB boot: what `grub-preinit.asm` builds, and what
`memory_init_base` adds to them for memory above 4 GiB.  Tables are named by their
physical addresses: the kernel reaches `page_table_l4` through its own mapping and every
other table through the direct map.
-/
import Utopia.Arch.Pte
import Utopia.Mm.BootMap
import Utopia.Mm.Vmm

namespace Utopia

/-- Physical memory in 8-byte words. -/
abbrev PhysMem := Word → Word

namespace PhysMem

def store (m : PhysMem) (addr value : Word) : PhysMem := fun x =>
  if x = addr then value else m x

/-- `for (i = 0; i < n; i++) *addr(i) = value(i);` -/
def storeLoop (m : PhysMem) (addr value : ℕ → Word) : ℕ → PhysMem
  | 0 => m
  | n + 1 => (m.storeLoop addr value n).store (addr n) (value n)

/-- The physical address that the processor makes of `va`. -/
def walk (m : PhysMem) (va : Word) : ℕ → Word → Option Word
  | 0, table =>
      let entry := m (entryAddr table (ptIndex va 0))
      if X86.ptePresent entry = false then none
      else some (X86.ptePhys entry + (va &&& (levelSpan 0 - 1)))
  | level + 1, table =>
      let entry := m (entryAddr table (ptIndex va (level + 1)))
      if X86.ptePresent entry = false then none
      else if X86.pteIsLeaf entry (level + 1) then
        some (X86.ptePhys entry + (va &&& (levelSpan (level + 1) - 1)))
      else m.walk va level (X86.ptePhys entry)

end PhysMem

/-- The tables in `.bss`: their first address, and the memory that the bootloader cleared
for them. -/
structure GrubTables where
  pageTableL4 : Word
  mem : PhysMem
  aligned : pageTableL4.toNat % 4096 = 0
  low : pageTableL4.toNat + 15 * 4096 ≤ 2 ^ 32
  bss : ∀ n < 15 * 512, mem (pageTableL4 + 8 * BitVec.ofNat 64 n) = 0

namespace GrubTables

variable (g : GrubTables)

/-- Page `t` of the tables, which lie one behind the other. -/
def table (t : ℕ) : Word := g.pageTableL4 + BitVec.ofNat 64 (4096 * t)

abbrev pageTableL3 : Word := g.table 1
abbrev pageTableL2First : Word := g.table 2
abbrev pageTableL1Low : Word := g.table 3
abbrev pageTableL1Kernel : Word := g.table 4
abbrev pageTableL2 : Word := g.table 5
abbrev pageTableL3Kernel : Word := g.table 8
abbrev pageTableL2Kernel : Word := g.table 9
abbrev pageTableL3Hhdm : Word := g.table 10
abbrev pageTableL2Hhdm : Word := g.table 11

/-- `[table + i*8]`. -/
def slot (table : Word) (i : ℕ) : Word := table + 8 * BitVec.ofNat 64 i

def kernelLma : Word := 0x200000

/-- `setup_page_tables`. -/
def setupPageTables : PhysMem :=
  let m := g.mem
  let m := m.store (slot g.pageTableL4 0) (g.pageTableL3 ||| 0b11)
  let m := m.store (slot g.pageTableL3 0) (g.pageTableL2First ||| 0b11)
  let m := m.store (slot g.pageTableL3 1) (g.pageTableL2 ||| 0b11)
  let m := m.store (slot g.pageTableL3 2) (g.table 6 ||| 0b11)
  let m := m.store (slot g.pageTableL3 3) (g.table 7 ||| 0b11)
  let m := m.store (slot g.pageTableL2First 0) (g.pageTableL1Low ||| 0b11)
  let m := m.storeLoop (slot g.pageTableL1Low) (fun ecx => BitVec.ofNat 64 ecx <<< 12 ||| 0b11) 512
  let m := m.storeLoop (fun i => slot g.pageTableL2First (1 + i))
    (fun i => BitVec.ofNat 64 (1 + i) <<< 21 ||| 0b10000011) 511
  let m := m.storeLoop (slot g.pageTableL2)
    (fun ecx => BitVec.ofNat 64 (ecx + 512) <<< 21 ||| 0b10000011) 1536
  let m := m.store (slot g.pageTableL4 511) (g.pageTableL3Kernel ||| 0b11)
  let m := m.store (slot g.pageTableL3Kernel 510) (g.pageTableL2Kernel ||| 0b11)
  let m := m.store (slot g.pageTableL2Kernel 0) (g.pageTableL1Kernel ||| 0b11)
  let m := m.storeLoop (slot g.pageTableL1Kernel)
    (fun ecx => (kernelLma + BitVec.ofNat 64 (0x1000 * ecx)) ||| 0b11) 512
  let m := m.storeLoop (fun i => slot g.pageTableL2Kernel (1 + i))
    (fun i => (kernelLma + 0x200000 + BitVec.ofNat 64 (0x200000 * i)) ||| 0b10000011) 511
  let m := m.store (slot g.pageTableL4 256) (g.pageTableL3Hhdm ||| 0b111)
  let m := m.store (slot g.pageTableL3Hhdm 0) (g.pageTableL2Hhdm ||| 0b111)
  let m := m.store (slot g.pageTableL3Hhdm 1) (g.table 12 ||| 0b111)
  let m := m.store (slot g.pageTableL3Hhdm 2) (g.table 13 ||| 0b111)
  let m := m.store (slot g.pageTableL3Hhdm 3) (g.table 14 ||| 0b111)
  -- table ecx / 512 and entry ecx % 512, with the four tables in a row
  m.storeLoop (slot g.pageTableL2Hhdm) (fun ecx => BitVec.ofNat 64 ecx <<< 21 ||| 0b10000011) 2048

/-- The tables when `kinit` starts, with the low half of the identity map gone. -/
def bootTables : PhysMem :=
  let m := g.setupPageTables
  let m := m.store (slot g.pageTableL4 0) 0
  let m := m.store (slot g.pageTableL4 1) 0
  let m := m.store (slot g.pageTableL4 2) 0
  m.store (slot g.pageTableL4 3) 0

end GrubTables

/-! ### `map_physical_range` before the heap exists -/

/-- `page_alloc` finds no block while `head` is null. -/
theorem pageAlloc?_of_null_head (m : Memory) (pages : Word) :
    pageAlloc? 0 m pages = some (0, m) := by
  rw [pageAlloc?, walkFuel, show 2 ^ 64 = (2 ^ 64 - 1) + 1 from rfl, firstFit, if_pos rfl]

namespace PhysMem

variable (m : PhysMem)

/-- The loop over the levels above 1.  A missing table ends it: there is no memory for a
new one. -/
def hugeTable (addr : Word) : ℕ → Word → Option Word
  | 0, table => some table
  | level + 1, table =>
      let entry := m (entryAddr table (ptIndex addr (level + 2)))
      if X86.ptePresent entry = false then none
      else hugeTable addr level (X86.ptePhys entry)

/-- A round of the loop of `map_physical_range`. -/
def mapHugePage (l4 addr : Word) (flags : VmFlags) : Int × PhysMem :=
  match m.hugeTable addr 2 l4 with
  | none => (-1, m)
  | some table =>
      (0, m.store (entryAddr table (ptIndex addr 1))
        (X86.pteLeaf (addr &&& ~~~(hugeSpan - 1)) flags true))

def mapRounds (l4 : Word) (flags : VmFlags) : ℕ → Word → PhysMem → Int × PhysMem
  | 0, _, m => (0, m)
  | rounds + 1, addr, m =>
      let (status, m) := m.mapHugePage l4 addr flags
      if status = 0 then mapRounds l4 flags rounds (addr + hugeSpan) m else (status, m)

/-- `map_physical_range`, for a range of whole huge pages. -/
def mapPhysicalRange (l4 physStart size : Word) (flags : VmFlags) : Int × PhysMem :=
  let stop := physStart + size
  mapRounds l4 flags ((stop.toNat - physStart.toNat) / hugeSpan.toNat) physStart m

end PhysMem

namespace MapEntry

/-- The entry is to be mapped: it is available and does not end below 4 GiB. -/
def NeedsMap (e : MapEntry) : Prop := e.Available ∧ ¬ e.addr + e.len ≤ 0x100000000

instance (e : MapEntry) : Decidable e.NeedsMap := inferInstanceAs (Decidable (_ ∧ _))

/-- `map_start`. -/
def mapStart (e : MapEntry) : Word :=
  (if e.addr < 0x100000000 then 0x100000000 else e.addr) &&& ~~~0x1FFFFF

/-- `map_start + map_size`. -/
def mapEnd (e : MapEntry) : Word := (e.addr + e.len + 0x1FFFFF) &&& ~~~0x1FFFFF

end MapEntry

/-- The body of the mapping loop of `memory_init_base`; a failure is only printed. -/
def mapEntryHigh (l4 : Word) (m : PhysMem) (e : MapEntry) : PhysMem :=
  if e.NeedsMap then
    (m.mapPhysicalRange l4 e.mapStart (e.mapEnd - e.mapStart) ⟨false, false, false, false⟩).2
  else m

/-- The tables after `memory_init_base`, which maps nothing without a map from GRUB. -/
def GrubTables.afterBase (g : GrubTables) (k : BootLayout) :
    Option (List BootEntry) → PhysMem
  | none => g.bootTables
  | some entries =>
      (k.memoryInitBase (some entries)).foldl (mapEntryHigh g.pageTableL4) g.bootTables

end Utopia
