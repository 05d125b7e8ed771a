/-
The page tables of `mm/vmm.c` as they lie in memory: the walkers that map,
protect, unmap and translate one page, and the functions that make, copy and
free whole address spaces.
-/
import Utopia.Arch.Pte
import Utopia.Lib.Loop
import Utopia.Mm.PageList

namespace Utopia

/-- What stays fixed while the kernel runs: the architecture, the offset of the
direct map, the heap, and the kernel's own top-level table. -/
structure Machine where
  arch : Arch
  hhdmOffset : Word
  alloc : Allocator
  pageTableL4 : Word
  hhdm_aligned : hhdmOffset.toNat % 4096 = 0
  arena_frames : ∀ x ∈ alloc.arena, (x - hhdmOffset).toNat < arch.physBound

/-- One page-table slot: the index part of `virt` at `level`. -/
def ptIndex (virt : Word) (level : Nat) : Fin 512 :=
  ⟨(virt >>> (12 + level * 9)).toNat % 512, Nat.mod_lt _ (by decide)⟩

def ptTopLevel : Nat := 3

/-- The bytes an entry of `level` covers. -/
def levelSpan (level : Nat) : Word := 1 <<< (12 + level * 9)

/-- What one entry of level 1 covers: `huge_span`. -/
def hugeSpan : Word := levelSpan 1

/-- `&table[idx]`. -/
def entryAddr (table : Word) (idx : Fin 512) : Word :=
  table + 8 * BitVec.ofNat 64 idx

/-- A page of a virtual address space. -/
abbrev Vpn := BitVec 36

def vpn (va : Word) : Vpn := (va >>> 12).setWidth 36

/-- The lowest address of a page. -/
def Vpn.addr (page : Vpn) : Word := page.setWidth 64 <<< 12

/-- Where an address leads, and what the processor grants there. -/
structure Mapping where
  phys : Word
  flags : VmFlags
deriving DecidableEq, Repr

/-- An address space for its users: a partial map from pages to frames and
permissions. -/
abbrev AddressSpace := Vpn → Option Mapping

namespace Machine

variable (k : Machine)

def physToVirt (phys : Word) : Word := k.hhdmOffset + phys

def hhdmVirtToPhys (addr : Word) : Word := addr - k.hhdmOffset

/-- A zeroed page, or null. -/
def ptPoolAlloc (m : Memory) : Word × Memory :=
  let (page, m) := k.alloc.pageAlloc m 1
  if page = 0 then (0, m) else (page, m.fill page 4096 0)

/-- Replace the leaf at `slot` by a table of smaller leaves; false when there is
no page for the table. -/
def splitLeaf (m : Memory) (slot : Word) (level : Nat) : Bool × Memory :=
  let old := m.read64 slot
  let basePhys := k.arch.ptePhys old
  let childLevel := level - 1
  let (newTable, m) := k.ptPoolAlloc m
  if newTable = 0 then (false, m)
  else
    let m := m.fillWords newTable 512 fun i _ =>
      k.arch.pteChildLeaf old (basePhys + BitVec.ofNat 64 i * levelSpan childLevel)
        childLevel
    (true, m.write64 slot (k.arch.pteTable (k.hhdmVirtToPhys newTable)))

/-- How a walk down to level 0 ends. -/
inductive Descent where
  | table (addr : Word)
  | missing
  | noMemory
deriving DecidableEq, Repr

/-- The loop over the upper levels, shared by the three walkers below: leaves
on the way are split; a missing table is created or ends the walk. -/
def walkDown (create : Bool) (virt : Word) : Nat → Memory → Word → Descent × Memory
  | 0, m, table => (.table table, m)
  | level + 1, m, table =>
      let slot := entryAddr table (ptIndex virt (level + 1))
      let entry := m.read64 slot
      if k.arch.ptePresent entry = false then
        if create then
          let (child, m) := k.ptPoolAlloc m
          if child = 0 then (.noMemory, m)
          else
            let m := m.write64 slot (k.arch.pteTable (k.hhdmVirtToPhys child))
            walkDown create virt level m child
        else (.missing, m)
      else if k.arch.pteIsLeaf entry (level + 1) then
        let (split, m) := k.splitLeaf m slot (level + 1)
        if split then
          walkDown create virt level m (k.physToVirt (k.arch.ptePhys (m.read64 slot)))
        else (.noMemory, m)
      else walkDown create virt level m (k.physToVirt (k.arch.ptePhys entry))

def mapPage4k (m : Memory) (l4Table virt phys : Word) (flags : VmFlags) :
    Int × Memory :=
  let l4Table := if l4Table = 0 then k.pageTableL4 else l4Table
  match k.walkDown true virt ptTopLevel m l4Table with
  | (.table table, m) =>
      (0, m.write64 (entryAddr table (ptIndex virt 0)) (k.arch.pteLeaf phys flags false))
  | (_, m) => (-1, m)

def protectPage4k (m : Memory) (l4Table virt : Word) (flags : VmFlags) :
    Int × Memory :=
  if l4Table = 0 then (-1, m)
  else
    match k.walkDown false virt ptTopLevel m l4Table with
    | (.table table, m) =>
        let slot := entryAddr table (ptIndex virt 0)
        if k.arch.ptePresent (m.read64 slot) = false then (-1, m)
        else
          let phys := k.arch.ptePhys (m.read64 slot)
          (0, m.write64 slot (k.arch.pteLeaf phys flags false))
    | (_, m) => (-1, m)

def unmapPage4k (m : Memory) (l4Table virt : Word) : Int × Memory :=
  if l4Table = 0 then (-1, m)
  else
    match k.walkDown false virt ptTopLevel m l4Table with
    | (.table table, m) => (0, m.write64 (entryAddr table (ptIndex virt 0)) 0)
    | (.missing, m) => (0, m)
    | (.noMemory, m) => (-1, m)

/-- `vm_user_to_kernel` from a table of `level` on. -/
def userToKernelFrom (m : Memory) (va : Word) : Nat → Word → Word
  | 0, table =>
      let entry := m.read64 (entryAddr table (ptIndex va 0))
      if k.arch.ptePresent entry = false then 0
      else k.physToVirt (k.arch.ptePhys entry) + (va &&& (levelSpan 0 - 1))
  | level + 1, table =>
      let entry := m.read64 (entryAddr table (ptIndex va (level + 1)))
      if k.arch.ptePresent entry = false then 0
      else if k.arch.pteIsLeaf entry (level + 1) then
        k.physToVirt (k.arch.ptePhys entry) + (va &&& (levelSpan (level + 1) - 1))
      else userToKernelFrom m va level (k.physToVirt (k.arch.ptePhys entry))

def vmUserToKernel (m : Memory) (l4 va : Word) : Word :=
  k.userToKernelFrom m va ptTopLevel l4

/-- The same walk with the permissions of the entry it ends at: what the
processor makes of `va`. -/
def translateFrom (m : Memory) (va : Word) : Nat → Word → Option Mapping
  | 0, table =>
      let entry := m.read64 (entryAddr table (ptIndex va 0))
      if k.arch.ptePresent entry = false then none
      else some ⟨k.arch.ptePhys entry + (va &&& (levelSpan 0 - 1)), k.arch.pteFlags entry⟩
  | level + 1, table =>
      let entry := m.read64 (entryAddr table (ptIndex va (level + 1)))
      if k.arch.ptePresent entry = false then none
      else if k.arch.pteIsLeaf entry (level + 1) then
        some ⟨k.arch.ptePhys entry + (va &&& (levelSpan (level + 1) - 1)),
          k.arch.pteFlags entry⟩
      else translateFrom m va level (k.physToVirt (k.arch.ptePhys entry))

def translate (m : Memory) (l4 va : Word) : Option Mapping :=
  k.translateFrom m va ptTopLevel l4

/-- The address space below `l4`. -/
def spaceOf (m : Memory) (l4 : Word) : AddressSpace :=
  fun page => k.translate m l4 page.addr

/-- The body of the loop over the entries of a table of `level` that is about to
be freed. -/
def freeEntry (freeChild : Memory → Word → Memory) (level : Nat) (table : Word) (m : Memory)
    (i : Fin 512) : Memory :=
  let entry := m.read64 (entryAddr table i)
  if k.arch.ptePresent entry = false then m
  else if k.arch.pteIsLeaf entry level then m
  else freeChild m (k.physToVirt (k.arch.ptePhys entry))

def freeTableLevel : Nat → Memory → Word → Memory
  | 0, m, table => k.alloc.free m table
  | level + 1, m, table =>
      k.alloc.free
        ((List.finRange 512).foldl (k.freeEntry (freeTableLevel level) (level + 1) table) m)
        table

/-- The entries of a top-level table that cover the user half. -/
def userEntries : List (Fin 512) := (List.finRange 512).filter fun i => i.val < 256

def freePageTable (m : Memory) (l4Table : Word) : Memory :=
  if l4Table = 0 then m
  else
    k.alloc.free
      (userEntries.foldl
        (k.freeEntry (k.freeTableLevel (ptTopLevel - 1)) ptTopLevel l4Table) m)
      l4Table

/-- A new address space: an empty user half and the kernel's upper half. -/
def clonePageTable (m : Memory) : Word × Memory :=
  let (newL4, m) := k.ptPoolAlloc m
  if newL4 = 0 then (0, m)
  else
    (newL4, m.fillWords newL4 512 fun i m =>
      if i < 256 then 0 else m.read64 (k.pageTableL4 + 8 * BitVec.ofNat 64 i))

/-- The entries of a table of `level` that the user half uses. -/
def levelEntries (level : Nat) : List (Fin 512) :=
  if level = ptTopLevel then userEntries else List.finRange 512

/-- The first address below entry `i`. -/
def entryVa (vaBase : Word) (level : Nat) (i : Fin 512) : Word :=
  vaBase ||| (BitVec.ofNat 64 i <<< (12 + level * 9))

/-- The part of `clone_user_level` that copies the page of a level-0 entry. -/
def cloneUserPage (dst : Word) (i : Fin 512) (entry : Word) (s : Memory × PageList) :
    Int × Memory × PageList :=
  let (page, m) := k.ptPoolAlloc s.1
  if page = 0 then (-1, m, s.2)
  else
    let (status, m, owned) := k.alloc.pageListAdd m s.2 page
    if status ≠ 0 then (-1, k.alloc.free m page, owned)
    else
      let m := m.copy page (k.physToVirt (k.arch.ptePhys entry)) 4096
      (0, m.write64 (entryAddr dst i) (k.arch.pteWithPhys entry (k.hhdmVirtToPhys page)),
        owned)

def cloneUserLevel (skipLo skipHi : Word) :
    Nat → (src dst vaBase : Word) → Memory × PageList → Int × Memory × PageList
  | 0, src, dst, vaBase =>
      forEach (fun i s =>
        let entry := s.1.read64 (entryAddr src i)
        let va := entryVa vaBase 0 i
        if k.arch.ptePresent entry = false then (0, s)
        else if skipLo ≤ va ∧ va < skipHi then (0, s)
        else k.cloneUserPage dst i entry s) (levelEntries 0)
  | level + 1, src, dst, vaBase =>
      forEach (fun i s =>
        let entry := s.1.read64 (entryAddr src i)
        let va := entryVa vaBase (level + 1) i
        if k.arch.ptePresent entry = false then (0, s)
        else if k.arch.pteIsLeaf entry (level + 1) then (-1, s)
        else if skipLo ≤ va ∧ va + levelSpan (level + 1) ≤ skipHi then (0, s)
        else
          let (child, m) := k.ptPoolAlloc s.1
          if child = 0 then (-1, m, s.2)
          else
            let m := m.write64 (entryAddr dst i) (k.arch.pteTable (k.hhdmVirtToPhys child))
            cloneUserLevel skipLo skipHi level (k.physToVirt (k.arch.ptePhys entry)) child va
              (m, s.2)) (levelEntries (level + 1))

/-- A null result is 0. -/
def cloneUserAddressSpace (m : Memory) (srcL4 skipLo skipHi : Word) (owned : PageList) :
    Word × Memory × PageList :=
  let (newL4, m) := k.clonePageTable m
  if newL4 = 0 then (0, m, owned)
  else
    let (status, m, owned) :=
      k.cloneUserLevel skipLo skipHi ptTopLevel srcL4 newL4 0 (m, owned)
    if status ≠ 0 then
      let m := k.freePageTable m newL4
      let (m, owned) := k.alloc.pageListFree m owned
      (0, m, owned)
    else (newL4, m, owned)

end Machine

end Utopia
