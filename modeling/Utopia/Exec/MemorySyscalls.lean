/-
The memory system calls of `exec/syscalls/linux/memory.c`: `brk`, `mmap`,
`mprotect` and `munmap`.
-/
import Utopia.Mm.PageOps

namespace Utopia

/-- `(value + 0xFFF) & ~0xFFF`. -/
def pageAlignUp (value : Word) : Word := (value + 0xFFF) &&& ~~~0xFFF

/-- The addresses of `for (va = start; va < stop; va += 0x1000)`; both ends are
multiples of the page size wherever the calls loop. -/
def pagesBetween (start stop : Word) : List Word :=
  (List.range ((stop.toNat - start.toNat) / 4096)).map fun i => start + 4096 * BitVec.ofNat 64 i

/-- What `mmap` uses of a `vnode_t`: its size, and the bytes that `ops->read` puts
at the start of a buffer for `want` bytes from `offset` on. -/
structure Vnode where
  size : Word
  read : (want offset : Word) → List Byte
  read_length_le : ∀ want offset, (read want offset).length ≤ want.toNat

/-- The fields of `process_t` that the memory calls use.  `fds` is the vnode of each
descriptor, and past the end of the array whatever lies there. -/
structure ProcessSpace where
  pageTable : Word
  brkStart : Word
  brkCurrent : Word
  mmapCurrent : Word
  mmap_aligned : mmapCurrent.toNat % 4096 = 0
  ownedPages : PageList
  fds : Nat → Option Vnode

def userHeapMax : Word := 0x0000800000000000

def mapAnonymous : Word := 0x20

def ebadf : Word := -9
def enomem : Word := -12
def einval : Word := -22

theorem pageAlignUp_toNat (value : Word) :
    (pageAlignUp value).toNat = (value.toNat + 4095) % 2 ^ 64 / 4096 * 4096 := by
  rw [pageAlignUp, toNat_and_not_mask (k := 12) (by decide), BitVec.toNat_add]
  rfl

theorem pageAlignUp_aligned (value : Word) : (pageAlignUp value).toNat % 4096 = 0 := by
  rw [pageAlignUp_toNat]
  exact Nat.mul_mod_left _ _

theorem add_aligned {a b : Word} (ha : a.toNat % 4096 = 0) (hb : b.toNat % 4096 = 0) :
    (a + b).toNat % 4096 = 0 := by
  rw [BitVec.toNat_add]
  omega

namespace ProcessSpace

variable (process : ProcessSpace)

/-- `target_vaddr`. -/
def mmapTarget (addr : Word) : Word :=
  if addr = 0 then process.mmapCurrent else pageAlignUp addr

/-- The process once the cursor has moved. -/
def mmapAdvance (addr allocSize : Word) (haligned : allocSize.toNat % 4096 = 0) : ProcessSpace :=
  if addr = 0 then
    { process with
      mmapCurrent := process.mmapCurrent + allocSize
      mmap_aligned := add_aligned process.mmap_aligned haligned }
  else process

/-- The vnode of the mapping, none if it is anonymous; no result for a bad
descriptor. -/
def mmapNode (flags fd : Word) : Option (Option Vnode) :=
  let anonymous := hasBits flags mapAnonymous || fd.slt 0
  if anonymous then some none
  else if fd.slt 0 then none
  else (process.fds fd.toNat).map some

section Advance

variable {addr allocSize : Word} {haligned : allocSize.toNat % 4096 = 0}

@[simp]
theorem pageTable_mmapAdvance :
    (process.mmapAdvance addr allocSize haligned).pageTable = process.pageTable := by
  rw [mmapAdvance]
  split_ifs <;> rfl

@[simp]
theorem ownedPages_mmapAdvance :
    (process.mmapAdvance addr allocSize haligned).ownedPages = process.ownedPages := by
  rw [mmapAdvance]
  split_ifs <;> rfl

@[simp]
theorem mmapNode_mmapAdvance (flags fd : Word) :
    (process.mmapAdvance addr allocSize haligned).mmapNode flags fd =
      process.mmapNode flags fd := by
  rw [mmapAdvance]
  split_ifs <;> rfl

theorem mmapCurrent_mmapAdvance :
    (process.mmapAdvance addr allocSize haligned).mmapCurrent =
      if addr = 0 then process.mmapCurrent + allocSize else process.mmapCurrent := by
  rw [mmapAdvance]
  split_ifs <;> rfl

end Advance

end ProcessSpace

/-- The loop condition and the step of the `for` loop that `pagesBetween` stands
for. -/
theorem pagesBetween_eq {start stop : Word} (hstart : start.toNat % 4096 = 0)
    (hstop : stop.toNat % 4096 = 0) : pagesBetween start stop =
      if start < stop then start :: pagesBetween (start + 4096) stop else [] := by
  have hlt := stop.isLt
  split_ifs with hcond
  · have hbound : start.toNat < stop.toNat := hcond
    have hpage : (4096 : Word).toNat = 4096 := rfl
    have hnext : (start + 4096).toNat = start.toNat + 4096 := by
      rw [toNat_add_of_lt] <;> omega
    have hcount : (stop.toNat - start.toNat) / 4096 =
        (stop.toNat - (start + 4096).toNat) / 4096 + 1 := by omega
    rw [pagesBetween, pagesBetween, hcount, List.range_succ_eq_map, List.map_cons, List.map_map]
    refine List.cons_eq_cons.mpr ⟨by simp, ?_⟩
    refine List.map_congr_left fun i _ => ?_
    have hsucc : BitVec.ofNat 64 (i + 1) = 1#64 + BitVec.ofNat 64 i := by
      rw [BitVec.ofNat_add, BitVec.add_comm]
    rw [Function.comp_apply, Nat.succ_eq_add_one, hsucc, BitVec.mul_add, ← BitVec.add_assoc,
      BitVec.mul_one]
  · have hbound : ¬ start.toNat < stop.toNat := hcond
    rw [pagesBetween, Nat.sub_eq_zero_of_le (by omega)]
    rfl

namespace Machine

variable (k : Machine)

/-- The body of the loop of `grow_process_brk`. -/
def growPage (table addr : Word) (s : Memory × PageList) : Int × Memory × PageList :=
  let (page, m) := k.ptPoolAlloc s.1
  if page = 0 then (-1, m, s.2)
  else
    let phys := k.hhdmVirtToPhys page
    let (status, m) := k.mapPage4k m table addr phys ⟨true, true, false, false⟩
    if status ≠ 0 then (-1, k.alloc.free m page, s.2)
    else
      let (status, m, owned) := k.alloc.pageListAdd m s.2 page
      if status ≠ 0 then (-1, m, owned) else (0, m, owned)

def growProcessBrk (m : Memory) (process : ProcessSpace) (newBreak : Word) :
    Int × Memory × ProcessSpace :=
  let oldEnd := pageAlignUp process.brkCurrent
  let newEnd := pageAlignUp newBreak
  let (status, m, owned) :=
    forEach (k.growPage process.pageTable) (pagesBetween oldEnd newEnd) (m, process.ownedPages)
  (status, m, { process with ownedPages := owned })

def syscallBrk (m : Memory) (process : ProcessSpace) (requestedBreak : Word) :
    Word × Memory × ProcessSpace :=
  if requestedBreak = 0 then (process.brkCurrent, m, process)
  else if requestedBreak < process.brkStart ∨ userHeapMax ≤ requestedBreak then
    (process.brkCurrent, m, process)
  else
    let (status, m, process) :=
      if process.brkCurrent < requestedBreak then k.growProcessBrk m process requestedBreak
      else (0, m, process)
    if status ≠ 0 then (process.brkCurrent, m, process)
    else (requestedBreak, m, { process with brkCurrent := requestedBreak })

/-- The permissions that `mmap` takes from `prot`. -/
def mmapFlags (prot : Word) : VmFlags := ⟨hasBits prot 0x2, true, hasBits prot 0x1, false⟩

/-- The mapping loop of `mmap`: page `i` of the block behind page `i` of the target. -/
def mapBlock (m : Memory) (table target physBase : Word) (flags : VmFlags) (pages : Nat) :
    Int × Memory :=
  forEach (fun i m => k.mapPage4k m table (target + BitVec.ofNat 64 i * 0x1000)
    (physBase + BitVec.ofNat 64 i * 0x1000) flags) (List.range pages) m

/-- The block of `mmap`, cleared and then filled from the file if there is one.  From
2 ^ 63 bytes on, no half of the address space holds the block, and `memset` faults. -/
def fillBlock (m : Memory) (block size : Word) (node : Option Vnode) (offset : Word) :
    Option Memory :=
  if 2 ^ 63 ≤ size.toNat then none
  else
    let m := m.fill block size.toNat 0
    match node with
    | none => some m
    | some node =>
        if offset < node.size then
          let want := node.size - offset
          some (m.store block (node.read (if size < want then size else want) offset))
        else some m

/-- No result when the kernel faults. -/
def syscallMmap (m : Memory) (process : ProcessSpace) (addr length prot flags fd offset : Word) :
    Option (Word × Memory × ProcessSpace) :=
  if length = 0 then some (0, m, process)
  else
    let allocSize := pageAlignUp length
    let pagesCount := allocSize / 0x1000
    let target := process.mmapTarget addr
    let process := process.mmapAdvance addr allocSize (pageAlignUp_aligned length)
    let pflags := mmapFlags prot
    match process.mmapNode flags fd with
    | none => some (ebadf, m, process)
    | some node =>
        let (block, m) := k.alloc.pageAlloc m pagesCount
        if block = 0 then some (0, m, process)
        else
          (fillBlock m block allocSize node offset).map fun m =>
            let (status, m) := k.mapBlock m process.pageTable target (k.hhdmVirtToPhys block)
              pflags pagesCount.toNat
            if status ≠ 0 then (0, k.alloc.free m block, process) else (target, m, process)

def syscallMprotect (m : Memory) (process : ProcessSpace) (addr length prot : Word) :
    Word × Memory :=
  if length = 0 then (0, m)
  else if addr &&& 0xFFF ≠ 0 then (einval, m)
  else
    let alignedLen := pageAlignUp length
    let pflags : VmFlags := ⟨hasBits prot 0x2, true, hasBits prot 0x4, false⟩
    let (status, m) := forEach (fun va m => k.protectPage4k m process.pageTable va pflags)
      (pagesBetween addr (addr + alignedLen)) m
    if status ≠ 0 then (enomem, m) else (0, m)

def syscallMunmap (m : Memory) (process : ProcessSpace) (addr length : Word) : Word × Memory :=
  if length = 0 then (einval, m)
  else if addr &&& 0xFFF ≠ 0 then (einval, m)
  else
    let alignedLen := pageAlignUp length
    let (status, m) := forEach (fun va m => k.unmapPage4k m process.pageTable va)
      (pagesBetween addr (addr + alignedLen)) m
    if status ≠ 0 then (enomem, m) else (0, m)

end Machine

end Utopia
