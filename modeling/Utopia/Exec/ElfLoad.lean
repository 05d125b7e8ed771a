/-
The loader of `exec/loaders/elf.c`: `elf_load` on the page tables in memory, without the
relocations, which no caller asks for.
-/
import Utopia.Mm.Vmm

namespace Utopia

/-- The buffer with an image: its size, and what lies at each offset from its start.  What
lies behind the image stays as it is during the call. -/
structure ElfFile where
  byte : Word → Byte
  size : Word

namespace ElfFile

variable (file : ElfFile)

/-- The little-endian number in the `n` bytes at `off`. -/
def number (off : Word) : ℕ → ℕ
  | 0 => 0
  | n + 1 => (file.byte off).toNat + 256 * number (off + 1) n

def u16 (off : Word) : BitVec 16 := BitVec.ofNat 16 (file.number off 2)

def u32 (off : Word) : BitVec 32 := BitVec.ofNat 32 (file.number off 4)

def u64 (off : Word) : Word := BitVec.ofNat 64 (file.number off 8)

/-! ### `elf64_ehdr_t` -/

def eType : BitVec 16 := file.u16 16

def eMachine : BitVec 16 := file.u16 18

def eEntry : Word := file.u64 24

def ePhoff : Word := file.u64 32

def ePhentsize : BitVec 16 := file.u16 54

def ePhnum : BitVec 16 := file.u16 56

end ElfFile

/-- The fields of `elf64_phdr_t` that the loader reads. -/
structure ElfPhdr where
  type : BitVec 32
  flags : BitVec 32
  offset : Word
  vaddr : Word
  filesz : Word
  memsz : Word
deriving DecidableEq, Repr

def ptLoad : BitVec 32 := 1
def ptDynamic : BitVec 32 := 2
def ptInterp : BitVec 32 := 3
def ptPhdr : BitVec 32 := 6

/-- The program header at an offset. -/
def ElfFile.phdrAt (file : ElfFile) (off : Word) : ElfPhdr where
  type := file.u32 off
  flags := file.u32 (off + 4)
  offset := file.u64 (off + 8)
  vaddr := file.u64 (off + 16)
  filesz := file.u64 (off + 32)
  memsz := file.u64 (off + 40)

/-- The program headers in their order. -/
def ElfFile.phdrs (file : ElfFile) : List ElfPhdr :=
  (List.range file.ePhnum.toNat).map fun i =>
    file.phdrAt (file.ePhoff + BitVec.ofNat 64 i * file.ePhentsize.setWidth 64)

namespace ElfPhdr

variable (ph : ElfPhdr)

def isWritable : Bool := ph.flags &&& 2 ≠ 0

def isExecutable : Bool := ph.flags &&& 1 ≠ 0

/-- `page_flags_for(ph->p_flags)`. -/
def pageFlags : VmFlags := ⟨ph.isWritable, true, ph.isExecutable, false⟩

/-- `seg_start`. -/
def segStart (bias : Word) : Word := (bias + ph.vaddr) &&& ~~~0xFFF

/-- `seg_end`. -/
def segEnd (bias : Word) : Word := (bias + ph.vaddr + ph.memsz + 0xFFF) &&& ~~~0xFFF

/-- The pages of a segment, as the loop over `page_va` comes to them. -/
def pages (bias : Word) : List Word :=
  (List.range (((ph.segEnd bias).toNat - (ph.segStart bias).toNat) / 4096)).map fun i =>
    ph.segStart bias + BitVec.ofNat 64 i * 0x1000

end ElfPhdr

namespace VmFlags

def none : VmFlags := ⟨false, false, false, false⟩

/-- `a | b`. -/
def or (a b : VmFlags) : VmFlags :=
  ⟨a.write || b.write, a.user || b.user, a.exec || b.exec, a.global || b.global⟩

end VmFlags

/-- `elf_load_status_t`, without the success and what no function returns. -/
inductive ElfLoadStatus
  | badMagic
  | badClass
  | badEndian
  | badMachine
  | badType
  | truncated
  | noMemory
  | mapFailed
  | badDynamic
  | interpTooLong
deriving DecidableEq, Repr

/-- A failed load leaves its status and the memory. -/
abbrev ElfLoading := Except (ElfLoadStatus × Memory)

namespace Machine

variable (k : Machine)

/-- `elf_uv2kv`, the same walk as `vm_user_to_kernel`. -/
def elfUv2kv (m : Memory) (l4 va : Word) : Word := k.vmUserToKernel m l4 va

end Machine

/-- The part of a round that copies the bytes of the file to the page at `dst`. -/
def ElfFile.copyPage (file : ElfFile) (bias : Word) (ph : ElfPhdr) (pageVa dst : Word)
    (m : Memory) : Memory :=
  let pageEnd := pageVa + 0x1000
  let fileLo := bias + ph.vaddr
  let fileHi := bias + ph.vaddr + ph.filesz
  let copyLo := if fileLo < pageVa then pageVa else fileLo
  let copyHi := if pageEnd < fileHi then pageEnd else fileHi
  if copyLo < copyHi then
    let srcOff := ph.offset + (copyLo - fileLo)
    let dstOff := copyLo - pageVa
    m.store (dst + dstOff)
      ((List.range (copyHi - copyLo).toNat).map fun b => file.byte (srcOff + BitVec.ofNat 64 b))
  else m

namespace Machine

variable (k : Machine)

/-- A round of the loop over the pages of a segment. -/
def loadPage (file : ElfFile) (l4 bias : Word) (ph : ElfPhdr) (prevSegFlags : VmFlags)
    (m : Memory) (pageVa : Word) : ElfLoading Memory :=
  let existing := k.elfUv2kv m l4 pageVa
  if existing ≠ 0 then
    let (status, m) := k.protectPage4k m l4 pageVa (ph.pageFlags.or prevSegFlags)
    if status ≠ 0 then .error (.mapFailed, m)
    else .ok (file.copyPage bias ph pageVa existing m)
  else
    let (page, m) := k.ptPoolAlloc m
    let phys := k.hhdmVirtToPhys page
    if phys = 0 then .error (.noMemory, m)
    else
      let dst := k.physToVirt phys
      let m := m.fill dst 4096 0
      let (status, m) := k.mapPage4k m l4 pageVa phys ph.pageFlags
      if status ≠ 0 then .error (.mapFailed, m)
      else .ok (file.copyPage bias ph pageVa dst m)

end Machine

/-- The variables of the loop over the program headers. -/
structure ElfLoadState where
  memory : Memory
  phdrVaddr : Word
  prevSegFlags : VmFlags
  lowest : Word
  highest : Word
  dynPh : Option ElfPhdr
  interpPh : Option ElfPhdr

namespace Machine

variable (k : Machine)

/-- A round of the loop over the program headers. -/
def loadHeader (file : ElfFile) (l4 bias : Word) (s : ElfLoadState) (ph : ElfPhdr) :
    ElfLoading ElfLoadState :=
  if ph.type = ptPhdr then .ok { s with phdrVaddr := bias + ph.vaddr }
  else if ph.type = ptDynamic then .ok { s with dynPh := some ph }
  else if ph.type = ptInterp then .ok { s with interpPh := some ph }
  else if ph.type ≠ ptLoad then .ok s
  else if file.size < ph.offset + ph.filesz then .error (.truncated, s.memory)
  else do
    let m ← (ph.pages bias).foldlM (k.loadPage file l4 bias ph s.prevSegFlags) s.memory
    let segStart := ph.segStart bias
    let segEnd := ph.segEnd bias
    return { s with
      memory := m
      prevSegFlags := ph.pageFlags
      lowest := if segStart < s.lowest then segStart else s.lowest
      highest := if s.highest < segEnd then segEnd else s.highest
      phdrVaddr :=
        if s.phdrVaddr = 0 ∧ ph.offset ≤ file.ePhoff ∧ file.ePhoff - ph.offset ≤ ph.filesz then
          bias + ph.vaddr + (file.ePhoff - ph.offset)
        else s.phdrVaddr }

end Machine

/-! ### The dynamic section -/

namespace ElfFile

variable (file : ElfFile)

/-- `elf_vaddr_to_fileptr`: the offset of the place in the image. -/
def vaddrToFileptr (vaddr needSize : Word) : Option Word :=
  file.phdrs.findSome? fun ph =>
    if ph.type ≠ ptLoad then none
    else if ph.vaddr ≤ vaddr ∧ vaddr < ph.vaddr + ph.filesz then
      let offsetInPhdr := vaddr - ph.vaddr
      if needSize ≤ ph.filesz - offsetInPhdr then
        let off := ph.offset + offsetInPhdr
        if off + needSize ≤ file.size then some off else none
      else none
    else none

/-- The loop of `elf_gnu_hash_symcount` along a chain. -/
def hashChain (chainVaddr : Word) : ℕ → Word → Word → Option Word
  | 0, _, count => some count
  | guard + 1, chainIdx, count =>
      (file.vaddrToFileptr (chainVaddr + chainIdx * 4) 4).bind fun cp =>
        let count := count + 1
        if file.u32 cp &&& 1 ≠ 0 then some count
        else hashChain chainVaddr guard (chainIdx + 1) count

/-- `elf_gnu_hash_symcount`. -/
def gnuHashSymcount (gnuHashVaddr : Word) : Option Word :=
  (file.vaddrToFileptr gnuHashVaddr 16).bind fun header =>
    let nbucket := file.u32 header
    let symoffset := file.u32 (header + 4)
    let bloomSize := file.u32 (header + 8)
    if nbucket = 0 then some (symoffset.setWidth 64)
    else
      let bucketsVaddr := gnuHashVaddr + 16 + bloomSize.setWidth 64 * 8
      (file.vaddrToFileptr bucketsVaddr (nbucket.setWidth 64 * 4)).bind fun buckets =>
        let maxIdx := (List.range nbucket.toNat).foldl (fun maxIdx i =>
          let bucket := file.u32 (buckets + BitVec.ofNat 64 i * 4)
          if maxIdx < bucket then bucket else maxIdx) 0
        if maxIdx < symoffset then some (symoffset.setWidth 64)
        else
          let chainVaddr := bucketsVaddr + nbucket.setWidth 64 * 4
          file.hashChain chainVaddr 1000000 ((maxIdx - symoffset).setWidth 64)
            (maxIdx.setWidth 64)

/-- The variables of `elf_process_dynamic` that the part without relocations uses. -/
structure DynamicTags where
  relaOff : Word := 0
  symtabOff : Word := 0
  strtabOff : Word := 0
  strtabSize : Word := 0
  hashOff : Word := 0
  gnuHashOff : Word := 0
  hasRel : Bool := false

/-- The entries of the dynamic section up to `DT_NULL`. -/
def dynamicEntries (dynPh : ElfPhdr) : List (Word × Word) :=
  ((List.range (dynPh.filesz.toNat / 16)).map fun i =>
    let entry := dynPh.offset + BitVec.ofNat 64 i * 16
    (file.u64 entry, file.u64 (entry + 8))).takeWhile fun entry => entry.1 ≠ 0

/-- A round of the loop over the dynamic section. -/
def DynamicTags.scan (tags : DynamicTags) (entry : Word × Word) : DynamicTags :=
  if entry.1 = 7 then { tags with relaOff := entry.2 }
  else if entry.1 = 6 then { tags with symtabOff := entry.2 }
  else if entry.1 = 5 then { tags with strtabOff := entry.2 }
  else if entry.1 = 10 then { tags with strtabSize := entry.2 }
  else if entry.1 = 4 then { tags with hashOff := entry.2 }
  else if entry.1 = 0x6ffffef5 then { tags with gnuHashOff := entry.2 }
  else if entry.1 = 17 then { tags with hasRel := true }
  else tags

/-- What `elf_process_dynamic` puts into the result. -/
structure DynamicInfo where
  symtabVaddr : Word
  strtabVaddr : Word
  strtabSize : Word
  symCount : Word
deriving DecidableEq, Repr

/-- `elf_process_dynamic` with `apply_relocs = false`. -/
def processDynamic (dynPh : ElfPhdr) : Except ElfLoadStatus DynamicInfo :=
  if file.size < dynPh.offset + dynPh.filesz then .error .truncated
  else
    let tags := (file.dynamicEntries dynPh).foldl DynamicTags.scan {}
    if tags.hasRel ∧ tags.relaOff = 0 then .error .badDynamic
    else
      let symCount := if tags.gnuHashOff ≠ 0 then
        (file.gnuHashSymcount tags.gnuHashOff).getD 0 else 0
      let symCount := if symCount = 0 ∧ tags.hashOff ≠ 0 then
        ((file.vaddrToFileptr tags.hashOff 8).map fun hp => (file.u32 (hp + 4)).setWidth 64).getD
          symCount
        else symCount
      .ok ⟨tags.symtabOff, tags.strtabOff, tags.strtabSize, symCount⟩

end ElfFile

/-! ### The whole load -/

/-- `elf_load_result_t` of a load that succeeds. -/
structure ElfLoadResult where
  entry : Word
  loadBias : Word
  lowestVaddr : Word
  highestVaddr : Word
  phdrVaddr : Word
  phnum : BitVec 16
  phentsize : BitVec 16
  isPie : Bool
  interpPath : Option (List Byte)
  dynamic : ElfFile.DynamicInfo

/-- `e_machine` of the images for an architecture. -/
def Arch.elfMachine : Arch → BitVec 16
  | .x86_64 => 0x3e
  | .riscv64 => 243

def elfInterpPathMax : Word := 256

/-- The checks of `elf_load` on the header of the image. -/
def ElfFile.checkHeader (file : ElfFile) (arch : Arch) : Option ElfLoadStatus :=
  if file.size < 64 then some .truncated
  else if file.byte 0 ≠ 0x7f ∨ file.byte 1 ≠ 0x45 ∨ file.byte 2 ≠ 0x4C ∨ file.byte 3 ≠ 0x46 then
    some .badMagic
  else if file.byte 4 ≠ 2 then some .badClass
  else if file.byte 5 ≠ 1 then some .badEndian
  else if file.eMachine ≠ arch.elfMachine then some .badMachine
  else if file.eType ≠ 2 ∧ file.eType ≠ 3 then some .badType
  else if file.size < file.ePhoff + file.ePhnum.setWidth 64 * file.ePhentsize.setWidth 64 then
    some .truncated
  else none

/-- `load_bias`, which counts only for images of type `ET_DYN`. -/
def ElfFile.biasFor (file : ElfFile) (loadBias : Word) : Word :=
  if file.eType = 2 then 0 else loadBias

/-- The path in the `PT_INTERP` header. -/
def ElfFile.interpPath (file : ElfFile) (interpPh : ElfPhdr) : Except ElfLoadStatus (List Byte) :=
  if file.size < interpPh.offset + interpPh.filesz then .error .truncated
  else if elfInterpPathMax ≤ interpPh.filesz then .error .interpTooLong
  else .ok ((List.range interpPh.filesz.toNat).map fun b =>
    file.byte (interpPh.offset + BitVec.ofNat 64 b))

/-- The part of `elf_load` for an interpreter, if the image names one. -/
def ElfFile.interpOf (file : ElfFile) : Option ElfPhdr → Except ElfLoadStatus (Option (List Byte))
  | none => .ok none
  | some ph => (file.interpPath ph).map some

/-- The part of `elf_load` for the dynamic section, if there is one. -/
def ElfFile.dynamicOf (file : ElfFile) : Option ElfPhdr → Except ElfLoadStatus ElfFile.DynamicInfo
  | none => .ok ⟨0, 0, 0, 0⟩
  | some ph => file.processDynamic ph

/-- `elf_load` with `apply_relocs = false`. -/
def Machine.elfLoad (k : Machine) (file : ElfFile) (l4 loadBias : Word) (m : Memory) :
    ElfLoading (ElfLoadResult × Memory) :=
  match file.checkHeader k.arch with
  | some status => .error (status, m)
  | none => do
      let bias := file.biasFor loadBias
      let s ← file.phdrs.foldlM (k.loadHeader file l4 bias)
        ⟨m, 0, VmFlags.none, ~~~0, 0, none, none⟩
      if s.highest = 0 then throw (.truncated, s.memory)
      let interpPath ← (file.interpOf s.interpPh).mapError (·, s.memory)
      let dynamic ← (file.dynamicOf s.dynPh).mapError (·, s.memory)
      return (⟨bias + file.eEntry, bias, s.lowest, s.highest, s.phdrVaddr, file.ePhnum,
        file.ePhentsize, file.eType = 3, interpPath, dynamic⟩, s.memory)

end Utopia
