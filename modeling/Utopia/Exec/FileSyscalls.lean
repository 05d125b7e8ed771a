/-
The system calls of `exec/syscalls/linux` that work on the descriptor table of the
process: `io.c`, and their share of `common.c` and `memory.c`.
-/
import Utopia.Exec.MemorySyscalls
import Utopia.Exec.ProcessClone
import Utopia.Lib.Fields
import Utopia.Lib.Keeps

namespace Utopia

universe u

def maxFilesPerProcess : ℤ := 32

def oAppend : BitVec 32 := 0x400
def pollIn : Word := 0x001
def pollOut : Word := 0x004
def pollNval : Word := 0x020

def eisdir : Word := -21
def erofs : Word := -30
def efault : Word := -14
def emfile : Word := -24
def enotdir : Word := -20

/-- `syscall_regs_t` without the trap frame. -/
structure SyscallRegs where
  arg1 : Word
  arg2 : Word
  arg3 : Word
  arg4 : Word
  arg5 : Word
  arg6 : Word
  syscallNo : Word

/-- The conversion of a register to `int`. -/
def toInt32 (value : Word) : ℤ := (value.setWidth 32).toInt

/-- `vfs_dirent_t`, with the bytes of the string that `name` points to. -/
structure Dirent where
  ino : Word
  type : Byte
  name : List Byte
  name_fits : name.length < 2 ^ 63

/-- What a call does to the memory and to the files and devices; nothing if the kernel
faults in it, or waits for ever. -/
abbrev Effect (σ α : Type u) := Memory → σ → Option (α × Memory × σ)

/-- The kernel below the handlers: the virtual file system, the keyboard and the
console, with their state in `σ`.  Statuses are `int`. -/
structure FileKernel (σ : Type) where
  machine : Machine
  /-- Whether the `n` bytes from an address on can be accessed. -/
  accessible : Memory → Word → Nat → Bool
  isDir : σ → Word → Bool
  size : σ → Word → Word
  hasRead : σ → Word → Bool
  hasWrite : σ → Word → Bool
  hasReaddir : σ → Word → Bool
  read : (vnode buffer size offset : Word) → Effect σ (BitVec 32 × Word)
  write : (vnode data size offset : Word) → Effect σ (BitVec 32 × Word)
  readdir : (vnode index : Word) → Effect σ (BitVec 32 × Dirent)
  /-- The vnode as `mmap` reads it. -/
  file : σ → Word → Vnode
  vfsOpen : (path : Word) → (flags : BitVec 32) → Effect σ (BitVec 32 × Word)
  keyboardRead : (buffer size : Word) → Effect σ (BitVec 32)
  userPrint : (data len : Word) → Effect σ Unit
  /-- The entries of the table that leave the descriptors alone, and `ENOSYS`. -/
  otherCall : SyscallRegs → Effect σ Word

/-- What a handler works on.  `fds` is the descriptor table, and outside its bounds
whatever lies there; `touched` lists the indices at which it was evaluated. -/
structure FileWorld (σ : Type) where
  mem : Memory
  fds : ℤ → FileDesc
  space : ProcessSpace
  files : σ
  touched : List ℤ

/-- A handler, which stops where the kernel faults. -/
abbrev Handler (σ : Type) := EStateM Unit (FileWorld σ)

section Primitives

variable {σ : Type} (kernel : FileKernel σ)

/-- `process->fds[fd]`. -/
def desc (fd : ℤ) : Handler σ FileDesc := do
  modify fun w => { w with touched := fd :: w.touched }
  return (← get).fds fd

/-- A store to fields of `process->fds[fd]`. -/
def setDesc (fd : ℤ) (f : FileDesc → FileDesc) : Handler σ Unit :=
  modify fun w =>
    { w with
      fds := Function.update w.fds fd (f (w.fds fd))
      touched := fd :: w.touched }

/-- A call out of the handlers. -/
def external {α : Type} (effect : Effect σ α) : Handler σ α := do
  let w ← get
  match effect w.mem w.files with
  | none => throw ()
  | some (a, mem, files) =>
      modify fun w => { w with mem := mem, files := files }
      return a

theorem get_bind_run {α : Type} (f : FileWorld σ → Handler σ α) (w : FileWorld σ) :
    (get >>= f) w = f w w :=
  rfl

/-- How a call out of the handlers ends. -/
theorem external_run {α : Type} (effect : Effect σ α) (w : FileWorld σ) :
    external effect w = match effect w.mem w.files with
      | none => .error () w
      | some (a, mem, files) => .ok a { w with mem := mem, files := files } := by
  have hrun : external effect w = (match effect w.mem w.files with
      | none => throw ()
      | some (a, mem, files) => do
          modify fun w => { w with mem := mem, files := files }
          return a : Handler σ α) w := rfl
  rw [hrun]
  cases effect w.mem w.files <;> rfl

/-- A load of `n` bytes. -/
def load (a : Word) (n : Nat) : Handler σ Word := do
  let w ← get
  if kernel.accessible w.mem a n then return BitVec.ofNat 64 (w.mem.loadField a n) else throw ()

/-- A change to the `n` bytes from `a` on. -/
def change (a : Word) (n : Nat) (f : Memory → Memory) : Handler σ Unit := do
  let w ← get
  if kernel.accessible w.mem a n then modify fun w => { w with mem := f w.mem } else throw ()

/-- A store of the low `n` bytes of `v`. -/
def store (a : Word) (n : Nat) (v : Word) : Handler σ Unit :=
  change kernel a n fun m => m.storeField a n v

/-- A field of a vnode. -/
def vnodeField {α : Type} (field : σ → Word → α) (vnode : Word) : Handler σ α := do
  return field (← get).files vnode

end Primitives

section Handlers

variable {σ : Type} (kernel : FileKernel σ) (regs : SyscallRegs)

def doRead (fd : ℤ) (buf count offset : Word) (updateOffset : Bool) : Handler σ Word := do
  if fd < 0 ∨ maxFilesPerProcess ≤ fd then return ebadf
  if !(← desc fd).used then return ebadf
  if fd = 0 then return (← external (kernel.keyboardRead buf count)).signExtend 64
  let vnode := (← desc fd).vnode
  if vnode = 0 then return ebadf
  if ← vnodeField kernel.isDir vnode then return eisdir
  if !(← vnodeField kernel.hasRead vnode) then return einval
  let (res, bytesRead) ← external (kernel.read vnode buf count offset)
  if res ≠ 0 then return res.signExtend 64
  if updateOffset then setDesc fd fun d => { d with offset := d.offset + bytesRead }
  return bytesRead

def doWrite (data len : Word) (fd : ℤ) : Handler σ Word := do
  if fd < 0 ∨ maxFilesPerProcess ≤ fd then return ebadf
  if !(← desc fd).used then return ebadf
  if fd = 1 ∨ fd = 2 then
    external (kernel.userPrint data len)
    return len
  let vnode := (← desc fd).vnode
  if vnode = 0 then return ebadf
  if ← vnodeField kernel.isDir vnode then return eisdir
  if !(← vnodeField kernel.hasWrite vnode) then return erofs
  let (res, bytesWritten) ← external (kernel.write vnode data len (← desc fd).offset)
  if res ≠ 0 then return res.signExtend 64
  setDesc fd fun d => { d with offset := d.offset + bytesWritten }
  return bytesWritten

/-- The offset is an argument of `do_read`, evaluated before the call. -/
def syscallRead : Handler σ Word := do
  let fd := toInt32 regs.arg1
  let offset := (← desc fd).offset
  doRead kernel fd regs.arg2 regs.arg3 offset true

def syscallPread64 : Handler σ Word :=
  doRead kernel (toInt32 regs.arg1) regs.arg2 regs.arg3 regs.arg4 false

def syscallWrite : Handler σ Word :=
  doWrite kernel regs.arg2 regs.arg3 (toInt32 regs.arg1)

/-- The loop of `writev` with `left` elements to go, from the one at `iov` on. -/
def writevLoop (fd : ℤ) : (left : Nat) → (iov total : Word) → Handler σ Word
  | 0, _, total => return total
  | left + 1, iov, total => do
      let ret ← doWrite kernel (← load kernel iov 8) (← load kernel (iov + 8) 8) fd
      if ret = ebadf then
        return if total = 0 then ebadf else total
      else
        let total := total + ret
        if ret < (← load kernel (iov + 8) 8) then return total
        writevLoop fd left (iov + 16) total

def syscallWritev : Handler σ Word :=
  writevLoop kernel (toInt32 regs.arg1) (toInt32 regs.arg3).toNat regs.arg2 0

def syscallLseek : Handler σ Word := do
  let fd := toInt32 regs.arg1
  let offset := regs.arg2
  if fd < 0 ∨ maxFilesPerProcess ≤ fd then return ebadf
  if !(← desc fd).used then return ebadf
  let vnode := (← desc fd).vnode
  if vnode = 0 then return ebadf
  let finish (newOffset : Word) : Handler σ Word := do
    if newOffset.slt 0 then return einval
    setDesc fd fun d => { d with offset := newOffset }
    return newOffset
  match toInt32 regs.arg3 with
  | 0 => finish offset
  | 1 => finish ((← desc fd).offset + offset)
  | 2 => finish ((← vnodeField kernel.size vnode) + offset)
  | _ => return einval

/-- The sets and the count that `pselect6` builds. -/
structure Ready where
  readfds : Word
  writefds : Word
  count : Word

def pselectRound (readfds writefds : Word) (r : Ready) (fd : Nat) : Handler σ Ready := do
  let mask : Word := 1 <<< fd
  if (← desc fd).used then
    let r := if readfds &&& mask ≠ 0 then
        { r with readfds := r.readfds ||| mask, count := r.count + 1 } else r
    return if writefds &&& mask ≠ 0 then
        { r with writefds := r.writefds ||| mask, count := r.count + 1 } else r
  else
    return r

/-- One of the sets of `pselect6`, if there is a pointer to it. -/
def loadSet (p : Word) : Handler σ Word :=
  if p ≠ 0 then load kernel p 8 else return 0

def storeSet (p v : Word) : Handler σ Unit :=
  if p ≠ 0 then store kernel p 8 v else return

def syscallPselect6 : Handler σ Word := do
  let nfds := toInt32 regs.arg1
  if nfds < 0 ∨ maxFilesPerProcess < nfds then return einval
  let readfds ← loadSet kernel regs.arg2
  let writefds ← loadSet kernel regs.arg3
  let ready ← (List.range nfds.toNat).foldlM (pselectRound readfds writefds) ⟨0, 0, 0⟩
  storeSet kernel regs.arg2 ready.readfds
  storeSet kernel regs.arg3 ready.writefds
  storeSet kernel regs.arg4 0
  return ready.count

/-- The size of `struct stat` and where its fields lie, with the bytes of
`st_blksize`; `st_dev` and `st_ino` come first. -/
structure StatLayout where
  bytes : Nat
  mode : Word
  size : Word
  blksize : Word
  blksizeBytes : Nat
  blocks : Word

def statLayout : Arch → StatLayout
  | .x86_64 => ⟨144, 24, 48, 56, 8, 64⟩
  | .riscv64 => ⟨128, 16, 48, 56, 4, 64⟩

def syscallFstat : Handler σ Word := do
  let fd := toInt32 regs.arg1
  let statbuf := regs.arg2
  let layout := statLayout kernel.machine.arch
  if statbuf = 0 then return efault
  if fd < 0 ∨ maxFilesPerProcess ≤ fd then return ebadf
  if !(← desc fd).used then return ebadf
  change kernel statbuf layout.bytes fun m => m.fill statbuf layout.bytes 0
  if fd = 0 ∨ fd = 1 ∨ fd = 2 then
    store kernel (statbuf + layout.mode) 4 0o20666
    store kernel (statbuf + layout.blksize) layout.blksizeBytes 1024
    return 0
  let vnode := (← desc fd).vnode
  if vnode = 0 then return ebadf
  let size ← vnodeField kernel.size vnode
  store kernel statbuf 8 1
  store kernel (statbuf + 8) 8 vnode
  store kernel (statbuf + layout.size) 8 size
  store kernel (statbuf + layout.blksize) layout.blksizeBytes 4096
  store kernel (statbuf + layout.blocks) 8 ((size + 511) / 512)
  let mode : Word := if ← vnodeField kernel.isDir vnode then 0o40755 else 0o100644
  store kernel (statbuf + layout.mode) 4 mode
  return 0

/-- The first free descriptor of `left` ones from `fd` on. -/
def freeDescriptor : (left : Nat) → (fd : ℤ) → Handler σ (Option ℤ)
  | 0, _ => return none
  | left + 1, fd => do
      if !(← desc fd).used then return some fd
      freeDescriptor left (fd + 1)

/-- What `open` and `openat` do with their path and flags. -/
def openPath (path : Word) (flags : BitVec 32) : Handler σ Word := do
  if path = 0 then return efault
  match ← freeDescriptor 29 3 with
  | none => return emfile
  | some fd =>
      let (res, vnode) ← external (kernel.vfsOpen path flags)
      if res ≠ 0 then return res.signExtend 64
      let size ← vnodeField kernel.size vnode
      setDesc fd fun _ =>
        { vnode := vnode
          offset := if flags &&& oAppend ≠ 0 then size else 0
          flags := flags
          used := true }
      return BitVec.ofInt 64 fd

def syscallOpen : Handler σ Word := openPath kernel regs.arg1 (regs.arg2.setWidth 32)

def syscallOpenat : Handler σ Word := openPath kernel regs.arg2 (regs.arg3.setWidth 32)

def syscallClose : Handler σ Word := do
  let fd := toInt32 regs.arg1
  if fd < 0 ∨ maxFilesPerProcess ≤ fd then return ebadf
  if !(← desc fd).used then return ebadf
  setDesc fd fun _ => { vnode := 0, offset := 0, flags := 0, used := false }
  return 0

/-- `fds[i].revents |= bits` for the element at `entry`. -/
def reportEvents (entry bits : Word) : Handler σ Unit := do
  store kernel (entry + 6) 2 ((← load kernel (entry + 6) 2) ||| bits)

def pollWritable (entry events : Word) : Handler σ Unit :=
  if hasBits events pollOut then reportEvents kernel entry pollOut else return

def pollReadable (entry events : Word) (fd : ℤ) : Handler σ Unit := do
  if !hasBits events pollIn then
    return
  else if fd = 0 then
    reportEvents kernel entry pollIn
  else
    let vnode := (← desc fd).vnode
    if vnode ≠ 0 then
      if (← desc fd).offset < (← vnodeField kernel.size vnode) then
        reportEvents kernel entry pollIn

/-- The rest of a round for a descriptor that is open. -/
def pollOpen (entry : Word) (fd : ℤ) (ready : BitVec 32) : Handler σ (BitVec 32) := do
  let events ← load kernel (entry + 4) 2
  pollWritable kernel entry events
  pollReadable kernel entry events fd
  if (← load kernel (entry + 6) 2) ≠ 0 then return ready + 1
  return ready

def pollInvalid (entry : Word) (ready : BitVec 32) : Handler σ (BitVec 32) := do
  store kernel (entry + 6) 2 pollNval
  return ready + 1

def pollRound (fds : Word) (ready : BitVec 32) (i : Nat) : Handler σ (BitVec 32) := do
  let entry := fds + 8 * BitVec.ofNat 64 i
  store kernel (entry + 6) 2 0
  let fd := toInt32 (← load kernel entry 4)
  if fd < 0 then
    return ready
  else if maxFilesPerProcess ≤ fd then
    pollInvalid kernel entry ready
  else if !(← desc fd).used then
    pollInvalid kernel entry ready
  else
    pollOpen kernel entry fd ready

def syscallPoll : Handler σ Word := do
  let ready ← (List.range regs.arg2.toNat).foldlM (pollRound kernel regs.arg1) 0
  return ready.signExtend 64

/-- The length of a record: 19 bytes of fields, the name and its end, rounded up to a
multiple of 8. -/
def Dirent.reclen (entry : Dirent) : Word :=
  (BitVec.ofNat 64 entry.name.length + 27) &&& ~~~7

theorem Dirent.toNat_reclen (entry : Dirent) :
    entry.reclen.toNat = (entry.name.length + 27) / 8 * 8 := by
  have hfits := entry.name_fits
  rw [reclen, toNat_and_not_mask (k := 3) (by decide), BitVec.toNat_add, BitVec.toNat_ofNat]
  change (entry.name.length % 2 ^ 64 + 27) % 2 ^ 64 / 8 * 8 = _
  omega

/-- A `struct linux_dirent64` at `d`. -/
def putDirent (d index : Word) (entry : Dirent) : Handler σ Unit := do
  let nameLen := entry.name.length
  let used := 20 + nameLen
  store kernel d 8 entry.ino
  store kernel (d + 8) 8 (index + 1)
  store kernel (d + 16) 2 entry.reclen
  store kernel (d + 18) 1 (entry.type.setWidth 64)
  change kernel (d + 19) nameLen fun m => m.store (d + 19) entry.name
  store kernel (d + 19 + BitVec.ofNat 64 nameLen) 1 0
  let pad := entry.reclen.toNat - used
  if 0 < pad then
    change kernel (d + BitVec.ofNat 64 used) pad fun m => m.fill (d + BitVec.ofNat 64 used) pad 0

/-- The loop of `getdents64`, with what it leaves in `written` and `index`. -/
def getdentsLoop (dir buf count written index : Word) : Handler σ (Word × Word) := do
  if _hmore : written < count then
    let (res, entry) ← external (kernel.readdir dir index)
    if res.slt 0 then return (written, index)
    else if hfits : entry.reclen ≤ count - written then
      putDirent kernel (buf + written) index entry
      getdentsLoop dir buf count (written + entry.reclen) (index + 1)
    else return (written, index)
  else return (written, index)
termination_by (count - written).toNat
decreasing_by
  have hlen := entry.toNat_reclen
  have hlt : written.toNat < count.toNat := _hmore
  have hle : entry.reclen.toNat ≤ (count - written).toNat := hfits
  rw [BitVec.toNat_sub] at hle ⊢
  rw [BitVec.toNat_sub, BitVec.toNat_add]
  omega

/-- `getdents64` once it has the vnode of the directory. -/
def getdentsDir (fd : ℤ) (dir : Word) : Handler σ Word := do
  if dir = 0 then return ebadf
  if !(← vnodeField kernel.isDir dir) then return enotdir
  if !(← vnodeField kernel.hasReaddir dir) then return enotdir
  let index := (← desc fd).offset
  let (written, index) ← getdentsLoop kernel dir regs.arg2 regs.arg3 0 index
  setDesc fd fun d => { d with offset := index }
  return (written.setWidth 32).signExtend 64

def syscallGetdents64 : Handler σ Word := do
  let fd := toInt32 regs.arg1
  if regs.arg2 = 0 then return efault
  if regs.arg3 = 0 then return 0
  let dir := (← desc fd).vnode
  getdentsDir kernel regs fd dir

end Handlers

/-- What `mmap` does once it has its target and the vnode of the mapping, with its
status. -/
def Machine.mmapBlock (k : Machine) (table target length prot offset : Word)
    (node : Option Vnode) (m : Memory) : Option (Word × Memory) :=
  let allocSize := pageAlignUp length
  let pagesCount := allocSize / 0x1000
  let (block, m) := k.alloc.pageAlloc m pagesCount
  if block = 0 then some (0, m)
  else
    (fillBlock m block allocSize node offset).map fun m =>
      let (status, m) := k.mapBlock m table target (k.hhdmVirtToPhys block) (mmapFlags prot)
        pagesCount.toNat
      if status ≠ 0 then (0, k.alloc.free m block) else (target, m)

section Mmap

variable {σ : Type} (kernel : FileKernel σ) (regs : SyscallRegs)

/-- The part of `mmap` that changes the page table. -/
def mmapNodePages (target : Word) (node : Option Vnode) : Handler σ Word := do
  let table := (← get).space.pageTable
  external fun m files =>
    (kernel.machine.mmapBlock table target regs.arg2 regs.arg3 regs.arg6 node m).map
      fun (code, m) => (code, m, files)

/-- `mmap` of the vnode of a descriptor. -/
def mmapFile (target : Word) (fd : ℤ) : Handler σ Word := do
  let vnode := (← desc fd).vnode
  let node ← vnodeField kernel.file vnode
  mmapNodePages kernel regs target (some node)

/-- `mmap` from the choice of the vnode on. -/
def mmapFd (target : Word) : Handler σ Word := do
  let fd := regs.arg5.toInt
  if hasBits regs.arg4 mapAnonymous || fd < 0 then
    mmapNodePages kernel regs target none
  else if fd < 0 then
    return ebadf
  else
    if (← desc fd).vnode = 0 then return ebadf
    mmapFile kernel regs target fd

/-- `mmap` with its evaluations of the descriptor table. -/
def syscallMmapFd : Handler σ Word := do
  if regs.arg2 = 0 then return 0
  let allocSize := pageAlignUp regs.arg2
  let target := (← get).space.mmapTarget regs.arg1
  modify fun w =>
    { w with space := w.space.mmapAdvance regs.arg1 allocSize (pageAlignUp_aligned regs.arg2) }
  mmapFd kernel regs target

/-- The process as the memory calls see it. -/
def FileWorld.process (w : FileWorld σ) : ProcessSpace :=
  { w.space with
    fds := fun i =>
      let vnode := (w.fds i).vnode
      if vnode = 0 then none else some (kernel.file w.files vnode) }

/-- The result of `mmap`, with the memory and the cursor that it leaves. -/
def mmapOutcome : EStateM.Result Unit (FileWorld σ) Word → Option (Word × Memory × Word)
  | .ok code w => some (code, w.mem, w.space.mmapCurrent)
  | .error _ _ => none

theorem mmapOutcome_nodePages (target : Word) (node : Option Vnode) (w : FileWorld σ) :
    mmapOutcome (mmapNodePages kernel regs target node w) =
      (kernel.machine.mmapBlock w.space.pageTable target regs.arg2 regs.arg3 regs.arg6 node
        w.mem).map fun r => (r.1, r.2, w.space.mmapCurrent) := by
  rw [mmapNodePages, get_bind_run, external_run]
  cases kernel.machine.mmapBlock w.space.pageTable target regs.arg2 regs.arg3 regs.arg6 node
    w.mem <;> rfl

/-- The block part of `Machine.syscallMmap` is `Machine.mmapBlock`. -/
theorem syscallMmap_eq (k : Machine) (m : Memory) (process : ProcessSpace)
    (addr length prot flags fd offset : Word) :
    k.syscallMmap m process addr length prot flags fd offset =
      if length = 0 then some (0, m, process)
      else
        let advanced :=
          process.mmapAdvance addr (pageAlignUp length) (pageAlignUp_aligned length)
        match process.mmapNode flags fd with
        | none => some (ebadf, m, advanced)
        | some node =>
            (k.mmapBlock advanced.pageTable (process.mmapTarget addr) length prot offset node m).map
              fun r => (r.1, r.2, advanced) := by
  rw [Machine.syscallMmap]
  split
  · rfl
  simp only [ProcessSpace.mmapNode_mmapAdvance]
  cases process.mmapNode flags fd with
  | none => rfl
  | some node =>
      simp only [Machine.mmapBlock]
      split
      · rfl
      · rw [Option.map_map]
        congr 1
        funext m
        rw [Function.comp_apply]
        split <;> rfl

/-- `mmap` takes its vnode from the table. -/
theorem mmapOutcome_mmapFd (target : Word) (w : FileWorld σ) :
    mmapOutcome (mmapFd kernel regs target w) =
      match (w.process kernel).mmapNode regs.arg4 regs.arg5 with
      | none => some (ebadf, w.mem, w.space.mmapCurrent)
      | some node =>
          (kernel.machine.mmapBlock w.space.pageTable target regs.arg2 regs.arg3 regs.arg6 node
            w.mem).map fun r => (r.1, r.2, w.space.mmapCurrent) := by
  have hslt : regs.arg5.slt 0 = decide (regs.arg5.toInt < 0) := rfl
  rw [mmapFd, ProcessSpace.mmapNode, hslt]
  by_cases hanon : (hasBits regs.arg4 mapAnonymous || decide (regs.arg5.toInt < 0)) = true
  · rw [if_pos hanon, if_pos hanon, mmapOutcome_nodePages]
  have hneg : ¬ regs.arg5.toInt < 0 := fun h => hanon (by simp [h])
  have hindex : ((regs.arg5.toNat : ℕ) : ℤ) = regs.arg5.toInt := by
    rw [BitVec.toInt_eq_toNat_cond] at hneg ⊢
    split_ifs at hneg ⊢ <;> omega
  have hfds : (w.process kernel).fds regs.arg5.toNat =
      if (w.fds regs.arg5.toInt).vnode = 0 then none
      else some (kernel.file w.files (w.fds regs.arg5.toInt).vnode) := by
    rw [← hindex]
    rfl
  rw [if_neg hanon, if_neg hanon, if_neg hneg, if_neg (by simpa using hneg), hfds]
  change mmapOutcome ((if (w.fds regs.arg5.toInt).vnode = 0 then Pure.pure ebadf
    else mmapFile kernel regs target regs.arg5.toInt)
      { w with touched := regs.arg5.toInt :: w.touched }) = _
  split
  · rfl
  · exact mmapOutcome_nodePages kernel regs target _ _

/-- The handler is the `mmap` of the memory calls, with the descriptor table of the
process as its list of vnodes. -/
theorem mmapOutcome_syscallMmapFd (w : FileWorld σ) :
    mmapOutcome (syscallMmapFd kernel regs w) =
      (kernel.machine.syscallMmap w.mem (w.process kernel) regs.arg1 regs.arg2 regs.arg3
        regs.arg4 regs.arg5 regs.arg6).map fun r => (r.1, r.2.1, r.2.2.mmapCurrent) := by
  rw [syscallMmap_eq, syscallMmapFd]
  by_cases hlength : regs.arg2 = 0
  · rw [if_pos hlength, if_pos hlength]
    rfl
  rw [if_neg hlength, if_neg hlength]
  change mmapOutcome (mmapFd kernel regs _ { w with space := _ }) = _
  rw [mmapOutcome_mmapFd]
  change (match (w.process kernel).mmapNode regs.arg4 regs.arg5 with
    | none => _
    | some node => _) = _
  cases (w.process kernel).mmapNode regs.arg4 regs.arg5 with
  | none =>
      simp only [ProcessSpace.mmapCurrent_mmapAdvance, Option.map_some]
      rfl
  | some node =>
      simp only [ProcessSpace.pageTable_mmapAdvance, ProcessSpace.mmapCurrent_mmapAdvance,
        Option.map_map, Function.comp_def]
      rfl

end Mmap

end Utopia
