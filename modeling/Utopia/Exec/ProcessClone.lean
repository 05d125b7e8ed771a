/-
`process_clone` of `exec/process.c` with `thread_clone_user` and what it calls of
`exec/scheduler.c`: fork as a sequence of allocations, each with its way back.
-/
import Utopia.Exec.MmapCall
import Utopia.Exec.Scheduler
import Utopia.Mm.CloneSpace

namespace Utopia

/-! ### The objects -/

structure X86Registers where
  rax : Word
  /-- `rbx` to `r15`. -/
  general : Fin 14 → Word
  intNo : Word
  errCode : Word
  rip : Word
  cs : Word
  rflags : Word
  rsp : Word
  ss : Word

structure RiscvRegisters where
  x : Fin 32 → Word
  scause : Word
  stval : Word
  sepc : Word
  sstatus : Word

/-- `registers_t`. -/
inductive Registers where
  | x86_64 (regs : X86Registers)
  | riscv64 (regs : RiscvRegisters)

namespace Registers

/-- A frame that was cleared. -/
def zero : Arch → Registers
  | .x86_64 => .x86_64 ⟨0, fun _ => 0, 0, 0, 0, 0, 0, 0, 0⟩
  | .riscv64 => .riscv64 ⟨fun _ => 0, 0, 0, 0, 0⟩

/-- The stack pointer. -/
def sp : Registers → Word
  | .x86_64 regs => regs.rsp
  | .riscv64 regs => regs.x 2

def setSp (value : Word) : Registers → Registers
  | .x86_64 regs => .x86_64 { regs with rsp := value }
  | .riscv64 regs => .riscv64 { regs with x := Function.update regs.x 2 value }

/-- The frame of the child: it returns 0 from the system call. -/
def forChild : Registers → Registers
  | .x86_64 regs =>
      .x86_64 { regs with
        rax := 0
        intNo := 0
        errCode := 0
        cs := 0x28 ||| 3
        ss := 0x20 ||| 3
        rflags := regs.rflags ||| 0x202 }
  | .riscv64 regs =>
      .riscv64 { regs with
        x := Function.update regs.x 10 0
        sepc := regs.sepc + 4 }

end Registers

/-- `thread_stack_t`.  Here and below `obj` is the address of the object, and its
fields are kept here instead of in the bytes at `obj`. -/
structure ThreadStack where
  obj : Word
  ptr : Word
  base : Word
  size : Word
  userMapped : Bool

/-- `thread_t`, with the frame that `regs` points to. -/
structure ThreadObject where
  obj : Word
  id : BitVec 32
  name : List Byte
  state : ThreadState
  process : Word
  fsBase : Word
  main : Option ThreadStack
  kernel : Option ThreadStack
  ring : Nat
  regs : Word
  frame : Registers

/-- `file_desc_t`. -/
structure FileDesc where
  vnode : Word
  offset : Word
  flags : BitVec 32
  used : Bool
deriving DecidableEq, Repr

/-- `process_t`. -/
structure ProcessObject where
  obj : Word
  pid : BitVec 32
  ppid : BitVec 32
  name : List Byte
  pageTable : Word
  brkStart : Word
  brkCurrent : Word
  mmapStart : Word
  mmapCurrent : Word
  mainThread : Word
  fds : List FileDesc
  syscallConv : BitVec 32
  ownedPages : PageList
  zombie : Bool
  exitStatus : BitVec 32
  mainTid : BitVec 32

/-- The memory with the lists and counters of `process.c` and `scheduler.c`: newest
process first, oldest ready thread first. -/
structure KernelState where
  mem : Memory
  processes : List ProcessObject
  ready : List ThreadObject
  zombies : List ThreadObject
  nextPid : BitVec 32
  nextThreadId : BitVec 32

/-- `process_clone_opts_t`. -/
structure CloneOpts where
  childStack : Word
  setTls : Bool
  tls : Word
  childTidAddr : Word

def sizeofProcess : Word := 928
def sizeofThread : Word := 112
def sizeofThreadStack : Word := 32

def sizeofRegisters : Arch → Word
  | .x86_64 => 176
  | .riscv64 => 288

def threadKernelStackSize : Word := 16 * 1024
def userStackSize : Word := 8 * 1024 * 1024
def userStackTop : Word := (1 <<< 47) - 0x1000

/-- `stack_lo`. -/
def userStackLow : Word := userStackTop - userStackSize

/-- The pages of a user stack. -/
def userStackPages : Nat := 2048

/-- The name that `thread_set_name` stores. -/
def threadSetName (name : List Byte) : List Byte := (name.takeWhile (· ≠ 0)).take 31

namespace Machine

variable (k : Machine)

/-- `malloc` and `memset` to zero; `calloc` does the same. -/
def zalloc (m : Memory) (size : Word) : Word × Memory :=
  let (p, m) := k.alloc.malloc m size
  if p = 0 then (0, m) else (p, m.fill p size.toNat 0)

/-! ### Threads -/

def kernelStackAlloc (m : Memory) : Option ThreadStack × Memory :=
  let (ks, m) := k.alloc.malloc m sizeofThreadStack
  if ks = 0 then (none, m)
  else
    let (base, m) := k.zalloc m threadKernelStackSize
    if base = 0 then (none, k.alloc.free m ks)
    else (some ⟨ks, base + threadKernelStackSize, base, threadKernelStackSize, false⟩, m)

def tcbAlloc (s : KernelState) (name : List Byte) : Option ThreadObject × KernelState :=
  let (t, m) := k.zalloc s.mem sizeofThread
  if t = 0 then (none, { s with mem := m })
  else
    let (regs, m) := k.zalloc m (sizeofRegisters k.arch)
    if regs = 0 then (none, { s with mem := k.alloc.free m t })
    else
      (some
        { obj := t
          id := s.nextThreadId
          name := threadSetName name
          state := .uninitialised
          process := 0
          fsBase := 0
          main := none
          kernel := none
          ring := 0
          regs := regs
          frame := Registers.zero k.arch },
        { s with mem := m, nextThreadId := s.nextThreadId + 1 })

/-- The calls of `free` on a stack in `scheduler_reap`. -/
def freeStack (m : Memory) : Option ThreadStack → Memory
  | none => m
  | some stack => k.alloc.free (k.alloc.free m stack.base) stack.obj

/-- The body of the loop of `scheduler_reap`. -/
def freeThread (m : Memory) (t : ThreadObject) : Memory :=
  let m := k.freeStack m t.kernel
  let m := k.freeStack m t.main
  let m := if t.regs ≠ 0 then k.alloc.free m t.regs else m
  k.alloc.free m t.obj

def schedulerReap (s : KernelState) : KernelState :=
  { s with mem := s.zombies.foldl k.freeThread s.mem, zombies := [] }

def threadCloneUser (s : KernelState) (parent : ThreadObject) (frame : Registers)
    (userStack : ThreadStack) (fsBase : Word) : Option ThreadObject × KernelState :=
  let s := k.schedulerReap s
  match k.tcbAlloc s parent.name with
  | (none, s) => (none, s)
  | (some t, s) =>
      match k.kernelStackAlloc s.mem with
      | (none, m) => (none, { s with mem := k.alloc.free (k.alloc.free m t.regs) t.obj })
      | (some ks, m) =>
          (some
            { t with
              kernel := some ks
              main := some userStack
              ring := 3
              fsBase := fsBase
              frame := frame.forChild },
            { s with mem := m })

/-! ### The stack of the child -/

def threadStackRelease (m : Memory) (stack : ThreadStack) : Memory :=
  let m := if stack.base ≠ 0 then k.alloc.free m stack.base else m
  k.alloc.free m stack.obj

/-- The mapping loop: the block behind the pages of the user stack. -/
def mapUserStack (m : Memory) (table block : Word) : Int × Memory :=
  forEach (fun i m => k.mapPage4k m table (userStackLow + BitVec.ofNat 64 i * 0x1000)
    (k.hhdmVirtToPhys (block + BitVec.ofNat 64 i * 0x1000)) ⟨true, true, false, false⟩)
    (List.range userStackPages) m

/-- `copy_from`. -/
def copyFrom (userSp : Word) : Word :=
  let copyFrom := if 128 ≤ userSp then userSp - 128 else 0
  let copyFrom := if copyFrom < userStackLow ∨ userStackTop < copyFrom then userStackLow
    else copyFrom
  if userSp < userStackLow ∨ userStackTop < userSp then userStackLow else copyFrom

/-- `memcpy` of `n` bytes at the user address `src` of the running process; no result if it
faults. -/
def copyUser (m : Memory) (table dst src : Word) (n : Nat) : Option Memory :=
  if ∀ i < n, k.vmUserToKernel m table (src + BitVec.ofNat 64 i) ≠ 0 then
    some fun x =>
      if (x - dst).toNat < n then m (k.vmUserToKernel m table (src + (x - dst))) else m x
  else none

def copyUserStack (m : Memory) (table block userSp : Word) : Option Memory :=
  let from_ := copyFrom userSp
  k.copyUser m table (block + (from_ - userStackLow)) from_ (userStackTop - from_).toNat

/-! ### `process_clone` -/

/-- `fail_pt`. -/
def failPt (m : Memory) (child table : Word) (owned : PageList) : Memory :=
  let m := k.freePageTable m table
  let (m, _) := k.alloc.pageListFree m owned
  k.alloc.free m child

/-- The four bytes of a store of `v`. -/
def storeU32 (m : Memory) (p : Word) (v : BitVec 32) : Memory :=
  m.store p ((List.range 4).map fun i => (v >>> (8 * i)).setWidth 8)

/-- The options, and the place of the new thread id in the memory of the child. -/
def applyOpts (m : Memory) (table : Word) (t : ThreadObject) :
    Option CloneOpts → ThreadObject × Memory
  | none => (t, m)
  | some opts =>
      let t := if opts.childStack ≠ 0 then { t with frame := t.frame.setSp opts.childStack } else t
      let t :=
        if opts.setTls then
          match t.frame with
          | .x86_64 _ => { t with fsBase := opts.tls }
          | .riscv64 regs =>
              { t with frame := .riscv64 { regs with x := Function.update regs.x 4 opts.tls } }
        else t
      let slot := if opts.childTidAddr ≠ 0 then k.vmUserToKernel m table opts.childTidAddr else 0
      (t, if slot ≠ 0 then storeU32 m slot t.id else m)

/-- What follows once the child has its address space `table`. -/
def processCloneInto (s : KernelState) (parent : ProcessObject) (parentThread : ThreadObject)
    (frame : Registers) (opts : Option CloneOpts) (msrFsBase child table : Word)
    (owned : PageList) : Option (Word × KernelState) :=
  let (stackObj, m) := k.alloc.malloc s.mem sizeofThreadStack
  let (block, m) :=
    if stackObj ≠ 0 then k.alloc.pageAlloc m (userStackSize / 0x1000) else (0, m)
  if block = 0 then
    let m := if stackObj ≠ 0 then k.alloc.free m stackObj else m
    some (0, { s with mem := k.failPt m child table owned })
  else
    let m := m.fill block userStackSize.toNat 0
    let stack : ThreadStack := ⟨stackObj, frame.sp, block, userStackSize, true⟩
    let (status, m) := k.mapUserStack m table block
    if status ≠ 0 then
      some (0, { s with mem := k.failPt (k.threadStackRelease m stack) child table owned })
    else
      (k.copyUserStack m parent.pageTable block frame.sp).map fun m =>
        let pid := s.nextPid
        let s := { s with mem := m, nextPid := pid + 1 }
        let fsBase := match k.arch with
          | .x86_64 => msrFsBase
          | .riscv64 => parentThread.fsBase
        match k.threadCloneUser s parentThread frame stack fsBase with
        | (none, s) =>
            (0, { s with mem := k.failPt (k.threadStackRelease s.mem stack) child table owned })
        | (some t, s) =>
            let (t, m) := k.applyOpts s.mem table { t with process := child } opts
            let process : ProcessObject :=
              { obj := child
                pid := pid
                ppid := parent.pid
                name := parent.name
                pageTable := table
                brkStart := parent.brkStart
                brkCurrent := parent.brkCurrent
                mmapStart := parent.mmapStart
                mmapCurrent := parent.mmapCurrent
                mainThread := t.obj
                fds := parent.fds
                syscallConv := parent.syscallConv
                ownedPages := owned
                zombie := false
                exitStatus := 0
                mainTid := t.id }
            (child,
              { s with
                mem := m
                processes := process :: s.processes
                ready := s.ready ++ [{ t with state := .ready }] })

/-- The child, or null; no result if the kernel faults on the stack of the parent. -/
def processClone (s : KernelState) (parent : Option ProcessObject)
    (parentThread : Option ThreadObject) (frame : Option Registers) (opts : Option CloneOpts)
    (msrFsBase : Word) : Option (Word × KernelState) :=
  match parent, parentThread, frame with
  | some parent, some parentThread, some frame =>
      let (child, m) := k.zalloc s.mem sizeofProcess
      if child = 0 then some (0, { s with mem := m })
      else
        let (table, m, owned) :=
          k.cloneUserAddressSpace m parent.pageTable userStackLow userStackTop PageList.empty
        if table = 0 then some (0, { s with mem := k.alloc.free m child })
        else
          k.processCloneInto { s with mem := m } parent parentThread frame opts msrFsBase child
            table owned
  | _, _, _ => some (0, s)

end Machine

end Utopia
