/-
The functions of the kernel that take a spinlock with the interrupts off: how each leaves the
interrupt flag and the locks.
-/
import Utopia.Arch.Pte
import Utopia.Drivers.Keyboard
import Utopia.Exec.Process
import Utopia.Exec.Scheduler
import Utopia.Lib.Critical
import Utopia.Lib.Fields
import Utopia.Mm.Pmm

namespace Utopia

/-- The interrupt flag: bit 9 of `rflags`, and `SIE` of `sstatus`. -/
def interruptBit : Arch → ℕ
  | .x86_64 => 9
  | .riscv64 => 1

/-- `spin` of `mm/pmm.c`, and the others under their names. -/
inductive SpinLock where
  | spin
  | fbSpinlock
  | kbdLock
  | schedulerLock
  | processLock
deriving DecidableEq, Repr

/-- `kernel_message_type_t`. -/
inductive KernelMessageType where
  | log
  | error
  | debug
  | extraDebug
deriving DecidableEq, Repr

/-- A line of the console, with the time in nanoseconds. -/
structure KernelMessage where
  ticks : Word
  type : KernelMessageType
  module : List Byte
  text : List Byte
deriving DecidableEq, Repr

/-- The variables of `lib/screen.c` that `printk` uses, and the lines printed. -/
structure KernelConsole where
  spinlockInitialized : Bool
  consoleSuspended : Bool
  lines : List KernelMessage

/-- `thread_stack_t`: where its memory and the object itself lie. -/
structure StackObject where
  base : Word
  self : Word

/-- The objects that belong to a thread. -/
structure ThreadObjects where
  kernel : Option StackObject
  main : Option StackObject
  regs : Word

/-- What the functions work on.  `nsTime` is the value of `arch_get_ns_time`. -/
structure KernelData where
  mem : Memory
  head : Word
  pmmInitialized : Bool
  keyboard : Keyboard
  kbdWq : ℕ
  scheduler : Scheduler
  objects : ThreadPtr → ThreadObjects
  processes : ProcessTable
  console : KernelConsole
  nsTime : Word
  locked : SpinLock → Bool

/-- Why a call does not return: it panics, or walks a list that has no end. -/
inductive NoReturn where
  | panic
  | endless
deriving DecidableEq, Repr

/-- Code of the kernel on one processor. -/
abbrev KernelCode := EStateM NoReturn (Cpu SpinLock KernelData)

def setLocked (l : SpinLock) (value : Bool) (k : KernelData) : KernelData :=
  { k with locked := Function.update k.locked l value }

/-- The locks, for what the other processors do while this one waits for one. -/
def kernelLocks (others : ℕ → SpinLock → KernelData → KernelData) : Locks SpinLock KernelData where
  others := others
  setLocked := setLocked

namespace KernelCode

def update (f : KernelData → KernelData) : KernelCode PUnit :=
  onShared fun k => .ok ((), f k)

/-- A walk of lists, that ends or not. -/
def walkLists {α : Type} (f : KernelData → Option (α × KernelData)) : KernelCode α :=
  onShared fun k =>
    match f k with
    | none => .error .endless
    | some r => .ok r

section Functions

variable (arch : Arch) (others : ℕ → SpinLock → KernelData → KernelData)

def archSaveInterrupts : KernelCode Word := saveInterrupts (interruptBit arch)

def archRestoreInterrupts (flags : Word) : KernelCode PUnit :=
  restoreInterrupts (interruptBit arch) flags

def acquire (l : SpinLock) : KernelCode PUnit := spinlockAcquire (kernelLocks others) l

def release (l : SpinLock) : KernelCode PUnit := spinlockRelease (kernelLocks others) l

/-! ### `mm/pmm.c` -/

def malloc (size : Word) : KernelCode Word := do
  if !(← readShared).pmmInitialized then throw .panic
  if size = 0 then return 0
  let flags ← archSaveInterrupts arch
  acquire others .spin
  let result ← walkLists fun k =>
    (malloc? k.head k.mem size).map fun r => (r.1, { k with mem := r.2 })
  release others .spin
  archRestoreInterrupts arch flags
  return result

def free (ptr : Word) : KernelCode PUnit := do
  if ptr = 0 then return
  let flags ← archSaveInterrupts arch
  acquire others .spin
  walkLists fun k => (free? k.head k.mem ptr).map fun m => (⟨⟩, { k with mem := m })
  release others .spin
  archRestoreInterrupts arch flags

def pageAlloc (pages : Word) : KernelCode Word := do
  let flags ← archSaveInterrupts arch
  acquire others .spin
  let result ← walkLists fun k =>
    (pageAlloc? k.head k.mem pages).map fun r => (r.1, { k with mem := r.2 })
  release others .spin
  archRestoreInterrupts arch flags
  return result

/-! ### `lib/screen.c` -/

/-- The line that `printk` prints. -/
def printLine (type : KernelMessageType) (module text : List Byte) (k : KernelData) :
    KernelData :=
  { k with console :=
      { k.console with lines := k.console.lines ++ [⟨k.nsTime, type, module, text⟩] } }

/-- The first call initialises the lock. -/
def initSpinlock (k : KernelData) : KernelData :=
  if !k.console.spinlockInitialized then
    { setLocked .fbSpinlock false k with
      console := { k.console with spinlockInitialized := true } }
  else k

/-- `text` is what `vprintf` makes of the format and its arguments. -/
def printk (type : KernelMessageType) (module text : List Byte) : KernelCode PUnit := do
  let flags ← archSaveInterrupts arch
  update initSpinlock
  acquire others .fbSpinlock
  if (← readShared).console.consoleSuspended then
    -- the flags are not restored here
    release others .fbSpinlock
    return
  update (printLine type module text)
  release others .fbSpinlock
  archRestoreInterrupts arch flags

/-! ### `exec/scheduler.c` -/

def schedLock : KernelCode Word := do
  let flags ← archSaveInterrupts arch
  acquire others .schedulerLock
  return flags

def schedUnlock (flags : Word) : KernelCode PUnit := do
  release others .schedulerLock
  archRestoreInterrupts arch flags

def schedulerEnqueue (t : ThreadPtr) : KernelCode PUnit := do
  let flags ← schedLock arch others
  update fun k => { k with scheduler := k.scheduler.enqueueLocked t }
  schedUnlock arch others flags

def schedulerWakeAll (wq : ℕ) : KernelCode PUnit := do
  let flags ← schedLock arch others
  walkLists fun k => (k.scheduler.wakeAll wq).map fun s => (⟨⟩, { k with scheduler := s })
  schedUnlock arch others flags

/-- A stack that a thread has. -/
def freeStack : Option StackObject → KernelCode PUnit
  | none => return
  | some stack => do
      free arch others stack.base
      free arch others stack.self

/-- The loop of `scheduler_reap`, for the run `n` of it. -/
def reapLoop (n : ℕ) : (fuel : ℕ) → KernelCode PUnit
  | 0 => throw .endless
  | fuel + 1 => do
      let k ← readShared
      match k.scheduler.detached n with
      | none => return
      | some t =>
          let objects := k.objects t
          freeStack arch others objects.kernel
          freeStack arch others objects.main
          if objects.regs ≠ 0 then free arch others objects.regs
          free arch others t
          update fun k => { k with scheduler := k.scheduler.reapFree n }
          reapLoop n fuel

def schedulerReap (n : ℕ) : KernelCode PUnit := do
  if (← readShared).scheduler.zombieList.isNone then return
  let flags ← schedLock arch others
  update fun k => { k with scheduler := k.scheduler.reapDetach n }
  schedUnlock arch others flags
  reapLoop arch others n (2 ^ 64)

/-! ### `drivers/keyboard/keyboard.c` -/

def kbdPush (c : Byte) : KernelCode PUnit := do
  let flags ← archSaveInterrupts arch
  acquire others .kbdLock
  update fun k => { k with keyboard := Utopia.kbdPush k.keyboard c }
  release others .kbdLock
  archRestoreInterrupts arch flags
  schedulerWakeAll arch others (← readShared).kbdWq

def kbdPop : KernelCode (Option Byte) := do
  let flags ← archSaveInterrupts arch
  acquire others .kbdLock
  let c ← onShared fun k =>
    .ok ((Utopia.kbdPop k.keyboard).1, { k with keyboard := (Utopia.kbdPop k.keyboard).2 })
  release others .kbdLock
  archRestoreInterrupts arch flags
  return c

/-! ### `exec/process.c` -/

/-- The section of `process_wait_child`: what it returns, and the process that it found. -/
def waitChild (parent : ProcessPtr) (pid : BitVec 32) (statusOut : Word)
    (k : KernelData) : Option ((BitVec 32 × Option ProcessPtr) × KernelData) := do
  let (_, found) ← k.processes.waitLoop parent pid ProcessTable.maxNodes false
    k.processes.links.head
  let (ret, status, processes) ← k.processes.processWaitChild parent pid
  let mem := match status with
    | some status =>
        if statusOut ≠ 0 then k.mem.storeField statusOut 4 (status.setWidth 64) else k.mem
    | none => k.mem
  return ((ret, found), { k with processes := processes, mem := mem })

def freeFound : Option ProcessPtr → KernelCode PUnit
  | none => return
  | some found => free arch others found

def processWaitChild (parent : Option ProcessPtr) (pid : BitVec 32) (statusOut : Word) :
    KernelCode (BitVec 32) :=
  match parent with
  | none => return -1
  | some parent => do
      let irq ← archSaveInterrupts arch
      acquire others .processLock
      let r ← walkLists (waitChild parent pid statusOut)
      release others .processLock
      archRestoreInterrupts arch irq
      freeFound arch others r.2
      return r.1

end Functions

/-! ### Sections -/

section Restored

variable {arch : Arch} {others : ℕ → SpinLock → KernelData → KernelData} {α : Type}

theorem interruptBit_lt : interruptBit arch < 64 := by
  cases arch <;> decide

/-- A section under one of the locks, and what comes behind it. -/
theorem section_balanced (l : SpinLock) {x : KernelCode α} {β : Type} {f : α → KernelCode β}
    (hx : Quiet x) (hf : ∀ a, Balanced (interruptBit arch) (f a)) :
    Balanced (interruptBit arch) (do
      let flags ← archSaveInterrupts arch
      acquire others l
      let a ← x
      release others l
      archRestoreInterrupts arch flags
      f a) :=
  Balanced.locked interruptBit_lt l hx hf

/-- A section at the end of a function. -/
theorem last_section_balanced (l : SpinLock) {x : KernelCode α} (hx : Quiet x) :
    Balanced (interruptBit arch) (do
      let flags ← archSaveInterrupts arch
      acquire others l
      let _ ← x
      release others l
      archRestoreInterrupts arch flags) := by
  have hsection := @section_balanced arch others _ l _ _ _ hx
    fun _ => Balanced.pure PUnit.unit
  simpa only [bind_pure_unit] using hsection

theorem malloc_balanced (size : Word) :
    Balanced (interruptBit arch) (malloc arch others size) := by
  rw [malloc]
  refine Balanced.bind Quiet.readShared.balanced fun k => ?_
  refine Balanced.ite (fun _ => ?_) fun _ => ?_
  · exact Balanced.throw_bind _
  refine Balanced.ite (fun _ => Balanced.pure _) fun _ => ?_
  exact section_balanced .spin (Quiet.onShared _) fun _ => Balanced.pure _

theorem free_balanced (ptr : Word) : Balanced (interruptBit arch) (free arch others ptr) := by
  rw [free]
  refine Balanced.ite (fun _ => Balanced.pure _) fun _ => ?_
  exact last_section_balanced .spin (Quiet.onShared _)

theorem pageAlloc_balanced (pages : Word) :
    Balanced (interruptBit arch) (pageAlloc arch others pages) :=
  section_balanced .spin (Quiet.onShared _) fun _ => Balanced.pure _

/-- A section of the scheduler. -/
theorem sched_balanced {x : KernelCode α} {β : Type} {f : α → KernelCode β} (hx : Quiet x)
    (hf : ∀ a, Balanced (interruptBit arch) (f a)) :
    Balanced (interruptBit arch) (do
      let flags ← schedLock arch others
      let a ← x
      schedUnlock arch others flags
      f a) := by
  simp only [schedLock, schedUnlock, bind_assoc, pure_bind]
  exact section_balanced .schedulerLock hx hf

theorem last_sched_balanced {x : KernelCode α} (hx : Quiet x) :
    Balanced (interruptBit arch) (do
      let flags ← schedLock arch others
      let _ ← x
      schedUnlock arch others flags) := by
  have hsection := @sched_balanced arch others _ _ _ _ hx
    fun _ => Balanced.pure PUnit.unit
  simpa only [bind_pure_unit] using hsection

theorem schedulerEnqueue_balanced (t : ThreadPtr) :
    Balanced (interruptBit arch) (schedulerEnqueue arch others t) :=
  last_sched_balanced (Quiet.onShared _)

theorem schedulerWakeAll_balanced (wq : ℕ) :
    Balanced (interruptBit arch) (schedulerWakeAll arch others wq) :=
  last_sched_balanced (Quiet.onShared _)

theorem freeStack_balanced (stack : Option StackObject) :
    Balanced (interruptBit arch) (freeStack arch others stack) := by
  cases stack with
  | none => exact Balanced.pure _
  | some stack => exact Balanced.bind (free_balanced _) fun _ => free_balanced _

/-- Each round of the loop frees objects of one thread, one section behind the other. -/
theorem reapLoop_balanced (n fuel : ℕ) :
    Balanced (interruptBit arch) (reapLoop arch others n fuel) := by
  induction fuel with
  | zero => exact Balanced.throw _
  | succ fuel ih =>
      rw [reapLoop]
      refine Balanced.bind Quiet.readShared.balanced fun k => ?_
      cases k.scheduler.detached n with
      | none => exact Balanced.pure _
      | some t =>
          refine Balanced.bind (freeStack_balanced _) fun _ => ?_
          refine Balanced.bind (freeStack_balanced _) fun _ => ?_
          have hrest : Balanced (interruptBit arch) (do
              free arch others t
              update fun k => { k with scheduler := k.scheduler.reapFree n }
              reapLoop arch others n fuel) :=
            Balanced.bind (free_balanced _) fun _ =>
              Balanced.bind (Quiet.onShared _).balanced fun _ => ih
          refine Balanced.ite (fun _ => ?_) fun _ => hrest
          exact Balanced.bind (free_balanced _) fun _ => hrest

theorem schedulerReap_balanced (n : ℕ) :
    Balanced (interruptBit arch) (schedulerReap arch others n) := by
  rw [schedulerReap]
  refine Balanced.bind Quiet.readShared.balanced fun k => ?_
  refine Balanced.ite (fun _ => Balanced.pure _) fun _ => ?_
  exact sched_balanced (Quiet.onShared _) fun _ => reapLoop_balanced n _

theorem kbdPush_balanced (c : Byte) : Balanced (interruptBit arch) (kbdPush arch others c) :=
  section_balanced .kbdLock (Quiet.onShared _) fun _ =>
    Balanced.bind Quiet.readShared.balanced fun _ => schedulerWakeAll_balanced _

theorem kbdPop_balanced : Balanced (interruptBit arch) (kbdPop arch others) :=
  section_balanced .kbdLock (Quiet.onShared _) fun _ => Balanced.pure _

theorem freeFound_balanced (found : Option ProcessPtr) :
    Balanced (interruptBit arch) (freeFound arch others found) := by
  cases found with
  | none => exact Balanced.pure _
  | some found => exact free_balanced _

theorem processWaitChild_balanced (parent : Option ProcessPtr) (pid : BitVec 32)
    (statusOut : Word) :
    Balanced (interruptBit arch) (processWaitChild arch others parent pid statusOut) := by
  cases parent with
  | none => exact Balanced.pure _
  | some parent =>
      exact section_balanced .processLock (Quiet.onShared _) fun r =>
        Balanced.bind (freeFound_balanced _) fun _ => Balanced.pure _

/-! ### `printk` -/

/-- The console is suspended when `printk` gets the lock. -/
def SuspendedAtLock (others : ℕ → SpinLock → KernelData → KernelData)
    (s : Cpu SpinLock KernelData) : Prop :=
  (others s.time .fbSpinlock (initSpinlock s.shared)).console.consoleSuspended = true

/-- The state in which `printk` gets the lock. -/
def atLock (arch : Arch) (others : ℕ → SpinLock → KernelData → KernelData)
    (s : Cpu SpinLock KernelData) : Cpu SpinLock KernelData where
  flags := s.flags &&& ~~~(1#64 <<< interruptBit arch)
  held := .fbSpinlock :: s.held
  time := s.time + 1
  shared := setLocked .fbSpinlock true (others s.time .fbSpinlock (initSpinlock s.shared))

variable {type : KernelMessageType} {module text : List Byte} {s : Cpu SpinLock KernelData}

/-- `printk` once it has the lock. -/
theorem printk_run : printk arch others type module text s =
    (if (atLock arch others s).shared.console.consoleSuspended then do
        release others .fbSpinlock
        return
      else do
        update (printLine type module text)
        release others .fbSpinlock
        archRestoreInterrupts arch s.flags : KernelCode PUnit) (atLock arch others s) := by
  have hsave : archSaveInterrupts arch s =
      .ok s.flags { s with flags := s.flags &&& ~~~(1#64 <<< interruptBit arch) } := rfl
  have hinit : update initSpinlock { s with flags := s.flags &&& ~~~(1#64 <<< interruptBit arch) } =
      .ok ⟨⟩ { s with
        flags := s.flags &&& ~~~(1#64 <<< interruptBit arch)
        shared := initSpinlock s.shared } := rfl
  have hacquire : acquire others .fbSpinlock { s with
        flags := s.flags &&& ~~~(1#64 <<< interruptBit arch)
        shared := initSpinlock s.shared } = .ok ⟨⟩ (atLock arch others s) := rfl
  have hread : readShared (atLock arch others s) =
      (.ok (atLock arch others s).shared (atLock arch others s) :
        EStateM.Result NoReturn _ _) := rfl
  rw [printk, bind_of_ok hsave, bind_of_ok hinit, bind_of_ok hacquire, bind_of_ok hread]

/-- `printk` returns, and leaves the locks as they were, but it leaves the interrupts off if
it finds the console suspended. -/
theorem printk_ends : ∃ s', printk arch others type module text s = .ok ⟨⟩ s' ∧
    s'.held = s.held ∧ s'.flags.getLsbD (interruptBit arch) =
      (s.flags.getLsbD (interruptBit arch) && !(atLock arch others s).shared.console.consoleSuspended) := by
  rw [printk_run]
  have hheld : (atLock arch others s).held.erase .fbSpinlock = s.held := List.erase_cons_head ..
  cases hsuspended : (atLock arch others s).shared.console.consoleSuspended with
  | true =>
      refine ⟨_, rfl, hheld, ?_⟩
      change (s.flags &&& ~~~(1#64 <<< interruptBit arch)).getLsbD (interruptBit arch) = _
      simp [interruptBit_lt]
  | false =>
      have hrestored := Balanced.flag_restored (@interruptBit_lt arch) s.flags
      have hrestore : ∀ t : Cpu SpinLock KernelData, archRestoreInterrupts arch s.flags t =
          .ok ⟨⟩ { t with flags := if s.flags.getLsbD (interruptBit arch) then
            t.flags ||| (1#64 <<< interruptBit arch) else t.flags } := by
        intro t
        rw [archRestoreInterrupts, restoreInterrupts]
        split_ifs <;> rfl
      refine ⟨_, (bind_of_ok rfl).trans ((bind_of_ok rfl).trans (hrestore _)), hheld, ?_⟩
      rw [Bool.not_false, Bool.and_true]
      exact hrestored

end Restored

end KernelCode

/-! ### Calls -/

/-- The calls of the functions above. -/
inductive LockedCall where
  | malloc (size : Word)
  | free (ptr : Word)
  | pageAlloc (pages : Word)
  | printk (type : KernelMessageType) (module text : List Byte)
  | kbdPush (c : Byte)
  | kbdPop
  | schedulerEnqueue (t : ThreadPtr)
  | schedulerReap (n : ℕ)
  | schedulerWakeAll (wq : ℕ)
  | processWaitChild (parent : Option ProcessPtr) (pid : BitVec 32) (statusOut : Word)

namespace LockedCall

variable (arch : Arch) (others : ℕ → SpinLock → KernelData → KernelData)

/-- The call, without its result. -/
def run : LockedCall → KernelCode PUnit
  | malloc size => do let _ ← KernelCode.malloc arch others size
  | free ptr => KernelCode.free arch others ptr
  | pageAlloc pages => do let _ ← KernelCode.pageAlloc arch others pages
  | printk type module text => KernelCode.printk arch others type module text
  | kbdPush c => KernelCode.kbdPush arch others c
  | kbdPop => do let _ ← KernelCode.kbdPop arch others
  | schedulerEnqueue t => KernelCode.schedulerEnqueue arch others t
  | schedulerReap n => KernelCode.schedulerReap arch others n
  | schedulerWakeAll wq => KernelCode.schedulerWakeAll arch others wq
  | processWaitChild parent pid statusOut => do
      let _ ← KernelCode.processWaitChild arch others parent pid statusOut

/-- If the call returns, the interrupt flag is as it was, and so are the locks that the
processor holds. -/
def Restores (call : LockedCall) (s : Cpu SpinLock KernelData) : Prop :=
  ∀ s', call.run arch others s = .ok ⟨⟩ s' →
    s'.flags.getLsbD (interruptBit arch) = s.flags.getLsbD (interruptBit arch) ∧ s'.held = s.held

/-- `printk`, called with the interrupts on, finds the console suspended. -/
def PrintsSuspended (call : LockedCall) (s : Cpu SpinLock KernelData) : Prop :=
  (∃ type module text, call = printk type module text) ∧
    s.flags.getLsbD (interruptBit arch) = true ∧ KernelCode.SuspendedAtLock others s

variable {arch others}

theorem balanced_of_ne_printk {call : LockedCall}
    (h : ∀ type module text, call ≠ printk type module text) :
    Balanced (interruptBit arch) (call.run arch others) := by
  cases call with
  | malloc size => exact (KernelCode.malloc_balanced size).bind fun _ => .pure _
  | free ptr => exact KernelCode.free_balanced ptr
  | pageAlloc pages => exact (KernelCode.pageAlloc_balanced pages).bind fun _ => .pure _
  | printk type module text => exact absurd rfl (h type module text)
  | kbdPush c => exact KernelCode.kbdPush_balanced c
  | kbdPop => exact KernelCode.kbdPop_balanced.bind fun _ => .pure _
  | schedulerEnqueue t => exact KernelCode.schedulerEnqueue_balanced t
  | schedulerReap n => exact KernelCode.schedulerReap_balanced n
  | schedulerWakeAll wq => exact KernelCode.schedulerWakeAll_balanced wq
  | processWaitChild parent pid statusOut =>
      exact (KernelCode.processWaitChild_balanced parent pid statusOut).bind fun _ => .pure _

/-- A call restores what it took, unless it is `printk` with the interrupts on and the
console suspended. -/
theorem restores_iff (call : LockedCall) (s : Cpu SpinLock KernelData) :
    call.Restores arch others s ↔ ¬ call.PrintsSuspended arch others s := by
  by_cases hprintk : ∃ type module text, call = printk type module text
  · obtain ⟨type, module, text, rfl⟩ := hprintk
    obtain ⟨s', hrun, hheld, hflag⟩ := @KernelCode.printk_ends arch others type module text s
    constructor
    · rintro hrestores ⟨-, hon, hsuspended⟩
      have hsame := (hrestores s' hrun).1
      have hread : (KernelCode.atLock arch others s).shared.console.consoleSuspended = true :=
        hsuspended
      rw [hflag, hread, hon] at hsame
      exact absurd hsame (by decide)
    · intro hnot t hrun'
      rw [run, hrun] at hrun'
      cases hrun'
      refine ⟨?_, hheld⟩
      rw [hflag]
      cases hon : s.flags.getLsbD (interruptBit arch) with
      | false => rfl
      | true =>
          have hread : (KernelCode.atLock arch others s).shared.console.consoleSuspended = false :=
            Bool.eq_false_of_not_eq_true fun hsuspended =>
              hnot ⟨⟨type, module, text, rfl⟩, hon, hsuspended⟩
          rw [hread]
          rfl
  · have hne : ∀ type module text, call ≠ printk type module text :=
      fun type module text heq => hprintk ⟨type, module, text, heq⟩
    refine iff_of_true (fun s' hrun => ?_) fun h => hprintk h.1
    exact balanced_of_ne_printk hne s ⟨⟩ s' hrun

end LockedCall

/-- A kernel that has suspended its console. -/
def suspendedKernel : KernelData where
  mem _ := 0
  head := 0
  pmmInitialized := true
  keyboard := ⟨fun _ => 0, 0, 0⟩
  kbdWq := 0
  scheduler := .initial
  objects _ := ⟨none, none, 0⟩
  processes := .initial
  console := ⟨true, true, []⟩
  nsTime := 0
  locked _ := false

/-- A call of `printk` with the interrupts on returns with the interrupts off. -/
theorem not_restores :
    ¬ ∀ (arch : Arch) others (call : LockedCall) s, call.Restores arch others s := by
  intro h
  have hrestores := h .x86_64 (fun _ _ k => k) (.printk .log [] []) ⟨0x202, [], 0, suspendedKernel⟩
    _ rfl
  exact absurd hrestores.1 (by decide)

end Utopia
