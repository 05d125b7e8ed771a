/-
The scheduler of `exec/scheduler.c`: threads linked through one `next` pointer
into the ready queue, the wait queues and the zombie list, and the per-processor
slots between them.  Each function is one critical section under its lock.
-/
import Utopia.Lib.LinkedList
import Mathlib.Data.Set.Insert

namespace Utopia

/-- The address of a `thread_t`; a null pointer is `none`. -/
abbrev ThreadPtr := BitVec 64

inductive ThreadState where
  | ready
  | running
  | blocked
  | terminated
  | uninitialised
deriving DecidableEq, Repr

/-- The fields of `thread_t` that scheduling reads. -/
structure Thread where
  state : ThreadState
  process : Option Nat
  waitingOn : Option Nat
  waitSeq : BitVec 64
  next : Option ThreadPtr
deriving DecidableEq, Repr

/-- `wait_queue_t`. -/
structure WaitQueue where
  head : Option ThreadPtr
  seq : BitVec 64
deriving DecidableEq, Repr

/-- The scheduler's variables, with the slots of each processor.  `detached` is
the local `list` of each run of `scheduler_reap`, `live` the thread objects that
are allocated; `entered` and `left` record the history of the ready queue. -/
structure Scheduler where
  thread : ThreadPtr → Thread
  waitQueue : Nat → WaitQueue
  readyHead : Option ThreadPtr
  readyTail : Option ThreadPtr
  zombieList : Option ThreadPtr
  current : Nat → Option ThreadPtr
  idle : Nat → Option ThreadPtr
  pendingPark : Nat → Option ThreadPtr
  pendingZombie : Nat → Option ThreadPtr
  contextSwitchLock : Bool
  detached : Nat → Option ThreadPtr
  live : Set ThreadPtr
  entered : List ThreadPtr
  left : List ThreadPtr

namespace Scheduler

variable (s : Scheduler)

def next (t : ThreadPtr) : Option ThreadPtr := (s.thread t).next

def setThread (t : ThreadPtr) (v : Thread) : Scheduler :=
  { s with thread := Function.update s.thread t v }

def setState (t : ThreadPtr) (v : ThreadState) : Scheduler :=
  s.setThread t { s.thread t with state := v }

def setNext (t : ThreadPtr) (v : Option ThreadPtr) : Scheduler :=
  s.setThread t { s.thread t with next := v }

def clearWaitingOn (t : ThreadPtr) : Scheduler :=
  s.setThread t { s.thread t with waitingOn := none }

def setCurrent (cpu : Nat) (t : Option ThreadPtr) : Scheduler :=
  { s with current := Function.update s.current cpu t }

def setPendingPark (cpu : Nat) (t : Option ThreadPtr) : Scheduler :=
  { s with pendingPark := Function.update s.pendingPark cpu t }

def setPendingZombie (cpu : Nat) (t : Option ThreadPtr) : Scheduler :=
  { s with pendingZombie := Function.update s.pendingZombie cpu t }

def setWaitQueue (wq : Nat) (v : WaitQueue) : Scheduler :=
  { s with waitQueue := Function.update s.waitQueue wq v }

def setReadyQueue (head tail : Option ThreadPtr) : Scheduler :=
  { s with readyHead := head, readyTail := tail }

def setZombieList (t : Option ThreadPtr) : Scheduler :=
  { s with zombieList := t }

def logEntered (t : ThreadPtr) : Scheduler := { s with entered := s.entered ++ [t] }

def logLeft (t : ThreadPtr) : Scheduler := { s with left := s.left ++ [t] }

def enqueueLocked (t : ThreadPtr) : Scheduler :=
  let s := (s.setThread t { s.thread t with state := .ready, next := none }).logEntered t
  match s.readyTail with
  | none => s.setReadyQueue (some t) (some t)
  | some tail => (s.setNext tail (some t)).setReadyQueue s.readyHead (some t)

def dequeueLocked : Option ThreadPtr × Scheduler :=
  match s.readyHead with
  | none => (none, s)
  | some t =>
      let head := s.next t
      let s := s.setReadyQueue head (if head = none then none else s.readyTail)
      (some t, (s.setNext t none).logLeft t)

/-- Back to the ready queue from a wait. -/
def wakeThread (t : ThreadPtr) : Scheduler := (s.clearWaitingOn t).enqueueLocked t

/-- A thread that left its processor goes to its wait queue, or back to the
ready queue when the wait queue was woken meanwhile. -/
def parkThread (t : ThreadPtr) : Scheduler :=
  match (s.thread t).waitingOn with
  | none => s.wakeThread t
  | some wq =>
      if (s.waitQueue wq).seq ≠ (s.thread t).waitSeq then s.wakeThread t
      else
        (s.setNext t (s.waitQueue wq).head).setWaitQueue wq
          { s.waitQueue wq with head := some t }

def unpark (cpu : Nat) : Scheduler :=
  match s.pendingPark cpu with
  | none => s
  | some t => (s.setPendingPark cpu none).parkThread t

/-- The zombie left behind on this processor goes to the zombie list. -/
def buryZombie (cpu : Nat) : Scheduler :=
  match s.pendingZombie cpu with
  | none => s
  | some t =>
      ((s.setNext t s.zombieList).setZombieList (some t)).setPendingZombie cpu none

/-- A running thread other than the idle one goes to the end of the queue. -/
def requeue (cpu : Nat) (curr : ThreadPtr) : Scheduler :=
  if (s.thread curr).state = .running ∧ some curr ≠ s.idle cpu then
    s.enqueueLocked curr
  else s

/-- A thread that blocks or has ended waits until its processor runs on another
stack. -/
def giveUp (cpu : Nat) (curr : ThreadPtr) : Scheduler :=
  let s := if (s.thread curr).state = .blocked then s.setPendingPark cpu (some curr) else s
  if (s.thread curr).state = .terminated ∧ some curr ≠ s.idle cpu then
    s.setPendingZombie cpu (some curr)
  else s

/-- Hand the processor from `curr` to `next`. -/
def switchTo (cpu : Nat) (curr next : ThreadPtr) : Scheduler :=
  if next = curr then (s.clearWaitingOn curr).setState curr .running
  else ((s.giveUp cpu curr).setState next .running).setCurrent cpu (some next)

/-- The test before the critical section of `scheduler_schedule`: the thread to
be switched from, if any. -/
def switchable (cpu : Nat) (interruptedKernel : Bool) : Option ThreadPtr :=
  if s.contextSwitchLock then none
  else
    match s.current cpu with
    | none => none
    | some curr =>
        if interruptedKernel ∧ (s.thread curr).process ≠ none ∧
            (s.thread curr).state ≠ .blocked then none
        else some curr

/-- The critical section of `scheduler_schedule`. -/
def scheduleFrom (cpu : Nat) (curr : ThreadPtr) : Scheduler :=
  let s := ((s.unpark cpu).buryZombie cpu).requeue cpu curr
  let (next, s) := s.dequeueLocked
  s.switchTo cpu curr (next.getD ((s.idle cpu).getD curr))

def schedule (cpu : Nat) (interruptedKernel : Bool) : Scheduler :=
  match s.switchable cpu interruptedKernel with
  | none => s
  | some curr => s.scheduleFrom cpu curr

def waitQueueSnapshot (wq : Nat) : BitVec 64 := (s.waitQueue wq).seq

/-- `scheduler_wait` up to the interrupt that calls the scheduler. -/
def wait (cpu wq : Nat) (seq : BitVec 64) : Scheduler :=
  if (s.waitQueue wq).seq ≠ seq then s
  else
    match s.current cpu with
    | none => s
    | some curr =>
        if some curr = s.idle cpu then s
        else
          s.setThread curr
            { s.thread curr with waitingOn := some wq, waitSeq := seq, state := .blocked }

/-- `scheduler_wait` behind the interrupt: it was not switched from. -/
def resume (cpu : Nat) : Scheduler :=
  match s.current cpu with
  | none => s
  | some curr =>
      if (s.thread curr).state = .blocked then
        (s.clearWaitingOn curr).setState curr .running
      else s

/-- The loop of `scheduler_wake_all`. -/
def wakeLoop : Nat → Scheduler → Option ThreadPtr → Option Scheduler
  | _, s, none => some s
  | 0, _, some _ => none
  | fuel + 1, s, some t => wakeLoop fuel (s.wakeThread t) (s.next t)

/-- `none` when the loop does not end within the number of addresses. -/
def wakeAll (wq : Nat) : Option Scheduler :=
  let s := s.setWaitQueue wq { s.waitQueue wq with seq := (s.waitQueue wq).seq + 1 }
  let t := (s.waitQueue wq).head
  let s := s.setWaitQueue wq { s.waitQueue wq with head := none }
  wakeLoop (2 ^ 64) s t

/-- `thread_exit_status` behind `process_terminate`, up to the interrupt. -/
def exit (cpu : Nat) : Scheduler :=
  match s.current cpu with
  | none => s
  | some curr =>
      if some curr = s.idle cpu then s
      else s.setThread curr { s.thread curr with process := none, state := .terminated }

/-- The critical section of `scheduler_reap`. -/
def reapDetach (k : Nat) : Scheduler :=
  { s with detached := Function.update s.detached k s.zombieList, zombieList := none }

/-- One round of the loop of `scheduler_reap`: free the thread in front. -/
def reapFree (k : Nat) : Scheduler :=
  match s.detached k with
  | none => s
  | some t =>
      { s with detached := Function.update s.detached k (s.next t), live := s.live \ {t} }

/-- `tcb_alloc`. -/
def tcbAlloc (t : ThreadPtr) (process : Option Nat) : Scheduler :=
  { s.setThread t ⟨.uninitialised, process, none, 0, none⟩ with live := insert t s.live }

def registerIdle (cpu : Nat) (t : ThreadPtr) : Scheduler :=
  let s := s.setState t .running
  { s.setCurrent cpu (some t) with idle := Function.update s.idle cpu (some t) }

end Scheduler

/-- What a processor does next. -/
inductive SchedulerStep where
  | create (t : ThreadPtr) (process : Option Nat)
  | registerIdle (cpu : Nat) (t : ThreadPtr)
  | enqueue (t : ThreadPtr)
  | schedule (cpu : Nat) (interruptedKernel : Bool)
  | wait (cpu wq : Nat) (seq : BitVec 64)
  | resume (cpu : Nat)
  | wakeAll (wq : Nat)
  | exit (cpu : Nat)
  | reapDetach (k : Nat)
  | reapFree (k : Nat)
  | lockContextSwitch
deriving DecidableEq, Repr

/-- The processor that a step of the scheduler runs on, where that matters. -/
def SchedulerStep.processor : SchedulerStep → Option Nat
  | .schedule cpu _ => some cpu
  | .wait cpu _ _ => some cpu
  | .resume cpu => some cpu
  | .exit cpu => some cpu
  | .registerIdle cpu _ => some cpu
  | _ => none

namespace Scheduler

def step (s : Scheduler) : SchedulerStep → Option Scheduler
  | .create t process => some (s.tcbAlloc t process)
  | .registerIdle cpu t => some (s.registerIdle cpu t)
  | .enqueue t => some (s.enqueueLocked t)
  | .schedule cpu interruptedKernel => some (s.schedule cpu interruptedKernel)
  | .wait cpu wq seq => some (s.wait cpu wq seq)
  | .resume cpu => some (s.resume cpu)
  | .wakeAll wq => s.wakeAll wq
  | .exit cpu => some (s.exit cpu)
  | .reapDetach k => some (s.reapDetach k)
  | .reapFree k => some (s.reapFree k)
  | .lockContextSwitch => some { s with contextSwitchLock := true }

/-- A thread that was allocated and not handed to the scheduler yet. -/
def IsNew (s : Scheduler) (t : ThreadPtr) : Prop :=
  t ∈ s.live ∧ (s.thread t).state = .uninitialised

/-- What the callers see to: only new threads are enqueued or become idle
threads, code runs only on the thread that is current, and a run of
`scheduler_reap` is over before its next one. -/
def Allows (s : Scheduler) : SchedulerStep → Prop
  | .create t _ => t ∉ s.live
  | .registerIdle cpu t => s.IsNew t ∧ s.current cpu = none ∧ s.idle cpu = none
  | .enqueue t => s.IsNew t
  | .wait cpu _ _ => ∀ t, s.current cpu = some t → (s.thread t).state = .running
  | .exit cpu => ∀ t, s.current cpu = some t → (s.thread t).state = .running
  | .reapDetach k => s.detached k = none
  | _ => True

/-- The scheduler before the first thread. -/
def initial : Scheduler where
  thread _ := ⟨.uninitialised, none, none, 0, none⟩
  waitQueue _ := ⟨none, 0⟩
  readyHead := none
  readyTail := none
  zombieList := none
  current _ := none
  idle _ := none
  pendingPark _ := none
  pendingZombie _ := none
  contextSwitchLock := false
  detached _ := none
  live := ∅
  entered := []
  left := []

end Scheduler

inductive SchedulerReachable : Scheduler → Prop
  | initial : SchedulerReachable Scheduler.initial
  | step {s s' : Scheduler} {e : SchedulerStep} (hs : SchedulerReachable s)
      (hallows : s.Allows e) (hstep : s.step e = some s') : SchedulerReachable s'

end Utopia
