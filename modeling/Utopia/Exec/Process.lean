/-
The process list of `exec/process.c`: its critical sections under `process_lock`,
as `process_create`, `process_clone`, `process_terminate` and
`process_wait_child` go through them.
-/
import Utopia.Lib.LinkedList
import Mathlib.Data.Set.Insert

namespace Utopia

/-- The address of a `process_t`; a null pointer is `none`. -/
abbrev ProcessPtr := BitVec 64

/-- The fields of `process_t` that the process tree is made of, but for `next`.
`childWq` is the number of the wait queue inside of the object; each object has a
new one, which its `memset` clears. -/
structure Process where
  pid : BitVec 32
  ppid : BitVec 32
  zombie : Bool
  exitStatus : BitVec 32
  childWq : ℕ
deriving DecidableEq, Repr

/-- The calls of `free` on a `process_t`. -/
inductive FreeReason where
  | notStarted
  | noParent
  | orphaned
  | reaped (parent ret status : BitVec 32)
deriving DecidableEq, Repr

/-- The process list.  `links` holds its head and the `next` fields, `live` the
objects that are allocated, and `building` those with a pid that are not in the
list yet; `created`, `ended` and `freed` record the history. -/
structure ProcessTable where
  process : ProcessPtr → Process
  links : Links ProcessPtr
  nextPid : BitVec 32
  live : Set ProcessPtr
  building : List ProcessPtr
  created : ℕ
  ended : List (BitVec 32 × BitVec 32)
  freed : List (BitVec 32 × FreeReason)

namespace ProcessTable

variable (s : ProcessTable)

def pid (p : ProcessPtr) : BitVec 32 := (s.process p).pid

def ppid (p : ProcessPtr) : BitVec 32 := (s.process p).ppid

def zombie (p : ProcessPtr) : Bool := (s.process p).zombie

def exitStatus (p : ProcessPtr) : BitVec 32 := (s.process p).exitStatus

def childWq (p : ProcessPtr) : ℕ := (s.process p).childWq

def setProcess (p : ProcessPtr) (v : Process) : ProcessTable :=
  { s with process := Function.update s.process p v }

/-- `free`. -/
def free (p : ProcessPtr) (reason : FreeReason) : ProcessTable :=
  { s with live := s.live \ {p}, freed := s.freed ++ [(s.pid p, reason)] }

/-- No list of objects is longer than this. -/
def maxNodes : ℕ := 2 ^ 64 + 1

/-! ### Creation -/

/-- The first critical section of `process_create` and of `process_clone`: the
zeroed object gets the next pid, and a clone the pid of its parent. -/
def takePid (p : ProcessPtr) (parent : Option ProcessPtr) : ProcessTable :=
  { s.setProcess p
      { pid := s.nextPid
        ppid := (parent.map s.pid).getD 0
        zombie := false
        exitStatus := 0
        childWq := s.created + 1 } with
    nextPid := s.nextPid + 1
    live := insert p s.live
    building := p :: s.building
    created := s.created + 1 }

/-- `process_register`, the same as the end of `process_create`. -/
def processRegister (p : ProcessPtr) : ProcessTable :=
  { s with links := s.links.push p, building := s.building.erase p }

/-- The failure exits behind the first critical section. -/
def notStarted (p : ProcessPtr) : ProcessTable :=
  { s with building := s.building.erase p }.free p .notStarted

/-! ### Termination -/

/-- The search for a live init process other than `proc`. -/
def findInit (proc : ProcessPtr) : Option (Option ProcessPtr) :=
  walk (fun _ => s.links.next)
    (fun init p => if s.pid p = 1 ∧ s.zombie p = false ∧ p ≠ proc then some p else init)
    maxNodes none s.links.head

/-- The body of the loop that hands the children of `proc` on, with the flag
`init_has_new_zombie`. -/
def reparentChild (proc : ProcessPtr) (init : Option ProcessPtr) :
    ProcessTable × Bool → ProcessPtr → ProcessTable × Bool
  | (s, newZombie), p =>
      if p = proc ∨ s.ppid p ≠ s.pid proc then (s, newZombie)
      else
        (s.setProcess p { s.process p with ppid := if init.isSome then 1 else 0 },
          newZombie || init.isSome && s.zombie p)

def reparent (proc : ProcessPtr) (init : Option ProcessPtr) : Option (ProcessTable × Bool) :=
  walk (fun s => s.1.links.next) (reparentChild proc init) maxNodes (s, false) s.links.head

/-- A zombie that nobody can wait for. -/
def isOrphanZombie (proc p : ProcessPtr) : Bool :=
  p ≠ proc ∧ s.zombie p ∧ s.ppid p = 0

def freeAll (l : List ProcessPtr) (reason : FreeReason) : ProcessTable :=
  l.foldl (fun s p => s.free p reason) s

/-- The loop that takes zombies without a parent out of the list and frees them. -/
def sweep (proc : ProcessPtr) : Option ProcessTable :=
  (Links.removeIf (s.isOrphanZombie proc) maxNodes s.links none []).map fun (links, orphans) =>
    { s with links := links }.freeAll orphans .orphaned

/-- `process_terminate` in its critical section, up to the wake-up of the init
process: the children of `proc` get a new parent.  The result names the wait queue
to be woken. -/
def handChildrenOn (proc : ProcessPtr) : Option (ProcessTable × Option ℕ) := do
  let init ← s.findInit proc
  let (s, newZombie) ← s.reparent proc init
  let s ← s.sweep proc
  return (s, if newZombie then init.map s.childWq else none)

/-- The search for the parent. -/
def findParent (proc : ProcessPtr) : Option (Option ProcessPtr) :=
  if s.ppid proc = 0 then some none
  else
    findNode s.links.next (fun p => s.pid p = s.ppid proc ∧ s.zombie p = false) maxNodes
      s.links.head

/-- The rest of the critical section: `proc` becomes a zombie, or is taken out of
the list and freed. -/
def leaveTree (proc : ProcessPtr) : Option (ProcessTable × Option ℕ) := do
  let parent ← s.findParent proc
  let s := { s with ended := s.ended ++ [(s.pid proc, s.exitStatus proc)] }
  match parent with
  | some parent =>
      return (s.setProcess proc { s.process proc with zombie := true }, some (s.childWq parent))
  | none =>
      let links ← Links.unlink proc maxNodes s.links none
      return ({ s with links := links }.free proc .noParent, none)

/-- `thread_exit_status` on a thread of `proc`. -/
def setExitStatus (proc : ProcessPtr) (status : BitVec 32) : ProcessTable :=
  s.setProcess proc { s.process proc with exitStatus := status }

/-- `process_terminate`. -/
def processTerminate (proc : ProcessPtr) : Option ProcessTable := do
  let (s, _) ← s.handChildrenOn proc
  let (s, _) ← s.leaveTree proc
  return s

/-! ### Waiting for a child -/

/-- A child that `process_wait_child` was asked for. -/
def isMatch (parent : ProcessPtr) (pid : BitVec 32) (p : ProcessPtr) : Bool :=
  s.ppid p = s.pid parent ∧ ¬ (BitVec.slt 0 pid ∧ s.pid p ≠ pid)

/-- The loop of `process_wait_child`: whether there is a child, and the zombie
that was found. -/
def waitLoop (parent : ProcessPtr) (pid : BitVec 32) :
    ℕ → Bool → Option ProcessPtr → Option (Bool × Option ProcessPtr)
  | _, haveChild, none => some (haveChild, none)
  | 0, _, some _ => none
  | fuel + 1, haveChild, some p =>
      if s.isMatch parent pid p then
        if s.zombie p then some (true, some p)
        else waitLoop parent pid fuel true (s.links.next p)
      else waitLoop parent pid fuel haveChild (s.links.next p)

/-- `process_wait_child`: the return value, the status if it is written, and the
table. -/
def processWaitChild (parent : ProcessPtr) (pid : BitVec 32) :
    Option (BitVec 32 × Option (BitVec 32) × ProcessTable) := do
  let (haveChild, found) ← s.waitLoop parent pid maxNodes false s.links.head
  match found with
  | none => return (if haveChild then 0 else -1, none, s)
  | some found =>
      let links ← Links.unlink found maxNodes s.links none
      let s := { s with links := links }
      return (s.pid found, some (s.exitStatus found),
        s.free found (.reaped (s.pid parent) (s.pid found) (s.exitStatus found)))

end ProcessTable

/-- The calls, and the failures of a creation before and behind its first critical
section. -/
inductive ProcessStep where
  | create (p : ProcessPtr)
  | clone (p parent : ProcessPtr)
  | register (p : ProcessPtr)
  | notStarted (p : ProcessPtr)
  | terminate (proc : ProcessPtr) (status : BitVec 32)
  | waitChild (parent : ProcessPtr) (pid : BitVec 32)
deriving DecidableEq, Repr

namespace ProcessTable

variable (s : ProcessTable)

def step : ProcessStep → Option ProcessTable
  | .create p => some (s.takePid p none)
  | .clone p parent => some (s.takePid p (some parent))
  | .register p => some (s.processRegister p)
  | .notStarted p => some (s.notStarted p)
  | .terminate proc status => (s.setExitStatus proc status).processTerminate proc
  | .waitChild parent pid => (s.processWaitChild parent pid).map fun r => r.2.2

/-- A process that runs: it is in the list and not a zombie. -/
def Runs (p : ProcessPtr) : Prop :=
  (∃ n, nthNode s.links.next s.links.head n = some p) ∧ s.zombie p = false

/-- What the callers see to: `malloc` returns an object that is not in use, calls
are made by running processes, and a process does not end while it clones itself.
The exit of the process with pid 1 is a panic. -/
def Allows : ProcessStep → Prop
  | .create p => p ∉ s.live
  | .clone p parent => p ∉ s.live ∧ s.Runs parent
  | .register p => p ∈ s.building
  | .notStarted p => p ∈ s.building
  | .terminate proc _ => s.Runs proc ∧ s.pid proc ≠ 1 ∧ ∀ p ∈ s.building, s.ppid p ≠ s.pid proc
  | .waitChild parent _ => s.Runs parent

/-- `process_init`. -/
def initial : ProcessTable where
  process _ := ⟨0, 0, false, 0, 0⟩
  links := ⟨none, fun _ => none⟩
  nextPid := 1
  live := ∅
  building := []
  created := 0
  ended := []
  freed := []

end ProcessTable

/-- The number of pids that a step hands out. -/
def ProcessStep.creations : ProcessStep → ℕ
  | .create _ => 1
  | .clone _ _ => 1
  | _ => 0

/-- The tables that runs with `n` creations reach. -/
inductive ProcessReachable : ℕ → ProcessTable → Prop
  | initial : ProcessReachable 0 ProcessTable.initial
  | step {n : ℕ} {s s' : ProcessTable} {e : ProcessStep} (hs : ProcessReachable n s)
      (hallows : s.Allows e) (hstep : s.step e = some s') :
      ProcessReachable (n + e.creations) s'

end Utopia
