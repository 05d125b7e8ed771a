/-
`wait4` and `process_terminate` on top of the scheduler and the process list: a
thread that sleeps in `wait4` has no zombie child to wait for.
-/
import Utopia.Exec.WakeUps
import Utopia.Exec.ProcessTree

namespace Utopia

/-- How far a round of the loop of `syscall_linux_wait4` is. -/
inductive Wait4Phase where
  | snapped
  | checked
  | waiting
deriving DecidableEq, Repr

/-- The variables of a call of `wait4`.  `lastCheck` records the wake-ups before the
snapshot of the last round in which `process_wait_child` returned 0. -/
structure Wait4Call where
  thread : ThreadPtr
  want : BitVec 32
  nohang : Bool
  snap : Snapshot
  phase : Wait4Phase
  lastCheck : Option ℕ
deriving DecidableEq, Repr

/-- Where the holder of `process_lock` is in `process_terminate`, and the wait queue
that it wakes next. -/
inductive Termination where
  | handedOn (proc : ProcessPtr) (wake : Option ℕ)
  | left (wake : Option ℕ)
deriving DecidableEq, Repr

def Termination.wake : Termination → Option ℕ
  | .handedOn _ wake => wake
  | .left wake => wake

structure Wait4State where
  wake : WakeState
  table : ProcessTable
  call : ProcessPtr → Option Wait4Call
  terminating : Option Termination

inductive Wait4Step where
  | process (e : ProcessStep)
  | terminate (proc : ProcessPtr) (status : BitVec 32)
  | terminateNext
  | wait4 (cpu : ℕ) (process : ProcessPtr) (want : BitVec 32) (nohang : Bool)
  | again (cpu : ℕ) (process : ProcessPtr)
  | check (cpu : ℕ) (process : ProcessPtr)
  | sleep (cpu : ℕ) (process : ProcessPtr)
  | other (e : WakeStep)
deriving DecidableEq, Repr

namespace Wait4State

variable (s : Wait4State)

def setCall (process : ProcessPtr) (call : Option Wait4Call) : Wait4State :=
  { s with call := Function.update s.call process call }

/-- The first lines of the loop: a snapshot of the wait queue of the process. -/
def snapshot (process : ProcessPtr) (call : Snapshot → Wait4Call) : Wait4State :=
  let snap := s.wake.takeSnapshot (s.table.childWq process)
  { s with wake := { s.wake with snapshots := snap :: s.wake.snapshots } }.setCall process
    (some (call snap))

/-- `process_wait_child` in `wait4`, and what comes of its value. -/
def check (process : ProcessPtr) (call : Wait4Call) : Option Wait4State := do
  let (ret, _, table) ← s.table.processWaitChild process call.want
  let s := { s with table := table }
  if ret = 0 ∧ call.nohang = false then
    return s.setCall process
      (some { call with phase := .checked, lastCheck := some call.snap.wakes })
  else return s.setCall process none

/-- `scheduler_wait` in `wait4`. -/
def sleep (cpu : ℕ) (process : ProcessPtr) (call : Wait4Call) : Wait4State :=
  { s with wake := s.wake.wait cpu call.snap }.setCall process
    (some { call with phase := .waiting })

/-- `process_terminate` up to its first wake-up. -/
def terminate (proc : ProcessPtr) (status : BitVec 32) : Option Wait4State := do
  let (table, wake) ← (s.table.setExitStatus proc status).handChildrenOn proc
  return { s with table := table, terminating := some (.handedOn proc wake) }

/-- The rest of `process_terminate`, one critical section after the other. -/
def terminateNext : Option Wait4State :=
  match s.terminating with
  | none => some s
  | some (.handedOn proc none) => do
      let (table, wake) ← s.table.leaveTree proc
      return { s with table := table, terminating := some (.left wake) }
  | some (.left none) => some { s with terminating := none }
  | some (.handedOn proc (some wq)) => do
      let wake ← s.wake.wakeAll wq
      return { s with wake := wake, terminating := some (.handedOn proc none) }
  | some (.left (some wq)) => do
      let wake ← s.wake.wakeAll wq
      return { s with wake := wake, terminating := some (.left none) }

def step : Wait4Step → Option Wait4State
  | .process e => (s.table.step e).map fun table => { s with table := table }
  | .terminate proc status => s.terminate proc status
  | .terminateNext => s.terminateNext
  | .wait4 cpu process want nohang =>
      (s.wake.sched.current cpu).map fun t =>
        s.snapshot process fun snap => ⟨t, want, nohang, snap, .snapped, none⟩
  | .again _ process =>
      (s.call process).map fun call =>
        s.snapshot process fun snap => { call with snap := snap, phase := .snapped }
  | .check _ process => (s.call process).bind (s.check process)
  | .sleep cpu process => (s.call process).map (s.sleep cpu process)
  | .other e => (s.wake.step e).map fun wake => { s with wake := wake }

/-- The thread of a call of `wait4` runs on the processor. -/
def Runs (cpu : ℕ) (process : ProcessPtr) (phase : Wait4Phase) : Prop :=
  ∃ call, s.call process = some call ∧ call.phase = phase ∧
    s.wake.sched.current cpu = some call.thread ∧
    (s.wake.sched.thread call.thread).state = .running

/-- Critical sections of the process list wait for `process_lock`; a process has one
thread, which is in one call at a time; and nobody else waits with the wait queue of
a process (the keyboard's is queue 0). -/
def Allows : Wait4Step → Prop
  | .process (.terminate _ _) => False
  | .process (.waitChild _ _) => False
  | .process (.notStarted p) => s.table.Allows (.notStarted p)
  | .process e => s.table.Allows e ∧ s.terminating = none
  | .terminate proc status => s.table.Allows (.terminate proc status) ∧ s.terminating = none ∧
      s.call proc = none
  | .terminateNext => True
  | .wait4 cpu process _ _ => s.table.Runs process ∧ s.call process = none ∧
      (∀ wake, s.terminating ≠ some (.handedOn process wake)) ∧
      ∃ t, s.wake.sched.current cpu = some t ∧ (s.wake.sched.thread t).state = .running ∧
        ∀ process' call, s.call process' = some call → call.thread ≠ t
  | .again cpu process => s.Runs cpu process .waiting
  | .check cpu process => s.Runs cpu process .snapped ∧ s.terminating = none
  | .sleep cpu process => s.Runs cpu process .checked
  | .other (.wait cpu snap) => s.wake.Allows (.wait cpu snap) ∧ snap.wq = 0 ∧
      ∀ process call, s.call process = some call → s.wake.sched.current cpu ≠ some call.thread
  | .other e => s.wake.Allows e

def initial : Wait4State := ⟨WakeState.initial, ProcessTable.initial, fun _ => none, none⟩

end Wait4State

def Wait4Step.creations : Wait4Step → ℕ
  | .process e => e.creations
  | _ => 0

/-- The states that runs with `n` process creations reach. -/
inductive Wait4Reachable : ℕ → Wait4State → Prop
  | initial : Wait4Reachable 0 Wait4State.initial
  | step {n : ℕ} {s s' : Wait4State} {e : Wait4Step} (hs : Wait4Reachable n s)
      (hallows : s.Allows e) (hstep : s.step e = some s') :
      Wait4Reachable (n + e.creations) s'

namespace Wait4State

variable {s s' : Wait4State} {q q' : Queues} {l l' : List ProcessPtr} {P proc : ProcessPtr}
  {call : Wait4Call} {cpu : ℕ}

theorem call_setCall_self (c : Option Wait4Call) : (s.setCall P c).call P = c :=
  Function.update_self _ _ _

theorem call_setCall_of_ne {P' : ProcessPtr} (hP : P' ≠ P) (c : Option Wait4Call) :
    (s.setCall P c).call P' = s.call P' :=
  Function.update_of_ne hP _ _

/-- The wait queue that `process_terminate` is about to wake. -/
def pendingWake (s : Wait4State) : Option ℕ := s.terminating.bind Termination.wake

/-- The process list, and the process that ends. -/
structure TableInv (s : Wait4State) (l : List ProcessPtr) : Prop where
  tree : s.table.Tree l
  noOrphans : s.table.NoOrphans l
  leaving : ∀ proc wake, s.terminating = some (.handedOn proc wake) →
    proc ∈ l ∧ s.table.zombie proc = false ∧ s.table.NoChildren l proc ∧ s.call proc = none

/-- A call of `wait4`: its process runs, and its thread sleeps with the snapshot of
the last check. -/
structure CallInv (s : Wait4State) (q : Queues) (l : List ProcessPtr) (P : ProcessPtr)
    (call : Wait4Call) : Prop where
  mem : P ∈ l
  running : s.table.zombie P = false
  snap : call.snap ∈ s.wake.snapshots ∧ call.snap.wq = s.table.childWq P
  checked : call.phase = .checked → call.lastCheck = some call.snap.wakes
  blocked : (s.wake.sched.thread call.thread).state = .blocked →
    (s.wake.sched.thread call.thread).waitingOn = some (s.table.childWq P) →
      call.lastCheck = some (s.wake.ticket call.thread)
  linked : call.thread ∈ q.waiting (s.table.childWq P) →
    call.lastCheck = some (s.wake.ticket call.thread)
  children : ∀ k, call.lastCheck = some k → k ≤ s.wake.wakes (s.table.childWq P) ∧
    (k = s.wake.wakes (s.table.childWq P) → s.pendingWake = some (s.table.childWq P) ∨
      ∀ p ∈ l, s.table.isMatch P call.want p = true → s.table.zombie p = false)

structure Inv (s : Wait4State) (q : Queues) (l : List ProcessPtr) : Prop where
  tracked : s.wake.Tracked q
  table : s.TableInv l
  calls : ∀ P call, s.call P = some call → s.CallInv q l P call
  threads : ∀ P P' call call', s.call P = some call → s.call P' = some call' →
    call.thread = call'.thread → P = P'

/-! ### Steps of the scheduler -/

/-- The scheduler moves on: waits end or stay, and what was to be woken has been. -/
theorem CallInv.wake (h : s.CallInv q l P call) {wake : WakeState} {terminating : Option Termination}
    (hsnaps : ∀ snap ∈ s.wake.snapshots, snap ∈ wake.snapshots)
    (hticket : wake.ticket call.thread = s.wake.ticket call.thread)
    (hwakes : ∀ w, s.wake.wakes w ≤ wake.wakes w)
    (hblocked : ∀ wq, (wake.sched.thread call.thread).waitingOn = some wq →
      (wake.sched.thread call.thread).state = .blocked →
        (s.wake.sched.thread call.thread).waitingOn = some wq ∧
          (s.wake.sched.thread call.thread).state = .blocked)
    (hlinked : ∀ wq, call.thread ∈ q'.waiting wq → call.thread ∈ q.waiting wq ∨
      ((s.wake.sched.thread call.thread).state = .blocked ∧
        (s.wake.sched.thread call.thread).waitingOn = some wq))
    (hpending : ∀ w, s.pendingWake = some w →
      terminating.bind Termination.wake = some w ∨ s.wake.wakes w < wake.wakes w) :
    { s with wake := wake, terminating := terminating }.CallInv q' l P call := by
  refine ⟨h.mem, h.running, ⟨hsnaps _ h.snap.1, h.snap.2⟩, h.checked, fun hb hon => ?_,
    fun hq => ?_, fun k hk => ?_⟩
  · obtain ⟨hon, hb⟩ := hblocked _ hon hb
    exact (h.blocked hb hon).trans (congrArg some hticket.symm)
  · refine Eq.trans ?_ (congrArg some hticket.symm)
    rcases hlinked _ hq with hq | ⟨hb, hon⟩
    · exact h.linked hq
    · exact h.blocked hb hon
  · obtain ⟨hle, hquiet⟩ := h.children k hk
    have hmono := hwakes (s.table.childWq P)
    refine ⟨hle.trans hmono, fun heq => ?_⟩
    have heq : k = wake.wakes (s.table.childWq P) := heq
    rcases hquiet (by omega) with hpend | hquiet
    · rcases hpending _ hpend with hpend | hlt
      · exact Or.inl hpend
      · omega
    · exact Or.inr hquiet

theorem Inv.setWake (h : s.Inv q l) {wake : WakeState} {terminating : Option Termination}
    (htracked : wake.Tracked q') (hsnaps : ∀ snap ∈ s.wake.snapshots, snap ∈ wake.snapshots)
    (hticket : ∀ P call, s.call P = some call →
      wake.ticket call.thread = s.wake.ticket call.thread)
    (hwakes : ∀ w, s.wake.wakes w ≤ wake.wakes w)
    (hblocked : ∀ P call, s.call P = some call → ∀ wq,
      (wake.sched.thread call.thread).waitingOn = some wq →
        (wake.sched.thread call.thread).state = .blocked →
          (s.wake.sched.thread call.thread).waitingOn = some wq ∧
            (s.wake.sched.thread call.thread).state = .blocked)
    (hlinked : ∀ t wq, t ∈ q'.waiting wq → t ∈ q.waiting wq ∨
      ((s.wake.sched.thread t).state = .blocked ∧
        (s.wake.sched.thread t).waitingOn = some wq))
    (hpending : ∀ w, s.pendingWake = some w →
      terminating.bind Termination.wake = some w ∨ s.wake.wakes w < wake.wakes w)
    (hleaving : ∀ proc w, terminating = some (.handedOn proc w) →
      ∃ w', s.terminating = some (.handedOn proc w')) :
    { s with wake := wake, terminating := terminating }.Inv q' l := by
  refine ⟨htracked, ⟨h.table.tree, h.table.noOrphans, fun proc w hw => ?_⟩, fun P call hcall => ?_,
    h.threads⟩
  · obtain ⟨w', hw'⟩ := hleaving proc w hw
    exact h.table.leaving proc w' hw'
  · exact (h.calls P call hcall).wake hsnaps (hticket P call hcall) hwakes
      (hblocked P call hcall) (hlinked _) hpending

/-- A wake-up, by anyone. -/
theorem Inv.wakeAll (h : s.Inv q l) (wq : ℕ) (terminating : Option Termination)
    (hpending : ∀ w, s.pendingWake = some w →
      terminating.bind Termination.wake = some w ∨ w = wq)
    (hleaving : ∀ proc w, terminating = some (.handedOn proc w) →
      ∃ w', s.terminating = some (.handedOn proc w')) :
    ∃ wake q', s.wake.wakeAll wq = some wake ∧
      { s with wake := wake, terminating := terminating }.Inv q' l := by
  obtain ⟨wake, q', hrun, htracked, hwakes, hticket, hwaiting, hrecords⟩ := h.tracked.wakeAll wq
  have hsnaps : wake.snapshots = s.wake.snapshots := by
    rw [WakeState.wakeAll, Option.map_eq_some_iff] at hrun
    obtain ⟨sched, -, rfl⟩ := hrun
    rfl
  refine ⟨wake, q', hrun, h.setWake htracked (by simp [hsnaps]) (by simp [hticket])
    (fun w => ?_) (fun P call hcall w hon hblocked => ?_)
    (fun t w ht => Or.inl (hwaiting w t ht)) (fun w hw => (hpending w hw).imp_right ?_) hleaving⟩
  · rw [hwakes]
    by_cases hw : w = wq
    · subst hw
      rw [Function.update_self]
      exact Nat.le_succ _
    · rw [Function.update_of_ne hw]
  · obtain ⟨hon, hblocked, -⟩ := hrecords.waits hon hblocked
    exact ⟨hon, hblocked⟩
  · rintro rfl
    rw [hwakes, Function.update_self]
    exact Nat.lt_succ_self _

/-- The other steps of the scheduler and its callers. -/
theorem Inv.other (h : s.Inv q l) (hbound : ∀ wq, s.wake.wakes wq < 2 ^ 64) {e : WakeStep}
    (hallows : s.Allows (.other e)) :
    ∃ s' q', s.step (.other e) = some s' ∧ s'.Inv q' l := by
  cases e with
  | snapshot wq =>
      have htracked : { s.wake with
          snapshots := s.wake.takeSnapshot wq :: s.wake.snapshots }.Tracked q :=
        h.tracked.takeSnapshot wq
      exact ⟨_, q, rfl, h.setWake htracked (fun _ => List.mem_cons_of_mem _) (fun _ _ _ => rfl)
        (fun _ => le_rfl) (fun _ _ _ _ hon hb => ⟨hon, hb⟩) (fun _ _ ht => Or.inl ht)
        (fun _ hw => Or.inl hw) fun proc w hw => ⟨w, hw⟩⟩
  | wait cpu snap =>
      obtain ⟨⟨hsnap, hrunning⟩, -, hcalls⟩ := hallows
      have hthread : ∀ P call, s.call P = some call →
          (s.wake.wait cpu snap).sched.thread call.thread = s.wake.sched.thread call.thread :=
        fun P call hcall => s.wake.wait_thread_of_ne snap (hcalls P call hcall)
      refine ⟨_, q, rfl, h.setWake (h.tracked.wait hsnap hrunning) (fun _ hs => hs)
        (fun P call hcall => s.wake.wait_ticket_of_ne snap (hcalls P call hcall)) (fun _ => le_rfl)
        (fun P call hcall wq hon hb => ?_) (fun _ _ ht => Or.inl ht)
        (fun _ hw => Or.inl hw) fun proc w hw => ⟨w, hw⟩⟩
      rw [hthread P call hcall] at hon hb
      exact ⟨hon, hb⟩
  | wakeAll wq =>
      obtain ⟨wake, q', hrun, hinv⟩ := h.wakeAll wq s.terminating
        (fun w hw => Or.inl hw) fun proc w hw => ⟨w, hw⟩
      exact ⟨_, q', by rw [Wait4State.step, WakeState.step, hrun]; rfl, hinv⟩
  | other e =>
      obtain ⟨hsched, hwait, hwake⟩ := hallows
      obtain ⟨sched, q', hrun, hkeeps⟩ := h.tracked.placed.step_keepsWaits hsched hwait hwake
      refine ⟨{ s with wake := { s.wake with sched := sched } }, q', ?_,
        h.setWake (h.tracked.keepsWaits hbound hkeeps) (fun _ hs => hs) (fun _ _ _ => rfl)
        (fun _ => le_rfl) (fun P call _ wq hon hb => ?_) (fun t wq ht => ?_)
        (fun _ hw => Or.inl hw) fun proc w hw => ⟨w, hw⟩⟩
      · rw [Wait4State.step, WakeState.step, hrun]
        rfl
      · obtain ⟨hon, hb, -⟩ := hkeeps.waits _ wq hon hb
        exact ⟨hon, hb⟩
      · exact (hkeeps.waiting wq t ht).imp_right fun hlink => ⟨hlink.1, hlink.2.1⟩

/-! ### Steps of `wait4` -/

/-- A call is set up, moves on or returns: the other calls are as they were. -/
theorem Inv.setCall (h : s.Inv q l) (call : Option Wait4Call)
    (hcall : ∀ c, call = some c → s.CallInv q l P c)
    (hthread : ∀ c, call = some c → ∀ P' call', s.call P' = some call' →
      c.thread = call'.thread → P = P')
    (hleaving : call ≠ none → ∀ wake, s.terminating ≠ some (.handedOn P wake)) :
    (s.setCall P call).Inv q l := by
  have hcases : ∀ P' c, (s.setCall P call).call P' = some c →
      P' = P ∧ call = some c ∨ P' ≠ P ∧ s.call P' = some c := by
    intro P' c hc
    by_cases hP : P' = P
    · subst hP
      rw [call_setCall_self] at hc
      exact Or.inl ⟨rfl, hc⟩
    · rw [call_setCall_of_ne hP] at hc
      exact Or.inr ⟨hP, hc⟩
  refine ⟨h.tracked, ⟨h.table.tree, h.table.noOrphans, fun proc wake hw => ?_⟩,
    fun P' c hc => ?_, fun P₁ P₂ c₁ c₂ h₁ h₂ hsame => ?_⟩
  · obtain ⟨hmem, hrun, hchildless, hnone⟩ := h.table.leaving proc wake hw
    refine ⟨hmem, hrun, hchildless, ?_⟩
    by_cases hP : proc = P
    · subst hP
      rw [call_setCall_self]
      by_contra hsome
      exact hleaving hsome wake hw
    · rw [call_setCall_of_ne hP]
      exact hnone
  · have hinv : s.CallInv q l P' c := by
      rcases hcases P' c hc with ⟨rfl, hnew⟩ | ⟨-, hold⟩
      · exact hcall c hnew
      · exact h.calls P' c hold
    exact ⟨hinv.mem, hinv.running, hinv.snap, hinv.checked, hinv.blocked, hinv.linked,
      hinv.children⟩
  · rcases hcases P₁ c₁ h₁ with ⟨hP₁, hnew₁⟩ | ⟨-, hold₁⟩ <;>
      rcases hcases P₂ c₂ h₂ with ⟨hP₂, hnew₂⟩ | ⟨-, hold₂⟩
    · exact hP₁.trans hP₂.symm
    · exact hP₁.trans (hthread c₁ hnew₁ P₂ c₂ hold₂ hsame)
    · exact ((hthread c₂ hnew₂ P₁ c₁ hold₁ hsame.symm).symm).trans hP₂.symm
    · exact h.threads P₁ P₂ c₁ c₂ hold₁ hold₂ hsame

/-- A thread that runs sleeps nowhere. -/
theorem Inv.not_linked (h : s.Inv q l) {t : ThreadPtr}
    (hcurrent : s.wake.sched.current cpu = some t) (wq : ℕ) : t ∉ q.waiting wq := by
  intro ht
  have hplace := h.tracked.placed.unique (.current cpu) (.waiting wq) t hcurrent ht
  cases hplace

theorem Inv.takeSnapshot (h : s.Inv q l) (wq : ℕ) :
    { s with wake := { s.wake with
      snapshots := s.wake.takeSnapshot wq :: s.wake.snapshots } }.Inv q l :=
  h.setWake (h.tracked.takeSnapshot wq) (fun _ => List.mem_cons_of_mem _) (fun _ _ _ => rfl)
    (fun _ => le_rfl) (fun _ _ _ _ hon hb => ⟨hon, hb⟩) (fun _ _ ht => Or.inl ht)
    (fun _ hw => Or.inl hw) fun _ w hw => ⟨w, hw⟩

/-- `wait4` begins. -/
theorem Inv.wait4 (h : s.Inv q l) {want : BitVec 32} {nohang : Bool}
    (hallows : s.Allows (.wait4 cpu P want nohang)) :
    ∃ s', s.step (.wait4 cpu P want nohang) = some s' ∧ s'.Inv q l := by
  obtain ⟨hruns, hnone, hleaving, t, hcurrent, hrunning, hfree⟩ := hallows
  obtain ⟨hmem, hrun⟩ := h.table.tree.runs_iff.mp hruns
  refine ⟨_, by rw [Wait4State.step, hcurrent]; rfl,
    (h.takeSnapshot (s.table.childWq P)).setCall _ (fun c hc => ?_) (fun c hc P' call' hcall' => ?_)
      fun _ => hleaving⟩
  · obtain rfl := Option.some.inj hc
    refine ⟨hmem, hrun, ⟨List.mem_cons_self, rfl⟩, by rintro ⟨⟩, fun hb => ?_,
      fun hq => absurd hq (h.not_linked hcurrent _), (by rintro - ⟨⟩)⟩
    have hb : (s.wake.sched.thread t).state = .blocked := hb
    rw [hrunning] at hb
    cases hb
  · obtain rfl := Option.some.inj hc
    exact fun hsame => absurd hsame.symm (hfree P' call' hcall')

/-- `wait4` takes another round. -/
theorem Inv.again (h : s.Inv q l) (hallows : s.Allows (.again cpu P)) :
    ∃ s', s.step (.again cpu P) = some s' ∧ s'.Inv q l := by
  obtain ⟨call, hcall, -, hcurrent, hrunning⟩ := hallows
  have hinv := (h.takeSnapshot (s.table.childWq P)).calls P call hcall
  refine ⟨_, by rw [Wait4State.step, hcall]; rfl,
    (h.takeSnapshot (s.table.childWq P)).setCall _ (fun c hc => ?_) (fun c hc P' call' hcall' => ?_)
      fun _ wake hw => ?_⟩
  · obtain rfl := Option.some.inj hc
    exact ⟨hinv.mem, hinv.running, ⟨List.mem_cons_self, rfl⟩, by rintro ⟨⟩, hinv.blocked, hinv.linked,
      hinv.children⟩
  · obtain rfl := Option.some.inj hc
    exact h.threads P P' call call' hcall hcall'
  · have hnone := (h.table.leaving P wake hw).2.2.2
    rw [hcall] at hnone
    cases hnone

/-- `wait4` calls `scheduler_wait`. -/
theorem Inv.sleep (h : s.Inv q l) (hallows : s.Allows (.sleep cpu P)) :
    ∃ s', s.step (.sleep cpu P) = some s' ∧ s'.Inv q l := by
  obtain ⟨call, hcall, hphase, hcurrent, hrunning⟩ := hallows
  have hinv := h.calls P call hcall
  have hlast := hinv.checked hphase
  have hsched : s.wake.sched.Allows (.wait cpu call.snap.wq call.snap.seq) := by
    intro t ht
    obtain rfl := Option.some.inj (hcurrent.symm.trans ht)
    exact hrunning
  have htracked := h.tracked.wait hinv.snap.1 hsched
  have hticket : (s.wake.wait cpu call.snap).ticket call.thread = call.snap.wakes := by
    simp [WakeState.wait, hcurrent]
  have hstep : s.step (.sleep cpu P) = some (({ s with
      wake := s.wake.wait cpu call.snap }).setCall P (some { call with phase := .waiting })) := by
    rw [Wait4State.step, hcall]
    rfl
  have hself : { s with wake := s.wake.wait cpu call.snap }.CallInv q l P
      { call with phase := .waiting } := by
    refine ⟨hinv.mem, hinv.running, hinv.snap, by rintro ⟨⟩, fun _ _ => ?_, fun _ => ?_, hinv.children⟩
    · exact hlast.trans (congrArg some hticket.symm)
    · exact hlast.trans (congrArg some hticket.symm)
  have hother : ∀ P' call', s.call P' = some call' → P' ≠ P →
      s.wake.sched.current cpu ≠ some call'.thread := by
    intro P' call' hcall' hne heq
    exact hne (h.threads P' P call' call hcall' hcall (Option.some.inj (heq.symm.trans hcurrent)))
  refine ⟨_, hstep, ⟨htracked, ⟨h.table.tree, h.table.noOrphans, fun proc wake hw => ?_⟩,
    fun P' call' hcall' => ?_, fun P₁ P₂ c₁ c₂ h₁ h₂ hsame => ?_⟩⟩
  · obtain ⟨hmem, hrun, hchildless, hnone⟩ := h.table.leaving proc wake hw
    refine ⟨hmem, hrun, hchildless, ?_⟩
    have hne : proc ≠ P := by
      rintro rfl
      rw [hcall] at hnone
      cases hnone
    exact (Function.update_of_ne hne _ _).trans hnone
  · by_cases hP : P' = P
    · subst hP
      obtain rfl := Option.some.inj ((Function.update_self P' _ _).symm.trans hcall')
      exact ⟨hself.mem, hself.running, hself.snap, hself.checked, hself.blocked, hself.linked,
        hself.children⟩
    · have hcall' : s.call P' = some call' := (Function.update_of_ne hP _ _).symm.trans hcall'
      have hne := hother P' call' hcall' hP
      have hthread := s.wake.wait_thread_of_ne call.snap hne
      have hinv' : { s with wake := s.wake.wait cpu call.snap }.CallInv q l P' call' :=
        (h.calls P' call' hcall').wake (fun _ hs => hs) (s.wake.wait_ticket_of_ne call.snap hne)
          (fun _ => le_rfl) (fun wq hon hb => by rw [hthread] at hon hb; exact ⟨hon, hb⟩)
          (fun _ ht => Or.inl ht) fun _ hw => Or.inl hw
      exact ⟨hinv'.mem, hinv'.running, hinv'.snap, hinv'.checked, hinv'.blocked, hinv'.linked,
        hinv'.children⟩
  · have hcases : ∀ P' c, Function.update s.call P (some { call with phase := .waiting }) P' =
        some c → ∃ c', s.call P' = some c' ∧ c'.thread = c.thread := by
      intro P' c hc
      by_cases hP : P' = P
      · subst hP
        rw [Function.update_self] at hc
        obtain rfl := Option.some.inj hc
        exact ⟨call, hcall, rfl⟩
      · rw [Function.update_of_ne hP] at hc
        exact ⟨c, hc, rfl⟩
    obtain ⟨c₁', h₁', ht₁⟩ := hcases P₁ c₁ h₁
    obtain ⟨c₂', h₂', ht₂⟩ := hcases P₂ c₂ h₂
    exact h.threads P₁ P₂ c₁' c₂' h₁' h₂' (ht₁.trans (hsame.trans ht₂.symm))

/-! ### Steps of the process list -/

/-- The process list changes: a zombie that a call would find was there before, or its
wake-up is pending. -/
theorem Inv.setTable (h : s.Inv q l) (terminating : Option Termination) {table : ProcessTable}
    (htree : table.Tree l') (horphans : table.NoOrphans l')
    (hleaving : ∀ proc wake, terminating = some (.handedOn proc wake) →
      proc ∈ l' ∧ table.zombie proc = false ∧ table.NoChildren l' proc ∧ s.call proc = none)
    (hpending : ∀ w, s.pendingWake = some w → terminating.bind Termination.wake = some w)
    (hprocess : ∀ P call, s.call P = some call →
      P ∈ l' ∧ table.zombie P = false ∧ table.childWq P = s.table.childWq P)
    (hmatch : ∀ P call, s.call P = some call → ∀ p ∈ l',
      table.isMatch P call.want p = true → table.zombie p = true →
        terminating.bind Termination.wake = some (s.table.childWq P) ∨
          (p ∈ l ∧ s.table.isMatch P call.want p = true ∧ s.table.zombie p = true)) :
    { s with table := table, terminating := terminating }.Inv q l' := by
  refine ⟨h.tracked, ⟨htree, horphans, hleaving⟩, fun P call hcall => ?_, h.threads⟩
  obtain ⟨hmem, hrun, hwq⟩ := hprocess P call hcall
  have hinv := h.calls P call hcall
  refine ⟨hmem, hrun, ⟨hinv.snap.1, hinv.snap.2.trans hwq.symm⟩, hinv.checked, ?_, ?_,
    fun k hk => ?_⟩
  · change _ → _ = some (table.childWq P) → _
    rw [hwq]
    exact hinv.blocked
  · change _ ∈ q.waiting (table.childWq P) → _
    rw [hwq]
    exact hinv.linked
  · obtain ⟨hle, hquiet⟩ := hinv.children k hk
    change k ≤ s.wake.wakes (table.childWq P) ∧ (k = s.wake.wakes (table.childWq P) →
      terminating.bind Termination.wake = some (table.childWq P) ∨ _)
    rw [hwq]
    refine ⟨hle, fun heq => ?_⟩
    rcases hquiet heq with hpend | hquiet
    · exact Or.inl (hpending _ hpend)
    · by_cases hpend : terminating.bind Termination.wake = some (s.table.childWq P)
      · exact Or.inl hpend
      · refine Or.inr fun p hp hm => ?_
        by_contra hz
        have hz : table.zombie p = true := by simpa using hz
        rcases hmatch P call hcall p hp hm hz with hpend' | ⟨hold, hm, hz⟩
        · exact hpend hpend'
        · rw [hquiet p hold hm] at hz
          cases hz

/-- Creation. -/
theorem Inv.process (h : s.Inv q l) {e : ProcessStep} (hallows : s.Allows (.process e))
    (hbound : s.table.created + e.creations < 2 ^ 32 - 1) :
    ∃ s' l', s.step (.process e) = some s' ∧ s'.Inv q l' ∧
      s'.table.created = s.table.created + e.creations := by
  have htree := h.table.tree
  have htakePid : ∀ p parent, p ∉ s.table.live → s.terminating = none →
      (∀ r, parent = some r → r ∈ l ∧ s.table.zombie r = false) →
        s.table.created + 1 < 2 ^ 32 - 1 → { s with table := s.table.takePid p parent }.Inv q l := by
    intro p parent hp hlock hparent hbound
    have hother : ∀ r ∈ l, (s.table.takePid p parent).process r = s.table.process r := by
      intro r hr
      apply ProcessTable.process_takePid_of_ne
      rintro rfl
      exact htree.notKnown_of_not_live hp (Or.inl hr)
    refine h.setTable s.terminating (htree.takePid hp parent hparent hbound)
      (htree.noOrphans_takePid h.table.noOrphans hp parent) (fun proc wake hw => ?_)
      (fun _ hw => hw) (fun P call hcall => ?_) fun P call hcall r hr hm hz => Or.inr ⟨hr, ?_, ?_⟩
    · rw [hlock] at hw
      cases hw
    · have hinv := h.calls P call hcall
      exact ⟨hinv.mem, (congrArg Process.zombie (hother P hinv.mem)).trans hinv.running,
        congrArg Process.childWq (hother P hinv.mem)⟩
    · have hP := (h.calls P call hcall).mem
      simp only [ProcessTable.isMatch, ProcessTable.ppid, ProcessTable.pid, hother r hr,
        hother P hP] at hm ⊢
      exact hm
    · exact (congrArg Process.zombie (hother r hr)).symm.trans hz
  cases e with
  | create p =>
      exact ⟨_, l, rfl, htakePid p none hallows.1 hallows.2 (by rintro - ⟨⟩) hbound, rfl⟩
  | clone p parent =>
      obtain ⟨⟨hp, hruns⟩, hlock⟩ := hallows
      refine ⟨_, l, rfl, htakePid p (some parent) hp hlock (fun r hr => ?_) hbound, rfl⟩
      obtain rfl := Option.some.inj hr
      exact htree.runs_iff.mp hruns
  | register p =>
      obtain ⟨hp, hlock⟩ := hallows
      have hp : p ∈ s.table.building := hp
      have hrun := htree.building p hp
      refine ⟨_, p :: l, rfl, h.setTable s.terminating (htree.processRegister hp)
        (fun r hr hz => ?_) (fun proc wake hw => ?_) (fun _ hw => hw) (fun P call hcall => ?_)
        fun P call _ r hr hm hz => ?_, rfl⟩
      · rcases List.mem_cons.mp hr with rfl | hr
        · exact absurd (hrun.symm.trans hz) (by simp)
        · exact h.table.noOrphans r hr hz
      · rw [hlock] at hw
        cases hw
      · have hinv := h.calls P call hcall
        exact ⟨List.mem_cons_of_mem p hinv.mem, hinv.running, rfl⟩
      · rcases List.mem_cons.mp hr with rfl | hr
        · exact absurd (hrun.symm.trans hz) (by simp)
        · exact Or.inr ⟨hr, hm, hz⟩
  | notStarted p =>
      refine ⟨_, l, rfl, h.setTable s.terminating (htree.notStarted hallows)
        h.table.noOrphans (fun proc wake hw => ?_) (fun _ hw => hw) (fun P call hcall => ?_)
        fun P call _ r hr hm hz => Or.inr ⟨hr, hm, hz⟩, rfl⟩
      · obtain ⟨hmem, hrun, hchildless, hnone⟩ := h.table.leaving proc wake hw
        exact ⟨hmem, hrun, fun r hr => hchildless r (hr.imp id List.mem_of_mem_erase), hnone⟩
      · have hinv := h.calls P call hcall
        exact ⟨hinv.mem, hinv.running, rfl⟩
  | terminate proc status => exact absurd hallows id
  | waitChild parent pid => exact absurd hallows id

/-- `process_terminate` begins. -/
theorem Inv.terminate (h : s.Inv q l) {status : BitVec 32}
    (hallows : s.Allows (.terminate proc status)) :
    ∃ s' l', s.step (.terminate proc status) = some s' ∧ s'.Inv q l' ∧
      s'.table.created = s.table.created := by
  obtain ⟨⟨hruns, hne, hbuilding⟩, hlock, hnone⟩ := hallows
  obtain ⟨hproc, hrun⟩ := h.table.tree.runs_iff.mp hruns
  have hpid : (s.table.setExitStatus proc status).pid = s.table.pid :=
    ProcessTable.pid_setProcess rfl
  have hppid : (s.table.setExitStatus proc status).ppid = s.table.ppid :=
    ProcessTable.ppid_setProcess rfl
  have hzombie : (s.table.setExitStatus proc status).zombie = s.table.zombie :=
    ProcessTable.zombie_setProcess rfl
  have hwq : (s.table.setExitStatus proc status).childWq = s.table.childWq :=
    ProcessTable.childWq_setProcess rfl
  obtain ⟨table, l', orphans, wake, hexec, hout⟩ :=
    (h.table.tree.setExitStatus hproc status).handChildrenOn
      (h.table.noOrphans.setExitStatus proc status) hproc (by rw [hzombie]; exact hrun)
      (by rw [hpid]; exact hne) (by rw [hpid, hppid]; exact hbuilding)
  have hpidEq := hout.pid.trans hpid
  have hzombieEq := hout.zombie.trans hzombie
  have hwqEq := hout.childWq.trans hwq
  have hkept : ∀ P, P ∈ l → s.table.zombie P = false → P ∈ l' := by
    intro P hP hPrun
    refine (hout.mem P).mpr ⟨hP, fun hor => ?_⟩
    have hz := ((hout.memOrphans P).mp hor).2.2.1
    rw [hzombie, hPrun] at hz
    cases hz
  refine ⟨_, l', by rw [Wait4State.step, Wait4State.terminate, hexec]; rfl,
    h.setTable (some (.handedOn proc wake)) hout.tree hout.noOrphans
      (fun proc' wake' hw => ?_) (fun w hw => ?_) (fun P call hcall => ?_)
      fun P call hcall p hp hm hz => ?_, hout.created⟩
  · cases hw
    refine ⟨hkept proc hproc hrun, ?_, hout.noChildren, hnone⟩
    rw [hzombieEq]
    exact hrun
  · rw [pendingWake, hlock] at hw
    cases hw
  · have hinv := h.calls P call hcall
    refine ⟨hkept P hinv.mem hinv.running, ?_, congrFun hwqEq P⟩
    rw [hzombieEq]
    exact hinv.running
  · have hinv := h.calls P call hcall
    simp only [ProcessTable.isMatch, decide_eq_true_eq, hpidEq] at hm ⊢
    rw [hzombieEq] at hz
    rcases hout.wake p hp (by rw [hzombie]; exact hz) P (hkept P hinv.mem hinv.running)
      (by rw [hpid]; exact hm.1) with hold | hwake
    · rw [hpid, hppid] at hold
      exact Or.inr ⟨((hout.mem p).mp hp).1, ⟨hold, hm.2⟩, hz⟩
    · rw [hwq] at hwake
      exact Or.inl hwake

theorem terminateNext_of_leaveTree {table : ProcessTable} {wake : Option ℕ}
    (hphase : s.terminating = some (.handedOn proc none))
    (hexec : s.table.leaveTree proc = some (table, wake)) :
    s.step .terminateNext = some { s with table := table, terminating := some (.left wake) } := by
  rw [Wait4State.step, Wait4State.terminateNext, hphase]
  simp only [hexec]
  rfl

/-- `process_terminate` goes on. -/
theorem Inv.terminateNext (h : s.Inv q l) :
    ∃ s' q' l', s.step .terminateNext = some s' ∧ s'.Inv q' l' ∧
      s'.table.created = s.table.created := by
  rcases hphase : s.terminating with _ | ⟨proc, _ | wq⟩ | ⟨_ | wq⟩
  · exact ⟨s, q, l, by rw [Wait4State.step, Wait4State.terminateNext, hphase], h, rfl⟩
  · obtain ⟨hproc, hrun, hchildless, hnone⟩ := h.table.leaving proc none hphase
    have hpendingNone : s.pendingWake = none := by
      rw [pendingWake, hphase]
      rfl
    rcases h.table.tree.leaveTree_cases hproc with
      ⟨parent, hparent, hppid, hpid, hrunP, hexec⟩ | ⟨hppid, links, hlist, hexec⟩
    · have htree := h.table.tree.setProcess hproc { s.table.process proc with zombie := true }
        rfl rfl rfl (Or.inr hchildless)
      have hother : ∀ p, p ≠ proc → (s.table.setProcess proc
          { s.table.process proc with zombie := true }).zombie p = s.table.zombie p := fun p hp =>
        congrArg Process.zombie (ProcessTable.process_setProcess_of_ne hp)
      have hpidEq : (s.table.setProcess proc
          { s.table.process proc with zombie := true }).pid = s.table.pid :=
        ProcessTable.pid_setProcess rfl
      have hppidEq : (s.table.setProcess proc
          { s.table.process proc with zombie := true }).ppid = s.table.ppid :=
        ProcessTable.ppid_setProcess rfl
      have hwqEq : (s.table.setProcess proc
          { s.table.process proc with zombie := true }).childWq = s.table.childWq :=
        ProcessTable.childWq_setProcess rfl
      refine ⟨_, q, l, terminateNext_of_leaveTree hphase hexec,
        h.setTable (some (.left (some (s.table.childWq parent))))
          ⟨htree.list, htree.disjoint, htree.nodup, htree.live, htree.queues, htree.pid,
            htree.born, htree.nextPid, htree.bound, htree.building, htree.parent⟩
          (fun p hp hz => ?_) (by rintro - - ⟨⟩) (fun w hw => ?_) (fun P call hcall => ?_)
          fun P call hcall p hp hfound hz => ?_, rfl⟩
      · change (s.table.setProcess proc _).ppid p ≠ 0
        rw [hppidEq]
        rcases eq_or_ne p proc with rfl | hp'
        · exact hppid
        · exact h.table.noOrphans p hp ((hother p hp').symm.trans hz)
      · rw [hpendingNone] at hw
        cases hw
      · have hinv := h.calls P call hcall
        have hP : P ≠ proc := by
          rintro rfl
          rw [hnone] at hcall
          cases hcall
        exact ⟨hinv.mem, (hother P hP).trans hinv.running, congrFun hwqEq P⟩
      · have hinv := h.calls P call hcall
        have hm : (s.table.setProcess proc
          { s.table.process proc with zombie := true }).isMatch P call.want p = true := hfound
        simp only [ProcessTable.isMatch, decide_eq_true_eq, hpidEq, hppidEq] at hm ⊢
        rcases eq_or_ne p proc with rfl | hp'
        · left
          have hP : parent = P := h.table.tree.pid_inj (Or.inl hparent) (Or.inl hinv.mem)
            (hpid.trans hm.1)
          rw [hP]
          rfl
        · exact Or.inr ⟨hp, hm, (hother p hp').symm.trans hz⟩
    · have hmem : ∀ p, p ∈ l.erase proc ↔ p ≠ proc ∧ p ∈ l :=
        fun p => h.table.tree.list.nodup.mem_erase_iff
      refine ⟨_, q, l.erase proc, terminateNext_of_leaveTree hphase hexec,
        h.setTable (some (.left none))
          (h.table.tree.erase hproc (Or.inr hchildless) hlist rfl rfl rfl rfl rfl)
          (fun p hp hz => h.table.noOrphans p (List.mem_of_mem_erase hp) hz) (by rintro - - ⟨⟩)
          (fun w hw => ?_) (fun P call hcall => ?_)
          fun P call hcall p hp hm hz => Or.inr ⟨List.mem_of_mem_erase hp, hm, hz⟩, rfl⟩
      · rw [hpendingNone] at hw
        cases hw
      · have hinv := h.calls P call hcall
        refine ⟨(hmem P).mpr ⟨?_, hinv.mem⟩, hinv.running, rfl⟩
        rintro rfl
        rw [hnone] at hcall
        cases hcall
  · have hpending : ∀ w, s.pendingWake = some w → w = wq := by
      intro w hw
      rw [pendingWake, hphase] at hw
      exact (Option.some.inj hw).symm
    obtain ⟨wake, q', hrun, hinv⟩ := h.wakeAll wq (some (.handedOn proc none))
      (fun w hw => Or.inr (hpending w hw)) fun proc' w hw => ⟨some wq, by cases hw; exact hphase⟩
    refine ⟨_, q', l, ?_, hinv, rfl⟩
    rw [Wait4State.step, Wait4State.terminateNext, hphase]
    simp only [hrun]
    rfl
  · refine ⟨_, q, l, by rw [Wait4State.step, Wait4State.terminateNext, hphase],
      h.setTable none h.table.tree h.table.noOrphans (by rintro - - ⟨⟩)
        (fun w hw => ?_) (fun P call hcall => ?_)
        fun P call hcall p hp hm hz => Or.inr ⟨hp, hm, hz⟩, rfl⟩
    · rw [pendingWake, hphase] at hw
      cases hw
    · have hinv := h.calls P call hcall
      exact ⟨hinv.mem, hinv.running, rfl⟩
  · have hpending : ∀ w, s.pendingWake = some w → w = wq := by
      intro w hw
      rw [pendingWake, hphase] at hw
      exact (Option.some.inj hw).symm
    obtain ⟨wake, q', hrun, hinv⟩ := h.wakeAll wq (some (.left none))
      (fun w hw => Or.inr (hpending w hw)) (by rintro - - ⟨⟩)
    refine ⟨_, q', l, ?_, hinv, rfl⟩
    rw [Wait4State.step, Wait4State.terminateNext, hphase]
    simp only [hrun]
    rfl

end Wait4State

end Utopia
