/-
No wake-up is lost: between the snapshot that a thread waits with and the moment it
is in the list of its wait queue, the queue has not been woken.
-/
import Utopia.Exec.SchedulerRun

namespace Utopia

namespace Scheduler

variable {s s' : Scheduler} {q q' : Queues} {t u : ThreadPtr} {cpu wq : ℕ}

/-- A step other than a wait or a wake-up: waits end or stay as they are, and threads
come into a wait queue only behind their processor's next critical section. -/
structure KeepsWaits (s : Scheduler) (q : Queues) (s' : Scheduler) (q' : Queues) : Prop where
  placed : s'.Placed q'
  seq : ∀ wq, (s'.waitQueue wq).seq = (s.waitQueue wq).seq
  waiting : ∀ wq u, u ∈ q'.waiting wq → u ∈ q.waiting wq ∨
    ((s.thread u).state = .blocked ∧ (s.thread u).waitingOn = some wq ∧
      (s.waitQueue wq).seq = (s.thread u).waitSeq)
  waits : ∀ u wq, (s'.thread u).waitingOn = some wq → (s'.thread u).state = .blocked →
    (s.thread u).waitingOn = some wq ∧ (s.thread u).state = .blocked ∧
      (s'.thread u).waitSeq = (s.thread u).waitSeq

theorem KeepsRecords.waits (h : s.KeepsRecords s') (hon : (s'.thread u).waitingOn = some wq)
    (hblocked : (s'.thread u).state = .blocked) :
    (s.thread u).waitingOn = some wq ∧ (s.thread u).state = .blocked ∧
      (s'.thread u).waitSeq = (s.thread u).waitSeq := by
  obtain ⟨-, hseq, hsame, hstate⟩ := h u
  refine ⟨?_, hstate hblocked, hseq⟩
  rcases hsame with hsame | hnone
  · rw [← hsame, hon]
  · rw [hnone] at hon
    cases hon

theorem Placed.keepsWaits_of_records (h : s'.Placed q')
    (hseq : ∀ wq, (s'.waitQueue wq).seq = (s.waitQueue wq).seq)
    (hwaiting : ∀ wq u, u ∈ q'.waiting wq → u ∈ q.waiting wq) (hrecords : s.KeepsRecords s') :
    s.KeepsWaits q s' q' :=
  ⟨h, hseq, fun wq u hu => Or.inl (hwaiting wq u hu), fun _ _ => hrecords.waits⟩

/-- A record changes to one that does not wait. -/
theorem keepsWaits_setThread (v : Thread) (hv : v.waitingOn = none ∨ v.state ≠ .blocked)
    (hplaced : s'.Placed q) (hthread : s'.thread = Function.update s.thread t v)
    (hseq : ∀ wq, (s'.waitQueue wq).seq = (s.waitQueue wq).seq) : s.KeepsWaits q s' q := by
  refine ⟨hplaced, hseq, fun _ _ hu => Or.inl hu, fun u wq hon hblocked => ?_⟩
  rw [hthread] at hon hblocked ⊢
  by_cases hu : u = t
  · subst hu
    rw [Function.update_self] at hon hblocked
    rcases hv with hv | hv
    · rw [hv] at hon
      cases hon
    · exact absurd hblocked hv
  · rw [Function.update_of_ne hu] at hon hblocked ⊢
    exact ⟨hon, hblocked, rfl⟩

theorem Placed.keepsWaits_refl (h : s.Placed q) : s.KeepsWaits q s q :=
  h.keepsWaits_of_records (fun _ => rfl) (fun _ _ hu => hu) (keepsRecords_of_unlinked fun _ => rfl)

/-- A step that neither waits nor wakes. -/
theorem Placed.step_keepsWaits (h : s.Placed q) {e : SchedulerStep} (hallows : s.Allows e)
    (hwait : ∀ cpu wq seq, e ≠ .wait cpu wq seq) (hwake : ∀ wq, e ≠ .wakeAll wq) :
    ∃ s' q', s.step e = some s' ∧ s.KeepsWaits q s' q' := by
  cases e with
  | create t process =>
      exact ⟨_, q, rfl, keepsWaits_setThread _ (Or.inl rfl) (h.tcbAlloc hallows process) rfl
        fun _ => rfl⟩
  | registerIdle cpu t =>
      obtain ⟨hnew, hcurrent, hidle⟩ := hallows
      exact ⟨_, q, rfl, keepsWaits_setThread _ (Or.inr (by simp))
        (h.registerIdle hnew hcurrent hidle) rfl fun _ => rfl⟩
  | enqueue t =>
      have hslots := enqueueLocked_sameSlots (s := s) (t := t)
      refine ⟨_, _, rfl, h.enqueueLocked (h.nowhere_of_isNew hallows) hallows.1
        (h.not_idle_of_isNew hallows), fun wq => by rw [hslots.waitQueue],
        fun _ _ hu => Or.inl hu, fun u wq hon hblocked => ?_⟩
      have hu := unlinked_enqueueLocked (s := s) (t := t) (u := u)
      rw [state_enqueueLocked] at hblocked
      have hut : u ≠ t := by
        rintro rfl
        rw [if_pos rfl] at hblocked
        cases hblocked
      rw [if_neg hut] at hblocked hu
      have honEq := congrArg Thread.waitingOn hu
      have hseqEq := congrArg Thread.waitSeq hu
      exact ⟨honEq.symm.trans hon, hblocked, hseqEq⟩
  | schedule cpu interruptedKernel =>
      cases hcurr : s.switchable cpu interruptedKernel with
      | none =>
          refine ⟨s, q, ?_, h.keepsWaits_refl⟩
          rw [Scheduler.step, Scheduler.schedule, hcurr]
      | some curr =>
          obtain ⟨next, q', hsched⟩ := h.scheduleFrom (switchable_eq_some hcurr)
          refine ⟨s.scheduleFrom cpu curr, q', ?_, hsched.placed, hsched.seq,
            fun wq u hu => ?_, fun _ _ => hsched.records.waits⟩
          · rw [Scheduler.step, Scheduler.schedule, hcurr]
          · rcases hsched.waiting wq u hu with hold | ⟨hpark, hon, hseq⟩
            · exact Or.inl hold
            · exact Or.inr ⟨(h.fits (.park cpu) u hpark).2, hon, hseq⟩
  | wait cpu wq seq => exact absurd rfl (hwait cpu wq seq)
  | resume cpu =>
      refine ⟨_, q, rfl, ?_⟩
      have hplaced := h.resume cpu
      rw [Scheduler.resume] at hplaced ⊢
      cases hc : s.current cpu with
      | none => exact h.keepsWaits_refl
      | some curr =>
          rw [hc] at hplaced
          dsimp only at hplaced ⊢
          split_ifs at hplaced ⊢
          · refine keepsWaits_setThread (t := curr)
              { s.thread curr with waitingOn := none, state := .running } (Or.inl rfl) hplaced ?_
              fun _ => rfl
            simp [setState, clearWaitingOn, Scheduler.setThread]
          · exact h.keepsWaits_refl
  | wakeAll wq => exact absurd rfl (hwake wq)
  | exit cpu =>
      refine ⟨_, q, rfl, ?_⟩
      have hplaced := h.exit cpu
      rw [Scheduler.exit] at hplaced ⊢
      cases hc : s.current cpu with
      | none => exact h.keepsWaits_refl
      | some curr =>
          rw [hc] at hplaced
          dsimp only at hplaced ⊢
          split_ifs at hplaced ⊢
          · exact h.keepsWaits_refl
          · exact keepsWaits_setThread (t := curr) _ (Or.inr (by simp)) hplaced rfl fun _ => rfl
  | reapDetach k =>
      exact ⟨_, _, rfl, (h.reapDetach hallows).keepsWaits_of_records (fun _ => rfl)
        (fun _ _ hu => hu) (keepsRecords_of_unlinked fun _ => rfl)⟩
  | reapFree k =>
      cases hk : s.detached k with
      | none =>
          have hsame : s.reapFree k = s := by simp only [Scheduler.reapFree, hk]
          refine ⟨_, q, rfl, ?_⟩
          rw [hsame]
          exact h.keepsWaits_refl
      | some t =>
          obtain ⟨l, -, hplaced⟩ := h.reapFree hk
          have hfree : s.reapFree k = { s with
              detached := Function.update s.detached k (s.next t), live := s.live \ {t} } := by
            simp only [Scheduler.reapFree, hk]
          refine ⟨_, { q with detached := Function.update q.detached k l }, rfl, ?_⟩
          rw [hfree] at hplaced ⊢
          exact hplaced.keepsWaits_of_records (fun _ => rfl) (fun _ _ hu => hu)
            (keepsRecords_of_unlinked fun _ => rfl)
  | lockContextSwitch =>
      have hplaced : ({ s with contextSwitchLock := true } : Scheduler).Placed q :=
        h.mono ⟨h.linked.ready, h.linked.tail, h.linked.waiting, h.linked.zombies,
          h.linked.detached, h.linked.fifo⟩ (fun p u hp => by cases p <;> exact hp) rfl rfl rfl rfl
      exact ⟨_, q, rfl, hplaced.keepsWaits_of_records (fun _ => rfl) (fun _ _ hu => hu)
        (keepsRecords_of_unlinked fun _ => rfl)⟩

/-- `scheduler_wait` sets the record of the current thread at most. -/
theorem wait_thread (s : Scheduler) (cpu wq : ℕ) (seq : BitVec 64) :
    s.wait cpu wq seq = s ∨ ∃ curr, s.current cpu = some curr ∧ (s.waitQueue wq).seq = seq ∧
      s.wait cpu wq seq = s.setThread curr
        { s.thread curr with waitingOn := some wq, waitSeq := seq, state := .blocked } := by
  rw [Scheduler.wait]
  split_ifs with hseq
  · exact Or.inl rfl
  · cases hc : s.current cpu with
    | none => exact Or.inl rfl
    | some curr =>
        dsimp only
        split_ifs
        · exact Or.inl rfl
        · exact Or.inr ⟨curr, rfl, not_not.mp hseq, rfl⟩

end Scheduler

/-- A call of `wait_queue_snapshot`: its queue, its value, and how often the queue had
been woken. -/
structure Snapshot where
  wq : ℕ
  seq : BitVec 64
  wakes : ℕ
deriving DecidableEq, Repr

/-- The scheduler with the history of its wait queues: the calls of
`scheduler_wake_all`, the snapshots, and for each thread the wake-ups before the
snapshot that it waited with last. -/
structure WakeState where
  sched : Scheduler
  wakes : ℕ → ℕ
  snapshots : List Snapshot
  ticket : ThreadPtr → ℕ

inductive WakeStep where
  | snapshot (wq : ℕ)
  | wait (cpu : ℕ) (snap : Snapshot)
  | wakeAll (wq : ℕ)
  | other (e : SchedulerStep)
deriving DecidableEq, Repr

namespace WakeState

variable (s : WakeState)

def takeSnapshot (wq : ℕ) : Snapshot := ⟨wq, s.sched.waitQueueSnapshot wq, s.wakes wq⟩

def wait (cpu : ℕ) (snap : Snapshot) : WakeState :=
  { s with
    sched := s.sched.wait cpu snap.wq snap.seq
    ticket := match s.sched.current cpu with
      | none => s.ticket
      | some t => Function.update s.ticket t snap.wakes }

def wakeAll (wq : ℕ) : Option WakeState :=
  (s.sched.wakeAll wq).map fun sched =>
    { s with sched := sched, wakes := Function.update s.wakes wq (s.wakes wq + 1) }

def step : WakeStep → Option WakeState
  | .snapshot wq => some { s with snapshots := s.takeSnapshot wq :: s.snapshots }
  | .wait cpu snap => some (s.wait cpu snap)
  | .wakeAll wq => s.wakeAll wq
  | .other e => (s.sched.step e).map fun sched => { s with sched := sched }

/-- Threads wait with the value of an earlier snapshot of the queue. -/
def Allows : WakeStep → Prop
  | .snapshot _ => True
  | .wait cpu snap => snap ∈ s.snapshots ∧ s.sched.Allows (.wait cpu snap.wq snap.seq)
  | .wakeAll _ => True
  | .other e => s.sched.Allows e ∧ (∀ cpu wq seq, e ≠ .wait cpu wq seq) ∧ ∀ wq, e ≠ .wakeAll wq

def initial : WakeState := ⟨Scheduler.initial, fun _ => 0, [], fun _ => 0⟩

variable {s} {s' : WakeState} {q q' : Queues} {t : ThreadPtr} {cpu wq : ℕ}

/-- The sequence numbers follow the wake-ups, and threads in a wait queue hold the
ticket of its last one. -/
structure Tracked (s : WakeState) (q : Queues) : Prop where
  placed : s.sched.Placed q
  seq : ∀ wq, (s.sched.waitQueue wq).seq = BitVec.ofNat 64 (s.wakes wq)
  snaps : ∀ snap ∈ s.snapshots, snap.seq = BitVec.ofNat 64 snap.wakes ∧
    snap.wakes ≤ s.wakes snap.wq
  tickets : ∀ t wq, (s.sched.thread t).state = .blocked →
    (s.sched.thread t).waitingOn = some wq →
      (s.sched.thread t).waitSeq = BitVec.ofNat 64 (s.ticket t) ∧ s.ticket t ≤ s.wakes wq
  linked : ∀ wq t, t ∈ q.waiting wq → s.ticket t = s.wakes wq

theorem initial_tracked : initial.Tracked ⟨[], fun _ => [], [], fun _ => []⟩ :=
  ⟨Scheduler.initial_placed, fun _ => rfl, fun _ => nofun, fun _ _ => nofun, fun _ _ => nofun⟩

/-- Below 2^64 the sequence number tells the wake-ups apart. -/
theorem Tracked.ticket_eq (h : s.Tracked q) (hwakes : s.wakes wq < 2 ^ 64)
    (hblocked : (s.sched.thread t).state = .blocked)
    (hon : (s.sched.thread t).waitingOn = some wq)
    (hseq : (s.sched.waitQueue wq).seq = (s.sched.thread t).waitSeq) :
    s.ticket t = s.wakes wq := by
  obtain ⟨hticket, hle⟩ := h.tickets t wq hblocked hon
  rw [h.seq, hticket] at hseq
  have hnat := congrArg BitVec.toNat hseq
  rw [BitVec.toNat_ofNat, BitVec.toNat_ofNat, Nat.mod_eq_of_lt hwakes,
    Nat.mod_eq_of_lt (lt_of_le_of_lt hle hwakes)] at hnat
  exact hnat.symm

/-- A step of the scheduler that neither waits nor wakes. -/
theorem Tracked.keepsWaits (h : s.Tracked q) (hwakes : ∀ wq, s.wakes wq < 2 ^ 64)
    {sched : Scheduler} (hkeeps : s.sched.KeepsWaits q sched q') :
    { s with sched := sched }.Tracked q' := by
  refine ⟨hkeeps.placed, fun wq => (hkeeps.seq wq).trans (h.seq wq), h.snaps,
    fun t wq hblocked hon => ?_, fun wq t ht => ?_⟩
  · obtain ⟨hon, hblocked, hseq⟩ := hkeeps.waits t wq hon hblocked
    obtain ⟨hticket, hle⟩ := h.tickets t wq hblocked hon
    exact ⟨hseq.trans hticket, hle⟩
  · rcases hkeeps.waiting wq t ht with hold | ⟨hblocked, hon, hseq⟩
    · exact h.linked wq t hold
    · exact h.ticket_eq (hwakes wq) hblocked hon hseq

theorem Tracked.takeSnapshot (h : s.Tracked q) (wq : ℕ) :
    { s with snapshots := s.takeSnapshot wq :: s.snapshots }.Tracked q := by
  refine ⟨h.placed, h.seq, fun snap hsnap => ?_, h.tickets, h.linked⟩
  rcases List.mem_cons.mp hsnap with rfl | hsnap
  · exact ⟨h.seq wq, le_rfl⟩
  · exact h.snaps snap hsnap

theorem wait_ticket_of_ne (s : WakeState) (snap : Snapshot)
    (ht : s.sched.current cpu ≠ some t) : (s.wait cpu snap).ticket t = s.ticket t := by
  rw [WakeState.wait]
  cases hc : s.sched.current cpu with
  | none => rfl
  | some curr =>
      apply Function.update_of_ne
      rintro rfl
      exact ht hc

theorem wait_thread_of_ne (s : WakeState) (snap : Snapshot)
    (ht : s.sched.current cpu ≠ some t) :
    (s.wait cpu snap).sched.thread t = s.sched.thread t := by
  rcases s.sched.wait_thread cpu snap.wq snap.seq with heq | ⟨curr, hcurr, -, heq⟩
  · simp only [WakeState.wait, heq]
  · simp only [WakeState.wait, heq, Scheduler.thread_setThread]
    apply Function.update_of_ne
    rintro rfl
    exact ht hcurr

/-- The thread that waits is on its processor, so it is in no wait queue. -/
theorem Tracked.wait (h : s.Tracked q) {snap : Snapshot} (hsnap : snap ∈ s.snapshots)
    (hallows : s.sched.Allows (.wait cpu snap.wq snap.seq)) : (s.wait cpu snap).Tracked q := by
  obtain ⟨hseqSnap, hle⟩ := h.snaps snap hsnap
  have hplaced := h.placed.wait cpu snap.wq snap.seq
  have hwaitQueue : (s.sched.wait cpu snap.wq snap.seq).waitQueue = s.sched.waitQueue := by
    rcases s.sched.wait_thread cpu snap.wq snap.seq with heq | ⟨curr, -, -, heq⟩ <;> rw [heq]
    rfl
  refine ⟨hplaced, fun wq => (congrArg _ (congrFun hwaitQueue wq)).trans (h.seq wq), h.snaps,
    fun t wq hblocked hon => ?_, fun wq t ht => ?_⟩
  · by_cases ht : s.sched.current cpu = some t
    · have hself : (s.wait cpu snap).ticket t = snap.wakes := by
        simp [WakeState.wait, ht]
      have hrunning := hallows t ht
      rw [hself]
      rcases s.sched.wait_thread cpu snap.wq snap.seq with heq | ⟨curr, hcurr, -, heq⟩
      · have hblocked : (s.sched.thread t).state = .blocked := by
          rw [WakeState.wait, heq] at hblocked
          exact hblocked
        rw [hrunning] at hblocked
        cases hblocked
      · obtain rfl := Option.some.inj (hcurr.symm.trans ht)
        simp only [WakeState.wait, heq, Scheduler.thread_setThread, Function.update_self,
          Option.some.injEq] at hon ⊢
        subst hon
        exact ⟨hseqSnap, hle⟩
    · rw [s.wait_thread_of_ne snap ht] at hblocked hon ⊢
      rw [s.wait_ticket_of_ne snap ht]
      exact h.tickets t wq hblocked hon
  · rw [s.wait_ticket_of_ne]
    · exact h.linked wq t ht
    · intro hcurr
      have hplace := h.placed.unique (.current cpu) (.waiting wq) t hcurr ht
      cases hplace

theorem Tracked.wakeAll (h : s.Tracked q) (wq : ℕ) :
    ∃ s' q', s.wakeAll wq = some s' ∧ s'.Tracked q' ∧
      s'.wakes = Function.update s.wakes wq (s.wakes wq + 1) ∧ s'.ticket = s.ticket ∧
      (∀ w t, t ∈ q'.waiting w → t ∈ q.waiting w) ∧ s.sched.KeepsRecords s'.sched := by
  obtain ⟨sched, hrun, hplaced, hwaitQueue, hrecords, -⟩ := h.placed.wakeAll wq
  have hwaiting : ∀ w t, t ∈ Function.update q.waiting wq [] w → w ≠ wq ∧ t ∈ q.waiting w := by
    intro w t ht
    by_cases hw : w = wq
    · subst hw
      rw [Function.update_self] at ht
      cases ht
    · rw [Function.update_of_ne hw] at ht
      exact ⟨hw, ht⟩
  have hle : ∀ w, s.wakes w ≤ Function.update s.wakes wq (s.wakes wq + 1) w := by
    intro w
    by_cases hw : w = wq
    · subst hw
      rw [Function.update_self]
      exact Nat.le_succ _
    · rw [Function.update_of_ne hw]
  have hexec : s.wakeAll wq = some
      { s with sched := sched, wakes := Function.update s.wakes wq (s.wakes wq + 1) } := by
    rw [WakeState.wakeAll, hrun]
    rfl
  refine ⟨_, _, hexec, ⟨hplaced, fun w => ?_, fun snap hsnap => ?_,
    fun t w hblocked hon => ?_, fun w t ht => ?_⟩, rfl, rfl,
    fun w t ht => (hwaiting w t ht).2, hrecords⟩
  · change (sched.waitQueue w).seq = BitVec.ofNat 64 (Function.update s.wakes wq _ w)
    rw [hwaitQueue]
    by_cases hw : w = wq
    · subst hw
      rw [Function.update_self, Function.update_self]
      change (s.sched.waitQueue w).seq + 1 = _
      rw [h.seq]
      exact (BitVec.ofNat_add _ _).symm
    · rw [Function.update_of_ne hw, Function.update_of_ne hw]
      exact h.seq w
  · exact ⟨(h.snaps snap hsnap).1, (h.snaps snap hsnap).2.trans (hle _)⟩
  · obtain ⟨hon, hblocked, hseq⟩ := hrecords.waits hon hblocked
    obtain ⟨hticket, htle⟩ := h.tickets t w hblocked hon
    exact ⟨hseq.trans hticket, htle.trans (hle w)⟩
  · obtain ⟨hw, ht⟩ := hwaiting w t ht
    change s.ticket t = Function.update s.wakes wq _ w
    rw [Function.update_of_ne hw]
    exact h.linked w t ht

end WakeState

end Utopia
