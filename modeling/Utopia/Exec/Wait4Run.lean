/-
Runs of `wait4`: no wake-up is lost while there are pids.
-/
import Utopia.Exec.Wait4
import Utopia.Exec.ProcessRun

namespace Utopia

namespace WakeState

variable {s s' : WakeState}

theorem wakes_le_of_wakeAll {wq : ℕ} (h : s.wakeAll wq = some s') (w : ℕ) :
    s.wakes w ≤ s'.wakes w := by
  rw [WakeState.wakeAll, Option.map_eq_some_iff] at h
  obtain ⟨sched, -, rfl⟩ := h
  by_cases hw : w = wq
  · subst hw
    exact (Nat.le_succ _).trans_eq (Function.update_self w _ s.wakes).symm
  · exact (Function.update_of_ne hw _ s.wakes).ge

theorem wakes_le_of_step {e : WakeStep} (h : s.step e = some s') (w : ℕ) :
    s.wakes w ≤ s'.wakes w := by
  cases e with
  | snapshot wq =>
      obtain rfl := Option.some.inj h
      exact le_rfl
  | wait cpu snap =>
      obtain rfl := Option.some.inj h
      exact le_rfl
  | wakeAll wq => exact wakes_le_of_wakeAll h w
  | other e =>
      obtain ⟨_, -, rfl⟩ := Option.map_eq_some_iff.mp h
      exact le_rfl

end WakeState

namespace Wait4State

variable {s s' : Wait4State} {q q' : Queues} {l l' : List ProcessPtr} {P : ProcessPtr}
  {call : Wait4Call} {cpu : ℕ}

/-- `process_wait_child` and what `wait4` does with its value.  It goes on only when
no zombie matched. -/
theorem Inv.check (h : s.Inv q l) (hallows : s.Allows (.check cpu P)) :
    ∃ s' l', s.step (.check cpu P) = some s' ∧ s'.Inv q l' ∧
      s'.table.created = s.table.created := by
  obtain ⟨⟨call, hcall, hphase, hcurrent, hrunning⟩, hlock⟩ := hallows
  have hinv := h.calls P call hcall
  have hidle : ∀ proc wake, s.terminating ≠ some (.handedOn proc wake) := by
    rw [hlock]
    rintro proc wake ⟨⟩
  rcases ProcessTable.processWaitChild_cases h.table.tree.list P call.want with
    ⟨p, hp, -, hz, links, hlist, hexec⟩ | ⟨hnone, hexec⟩
  · have hret : s.table.pid p ≠ 0 := h.table.tree.pid_ne_zero (Or.inl hp)
    have herase : ({ s.table with
        links := links
        live := s.table.live \ {p}
        freed := s.table.freed ++ [(s.table.pid p,
          .reaped (s.table.pid P) (s.table.pid p) (s.table.exitStatus p))] } :
          ProcessTable).Tree (l.erase p) :=
      h.table.tree.erase hp (Or.inl hz) hlist rfl rfl rfl rfl rfl
    have hleft := h.setTable s.terminating herase
      (fun r hr hrz => h.table.noOrphans r (List.mem_of_mem_erase hr) hrz)
      (fun proc wake hw => absurd hw (hidle proc wake)) (fun _ hw => hw)
      (fun P' call' hcall' => ?_)
      fun P' call' _ r hr hm hrz => Or.inr ⟨List.mem_of_mem_erase hr, hm, hrz⟩
    · refine ⟨_, l.erase p, ?_, hleft.setCall (P := P) none (by rintro - ⟨⟩) (by rintro - ⟨⟩)
        (fun hne => absurd rfl hne), rfl⟩
      rw [Wait4State.step, hcall, Option.bind_some, Wait4State.check, hexec]
      simp only [Option.bind_eq_bind, Option.bind_some]
      rw [if_neg fun hzero => hret hzero.1]
      rfl
    · have hinv' := h.calls P' call' hcall'
      refine ⟨(h.table.tree.list.nodup.mem_erase_iff).mpr ⟨?_, hinv'.mem⟩, hinv'.running, rfl⟩
      rintro rfl
      rw [hinv'.running] at hz
      cases hz
  · generalize (if l.any (s.table.isMatch P call.want) then 0 else -1 : BitVec 32) = ret at hexec
    have hstep : s.step (.check cpu P) = some (if ret = 0 ∧ call.nohang = false then
          s.setCall P (some { call with phase := .checked, lastCheck := some call.snap.wakes })
        else s.setCall P none) := by
      rw [Wait4State.step, hcall, Option.bind_some, Wait4State.check, hexec]
      simp only [Option.bind_eq_bind, Option.bind_some]
      split_ifs <;> rfl
    refine ⟨_, l, hstep, ?_, by split_ifs <;> rfl⟩
    split_ifs with hret
    · refine h.setCall _ (fun c hc => ?_) (fun c hc P' call' hcall' => ?_) fun _ => hidle P
      · obtain rfl := Option.some.inj hc
        refine ⟨hinv.mem, hinv.running, hinv.snap, fun _ => rfl, fun hb => ?_,
          fun hq => absurd hq (h.not_linked hcurrent _), fun k hk => ?_⟩
        · have hb : (s.wake.sched.thread call.thread).state = .blocked := hb
          rw [hrunning] at hb
          cases hb
        · obtain rfl := Option.some.inj hk
          refine ⟨?_, fun _ => Or.inr hnone⟩
          rw [← hinv.snap.2]
          exact (h.tracked.snaps _ hinv.snap.1).2
      · obtain rfl := Option.some.inj hc
        exact h.threads P P' call call' hcall hcall'
    · exact h.setCall none (by rintro - ⟨⟩) (by rintro - ⟨⟩) fun hne => absurd rfl hne

/-- Every step is possible and keeps the invariant, as long as there are pids and
sequence numbers. -/
theorem Inv.step (h : s.Inv q l) {e : Wait4Step} (hallows : s.Allows e)
    (hbound : s.table.created + e.creations < 2 ^ 32 - 1)
    (hwakes : ∀ wq, s.wake.wakes wq < 2 ^ 64) :
    ∃ s' q' l', s.step e = some s' ∧ s'.Inv q' l' ∧
      s'.table.created = s.table.created + e.creations := by
  cases e with
  | process e =>
      obtain ⟨s', l', hstep, hinv, hcreated⟩ := h.process hallows hbound
      exact ⟨s', q, l', hstep, hinv, hcreated⟩
  | terminate proc status =>
      obtain ⟨s', l', hstep, hinv, hcreated⟩ := h.terminate hallows
      exact ⟨s', q, l', hstep, hinv, hcreated⟩
  | terminateNext => exact h.terminateNext
  | wait4 cpu P want nohang =>
      obtain ⟨s', hstep, hinv⟩ := h.wait4 hallows
      obtain ⟨_, -, hs'⟩ := Option.map_eq_some_iff.mp hstep
      exact ⟨s', q, l, hstep, hinv, hs' ▸ rfl⟩
  | again cpu P =>
      obtain ⟨s', hstep, hinv⟩ := h.again hallows
      obtain ⟨_, -, hs'⟩ := Option.map_eq_some_iff.mp hstep
      exact ⟨s', q, l, hstep, hinv, hs' ▸ rfl⟩
  | check cpu P =>
      obtain ⟨s', l', hstep, hinv, hcreated⟩ := h.check hallows
      exact ⟨s', q, l', hstep, hinv, hcreated⟩
  | sleep cpu P =>
      obtain ⟨s', hstep, hinv⟩ := h.sleep hallows
      obtain ⟨_, -, hs'⟩ := Option.map_eq_some_iff.mp hstep
      exact ⟨s', q, l, hstep, hinv, hs' ▸ rfl⟩
  | other e =>
      obtain ⟨s', q', hstep, hinv⟩ := h.other hwakes hallows
      obtain ⟨_, -, hs'⟩ := Option.map_eq_some_iff.mp hstep
      exact ⟨s', q', l, hstep, hinv, hs' ▸ rfl⟩

theorem wakes_le_of_terminateNext (h : s.terminateNext = some s') (w : ℕ) :
    s.wake.wakes w ≤ s'.wake.wakes w := by
  unfold terminateNext at h
  split at h
  · obtain rfl := Option.some.inj h
    exact le_rfl
  · obtain ⟨_, -, hs'⟩ := Option.bind_eq_some_iff.mp h
    obtain rfl := Option.some.inj hs'
    exact le_rfl
  · obtain rfl := Option.some.inj h
    exact le_rfl
  · obtain ⟨wake, hwake, hs'⟩ := Option.bind_eq_some_iff.mp h
    obtain rfl := Option.some.inj hs'
    exact WakeState.wakes_le_of_wakeAll hwake w
  · obtain ⟨wake, hwake, hs'⟩ := Option.bind_eq_some_iff.mp h
    obtain rfl := Option.some.inj hs'
    exact WakeState.wakes_le_of_wakeAll hwake w

theorem wakes_le_of_step {e : Wait4Step} (h : s.step e = some s') (w : ℕ) :
    s.wake.wakes w ≤ s'.wake.wakes w := by
  cases e with
  | process e =>
      obtain ⟨_, -, rfl⟩ := Option.map_eq_some_iff.mp h
      exact le_rfl
  | terminate proc status =>
      obtain ⟨_, -, hs'⟩ := Option.bind_eq_some_iff.mp h
      obtain rfl := Option.some.inj hs'
      exact le_rfl
  | terminateNext => exact wakes_le_of_terminateNext h w
  | wait4 cpu P want nohang =>
      obtain ⟨_, -, rfl⟩ := Option.map_eq_some_iff.mp h
      exact le_rfl
  | again cpu P =>
      obtain ⟨_, -, rfl⟩ := Option.map_eq_some_iff.mp h
      exact le_rfl
  | check cpu P =>
      obtain ⟨call, -, hcheck⟩ := Option.bind_eq_some_iff.mp h
      obtain ⟨r, -, hr⟩ := Option.bind_eq_some_iff.mp hcheck
      dsimp only at hr
      split_ifs at hr <;> obtain rfl := Option.some.inj hr <;> exact le_rfl
  | sleep cpu P =>
      obtain ⟨_, -, rfl⟩ := Option.map_eq_some_iff.mp h
      exact le_rfl
  | other e =>
      obtain ⟨wake, hwake, rfl⟩ := Option.map_eq_some_iff.mp h
      exact WakeState.wakes_le_of_step hwake w

theorem initial_inv : initial.Inv ⟨[], fun _ => [], [], fun _ => []⟩ [] :=
  ⟨WakeState.initial_tracked, ⟨ProcessTable.initial_sound.tree,
    ProcessTable.initial_sound.noOrphans, fun _ _ => nofun⟩, fun _ _ => nofun, fun _ _ _ _ => nofun⟩

end Wait4State

open Wait4State

theorem Wait4Reachable.inv {n : ℕ} {s : Wait4State} (h : Wait4Reachable n s)
    (hn : n < 2 ^ 32 - 1) (hwakes : ∀ wq, s.wake.wakes wq < 2 ^ 64) :
    s.table.created = n ∧ ∃ q l, s.Inv q l := by
  induction h with
  | initial => exact ⟨rfl, _, _, initial_inv⟩
  | @step n s s' e hs hallows hstep ih =>
      have hbefore : ∀ wq, s.wake.wakes wq < 2 ^ 64 := fun wq =>
        lt_of_le_of_lt (wakes_le_of_step hstep wq) (hwakes wq)
      obtain ⟨hcreated, q, l, hinv⟩ := ih (lt_of_le_of_lt (Nat.le_add_right n _) hn) hbefore
      obtain ⟨t, q', l', hexec, hinv', hcreated'⟩ :=
        hinv.step hallows (hcreated.symm ▸ hn) hbefore
      rw [hstep] at hexec
      obtain rfl := Option.some.inj hexec
      exact ⟨hcreated ▸ hcreated', q', l', hinv'⟩

/-- What sleeping threads can rely on.  The queue that a thread is in has not been
woken since the snapshot that the thread waits with; and the process of a thread that
sleeps in `wait4` has no zombie child to wait for, unless some process is about to
wake it. -/
def Wait4State.NoLostWakeUp (s : Wait4State) : Prop :=
  (∀ wq i t, s.wake.sched.threadAt (.waiting wq i) = some t → s.wake.ticket t = s.wake.wakes wq) ∧
  ∀ P call i, s.call P = some call →
    s.wake.sched.threadAt (.waiting (s.table.childWq P) i) = some call.thread →
    s.terminating = none →
    ∀ p j, nthNode s.table.links.next s.table.links.head j = some p →
      s.table.isMatch P call.want p = true → s.table.zombie p = false

/-- No wake-up is lost. -/
theorem wait4Reachable_noLostWakeUp {n : ℕ} {s : Wait4State} (h : Wait4Reachable n s)
    (hn : n < 2 ^ 32 - 1) (hwakes : ∀ wq, s.wake.wakes wq < 2 ^ 64) : s.NoLostWakeUp := by
  obtain ⟨-, q, l, hinv⟩ := h.inv hn hwakes
  have hwaiting : ∀ wq i t, s.wake.sched.threadAt (.waiting wq i) = some t →
      t ∈ q.waiting wq := fun wq i t ht => hinv.tracked.placed.occurs_of_threadAt ht
  refine ⟨fun wq i t ht => hinv.tracked.linked wq t (hwaiting wq i t ht),
    fun P call i hcall ht hlock p j hp hmatch => ?_⟩
  have hcallInv := hinv.calls P call hcall
  have hmem := hwaiting _ i _ ht
  have hlast := hcallInv.linked hmem
  have hticket := hinv.tracked.linked _ _ hmem
  rw [hinv.table.tree.list.nthNode_eq] at hp
  rcases (hcallInv.children _ hlast).2 hticket with hpending | hquiet
  · rw [pendingWake, hlock] at hpending
    cases hpending
  · exact hquiet p (List.mem_of_getElem? hp) hmatch

/-! ### Pids that come again -/

/-- Process 1 sleeps in `wait4`, and its child, process 2, runs. -/
structure Wait4State.Sleeper (s : Wait4State) : Prop where
  lock : s.terminating = none
  list : IsList s.table.links.next s.table.links.head [0x2000, 0x1000]
  parent : s.table.process 0x1000 = ⟨1, 0, false, 0, 1⟩
  child : s.table.process 0x2000 = ⟨2, 1, false, 0, 2⟩
  building : s.table.building = []
  fresh : 0x3000 ∉ s.table.live
  call : ∃ call, s.call 0x1000 = some call ∧ call.thread = 0x20 ∧ call.want = -1
  noCall : s.call 0x2000 = none
  asleep : s.wake.sched.threadAt (.waiting 1 0) = some 0x20
  empty : ∀ wq, wq ≠ 1 → (s.wake.sched.waitQueue wq).head = none
  wakes : ∀ wq, s.wake.wakes wq = 0

theorem sleeper_reachable :
    ∃ s, Wait4Reachable 2 s ∧ s.Sleeper ∧ s.table.nextPid = 3 ∧ s.table.created = 2 := by
  have h1 := Wait4Reachable.initial.step (e := .process (.create 0x1000))
    ⟨Set.notMem_empty _, rfl⟩ rfl
  have h2 := h1.step (e := .process (.register 0x1000)) ⟨List.mem_singleton_self _, rfl⟩ rfl
  have h3 := h2.step (e := .process (.clone 0x2000 0x1000))
    ⟨⟨by simp [Wait4State.initial, ProcessTable.initial, ProcessTable.takePid,
      ProcessTable.setProcess, ProcessTable.processRegister], ⟨0, rfl⟩, rfl⟩, rfl⟩ rfl
  have h4 := h3.step (e := .process (.register 0x2000)) ⟨List.mem_singleton_self _, rfl⟩ rfl
  have h5 := h4.step (e := .other (.other (.create 0x10 none)))
    ⟨Set.notMem_empty _, by rintro - - - ⟨⟩, by rintro - ⟨⟩⟩ rfl
  have h6 := h5.step (e := .other (.other (.registerIdle 0 0x10)))
    ⟨⟨⟨Set.mem_insert _ _, rfl⟩, rfl, rfl⟩, by rintro - - - ⟨⟩, by rintro - ⟨⟩⟩ rfl
  have h7 := h6.step (e := .other (.other (.create 0x20 (some 0x1000))))
    ⟨by simp [Scheduler.Allows, Scheduler.registerIdle, Scheduler.tcbAlloc, Wait4State.initial,
      WakeState.initial, Scheduler.initial, Scheduler.setState, Scheduler.setCurrent,
      Scheduler.setThread], by rintro - - - ⟨⟩, by rintro - ⟨⟩⟩ rfl
  have h8 := h7.step (e := .other (.other (.enqueue 0x20)))
    ⟨⟨Set.mem_insert _ _, rfl⟩, by rintro - - - ⟨⟩, by rintro - ⟨⟩⟩ rfl
  have h9 := h8.step (e := .other (.other (.schedule 0 false)))
    ⟨trivial, by rintro - - - ⟨⟩, by rintro - ⟨⟩⟩ rfl
  have h10 := h9.step (e := .wait4 0 0x1000 (-1) false)
    ⟨⟨⟨1, rfl⟩, rfl⟩, rfl, by rintro - ⟨⟩, 0x20, rfl, rfl, by rintro - - ⟨⟩⟩ rfl
  have h11 := h10.step (e := .check 0 0x1000) ⟨⟨_, rfl, rfl, rfl, rfl⟩, rfl⟩ rfl
  have h12 := h11.step (e := .sleep 0 0x1000) ⟨_, rfl, rfl, rfl, rfl⟩ rfl
  -- the scheduler parks the thread, and links it into the wait queue the next time
  have h13 := h12.step (e := .other (.other (.schedule 0 true)))
    ⟨trivial, by rintro - - - ⟨⟩, by rintro - ⟨⟩⟩ rfl
  have h14 := h13.step (e := .other (.other (.schedule 0 false)))
    ⟨trivial, by rintro - - - ⟨⟩, by rintro - ⟨⟩⟩ rfl
  refine ⟨_, h14, ⟨rfl, ⟨rfl, rfl, rfl⟩, rfl, rfl, rfl, ?_, ⟨_, rfl, rfl, rfl⟩, rfl, rfl,
    fun wq hwq => ?_, fun _ => rfl⟩, rfl, rfl⟩
  · change (0x3000 : ProcessPtr) ∉ (insert 0x2000 (insert 0x1000 ∅) : Set ProcessPtr)
    simp
  · change (Function.update (fun _ => ⟨none, 0⟩ : ℕ → WaitQueue) 1 ⟨some 0x20, 0⟩ wq).head = none
    rw [Function.update_of_ne hwq]

/-- A sleeper whose only child runs. -/
theorem wait4Reachable_noLostWakeUp_sleeper :
    ∃ s, Wait4Reachable 2 s ∧ s.Sleeper ∧ s.NoLostWakeUp := by
  obtain ⟨s, hs, hsleep, -⟩ := sleeper_reachable
  exact ⟨s, hs, hsleep, wait4Reachable_noLostWakeUp hs (by decide) fun wq => by
    rw [hsleep.wakes]
    decide⟩

/-- A creation that fails takes a pid and leaves everything else as it was. -/
theorem Wait4State.Sleeper.takePids {n : ℕ} {s : Wait4State} (hs : Wait4Reachable n s)
    (h : s.Sleeper) (k : ℕ) :
    ∃ s', Wait4Reachable (n + k) s' ∧ s'.Sleeper ∧
      s'.table.nextPid = s.table.nextPid + BitVec.ofNat 32 k ∧
      s'.table.created = s.table.created + k := by
  induction k with
  | zero => exact ⟨s, hs, h, (BitVec.add_zero _).symm, rfl⟩
  | succ k ih =>
      obtain ⟨t, ht, hsleep, hpid, hcreated⟩ := ih
      have h1 := ht.step (e := .process (.create 0x3000)) ⟨hsleep.fresh, hsleep.lock⟩ rfl
      have h2 := h1.step (e := .process (.notStarted 0x3000)) List.mem_cons_self rfl
      have hother : ∀ r, r ≠ 0x3000 →
          (t.table.takePid 0x3000 none).process r = t.table.process r :=
        fun _ => ProcessTable.process_takePid_of_ne
      refine ⟨_, h2, ⟨hsleep.lock, hsleep.list, ?_, ?_, ?_, ?_, hsleep.call, hsleep.noCall,
        hsleep.asleep, hsleep.empty, hsleep.wakes⟩, ?_, ?_⟩
      · exact (hother 0x1000 (by decide)).trans hsleep.parent
      · exact (hother 0x2000 (by decide)).trans hsleep.child
      · change (0x3000 :: t.table.building).erase 0x3000 = []
        rw [List.erase_cons_head, hsleep.building]
      · exact fun hmem => hmem.2 rfl
      · change t.table.nextPid + 1 = _
        rw [hpid, BitVec.add_assoc]
        exact congrArg _ (BitVec.ofNat_add k 1).symm
      · change t.table.created + 1 = _
        rw [hcreated]
        rfl

/-- A wake-up of an empty queue. -/
theorem Wait4State.Sleeper.wakeAll {s : Wait4State} (h : s.Sleeper) (wq : ℕ) (hwq : wq ≠ 1) :
    ∃ wake, s.wake.wakeAll wq = some wake ∧
      wake.sched.threadAt (.waiting 1 0) = some 0x20 ∧ ∀ w, wake.wakes w < 2 ^ 64 := by
  have hrun : s.wake.sched.wakeAll wq = some
      (((s.wake.sched.setWaitQueue wq ⟨none, (s.wake.sched.waitQueue wq).seq + 1⟩)).setWaitQueue wq
        ⟨none, (s.wake.sched.waitQueue wq).seq + 1⟩) := by
    simp [Scheduler.wakeAll, Scheduler.setWaitQueue, h.empty wq hwq, Scheduler.wakeLoop]
  refine ⟨_, by rw [WakeState.wakeAll, hrun]; rfl, ?_, fun w => ?_⟩
  · refine Eq.trans ?_ h.asleep
    simp [Scheduler.threadAt, nthNode, Scheduler.setWaitQueue, Function.update_of_ne hwq.symm]
  · change Function.update s.wake.wakes wq (s.wake.wakes wq + 1) w < 2 ^ 64
    rw [Function.update_apply, h.wakes, h.wakes]
    split_ifs <;> decide

namespace ProcessTable

/-- The list with a new process in front that has the pid of the last one. -/
structure SamePid (s : ProcessTable) : Prop where
  list : IsList s.links.next s.links.head [0x3000, 0x2000, 0x1000]
  new : s.process 0x3000 = ⟨1, 0, false, 0, 2 ^ 32 + 1⟩
  parent : s.process 0x1000 = ⟨1, 0, false, 0, 1⟩
  child : s.process 0x2000 = ⟨2, 1, false, 0, 2⟩

variable {s : ProcessTable}

theorem SamePid.setExitStatus (h : s.SamePid) : (s.setExitStatus 0x2000 0).SamePid := by
  refine ⟨h.list, (process_setProcess_of_ne (by decide)).trans h.new,
    (process_setProcess_of_ne (by decide)).trans h.parent, process_setProcess_self.trans ?_⟩
  rw [h.child]

/-- Process 2 has no children. -/
theorem SamePid.handChildrenOn (h : s.SamePid) :
    ∃ s', s.handChildrenOn 0x2000 = some (s', none) ∧ s'.SamePid := by
  have hprocess : ∀ p ∈ [0x3000, 0x2000, 0x1000],
      ¬ s.IsChild 0x2000 p ∧ s.zombie p = false := by
    intro p hp
    simp only [List.mem_cons, List.not_mem_nil, or_false] at hp
    simp only [IsChild, ppid, pid, zombie]
    rcases hp with rfl | rfl | rfl
    · rw [h.new, h.child]
      decide
    · rw [h.child]
      decide
    · rw [h.parent, h.child]
      decide
  obtain ⟨init, links, orphans, -, -, horphans, hlinks, hexec⟩ := handChildrenOn_eq h.list 0x2000
  have hadopt : s.adopt [0x3000, 0x2000, 0x1000] 0x2000 init = s :=
    congrArg (fun f => { s with process := f })
      (funext fun p => if_neg fun hp => (hprocess p hp.1).1 hp.2)
  have hnone : ∀ p ∈ [0x3000, 0x2000, 0x1000], s.isOrphanZombie 0x2000 p = false := by
    intro p hp
    simp [isOrphanZombie, (hprocess p hp).2]
  have hany : ([0x3000, 0x2000, 0x1000].any fun p =>
      decide (s.IsChild 0x2000 p) && s.zombie p) = false := by
    rw [List.any_eq_false]
    intro p hp
    simp [(hprocess p hp).2]
  rw [hadopt, List.filter_eq_self.mpr fun p hp => by rw [hnone p hp]; rfl] at hlinks
  rw [hadopt, hany] at hexec
  exact ⟨_, hexec, hlinks, h.new, h.parent, h.child⟩

/-- The search for the parent of process 2 ends at the new process. -/
theorem SamePid.leaveTree (h : s.SamePid) :
    ∃ s', s.leaveTree 0x2000 = some (s', some (2 ^ 32 + 1)) ∧
      IsList s'.links.next s'.links.head [0x3000, 0x2000, 0x1000] ∧
      s'.isMatch 0x1000 (-1) 0x2000 = true ∧ s'.zombie 0x2000 = true ∧ s'.childWq 0x1000 = 1 := by
  have hparent : s.findParent 0x2000 = some (some 0x3000) := by
    have hppid : s.ppid 0x2000 = 1 := congrArg Process.ppid h.child
    have hfirst : decide (s.pid 0x3000 = 1 ∧ s.zombie 0x3000 = false) = true := by
      rw [pid, zombie, h.new]
      decide
    rw [findParent, hppid, if_neg (by decide),
      h.list.findNode_eq (length_lt_maxNodes h.list).le, List.find?_cons, hfirst]
  have hself : (s.setProcess 0x2000 { s.process 0x2000 with zombie := true }).process 0x2000 =
      ⟨2, 1, true, 0, 2⟩ := by
    rw [process_setProcess_self, h.child]
  have hother : (s.setProcess 0x2000 { s.process 0x2000 with zombie := true }).process 0x1000 =
      ⟨1, 0, false, 0, 1⟩ := by
    rw [process_setProcess_of_ne (by decide), h.parent]
  refine ⟨{ s.setProcess 0x2000 { s.process 0x2000 with zombie := true } with
    ended := s.ended ++ [(s.pid 0x2000, s.exitStatus 0x2000)] }, ?_, h.list, ?_,
    congrArg Process.zombie hself, congrArg Process.childWq hother⟩
  · have hwq : s.childWq 0x3000 = 2 ^ 32 + 1 := congrArg Process.childWq h.new
    simp only [ProcessTable.leaveTree, hparent, Option.bind_eq_bind, Option.bind_some]
    rw [← hwq]
    rfl
  · rw [isMatch, decide_eq_true_eq]
    refine ⟨?_, fun hslt => absurd hslt.1 (by decide)⟩
    exact (congrArg Process.ppid hself).trans (congrArg Process.pid hother).symm

end ProcessTable

/-- With as many creations as there are pids, a new process has the pid of the
sleeper and is woken in its place. -/
theorem not_wait4Reachable_noLostWakeUp :
    ¬ ∀ n s, Wait4Reachable n s → (∀ wq, s.wake.wakes wq < 2 ^ 64) → s.NoLostWakeUp := by
  intro hall
  obtain ⟨s, hs, hsleep, hpid, hcreated⟩ := sleeper_reachable
  obtain ⟨t, ht, hsleep, hpid', hcreated'⟩ := hsleep.takePids hs (2 ^ 32 - 2)
  rw [hpid] at hpid'
  rw [hcreated] at hcreated'
  have h1 := ht.step (e := .process (.create 0x3000)) ⟨hsleep.fresh, hsleep.lock⟩ rfl
  have h2 := h1.step (e := .process (.register 0x3000)) ⟨List.mem_cons_self, hsleep.lock⟩ rfl
  have htable : ((t.table.takePid 0x3000 none).processRegister 0x3000).SamePid := by
    have hother : ∀ r, r ≠ 0x3000 →
        (t.table.takePid 0x3000 none).process r = t.table.process r :=
      fun _ => ProcessTable.process_takePid_of_ne
    have hnew := ProcessTable.process_takePid_self (s := t.table) (p := 0x3000) (c := none)
    refine ⟨Links.push_isList hsleep.list (by decide), hnew.trans ?_,
      (hother 0x1000 (by decide)).trans hsleep.parent,
      (hother 0x2000 (by decide)).trans hsleep.child⟩
    rw [hpid', hcreated']
    rfl
  have hbuilding : ((t.table.takePid 0x3000 none).processRegister 0x3000).building = [] := by
    change (0x3000 :: t.table.building).erase 0x3000 = []
    rw [List.erase_cons_head, hsleep.building]
  generalize (t.table.takePid 0x3000 none).processRegister 0x3000 = table at h2 htable hbuilding
  obtain ⟨table₁, hhand, htable₁⟩ := htable.setExitStatus.handChildrenOn
  obtain ⟨table₂, hleave, hlist, hmatch, hzombie, hwq⟩ := htable₁.leaveTree
  have hallows : table.Allows (.terminate 0x2000 0) := by
    refine ⟨⟨⟨1, by rw [htable.list.nthNode_eq]; rfl⟩, congrArg Process.zombie htable.child⟩, ?_,
      by rw [hbuilding]; exact fun _ => nofun⟩
    exact ne_of_eq_of_ne (congrArg Process.pid htable.child) (by decide)
  have h3 : Wait4Reachable _ { t with
      table := table₁, terminating := some (.handedOn 0x2000 none) } :=
    h2.step (e := .terminate 0x2000 0) ⟨hallows, hsleep.lock, hsleep.noCall⟩
      (by simp only [Wait4State.step, Wait4State.terminate, hhand]; rfl)
  have h4 := h3.step (e := .terminateNext) trivial (terminateNext_of_leaveTree rfl hleave)
  -- nobody sleeps in the queue of the new process
  obtain ⟨wake, hwake, hasleep, hwakes⟩ := hsleep.wakeAll (2 ^ 32 + 1) (by decide)
  have h5 : Wait4Reachable _ { t with
      wake := wake, table := table₂, terminating := some (.left none) } :=
    h4.step (e := .terminateNext) trivial
      (by simp only [Wait4State.step, Wait4State.terminateNext, hwake]; rfl)
  have h6 := h5.step (e := .terminateNext) trivial rfl
  obtain ⟨call, hcall, hthread, hwant⟩ := hsleep.call
  have hnone := (hall _ _ h6 hwakes).2 0x1000 call 0 hcall (by rw [hwq, hthread]; exact hasleep) rfl
    0x2000 1 (by rw [hlist.nthNode_eq]; rfl) (by rw [hwant]; exact hmatch)
  rw [hzombie] at hnone
  cases hnone

end Utopia
