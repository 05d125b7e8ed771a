/-
No ready thread is passed over: every critical section of `scheduler_schedule`
hands its processor to the front of the ready queue, and the idle thread runs
only when that queue is empty.
-/
import Utopia.Exec.SchedulerRun

namespace Utopia

namespace Scheduler

/-- The processor that enters the critical section of `scheduler_schedule`. -/
def dispatching (s : Scheduler) : SchedulerStep → Option Nat
  | .schedule cpu interruptedKernel => (s.switchable cpu interruptedKernel).map fun _ => cpu
  | _ => none

/-! ### What a step does to the ready queue -/

/-- The queue's history grows at its end only, and nothing leaves. -/
structure OnlyEnters (s s' : Scheduler) : Prop where
  entered : ∃ added, s'.entered = s.entered ++ added
  left : s'.left = s.left

variable {s s' : Scheduler} {q q' : Queues} {t : ThreadPtr} {cpu : Nat} {e : SchedulerStep}

theorem OnlyEnters.of_same (hentered : s'.entered = s.entered) (hleft : s'.left = s.left) :
    s.OnlyEnters s' :=
  ⟨⟨[], by rw [hentered, List.append_nil]⟩, hleft⟩

theorem OnlyEnters.trans {s'' : Scheduler} (h : s.OnlyEnters s') (h' : s'.OnlyEnters s'') :
    s.OnlyEnters s'' := by
  obtain ⟨added, hadded⟩ := h.entered
  obtain ⟨added', hadded'⟩ := h'.entered
  refine ⟨⟨added ++ added', ?_⟩, h'.left.trans h.left⟩
  rw [hadded', hadded, List.append_assoc]

theorem onlyEnters_enqueueLocked (s : Scheduler) (t : ThreadPtr) :
    s.OnlyEnters (s.enqueueLocked t) := by
  cases htail : s.readyTail with
  | none =>
      rw [enqueueLocked_of_none htail]
      exact ⟨⟨[t], rfl⟩, rfl⟩
  | some b =>
      rw [enqueueLocked_of_some htail]
      exact ⟨⟨[t], rfl⟩, rfl⟩

theorem onlyEnters_wakeLoop {fuel : Nat} {head : Option ThreadPtr}
    (h : wakeLoop fuel s head = some s') : s.OnlyEnters s' := by
  induction fuel generalizing s head with
  | zero =>
      cases head with
      | none =>
          cases h
          exact .of_same rfl rfl
      | some t => cases h
  | succ fuel ih =>
      cases head with
      | none =>
          cases h
          exact .of_same rfl rfl
      | some t =>
          have hclear : s.OnlyEnters (s.clearWaitingOn t) := .of_same rfl rfl
          exact (hclear.trans (onlyEnters_enqueueLocked _ t)).trans (ih h)

/-- Every step other than a critical section of `scheduler_schedule`. -/
theorem onlyEnters_step (hother : s.dispatching e = none) (hstep : s.step e = some s') :
    s.OnlyEnters s' := by
  cases e with
  | schedule cpu interruptedKernel =>
      have hnone : s.switchable cpu interruptedKernel = none := by
        simpa [dispatching] using hother
      obtain rfl : s.schedule cpu interruptedKernel = s' := Option.some.inj hstep
      simp only [Scheduler.schedule, hnone]
      exact .of_same rfl rfl
  | enqueue t =>
      obtain rfl : s.enqueueLocked t = s' := Option.some.inj hstep
      exact s.onlyEnters_enqueueLocked t
  | wakeAll wq =>
      have hwake : s.wakeAll wq = some s' := hstep
      rw [Scheduler.wakeAll] at hwake
      obtain ⟨hentered, hleft⟩ := onlyEnters_wakeLoop hwake
      exact ⟨hentered, hleft⟩
  | wait cpu wq seq =>
      obtain rfl : s.wait cpu wq seq = s' := Option.some.inj hstep
      rw [Scheduler.wait]
      split_ifs
      · exact .of_same rfl rfl
      · cases s.current cpu with
        | none => exact .of_same rfl rfl
        | some curr => dsimp only; split_ifs <;> exact .of_same rfl rfl
  | resume cpu =>
      obtain rfl : s.resume cpu = s' := Option.some.inj hstep
      rw [Scheduler.resume]
      cases s.current cpu with
      | none => exact .of_same rfl rfl
      | some curr => dsimp only; split_ifs <;> exact .of_same rfl rfl
  | exit cpu =>
      obtain rfl : s.exit cpu = s' := Option.some.inj hstep
      rw [Scheduler.exit]
      cases s.current cpu with
      | none => exact .of_same rfl rfl
      | some curr => dsimp only; split_ifs <;> exact .of_same rfl rfl
  | reapFree k =>
      obtain rfl : s.reapFree k = s' := Option.some.inj hstep
      rw [Scheduler.reapFree]
      cases s.detached k <;> exact .of_same rfl rfl
  | create t process => cases hstep; exact .of_same rfl rfl
  | registerIdle cpu t => cases hstep; exact .of_same rfl rfl
  | reapDetach k => cases hstep; exact .of_same rfl rfl
  | lockContextSwitch => cases hstep; exact .of_same rfl rfl

/-- Nothing is taken from the queue, and what is new is behind what was there. -/
theorem Placed.ready_of_other (h : s.Placed q) (h' : s'.Placed q') (hsteps : s.OnlyEnters s') :
    ∃ added, q'.ready = q.ready ++ added := by
  obtain ⟨added, hadded⟩ := hsteps.entered
  refine ⟨added, ?_⟩
  have hfifo := h'.linked.fifo
  rw [hsteps.left, hadded, h.linked.fifo, List.append_assoc] at hfifo
  exact (List.append_cancel_left hfifo).symm

/-- A critical section takes the front of the queue, and the idle thread only
from an empty one. -/
theorem Placed.ready_of_dispatch (h : s.Placed q) (hdispatch : s.dispatching e = some cpu)
    (hstep : s.step e = some s') :
    ∃ q' next, s'.Placed q' ∧ s'.current cpu = some next ∧
      ((∃ added, q.ready ++ added = next :: q'.ready ∧ s.idle cpu ≠ some next) ∨
        s.idle cpu = some next ∧ q.ready = [] ∧ q'.ready = []) := by
  cases e with
  | schedule c interruptedKernel =>
      obtain ⟨curr, hcurr, rfl⟩ := Option.map_eq_some_iff.mp hdispatch
      obtain rfl : s.schedule c interruptedKernel = s' := Option.some.inj hstep
      simp only [Scheduler.schedule, hcurr]
      have hcurrent := switchable_eq_some hcurr
      obtain ⟨next, q', hscheduled⟩ := h.scheduleFrom hcurrent
      refine ⟨q', next, hscheduled.placed, by rw [hscheduled.current, Function.update_self], ?_⟩
      rcases hscheduled.ready with ⟨added, hready, hadded⟩ | ⟨hidle, hnil, hnil'⟩
      · refine Or.inl ⟨added, hready, fun hidle => ?_⟩
        -- the idle thread is neither queued nor parked, and it is not requeued
        have hmem : next ∈ q.ready ++ added := hready ▸ List.mem_cons_self
        rcases List.mem_append.mp hmem with hmem | hmem
        · exact h.not_idle (p := .ready) hmem (by simp) c hidle
        · rcases hadded next hmem with hpark | ⟨rfl, -, hnot⟩
          · exact h.not_idle (p := .park c) hpark (by simp) c hidle
          · exact hnot hidle
      · exact Or.inr ⟨hidle, hnil, hnil'⟩
  | _ => cases hdispatch

end Scheduler

/-! ### Runs -/

/-- One critical section of `scheduler_schedule`, and the thread that its
processor runs behind it. -/
structure Dispatch where
  before : Scheduler
  cpu : Nat
  thread : ThreadPtr
  after : Scheduler

/-- A run of the scheduler from `s` on, with its critical sections in order. -/
inductive SchedulerRuns (s : Scheduler) : List Dispatch → Scheduler → Prop
  | start : SchedulerRuns s [] s
  | other {ds : List Dispatch} {s' s'' : Scheduler} {e : SchedulerStep}
      (hrun : SchedulerRuns s ds s') (hallows : s'.Allows e)
      (hother : s'.dispatching e = none) (hstep : s'.step e = some s'') : SchedulerRuns s ds s''
  | dispatch {ds : List Dispatch} {s' s'' : Scheduler} {e : SchedulerStep} {cpu : Nat}
      {t : ThreadPtr} (hrun : SchedulerRuns s ds s') (hallows : s'.Allows e)
      (hdispatch : s'.dispatching e = some cpu) (hstep : s'.step e = some s'')
      (hcurrent : s''.current cpu = some t) : SchedulerRuns s (ds ++ [⟨s', cpu, t, s''⟩]) s''

def threads (ds : List Dispatch) : List ThreadPtr := ds.map Dispatch.thread

/-- The queue `ready` has been served by the threads `served` in its order, and
what is left of it is in front of `ready'`. -/
inductive Serves (ready served ready' : List ThreadPtr) : Prop
  | partly (rest behind : List ThreadPtr) (hready : ready = served ++ rest)
      (hready' : ready' = rest ++ behind)
  | wholly (further : List ThreadPtr) (hserved : served = ready ++ further)

variable {ready served ready' ready'' : List ThreadPtr} {t : ThreadPtr}

theorem Serves.enter (h : Serves ready served ready') {added : List ThreadPtr}
    (hadded : ready'' = ready' ++ added) : Serves ready served ready'' := by
  cases h with
  | partly rest behind hready hready' =>
      refine .partly rest (behind ++ added) hready ?_
      rw [hadded, hready', List.append_assoc]
  | wholly further hserved => exact .wholly further hserved

theorem Serves.serve (h : Serves ready served ready')
    (hfront : (∃ added, ready' ++ added = t :: ready'') ∨ ready' = []) :
    Serves ready (served ++ [t]) ready'' := by
  cases h with
  | partly rest behind hready hready' =>
      cases rest with
      | nil =>
          refine .wholly [t] ?_
          rw [hready, List.append_nil]
      | cons a rest =>
          rcases hfront with ⟨added, hfront⟩ | hnil
          · rw [hready'] at hfront
            obtain ⟨rfl, htail⟩ := List.cons.inj hfront
            refine .partly rest (behind ++ added) ?_ ?_
            · rw [hready, List.append_assoc]
              rfl
            · rw [← htail]
              exact List.append_assoc rest behind added
          · rw [hready'] at hnil
            cases hnil
  | wholly further hserved =>
      refine .wholly (further ++ [t]) ?_
      rw [hserved, List.append_assoc]

/-- The thread at position `i` is served in turn `i`, and until then it moves
forward. -/
theorem Serves.position (h : Serves ready served ready') {i : Nat} (hi : ready[i]? = some t) :
    (i < served.length → served[i]? = some t) ∧
      (served.length ≤ i → ready'[i - served.length]? = some t) := by
  cases h with
  | partly rest behind hready hready' =>
      rw [hready] at hi
      refine ⟨fun hlt => ?_, fun hle => ?_⟩
      · rwa [List.getElem?_append_left hlt] at hi
      · rw [List.getElem?_append_right hle] at hi
        rw [hready', List.getElem?_append_left (List.getElem?_eq_some_iff.mp hi).1]
        exact hi
  | wholly further hserved =>
      have hlt := (List.getElem?_eq_some_iff.mp hi).1
      have hlen : ready.length ≤ served.length := by simp [hserved]
      refine ⟨fun _ => ?_, fun hle => absurd hle (by omega)⟩
      rw [hserved, List.getElem?_append_left hlt]
      exact hi

/-- The idle thread gets its processor only when nothing is ready. -/
def Dispatch.WorkConserving (d : Dispatch) : Prop :=
  d.before.idle d.cpu = some d.thread → d.before.readyHead = none ∧ d.after.readyHead = none

/-- A run keeps the placement, and serves the queue it began with. -/
theorem SchedulerRuns.serves {s s' : Scheduler} {q : Queues} {ds : List Dispatch}
    (hplaced : s.Placed q) (hrun : SchedulerRuns s ds s') :
    ∃ q', s'.Placed q' ∧ Serves q.ready (threads ds) q'.ready ∧
      ∀ d ∈ ds, d.WorkConserving := by
  induction hrun with
  | start => exact ⟨q, hplaced, .partly q.ready [] rfl (by rw [List.append_nil]), by simp⟩
  | other _ hallows hother hstep ih =>
      obtain ⟨q', hplaced', hserves, hwork⟩ := ih
      obtain ⟨s₂, q₂, hstep', hplaced₂⟩ := hplaced'.step hallows
      obtain rfl : s₂ = _ := Option.some.inj (hstep'.symm.trans hstep)
      obtain ⟨added, hadded⟩ :=
        hplaced'.ready_of_other hplaced₂ (Scheduler.onlyEnters_step hother hstep)
      exact ⟨q₂, hplaced₂, hserves.enter hadded, hwork⟩
  | @dispatch ds s' s'' e cpu t _ hallows hdispatch hstep hcurrent ih =>
      obtain ⟨q', hplaced', hserves, hwork⟩ := ih
      obtain ⟨q'', next, hplaced'', hnext, hfront⟩ := hplaced'.ready_of_dispatch hdispatch hstep
      obtain rfl : next = t := Option.some.inj (hnext.symm.trans hcurrent)
      refine ⟨q'', hplaced'', ?_, ?_⟩
      · rw [threads, List.map_append]
        refine hserves.serve ?_
        rcases hfront with ⟨added, hready, -⟩ | ⟨-, hnil, -⟩
        · exact Or.inl ⟨added, hready⟩
        · exact Or.inr hnil
      · intro d hd
        rcases List.mem_append.mp hd with hd | hd
        · exact hwork d hd
        · obtain rfl := List.mem_singleton.mp hd
          intro hidle
          rcases hfront with ⟨-, -, hnot⟩ | ⟨-, hnil, hnil'⟩
          · exact absurd hidle hnot
          · have hhead := hplaced'.linked.ready.head_eq
            have hhead' := hplaced''.linked.ready.head_eq
            rw [hnil] at hhead
            rw [hnil'] at hhead'
            exact ⟨hhead, hhead'⟩

/-- No thread starves: the thread at position `i` of the ready queue is handed a
processor by critical section `i` of the run, whatever else happens between, and
moves forward by one with each before; an idle thread runs only when nothing is
ready. -/
theorem schedulerRuns_noStarvation {s s' : Scheduler} {ds : List Dispatch}
    (hs : SchedulerReachable s) (hrun : SchedulerRuns s ds s') :
    (∀ i t, s.threadAt (.ready i) = some t →
      (i < ds.length → (threads ds)[i]? = some t) ∧
        (ds.length ≤ i → s'.threadAt (.ready (i - ds.length)) = some t)) ∧
    ∀ d ∈ ds, d.WorkConserving := by
  obtain ⟨q, hplaced⟩ := hs.placed
  obtain ⟨q', hplaced', hserves, hwork⟩ := hrun.serves hplaced
  refine ⟨fun i t hi => ?_, hwork⟩
  rw [Scheduler.threadAt, hplaced.linked.ready.nthNode_eq] at hi
  obtain ⟨hturn, hwaits⟩ := hserves.position hi
  have hlen : (threads ds).length = ds.length := List.length_map _
  rw [hlen] at hturn hwaits
  refine ⟨hturn, fun hle => ?_⟩
  rw [Scheduler.threadAt, hplaced'.linked.ready.nthNode_eq]
  exact hwaits hle

/-- The second thread of the queue runs after two timer interrupts. -/
theorem schedulerRuns_noStarvation_twoReady :
    ∃ ds s', SchedulerRuns twoReady ds s' ∧ (threads ds)[1]? = some 0x3000 := by
  have hcpu : twoReady.dispatching (.schedule 0 false) = some 0 := rfl
  have h1 := SchedulerRuns.start.dispatch (s := twoReady) (e := .schedule 0 false) (t := 0x2000) trivial hcpu
    rfl rfl
  have hcpu' : (twoReady.schedule 0 false).dispatching (.schedule 0 false) = some 0 := rfl
  have h2 := h1.dispatch (e := .schedule 0 false) (t := 0x3000) trivial hcpu' rfl rfl
  exact ⟨_, _, h2,
    ((schedulerRuns_noStarvation twoReady_reachable h2).1 1 0x3000 rfl).1 (by decide)⟩

end Utopia
