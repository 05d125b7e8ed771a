/-
A context switch takes two steps: the critical section of `scheduler_schedule`,
and the load of the next thread's frame in `isr_common`.  In between, the
processor still runs on the kernel stack of the thread it is leaving.
-/
import Utopia.Exec.SchedulerRun

namespace Utopia

/-- How a thread leaves its processor. -/
inductive Departure where
  | blocks
  | ends
  | preempted
  | idles
deriving DecidableEq, Repr

/-- The scheduler, and the thread whose stack each processor is still on after
its critical section. -/
structure SwitchState where
  sched : Scheduler
  leaving : Nat → Option (ThreadPtr × Departure)

inductive SwitchStep where
  | schedule (cpu : Nat) (interruptedKernel : Bool)
  | loadFrame (cpu : Nat)
  | other (e : SchedulerStep)
deriving DecidableEq, Repr

namespace Scheduler

def departure (s : Scheduler) (cpu : Nat) (curr : ThreadPtr) : Departure :=
  if s.idle cpu = some curr then .idles
  else
    match (s.thread curr).state with
    | .blocked => .blocks
    | .terminated => .ends
    | _ => .preempted

end Scheduler

namespace SwitchState

/-- The critical section, noting the thread that is left. -/
def schedule (s : SwitchState) (cpu : Nat) (interruptedKernel : Bool) : SwitchState :=
  let sched := s.sched.schedule cpu interruptedKernel
  match s.sched.current cpu with
  | none => { s with sched := sched }
  | some curr =>
      if sched.current cpu = some curr then { s with sched := sched }
      else
        ⟨sched, Function.update s.leaving cpu (some (curr, s.sched.departure cpu curr))⟩

def step (s : SwitchState) : SwitchStep → Option SwitchState
  | .schedule cpu interruptedKernel => some (s.schedule cpu interruptedKernel)
  | .loadFrame cpu => some { s with leaving := Function.update s.leaving cpu none }
  | .other e => (s.sched.step e).map fun sched => { s with sched := sched }

/-- A processor between its two steps does nothing else. -/
def Allows (s : SwitchState) : SwitchStep → Prop
  | .schedule cpu _ => s.leaving cpu = none
  | .loadFrame _ => True
  | .other e => s.sched.Allows e ∧ (∀ cpu ik, e ≠ .schedule cpu ik) ∧
      ∀ cpu, e.processor = some cpu → s.leaving cpu = none

/-- No thread is current on one processor while another is still on its stack. -/
def StacksExclusive (s : SwitchState) : Prop :=
  ∀ c c' t d, c ≠ c' → s.sched.current c = some t → s.leaving c' ≠ some (t, d)

/-- Before a critical section: the front of the ready queue is not a thread that
another processor preempted and is still on the stack of. -/
def FrontHasLeft (s : SwitchState) : SwitchStep → Prop
  | .schedule cpu interruptedKernel => s.sched.switchable cpu interruptedKernel ≠ none →
      ∀ t c, s.sched.readyHead = some t → c ≠ cpu → s.leaving c ≠ some (t, .preempted)
  | _ => True

def initial : SwitchState := ⟨Scheduler.initial, fun _ => none⟩

end SwitchState

/-- The states of runs whose steps all meet the condition `ok`. -/
inductive SwitchReachable (ok : SwitchState → SwitchStep → Prop) : SwitchState → Prop
  | initial : SwitchReachable ok SwitchState.initial
  | step {s s' : SwitchState} {e : SwitchStep} (hs : SwitchReachable ok s)
      (hok : ok s e) (hallows : s.Allows e) (hstep : s.step e = some s') :
      SwitchReachable ok s'

/-- A critical section takes only the front of the ready queue out of it. -/
theorem Scheduler.Scheduled.mem_ready {s s' : Scheduler} {q q' : Queues} {cpu : Nat}
    {curr next t : ThreadPtr} (h : s.Scheduled q cpu curr next s' q') (hplaced : s.Placed q)
    (ht : t ∈ q.ready) (hfront : s.readyHead ≠ some t) : t ∈ q'.ready := by
  rw [hplaced.linked.ready.head_eq] at hfront
  rcases h.ready with ⟨added, heq, -⟩ | ⟨-, hempty, -⟩
  · cases hq : q.ready with
    | nil =>
        rw [hq] at ht
        cases ht
    | cons u l =>
        rw [hq] at ht hfront heq
        obtain ⟨-, hrest⟩ := List.cons.inj heq
        rw [← hrest]
        rcases List.mem_cons.mp ht with rfl | ht
        · exact absurd rfl hfront
        · exact List.mem_append_left added ht
  · rw [hempty] at ht
    cases ht

theorem Scheduler.Scheduled.next_eq {s s' : Scheduler} {q q' : Queues} {cpu : Nat}
    {curr next t : ThreadPtr} (h : s.Scheduled q cpu curr next s' q') (hplaced : s.Placed q)
    (ht : s.readyHead = some t) : next = t := by
  rw [hplaced.linked.ready.head_eq] at ht
  rcases h.ready with ⟨added, heq, -⟩ | ⟨-, hempty, -⟩
  · obtain ⟨l, hl⟩ := List.head?_eq_some_iff.mp ht
    rw [hl] at heq
    exact (List.cons.inj heq).1.symm
  · rw [hempty] at ht
    cases ht

namespace SwitchState

variable {s s' : SwitchState} {q : Queues} {t : ThreadPtr}

/-- Where the threads are that are being left. -/
structure Held (s : SwitchState) : Prop where
  blocks : ∀ c t, s.leaving c = some (t, .blocks) → s.sched.pendingPark c = some t
  ends : ∀ c t, s.leaving c = some (t, .ends) → s.sched.pendingZombie c = some t
  idles : ∀ c t, s.leaving c = some (t, .idles) → s.sched.idle c = some t

/-- Preempted threads that are being left are still in the ready queue. -/
def Queued (s : SwitchState) (q : Queues) : Prop :=
  ∀ c t, s.leaving c = some (t, .preempted) → t ∈ q.ready

/-- Only a preempted thread can be current elsewhere while it is being left. -/
theorem Held.preempted (h : s.Held) (hplaced : s.sched.Placed q) {c c' : Nat} {d : Departure}
    (hne : c ≠ c') (hcurrent : s.sched.current c = some t)
    (hleaving : s.leaving c' = some (t, d)) : d = .preempted := by
  have hocc : s.sched.Occurs q (.current c) t := hcurrent
  cases d with
  | blocks =>
      have hplace := hplaced.unique _ (.park c') t hocc (h.blocks c' t hleaving)
      cases hplace
  | ends =>
      have hplace := hplaced.unique _ (.pendingZombie c') t hocc (h.ends c' t hleaving)
      cases hplace
  | idles =>
      have hplace := (hplaced.idle c' t (h.idles c' t hleaving)).2.2.1 _ hocc
      simp only [Place.current.injEq] at hplace
      exact absurd hplace hne
  | preempted => rfl

theorem stacksExclusive_of_queued (hplaced : s.sched.Placed q) (hheld : s.Held)
    (hqueued : s.Queued q) : s.StacksExclusive := by
  intro c c' t d hne hcurrent hleaving
  obtain rfl := hheld.preempted hplaced hne hcurrent hleaving
  have hplace := hplaced.unique (.current c) .ready t hcurrent (hqueued c' t hleaving)
  cases hplace

theorem schedule_of_switchable_eq_none {cpu : Nat} {interruptedKernel : Bool}
    (h : s.sched.switchable cpu interruptedKernel = none) :
    s.schedule cpu interruptedKernel = s := by
  have hsched : s.sched.schedule cpu interruptedKernel = s.sched := by
    rw [Scheduler.schedule, h]
  rw [SwitchState.schedule, hsched]
  cases hc : s.sched.current cpu with
  | none => rfl
  | some curr => simp

/-- A critical section that switches from `curr` to `next`. -/
theorem schedule_of_scheduled {cpu : Nat} {interruptedKernel : Bool} {curr next : ThreadPtr}
    {q' : Queues} (hcurr : s.sched.switchable cpu interruptedKernel = some curr)
    (h : s.sched.Scheduled q cpu curr next (s.sched.scheduleFrom cpu curr) q') :
    s.schedule cpu interruptedKernel =
      ⟨s.sched.scheduleFrom cpu curr,
        if next = curr then s.leaving
        else Function.update s.leaving cpu (some (curr, s.sched.departure cpu curr))⟩ := by
  have hsched : s.sched.schedule cpu interruptedKernel = s.sched.scheduleFrom cpu curr := by
    rw [Scheduler.schedule, hcurr]
  have hcurrent := Scheduler.switchable_eq_some hcurr
  have hnext : (s.sched.scheduleFrom cpu curr).current cpu = some next := by
    rw [h.current, Function.update_self]
  simp only [SwitchState.schedule, hsched, hcurrent, hnext, Option.some.injEq]
  split_ifs <;> rfl

/-- What `leaving` says behind a critical section. -/
theorem leaving_cases {cpu : Nat} {curr next : ThreadPtr} {c : Nat} {d : Departure}
    (hleft : s.leaving cpu = none)
    (h : (if next = curr then s.leaving
      else Function.update s.leaving cpu (some (curr, s.sched.departure cpu curr))) c =
        some (t, d)) :
    (c ≠ cpu ∧ s.leaving c = some (t, d)) ∨
      (c = cpu ∧ next ≠ curr ∧ t = curr ∧ s.sched.departure cpu curr = d) := by
  by_cases hc : c = cpu
  · subst hc
    split_ifs at h with hnext
    · rw [hleft] at h
      cases h
    · rw [Function.update_self] at h
      cases h
      exact Or.inr ⟨rfl, hnext, rfl, rfl⟩
  · left
    split_ifs at h with hnext
    · exact ⟨hc, h⟩
    · rw [Function.update_of_ne hc] at h
      exact ⟨hc, h⟩

/-- The three ways of leaving that a slot or the queue tells from the others. -/
theorem departure_spec (hplaced : s.sched.Placed q) {cpu : Nat} {curr : ThreadPtr}
    (hcurrent : s.sched.current cpu = some curr) :
    (s.sched.departure cpu curr = .blocks → (s.sched.thread curr).state = .blocked) ∧
    (s.sched.departure cpu curr = .ends → (s.sched.thread curr).state = .terminated) ∧
    (s.sched.departure cpu curr = .idles → s.sched.idle cpu = some curr) ∧
    (s.sched.departure cpu curr = .preempted →
      (s.sched.thread curr).state = .running ∧ s.sched.idle cpu ≠ some curr) := by
  have hfits := (hplaced.fits (.current cpu) curr hcurrent).2
  rw [Scheduler.departure]
  split_ifs with hidle
  · simp [hidle]
  · rcases hfits with hstate | hstate | hstate <;> simp [hstate, hidle]

/-- One step keeps the placement and the threads being left where they are, and
preempted threads in the queue if the front of the queue has left. -/
theorem Held.step (hheld : s.Held) (hplaced : s.sched.Placed q) {e : SwitchStep}
    (hallows : s.Allows e) (hstep : s.step e = some s') :
    ∃ q', s'.sched.Placed q' ∧ s'.Held ∧
      (s.FrontHasLeft e → s.Queued q → s'.Queued q') := by
  cases e with
  | loadFrame cpu =>
      obtain rfl := Option.some.inj hstep
      have hleaving : ∀ c t d, Function.update s.leaving cpu none c = some (t, d) →
          s.leaving c = some (t, d) := by
        intro c t d hc
        by_cases hcpu : c = cpu
        · subst hcpu
          simp at hc
        · rwa [Function.update_of_ne hcpu] at hc
      exact ⟨q, hplaced, ⟨fun c t hc => hheld.blocks c t (hleaving c t _ hc),
        fun c t hc => hheld.ends c t (hleaving c t _ hc),
        fun c t hc => hheld.idles c t (hleaving c t _ hc)⟩,
        fun _ hqueued c t hc => hqueued c t (hleaving c t _ hc)⟩
  | other e =>
      obtain ⟨hsched, hne, hprocessor⟩ := hallows
      obtain ⟨sched, q', hrun, hquiet⟩ := hplaced.step_quiet hsched hne
      simp only [SwitchState.step, hrun, Option.map_some, Option.some.injEq] at hstep
      subst hstep
      refine ⟨q', hquiet.placed, ⟨fun c t hc => ?_, fun c t hc => ?_, fun c t hc => ?_⟩,
        fun _ hqueued c t hc => hquiet.ready t (hqueued c t hc)⟩
      · rw [hquiet.park]
        exact hheld.blocks c t hc
      · rw [hquiet.zombie]
        exact hheld.ends c t hc
      · have hother : e.processor ≠ some c := by
          intro hcpu
          have hnone : s.leaving c = none := hprocessor c hcpu
          rw [show s.leaving c = some (t, .idles) from hc] at hnone
          cases hnone
        rw [hquiet.idle c hother]
        exact hheld.idles c t hc
  | schedule cpu interruptedKernel =>
      obtain rfl := Option.some.inj hstep
      have hleft : s.leaving cpu = none := hallows
      cases hcurr : s.sched.switchable cpu interruptedKernel with
      | none =>
          rw [schedule_of_switchable_eq_none hcurr]
          exact ⟨q, hplaced, hheld, fun _ hqueued => hqueued⟩
      | some curr =>
          have hcurrent := Scheduler.switchable_eq_some hcurr
          obtain ⟨next, q', hsched⟩ := hplaced.scheduleFrom hcurrent
          obtain ⟨hblocks, hends, hidles, hpreempted⟩ := departure_spec hplaced hcurrent
          rw [schedule_of_scheduled hcurr hsched]
          refine ⟨q', hsched.placed, ⟨fun c t hc => ?_, fun c t hc => ?_, fun c t hc => ?_⟩,
            fun hfront hqueued c t hc => ?_⟩
          · rw [hsched.park]
            rcases leaving_cases hleft hc with ⟨hne, hold⟩ | ⟨rfl, hnext, rfl, hd⟩
            · rw [Function.update_of_ne hne]
              exact hheld.blocks c t hold
            · rw [Function.update_self, if_pos ⟨hnext, hblocks hd⟩]
          · rw [hsched.zombie]
            rcases leaving_cases hleft hc with ⟨hne, hold⟩ | ⟨rfl, hnext, rfl, hd⟩
            · rw [Function.update_of_ne hne]
              exact hheld.ends c t hold
            · rw [Function.update_self, if_pos ⟨hnext, hends hd⟩]
          · rw [hsched.idle]
            rcases leaving_cases hleft hc with ⟨-, hold⟩ | ⟨rfl, -, rfl, hd⟩
            · exact hheld.idles c t hold
            · exact hidles hd
          · rcases leaving_cases hleft hc with ⟨hne, hold⟩ | ⟨rfl, hnext, rfl, hd⟩
            · have hmem := hqueued c t hold
              have hnotFront : s.sched.readyHead ≠ some t := fun hhead =>
                hfront (by simp [hcurr]) t c hhead hne hold
              exact hsched.mem_ready hplaced hmem hnotFront
            · exact hsched.requeued (hpreempted hd).1 (hpreempted hd).2 hnext

theorem not_stacksExclusive_of_step (hplaced : s.sched.Placed q) {e : SwitchStep}
    (hstep : s.step e = some s') (hallows : s.Allows e) (hfront : ¬ s.FrontHasLeft e) :
    ¬ s'.StacksExclusive := by
  cases e with
  | loadFrame cpu => exact absurd trivial hfront
  | other e => exact absurd trivial hfront
  | schedule cpu interruptedKernel =>
      obtain rfl := Option.some.inj hstep
      simp only [FrontHasLeft, not_forall, not_not] at hfront
      obtain ⟨hswitch, t, c, hhead, hne, hleaving⟩ := hfront
      obtain ⟨curr, hcurr⟩ := Option.ne_none_iff_exists'.mp hswitch
      obtain ⟨next, q', hsched⟩ := hplaced.scheduleFrom (Scheduler.switchable_eq_some hcurr)
      have hnext : next = t := hsched.next_eq hplaced hhead
      intro hexclusive
      rw [schedule_of_scheduled hcurr hsched] at hexclusive
      refine hexclusive cpu c t .preempted (Ne.symm hne) ?_ ?_
      · rw [hsched.current, Function.update_self, hnext]
      · dsimp only
        split_ifs
        · exact hleaving
        · rwa [Function.update_of_ne hne]

end SwitchState

theorem SwitchReachable.mono {ok : SwitchState → SwitchStep → Prop} {s : SwitchState}
    (h : SwitchReachable ok s) (ok' : SwitchState → SwitchStep → Prop)
    (hok : ∀ s e, ok s e → ok' s e) : SwitchReachable ok' s := by
  induction h with
  | initial => exact .initial
  | step hs hstepOk hallows hstep ih => exact ih.step (hok _ _ hstepOk) hallows hstep

open SwitchState in
theorem SwitchReachable.held {ok : SwitchState → SwitchStep → Prop} {s : SwitchState}
    (h : SwitchReachable ok s) :
    ∃ q, s.sched.Placed q ∧ s.Held ∧ ((∀ s e, ok s e → s.FrontHasLeft e) → s.Queued q) := by
  induction h with
  | initial =>
      refine ⟨_, Scheduler.initial_placed, ⟨?_, ?_, ?_⟩, ?_⟩
      · intro c t hc
        cases hc
      · intro c t hc
        cases hc
      · intro c t hc
        cases hc
      · intro _ c t hc
        cases hc
  | step hs hok hallows hstep ih =>
      obtain ⟨q, hplaced, hheld, hqueued⟩ := ih
      obtain ⟨q', hplaced', hheld', hqueued'⟩ := hheld.step hplaced hallows hstep
      exact ⟨q', hplaced', hheld', fun hfront => hqueued' (hfront _ _ hok) (hqueued hfront)⟩

/-- Stack exclusivity.  It holds along every run in which no critical section
takes a thread that another processor preempted and has not left, and a critical
section that does so breaks it.  Threads that block, end or idle are never the
ones that break it. -/
theorem switchReachable_stacksExclusive {ok : SwitchState → SwitchStep → Prop}
    {s : SwitchState} (h : SwitchReachable ok s) :
    ((∀ s e, ok s e → s.FrontHasLeft e) → s.StacksExclusive) ∧
    (∀ e s', s.Allows e → s.step e = some s' → ¬ s.FrontHasLeft e → ¬ s'.StacksExclusive) ∧
    ∀ c c' t d, c ≠ c' → s.sched.current c = some t → s.leaving c' = some (t, d) →
      d = .preempted := by
  obtain ⟨q, hplaced, hheld, hqueued⟩ := h.held
  refine ⟨fun hok => SwitchState.stacksExclusive_of_queued hplaced hheld (hqueued hok), ?_, ?_⟩
  · intro e s' hallows hstep hfront
    exact SwitchState.not_stacksExclusive_of_step hplaced hstep hallows hfront
  · intro c c' t d hne hcurrent hleaving
    exact hheld.preempted hplaced hne hcurrent hleaving

/-- Two processors, the first of which has switched to a user thread. -/
def twoProcessors : SwitchState where
  sched := ((((((Scheduler.initial.tcbAlloc 0x1000 none).registerIdle 0 0x1000).tcbAlloc
    0x2000 none).registerIdle 1 0x2000).tcbAlloc 0x3000 (some 1)).enqueueLocked
      0x3000).schedule 0 false
  leaving := fun _ => none

theorem SwitchReachable.create {ok : SwitchState → SwitchStep → Prop} {s : SwitchState}
    (h : SwitchReachable ok s) (t : ThreadPtr) (process : Option Nat)
    (hok : ok s (.other (.create t process))) (ht : t ∉ s.sched.live) :
    SwitchReachable ok { s with sched := s.sched.tcbAlloc t process } :=
  h.step hok ⟨ht, by simp, by simp [SchedulerStep.processor]⟩ rfl

theorem twoProcessors_reachable : SwitchReachable SwitchState.FrontHasLeft twoProcessors := by
  have h0 : SwitchReachable SwitchState.FrontHasLeft SwitchState.initial := .initial
  have h1 := h0.create 0x1000 none trivial (Set.notMem_empty _)
  have h2 := h1.step (e := .other (.registerIdle 0 0x1000)) trivial
    ⟨⟨⟨Set.mem_insert _ _, rfl⟩, rfl, rfl⟩, by simp, fun _ _ => rfl⟩ rfl
  have h3 := h2.create 0x2000 none trivial
    (show (0x2000 : ThreadPtr) ∉ insert 0x1000 ∅ by simp)
  have h4 := h3.step (e := .other (.registerIdle 1 0x2000)) trivial
    ⟨⟨⟨Set.mem_insert _ _, rfl⟩, rfl, rfl⟩, by simp, fun _ _ => rfl⟩ rfl
  have h5 := h4.create 0x3000 (some 1) trivial
    (show (0x3000 : ThreadPtr) ∉ insert 0x2000 (insert 0x1000 ∅) by simp)
  have h6 := h5.step (e := .other (.enqueue 0x3000)) trivial
    ⟨⟨Set.mem_insert _ _, rfl⟩, by simp, by simp [SchedulerStep.processor]⟩ rfl
  have h7 := h6.step (e := .schedule 0 false) (fun _ _ _ _ _ => nofun) rfl rfl
  have h8 := h7.step (e := .loadFrame 0) trivial trivial rfl
  have hleaving : Function.update (Function.update SwitchState.initial.leaving 0
      (some (0x1000, .idles))) 0 none = twoProcessors.leaving := by
    rw [Function.update_idem]
    exact Function.update_eq_self 0 _
  change SwitchReachable _ ⟨twoProcessors.sched, twoProcessors.leaving⟩
  rw [← hleaving]
  exact h8

/-- A second user thread comes, and processor 0 switches to it. -/
def preempting : SwitchState :=
  { twoProcessors with
    sched := (twoProcessors.sched.tcbAlloc 0x4000 (some 2)).enqueueLocked 0x4000 }.schedule
      0 false

theorem preempting_reachable : SwitchReachable SwitchState.FrontHasLeft preempting := by
  have hlive : (0x4000 : ThreadPtr) ∉ twoProcessors.sched.live := by
    change (0x4000 : ThreadPtr) ∉ insert 0x3000 (insert 0x2000 (insert 0x1000 ∅))
    simp
  have h1 := twoProcessors_reachable.create 0x4000 (some 2) trivial hlive
  have h2 := h1.step (e := .other (.enqueue 0x4000)) trivial
    ⟨⟨Set.mem_insert _ _, rfl⟩, by simp, by simp [SchedulerStep.processor]⟩ rfl
  exact h2.step (e := .schedule 0 false) (fun _ _ _ _ _ => nofun) rfl rfl

theorem switchReachable_stacksExclusive_preempting :
    SwitchReachable SwitchState.FrontHasLeft preempting ∧
      preempting.leaving 0 = some (0x3000, .preempted) ∧ preempting.StacksExclusive :=
  ⟨preempting_reachable, rfl,
    (switchReachable_stacksExclusive preempting_reachable).1 fun _ _ hok => hok⟩

/-- Processor 1 takes the preempted thread from the queue before processor 0 has
left its stack. -/
theorem not_switchReachable_stacksExclusive :
    ¬ ∀ s, SwitchReachable (fun _ _ => True) s → s.StacksExclusive := by
  intro h
  have hreachable := preempting_reachable.mono (fun _ _ => True) fun _ _ _ => trivial
  have hschedule := hreachable.step (e := .schedule 1 false) trivial rfl rfl
  exact h _ hschedule 1 0 0x3000 .preempted (by decide) rfl rfl

end Utopia
