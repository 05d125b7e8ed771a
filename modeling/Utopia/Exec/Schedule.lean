/-
What one critical section of the scheduler does: which thread it makes current,
and where everything else is afterwards.
-/
import Utopia.Exec.Placement

namespace Utopia

namespace Scheduler

variable {s s' : Scheduler} {q q' : Queues} {t u curr next : ThreadPtr} {cpu : Nat}

/-- The outcome of a critical section on `cpu` that switches from `curr` to
`next`. -/
structure Scheduled (s : Scheduler) (q : Queues) (cpu : Nat) (curr next : ThreadPtr)
    (s' : Scheduler) (q' : Queues) : Prop where
  placed : s'.Placed q'
  current : s'.current = Function.update s.current cpu (some next)
  idle : s'.idle = s.idle
  live : s'.live = s.live
  park : s'.pendingPark = Function.update s.pendingPark cpu
    (if next ≠ curr ∧ (s.thread curr).state = .blocked then some curr else none)
  zombie : s'.pendingZombie = Function.update s.pendingZombie cpu
    (if next ≠ curr ∧ (s.thread curr).state = .terminated then some curr else none)
  seq : ∀ wq, (s'.waitQueue wq).seq = (s.waitQueue wq).seq
  records : s.KeepsRecords s'
  ready : (∃ added, q.ready ++ added = next :: q'.ready ∧
      ∀ u ∈ added, s.pendingPark cpu = some u ∨
        (u = curr ∧ (s.thread curr).state = .running ∧ s.idle cpu ≠ some curr)) ∨
    (s.idle cpu = some next ∧ q.ready = [] ∧ q'.ready = [])
  requeued : (s.thread curr).state = .running → s.idle cpu ≠ some curr → next ≠ curr →
    curr ∈ q'.ready
  waiting : ∀ wq u, u ∈ q'.waiting wq → u ∈ q.waiting wq ∨
    (s.pendingPark cpu = some u ∧ (s.thread u).waitingOn = some wq ∧
      (s.waitQueue wq).seq = (s.thread u).waitSeq)

/-! ### Requeueing the outgoing thread -/

/-- Before the front of the queue is taken: the outgoing thread is at the end of
the queue, or nowhere and as it was. -/
theorem Placed.requeue (h : s.Placed q) (hcurr : s.Nowhere q curr) (hmem : curr ∈ s.live)
    (hidle : ∀ c, s.idle c = some curr → c = cpu) :
    ∃ added, (s.requeue cpu curr).Placed { q with ready := q.ready ++ added } ∧
      s.SameSlots (s.requeue cpu curr) ∧ s.KeepsRecords (s.requeue cpu curr) ∧
      ((added = [curr] ∧ (s.thread curr).state = .running ∧ s.idle cpu ≠ some curr ∧
          ((s.requeue cpu curr).thread curr).state = .ready) ∨
        (added = [] ∧ ¬ ((s.thread curr).state = .running ∧ some curr ≠ s.idle cpu) ∧
          s.requeue cpu curr = s)) := by
  by_cases hcond : (s.thread curr).state = .running ∧ some curr ≠ s.idle cpu
  · have hrequeue : s.requeue cpu curr = s.enqueueLocked curr := by
      rw [Scheduler.requeue, if_pos hcond]
    have hnotIdle : ∀ c, s.idle c ≠ some curr := by
      intro c hc
      rw [hidle c hc] at hc
      exact hcond.2 hc.symm
    rw [hrequeue]
    refine ⟨[curr], h.enqueueLocked hcurr hmem hnotIdle, enqueueLocked_sameSlots, ?_,
      Or.inl ⟨rfl, hcond.1, fun heq => hcond.2 heq.symm, by simp [state_enqueueLocked]⟩⟩
    intro u
    have hu := unlinked_enqueueLocked (s := s) (t := curr) (u := u)
    have hprocess := congrArg Thread.process hu
    have hseq := congrArg Thread.waitSeq hu
    have hon := congrArg Thread.waitingOn hu
    have hstate := congrArg Thread.state hu
    by_cases huc : u = curr
    · subst huc
      rw [if_pos rfl] at hprocess hseq hon hstate
      exact ⟨hprocess, hseq, Or.inl hon, fun hblocked => by cases hblocked.symm.trans hstate⟩
    · rw [if_neg huc] at hprocess hseq hon hstate
      exact ⟨hprocess, hseq, Or.inl hon, fun hblocked => hstate.symm.trans hblocked⟩
  · have hrequeue : s.requeue cpu curr = s := by
      rw [Scheduler.requeue, if_neg hcond]
    rw [hrequeue]
    refine ⟨[], by simpa using h, ⟨rfl, rfl, rfl, rfl, rfl, rfl, rfl, rfl, rfl⟩,
      keepsRecords_of_unlinked fun _ => rfl, Or.inr ⟨rfl, hcond, rfl⟩⟩

/-! ### Handing the processor over -/

/-- `switchTo` on a processor whose current thread is held. -/
theorem Placed.switchTo (h : s.Placed q) (hnext : s.Nowhere q next) (hmem : next ∈ s.live)
    (hidle : ∀ c, s.idle c = some next → c = cpu) (hregistered : s.idle cpu ≠ none)
    (hcurr : s.Nowhere q curr ∧ curr ∈ s.live ∨ (s.thread curr).state = .ready) :
    ((s.setCurrent cpu (some curr)).switchTo cpu curr next).Placed q := by
  by_cases hne : next = curr
  · subst hne
    rw [Scheduler.switchTo, if_pos rfl]
    have hswap : ((s.setCurrent cpu (some next)).clearWaitingOn next).setState next .running =
        (s.setThread next { s.thread next with waitingOn := none, state := .running }).setCurrent
          cpu (some next) := by
      simp only [setState, clearWaitingOn, Scheduler.setThread, setCurrent,
        Function.update_self, Function.update_idem]
    rw [hswap]
    exact h.makeCurrent hnext hmem hidle hregistered rfl rfl
  · rw [setCurrent_switchTo _ hne, Scheduler.switchTo, if_neg hne]
    have hgive : (s.giveUp cpu curr).Placed q := by
      rcases hcurr with ⟨hnowhere, hlive⟩ | hready
      · exact h.giveUp hnowhere hlive
      · rw [giveUp_of_other (by simp [hready]) (by simp [hready])]
        exact h
    obtain ⟨hthread, hidle', hlive', -, hkeep⟩ := s.giveUp_frame (q := q) cpu curr
    exact hgive.makeCurrent (hkeep next hne hnext) (hlive' ▸ hmem) (hidle' ▸ hidle)
      (hidle' ▸ hregistered) rfl rfl

/-- What the hand-over does to the slots and the records. -/
structure HandsOver (s : Scheduler) (cpu : Nat) (curr next : ThreadPtr) (s' : Scheduler) :
    Prop where
  current : s'.current = Function.update s.current cpu (some next)
  idle : s'.idle = s.idle
  live : s'.live = s.live
  waitQueue : s'.waitQueue = s.waitQueue
  records : s.KeepsRecords s'
  park : s'.pendingPark = if next ≠ curr ∧ (s.thread curr).state = .blocked then
    Function.update s.pendingPark cpu (some curr) else s.pendingPark
  zombie : s'.pendingZombie = if next ≠ curr ∧ (s.thread curr).state = .terminated then
    Function.update s.pendingZombie cpu (some curr) else s.pendingZombie

theorem keepsRecords_setRunning : s.KeepsRecords (s.setState t .running) := by
  intro u
  by_cases hu : u = t
  · subst hu
    simp [setState]
  · simp [setState, hu]

theorem switchTo_handsOver (s : Scheduler) (cpu : Nat) (curr next : ThreadPtr)
    (hidle : s.idle cpu = some curr → (s.thread curr).state = .running) :
    s.HandsOver cpu curr next ((s.setCurrent cpu (some curr)).switchTo cpu curr next) := by
  by_cases hne : next = curr
  · subst hne
    rw [Scheduler.switchTo, if_pos rfl]
    refine ⟨rfl, rfl, rfl, rfl, ?_, by simp [setState, clearWaitingOn, Scheduler.setThread,
      setCurrent], by simp [setState, clearWaitingOn, Scheduler.setThread, setCurrent]⟩
    intro u
    by_cases hu : u = next
    · subst hu
      simp [setState, clearWaitingOn, setCurrent]
    · simp [setState, clearWaitingOn, setCurrent, hu]
  · rw [setCurrent_switchTo _ hne, Scheduler.switchTo, if_neg hne]
    rcases s.giveUp_cases cpu curr with h | ⟨h, hnotIdle⟩ | ⟨h, h'⟩
    · rw [giveUp_of_blocked h]
      refine ⟨rfl, rfl, rfl, rfl, keepsRecords_setRunning, ?_, ?_⟩
      · rw [if_pos ⟨hne, h⟩]
        rfl
      · rw [if_neg (by simp [h])]
        rfl
    · rw [giveUp_of_terminated h hnotIdle]
      refine ⟨rfl, rfl, rfl, rfl, keepsRecords_setRunning, ?_, ?_⟩
      · rw [if_neg (by simp [h])]
        rfl
      · rw [if_pos ⟨hne, h⟩]
        rfl
    · rw [giveUp_of_other h h']
      refine ⟨rfl, rfl, rfl, rfl, keepsRecords_setRunning, ?_, ?_⟩
      · rw [if_neg fun hc => h hc.2]
        rfl
      · rw [if_neg]
        · rfl
        · rintro ⟨-, hterminated⟩
          apply h'
          refine ⟨hterminated, fun heq => ?_⟩
          rw [hidle heq.symm] at hterminated
          cases hterminated

/-! ### The whole critical section -/

/-- The processor before the choice of the next thread: nothing is pending on it,
and its current thread is held. -/
structure Prepared (s : Scheduler) (q : Queues) (cpu : Nat) (curr : ThreadPtr)
    (s' : Scheduler) (q' : Queues) : Prop where
  settles : (s.setCurrent cpu none).Settles q s' q'
  nowhere : s'.Nowhere q' curr
  unlinked : (s'.thread curr).unlinked = (s.thread curr).unlinked
  park : s'.pendingPark = Function.update s.pendingPark cpu none
  zombie : s'.pendingZombie = Function.update s.pendingZombie cpu none
  ready : ∃ added, q'.ready = q.ready ++ added ∧ ∀ u ∈ added, s.pendingPark cpu = some u
  waiting : ∀ wq u, u ∈ q'.waiting wq → u ∈ q.waiting wq ∨
    (s.pendingPark cpu = some u ∧ (s.thread u).waitingOn = some wq ∧
      (s.waitQueue wq).seq = (s.thread u).waitSeq)

theorem Placed.prepared (h : s.Placed q) (hcurr : s.current cpu = some curr) :
    ∃ q', s.Prepared q cpu curr (((s.setCurrent cpu none).unpark cpu).buryZombie cpu) q' := by
  obtain ⟨htaken, hnowhere⟩ := h.take (p := .current cpu) (s.setCurrent cpu none) hcurr
    ⟨h.linked.ready, h.linked.tail, h.linked.waiting, h.linked.zombies,
      h.linked.detached, h.linked.fifo⟩ rfl rfl rfl
    (fun c hc => by
      by_cases hcpu : c = cpu
      · subst hcpu
        rw [hcurr]
        simp
      · simpa [setCurrent, hcpu] using hc)
    (fun p u hp => by
      rw [occurs_setCurrent] at hp
      split_ifs at hp with hplace
      exact ⟨hp, hplace⟩)
  obtain ⟨q₁, hunpark, hpark, hzombie, hready, hwaiting⟩ := htaken.unpark_settles cpu
  obtain ⟨q₂, hbury, hzombie', hpark', hready', hwaiting'⟩ :=
    hunpark.placed.buryZombie_settles cpu
  obtain ⟨hheld, hunlinked⟩ := (hunpark.trans hbury).nowhere curr hnowhere
  refine ⟨q₂, hunpark.trans hbury, hheld, hunlinked, hpark'.trans hpark, ?_, ?_, ?_⟩
  · rw [hzombie', hzombie]
    rfl
  · rw [hready']
    exact hready
  · rw [hwaiting']
    exact hwaiting

/-- The actual critical section on the state that is held. -/
theorem scheduleFrom_eq (hcurr : s.current cpu = some curr) :
    s.scheduleFrom cpu curr =
      let s₃ := (((s.setCurrent cpu none).unpark cpu).buryZombie cpu).requeue cpu curr
      (s₃.dequeueLocked.2.setCurrent cpu (some curr)).switchTo cpu curr
        (s₃.dequeueLocked.1.getD ((s₃.dequeueLocked.2.idle cpu).getD curr)) := by
  have hself : s = (s.setCurrent cpu none).setCurrent cpu (some curr) := by
    simp only [setCurrent, Function.update_idem]
    rw [← hcurr, Function.update_eq_self]
  conv_lhs => rw [hself]
  simp only [scheduleFrom, setCurrent_unpark (v := some curr),
    setCurrent_buryZombie (v := some curr), setCurrent_requeue (v := some curr),
    setCurrent_dequeueLocked (v := some curr)]
  rfl

theorem Nowhere.dequeueLocked {l : List ThreadPtr} (hu : s.Nowhere q u)
    (hready : q.ready = t :: l) : s.dequeueLocked.2.Nowhere { q with ready := l } u := by
  intro p hp
  by_cases hplace : p = .ready
  · subst hplace
    apply hu .ready
    simp only [Occurs] at hp ⊢
    rw [hready]
    exact List.mem_cons_of_mem _ hp
  · rw [dequeueLocked_sameSlots.occurs hplace] at hp
    exact hu p hp

/-- Putting the parts of the critical section together. -/
theorem Prepared.scheduled {s₂ s₄ : Scheduler} {q₂ : Queues} {added : List ThreadPtr}
    (hprep : s.Prepared q cpu curr s₂ q₂) (hslots : s₂.SameSlots s₄)
    (hrecords : s₂.KeepsRecords s₄) (hhand : s₄.HandsOver cpu curr next s')
    (hplaced : s'.Placed q') (hwaiting : q'.waiting = q₂.waiting)
    (hadded : ∀ u ∈ added, u = curr ∧ (s.thread curr).state = .running ∧
      s.idle cpu ≠ some curr)
    (hstate : (s₄.thread curr).state = (s.thread curr).state ∨
      (s.thread curr).state = .running ∧ (s₄.thread curr).state = .ready)
    (hready : q₂.ready ++ added = next :: q'.ready ∨
      s.idle cpu = some next ∧ q₂.ready ++ added = [] ∧ q'.ready = [])
    (hrequeued : (s.thread curr).state = .running → s.idle cpu ≠ some curr → curr ∈ added) :
    s.Scheduled q cpu curr next s' q' := by
  have hblocked : (s₄.thread curr).state = .blocked ↔ (s.thread curr).state = .blocked := by
    rcases hstate with heq | ⟨hrunning, hnew⟩
    · rw [heq]
    · simp [hrunning, hnew]
  have hterminated : (s₄.thread curr).state = .terminated ↔
      (s.thread curr).state = .terminated := by
    rcases hstate with heq | ⟨hrunning, hnew⟩
    · rw [heq]
    · simp [hrunning, hnew]
  obtain ⟨parked, hparked, hmem⟩ := hprep.ready
  constructor
  case placed => exact hplaced
  case current =>
    rw [hhand.current, hslots.current, hprep.settles.current, setCurrent,
      Function.update_idem]
  case idle => rw [hhand.idle, hslots.idle, hprep.settles.idle]; rfl
  case live => rw [hhand.live, hslots.live, hprep.settles.live]; rfl
  case park =>
    rw [hhand.park, hslots.pendingPark, hprep.park]
    simp only [hblocked]
    split_ifs
    · rw [Function.update_idem]
    · rfl
  case zombie =>
    rw [hhand.zombie, hslots.pendingZombie, hprep.zombie]
    simp only [hterminated]
    split_ifs
    · rw [Function.update_idem]
    · rfl
  case seq =>
    intro wq
    rw [hhand.waitQueue, hslots.waitQueue, hprep.settles.seq]
    rfl
  case records => exact hprep.settles.records.trans (hrecords.trans hhand.records)
  case ready =>
    rcases hready with hready | ⟨hidle, hnil, hnil'⟩
    · left
      refine ⟨parked ++ added, ?_, ?_⟩
      · rw [← List.append_assoc, ← hparked, hready]
      · intro u hu
        rcases List.mem_append.mp hu with hu | hu
        · exact Or.inl (hmem u hu)
        · exact Or.inr (hadded u hu)
    · right
      rw [hparked] at hnil
      simp only [List.append_eq_nil_iff] at hnil
      exact ⟨hidle, hnil.1.1, hnil'⟩
  case requeued =>
    intro hrunning hnotIdle hne
    have hcurr := hrequeued hrunning hnotIdle
    rcases hready with hready | ⟨-, hnil, -⟩
    · have hin : curr ∈ next :: q'.ready := hready ▸ List.mem_append_right _ hcurr
      exact (List.mem_cons.mp hin).resolve_left fun heq => hne heq.symm
    · simp only [List.append_eq_nil_iff] at hnil
      rw [hnil.2] at hcurr
      cases hcurr
  case waiting =>
    rw [hwaiting]
    exact hprep.waiting

/-- The critical section keeps the placement and hands the processor to the
front of the queue, or to the idle thread. -/
theorem Placed.scheduleFrom (h : s.Placed q) (hcurr : s.current cpu = some curr) :
    ∃ next q', s.Scheduled q cpu curr next (s.scheduleFrom cpu curr) q' := by
  have hocc : s.Occurs q (.current cpu) curr := hcurr
  have hmem := (h.fits _ _ hocc).1
  have hidleCurr : ∀ c, s.idle c = some curr → c = cpu := by
    intro c hc
    have hplace := (h.idle c curr hc).2.2.1 _ hocc
    simpa using hplace.symm
  have hregistered := h.registered cpu (by simp [hcurr])
  obtain ⟨q₂, hprep⟩ := h.prepared hcurr
  rw [scheduleFrom_eq hcurr]
  generalize ((s.setCurrent cpu none).unpark cpu).buryZombie cpu = s₂ at hprep ⊢
  have hidle₂ : s₂.idle = s.idle := hprep.settles.idle
  have hlive₂ : s₂.live = s.live := hprep.settles.live
  have hstate₂ : (s₂.thread curr).state = (s.thread curr).state :=
    Thread.state_eq_of_unlinked hprep.unlinked
  have hcurrent₂ : s₂.current cpu = none := by
    rw [hprep.settles.current]
    exact Function.update_self _ _ _
  obtain ⟨added, hplaced₃, hslots₃, hrecords₃, hcases⟩ :=
    hprep.settles.placed.requeue hprep.nowhere (hlive₂ ▸ hmem) (hidle₂ ▸ hidleCurr)
  have hadded : ∀ u ∈ added, u = curr ∧ (s.thread curr).state = .running ∧
      s.idle cpu ≠ some curr := by
    rintro u hu
    rcases hcases with ⟨rfl, hrunning, hnotIdle, -⟩ | ⟨rfl, -, -⟩
    · rw [hstate₂] at hrunning
      rw [hidle₂] at hnotIdle
      exact ⟨List.mem_singleton.mp hu, hrunning, hnotIdle⟩
    · cases hu
  have hrequeued : (s.thread curr).state = .running → s.idle cpu ≠ some curr →
      curr ∈ added := by
    intro hrunning hnotIdle
    rcases hcases with ⟨rfl, -⟩ | ⟨-, hnot, -⟩
    · exact List.mem_singleton_self _
    · exact absurd ⟨hstate₂.trans hrunning, fun heq => hnotIdle (hidle₂ ▸ heq.symm)⟩ hnot
  have hstate₃ : ((s₂.requeue cpu curr).thread curr).state = (s.thread curr).state ∨
      (s.thread curr).state = .running ∧
        ((s₂.requeue cpu curr).thread curr).state = .ready := by
    rcases hcases with ⟨-, hrunning, -, hready⟩ | ⟨-, -, hsame⟩
    · exact Or.inr ⟨hstate₂ ▸ hrunning, hready⟩
    · rw [hsame]
      exact Or.inl hstate₂
  have hheld : (s₂.requeue cpu curr).Nowhere { q₂ with ready := q₂.ready ++ added } curr ∨
      ((s₂.requeue cpu curr).thread curr).state = .ready := by
    rcases hcases with ⟨-, -, -, hready⟩ | ⟨rfl, -, hsame⟩
    · exact Or.inr hready
    · rw [hsame]
      exact Or.inl (by simpa using hprep.nowhere)
  have hcurrent₃ : (s₂.requeue cpu curr).current cpu = none := by
    rw [hslots₃.current, hcurrent₂]
  have hidle₃ : (s₂.requeue cpu curr).idle = s.idle := hslots₃.idle.trans hidle₂
  have hlive₃ : (s₂.requeue cpu curr).live = s.live := hslots₃.live.trans hlive₂
  generalize s₂.requeue cpu curr = s₃ at *
  rcases hplaced₃.dequeueLocked with
    ⟨hdequeue, hnil⟩ | ⟨t, l, hready, hfst, hplaced₄, hnowhere₄⟩
  · -- the queue is empty: the idle thread is next
    obtain ⟨i, hi⟩ := Option.ne_none_iff_exists'.mp hregistered
    obtain ⟨hmemIdle, -, honly, hinj⟩ := hplaced₃.idle cpu i (by rw [hidle₃, hi])
    have hnowhere : s₃.Nowhere { q₂ with ready := q₂.ready ++ added } i := by
      intro p hp
      obtain rfl := honly p hp
      have hcurrent : s₃.current cpu = some i := hp
      rw [hcurrent₃] at hcurrent
      cases hcurrent
    simp only [hdequeue, Option.getD_none, hidle₃, hi, Option.getD_some]
    exact ⟨i, _, hprep.scheduled hslots₃ hrecords₃
      (switchTo_handsOver s₃ cpu curr i fun hc => (hplaced₃.idle cpu curr hc).2.1)
      (hplaced₃.switchTo hnowhere hmemIdle hinj (by simp [hidle₃, hi])
        (hheld.imp_left fun hcurr => ⟨hcurr, hlive₃ ▸ hmem⟩))
      rfl hadded hstate₃ (Or.inr ⟨hi, hnil, hnil⟩) hrequeued⟩
  · -- the front of the queue is next
    have hslots₄ := dequeueLocked_sameSlots (s := s₃)
    have hocc₃ : s₃.Occurs { q₂ with ready := q₂.ready ++ added } .ready t := by
      change t ∈ q₂.ready ++ added
      rw [show q₂.ready ++ added = t :: l from hready]
      exact List.mem_cons_self
    have hstate₄ : (s₃.dequeueLocked.2.thread curr).state = (s₃.thread curr).state :=
      Thread.state_eq_of_unlinked unlinked_dequeueLocked
    have hidle₄ : s₃.dequeueLocked.2.idle = s₃.idle := hslots₄.idle
    simp only [hfst, Option.getD_some]
    refine ⟨t, _, hprep.scheduled (hslots₃.trans hslots₄)
      (hrecords₃.trans (keepsRecords_of_unlinked fun _ => unlinked_dequeueLocked))
      (switchTo_handsOver _ cpu curr t fun hc => (hplaced₄.idle cpu curr hc).2.1)
      (hplaced₄.switchTo hnowhere₄ ?_ ?_ ?_ ?_) rfl hadded (hstate₄ ▸ hstate₃)
      (Or.inl hready) hrequeued⟩
    · rw [hslots₄.live]
      exact (hplaced₃.fits _ _ hocc₃).1
    · intro c hc
      rw [hidle₄] at hc
      exact absurd hc (hplaced₃.not_idle hocc₃ (by simp) c)
    · rw [hidle₄, hidle₃]
      exact hregistered
    · rw [hstate₄, hslots₄.live, hlive₃]
      exact hheld.imp_left fun hcurr => ⟨hcurr.dequeueLocked hready, hmem⟩

end Scheduler

end Utopia
