/-
Runs of the scheduler: every step keeps the placement of the threads.
-/
import Utopia.Exec.Schedule

namespace Utopia

theorem Place.not_fits_uninitialised (p : Place) : ¬ p.Fits .uninitialised := by
  cases p <;> simp [Place.Fits]

namespace Scheduler

variable {s s' : Scheduler} {q q' : Queues} {t u : ThreadPtr} {cpu wq k : Nat}

/-- Fewer ways to the same threads. -/
theorem Placed.mono (h : s.Placed q) (hlinked : s'.Linked q')
    (hoccurs : ∀ p u, s'.Occurs q' p u → s.Occurs q p u) (hthread : s'.thread = s.thread)
    (hlive : s'.live = s.live) (hidle : s'.idle = s.idle) (hcurrent : s'.current = s.current) :
    s'.Placed q' := by
  refine ⟨hlinked, fun p p' u hp hp' => h.unique p p' u (hoccurs p u hp) (hoccurs p' u hp'),
    fun p u hp => ?_, fun cpu u hu => ?_, ?_⟩
  · rw [hthread, hlive]
    exact h.fits p u (hoccurs p u hp)
  · rw [hidle] at hu ⊢
    rw [hthread, hlive]
    obtain ⟨hmem, hrunning, honly, hinj⟩ := h.idle cpu u hu
    exact ⟨hmem, hrunning, fun p hp => honly p (hoccurs p u hp), hinj⟩
  · rw [hcurrent, hidle]
    exact h.registered

theorem Placed.nowhere_of_not_live (h : s.Placed q) (ht : t ∉ s.live) : s.Nowhere q t :=
  fun p hp => ht (h.fits p t hp).1

theorem Placed.nowhere_of_isNew (h : s.Placed q) (ht : s.IsNew t) : s.Nowhere q t := by
  intro p hp
  have hfits := (h.fits p t hp).2
  rw [ht.2] at hfits
  exact p.not_fits_uninitialised hfits

theorem Placed.not_idle_of_isNew (h : s.Placed q) (ht : s.IsNew t) (cpu : Nat) :
    s.idle cpu ≠ some t := by
  intro hidle
  have hrunning := (h.idle cpu t hidle).2.1
  rw [ht.2] at hrunning
  cases hrunning

/-! ### Threads come and go -/

theorem Placed.tcbAlloc (h : s.Placed q) (ht : t ∉ s.live) (process : Option Nat) :
    (s.tcbAlloc t process).Placed q := by
  have hnowhere := h.nowhere_of_not_live ht
  have hlinked := h.linked.setNext hnowhere ⟨.uninitialised, process, none, 0, none⟩
  refine h.move t none ⟨hlinked.ready, hlinked.tail, hlinked.waiting, hlinked.zombies,
    hlinked.detached, hlinked.fifo⟩ ?_ (by simp) ?_ (fun u _ hu => Set.mem_insert_of_mem t hu)
    rfl ?_ (fun c hc => Or.inl hc)
  · intro p u hp
    have hold : s.Occurs q p u := by cases p <;> exact hp
    rw [if_neg]
    · exact hold
    · rintro rfl
      exact hnowhere p hold
  · intro u hu
    change (Function.update s.thread t _ u).state = _
    rw [Function.update_of_ne hu]
  · intro c hc
    exact absurd (h.idle c t hc).1 ht

theorem Placed.registerIdle (h : s.Placed q) (ht : s.IsNew t) (hcurrent : s.current cpu = none)
    (hidle : s.idle cpu = none) : (s.registerIdle cpu t).Placed q := by
  have hnowhere := h.nowhere_of_isNew ht
  have hnotIdle := h.not_idle_of_isNew ht
  have hset : (s.setState t .running).Placed q :=
    h.setThread rfl (fun p hp => absurd hp (hnowhere p)) fun c hc => absurd hc (hnotIdle c)
  have hoccurs : ∀ p u, (s.registerIdle cpu t).Occurs q p u →
      s.Occurs q p u ∧ u ≠ t ∨ p = .current cpu ∧ u = t := by
    intro p u hp
    have hp : ((s.setState t .running).setCurrent cpu (some t)).Occurs q p u := by
      cases p <;> exact hp
    rw [occurs_setCurrent] at hp
    split_ifs at hp with hplace
    · exact Or.inr ⟨hplace, (Option.some.inj hp).symm⟩
    · left
      refine ⟨(occurs_setThread _ p u).mp hp, ?_⟩
      rintro rfl
      exact hnowhere p ((occurs_setThread _ p u).mp hp)
  have hstate : ∀ u, u ≠ t → ((s.registerIdle cpu t).thread u).state = (s.thread u).state := by
    intro u hu
    change (Function.update s.thread t _ u).state = _
    rw [Function.update_of_ne hu]
  have hself : ((s.registerIdle cpu t).thread t).state = .running := by
    change (Function.update s.thread t _ t).state = _
    rw [Function.update_self]
  refine ⟨⟨hset.linked.ready, hset.linked.tail, hset.linked.waiting, hset.linked.zombies,
    hset.linked.detached, hset.linked.fifo⟩, ?_, ?_, ?_, ?_⟩
  · intro p p' u hp hp'
    rcases hoccurs p u hp with ⟨hp, hne⟩ | ⟨rfl, rfl⟩
    · rcases hoccurs p' u hp' with ⟨hp', -⟩ | ⟨-, rfl⟩
      · exact h.unique p p' u hp hp'
      · exact absurd rfl hne
    · rcases hoccurs p' u hp' with ⟨-, hne⟩ | ⟨rfl, -⟩
      · exact absurd rfl hne
      · rfl
  · intro p u hp
    rcases hoccurs p u hp with ⟨hp, hne⟩ | ⟨rfl, rfl⟩
    · obtain ⟨hmem, hfits⟩ := h.fits p u hp
      exact ⟨hmem, (hstate u hne).symm ▸ hfits⟩
    · exact ⟨ht.1, Or.inl hself⟩
  · intro c u hu
    change Function.update s.idle cpu (some t) c = some u at hu
    change u ∈ s.live ∧ _ ∧ _ ∧ ∀ c', Function.update s.idle cpu (some t) c' = some u → c' = c
    by_cases hc : c = cpu
    · subst hc
      obtain rfl : t = u := by simpa using hu
      refine ⟨ht.1, hself, fun p hp => ?_, fun c' hc' => ?_⟩
      · rcases hoccurs p t hp with ⟨-, hne⟩ | ⟨hplace, -⟩
        · exact absurd rfl hne
        · exact hplace
      · by_contra hne
        rw [Function.update_of_ne hne] at hc'
        exact hnotIdle c' hc'
    · rw [Function.update_of_ne hc] at hu
      obtain ⟨hmem, hrunning, honly, hinj⟩ := h.idle c u hu
      have hut : u ≠ t := by
        rintro rfl
        exact hnotIdle c hu
      refine ⟨hmem, (hstate u hut).trans hrunning, fun p hp => ?_, fun c' hc' => ?_⟩
      · rcases hoccurs p u hp with ⟨hp, -⟩ | ⟨-, hsame⟩
        · exact honly p hp
        · exact absurd hsame hut
      · by_cases hcpu : c' = cpu
        · subst hcpu
          rw [Function.update_self] at hc'
          exact absurd (Option.some.inj hc').symm hut
        · rw [Function.update_of_ne hcpu] at hc'
          exact hinj c' hc'
  · intro c hc
    change Function.update s.idle cpu (some t) c ≠ none
    by_cases hcpu : c = cpu
    · subst hcpu
      simp
    · rw [Function.update_of_ne hcpu]
      apply h.registered
      have hc : Function.update s.current cpu (some t) c ≠ none := hc
      rwa [Function.update_of_ne hcpu] at hc

theorem Placed.reapDetach (h : s.Placed q) (hk : s.detached k = none) :
    (s.reapDetach k).Placed
      { q with zombies := [], detached := Function.update q.detached k q.zombies } := by
  have hempty : q.detached k = [] := by
    have hhead := (h.linked.detached k).head_eq
    rw [hk] at hhead
    exact List.head?_eq_none_iff.mp hhead.symm
  have hlinked : (s.reapDetach k).Linked
      { q with zombies := [], detached := Function.update q.detached k q.zombies } := by
    refine ⟨h.linked.ready, h.linked.tail, h.linked.waiting, rfl, fun j => ?_, h.linked.fifo⟩
    by_cases hj : j = k
    · subst hj
      simp only [Scheduler.reapDetach, Function.update_self]
      exact h.linked.zombies
    · simp only [Scheduler.reapDetach, Function.update_of_ne hj]
      exact h.linked.detached j
  -- what was in the zombie list is in the detached one, the rest where it was
  have hoccurs : ∀ p u, (s.reapDetach k).Occurs
      { q with zombies := [], detached := Function.update q.detached k q.zombies } p u →
        (p = .detached k ∧ s.Occurs q .zombies u) ∨
          (p ≠ .detached k ∧ p ≠ .zombies ∧ s.Occurs q p u) := by
    intro p u hp
    cases p with
    | detached j =>
        by_cases hj : j = k
        · subst hj
          simp only [Occurs, Function.update_self] at hp
          exact Or.inl ⟨rfl, hp⟩
        · simp only [Occurs, Function.update_of_ne hj] at hp
          exact Or.inr ⟨by simpa using hj, by simp, hp⟩
    | zombies => cases hp
    | ready => exact Or.inr ⟨by simp, by simp, hp⟩
    | waiting w => exact Or.inr ⟨by simp, by simp, hp⟩
    | park c => exact Or.inr ⟨by simp, by simp, hp⟩
    | pendingZombie c => exact Or.inr ⟨by simp, by simp, hp⟩
    | current c => exact Or.inr ⟨by simp, by simp, hp⟩
  refine ⟨hlinked, ?_, ?_, ?_, h.registered⟩
  · intro p p' u hp hp'
    rcases hoccurs p u hp with ⟨rfl, hold⟩ | ⟨-, hzombies, hold⟩
    · rcases hoccurs p' u hp' with ⟨rfl, -⟩ | ⟨-, hzombies', hold'⟩
      · rfl
      · exact absurd (h.unique p' .zombies u hold' hold) hzombies'
    · rcases hoccurs p' u hp' with ⟨-, hold'⟩ | ⟨-, -, hold'⟩
      · exact absurd (h.unique p .zombies u hold hold') hzombies
      · exact h.unique p p' u hold hold'
  · intro p u hp
    rcases hoccurs p u hp with ⟨rfl, hold⟩ | ⟨-, -, hold⟩
    · exact h.fits .zombies u hold
    · exact h.fits p u hold
  · intro c u hu
    obtain ⟨hmem, hrunning, honly, hinj⟩ := h.idle c u hu
    refine ⟨hmem, hrunning, fun p hp => ?_, hinj⟩
    rcases hoccurs p u hp with ⟨rfl, hold⟩ | ⟨-, -, hold⟩
    · have hplace := honly .zombies hold
      cases hplace
    · exact honly p hold

/-- The thread that `scheduler_reap` frees was in its own list only. -/
theorem Placed.reapFree (h : s.Placed q) (hk : s.detached k = some t) :
    ∃ l, q.detached k = t :: l ∧
      (s.reapFree k).Placed { q with detached := Function.update q.detached k l } := by
  cases hq : q.detached k with
  | nil =>
      have hhead := (h.linked.detached k).head_eq
      rw [hk, hq] at hhead
      cases hhead
  | cons t' l =>
      have hlist := h.linked.detached k
      rw [hq] at hlist
      have hnot := (List.nodup_cons.mp hlist.nodup).1
      obtain ⟨hhead, hrest⟩ := hlist
      obtain rfl : t = t' := Option.some.inj (hk.symm.trans hhead)
      have hocc : s.Occurs q (.detached k) t := by simp [Occurs, hq]
      have hfree : s.reapFree k =
          { s with detached := Function.update s.detached k (s.next t), live := s.live \ {t} } := by
        simp only [Scheduler.reapFree, hk]
      rw [hfree]
      refine ⟨l, rfl, h.move t none ⟨h.linked.ready, h.linked.tail, h.linked.waiting,
        h.linked.zombies, fun j => ?_, h.linked.fifo⟩ ?_ (by simp) (fun u _ => rfl)
        (fun u hu hmem => ⟨hmem, hu⟩) rfl ?_ (fun c hc => Or.inl hc)⟩
      · by_cases hj : j = k
        · subst hj
          simp only [Function.update_self]
          exact hrest
        · simp only [Function.update_of_ne hj]
          exact h.linked.detached j
      · intro p u hp
        have hold : s.Occurs q p u ∧ (p = .detached k → u ∈ l) := by
          cases p with
          | detached j =>
              by_cases hj : j = k
              · subst hj
                simp only [Occurs, Function.update_self] at hp
                exact ⟨by simp [Occurs, hq, hp], fun _ => hp⟩
              · simp only [Occurs, Function.update_of_ne hj] at hp
                exact ⟨hp, fun heq => absurd (by simpa using heq) hj⟩
          | _ => exact ⟨hp, fun heq => by cases heq⟩
        rw [if_neg]
        · exact hold.1
        · rintro rfl
          exact hnot (hold.2 (h.unique p _ u hold.1 hocc))
      · intro c hc
        exact absurd hc (h.not_idle hocc (by simp) c)

/-! ### Waking a wait queue -/

theorem next_wakeThread_of_not_mem (h : s.Linked q) (hne : u ≠ t) (hu : u ∉ q.ready) :
    (s.wakeThread t).next u = s.next u := by
  have htail : (s.clearWaitingOn t).readyTail = q.ready.getLast? := h.tail
  rw [wakeThread]
  cases hlast : q.ready.getLast? with
  | none =>
      rw [hlast] at htail
      rw [enqueueLocked_of_none htail]
      change (Function.update (Function.update s.thread t _) t _ u).next = _
      rw [Function.update_of_ne hne, Function.update_of_ne hne]
      rfl
  | some b =>
      rw [hlast] at htail
      have hub : u ≠ b := by
        rintro rfl
        exact hu (List.mem_of_getLast? hlast)
      rw [enqueueLocked_of_some htail]
      change (Function.update (Function.update (Function.update s.thread t _) t _) b _ u).next = _
      rw [Function.update_of_ne hub, Function.update_of_ne hne, Function.update_of_ne hne]
      rfl

/-- The loop of `scheduler_wake_all` appends its list to the ready queue. -/
theorem Placed.wakeLoop {l : List ThreadPtr} {head : Option ThreadPtr} (fuel : Nat)
    (h : s.Placed q) (hlist : IsList s.next head l) (hfuel : l.length ≤ fuel)
    (hheld : ∀ u ∈ l, s.Nowhere q u ∧ u ∈ s.live ∧ ∀ c, s.idle c ≠ some u) :
    ∃ s', wakeLoop fuel s head = some s' ∧ s'.Placed { q with ready := q.ready ++ l } ∧
      s.SameSlots s' ∧ s.KeepsRecords s' := by
  induction l generalizing s q head fuel with
  | nil =>
      obtain rfl : head = none := hlist
      refine ⟨s, by simp [Scheduler.wakeLoop], by simpa using h,
        ⟨rfl, rfl, rfl, rfl, rfl, rfl, rfl, rfl, rfl⟩, keepsRecords_of_unlinked fun _ => rfl⟩
  | cons t l ih =>
      obtain ⟨rfl, hrest⟩ := id hlist
      obtain ⟨hnot, -⟩ := List.nodup_cons.mp hlist.nodup
      obtain ⟨fuel, rfl⟩ : ∃ n, fuel = n + 1 := ⟨fuel - 1, by simp at hfuel; omega⟩
      obtain ⟨hnowhere, hmem, hidle⟩ := hheld t List.mem_cons_self
      have hslots := wakeThread_sameSlots (s := s) (t := t)
      have hrest' : IsList (s.wakeThread t).next (s.next t) l := by
        apply hrest.congr
        intro u hu
        apply next_wakeThread_of_not_mem h.linked
        · rintro rfl
          exact hnot hu
        · exact (hheld u (List.mem_cons_of_mem _ hu)).1 .ready
      have hlen : l.length ≤ fuel := by simpa using hfuel
      obtain ⟨s', hrun, hplaced, hsame, hrecords⟩ :=
        ih fuel (h.wakeThread hnowhere hmem hidle) hrest' hlen fun u hu => by
          obtain ⟨hnowhere', hmem', hidle'⟩ := hheld u (List.mem_cons_of_mem _ hu)
          have hne : u ≠ t := by
            rintro rfl
            exact hnot hu
          exact ⟨hnowhere'.wakeThread hne, hslots.live ▸ hmem', hslots.idle ▸ hidle'⟩
      refine ⟨s', by rw [Scheduler.wakeLoop, hrun], ?_, hslots.trans hsame,
        wakeThread_keepsRecords.trans hrecords⟩
      simpa using hplaced

/-- `scheduler_wake_all` empties the wait queue into the ready queue. -/
theorem Placed.wakeAll (h : s.Placed q) (wq : Nat) :
    ∃ s', s.wakeAll wq = some s' ∧
      s'.Placed { q with
        ready := q.ready ++ q.waiting wq, waiting := Function.update q.waiting wq [] } ∧
      s'.waitQueue = Function.update s.waitQueue wq ⟨none, (s.waitQueue wq).seq + 1⟩ ∧
      s.KeepsRecords s' ∧ s'.current = s.current ∧ s'.idle = s.idle ∧
      s'.pendingPark = s.pendingPark ∧ s'.pendingZombie = s.pendingZombie := by
  have hlinked : (s.setWaitQueue wq ⟨none, (s.waitQueue wq).seq + 1⟩).Linked
      { q with waiting := Function.update q.waiting wq [] } := by
    refine ⟨h.linked.ready, h.linked.tail, fun w => ?_, h.linked.zombies, h.linked.detached,
      h.linked.fifo⟩
    by_cases hw : w = wq
    · subst hw
      simp [setWaitQueue]
    · simp only [setWaitQueue, Function.update_of_ne hw]
      exact h.linked.waiting w
  have hoccurs : ∀ p u, (s.setWaitQueue wq ⟨none, (s.waitQueue wq).seq + 1⟩).Occurs
      { q with waiting := Function.update q.waiting wq [] } p u →
        s.Occurs q p u ∧ p ≠ .waiting wq := by
    intro p u hp
    cases p with
    | waiting w =>
        by_cases hw : w = wq
        · subst hw
          simp [Occurs] at hp
        · simp only [Occurs, Function.update_of_ne hw] at hp
          exact ⟨hp, by simpa using hw⟩
    | _ => exact ⟨hp, by simp⟩
  have hplaced := h.mono hlinked (fun p u hp => (hoccurs p u hp).1) rfl rfl rfl rfl
  have hlist := h.linked.waiting wq
  have hheld : ∀ u ∈ q.waiting wq,
      (s.setWaitQueue wq ⟨none, (s.waitQueue wq).seq + 1⟩).Nowhere
        { q with waiting := Function.update q.waiting wq [] } u ∧ u ∈ s.live ∧
          ∀ c, s.idle c ≠ some u := by
    intro u hu
    have hocc : s.Occurs q (.waiting wq) u := hu
    refine ⟨fun p hp => ?_, (h.fits _ _ hocc).1, h.not_idle hocc (by simp)⟩
    obtain ⟨hold, hne⟩ := hoccurs p u hp
    exact hne (h.unique p _ u hold hocc)
  obtain ⟨s', hrun, hplaced', hslots, hrecords⟩ :=
    hplaced.wakeLoop (2 ^ 64) hlist hlist.length_le hheld
  have hwake : s.wakeAll wq = some s' := by
    rw [Scheduler.wakeAll, ← hrun]
    simp only [setWaitQueue, Function.update_self, Function.update_idem]
  exact ⟨s', hwake, hplaced', hslots.waitQueue, hrecords, hslots.current, hslots.idle,
    hslots.pendingPark, hslots.pendingZombie⟩

/-! ### One step -/

theorem Placed.setRunning (h : s.Placed q) (ht : ∃ c, s.current c = some t) (v : Thread)
    (hv : v.next = (s.thread t).next)
    (hstate : v.state = .running ∨ v.state = .blocked ∨ v.state = .terminated)
    (hidle : ∀ c, s.idle c = some t → v.state = .running) : (s.setThread t v).Placed q := by
  obtain ⟨c, hc⟩ := ht
  refine h.setThread hv (fun p hp => ?_) hidle
  obtain rfl := h.unique p (.current c) t hp hc
  exact hstate

theorem Placed.not_idle_of_ne (h : s.Placed q) (hc : s.current cpu = some t)
    (hne : some t ≠ s.idle cpu) (c : Nat) : s.idle c ≠ some t := by
  intro hidle
  have hplace := (h.idle c t hidle).2.2.1 (.current cpu) hc
  obtain rfl : cpu = c := by simpa using hplace
  exact hne hidle.symm

theorem Placed.wait (h : s.Placed q) (cpu wq : Nat) (seq : BitVec 64) :
    (s.wait cpu wq seq).Placed q := by
  rw [Scheduler.wait]
  split_ifs with hseq
  · exact h
  · cases hc : s.current cpu with
    | none => exact h
    | some curr =>
        dsimp only
        split_ifs with hidle
        · exact h
        · exact h.setRunning ⟨cpu, hc⟩ _ rfl (Or.inr (Or.inl rfl))
            fun c hcidle => absurd hcidle (h.not_idle_of_ne hc hidle c)

theorem Placed.resume (h : s.Placed q) (cpu : Nat) : (s.resume cpu).Placed q := by
  rw [Scheduler.resume]
  cases hc : s.current cpu with
  | none => exact h
  | some curr =>
      dsimp only
      split_ifs
      · have hcleared : (s.clearWaitingOn curr).Placed q := by
          refine h.setThread rfl (fun p hp => (h.fits p curr hp).2) fun c hidle => ?_
          exact (h.idle c curr hidle).2.1
        exact hcleared.setRunning ⟨cpu, hc⟩ _ rfl (Or.inl rfl) fun _ _ => rfl
      · exact h

theorem Placed.exit (h : s.Placed q) (cpu : Nat) : (s.exit cpu).Placed q := by
  rw [Scheduler.exit]
  cases hc : s.current cpu with
  | none => exact h
  | some curr =>
      dsimp only
      split_ifs with hidle
      · exact h
      · exact h.setRunning ⟨cpu, hc⟩ _ rfl (Or.inr (Or.inr rfl))
          fun c hcidle => absurd hcidle (h.not_idle_of_ne hc hidle c)

theorem switchable_eq_some {interruptedKernel : Bool} {curr : ThreadPtr}
    (h : s.switchable cpu interruptedKernel = some curr) : s.current cpu = some curr := by
  rw [switchable] at h
  split_ifs at h
  cases hc : s.current cpu with
  | none => simp [hc] at h
  | some t =>
      simp only [hc] at h
      split_ifs at h
      exact h

theorem Placed.schedule (h : s.Placed q) (cpu : Nat) (interruptedKernel : Bool) :
    ∃ q', (s.schedule cpu interruptedKernel).Placed q' := by
  rw [Scheduler.schedule]
  cases hcurr : s.switchable cpu interruptedKernel with
  | none => exact ⟨q, h⟩
  | some curr =>
      obtain ⟨next, q', hscheduled⟩ := h.scheduleFrom (switchable_eq_some hcurr)
      exact ⟨q', hscheduled.placed⟩

theorem wait_frame (s : Scheduler) (cpu wq : Nat) (seq : BitVec 64) :
    (s.wait cpu wq seq).pendingPark = s.pendingPark ∧
      (s.wait cpu wq seq).pendingZombie = s.pendingZombie ∧
      (s.wait cpu wq seq).current = s.current ∧ (s.wait cpu wq seq).idle = s.idle := by
  rw [Scheduler.wait]
  split_ifs
  · exact ⟨rfl, rfl, rfl, rfl⟩
  · cases s.current cpu with
    | none => exact ⟨rfl, rfl, rfl, rfl⟩
    | some curr =>
        dsimp only
        split_ifs <;> exact ⟨rfl, rfl, rfl, rfl⟩

theorem resume_frame (s : Scheduler) (cpu : Nat) :
    (s.resume cpu).pendingPark = s.pendingPark ∧
      (s.resume cpu).pendingZombie = s.pendingZombie ∧
      (s.resume cpu).current = s.current ∧ (s.resume cpu).idle = s.idle := by
  rw [Scheduler.resume]
  cases s.current cpu with
  | none => exact ⟨rfl, rfl, rfl, rfl⟩
  | some curr =>
      dsimp only
      split_ifs <;> exact ⟨rfl, rfl, rfl, rfl⟩

theorem exit_frame (s : Scheduler) (cpu : Nat) :
    (s.exit cpu).pendingPark = s.pendingPark ∧
      (s.exit cpu).pendingZombie = s.pendingZombie ∧
      (s.exit cpu).current = s.current ∧ (s.exit cpu).idle = s.idle := by
  rw [Scheduler.exit]
  cases s.current cpu with
  | none => exact ⟨rfl, rfl, rfl, rfl⟩
  | some curr =>
      dsimp only
      split_ifs <;> exact ⟨rfl, rfl, rfl, rfl⟩

/-- A step other than a critical section of `scheduler_schedule`: it leaves the
pending slots alone, and other processors' threads, and takes nothing from the
ready queue. -/
structure Quiet (s : Scheduler) (q : Queues) (e : SchedulerStep) (s' : Scheduler)
    (q' : Queues) : Prop where
  placed : s'.Placed q'
  park : s'.pendingPark = s.pendingPark
  zombie : s'.pendingZombie = s.pendingZombie
  idle : ∀ c, e.processor ≠ some c → s'.idle c = s.idle c
  ready : ∀ t, t ∈ q.ready → t ∈ q'.ready

theorem Placed.step_quiet (h : s.Placed q) {e : SchedulerStep} (hallows : s.Allows e)
    (hne : ∀ cpu ik, e ≠ .schedule cpu ik) :
    ∃ s' q', s.step e = some s' ∧ s.Quiet q e s' q' := by
  cases e with
  | create t process =>
      exact ⟨_, q, rfl, h.tcbAlloc hallows process, rfl, rfl, fun _ _ => rfl, fun _ ht => ht⟩
  | registerIdle cpu t =>
      obtain ⟨hnew, hcurrent, hidle⟩ := hallows
      refine ⟨_, q, rfl, h.registerIdle hnew hcurrent hidle, rfl, rfl, fun c hc => ?_,
        fun _ ht => ht⟩
      apply Function.update_of_ne
      rintro rfl
      exact hc rfl
  | enqueue t =>
      have hslots := enqueueLocked_sameSlots (s := s) (t := t)
      exact ⟨_, _, rfl, h.enqueueLocked (h.nowhere_of_isNew hallows) hallows.1
        (h.not_idle_of_isNew hallows), hslots.pendingPark, hslots.pendingZombie,
        fun _ _ => congrFun hslots.idle _, fun _ ht => List.mem_append_left _ ht⟩
  | schedule cpu interruptedKernel => exact absurd rfl (hne cpu interruptedKernel)
  | wait cpu wq seq =>
      obtain ⟨hpark, hzombie, -, hidle⟩ := s.wait_frame cpu wq seq
      exact ⟨_, q, rfl, h.wait cpu wq seq, hpark, hzombie, fun _ _ => congrFun hidle _,
        fun _ ht => ht⟩
  | resume cpu =>
      obtain ⟨hpark, hzombie, -, hidle⟩ := s.resume_frame cpu
      exact ⟨_, q, rfl, h.resume cpu, hpark, hzombie, fun _ _ => congrFun hidle _,
        fun _ ht => ht⟩
  | wakeAll wq =>
      obtain ⟨s', hrun, hplaced, -, -, -, hidle, hpark, hzombie⟩ := h.wakeAll wq
      exact ⟨s', _, hrun, hplaced, hpark, hzombie, fun _ _ => congrFun hidle _,
        fun _ ht => List.mem_append_left _ ht⟩
  | exit cpu =>
      obtain ⟨hpark, hzombie, -, hidle⟩ := s.exit_frame cpu
      exact ⟨_, q, rfl, h.exit cpu, hpark, hzombie, fun _ _ => congrFun hidle _,
        fun _ ht => ht⟩
  | reapDetach k =>
      exact ⟨_, _, rfl, h.reapDetach hallows, rfl, rfl, fun _ _ => rfl, fun _ ht => ht⟩
  | reapFree k =>
      cases hk : s.detached k with
      | none =>
          have hsame : s.reapFree k = s := by simp only [Scheduler.reapFree, hk]
          refine ⟨_, q, rfl, ?_⟩
          rw [hsame]
          exact ⟨h, rfl, rfl, fun _ _ => rfl, fun _ ht => ht⟩
      | some t =>
          obtain ⟨l, -, hplaced⟩ := h.reapFree hk
          refine ⟨_, _, rfl, hplaced, ?_, ?_, ?_, fun _ ht => ht⟩
          · simp only [Scheduler.reapFree, hk]
          · simp only [Scheduler.reapFree, hk]
          · intro _ _
            simp only [Scheduler.reapFree, hk]
  | lockContextSwitch =>
      exact ⟨_, q, rfl, h.mono ⟨h.linked.ready, h.linked.tail, h.linked.waiting,
        h.linked.zombies, h.linked.detached, h.linked.fifo⟩
        (fun p u hp => by cases p <;> exact hp) rfl rfl rfl rfl, rfl, rfl, fun _ _ => rfl,
        fun _ ht => ht⟩

/-- Every step ends and keeps the placement. -/
theorem Placed.step (h : s.Placed q) {e : SchedulerStep} (hallows : s.Allows e) :
    ∃ s' q', s.step e = some s' ∧ s'.Placed q' := by
  by_cases hschedule : ∃ cpu ik, e = .schedule cpu ik
  · obtain ⟨cpu, ik, rfl⟩ := hschedule
    obtain ⟨q', hplaced⟩ := h.schedule cpu ik
    exact ⟨_, q', rfl, hplaced⟩
  · obtain ⟨s', q', hrun, hquiet⟩ :=
      h.step_quiet hallows fun cpu ik heq => hschedule ⟨cpu, ik, heq⟩
    exact ⟨s', q', hrun, hquiet.placed⟩

/-! ### Runs -/

theorem initial_placed : initial.Placed ⟨[], fun _ => [], [], fun _ => []⟩ := by
  refine ⟨⟨rfl, rfl, fun _ => rfl, rfl, fun _ => rfl, rfl⟩, ?_, ?_, ?_, ?_⟩
  · intro p p' u hp
    cases p <;> simp [Occurs, initial] at hp
  · intro p u hp
    cases p <;> simp [Occurs, initial] at hp
  · intro c u hu
    cases hu
  · intro c hc
    exact absurd rfl hc

end Scheduler

theorem SchedulerReachable.placed {s : Scheduler} (h : SchedulerReachable s) :
    ∃ q, s.Placed q := by
  induction h with
  | initial => exact ⟨_, Scheduler.initial_placed⟩
  | step hs hallows hstep ih =>
      obtain ⟨q, hplaced⟩ := ih
      obtain ⟨s', q', hrun, hplaced'⟩ := hplaced.step hallows
      rw [hstep] at hrun
      cases hrun
      exact ⟨q', hplaced'⟩

/-- The pointers of the scheduler: slots, and positions in linked lists. -/
inductive Slot where
  | ready (i : Nat)
  | waiting (wq i : Nat)
  | park (cpu : Nat)
  | pendingZombie (cpu : Nat)
  | zombies (i : Nat)
  | current (cpu : Nat)
deriving DecidableEq, Repr

def Slot.place : Slot → Place
  | .ready _ => .ready
  | .waiting wq _ => .waiting wq
  | .park cpu => .park cpu
  | .pendingZombie cpu => .pendingZombie cpu
  | .zombies _ => .zombies
  | .current cpu => .current cpu

namespace Scheduler

variable {s : Scheduler} {q : Queues} {t : ThreadPtr}

/-- The thread a slot leads to. -/
def threadAt (s : Scheduler) : Slot → Option ThreadPtr
  | .ready i => nthNode s.next s.readyHead i
  | .waiting wq i => nthNode s.next (s.waitQueue wq).head i
  | .park cpu => s.pendingPark cpu
  | .pendingZombie cpu => s.pendingZombie cpu
  | .zombies i => nthNode s.next s.zombieList i
  | .current cpu => s.current cpu

theorem Placed.occurs_of_threadAt (h : s.Placed q) {a : Slot} (ha : s.threadAt a = some t) :
    s.Occurs q a.place t := by
  cases a with
  | ready i =>
      rw [threadAt, h.linked.ready.nthNode_eq] at ha
      exact List.mem_of_getElem? ha
  | waiting wq i =>
      rw [threadAt, (h.linked.waiting wq).nthNode_eq] at ha
      exact List.mem_of_getElem? ha
  | zombies i =>
      rw [threadAt, h.linked.zombies.nthNode_eq] at ha
      exact List.mem_of_getElem? ha
  | _ => exact ha

theorem Placed.threadAt_inj (h : s.Placed q) {a b : Slot} (ha : s.threadAt a = some t)
    (hb : s.threadAt b = some t) : a = b := by
  have hplace := h.unique _ _ t (h.occurs_of_threadAt ha) (h.occurs_of_threadAt hb)
  have hindex : ∀ {head : Option ThreadPtr} {l : List ThreadPtr} {i j : Nat},
      IsList s.next head l → nthNode s.next head i = some t →
        nthNode s.next head j = some t → i = j := by
    intro head l i j hlist hi hj
    rw [hlist.nthNode_eq] at hi hj
    have hlt := (List.getElem?_eq_some_iff.mp hi).1
    exact (List.getElem?_inj hlt hlist.nodup).mp (hi.trans hj.symm)
  cases a with
  | ready i =>
      cases b <;> simp only [Slot.place, reduceCtorEq] at hplace
      rw [hindex h.linked.ready ha hb]
  | waiting wq i =>
      cases b <;> simp only [Slot.place, reduceCtorEq, Place.waiting.injEq] at hplace
      subst hplace
      rw [hindex (h.linked.waiting wq) ha hb]
  | zombies i =>
      cases b <;> simp only [Slot.place, reduceCtorEq] at hplace
      rw [hindex h.linked.zombies ha hb]
  | park cpu => cases b <;> simp_all [Slot.place]
  | pendingZombie cpu => cases b <;> simp_all [Slot.place]
  | current cpu => cases b <;> simp_all [Slot.place]

end Scheduler

/-- In every reachable state each thread is in one slot at most, idle threads are
only ever current, the ready queue is a list from head to tail in the order the
threads entered, and no slot leads to the thread that `scheduler_reap` frees. -/
theorem schedulerReachable_placement {s : Scheduler} (h : SchedulerReachable s) :
    (∀ a b t, s.threadAt a = some t → s.threadAt b = some t → a = b ∧ t ∈ s.live) ∧
    (∀ cpu t, s.idle cpu = some t → ∀ a, s.threadAt a = some t → a = .current cpu) ∧
    (s.readyHead = none ↔ s.readyTail = none) ∧
    (∀ t, s.readyTail = some t → s.next t = none ∧ ∃ i, s.threadAt (.ready i) = some t) ∧
    (∃ ready, IsList s.next s.readyHead ready ∧ s.entered = s.left ++ ready) ∧
    (∀ k t, s.detached k = some t → t ∈ s.live ∧ ∀ a, s.threadAt a ≠ some t) ∧
    ∀ e, s.Allows e → ∃ s', s.step e = some s' := by
  obtain ⟨q, hplaced⟩ := h.placed
  have hready := hplaced.linked.ready
  have htail := hplaced.linked.tail
  refine ⟨?_, ?_, ?_, ?_, ⟨q.ready, hready, hplaced.linked.fifo⟩, ?_, ?_⟩
  · intro a b t ha hb
    exact ⟨hplaced.threadAt_inj ha hb, (hplaced.fits _ t (hplaced.occurs_of_threadAt ha)).1⟩
  · intro cpu t hidle a ha
    have hplace := (hplaced.idle cpu t hidle).2.2.1 _ (hplaced.occurs_of_threadAt ha)
    cases a <;> simp_all [Slot.place]
  · rw [hready.head_eq, htail, List.head?_eq_none_iff, List.getLast?_eq_none_iff]
  · intro t ht
    rw [htail] at ht
    obtain ⟨l, hl⟩ := List.getLast?_eq_some_iff.mp ht
    have hnth : nthNode s.next s.readyHead l.length = some t := by
      rw [hready.nthNode_eq, hl]
      simp
    have hend : nthNode s.next s.readyHead (l.length + 1) = none := by
      rw [hready.nthNode_eq, hl]
      simp
    refine ⟨?_, l.length, hnth⟩
    rwa [nthNode, hnth, Option.bind_some] at hend
  · intro k t hk
    have hlist := (hplaced.linked.detached k).head_eq
    rw [hk] at hlist
    have hocc : s.Occurs q (.detached k) t := List.mem_of_head? hlist.symm
    refine ⟨(hplaced.fits _ t hocc).1, fun a ha => ?_⟩
    have hplace := hplaced.unique _ _ t (hplaced.occurs_of_threadAt ha) hocc
    cases a <;> simp [Slot.place] at hplace
  · intro e hallows
    obtain ⟨s', q', hrun, -⟩ := hplaced.step hallows
    exact ⟨s', hrun⟩

/-- A processor on its idle thread, and two user threads in the ready queue. -/
def twoReady : Scheduler :=
  let idle := (Scheduler.initial.tcbAlloc 0x1000 none).registerIdle 0 0x1000
  let first := (idle.tcbAlloc 0x2000 (some 1)).enqueueLocked 0x2000
  (first.tcbAlloc 0x3000 (some 2)).enqueueLocked 0x3000

theorem twoReady_reachable : SchedulerReachable twoReady := by
  have h1 := SchedulerReachable.initial.step (e := .create 0x1000 none)
    (Set.notMem_empty _) rfl
  have h2 := h1.step (e := .registerIdle 0 0x1000) ⟨⟨Set.mem_insert _ _, rfl⟩, rfl, rfl⟩ rfl
  have h3 := h2.step (e := .create 0x2000 (some 1))
    (show (0x2000 : ThreadPtr) ∉ insert 0x1000 ∅ by simp) rfl
  have h4 := h3.step (e := .enqueue 0x2000) ⟨Set.mem_insert _ _, rfl⟩ rfl
  have h5 := h4.step (e := .create 0x3000 (some 2))
    (show (0x3000 : ThreadPtr) ∉ insert 0x2000 (insert 0x1000 ∅) by simp) rfl
  exact h5.step (e := .enqueue 0x3000) ⟨Set.mem_insert _ _, rfl⟩ rfl

/-- The first of two ready threads runs. It is in no slot but the processor's, the
other one in no slot but the first of the ready queue, the idle thread in none. -/
theorem schedulerReachable_placement_enqueue :
    ∃ s, twoReady.step (.schedule 0 false) = some s ∧
      s.threadAt (.current 0) = some 0x2000 ∧ s.threadAt (.ready 0) = some 0x3000 ∧
      (∀ a, s.threadAt a = some 0x2000 → a = .current 0) ∧
      (∀ a, s.threadAt a = some 0x3000 → a = .ready 0) ∧
      ∀ a, s.threadAt a ≠ some 0x1000 := by
  have hs := twoReady_reachable.step (e := .schedule 0 false) trivial rfl
  have hruns : (twoReady.schedule 0 false).threadAt (.current 0) = some 0x2000 := rfl
  have hwaits : (twoReady.schedule 0 false).threadAt (.ready 0) = some 0x3000 := rfl
  obtain ⟨hone, hidle, -⟩ := schedulerReachable_placement hs
  refine ⟨_, rfl, hruns, hwaits, fun a ha => (hone a _ _ ha hruns).1,
    fun a ha => (hone a _ _ ha hwaits).1, fun a ha => ?_⟩
  rw [hidle 0 0x1000 rfl a ha, hruns] at ha
  exact absurd ha (by decide)

end Utopia
