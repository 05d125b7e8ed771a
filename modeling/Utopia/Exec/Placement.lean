/-
Where the threads are: the scheduler's pointers lead to every thread object in
one way at most, whatever the processors do.
-/
import Utopia.Exec.Scheduler

namespace Utopia

/-- The places that lead to a thread. -/
inductive Place where
  | ready
  | waiting (wq : Nat)
  | park (cpu : Nat)
  | pendingZombie (cpu : Nat)
  | zombies
  | detached (k : Nat)
  | current (cpu : Nat)
deriving DecidableEq, Repr

/-- The thread states that go with a place. -/
def Place.Fits : Place → ThreadState → Prop
  | .ready, state => state = .ready
  | .waiting _, state => state = .blocked
  | .park _, state => state = .blocked
  | .pendingZombie _, state => state = .terminated
  | .zombies, state => state = .terminated
  | .detached _, state => state = .terminated
  | .current _, state => state = .running ∨ state = .blocked ∨ state = .terminated

/-- A thread record but for its link. -/
def Thread.unlinked (t : Thread) : Thread := { t with next := none }

theorem Thread.state_eq_of_unlinked {a b : Thread} (h : a.unlinked = b.unlinked) :
    a.state = b.state := by
  have hstate : a.unlinked.state = b.unlinked.state := by rw [h]
  exact hstate

/-- The contents of the linked lists. -/
structure Queues where
  ready : List ThreadPtr
  waiting : Nat → List ThreadPtr
  zombies : List ThreadPtr
  detached : Nat → List ThreadPtr

namespace Scheduler

/-- The pointers of `s` lead along the lists `q`. -/
structure Linked (s : Scheduler) (q : Queues) : Prop where
  ready : IsList s.next s.readyHead q.ready
  tail : s.readyTail = q.ready.getLast?
  waiting : ∀ wq, IsList s.next (s.waitQueue wq).head (q.waiting wq)
  zombies : IsList s.next s.zombieList q.zombies
  detached : ∀ k, IsList s.next (s.detached k) (q.detached k)
  fifo : s.entered = s.left ++ q.ready

def Occurs (s : Scheduler) (q : Queues) : Place → ThreadPtr → Prop
  | .ready, t => t ∈ q.ready
  | .waiting wq, t => t ∈ q.waiting wq
  | .park cpu, t => s.pendingPark cpu = some t
  | .pendingZombie cpu, t => s.pendingZombie cpu = some t
  | .zombies, t => t ∈ q.zombies
  | .detached k, t => t ∈ q.detached k
  | .current cpu, t => s.current cpu = some t

def Nowhere (s : Scheduler) (q : Queues) (t : ThreadPtr) : Prop :=
  ∀ p, ¬ s.Occurs q p t

/-- The placement invariant. -/
structure Placed (s : Scheduler) (q : Queues) : Prop where
  linked : s.Linked q
  unique : ∀ p p' t, s.Occurs q p t → s.Occurs q p' t → p = p'
  fits : ∀ p t, s.Occurs q p t → t ∈ s.live ∧ p.Fits (s.thread t).state
  idle : ∀ cpu t, s.idle cpu = some t →
    t ∈ s.live ∧ (s.thread t).state = .running ∧ (∀ p, s.Occurs q p t → p = .current cpu) ∧
      ∀ cpu', s.idle cpu' = some t → cpu' = cpu
  registered : ∀ cpu, s.current cpu ≠ none → s.idle cpu ≠ none

variable {s s' : Scheduler} {q q' : Queues} {t u : ThreadPtr} {cpu wq k : Nat}

/-- A step that moves the thread `t` to `dest`, or takes it out, and leaves the
other threads where they are. -/
theorem Placed.move (h : s.Placed q) (t : ThreadPtr) (dest : Option Place)
    (hlinked : s'.Linked q')
    (hoccurs : ∀ p u, s'.Occurs q' p u → if u = t then dest = some p else s.Occurs q p u)
    (hfits : ∀ p, dest = some p → t ∈ s'.live ∧ p.Fits (s'.thread t).state)
    (hstate : ∀ u, u ≠ t → (s'.thread u).state = (s.thread u).state)
    (hlive : ∀ u, u ≠ t → u ∈ s.live → u ∈ s'.live) (hidle : s'.idle = s.idle)
    (hidleSelf : ∀ cpu, s.idle cpu = some t → t ∈ s'.live ∧
      (s'.thread t).state = .running ∧ ∀ p, dest = some p → p = .current cpu)
    (hregistered : ∀ cpu, s'.current cpu ≠ none → s.current cpu ≠ none ∨ s.idle cpu ≠ none) :
    s'.Placed q' := by
  refine ⟨hlinked, ?_, ?_, ?_, ?_⟩
  · intro p p' u hp hp'
    have hp := hoccurs p u hp
    have hp' := hoccurs p' u hp'
    by_cases hu : u = t
    · rw [if_pos hu] at hp hp'
      exact Option.some.inj (hp.symm.trans hp')
    · rw [if_neg hu] at hp hp'
      exact h.unique p p' u hp hp'
  · intro p u hp
    have hp := hoccurs p u hp
    by_cases hu : u = t
    · rw [if_pos hu] at hp
      exact hu ▸ hfits p hp
    · rw [if_neg hu] at hp
      obtain ⟨hmem, hfit⟩ := h.fits p u hp
      exact ⟨hlive u hu hmem, (hstate u hu).symm ▸ hfit⟩
  · intro cpu u hu
    rw [hidle] at hu ⊢
    obtain ⟨hmem, hrunning, honly, hinj⟩ := h.idle cpu u hu
    by_cases hut : u = t
    · subst hut
      obtain ⟨hmem', hrunning', hdest⟩ := hidleSelf cpu hu
      refine ⟨hmem', hrunning', fun p hp => ?_, hinj⟩
      have hp := hoccurs p u hp
      rw [if_pos rfl] at hp
      exact hdest p hp
    · refine ⟨hlive u hut hmem, (hstate u hut).trans hrunning, fun p hp => ?_, hinj⟩
      have hp := hoccurs p u hp
      rw [if_neg hut] at hp
      exact honly p hp
  · intro cpu hcpu
    rw [hidle]
    rcases hregistered cpu hcpu with hcurrent | hidle
    · exact h.registered cpu hcurrent
    · exact hidle

theorem Placed.not_idle (h : s.Placed q) {p : Place} (hp : s.Occurs q p t)
    (hne : ∀ cpu, p ≠ .current cpu) (cpu : Nat) : s.idle cpu ≠ some t := by
  intro hidle
  exact hne cpu ((h.idle cpu t hidle).2.2.1 p hp)

/-! ### The thread store -/

@[simp]
theorem thread_setThread (v : Thread) :
    (s.setThread t v).thread = Function.update s.thread t v :=
  rfl

theorem next_setThread (v : Thread) :
    (s.setThread t v).next = Function.update s.next t v.next := by
  funext u
  by_cases hu : u = t
  · subst hu
    simp [next]
  · simp [next, hu]

theorem next_setThread_same {v : Thread} (h : v.next = (s.thread t).next) :
    (s.setThread t v).next = s.next := by
  rw [next_setThread, h]
  exact Function.update_eq_self _ _

theorem unlinked_setNext (v : Option ThreadPtr) :
    ((s.setNext t v).thread u).unlinked = (s.thread u).unlinked := by
  rw [setNext, thread_setThread, Function.update_apply]
  split_ifs with hu
  · rw [hu]
    rfl
  · rfl

/-- Links only change for threads outside the lists. -/
theorem Linked.setNext (h : s.Linked q) (ht : s.Nowhere q t) (v : Thread) :
    (s.setThread t v).Linked q := by
  have hready := ht .ready
  have hwaiting := fun wq => ht (.waiting wq)
  have hzombies := ht .zombies
  have hdetached := fun k => ht (.detached k)
  simp only [Occurs] at hready hwaiting hzombies hdetached
  refine ⟨?_, h.tail, fun wq => ?_, ?_, fun k => ?_, h.fifo⟩ <;> rw [next_setThread]
  · exact h.ready.of_update hready
  · exact (h.waiting wq).of_update (hwaiting wq)
  · exact h.zombies.of_update hzombies
  · exact (h.detached k).of_update (hdetached k)

theorem Linked.setThread (h : s.Linked q) {v : Thread}
    (hv : v.next = (s.thread t).next) : (s.setThread t v).Linked q := by
  have hnext := next_setThread_same hv
  exact ⟨hnext ▸ h.ready, h.tail, fun wq => hnext ▸ h.waiting wq, hnext ▸ h.zombies,
    fun k => hnext ▸ h.detached k, h.fifo⟩

theorem occurs_setThread (v : Thread) (p : Place) (u : ThreadPtr) :
    (s.setThread t v).Occurs q p u ↔ s.Occurs q p u := by
  cases p <;> rfl

/-- A thread may change its record where it is, as long as its link stays and
its new state fits. -/
theorem Placed.setThread (h : s.Placed q) {v : Thread} (hv : v.next = (s.thread t).next)
    (hfits : ∀ p, s.Occurs q p t → p.Fits v.state)
    (hidle : ∀ cpu, s.idle cpu = some t → v.state = .running) :
    (s.setThread t v).Placed q := by
  refine ⟨h.linked.setThread hv, ?_, ?_, ?_, h.registered⟩
  · intro p p' u hp hp'
    rw [occurs_setThread] at hp hp'
    exact h.unique p p' u hp hp'
  · intro p u hp
    rw [occurs_setThread] at hp
    obtain ⟨hmem, hfit⟩ := h.fits p u hp
    refine ⟨hmem, ?_⟩
    by_cases hu : u = t
    · subst hu
      simpa using hfits p hp
    · simpa [hu] using hfit
  · intro cpu u hu
    obtain ⟨hmem, hrunning, honly, hinj⟩ := h.idle cpu u hu
    refine ⟨hmem, ?_, fun p hp => honly p ((occurs_setThread v p u).mp hp), hinj⟩
    by_cases hut : u = t
    · subst hut
      simpa using hidle cpu hu
    · simpa [hut] using hrunning

/-! ### The ready queue -/

/-- Only the ready queue and the thread records differ. -/
structure SameSlots (s s' : Scheduler) : Prop where
  waitQueue : s'.waitQueue = s.waitQueue
  zombieList : s'.zombieList = s.zombieList
  detached : s'.detached = s.detached
  pendingPark : s'.pendingPark = s.pendingPark
  pendingZombie : s'.pendingZombie = s.pendingZombie
  current : s'.current = s.current
  idle : s'.idle = s.idle
  live : s'.live = s.live
  lock : s'.contextSwitchLock = s.contextSwitchLock

theorem SameSlots.trans {s'' : Scheduler} (h : s.SameSlots s') (h' : s'.SameSlots s'') :
    s.SameSlots s'' :=
  ⟨h'.waitQueue.trans h.waitQueue, h'.zombieList.trans h.zombieList,
    h'.detached.trans h.detached, h'.pendingPark.trans h.pendingPark,
    h'.pendingZombie.trans h.pendingZombie, h'.current.trans h.current,
    h'.idle.trans h.idle, h'.live.trans h.live, h'.lock.trans h.lock⟩

theorem SameSlots.occurs (h : s.SameSlots s') {p : Place} (hp : p ≠ .ready)
    (l : List ThreadPtr) :
    s'.Occurs { q with ready := l } p t ↔ s.Occurs q p t := by
  cases p with
  | ready => exact absurd rfl hp
  | waiting => rfl
  | park => simp only [Occurs, h.pendingPark]
  | pendingZombie => simp only [Occurs, h.pendingZombie]
  | zombies => rfl
  | detached => rfl
  | current => simp only [Occurs, h.current]

/-- An enqueue by the two cases of the tail. -/
theorem enqueueLocked_of_none (h : s.readyTail = none) :
    s.enqueueLocked t =
      ((s.setThread t { s.thread t with state := .ready, next := none }).logEntered
        t).setReadyQueue (some t) (some t) := by
  have htail : ((s.setThread t { s.thread t with state := .ready, next := none }).logEntered
      t).readyTail = none := h
  simp only [enqueueLocked, htail]

theorem enqueueLocked_of_some {b : ThreadPtr} (h : s.readyTail = some b) :
    s.enqueueLocked t =
      (((s.setThread t { s.thread t with state := .ready, next := none }).logEntered
        t).setNext b (some t)).setReadyQueue s.readyHead (some t) := by
  have htail : ((s.setThread t { s.thread t with state := .ready, next := none }).logEntered
      t).readyTail = some b := h
  simp only [enqueueLocked, htail]
  rfl

theorem enqueueLocked_sameSlots : s.SameSlots (s.enqueueLocked t) := by
  cases htail : s.readyTail with
  | none => rw [enqueueLocked_of_none htail]; constructor <;> rfl
  | some b => rw [enqueueLocked_of_some htail]; constructor <;> rfl

theorem dequeueLocked_sameSlots : s.SameSlots s.dequeueLocked.2 := by
  rw [dequeueLocked]
  cases s.readyHead <;> constructor <;> rfl

/-- An enqueue changes no record but that of its thread, links apart. -/
theorem unlinked_enqueueLocked :
    ((s.enqueueLocked t).thread u).unlinked =
      if u = t then { (s.thread t).unlinked with state := .ready } else
        (s.thread u).unlinked := by
  cases htail : s.readyTail with
  | none =>
      rw [enqueueLocked_of_none htail]
      change ((s.setThread t _).thread u).unlinked = _
      rw [thread_setThread, Function.update_apply]
      split_ifs <;> rfl
  | some b =>
      rw [enqueueLocked_of_some htail]
      change ((((s.setThread t _).logEntered t).setNext b (some t)).thread u).unlinked = _
      rw [unlinked_setNext]
      change ((s.setThread t _).thread u).unlinked = _
      rw [thread_setThread, Function.update_apply]
      split_ifs <;> rfl

theorem state_enqueueLocked :
    ((s.enqueueLocked t).thread u).state =
      if u = t then .ready else (s.thread u).state := by
  have h := congrArg Thread.state (unlinked_enqueueLocked (s := s) (t := t) (u := u))
  rw [apply_ite Thread.state] at h
  exact h

theorem Linked.enqueueLocked (h : s.Linked q) (ht : s.Nowhere q t)
    (hunique : ∀ b ∈ q.ready, ∀ p, s.Occurs q p b → p = .ready) :
    (s.enqueueLocked t).Linked { q with ready := q.ready ++ [t] } := by
  have hlinked := h.setNext ht { s.thread t with state := .ready, next := none }
  have hnext := next_setThread (s := s) (t := t)
    { s.thread t with state := .ready, next := none }
  have hfifo : s.entered ++ [t] = s.left ++ (q.ready ++ [t]) := by
    rw [h.fifo, List.append_assoc]
  rcases List.eq_nil_or_concat q.ready with hnil | ⟨l, b, hready⟩
  · have hnone : s.readyTail = none := by simp [h.tail, hnil]
    rw [enqueueLocked_of_none hnone]
    refine ⟨?_, by simp [setReadyQueue], hlinked.waiting, hlinked.zombies,
      hlinked.detached, hfifo⟩
    rw [hnil]
    exact ⟨rfl, (congrFun hnext t).trans (Function.update_self _ _ _)⟩
  · rw [List.concat_eq_append] at hready
    have hsome : s.readyTail = some b := by simp [h.tail, hready]
    have hb : b ∈ q.ready := by simp [hready]
    have hnext' : ((s.setThread t { s.thread t with state := .ready, next := none }).setNext b
        (some t)).next = Function.update (Function.update s.next t none) b (some t) := by
      rw [Scheduler.setNext, next_setThread, hnext]
    have hother : ∀ p, p ≠ .ready → ¬ s.Occurs q p b := fun p hp hocc => hp (hunique b hb p hocc)
    rw [enqueueLocked_of_some hsome]
    refine ⟨?_, by simp [setReadyQueue], fun wq => ?_, ?_, fun k => ?_, hfifo⟩
    · change IsList ((s.setThread t _).setNext b (some t)).next _ _
      rw [hnext', hready]
      apply IsList.append (hready ▸ h.ready)
      exact hready ▸ ht .ready
    · change IsList ((s.setThread t _).setNext b (some t)).next _ _
      rw [hnext', ← hnext]
      exact (hlinked.waiting wq).of_update (hother (.waiting wq) (by simp))
    · change IsList ((s.setThread t _).setNext b (some t)).next _ _
      rw [hnext', ← hnext]
      exact hlinked.zombies.of_update (hother .zombies (by simp))
    · change IsList ((s.setThread t _).setNext b (some t)).next _ _
      rw [hnext', ← hnext]
      exact (hlinked.detached k).of_update (hother (.detached k) (by simp))

theorem Placed.enqueueLocked (h : s.Placed q) (ht : s.Nowhere q t) (hlive : t ∈ s.live)
    (hidle : ∀ cpu, s.idle cpu ≠ some t) :
    (s.enqueueLocked t).Placed { q with ready := q.ready ++ [t] } := by
  have hslots := enqueueLocked_sameSlots (s := s) (t := t)
  have hlinked := h.linked.enqueueLocked ht fun b hb p hp => h.unique p .ready b hp hb
  refine h.move t (some .ready) hlinked ?_ ?_ ?_ ?_ hslots.idle ?_ ?_
  · intro p u hp
    by_cases hready : p = .ready
    · subst hready
      by_cases hu : u = t
      · simp [hu]
      · simpa [Occurs, hu] using hp
    · rw [hslots.occurs hready] at hp
      rw [if_neg]
      · exact hp
      · rintro rfl
        exact ht p hp
  · rintro p hp
    obtain rfl := Option.some.inj hp
    exact ⟨hslots.live ▸ hlive, by simp [state_enqueueLocked, Place.Fits]⟩
  · intro u hu
    rw [state_enqueueLocked, if_neg hu]
  · exact fun u _ hu => hslots.live ▸ hu
  · exact fun cpu hcpu => absurd hcpu (hidle cpu)
  · exact fun cpu hcpu => Or.inl (hslots.current ▸ hcpu)

theorem unlinked_dequeueLocked :
    (s.dequeueLocked.2.thread u).unlinked = (s.thread u).unlinked := by
  rw [dequeueLocked]
  cases s.readyHead with
  | none => rfl
  | some t => exact unlinked_setNext _

theorem Linked.dequeueLocked {l : List ThreadPtr} (h : s.Linked q) (hready : q.ready = t :: l)
    (hunique : ∀ p, s.Occurs q p t → p = .ready) :
    s.dequeueLocked.1 = some t ∧ s.dequeueLocked.2.Linked { q with ready := l } := by
  have hlist := hready ▸ h.ready
  have hnot := (List.nodup_cons.mp hlist.nodup).1
  obtain ⟨hhead, hrest⟩ := hlist
  have hother : ∀ p, p ≠ .ready → ¬ s.Occurs q p t := fun p hp hocc => hp (hunique p hocc)
  have hdequeue : s.dequeueLocked =
      (some t, ((s.setReadyQueue (s.next t) (if s.next t = none then none else s.readyTail)).setNext
        t none).logLeft t) := by
    simp only [Scheduler.dequeueLocked, hhead]
  have hnext : (((s.setReadyQueue (s.next t)
      (if s.next t = none then none else s.readyTail)).setNext t none).logLeft t).next =
        Function.update s.next t none :=
    next_setThread _
  rw [hdequeue]
  refine ⟨rfl, ?_, ?_, fun wq => ?_, ?_, fun k => ?_, ?_⟩
  · rw [hnext]
    exact hrest.of_update hnot
  · change (if s.next t = none then none else s.readyTail) = l.getLast?
    rw [hrest.head_eq, h.tail, hready]
    cases l <;> simp
  · rw [hnext]
    exact (h.waiting wq).of_update (hother (.waiting wq) (by simp))
  · rw [hnext]
    exact h.zombies.of_update (hother .zombies (by simp))
  · rw [hnext]
    exact (h.detached k).of_update (hother (.detached k) (by simp))
  · change s.entered = s.left ++ [t] ++ l
    rw [h.fifo, hready, List.append_assoc]
    rfl

/-- The front of the queue leaves it, and is nowhere then. -/
theorem Placed.dequeueLocked (h : s.Placed q) :
    (s.dequeueLocked = (none, s) ∧ q.ready = []) ∨
      ∃ t l, q.ready = t :: l ∧ s.dequeueLocked.1 = some t ∧
        s.dequeueLocked.2.Placed { q with ready := l } ∧
        s.dequeueLocked.2.Nowhere { q with ready := l } t := by
  have hslots := dequeueLocked_sameSlots (s := s)
  cases hq : q.ready with
  | nil =>
      left
      have hhead : s.readyHead = none := by simpa [hq] using h.linked.ready.head_eq
      exact ⟨by simp only [Scheduler.dequeueLocked, hhead], rfl⟩
  | cons t l =>
      right
      have hocc : s.Occurs q .ready t := by simp [Occurs, hq]
      have hunique : ∀ p, s.Occurs q p t → p = .ready := fun p hp => h.unique p .ready t hp hocc
      obtain ⟨hfst, hlinked⟩ := h.linked.dequeueLocked hq hunique
      have hnot : t ∉ l := by
        have hnodup := h.linked.ready.nodup
        rw [hq] at hnodup
        exact (List.nodup_cons.mp hnodup).1
      have hnowhere : s.dequeueLocked.2.Nowhere { q with ready := l } t := by
        intro p hp
        by_cases hready : p = .ready
        · subst hready
          exact hnot hp
        · rw [hslots.occurs hready] at hp
          exact hready (hunique p hp)
      have hstate : ∀ u, (s.dequeueLocked.2.thread u).state = (s.thread u).state :=
        fun u => Thread.state_eq_of_unlinked unlinked_dequeueLocked
      refine ⟨t, l, rfl, hfst, ?_, hnowhere⟩
      refine h.move t none hlinked ?_ ?_ (fun u _ => hstate u)
        (fun u _ hu => hslots.live ▸ hu) hslots.idle ?_
        (fun cpu hcpu => Or.inl (hslots.current ▸ hcpu))
      · intro p u hp
        rw [if_neg]
        · by_cases hready : p = .ready
          · subst hready
            simp only [Occurs] at hp ⊢
            rw [hq]
            exact List.mem_cons_of_mem _ hp
          · rwa [hslots.occurs hready] at hp
        · rintro rfl
          exact hnowhere p hp
      · simp
      · intro cpu hcpu
        exact absurd hcpu (h.not_idle hocc (by simp) cpu)

/-! ### Taking a thread out of its place and putting it somewhere -/

/-- Emptying the place `p` of `t`. -/
theorem Placed.take {p : Place} (h : s.Placed q) (s' : Scheduler) (ht : s.Occurs q p t)
    (hlinked : s'.Linked q') (hthread : s'.thread = s.thread) (hlive : s'.live = s.live)
    (hidle : s'.idle = s.idle)
    (hregistered : ∀ cpu, s'.current cpu ≠ none → s.current cpu ≠ none)
    (hoccurs : ∀ p' u, s'.Occurs q' p' u → s.Occurs q p' u ∧ p' ≠ p) :
    s'.Placed q' ∧ s'.Nowhere q' t := by
  have hnowhere : s'.Nowhere q' t := by
    intro p' hp'
    obtain ⟨hold, hne⟩ := hoccurs p' t hp'
    exact hne (h.unique p' p t hold ht)
  refine ⟨h.move t none hlinked ?_ (by simp) (fun u _ => by rw [hthread])
    (fun u _ hu => hlive ▸ hu) hidle ?_ (fun cpu hcpu => Or.inl (hregistered cpu hcpu)),
    hnowhere⟩
  · intro p' u hp'
    rw [if_neg]
    · exact (hoccurs p' u hp').1
    · rintro rfl
      exact hnowhere p' hp'
  · intro cpu hcpu
    obtain ⟨hmem, hrunning, -⟩ := h.idle cpu t hcpu
    exact ⟨hlive ▸ hmem, by rw [hthread]; exact hrunning, by simp⟩

/-- Putting `t`, which was nowhere, in the place `p`. -/
theorem Placed.put {p : Place} (h : s.Placed q) (ht : s.Nowhere q t) (hmem : t ∈ s.live)
    (hlinked : s'.Linked q') (hfits : p.Fits (s'.thread t).state)
    (hstate : ∀ u, (s'.thread u).state = (s.thread u).state) (hlive : s'.live = s.live)
    (hidle : s'.idle = s.idle) (hidleSelf : ∀ cpu, s.idle cpu = some t → p = .current cpu)
    (hregistered : ∀ cpu, s'.current cpu ≠ none → s.current cpu ≠ none ∨ s.idle cpu ≠ none)
    (hoccurs : ∀ p' u, s'.Occurs q' p' u → s.Occurs q p' u ∨ p' = p ∧ u = t) :
    s'.Placed q' := by
  refine h.move t (some p) hlinked ?_ ?_ (fun u _ => hstate u) (fun u _ hu => hlive ▸ hu)
    hidle ?_ hregistered
  · intro p' u hp'
    rcases hoccurs p' u hp' with hold | ⟨rfl, rfl⟩
    · rw [if_neg]
      · exact hold
      · rintro rfl
        exact ht p' hold
    · rw [if_pos rfl]
  · rintro p' hp'
    obtain rfl := Option.some.inj hp'
    exact ⟨hlive ▸ hmem, hfits⟩
  · intro cpu hcpu
    obtain ⟨-, hrunning, -⟩ := h.idle cpu t hcpu
    refine ⟨hlive ▸ hmem, (hstate t).trans hrunning, ?_⟩
    rintro p' hp'
    obtain rfl := Option.some.inj hp'
    exact hidleSelf cpu hcpu

theorem occurs_setPendingPark (v : Option ThreadPtr) (p : Place) :
    (s.setPendingPark cpu v).Occurs q p u ↔
      if p = .park cpu then v = some u else s.Occurs q p u := by
  cases p with
  | park c => by_cases hc : c = cpu <;> simp [Occurs, setPendingPark, hc]
  | _ => simp [Occurs, setPendingPark]

theorem occurs_setPendingZombie (v : Option ThreadPtr) (p : Place) :
    (s.setPendingZombie cpu v).Occurs q p u ↔
      if p = .pendingZombie cpu then v = some u else s.Occurs q p u := by
  cases p with
  | pendingZombie c => by_cases hc : c = cpu <;> simp [Occurs, setPendingZombie, hc]
  | _ => simp [Occurs, setPendingZombie]

theorem occurs_setCurrent (v : Option ThreadPtr) (p : Place) :
    (s.setCurrent cpu v).Occurs q p u ↔
      if p = .current cpu then v = some u else s.Occurs q p u := by
  cases p with
  | current c => by_cases hc : c = cpu <;> simp [Occurs, setCurrent, hc]
  | _ => simp [Occurs, setCurrent]

theorem Nowhere.setThread (h : s.Nowhere q t) (v : Thread) : (s.setThread u v).Nowhere q t :=
  fun p hp => h p ((occurs_setThread v p t).mp hp)

/-- What a critical section may do to the wait of a thread: at most end it. -/
def KeepsRecords (s s' : Scheduler) : Prop :=
  ∀ u, (s'.thread u).process = (s.thread u).process ∧
    (s'.thread u).waitSeq = (s.thread u).waitSeq ∧
    ((s'.thread u).waitingOn = (s.thread u).waitingOn ∨ (s'.thread u).waitingOn = none) ∧
    ((s'.thread u).state = .blocked → (s.thread u).state = .blocked)

theorem KeepsRecords.trans {s'' : Scheduler} (h : s.KeepsRecords s') (h' : s'.KeepsRecords s'') :
    s.KeepsRecords s'' := by
  intro u
  obtain ⟨hprocess, hseq, hon, hstate⟩ := h u
  obtain ⟨hprocess', hseq', hon', hstate'⟩ := h' u
  refine ⟨hprocess'.trans hprocess, hseq'.trans hseq, ?_, fun hblocked => hstate (hstate' hblocked)⟩
  rcases hon' with hon' | hon'
  · rw [hon']
    exact hon
  · exact Or.inr hon'

theorem keepsRecords_of_unlinked (h : ∀ u, (s'.thread u).unlinked = (s.thread u).unlinked) :
    s.KeepsRecords s' := by
  intro u
  have hprocess := congrArg Thread.process (h u)
  have hseq := congrArg Thread.waitSeq (h u)
  have hon := congrArg Thread.waitingOn (h u)
  have hstate := Thread.state_eq_of_unlinked (h u)
  exact ⟨hprocess, hseq, Or.inl hon, fun hblocked => hstate ▸ hblocked⟩

/-- A step of the critical section of `scheduler_schedule`: it keeps the
invariant, the current and idle threads, and every thread that is nowhere. -/
structure Settles (s : Scheduler) (q : Queues) (s' : Scheduler) (q' : Queues) : Prop where
  placed : s'.Placed q'
  current : s'.current = s.current
  idle : s'.idle = s.idle
  live : s'.live = s.live
  seq : ∀ wq, (s'.waitQueue wq).seq = (s.waitQueue wq).seq
  records : s.KeepsRecords s'
  nowhere : ∀ u, s.Nowhere q u →
    s'.Nowhere q' u ∧ (s'.thread u).unlinked = (s.thread u).unlinked

theorem Placed.settles_refl (h : s.Placed q) : s.Settles q s q :=
  ⟨h, rfl, rfl, rfl, fun _ => rfl, keepsRecords_of_unlinked fun _ => rfl,
    fun _ hu => ⟨hu, rfl⟩⟩

theorem Settles.trans {s'' : Scheduler} {q'' : Queues} (h : s.Settles q s' q')
    (h' : s'.Settles q' s'' q'') : s.Settles q s'' q'' := by
  refine ⟨h'.placed, h'.current.trans h.current, h'.idle.trans h.idle,
    h'.live.trans h.live, fun wq => (h'.seq wq).trans (h.seq wq),
    h.records.trans h'.records, fun u hu => ?_⟩
  obtain ⟨hu', hsame⟩ := h.nowhere u hu
  obtain ⟨hu'', hsame'⟩ := h'.nowhere u hu'
  exact ⟨hu'', hsame'.trans hsame⟩

theorem Nowhere.ne (hu : s.Nowhere q u) {p : Place} (ht : s.Occurs q p t) : u ≠ t := by
  rintro rfl
  exact hu p ht

theorem unlinked_setThread_of_ne (v : Thread) (hu : u ≠ t) :
    ((s.setThread t v).thread u).unlinked = (s.thread u).unlinked := by
  rw [thread_setThread, Function.update_of_ne hu]

theorem Nowhere.enqueueLocked (hu : s.Nowhere q u) (hne : u ≠ t) :
    (s.enqueueLocked t).Nowhere { q with ready := q.ready ++ [t] } u := by
  intro p hp
  by_cases hready : p = .ready
  · subst hready
    have hmem : u ∈ q.ready := by simpa [Occurs, hne] using hp
    exact hu .ready hmem
  · rw [enqueueLocked_sameSlots.occurs hready] at hp
    exact hu p hp

theorem wakeThread_sameSlots : s.SameSlots (s.wakeThread t) := by
  have hslots := enqueueLocked_sameSlots (s := s.clearWaitingOn t) (t := t)
  exact ⟨hslots.waitQueue, hslots.zombieList, hslots.detached, hslots.pendingPark,
    hslots.pendingZombie, hslots.current, hslots.idle, hslots.live, hslots.lock⟩

theorem unlinked_wakeThread :
    ((s.wakeThread t).thread u).unlinked =
      if u = t then { (s.thread t).unlinked with state := .ready, waitingOn := none } else
        (s.thread u).unlinked := by
  rw [wakeThread, unlinked_enqueueLocked, clearWaitingOn]
  split_ifs with hu
  · rw [thread_setThread, Function.update_self]
    rfl
  · exact unlinked_setThread_of_ne _ hu

theorem wakeThread_keepsRecords : s.KeepsRecords (s.wakeThread t) := by
  intro u
  have h := unlinked_wakeThread (s := s) (t := t) (u := u)
  have hprocess := congrArg Thread.process h
  have hseq := congrArg Thread.waitSeq h
  have hon := congrArg Thread.waitingOn h
  have hstate := congrArg Thread.state h
  by_cases hu : u = t
  · subst hu
    rw [if_pos rfl] at hprocess hseq hon hstate
    exact ⟨hprocess, hseq, Or.inr hon, fun hblocked => by cases hblocked.symm.trans hstate⟩
  · rw [if_neg hu] at hprocess hseq hon hstate
    exact ⟨hprocess, hseq, Or.inl hon, fun hblocked => hstate.symm.trans hblocked⟩

/-- Waking a thread that is held in the critical section. -/
theorem Placed.wakeThread (h : s.Placed q) (ht : s.Nowhere q t) (hlive : t ∈ s.live)
    (hidle : ∀ cpu, s.idle cpu ≠ some t) :
    (s.wakeThread t).Placed { q with ready := q.ready ++ [t] } := by
  have hcleared : (s.clearWaitingOn t).Placed q :=
    h.setThread rfl (fun p hp => absurd hp (ht p)) fun cpu hcpu => absurd hcpu (hidle cpu)
  exact hcleared.enqueueLocked (ht.setThread _) hlive hidle

theorem Nowhere.wakeThread (hu : s.Nowhere q u) (hne : u ≠ t) :
    (s.wakeThread t).Nowhere { q with ready := q.ready ++ [t] } u :=
  (hu.setThread _).enqueueLocked hne

/-- The two outcomes of parking a thread. -/
theorem parkThread_cases :
    s.parkThread t = s.wakeThread t ∨
      ∃ wq, (s.thread t).waitingOn = some wq ∧ (s.waitQueue wq).seq = (s.thread t).waitSeq ∧
        s.parkThread t = (s.setNext t (s.waitQueue wq).head).setWaitQueue wq
          { s.waitQueue wq with head := some t } := by
  rw [parkThread]
  cases hwaiting : (s.thread t).waitingOn with
  | none => exact Or.inl rfl
  | some wq =>
      dsimp only
      split_ifs with hseq
      · exact Or.inl rfl
      · exact Or.inr ⟨wq, rfl, not_not.mp hseq, rfl⟩

/-- Linking a thread into a wait queue. -/
theorem Placed.linkWaiting (h : s.Placed q) (ht : s.Nowhere q t) (hlive : t ∈ s.live)
    (hblocked : (s.thread t).state = .blocked) (hidle : ∀ cpu, s.idle cpu ≠ some t)
    (wq : Nat) :
    ((s.setNext t (s.waitQueue wq).head).setWaitQueue wq
        { s.waitQueue wq with head := some t }).Placed
      { q with waiting := Function.update q.waiting wq (t :: q.waiting wq) } := by
  have hlinked := h.linked.setNext ht { s.thread t with next := (s.waitQueue wq).head }
  have hstate : ∀ u, ((s.setNext t (s.waitQueue wq).head).thread u).state =
      (s.thread u).state := fun u => Thread.state_eq_of_unlinked (unlinked_setNext _)
  apply h.put (p := .waiting wq) ht hlive
  · refine ⟨hlinked.ready, hlinked.tail, fun w => ?_, hlinked.zombies, hlinked.detached,
      hlinked.fifo⟩
    by_cases hw : w = wq
    · subst hw
      simp only [setWaitQueue, Function.update_self]
      have hpush := (h.linked.waiting w).push (ht (.waiting w))
      rw [← next_setThread (s := s) (t := t) { s.thread t with next := (s.waitQueue w).head }]
        at hpush
      exact hpush
    · simp only [setWaitQueue, Function.update_of_ne hw]
      exact hlinked.waiting w
  · exact (hstate t).trans hblocked
  · exact hstate
  · rfl
  · rfl
  · exact fun cpu hcpu => absurd hcpu (hidle cpu)
  · exact fun cpu hcpu => Or.inl hcpu
  · intro p u hp
    cases p with
    | waiting w =>
        by_cases hw : w = wq
        · subst hw
          simp only [Occurs, Function.update_self, List.mem_cons] at hp
          exact hp.symm.imp_right fun hu => ⟨rfl, hu⟩
        · simp only [Occurs, Function.update_of_ne hw] at hp
          exact Or.inl hp
    | _ => exact Or.inl hp

theorem Nowhere.linkWaiting (hu : s.Nowhere q u) (hne : u ≠ t) (wq : Nat) :
    ((s.setNext t (s.waitQueue wq).head).setWaitQueue wq
        { s.waitQueue wq with head := some t }).Nowhere
      { q with waiting := Function.update q.waiting wq (t :: q.waiting wq) } u := by
  intro p hp
  cases p with
  | waiting w =>
      by_cases hw : w = wq
      · subst hw
        simp only [Occurs, Function.update_self, List.mem_cons, hne, false_or] at hp
        exact hu (.waiting w) hp
      · simp only [Occurs, Function.update_of_ne hw] at hp
        exact hu (.waiting w) hp
  | ready => exact hu .ready hp
  | park c => exact hu (.park c) hp
  | pendingZombie c => exact hu (.pendingZombie c) hp
  | zombies => exact hu .zombies hp
  | detached k => exact hu (.detached k) hp
  | current c => exact hu (.current c) hp

/-- The first part of the critical section: the thread parked on the processor
is in its wait queue, which was not woken since it blocked, or ready. -/
theorem Placed.unpark_settles (h : s.Placed q) (cpu : Nat) :
    ∃ q', s.Settles q (s.unpark cpu) q' ∧
      (s.unpark cpu).pendingPark = Function.update s.pendingPark cpu none ∧
      (s.unpark cpu).pendingZombie = s.pendingZombie ∧
      (∃ added, q'.ready = q.ready ++ added ∧ ∀ u ∈ added, s.pendingPark cpu = some u) ∧
      ∀ wq u, u ∈ q'.waiting wq → u ∈ q.waiting wq ∨
        (s.pendingPark cpu = some u ∧ (s.thread u).waitingOn = some wq ∧
          (s.waitQueue wq).seq = (s.thread u).waitSeq) := by
  cases hpark : s.pendingPark cpu with
  | none =>
      have hsame : s.unpark cpu = s := by simp only [unpark, hpark]
      rw [hsame]
      refine ⟨q, h.settles_refl, ?_, rfl, ⟨[], by simp⟩, fun wq u hu => Or.inl hu⟩
      rw [← hpark, Function.update_eq_self]
  | some t =>
      have hocc : s.Occurs q (.park cpu) t := hpark
      obtain ⟨hmem, hblocked⟩ := h.fits _ _ hocc
      have hnotIdle := h.not_idle hocc (by simp)
      obtain ⟨htaken, hnowhere⟩ := h.take (s.setPendingPark cpu none) hocc
        ⟨h.linked.ready, h.linked.tail, h.linked.waiting, h.linked.zombies,
          h.linked.detached, h.linked.fifo⟩ rfl rfl rfl (fun _ hcpu => hcpu)
        (fun p u hp => by
          rw [occurs_setPendingPark] at hp
          split_ifs at hp with hpark
          exact ⟨hp, hpark⟩)
      have hunpark : s.unpark cpu = (s.setPendingPark cpu none).parkThread t := by
        simp only [unpark, hpark]
      have hkeep : ∀ u, s.Nowhere q u → (s.setPendingPark cpu none).Nowhere q u := by
        intro u hu p hp
        rw [occurs_setPendingPark] at hp
        split_ifs at hp
        exact hu p hp
      rw [hunpark]
      rcases parkThread_cases (s := s.setPendingPark cpu none) (t := t) with
        hwake | ⟨wq, hon, hseq, hlink⟩
      · have hslots := wakeThread_sameSlots (s := s.setPendingPark cpu none) (t := t)
        rw [hwake]
        refine ⟨_, ⟨htaken.wakeThread hnowhere hmem hnotIdle, hslots.current, hslots.idle,
          hslots.live, fun wq => by rw [hslots.waitQueue]; rfl, wakeThread_keepsRecords,
          fun u hu => ⟨(hkeep u hu).wakeThread (hu.ne hocc), ?_⟩⟩, hslots.pendingPark,
          hslots.pendingZombie, ⟨[t], rfl, by simp⟩, fun wq u hu => Or.inl hu⟩
        rw [unlinked_wakeThread, if_neg (hu.ne hocc)]
        rfl
      · rw [hlink]
        have hunlinked : ∀ u, ((((s.setPendingPark cpu none).setNext t
            ((s.setPendingPark cpu none).waitQueue wq).head).setWaitQueue wq
              { (s.setPendingPark cpu none).waitQueue wq with head := some t }).thread
                u).unlinked = (s.thread u).unlinked :=
          fun u => unlinked_setNext (s := s.setPendingPark cpu none) _
        refine ⟨_, ⟨htaken.linkWaiting hnowhere hmem hblocked hnotIdle wq, rfl, rfl, rfl,
          fun w => ?_, keepsRecords_of_unlinked hunlinked, fun u hu => ⟨?_, hunlinked u⟩⟩,
          rfl, rfl, ⟨[], by simp⟩, fun w u hu => ?_⟩
        · by_cases hw : w = wq
          · subst hw
            simp [setWaitQueue, setPendingPark]
          · simp [setWaitQueue, setPendingPark, setNext, Scheduler.setThread, hw]
        · exact (hkeep u hu).linkWaiting (hu.ne hocc) wq
        · by_cases hw : w = wq
          · subst hw
            simp only [Function.update_self, List.mem_cons] at hu
            rcases hu with rfl | hu
            · exact Or.inr ⟨rfl, hon, hseq⟩
            · exact Or.inl hu
          · simp only [Function.update_of_ne hw] at hu
            exact Or.inl hu

/-- The second part: the zombie left behind is in the zombie list. -/
theorem Placed.buryZombie_settles (h : s.Placed q) (cpu : Nat) :
    ∃ q', s.Settles q (s.buryZombie cpu) q' ∧
      (s.buryZombie cpu).pendingZombie = Function.update s.pendingZombie cpu none ∧
      (s.buryZombie cpu).pendingPark = s.pendingPark ∧ q'.ready = q.ready ∧
      q'.waiting = q.waiting := by
  cases hzombie : s.pendingZombie cpu with
  | none =>
      have hsame : s.buryZombie cpu = s := by simp only [buryZombie, hzombie]
      rw [hsame]
      refine ⟨q, h.settles_refl, ?_, rfl, rfl, rfl⟩
      rw [← hzombie, Function.update_eq_self]
  | some t =>
      have hocc : s.Occurs q (.pendingZombie cpu) t := hzombie
      obtain ⟨hmem, hterminated⟩ := h.fits _ _ hocc
      have hnotIdle := h.not_idle hocc (by simp)
      obtain ⟨htaken, hnowhere⟩ := h.take (s.setPendingZombie cpu none) hocc
        ⟨h.linked.ready, h.linked.tail, h.linked.waiting, h.linked.zombies,
          h.linked.detached, h.linked.fifo⟩ rfl rfl rfl (fun _ hcpu => hcpu)
        (fun p u hp => by
          rw [occurs_setPendingZombie] at hp
          split_ifs at hp with hzombie
          exact ⟨hp, hzombie⟩)
      have hbury : s.buryZombie cpu =
          ((s.setPendingZombie cpu none).setNext t s.zombieList).setZombieList (some t) := by
        simp only [buryZombie, hzombie]
        rfl
      have hlinked := htaken.linked.setNext hnowhere { s.thread t with next := s.zombieList }
      have hstate : ∀ u, ((((s.setPendingZombie cpu none).setNext t s.zombieList).setZombieList
          (some t)).thread u).unlinked = (s.thread u).unlinked :=
        fun u => unlinked_setNext (s := s.setPendingZombie cpu none) _
      rw [hbury]
      refine ⟨{ q with zombies := t :: q.zombies }, ⟨?_, rfl, rfl, rfl, fun _ => rfl,
        keepsRecords_of_unlinked hstate, ?_⟩, rfl, rfl, rfl, rfl⟩
      · apply htaken.put (p := .zombies) hnowhere hmem
        · refine ⟨hlinked.ready, hlinked.tail, hlinked.waiting, ?_, hlinked.detached,
            hlinked.fifo⟩
          have hpush := h.linked.zombies.push (hnowhere .zombies)
          rw [← next_setThread (s := s) (t := t) { s.thread t with next := s.zombieList }]
            at hpush
          exact hpush
        · exact (Thread.state_eq_of_unlinked (hstate t)).trans hterminated
        · exact fun u => Thread.state_eq_of_unlinked (hstate u)
        · rfl
        · rfl
        · exact fun c hc => absurd hc (hnotIdle c)
        · exact fun c hc => Or.inl hc
        · intro p u hp
          cases p with
          | zombies =>
              rcases List.mem_cons.mp hp with rfl | hmem
              · exact Or.inr ⟨rfl, rfl⟩
              · exact Or.inl hmem
          | _ => exact Or.inl hp
      · refine fun u hu => ⟨fun p hp => ?_, hstate u⟩
        cases p with
        | zombies =>
            rcases List.mem_cons.mp hp with rfl | hmem
            · exact hu _ hocc
            · exact hu .zombies hmem
        | pendingZombie c =>
            have hpending := (occurs_setPendingZombie (s := s) (q := q) none
              (.pendingZombie c)).mp hp
            split_ifs at hpending
            exact hu _ hpending
        | ready => exact hu .ready hp
        | waiting w => exact hu (.waiting w) hp
        | park c => exact hu (.park c) hp
        | detached k => exact hu (.detached k) hp
        | current c => exact hu (.current c) hp

/-! ### The critical section of `scheduler_schedule` -/

/-- The critical section does not look at the current threads. -/
theorem setCurrent_enqueueLocked (v : Option ThreadPtr) :
    (s.setCurrent cpu v).enqueueLocked t = (s.enqueueLocked t).setCurrent cpu v := by
  cases htail : s.readyTail with
  | none => rw [enqueueLocked_of_none htail, enqueueLocked_of_none (s := s.setCurrent cpu v) htail]; rfl
  | some b => rw [enqueueLocked_of_some htail, enqueueLocked_of_some (s := s.setCurrent cpu v) htail]; rfl

theorem setCurrent_parkThread (v : Option ThreadPtr) :
    (s.setCurrent cpu v).parkThread t = (s.parkThread t).setCurrent cpu v := by
  have hwake : (s.setCurrent cpu v).wakeThread t = (s.wakeThread t).setCurrent cpu v :=
    setCurrent_enqueueLocked (s := s.clearWaitingOn t) v
  have hthread : (s.setCurrent cpu v).thread = s.thread := rfl
  have hqueue : (s.setCurrent cpu v).waitQueue = s.waitQueue := rfl
  rw [parkThread, parkThread, hwake, hthread, hqueue]
  cases (s.thread t).waitingOn with
  | none => rfl
  | some wq =>
      dsimp only
      split_ifs <;> rfl

theorem setCurrent_unpark (v : Option ThreadPtr) :
    (s.setCurrent cpu v).unpark cpu = (s.unpark cpu).setCurrent cpu v := by
  have hpark : (s.setCurrent cpu v).pendingPark = s.pendingPark := rfl
  rw [unpark, unpark, hpark]
  cases s.pendingPark cpu with
  | none => rfl
  | some t => exact setCurrent_parkThread (s := s.setPendingPark cpu none) v

theorem setCurrent_buryZombie (v : Option ThreadPtr) :
    (s.setCurrent cpu v).buryZombie cpu = (s.buryZombie cpu).setCurrent cpu v := by
  have hzombie : (s.setCurrent cpu v).pendingZombie = s.pendingZombie := rfl
  rw [buryZombie, buryZombie, hzombie]
  cases s.pendingZombie cpu <;> rfl

theorem setCurrent_requeue (v : Option ThreadPtr) (curr : ThreadPtr) :
    (s.setCurrent cpu v).requeue cpu curr = (s.requeue cpu curr).setCurrent cpu v := by
  have hstate : ((s.setCurrent cpu v).thread curr).state = (s.thread curr).state := rfl
  have hidle : (s.setCurrent cpu v).idle = s.idle := rfl
  rw [requeue, requeue, setCurrent_enqueueLocked, hstate, hidle]
  split_ifs <;> rfl

theorem setCurrent_dequeueLocked (v : Option ThreadPtr) :
    (s.setCurrent cpu v).dequeueLocked =
      (s.dequeueLocked.1, s.dequeueLocked.2.setCurrent cpu v) := by
  have hhead : (s.setCurrent cpu v).readyHead = s.readyHead := rfl
  rw [dequeueLocked, dequeueLocked, hhead]
  cases s.readyHead <;> rfl

theorem giveUp_of_blocked {curr : ThreadPtr} (h : (s.thread curr).state = .blocked) :
    s.giveUp cpu curr = s.setPendingPark cpu (some curr) := by
  have hnot : ¬ (((s.setPendingPark cpu (some curr)).thread curr).state = .terminated ∧
      some curr ≠ (s.setPendingPark cpu (some curr)).idle cpu) := by
    change ¬ ((s.thread curr).state = .terminated ∧ _)
    simp [h]
  simp only [giveUp, if_pos h, if_neg hnot]

theorem giveUp_of_terminated {curr : ThreadPtr} (h : (s.thread curr).state = .terminated)
    (hidle : some curr ≠ s.idle cpu) :
    s.giveUp cpu curr = s.setPendingZombie cpu (some curr) := by
  have hnot : ¬ (s.thread curr).state = .blocked := by simp [h]
  simp only [giveUp, if_neg hnot, if_pos (And.intro h hidle)]

theorem giveUp_of_other {curr : ThreadPtr} (h : (s.thread curr).state ≠ .blocked)
    (h' : ¬ ((s.thread curr).state = .terminated ∧ some curr ≠ s.idle cpu)) :
    s.giveUp cpu curr = s := by
  simp only [giveUp, if_neg h, if_neg h']

/-- The three cases of `giveUp`. -/
theorem giveUp_cases (s : Scheduler) (cpu : Nat) (curr : ThreadPtr) :
    (s.thread curr).state = .blocked ∨
      ((s.thread curr).state = .terminated ∧ some curr ≠ s.idle cpu) ∨
      ((s.thread curr).state ≠ .blocked ∧
        ¬ ((s.thread curr).state = .terminated ∧ some curr ≠ s.idle cpu)) := by
  by_cases hblocked : (s.thread curr).state = .blocked
  · exact Or.inl hblocked
  · by_cases hother : (s.thread curr).state = .terminated ∧ some curr ≠ s.idle cpu
    · exact Or.inr (Or.inl hother)
    · exact Or.inr (Or.inr ⟨hblocked, hother⟩)

theorem setCurrent_giveUp (v : Option ThreadPtr) (curr : ThreadPtr) :
    (s.setCurrent cpu v).giveUp cpu curr = (s.giveUp cpu curr).setCurrent cpu v := by
  rcases s.giveUp_cases cpu curr with h | ⟨h, hidle⟩ | ⟨h, h'⟩
  · rw [giveUp_of_blocked h, giveUp_of_blocked (s := s.setCurrent cpu v) h]
    rfl
  · rw [giveUp_of_terminated h hidle, giveUp_of_terminated (s := s.setCurrent cpu v) h hidle]
    rfl
  · rw [giveUp_of_other h h', giveUp_of_other (s := s.setCurrent cpu v) h h']

theorem setCurrent_switchTo (v : Option ThreadPtr) {curr u : ThreadPtr} (hne : u ≠ curr) :
    (s.setCurrent cpu v).switchTo cpu curr u = s.switchTo cpu curr u := by
  rw [switchTo, switchTo, if_neg hne, if_neg hne, setCurrent_giveUp]
  simp only [setCurrent, setState, Scheduler.setThread, Function.update_idem]

/-- Setting the outgoing thread aside. -/
theorem Placed.giveUp {curr : ThreadPtr} (h : s.Placed q) (hnowhere : s.Nowhere q curr)
    (hmem : curr ∈ s.live) : (s.giveUp cpu curr).Placed q := by
  have hrunning : ∀ c, s.idle c = some curr → (s.thread curr).state = .running :=
    fun c hc => (h.idle c curr hc).2.1
  rcases s.giveUp_cases cpu curr with hstate | ⟨hstate, hne⟩ | ⟨hstate, hne⟩
  · rw [giveUp_of_blocked hstate]
    apply h.put (p := .park cpu) hnowhere hmem
    · exact ⟨h.linked.ready, h.linked.tail, h.linked.waiting, h.linked.zombies,
        h.linked.detached, h.linked.fifo⟩
    · exact hstate
    · exact fun u => rfl
    · rfl
    · rfl
    · intro c hc
      rw [hrunning c hc] at hstate
      cases hstate
    · exact fun c hc => Or.inl hc
    · intro p u hp
      rw [occurs_setPendingPark] at hp
      split_ifs at hp with hplace
      · exact Or.inr ⟨hplace, (Option.some.inj hp).symm⟩
      · exact Or.inl hp
  · rw [giveUp_of_terminated hstate hne]
    apply h.put (p := .pendingZombie cpu) hnowhere hmem
    · exact ⟨h.linked.ready, h.linked.tail, h.linked.waiting, h.linked.zombies,
        h.linked.detached, h.linked.fifo⟩
    · exact hstate
    · exact fun u => rfl
    · rfl
    · rfl
    · intro c hc
      rw [hrunning c hc] at hstate
      cases hstate
    · exact fun c hc => Or.inl hc
    · intro p u hp
      rw [occurs_setPendingZombie] at hp
      split_ifs at hp with hplace
      · exact Or.inr ⟨hplace, (Option.some.inj hp).symm⟩
      · exact Or.inl hp
  · rw [giveUp_of_other hstate hne]
    exact h

/-- What `giveUp` leaves as it is. -/
theorem giveUp_frame (s : Scheduler) (cpu : Nat) (curr : ThreadPtr) :
    (s.giveUp cpu curr).thread = s.thread ∧ (s.giveUp cpu curr).idle = s.idle ∧
      (s.giveUp cpu curr).live = s.live ∧ (s.giveUp cpu curr).current = s.current ∧
      ∀ u, u ≠ curr → s.Nowhere q u → (s.giveUp cpu curr).Nowhere q u := by
  rcases s.giveUp_cases cpu curr with h | ⟨h, hidle⟩ | ⟨h, h'⟩
  · rw [giveUp_of_blocked h]
    refine ⟨rfl, rfl, rfl, rfl, fun u hne hu p hp => ?_⟩
    rw [occurs_setPendingPark] at hp
    split_ifs at hp
    · exact hne (Option.some.inj hp).symm
    · exact hu p hp
  · rw [giveUp_of_terminated h hidle]
    refine ⟨rfl, rfl, rfl, rfl, fun u hne hu p hp => ?_⟩
    rw [occurs_setPendingZombie] at hp
    split_ifs at hp
    · exact hne (Option.some.inj hp).symm
    · exact hu p hp
  · rw [giveUp_of_other h h']
    exact ⟨rfl, rfl, rfl, rfl, fun u _ hu => hu⟩

/-- Making a thread that is nowhere the current one. -/
theorem Placed.makeCurrent (h : s.Placed q) (hu : s.Nowhere q u) (hmem : u ∈ s.live)
    (hidle : ∀ c, s.idle c = some u → c = cpu) (hregistered : s.idle cpu ≠ none)
    {v : Thread} (hv : v.next = (s.thread u).next) (hrunning : v.state = .running) :
    ((s.setThread u v).setCurrent cpu (some u)).Placed q := by
  have hset : (s.setThread u v).Placed q :=
    h.setThread hv (fun p hp => absurd hp (hu p)) fun _ _ => hrunning
  apply hset.put (p := .current cpu) (hu.setThread v) hmem
  · exact ⟨hset.linked.ready, hset.linked.tail, hset.linked.waiting, hset.linked.zombies,
      hset.linked.detached, hset.linked.fifo⟩
  · left
    change (Function.update s.thread u v u).state = .running
    rw [Function.update_self, hrunning]
  · exact fun u => rfl
  · rfl
  · rfl
  · intro c hc
    rw [hidle c hc]
  · intro c hc
    by_cases hcpu : c = cpu
    · subst hcpu
      exact Or.inr hregistered
    · left
      simpa [setCurrent, hcpu] using hc
  · intro p w hp
    rw [occurs_setCurrent] at hp
    split_ifs at hp with hplace
    · exact Or.inr ⟨hplace, (Option.some.inj hp).symm⟩
    · exact Or.inl hp

end Scheduler

end Utopia
