/-
The process tree: pids are distinct, parents are listed and run, and every
critical section of `exec/process.c` keeps it so.
-/
import Utopia.Exec.ProcessLoops

namespace Utopia

namespace ProcessTable

variable {s s' : ProcessTable} {l l' : List ProcessPtr} {p q r proc parent : ProcessPtr}

/-- An object in the list `l`, or one that will be. -/
def Known (s : ProcessTable) (l : List ProcessPtr) (p : ProcessPtr) : Prop :=
  p ∈ l ∨ p ∈ s.building

/-- The process tree over the list `l`.  Parents are older than their children,
and run. -/
structure Tree (s : ProcessTable) (l : List ProcessPtr) : Prop where
  list : IsList s.links.next s.links.head l
  disjoint : ∀ p ∈ l, p ∉ s.building
  nodup : s.building.Nodup
  live : ∀ p, p ∈ s.live ↔ s.Known l p
  queues : ∀ p q, s.Known l p → s.Known l q → s.childWq p = s.childWq q → p = q
  pid : ∀ p, s.Known l p → s.pid p = BitVec.ofNat 32 (s.childWq p)
  born : ∀ p, s.Known l p → 0 < s.childWq p ∧ s.childWq p ≤ s.created
  nextPid : s.nextPid = BitVec.ofNat 32 (s.created + 1)
  bound : s.created < 2 ^ 32 - 1
  building : ∀ p ∈ s.building, s.zombie p = false
  parent : ∀ p, s.Known l p → s.ppid p = 0 ∨
    ∃ r ∈ l, s.pid r = s.ppid p ∧ s.zombie r = false ∧ s.childWq r < s.childWq p

/-- Zombies have a parent. -/
def NoOrphans (s : ProcessTable) (l : List ProcessPtr) : Prop :=
  ∀ p ∈ l, s.zombie p = true → s.ppid p ≠ 0

def NoChildren (s : ProcessTable) (l : List ProcessPtr) (proc : ProcessPtr) : Prop :=
  ∀ p, s.Known l p → s.ppid p ≠ s.pid proc

/-- `process_terminate` before it looks for the parent of `proc`. -/
structure HandedOn (s : ProcessTable) (l : List ProcessPtr) (proc : ProcessPtr)
    (s' : ProcessTable) (l' orphans : List ProcessPtr) (wake : Option ℕ) : Prop where
  tree : s'.Tree l'
  noOrphans : s'.NoOrphans l'
  noChildren : s'.NoChildren l' proc
  pid : s'.pid = s.pid
  zombie : s'.zombie = s.zombie
  exitStatus : s'.exitStatus = s.exitStatus
  childWq : s'.childWq = s.childWq
  building : s'.building = s.building
  created : s'.created = s.created
  ended : s'.ended = s.ended
  mem : ∀ p, p ∈ l' ↔ p ∈ l ∧ p ∉ orphans
  memOrphans : ∀ p, p ∈ orphans ↔ p ∈ l ∧ s.IsChild proc p ∧ s.zombie p = true ∧
    ∀ r ∈ l, ¬ s.IsInit proc r
  nodup : orphans.Nodup
  freed : s'.freed = s.freed ++ orphans.map fun p => (s.pid p, .orphaned)
  ppid_self : s'.ppid proc = s.ppid proc
  wake : ∀ p ∈ l', s.zombie p = true → ∀ r ∈ l', s'.ppid p = s.pid r →
    s.ppid p = s.pid r ∨ wake = some (s.childWq r)

/-! ### Changing one record -/

section SetProcess

variable {v : Process}

theorem process_setProcess_of_ne (hp : p ≠ proc) :
    (s.setProcess proc v).process p = s.process p :=
  Function.update_of_ne hp _ _

theorem process_setProcess_self : (s.setProcess proc v).process proc = v :=
  Function.update_self _ _ _

theorem field_setProcess {β : Type*} (f : Process → β) (h : f v = f (s.process proc))
    (p : ProcessPtr) : f ((s.setProcess proc v).process p) = f (s.process p) := by
  rcases eq_or_ne p proc with rfl | hp
  · rw [process_setProcess_self, h]
  · rw [process_setProcess_of_ne hp]

theorem pid_setProcess (h : v.pid = s.pid proc) : (s.setProcess proc v).pid = s.pid :=
  funext (field_setProcess Process.pid h)

theorem ppid_setProcess (h : v.ppid = s.ppid proc) : (s.setProcess proc v).ppid = s.ppid :=
  funext (field_setProcess Process.ppid h)

theorem zombie_setProcess (h : v.zombie = s.zombie proc) :
    (s.setProcess proc v).zombie = s.zombie :=
  funext (field_setProcess Process.zombie h)

theorem exitStatus_setProcess (h : v.exitStatus = s.exitStatus proc) :
    (s.setProcess proc v).exitStatus = s.exitStatus :=
  funext (field_setProcess Process.exitStatus h)

theorem childWq_setProcess (h : v.childWq = s.childWq proc) :
    (s.setProcess proc v).childWq = s.childWq :=
  funext (field_setProcess Process.childWq h)

end SetProcess

section TakePid

variable {c : Option ProcessPtr}

theorem process_takePid_of_ne (hq : q ≠ p) : (s.takePid p c).process q = s.process q :=
  Function.update_of_ne hq _ _

theorem process_takePid_self :
    (s.takePid p c).process p =
      ⟨s.nextPid, (c.map s.pid).getD 0, false, 0, s.created + 1⟩ :=
  Function.update_self _ _ _

end TakePid

theorem NoOrphans.setExitStatus (h : s.NoOrphans l) (proc : ProcessPtr) (status : BitVec 32) :
    (s.setExitStatus proc status).NoOrphans l := by
  intro p hp hz
  have hzombie : (s.setExitStatus proc status).zombie = s.zombie := zombie_setProcess rfl
  have hppid : (s.setExitStatus proc status).ppid = s.ppid := ppid_setProcess rfl
  rw [hzombie] at hz
  rw [hppid]
  exact h p hp hz

namespace Tree

theorem pid_toNat (h : s.Tree l) (hp : s.Known l p) : (s.pid p).toNat = s.childWq p := by
  have hborn := h.born p hp
  have hbound := h.bound
  rw [h.pid p hp, BitVec.toNat_ofNat, Nat.mod_eq_of_lt (by omega)]

theorem pid_inj (h : s.Tree l) (hp : s.Known l p) (hq : s.Known l q)
    (hpid : s.pid p = s.pid q) : p = q := by
  apply h.queues p q hp hq
  rw [← h.pid_toNat hp, ← h.pid_toNat hq, hpid]

theorem pid_ne_zero (h : s.Tree l) (hp : s.Known l p) : s.pid p ≠ 0 := by
  intro hzero
  have hborn := (h.born p hp).1
  rw [← h.pid_toNat hp, hzero] at hborn
  simp at hborn

/-- A pid that was handed out is neither 0 nor -1. -/
theorem pid_ne_neg_one (h : s.Tree l) (hp : s.Known l p) : s.pid p ≠ -1 := by
  intro hneg
  have hborn := (h.born p hp).2
  have hbound := h.bound
  rw [← h.pid_toNat hp, hneg, show (-1 : BitVec 32).toNat = 2 ^ 32 - 1 from rfl] at hborn
  omega

theorem nextPid_toNat (h : s.Tree l) : s.nextPid.toNat = s.created + 1 := by
  have hbound := h.bound
  rw [h.nextPid, BitVec.toNat_ofNat, Nat.mod_eq_of_lt (by omega)]

theorem ppid_ne_pid (h : s.Tree l) (hp : s.Known l p) : s.ppid p ≠ s.pid p := by
  intro hself
  rcases h.parent p hp with hzero | ⟨r, hr, hpid, -, hlt⟩
  · exact h.pid_ne_zero hp (hself ▸ hzero)
  · obtain rfl := h.pid_inj (Or.inl hr) hp (hpid.trans hself)
    exact Nat.lt_irrefl _ hlt

theorem runs_iff (h : s.Tree l) : s.Runs p ↔ p ∈ l ∧ s.zombie p = false := by
  rw [Runs]
  refine and_congr_left fun _ => ⟨?_, fun hp => ?_⟩
  · rintro ⟨n, hn⟩
    rw [h.list.nthNode_eq] at hn
    exact List.mem_of_getElem? hn
  · obtain ⟨n, hn⟩ := List.mem_iff_getElem?.mp hp
    exact ⟨n, by rw [h.list.nthNode_eq, hn]⟩

/-- Objects go that are nobody's parent. -/
theorem restrict (h : s.Tree l) (s' : ProcessTable) (hlist : IsList s'.links.next s'.links.head l')
    (hprocess : s'.process = s.process) (hcreated : s'.created = s.created)
    (hnextPid : s'.nextPid = s.nextPid) (hl : ∀ p ∈ l', p ∈ l)
    (hbuilding : ∀ p ∈ s'.building, p ∈ s.building) (hnodup : s'.building.Nodup)
    (hlive : ∀ p, p ∈ s'.live ↔ s'.Known l' p)
    (hparent : ∀ p, s'.Known l' p → ∀ r ∈ l, s.pid r = s.ppid p → s.zombie r = false →
      r ∈ l') : s'.Tree l' := by
  have hknown : ∀ p, s'.Known l' p → s.Known l p := fun p hp =>
    hp.imp (hl p) (hbuilding p)
  refine ⟨hlist, fun p hp hb => h.disjoint p (hl p hp) (hbuilding p hb), hnodup, hlive, ?_, ?_,
    ?_, ?_, ?_, ?_, ?_⟩
  · intro p q hp hq
    simp only [childWq, hprocess]
    exact h.queues p q (hknown p hp) (hknown q hq)
  · intro p hp
    simp only [ProcessTable.pid, childWq, hprocess]
    exact h.pid p (hknown p hp)
  · intro p hp
    simp only [childWq, hprocess, hcreated]
    exact h.born p (hknown p hp)
  · rw [hnextPid, hcreated]
    exact h.nextPid
  · rw [hcreated]
    exact h.bound
  · intro p hp
    simp only [zombie, hprocess]
    exact h.building p (hbuilding p hp)
  · intro p hp
    simp only [ppid, ProcessTable.pid, zombie, childWq, hprocess]
    rcases h.parent p (hknown p hp) with hzero | ⟨r, hr, hpid, hrun, hlt⟩
    · exact Or.inl hzero
    · exact Or.inr ⟨r, hparent p hp r hr hpid hrun, hpid, hrun, hlt⟩

/-! ### Creation -/

theorem notKnown_of_not_live (h : s.Tree l) (hp : p ∉ s.live) : ¬ s.Known l p :=
  fun hknown => hp ((h.live p).mpr hknown)

theorem takePid (h : s.Tree l) (hp : p ∉ s.live) (parent : Option ProcessPtr)
    (hparent : ∀ r, parent = some r → r ∈ l ∧ s.zombie r = false)
    (hbound : s.created + 1 < 2 ^ 32 - 1) : (s.takePid p parent).Tree l := by
  have hnot := h.notKnown_of_not_live hp
  have hother : ∀ q, q ≠ p → (s.takePid p parent).process q = s.process q :=
    fun q hq => process_takePid_of_ne hq
  have hself := process_takePid_self (s := s) (p := p) (c := parent)
  have hknown : ∀ q, (s.takePid p parent).Known l q → q = p ∨ q ≠ p ∧ s.Known l q := by
    intro q hq
    rcases eq_or_ne q p with rfl | hne
    · exact Or.inl rfl
    · refine Or.inr ⟨hne, hq.imp id fun hb => ?_⟩
      exact (List.mem_cons.mp hb).resolve_left hne
  have hlist : ∀ q ∈ l, q ≠ p := by
    rintro q hq rfl
    exact hnot (Or.inl hq)
  have hparents : ∀ r ∈ l, s.zombie r = false → (s.takePid p parent).pid r = s.pid r ∧
      (s.takePid p parent).zombie r = false ∧ (s.takePid p parent).childWq r = s.childWq r := by
    intro r hr hrun
    simp only [ProcessTable.pid, zombie, childWq, hother r (hlist r hr), true_and, and_true]
    exact hrun
  refine ⟨h.list, fun q hq hb => ?_, ?_, fun q => ?_, fun q q' hq hq' => ?_, fun q hq => ?_,
    fun q hq => ?_, ?_, hbound, fun q hq => ?_, fun q hq => ?_⟩
  · exact h.disjoint q hq ((List.mem_cons.mp hb).resolve_left (hlist q hq))
  · exact List.nodup_cons.mpr ⟨fun hb => hnot (Or.inr hb), h.nodup⟩
  · have hlive : q ∈ (s.takePid p parent).live ↔ q = p ∨ q ∈ s.live := Set.mem_insert_iff
    have hbuild : q ∈ (s.takePid p parent).building ↔ q = p ∨ q ∈ s.building := List.mem_cons
    rw [hlive, h.live, Known, Known, hbuild]
    tauto
  · rcases hknown q hq with rfl | ⟨hne, hqOld⟩ <;> rcases hknown q' hq' with hq' | ⟨hne', hq'⟩
    · exact fun _ => hq'.symm
    · simp only [childWq, hself, hother q' hne']
      intro hwq
      have hborn := (h.born q' hq').2
      simp only [childWq] at hborn
      omega
    · subst hq'
      simp only [childWq, hself, hother q hne]
      intro hwq
      have hborn := (h.born q hqOld).2
      simp only [childWq] at hborn
      omega
    · simp only [childWq, hother q hne, hother q' hne']
      exact h.queues q q' hqOld hq'
  · rcases hknown q hq with rfl | ⟨hne, hq⟩
    · simp only [ProcessTable.pid, childWq, hself]
      exact h.nextPid
    · simp only [ProcessTable.pid, childWq, hother q hne]
      exact h.pid q hq
  · rcases hknown q hq with rfl | ⟨hne, hq⟩
    · simp only [childWq, hself]
      exact ⟨Nat.succ_pos _, Nat.le_refl _⟩
    · simp only [childWq, hother q hne]
      exact ⟨(h.born q hq).1, Nat.le_succ_of_le (h.born q hq).2⟩
  · change s.nextPid + 1 = BitVec.ofNat 32 (s.created + 1 + 1)
    rw [h.nextPid]
    exact (BitVec.ofNat_add _ _).symm
  · rcases List.mem_cons.mp hq with rfl | hq
    · simp only [zombie, hself]
    · have hne : q ≠ p := fun heq => hnot (Or.inr (heq ▸ hq))
      simp only [zombie, hother q hne]
      exact h.building q hq
  · rcases hknown q hq with rfl | ⟨hne, hq⟩
    · cases parent with
      | none =>
          left
          simp only [ppid, hself, Option.map_none, Option.getD_none]
      | some r =>
          obtain ⟨hr, hrun⟩ := hparent r rfl
          obtain ⟨hpid, hzombie, hwq⟩ := hparents r hr hrun
          refine Or.inr ⟨r, hr, ?_, hzombie, ?_⟩
          · rw [hpid]
            simp only [ppid, hself, Option.map_some, Option.getD_some]
          · rw [hwq]
            simp only [childWq, hself]
            exact Nat.lt_succ_of_le (h.born r (Or.inl hr)).2
    · rcases h.parent q hq with hzero | ⟨r, hr, hpid, hrun, hlt⟩
      · left
        simp only [ppid, hother q hne]
        exact hzero
      · obtain ⟨hpid', hzombie, hwq⟩ := hparents r hr hrun
        refine Or.inr ⟨r, hr, ?_, hzombie, ?_⟩
        · rw [hpid', hpid]
          simp only [ppid, hother q hne]
        · rw [hwq]
          simp only [childWq, hother q hne]
          exact hlt

theorem noOrphans_takePid (h : s.Tree l) (horphans : s.NoOrphans l) (hp : p ∉ s.live)
    (parent : Option ProcessPtr) : (s.takePid p parent).NoOrphans l := by
  intro q hq hz hppid
  have hne : q ≠ p := by
    rintro rfl
    exact h.notKnown_of_not_live hp (Or.inl hq)
  have hother : (s.takePid p parent).process q = s.process q := process_takePid_of_ne hne
  rw [zombie, hother] at hz
  rw [ppid, hother] at hppid
  exact horphans q hq hz hppid

theorem processRegister (h : s.Tree l) (hp : p ∈ s.building) :
    (s.processRegister p).Tree (p :: l) := by
  have hpl : p ∉ l := fun hmem => h.disjoint p hmem hp
  have hmem : ∀ q, q ∈ (s.processRegister p).building ↔ q ≠ p ∧ q ∈ s.building :=
    fun q => h.nodup.mem_erase_iff
  have hknown : ∀ q, (s.processRegister p).Known (p :: l) q ↔ s.Known l q := by
    intro q
    rw [Known, Known, hmem, List.mem_cons]
    rcases eq_or_ne q p with rfl | hne
    · simp [hp]
    · simp [hne]
  refine ⟨Links.push_isList h.list hpl, fun q hq hb => ?_, h.nodup.erase p, fun q => ?_,
    fun q q' hq hq' => ?_, fun q hq => ?_, fun q hq => ?_, h.nextPid, h.bound, fun q hq => ?_,
    fun q hq => ?_⟩
  · obtain ⟨hne, hb⟩ := (hmem q).mp hb
    exact h.disjoint q ((List.mem_cons.mp hq).resolve_left hne) hb
  · rw [hknown]
    exact h.live q
  · exact h.queues q q' ((hknown q).mp hq) ((hknown q').mp hq')
  · exact h.pid q ((hknown q).mp hq)
  · exact h.born q ((hknown q).mp hq)
  · exact h.building q ((hmem q).mp hq).2
  · rcases h.parent q ((hknown q).mp hq) with hzero | ⟨r, hr, hrest⟩
    · exact Or.inl hzero
    · exact Or.inr ⟨r, List.mem_cons_of_mem p hr, hrest⟩

theorem notStarted (h : s.Tree l) (hp : p ∈ s.building) : (s.notStarted p).Tree l := by
  have hmem : ∀ q, q ∈ (s.notStarted p).building ↔ q ≠ p ∧ q ∈ s.building :=
    fun q => h.nodup.mem_erase_iff
  refine h.restrict (s.notStarted p) h.list rfl rfl rfl (fun q hq => hq)
    (fun q hq => ((hmem q).mp hq).2) (h.nodup.erase p) (fun q => ?_) fun _ _ r hr _ _ => hr
  have hlive : q ∈ (s.notStarted p).live ↔ q ∈ s.live ∧ q ≠ p := Iff.rfl
  rw [hlive, h.live, Known, Known, hmem]
  constructor
  · rintro ⟨hq | hq, hne⟩
    · exact Or.inl hq
    · exact Or.inr ⟨hne, hq⟩
  · rintro (hq | ⟨hne, hq⟩)
    · refine ⟨Or.inl hq, ?_⟩
      rintro rfl
      exact h.disjoint q hq hp
    · exact ⟨Or.inr hq, hne⟩

/-! ### Termination -/

theorem adopt (h : s.Tree l) {init : Option ProcessPtr}
    (hinit : ∀ p, init = some p → p ∈ l ∧ s.IsInit proc p) (hproc : proc ∈ l) :
    (s.adopt l proc init).Tree l := by
  refine ⟨h.list, h.disjoint, h.nodup, h.live, ?_, ?_, ?_, h.nextPid, h.bound, ?_, ?_⟩
  · simp only [childWq_adopt]
    exact h.queues
  · simp only [childWq_adopt, pid_adopt]
    exact h.pid
  · simp only [childWq_adopt]
    exact h.born
  · simp only [zombie_adopt]
    exact h.building
  · intro p hp
    have hp : s.Known l p := hp
    simp only [pid_adopt, zombie_adopt, childWq_adopt, ppid_adopt]
    split_ifs with hchild hsome
    · obtain ⟨init, rfl⟩ := Option.isSome_iff_exists.mp hsome
      obtain ⟨hmem, hpid, hrun, -⟩ := hinit init rfl
      refine Or.inr ⟨init, hmem, hpid, hrun, ?_⟩
      have hone := h.pid_toNat (Or.inl hmem)
      rw [hpid, show (1 : BitVec 32).toNat = 1 from rfl] at hone
      rcases h.parent p hp with hzero | ⟨r, hr, -, -, hlt⟩
      · have hne := h.pid_ne_zero (Or.inl hproc)
        rw [← hchild.2.2, hzero] at hne
        exact absurd rfl hne
      · have hborn := (h.born r (Or.inl hr)).1
        omega
    · exact Or.inl rfl
    · exact h.parent p hp

theorem handChildrenOn (h : s.Tree l) (horphans : s.NoOrphans l) (hproc : proc ∈ l)
    (hrun : s.zombie proc = false) (hne : s.pid proc ≠ 1)
    (hbuilding : ∀ p ∈ s.building, s.ppid p ≠ s.pid proc) :
    ∃ s' l' orphans wake, s.handChildrenOn proc = some (s', wake) ∧
      HandedOn s l proc s' l' orphans wake := by
  obtain ⟨init, links, orphans, hsome, hnone, horphansEq, hlinks, hexec⟩ :=
    handChildrenOn_eq h.list proc
  have hadopt := h.adopt hsome hproc
  have hmemOrphans : ∀ p, p ∈ orphans ↔ p ∈ l ∧ s.IsChild proc p ∧ s.zombie p = true ∧
      ∀ r ∈ l, ¬ s.IsInit proc r := by
    intro p
    rw [horphansEq, List.mem_filter, isOrphanZombie, decide_eq_true_eq, zombie_adopt, ppid_adopt]
    refine and_congr_right fun hp => ?_
    constructor
    · rintro ⟨hpne, hzombie, hppid⟩
      by_cases hchild : s.IsChild proc p
      · rw [if_pos ⟨hp, hchild⟩] at hppid
        cases init with
        | none => exact ⟨hchild, hzombie, hnone rfl⟩
        | some init => simp at hppid
      · rw [if_neg fun hboth => hchild hboth.2] at hppid
        exact absurd hppid (horphans p hp hzombie)
    · rintro ⟨hchild, hzombie, hinit⟩
      refine ⟨hchild.1, hzombie, ?_⟩
      rw [if_pos ⟨hp, hchild⟩]
      cases init with
      | none => rfl
      | some init => exact absurd (hsome init rfl).2 (hinit init (hsome init rfl).1)
  have hmem : ∀ p, p ∈ (l.filter fun p => !(s.adopt l proc init).isOrphanZombie proc p) ↔
      p ∈ l ∧ p ∉ orphans := by
    intro p
    rw [horphansEq, List.mem_filter, List.mem_filter]
    cases (s.adopt l proc init).isOrphanZombie proc p <;> simp
  have hpidNe := h.pid_ne_zero (Or.inl hproc)
  refine ⟨_, _, orphans, _, hexec, ?tree, ?noOrphans, ?noChildren, ?_, ?_, ?_, ?_, rfl, rfl, rfl,
    hmem, hmemOrphans, horphansEq ▸ h.list.nodup.filter _, rfl, ?ppid_self, ?wake⟩
  case tree =>
    refine hadopt.restrict _ hlinks rfl rfl rfl (fun p hp => ((hmem p).mp hp).1) (fun p hp => hp)
      h.nodup (fun p => ?_) fun p hp r hr hpid hrunR => (hmem r).mpr ⟨hr, fun hor => ?_⟩
    · change p ∈ s.live ∧ p ∉ orphans ↔ _
      rw [h.live, Known, Known, hmem]
      constructor
      · rintro ⟨hp | hp, hnot⟩
        · exact Or.inl ⟨hp, hnot⟩
        · exact Or.inr hp
      · rintro (⟨hp, hnot⟩ | hp)
        · exact ⟨Or.inl hp, hnot⟩
        · refine ⟨Or.inr hp, fun hor => ?_⟩
          exact h.disjoint p ((hmemOrphans p).mp hor).1 hp
    · have hzombie := ((hmemOrphans r).mp hor).2.2.1
      rw [zombie_adopt, hzombie] at hrunR
      cases hrunR
  case noOrphans =>
    intro p hp hzombie hppid
    obtain ⟨hpl, hnot⟩ := (hmem p).mp hp
    have hzombie : (s.adopt l proc init).zombie p = true := hzombie
    have hppid : (s.adopt l proc init).ppid p = 0 := hppid
    apply hnot
    rw [horphansEq, List.mem_filter, isOrphanZombie, decide_eq_true_eq]
    refine ⟨hpl, ?_, hzombie, hppid⟩
    rintro rfl
    rw [zombie_adopt, hrun] at hzombie
    cases hzombie
  case noChildren =>
    intro p hp hppid
    have hppid : (s.adopt l proc init).ppid p = (s.adopt l proc init).pid proc := hppid
    rw [pid_adopt, ppid_adopt] at hppid
    split_ifs at hppid with hchild hinit
    · exact hne hppid.symm
    · exact hpidNe hppid.symm
    · rcases hp with hp | hp
      · have hpl := ((hmem p).mp hp).1
        by_cases hpp : p = proc
        · subst hpp
          exact h.ppid_ne_pid (Or.inl hpl) hppid
        · exact hchild ⟨hpl, hpp, hppid⟩
      · exact hbuilding p hp hppid
  case ppid_self =>
    change (s.adopt l proc init).ppid proc = s.ppid proc
    rw [ppid_adopt, if_neg fun h => h.2.1 rfl]
  case wake =>
    intro p hp hzombie r hr hparent
    have hppid : (s.adopt l proc init).ppid p = s.pid r := hparent
    have hpl := ((hmem p).mp hp).1
    have hrl := ((hmem r).mp hr).1
    rw [ppid_adopt] at hppid
    split_ifs at hppid with hchild hinit
    · right
      obtain ⟨init, rfl⟩ := Option.isSome_iff_exists.mp hinit
      obtain ⟨hmemInit, hpidInit, -⟩ := hsome init rfl
      obtain rfl := h.pid_inj (Or.inl hmemInit) (Or.inl hrl) (hpidInit.trans hppid)
      rw [if_pos, Option.map_some]
      refine List.any_eq_true.mpr ⟨p, hpl, ?_⟩
      simp [hchild.2, hzombie]
    · exact absurd hppid.symm (h.pid_ne_zero (Or.inl hrl))
    · exact Or.inl hppid
  all_goals
    funext p
    first
      | exact pid_adopt
      | exact zombie_adopt
      | exact exitStatus_adopt
      | exact childWq_adopt

/-- The end of `process_terminate`: `proc` becomes a zombie of its parent, or it
has none and is freed. -/
theorem leaveTree_cases (h : s.Tree l) (hproc : proc ∈ l) :
    (∃ parent ∈ l, s.ppid proc ≠ 0 ∧ s.pid parent = s.ppid proc ∧ s.zombie parent = false ∧
      s.leaveTree proc = some
        ({ s.setProcess proc { s.process proc with zombie := true } with
            ended := s.ended ++ [(s.pid proc, s.exitStatus proc)] },
          some (s.childWq parent))) ∨
    (s.ppid proc = 0 ∧ ∃ links : Links ProcessPtr, IsList links.next links.head (l.erase proc) ∧
      s.leaveTree proc = some
        ({ s with
            links := links
            live := s.live \ {proc}
            ended := s.ended ++ [(s.pid proc, s.exitStatus proc)]
            freed := s.freed ++ [(s.pid proc, .noParent)] }, none)) := by
  obtain ⟨parent, hfind, hsome, hnone⟩ := findParent_eq h.list proc
  cases parent with
  | some parent =>
      left
      obtain ⟨hppid, hmem, hpid, hrun⟩ := hsome parent rfl
      refine ⟨parent, hmem, hppid, hpid, hrun, ?_⟩
      rw [leaveTree, hfind]
      rfl
  | none =>
      right
      have hppid : s.ppid proc = 0 := by
        rcases hnone rfl with hzero | hno
        · exact hzero
        · rcases h.parent proc (Or.inl hproc) with hzero | ⟨r, hr, hpid, hrun, -⟩
          · exact hzero
          · exact absurd ⟨hpid, hrun⟩ (hno r hr)
      obtain ⟨links, hrun, hlist⟩ := unlink_links h.list proc
      refine ⟨hppid, links, hlist, ?_⟩
      rw [leaveTree, hfind]
      simp only [Option.bind_eq_bind, Option.bind_some, hrun]
      rfl

/-- A record changes in a field that the tree does not depend on, or a childless
process becomes a zombie. -/
theorem setProcess (h : s.Tree l) (hproc : proc ∈ l) (v : Process) (hpid : v.pid = s.pid proc)
    (hppid : v.ppid = s.ppid proc) (hwq : v.childWq = s.childWq proc)
    (hzombie : v.zombie = s.zombie proc ∨ s.NoChildren l proc) :
    (s.setProcess proc v).Tree l := by
  have hpidEq := pid_setProcess hpid
  have hppidEq := ppid_setProcess hppid
  have hwqEq := childWq_setProcess hwq
  have hself : (s.setProcess proc v).zombie proc = v.zombie := by
    rw [zombie, process_setProcess_self]
  have hother : ∀ p, p ≠ proc → (s.setProcess proc v).zombie p = s.zombie p := by
    intro p hp
    rw [zombie, process_setProcess_of_ne hp, ← zombie]
  refine ⟨h.list, h.disjoint, h.nodup, h.live, ?_, ?_, ?_, h.nextPid, h.bound, fun p hp => ?_,
    fun p hp => ?_⟩
  · rw [hwqEq]
    exact h.queues
  · rw [hpidEq, hwqEq]
    exact h.pid
  · rw [hwqEq]
    exact h.born
  · rw [hother]
    · exact h.building p hp
    · rintro rfl
      exact h.disjoint p hproc hp
  · rw [hpidEq, hppidEq, hwqEq]
    rcases h.parent p hp with hzero | ⟨r, hr, hrp, hrun, hlt⟩
    · exact Or.inl hzero
    · refine Or.inr ⟨r, hr, hrp, ?_, hlt⟩
      by_cases hrproc : r = proc
      · subst hrproc
        rcases hzombie with hsame | hchildless
        · rw [hself, hsame]
          exact hrun
        · exact absurd hrp.symm (hchildless p hp)
      · rw [hother r hrproc]
        exact hrun

theorem setExitStatus (h : s.Tree l) (hproc : proc ∈ l) (status : BitVec 32) :
    (s.setExitStatus proc status).Tree l :=
  h.setProcess hproc _ rfl rfl rfl (Or.inl rfl)

/-- A process of the list goes that is nobody's parent. -/
theorem erase (h : s.Tree l) (hproc : proc ∈ l)
    (hchildless : s.zombie proc = true ∨ s.NoChildren l proc)
    (hlist : IsList s'.links.next s'.links.head (l.erase proc))
    (hprocess : s'.process = s.process) (hcreated : s'.created = s.created)
    (hnextPid : s'.nextPid = s.nextPid) (hbuilding : s'.building = s.building)
    (hlive : s'.live = s.live \ {proc}) : s'.Tree (l.erase proc) := by
  have hmem : ∀ p, p ∈ l.erase proc ↔ p ≠ proc ∧ p ∈ l := fun p => h.list.nodup.mem_erase_iff
  have hknown : ∀ p, s'.Known (l.erase proc) p ↔ s.Known l p ∧ p ≠ proc := by
    intro p
    rw [Known, Known, hmem, hbuilding]
    constructor
    · rintro (⟨hne, hp⟩ | hp)
      · exact ⟨Or.inl hp, hne⟩
      · refine ⟨Or.inr hp, ?_⟩
        rintro rfl
        exact h.disjoint p hproc hp
    · rintro ⟨hp | hp, hne⟩
      · exact Or.inl ⟨hne, hp⟩
      · exact Or.inr hp
  refine h.restrict s' hlist hprocess hcreated hnextPid (fun p hp => ((hmem p).mp hp).2)
    (fun p hp => hbuilding ▸ hp) (hbuilding ▸ h.nodup) (fun p => ?_)
    fun p hp r hr hpid hrun => (hmem r).mpr ⟨?_, hr⟩
  · rw [hknown, ← h.live, hlive]
    exact Iff.rfl
  · rintro rfl
    rcases hchildless with hzombie | hchildless
    · rw [hzombie] at hrun
      cases hrun
    · exact hchildless p ((hknown p).mp hp).1 hpid.symm

end Tree

end ProcessTable

end Utopia
