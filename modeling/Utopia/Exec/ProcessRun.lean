/-
Runs of the process list: every process that ends is freed once, by the call that
has to.
-/
import Utopia.Exec.ProcessTree

namespace Utopia

/-- What the history tells about a call of `free`. -/
def FreeReason.Justified (ended : List (BitVec 32 × BitVec 32)) (pid : BitVec 32) :
    FreeReason → Prop
  | .notStarted => pid ∉ ended.map Prod.fst
  | .noParent => pid ∈ ended.map Prod.fst
  | .orphaned => pid ∈ ended.map Prod.fst
  | .reaped _ ret status => ret = pid ∧ (pid, status) ∈ ended

theorem FreeReason.Justified.append {ended extra : List (BitVec 32 × BitVec 32)}
    {pid : BitVec 32} {reason : FreeReason} (h : reason.Justified ended pid)
    (hpid : pid ∉ extra.map Prod.fst) : reason.Justified (ended ++ extra) pid := by
  cases reason with
  | notStarted =>
      rw [Justified, List.map_append, List.mem_append]
      exact fun hmem => hmem.elim h hpid
  | noParent =>
      rw [Justified, List.map_append]
      exact List.mem_append_left _ h
  | orphaned =>
      rw [Justified, List.map_append]
      exact List.mem_append_left _ h
  | reaped parent ret status => exact ⟨h.1, List.mem_append_left _ h.2⟩

namespace ProcessTable

variable {s s' : ProcessTable} {l l' : List ProcessPtr} {p q proc parent : ProcessPtr}

def endedPids (s : ProcessTable) : List (BitVec 32) := s.ended.map Prod.fst

def freedPids (s : ProcessTable) : List (BitVec 32) := s.freed.map Prod.fst

/-- The history of the table over the list `l`. -/
structure History (s : ProcessTable) (l : List ProcessPtr) : Prop where
  notFreed : ∀ p, s.Known l p → s.pid p ∉ s.freedPids
  notEnded : ∀ p, s.Known l p → s.zombie p = false → s.pid p ∉ s.endedPids
  zombies : ∀ p ∈ l, s.zombie p = true → (s.pid p, s.exitStatus p) ∈ s.ended
  endedOnce : s.endedPids.Nodup
  freedOnce : s.freedPids.Nodup
  settled : ∀ pid ∈ s.endedPids, pid ∈ s.freedPids ∨ ∃ p ∈ l, s.pid p = pid ∧ s.zombie p = true
  reasons : ∀ f ∈ s.freed, f.2.Justified s.ended f.1
  old : ∀ pid, pid ∈ s.endedPids ∨ pid ∈ s.freedPids → pid.toNat ≤ s.created

namespace History

/-- The objects `gone` are freed, and some of them end in the same call. -/
theorem leave (h : s.History l) (ht : s.Tree l) (gone : List ProcessPtr)
    (reason : ProcessPtr → FreeReason) (extra : List (BitVec 32 × BitVec 32))
    (hpid : s'.pid = s.pid) (hzombie : s'.zombie = s.zombie)
    (hstatus : s'.exitStatus = s.exitStatus) (hcreated : s'.created = s.created)
    (hended : s'.ended = s.ended ++ extra)
    (hfreed : s'.freed = s.freed ++ gone.map fun p => (s.pid p, reason p))
    (hnodup : gone.Nodup) (hgone : ∀ p ∈ gone, s.Known l p)
    (hknown : ∀ p, s'.Known l' p → s.Known l p ∧ p ∉ gone) (hl : ∀ p ∈ l', p ∈ l)
    (hkept : ∀ p ∈ l, p ∉ gone → p ∈ l')
    (hextra : ∀ e ∈ extra, ∃ p ∈ gone, s.pid p = e.1 ∧ s.zombie p = false)
    (hextraOnce : (extra.map Prod.fst).Nodup)
    (hreason : ∀ p ∈ gone, (reason p).Justified s'.ended (s.pid p)) : s'.History l' := by
  have hendedPids : s'.endedPids = s.endedPids ++ extra.map Prod.fst := by
    simp [endedPids, hended]
  have hfreedPids : s'.freedPids = s.freedPids ++ gone.map s.pid := by
    simp [freedPids, hfreed, Function.comp_def]
  have hnotGone : ∀ p, s.Known l p → p ∉ gone → s.pid p ∉ gone.map s.pid := by
    intro p hp hnot hmem
    obtain ⟨q, hq, heq⟩ := List.mem_map.mp hmem
    exact hnot (ht.pid_inj (hgone q hq) hp heq ▸ hq)
  have hextraPid : ∀ pid ∈ extra.map Prod.fst, ∃ p ∈ gone, s.pid p = pid ∧
      s.zombie p = false := by
    intro pid hmem
    obtain ⟨e, he, rfl⟩ := List.mem_map.mp hmem
    exact hextra e he
  refine ⟨fun p hp => ?_, fun p hp hrun => ?_, fun p hp hz => ?_, ?_, ?_, fun pid hmem => ?_,
    fun f hf => ?_, fun pid hmem => ?_⟩
  · obtain ⟨hold, hnot⟩ := hknown p hp
    rw [hpid, hfreedPids, List.mem_append, not_or]
    exact ⟨h.notFreed p hold, hnotGone p hold hnot⟩
  · obtain ⟨hold, hnot⟩ := hknown p hp
    rw [hzombie] at hrun
    rw [hpid, hendedPids, List.mem_append, not_or]
    refine ⟨h.notEnded p hold hrun, fun hmem => ?_⟩
    obtain ⟨q, hq, heq, -⟩ := hextraPid _ hmem
    exact hnot (ht.pid_inj (hgone q hq) hold heq ▸ hq)
  · rw [hzombie] at hz
    rw [hpid, hstatus, hended]
    exact List.mem_append_left _ (h.zombies p (hl p hp) hz)
  · rw [hendedPids]
    refine h.endedOnce.append hextraOnce fun pid hmem hnew => ?_
    obtain ⟨q, hq, rfl, hrun⟩ := hextraPid _ hnew
    exact h.notEnded q (hgone q hq) hrun hmem
  · rw [hfreedPids]
    refine h.freedOnce.append ?_ fun pid hmem hnew => ?_
    · exact hnodup.map_on fun p hp q hq heq => ht.pid_inj (hgone p hp) (hgone q hq) heq
    · obtain ⟨q, hq, rfl⟩ := List.mem_map.mp hnew
      exact h.notFreed q (hgone q hq) hmem
  · rw [hfreedPids, List.mem_append, hpid, hzombie]
    rw [hendedPids, List.mem_append] at hmem
    rcases hmem with hmem | hmem
    · rcases h.settled pid hmem with hfree | ⟨p, hp, rfl, hz⟩
      · exact Or.inl (Or.inl hfree)
      · by_cases hpg : p ∈ gone
        · exact Or.inl (Or.inr (List.mem_map_of_mem hpg))
        · exact Or.inr ⟨p, hkept p hp hpg, rfl, hz⟩
    · obtain ⟨q, hq, rfl, -⟩ := hextraPid _ hmem
      exact Or.inl (Or.inr (List.mem_map_of_mem hq))
  · rw [hfreed, List.mem_append] at hf
    rcases hf with hf | hf
    · rw [hended]
      refine (h.reasons f hf).append fun hmem => ?_
      obtain ⟨q, hq, heq, -⟩ := hextraPid _ hmem
      exact h.notFreed q (hgone q hq) (heq ▸ List.mem_map_of_mem hf)
    · obtain ⟨p, hp, rfl⟩ := List.mem_map.mp hf
      exact hreason p hp
  · have hborn : ∀ q ∈ gone, (s.pid q).toNat ≤ s.created := by
      intro q hq
      rw [ht.pid_toNat (hgone q hq)]
      exact (ht.born q (hgone q hq)).2
    rw [hcreated]
    rw [hendedPids, hfreedPids, List.mem_append, List.mem_append] at hmem
    rcases hmem with (hmem | hmem) | (hmem | hmem)
    · exact h.old pid (Or.inl hmem)
    · obtain ⟨q, hq, rfl, -⟩ := hextraPid _ hmem
      exact hborn q hq
    · exact h.old pid (Or.inr hmem)
    · obtain ⟨q, hq, rfl⟩ := List.mem_map.mp hmem
      exact hborn q hq

theorem takePid (h : s.History l) (ht : s.Tree l) (hp : p ∉ s.live)
    (parent : Option ProcessPtr) : (s.takePid p parent).History l := by
  have hnot := ht.notKnown_of_not_live hp
  have hother : ∀ q, q ≠ p → (s.takePid p parent).process q = s.process q :=
    fun q hq => process_takePid_of_ne hq
  have hpidSelf : (s.takePid p parent).pid p = s.nextPid := by
    simp [ProcessTable.pid, ProcessTable.takePid, setProcess]
  have hknown : ∀ q, (s.takePid p parent).Known l q → q = p ∨ q ≠ p ∧ s.Known l q := by
    intro q hq
    rcases eq_or_ne q p with rfl | hne
    · exact Or.inl rfl
    · exact Or.inr ⟨hne, hq.imp id fun hb => (List.mem_cons.mp hb).resolve_left hne⟩
  have hnew : ∀ pid, pid ∈ s.endedPids ∨ pid ∈ s.freedPids → pid ≠ s.nextPid := by
    rintro pid hmem rfl
    have hold := h.old _ hmem
    rw [ht.nextPid_toNat] at hold
    omega
  have hlist : ∀ q ∈ l, q ≠ p := by
    rintro q hq rfl
    exact hnot (Or.inl hq)
  refine ⟨fun q hq hmem => ?_, fun q hq hrun hmem => ?_, fun q hq hz => ?_, h.endedOnce,
    h.freedOnce, fun pid hmem => ?_, h.reasons, fun pid hmem => Nat.le_succ_of_le (h.old pid hmem)⟩
  · rcases hknown q hq with rfl | ⟨hne, hq⟩
    · exact hnew _ (Or.inr hmem) hpidSelf
    · apply h.notFreed q hq
      rwa [ProcessTable.pid, hother q hne] at hmem
  · rcases hknown q hq with rfl | ⟨hne, hq⟩
    · exact hnew _ (Or.inl hmem) hpidSelf
    · rw [zombie, hother q hne] at hrun
      apply h.notEnded q hq hrun
      rwa [ProcessTable.pid, hother q hne] at hmem
  · simp only [ProcessTable.pid, zombie, exitStatus, hother q (hlist q hq)] at hz ⊢
    exact h.zombies q hq hz
  · rcases h.settled pid hmem with hfree | ⟨q, hq, hqpid, hz⟩
    · exact Or.inl hfree
    · refine Or.inr ⟨q, hq, ?_⟩
      simp only [ProcessTable.pid, zombie, hother q (hlist q hq)]
      exact ⟨hqpid, hz⟩

theorem processRegister (h : s.History l) (ht : s.Tree l) (hp : p ∈ s.building) :
    (s.processRegister p).History (p :: l) := by
  have hknown : ∀ q, (s.processRegister p).Known (p :: l) q → s.Known l q := by
    rintro q (hq | hq)
    · rcases List.mem_cons.mp hq with rfl | hq
      · exact Or.inr hp
      · exact Or.inl hq
    · exact Or.inr (List.mem_of_mem_erase hq)
  refine ⟨fun q hq => h.notFreed q (hknown q hq), fun q hq => h.notEnded q (hknown q hq),
    fun q hq hz => ?_, h.endedOnce, h.freedOnce, fun pid hmem => ?_, h.reasons, h.old⟩
  · rcases List.mem_cons.mp hq with rfl | hq
    · have hrun : s.zombie q = true := hz
      rw [ht.building q hp] at hrun
      cases hrun
    · exact h.zombies q hq hz
  · rcases h.settled pid hmem with hfree | ⟨q, hq, hrest⟩
    · exact Or.inl hfree
    · exact Or.inr ⟨q, List.mem_cons_of_mem p hq, hrest⟩

theorem notStarted (h : s.History l) (ht : s.Tree l) (hp : p ∈ s.building) :
    (s.notStarted p).History l := by
  have hmem : ∀ q, q ∈ (s.notStarted p).building ↔ q ≠ p ∧ q ∈ s.building :=
    fun q => ht.nodup.mem_erase_iff
  have hpl : p ∉ l := fun hpl => ht.disjoint p hpl hp
  refine h.leave ht [p] (fun _ => .notStarted) [] rfl rfl rfl rfl
    (List.append_nil _).symm rfl (List.nodup_singleton p) (fun q hq => ?_) (fun q hq => ?_)
    (fun q hq => hq) (fun q hq _ => hq) (fun _ => nofun) List.nodup_nil fun q hq => ?_
  · rw [List.mem_singleton.mp hq]
    exact Or.inr hp
  · rcases hq with hq | hq
    · refine ⟨Or.inl hq, fun hqp => ?_⟩
      rw [List.mem_singleton.mp hqp] at hq
      exact hpl hq
    · obtain ⟨hne, hq⟩ := (hmem q).mp hq
      exact ⟨Or.inr hq, fun hqp => hne (List.mem_singleton.mp hqp)⟩
  · rw [List.mem_singleton.mp hq]
    exact h.notEnded p (Or.inr hp) (ht.building p hp)

theorem handedOn (h : s.History l) (ht : s.Tree l) {orphans : List ProcessPtr}
    {wake : Option ℕ} (hout : HandedOn s l proc s' l' orphans wake) : s'.History l' := by
  have hgone : ∀ p ∈ orphans, p ∈ l ∧ s.zombie p = true := fun p hp =>
    ⟨((hout.memOrphans p).mp hp).1, ((hout.memOrphans p).mp hp).2.2.1⟩
  refine h.leave ht orphans (fun _ => .orphaned) [] hout.pid hout.zombie hout.exitStatus
    hout.created (by simpa using hout.ended) hout.freed hout.nodup
    (fun p hp => Or.inl (hgone p hp).1) (fun p hp => ?_) (fun p hp => ((hout.mem p).mp hp).1)
    (fun p hp hnot => (hout.mem p).mpr ⟨hp, hnot⟩) (fun _ => nofun) List.nodup_nil
    fun p hp => ?_
  · rcases hp with hp | hp
    · obtain ⟨hmem, hnot⟩ := (hout.mem p).mp hp
      exact ⟨Or.inl hmem, hnot⟩
    · rw [hout.building] at hp
      exact ⟨Or.inr hp, fun hor => ht.disjoint p (hgone p hor).1 hp⟩
  · rw [FreeReason.Justified, hout.ended]
    exact List.mem_map_of_mem (h.zombies p (hgone p hp).1 (hgone p hp).2)

/-- A running process takes an exit status. -/
theorem setExitStatus (h : s.History l) (hrun : s.zombie proc = false)
    (status : BitVec 32) : (s.setExitStatus proc status).History l := by
  have hpid : (s.setExitStatus proc status).pid = s.pid := pid_setProcess rfl
  have hzombie : (s.setExitStatus proc status).zombie = s.zombie := zombie_setProcess rfl
  refine ⟨?_, ?_, fun p hp hz => ?_, h.endedOnce, h.freedOnce, ?_, h.reasons, h.old⟩
  · rw [hpid]
    exact h.notFreed
  · rw [hpid, hzombie]
    exact h.notEnded
  · rw [hzombie] at hz
    have hne : p ≠ proc := by
      rintro rfl
      rw [hrun] at hz
      cases hz
    have hstatus : (s.setExitStatus proc status).exitStatus p = s.exitStatus p :=
      congrArg Process.exitStatus (process_setProcess_of_ne hne)
    rw [hpid, hstatus]
    exact h.zombies p hp hz
  · rw [hpid, hzombie]
    exact h.settled

/-- A running process becomes a zombie. -/
theorem becomeZombie (h : s.History l) (ht : s.Tree l) (hproc : proc ∈ l)
    (hrun : s.zombie proc = false) :
    { s.setProcess proc { s.process proc with zombie := true } with
      ended := s.ended ++ [(s.pid proc, s.exitStatus proc)] }.History l := by
  let v : Process := { s.process proc with zombie := true }
  have hpid : (s.setProcess proc v).pid = s.pid := pid_setProcess rfl
  have hstatus : (s.setProcess proc v).exitStatus = s.exitStatus := exitStatus_setProcess rfl
  have hself : (s.setProcess proc v).zombie proc = true :=
    congrArg Process.zombie process_setProcess_self
  have hother : ∀ p, p ≠ proc → (s.setProcess proc v).zombie p = s.zombie p := fun p hp =>
    congrArg Process.zombie (process_setProcess_of_ne hp)
  have hnew := h.notEnded proc (Or.inl hproc) hrun
  have hmem : ∀ pid, pid ∈ (s.ended ++ [(s.pid proc, s.exitStatus proc)]).map Prod.fst ↔
      pid ∈ s.endedPids ∨ pid = s.pid proc := by
    simp [endedPids]
  refine ⟨?_, fun p hp hz => ?_, fun p hp hz => ?_, ?_, h.freedOnce, fun pid hp => ?_,
    fun f hf => ?_, fun pid hp => ?_⟩
  · change ∀ p, s.Known l p →
      (s.setProcess proc v).pid p ∉ s.freedPids
    rw [hpid]
    exact h.notFreed
  · have hne : p ≠ proc := by
      rintro rfl
      exact absurd (hself.symm.trans hz) (by simp)
    have hz : s.zombie p = false := (hother p hne).symm.trans hz
    have hold := h.notEnded p hp hz
    change (s.setProcess proc v).pid p ∉
      (s.ended ++ [(s.pid proc, s.exitStatus proc)]).map Prod.fst
    rw [hpid, hmem, not_or]
    exact ⟨hold, fun heq => hne (ht.pid_inj hp (Or.inl hproc) heq)⟩
  · change ((s.setProcess proc v).pid p, (s.setProcess proc v).exitStatus p) ∈ _
    rw [hpid, hstatus]
    rcases eq_or_ne p proc with rfl | hne
    · exact List.mem_append_right _ (List.mem_singleton_self _)
    · exact List.mem_append_left _ (h.zombies p hp ((hother p hne).symm.trans hz))
  · change ((s.ended ++ [(s.pid proc, s.exitStatus proc)]).map Prod.fst).Nodup
    rw [List.map_append]
    refine h.endedOnce.append (List.nodup_singleton _) fun pid hp hp' => ?_
    have heq : pid = s.pid proc := by simpa using hp'
    exact hnew (heq ▸ hp)
  · have hp := (hmem pid).mp hp
    change pid ∈ s.freedPids ∨ ∃ q ∈ l, (s.setProcess proc v).pid q = pid ∧
      (s.setProcess proc v).zombie q = true
    rw [hpid]
    rcases hp with hp | rfl
    · rcases h.settled pid hp with hfree | ⟨q, hq, hqpid, hz⟩
      · exact Or.inl hfree
      · refine Or.inr ⟨q, hq, hqpid, ?_⟩
        rcases eq_or_ne q proc with rfl | hne
        · exact hself
        · exact (hother q hne).trans hz
    · exact Or.inr ⟨proc, hproc, rfl, hself⟩
  · refine (h.reasons f hf).append fun hp => ?_
    have heq : f.1 = s.pid proc := by simpa using hp
    exact h.notFreed proc (Or.inl hproc) (heq ▸ List.mem_map_of_mem hf)
  · rcases hp with hp | hp
    · rcases (hmem pid).mp hp with hp | rfl
      · exact h.old pid (Or.inl hp)
      · rw [ht.pid_toNat (Or.inl hproc)]
        exact (ht.born proc (Or.inl hproc)).2
    · exact h.old pid (Or.inr hp)

/-- One process of the list is freed. -/
theorem erase (h : s.History l) (ht : s.Tree l) (hproc : proc ∈ l) (reason : FreeReason)
    (extra : List (BitVec 32 × BitVec 32)) (hprocess : s'.process = s.process)
    (hcreated : s'.created = s.created) (hbuilding : s'.building = s.building)
    (hended : s'.ended = s.ended ++ extra)
    (hfreed : s'.freed = s.freed ++ [(s.pid proc, reason)])
    (hextra : extra = [] ∨
      extra = [(s.pid proc, s.exitStatus proc)] ∧ s.zombie proc = false)
    (hreason : reason.Justified s'.ended (s.pid proc)) : s'.History (l.erase proc) := by
  have hmem : ∀ p, p ∈ l.erase proc ↔ p ≠ proc ∧ p ∈ l := fun p => ht.list.nodup.mem_erase_iff
  refine h.leave ht [proc] (fun _ => reason) extra ?_ ?_ ?_ hcreated hended hfreed
    (List.nodup_singleton proc) (fun p hp => ?_) (fun p hp => ?_)
    (fun p hp => ((hmem p).mp hp).2) (fun p hp hnot => ?_) (fun e he => ?_) ?_ fun p hp => ?_
  · funext p
    simp only [ProcessTable.pid, hprocess]
  · funext p
    simp only [zombie, hprocess]
  · funext p
    simp only [exitStatus, hprocess]
  · rw [List.mem_singleton.mp hp]
    exact Or.inl hproc
  · rcases hp with hp | hp
    · obtain ⟨hne, hp⟩ := (hmem p).mp hp
      exact ⟨Or.inl hp, fun hpp => hne (List.mem_singleton.mp hpp)⟩
    · rw [hbuilding] at hp
      refine ⟨Or.inr hp, fun hpp => ?_⟩
      rw [List.mem_singleton.mp hpp] at hp
      exact ht.disjoint proc hproc hp
  · exact (hmem p).mpr ⟨fun heq => hnot (heq ▸ List.mem_singleton_self _), hp⟩
  · rcases hextra with rfl | ⟨rfl, hrun⟩
    · cases he
    · rw [List.mem_singleton.mp he]
      exact ⟨proc, List.mem_singleton_self _, rfl, hrun⟩
  · rcases hextra with rfl | ⟨rfl, -⟩
    · exact List.nodup_nil
    · exact List.nodup_singleton _
  · rw [List.mem_singleton.mp hp]
    exact hreason

end History

/-- What holds of the table between two critical sections. -/
structure Sound (s : ProcessTable) (l : List ProcessPtr) : Prop where
  tree : s.Tree l
  noOrphans : s.NoOrphans l
  history : s.History l

namespace Sound

theorem setExitStatus (h : s.Sound l) (hproc : proc ∈ l) (hrun : s.zombie proc = false)
    (status : BitVec 32) : (s.setExitStatus proc status).Sound l := by
  exact ⟨h.tree.setExitStatus hproc status, h.noOrphans.setExitStatus proc status,
    h.history.setExitStatus hrun status⟩

/-- The end of `process_terminate`. -/
theorem leaveTree (h : s.Sound l) (hproc : proc ∈ l) (hrun : s.zombie proc = false)
    (hchildless : s.NoChildren l proc) :
    ∃ s' l' wake, s.leaveTree proc = some (s', wake) ∧ s'.Sound l' ∧
      s'.created = s.created ∧
      ((∃ parent ∈ l, s.pid parent = s.ppid proc ∧ s.zombie parent = false ∧
          s'.freed = s.freed) ∨
        ((∀ r ∈ l, s.pid r = s.ppid proc → s.zombie r = true) ∧
          s'.freed = s.freed ++ [(s.pid proc, .noParent)])) := by
  rcases h.tree.leaveTree_cases hproc with
    ⟨parent, hparent, hppid, hpid, hrunP, hexec⟩ | ⟨hppid, links, hlist, hexec⟩
  · have htree := h.tree.setProcess hproc { s.process proc with zombie := true } rfl rfl rfl
      (Or.inr hchildless)
    refine ⟨_, l, _, hexec, ⟨⟨htree.list, htree.disjoint, htree.nodup, htree.live, htree.queues,
      htree.pid, htree.born, htree.nextPid, htree.bound, htree.building, htree.parent⟩,
      fun p hp hz => ?_, h.history.becomeZombie h.tree hproc hrun⟩, rfl,
      Or.inl ⟨parent, hparent, hpid, hrunP, rfl⟩⟩
    have hppidEq : (s.setProcess proc { s.process proc with zombie := true }).ppid = s.ppid :=
      ppid_setProcess rfl
    change (s.setProcess proc { s.process proc with zombie := true }).ppid p ≠ 0
    rw [hppidEq]
    rcases eq_or_ne p proc with rfl | hne
    · exact hppid
    · refine h.noOrphans p hp ?_
      exact (congrArg Process.zombie (process_setProcess_of_ne hne)).symm.trans hz
  · refine ⟨_, l.erase proc, _, hexec, ⟨?_, fun p hp hz => ?_, ?_⟩, rfl, Or.inr ⟨?_, rfl⟩⟩
    · exact h.tree.erase hproc (Or.inr hchildless) hlist rfl rfl rfl rfl rfl
    · exact h.noOrphans p (List.mem_of_mem_erase hp) hz
    · refine h.history.erase h.tree hproc .noParent [(s.pid proc, s.exitStatus proc)] rfl rfl rfl
        rfl rfl (Or.inr ⟨rfl, hrun⟩) ?_
      rw [FreeReason.Justified, List.map_append]
      exact List.mem_append_right _ (List.mem_singleton_self _)
    · intro r hr hpid
      exact absurd (hpid.trans hppid) (h.tree.pid_ne_zero (Or.inl hr))

/-- `process_terminate` frees the zombies that nobody can wait for any more, and the
process itself if it has no live parent. -/
theorem processTerminate (h : s.Sound l) (hproc : proc ∈ l) (hrun : s.zombie proc = false)
    (hne : s.pid proc ≠ 1) (hbuilding : ∀ p ∈ s.building, s.ppid p ≠ s.pid proc) :
    ∃ (s' : ProcessTable) (l' orphans : List ProcessPtr),
      s.processTerminate proc = some s' ∧ s'.Sound l' ∧ s'.created = s.created ∧
      (∀ p, p ∈ orphans ↔ p ∈ l ∧ s.IsChild proc p ∧ s.zombie p = true ∧
        ∀ r ∈ l, ¬ s.IsInit proc r) ∧
      ((∃ parent ∈ l, s.pid parent = s.ppid proc ∧ s.zombie parent = false ∧
          s'.freed = s.freed ++ orphans.map fun p => (s.pid p, .orphaned)) ∨
        ((∀ r ∈ l, s.pid r = s.ppid proc → s.zombie r = true) ∧
          s'.freed = s.freed ++ (orphans.map fun p => (s.pid p, .orphaned)) ++
            [(s.pid proc, .noParent)])) := by
  obtain ⟨s₁, l₁, orphans, wake, hexec, hout⟩ :=
    h.tree.handChildrenOn h.noOrphans hproc hrun hne hbuilding
  have hnotOrphan : ∀ r, s.zombie r = false → r ∉ orphans := by
    intro r hr hmem
    have hz := ((hout.memOrphans r).mp hmem).2.2.1
    rw [hr] at hz
    cases hz
  have hproc₁ : proc ∈ l₁ := (hout.mem proc).mpr ⟨hproc, hnotOrphan proc hrun⟩
  have hrun₁ : s₁.zombie proc = false := by
    rw [hout.zombie]
    exact hrun
  have hsound : s₁.Sound l₁ :=
    ⟨hout.tree, hout.noOrphans, h.history.handedOn h.tree hout⟩
  obtain ⟨s', l', wake', hexec', hsound', hcreated, hfreed⟩ :=
    hsound.leaveTree hproc₁ hrun₁ hout.noChildren
  refine ⟨s', l', orphans, ?_, hsound', hcreated.trans hout.created, hout.memOrphans, ?_⟩
  · rw [ProcessTable.processTerminate, hexec]
    simp only [Option.bind_eq_bind, Option.bind_some, hexec']
    rfl
  · rw [hout.pid, hout.zombie, hout.ppid_self, hout.freed] at hfreed
    rcases hfreed with ⟨parent, hparent, hpid, hrunP, hfreed⟩ | ⟨hnone, hfreed⟩
    · exact Or.inl ⟨parent, ((hout.mem parent).mp hparent).1, hpid, hrunP, hfreed⟩
    · refine Or.inr ⟨fun r hr hpid => ?_, hfreed⟩
      by_contra hz
      have hz : s.zombie r = false := by simpa using hz
      rw [hnone r ((hout.mem r).mpr ⟨hr, hnotOrphan r hz⟩) hpid] at hz
      cases hz

/-- `process_wait_child` reports whether there are matching children, and reaps the
first zombie among them. -/
theorem processWaitChild (h : s.Sound l) (parent : ProcessPtr) (pid : BitVec 32) :
    ∃ ret status s' l', s.processWaitChild parent pid = some (ret, status, s') ∧ s'.Sound l' ∧
      (ret = -1 ↔ ∀ p ∈ l, s.isMatch parent pid p = false) ∧
      (ret = 0 ↔ (∃ p ∈ l, s.isMatch parent pid p = true) ∧
        ∀ p ∈ l, s.isMatch parent pid p = true → s.zombie p = false) ∧
      ((s' = s ∧ l' = l ∧ (ret = 0 ∨ ret = -1)) ∨
        ∃ p ∈ l, s.isMatch parent pid p = true ∧ s.zombie p = true ∧ ret = s.pid p ∧
          status = some (s.exitStatus p) ∧ l' = l.erase p ∧ s'.process = s.process ∧
          s'.building = s.building ∧ s'.created = s.created ∧
          s'.freed = s.freed ++ [(s.pid p, .reaped (s.pid parent) ret (s.exitStatus p))]) := by
  rcases processWaitChild_cases h.tree.list parent pid with
    ⟨p, hp, hmatch, hz, links, hlist, hexec⟩ | ⟨hnone, hexec⟩
  · have hknown : s.Known l p := Or.inl hp
    refine ⟨_, _, _, l.erase p, hexec, ⟨?_, fun q hq hqz => ?_, ?_⟩, ?_, ?_,
      Or.inr ⟨p, hp, hmatch, hz, rfl, rfl, rfl, rfl, rfl, rfl, rfl⟩⟩
    · exact h.tree.erase hp (Or.inl hz) hlist rfl rfl rfl rfl rfl
    · exact h.noOrphans q (List.mem_of_mem_erase hq) hqz
    · exact h.history.erase h.tree hp _ [] rfl rfl rfl (List.append_nil _).symm rfl (Or.inl rfl)
        ⟨rfl, h.history.zombies p hp hz⟩
    · refine ⟨fun hneg => absurd hneg (h.tree.pid_ne_neg_one hknown), fun hno => ?_⟩
      rw [hno p hp] at hmatch
      cases hmatch
    · refine ⟨fun hzero => absurd hzero (h.tree.pid_ne_zero hknown), fun hno => ?_⟩
      rw [hno.2 p hp hmatch] at hz
      cases hz
  · refine ⟨_, _, s, l, hexec, h, ?_, ?_, Or.inl ⟨rfl, rfl, ?_⟩⟩
    · split_ifs with hany
      · obtain ⟨p, hp, hmatch⟩ := List.any_eq_true.mp hany
        refine ⟨fun hneg => absurd hneg (by decide), fun hno => ?_⟩
        rw [hno p hp] at hmatch
        cases hmatch
      · refine ⟨fun _ p hp => ?_, fun _ => rfl⟩
        simpa using fun hmatch => hany (List.any_eq_true.mpr ⟨p, hp, hmatch⟩)
    · split_ifs with hany
      · exact ⟨fun _ => ⟨List.any_eq_true.mp hany, hnone⟩, fun _ => rfl⟩
      · refine ⟨fun hzero => absurd hzero (by decide), fun ⟨hsome, _⟩ => ?_⟩
        exact absurd (List.any_eq_true.mpr hsome) hany
    · split_ifs <;> simp

/-- Every call returns and keeps the table sound, as long as there are pids. -/
theorem step (h : s.Sound l) {e : ProcessStep} (hallows : s.Allows e)
    (hbound : s.created + e.creations < 2 ^ 32 - 1) :
    ∃ s' l', s.step e = some s' ∧ s'.Sound l' ∧ s'.created = s.created + e.creations := by
  cases e with
  | create p =>
      exact ⟨_, l, rfl, ⟨h.tree.takePid hallows none (fun _ => nofun) hbound,
        h.tree.noOrphans_takePid h.noOrphans hallows none,
        h.history.takePid h.tree hallows none⟩, rfl⟩
  | clone p parent =>
      obtain ⟨hp, hruns⟩ := hallows
      have hruns := h.tree.runs_iff.mp hruns
      refine ⟨_, l, rfl, ⟨h.tree.takePid hp (some parent) (fun r hr => ?_) hbound,
        h.tree.noOrphans_takePid h.noOrphans hp _, h.history.takePid h.tree hp _⟩, rfl⟩
      obtain rfl := Option.some.inj hr
      exact hruns
  | register p =>
      refine ⟨_, p :: l, rfl, ⟨h.tree.processRegister hallows, fun q hq hz => ?_,
        h.history.processRegister h.tree hallows⟩, rfl⟩
      rcases List.mem_cons.mp hq with rfl | hq
      · exact absurd ((h.tree.building q hallows).symm.trans hz) (by simp)
      · exact h.noOrphans q hq hz
  | notStarted p =>
      exact ⟨_, l, rfl, ⟨h.tree.notStarted hallows, h.noOrphans,
        h.history.notStarted h.tree hallows⟩, rfl⟩
  | terminate proc status =>
      obtain ⟨hruns, hne, hbuilding⟩ := hallows
      obtain ⟨hproc, hrun⟩ := h.tree.runs_iff.mp hruns
      have hpid : (s.setExitStatus proc status).pid = s.pid := pid_setProcess rfl
      have hppid : (s.setExitStatus proc status).ppid = s.ppid := ppid_setProcess rfl
      have hzombie : (s.setExitStatus proc status).zombie = s.zombie := zombie_setProcess rfl
      obtain ⟨s', l', orphans, hexec, hsound, hcreated, -⟩ :=
        (h.setExitStatus hproc hrun status).processTerminate hproc (by rw [hzombie]; exact hrun)
          (by rw [hpid]; exact hne) (by rw [hpid, hppid]; exact hbuilding)
      exact ⟨s', l', hexec, hsound, hcreated⟩
  | waitChild parent pid =>
      obtain ⟨ret, status, s', l', hexec, hsound, -, -, hcases⟩ := h.processWaitChild parent pid
      refine ⟨s', l', ?_, hsound, ?_⟩
      · rw [ProcessTable.step, hexec]
        rfl
      · rcases hcases with ⟨rfl, -⟩ | ⟨p, -, -, -, -, -, -, -, -, hcreated, -⟩
        · rfl
        · exact hcreated

end Sound

theorem initial_sound : initial.Sound [] := by
  refine ⟨⟨rfl, fun _ => nofun, List.nodup_nil, fun p => ?_, ?_, ?_, ?_, rfl, by decide,
    fun _ => nofun, ?_⟩, fun _ => nofun, ⟨?_, ?_, fun _ => nofun, List.nodup_nil, List.nodup_nil,
    fun _ => nofun, fun _ => nofun, ?_⟩⟩
  all_goals simp [initial, Known, endedPids, freedPids]

end ProcessTable

open ProcessTable

theorem ProcessReachable.sound {n : ℕ} {s : ProcessTable} (h : ProcessReachable n s)
    (hn : n < 2 ^ 32 - 1) : s.created = n ∧ ∃ l, s.Sound l := by
  induction h with
  | initial => exact ⟨rfl, [], ProcessTable.initial_sound⟩
  | @step n s s' e hs hallows hstep ih =>
      obtain ⟨hcreated, l, hsound⟩ := ih (lt_of_le_of_lt (Nat.le_add_right n _) hn)
      obtain ⟨t, l', hexec, hsound', hcreated'⟩ := hsound.step hallows (hcreated.symm ▸ hn)
      rw [hstep] at hexec
      obtain rfl := Option.some.inj hexec
      exact ⟨hcreated ▸ hcreated', l', hsound'⟩

/-- The process tree.  In every reachable table the list ends and the pids in it are
distinct; zombies have a running parent, and so has everyone else whose `ppid` is not
0.  A process that has ended is freed once, for the reason that holds, or waits as a
zombie.  Calls of `process_terminate` and `process_wait_child` free what they have
to, and the latter's value tells what it found. -/
theorem processReachable_tree {n : ℕ} {s : ProcessTable} (h : ProcessReachable n s)
    (hn : n < 2 ^ 32 - 1) :
    ∃ l, IsList s.links.next s.links.head l ∧
      (∀ p ∈ l, p ∈ s.live ∧ ∀ q ∈ l, s.pid p = s.pid q → p = q) ∧
      (∀ p ∈ l, s.zombie p = true ∨ s.ppid p ≠ 0 →
        ∃ r ∈ l, s.pid r = s.ppid p ∧ s.zombie r = false) ∧
      s.endedPids.Nodup ∧ s.freedPids.Nodup ∧
      (∀ pid ∈ s.endedPids, (pid ∈ s.freedPids ∧ ∀ p ∈ l, s.pid p ≠ pid) ∨
        (pid ∉ s.freedPids ∧ ∃ p ∈ l, s.pid p = pid ∧ s.zombie p = true)) ∧
      (∀ f ∈ s.freed, f.2.Justified s.ended f.1) ∧
      (∀ proc status, s.Allows (.terminate proc status) →
        ∃ (s' : ProcessTable) (orphans : List ProcessPtr),
          s.step (.terminate proc status) = some s' ∧
          (∀ p, p ∈ orphans ↔ p ∈ l ∧ s.IsChild proc p ∧ s.zombie p = true ∧
            ∀ r ∈ l, ¬ s.IsInit proc r) ∧
          ((∃ r ∈ l, s.pid r = s.ppid proc ∧ s.zombie r = false ∧
              s'.freed = s.freed ++ orphans.map fun p => (s.pid p, .orphaned)) ∨
            ((∀ r ∈ l, s.pid r = s.ppid proc → s.zombie r = true) ∧
              s'.freed = s.freed ++ (orphans.map fun p => (s.pid p, .orphaned)) ++
                [(s.pid proc, .noParent)]))) ∧
      ∀ parent pid, s.Runs parent →
        ∃ ret status s', s.processWaitChild parent pid = some (ret, status, s') ∧
          (ret = -1 ↔ ∀ p ∈ l, s.isMatch parent pid p = false) ∧
          (ret = 0 ↔ (∃ p ∈ l, s.isMatch parent pid p = true) ∧
            ∀ p ∈ l, s.isMatch parent pid p = true → s.zombie p = false) ∧
          ((s' = s ∧ (ret = 0 ∨ ret = -1)) ∨
            ∃ p ∈ l, s.isMatch parent pid p = true ∧ s.zombie p = true ∧ ret = s.pid p ∧
              status = some (s.exitStatus p) ∧
              s'.freed = s.freed ++
                [(s.pid p, .reaped (s.pid parent) ret (s.exitStatus p))]) := by
  obtain ⟨-, l, hsound⟩ := h.sound hn
  have ht := hsound.tree
  refine ⟨l, ht.list, fun p hp => ⟨(ht.live p).mpr (Or.inl hp), fun q hq =>
    ht.pid_inj (Or.inl hp) (Or.inl hq)⟩, fun p hp hcond => ?_, hsound.history.endedOnce,
    hsound.history.freedOnce, fun pid hpid => ?_, hsound.history.reasons,
    fun proc status hallows => ?_, fun parent pid _ => ?_⟩
  · have hppid : s.ppid p ≠ 0 := hcond.elim (hsound.noOrphans p hp) id
    rcases ht.parent p (Or.inl hp) with hzero | ⟨r, hr, hpid, hrun, -⟩
    · exact absurd hzero hppid
    · exact ⟨r, hr, hpid, hrun⟩
  · have hlisted : pid ∈ s.freedPids → ∀ p ∈ l, s.pid p ≠ pid := by
      rintro hfreed p hp rfl
      exact hsound.history.notFreed p (Or.inl hp) hfreed
    rcases hsound.history.settled pid hpid with hfreed | ⟨p, hp, rfl, hz⟩
    · exact Or.inl ⟨hfreed, hlisted hfreed⟩
    · exact Or.inr ⟨hsound.history.notFreed p (Or.inl hp), p, hp, rfl, hz⟩
  · obtain ⟨hruns, hne, hbuilding⟩ := hallows
    obtain ⟨hproc, hrun⟩ := ht.runs_iff.mp hruns
    have hpid : (s.setExitStatus proc status).pid = s.pid := pid_setProcess rfl
    have hppid : (s.setExitStatus proc status).ppid = s.ppid := ppid_setProcess rfl
    have hzombie : (s.setExitStatus proc status).zombie = s.zombie := zombie_setProcess rfl
    obtain ⟨s', l', orphans, hexec, -, -, hmem, hfreed⟩ :=
      (hsound.setExitStatus hproc hrun status).processTerminate hproc (by rw [hzombie]; exact hrun)
        (by rw [hpid]; exact hne) (by rw [hpid, hppid]; exact hbuilding)
    simp only [ProcessTable.IsChild, ProcessTable.IsInit, hpid, hppid, hzombie] at hmem hfreed
    exact ⟨s', orphans, hexec, hmem, hfreed⟩
  · obtain ⟨ret, status, s', l', hexec, -, hneg, hzero, hcases⟩ :=
      hsound.processWaitChild parent pid
    refine ⟨ret, status, s', hexec, hneg, hzero, ?_⟩
    rcases hcases with ⟨hs', -, hret⟩ | ⟨p, hp, hmatch, hz, hret, hstatus, -, -, -, -, hfreed⟩
    · exact Or.inl ⟨hs', hret⟩
    · exact Or.inr ⟨p, hp, hmatch, hz, hret, hstatus, hfreed⟩

/-- The first process and a clone of it. -/
def withChild : ProcessTable :=
  ((((ProcessTable.initial.takePid 0x1000 none).processRegister 0x1000).takePid 0x2000
    (some 0x1000))).processRegister 0x2000

theorem withChild_reachable : ProcessReachable 2 withChild := by
  have hcreate := ProcessReachable.initial.step (e := .create 0x1000) (Set.notMem_empty _) rfl
  have hregister := hcreate.step (e := .register 0x1000) (List.mem_singleton_self _) rfl
  have hclone := hregister.step (e := .clone 0x2000 0x1000)
    ⟨by simp [ProcessTable.processRegister, ProcessTable.takePid, ProcessTable.initial],
      ⟨0, rfl⟩, rfl⟩ rfl
  exact hclone.step (e := .register 0x2000) List.mem_cons_self rfl

/-- The clone ends with status 7, and its parent reaps it. -/
theorem processReachable_tree_reaped : ∃ s s', ProcessReachable 2 s ∧ s.zombie 0x2000 = true ∧
    s.processWaitChild 0x1000 (-1) = some (2, some 7, s') ∧
      s'.freed = s.freed ++ [(2, .reaped 1 2 7)] := by
  have hends : (withChild.step (.terminate 0x2000 7)).map (fun s =>
      (nthNode s.links.next s.links.head 1, s.pid 0x1000, s.zombie 0x1000, s.zombie 0x2000)) =
      some (some 0x1000, 1, false, true) := by decide +kernel
  have hreaps : (withChild.step (.terminate 0x2000 7)).bind (fun s =>
      (s.processWaitChild 0x1000 (-1)).map fun r => (r.1, r.2.1)) = some (2, some 7) := by
    decide +kernel
  obtain ⟨s, hs, hview⟩ := Option.map_eq_some_iff.mp hends
  simp only [Prod.mk.injEq] at hview
  obtain ⟨hnode, hpid, hrun, hzombie⟩ := hview
  have hended : ProcessReachable 2 s := withChild_reachable.step
    (e := .terminate 0x2000 7) ⟨⟨⟨0, rfl⟩, rfl⟩, by decide, fun p hp => by cases hp⟩ hs
  obtain ⟨l, -, -, -, -, -, -, -, -, hwaits⟩ := processReachable_tree hended (by decide)
  obtain ⟨ret, status, s', hcall, -, -, hcases⟩ := hwaits 0x1000 (-1) ⟨⟨1, hnode⟩, hrun⟩
  rw [hs, Option.bind_some, hcall, Option.map_some, Option.some.injEq, Prod.mk.injEq] at hreaps
  obtain ⟨rfl, rfl⟩ := hreaps
  rcases hcases with ⟨-, hret⟩ | ⟨p, -, -, -, hret, hstatus, hfreed⟩
  · exact absurd hret (by decide)
  · rw [← hret, hpid, ← Option.some.inj hstatus] at hfreed
    exact ⟨s, s', hended, hzombie, hcall, hfreed⟩

end Utopia
