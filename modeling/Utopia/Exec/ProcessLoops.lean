/-
The process tree: what the loops of `process_terminate` and `process_wait_child`
compute, and what every call keeps.
-/
import Utopia.Exec.Process

namespace Utopia

namespace ProcessTable

variable {s s' : ProcessTable} {l l' : List ProcessPtr} {p q proc parent : ProcessPtr}

/-! ### The loops -/

theorem length_lt_maxNodes (h : IsList s.links.next s.links.head l) : l.length < maxNodes :=
  Nat.lt_succ_of_le h.length_le

/-- A live init process other than `proc`. -/
def IsInit (s : ProcessTable) (proc p : ProcessPtr) : Prop :=
  s.pid p = 1 ∧ s.zombie p = false ∧ p ≠ proc

theorem findInit_eq (h : IsList s.links.next s.links.head l) (proc : ProcessPtr) :
    ∃ init, s.findInit proc = some init ∧ (∀ p, init = some p → p ∈ l ∧ s.IsInit proc p) ∧
      (init = none → ∀ p ∈ l, ¬ s.IsInit proc p) := by
  have hlen := (length_lt_maxNodes h).le
  rw [findInit, h.walk_eq (fun _ => s.links.next) (fun _ _ => rfl) hlen]
  refine ⟨_, rfl, ?_⟩
  clear h hlen
  -- the search keeps the last match, so the list grows at its end
  induction l using List.reverseRecOn with
  | nil => simp
  | append_singleton l p ih =>
      rw [List.foldl_append, List.foldl_cons, List.foldl_nil]
      split_ifs with hp
      · refine ⟨fun q hq => ?_, by simp⟩
        obtain rfl := Option.some.inj hq
        exact ⟨by simp, hp⟩
      · refine ⟨fun q hq => ?_, fun hnone q hq => ?_⟩
        · exact ⟨List.mem_append_left _ (ih.1 q hq).1, (ih.1 q hq).2⟩
        · rcases List.mem_append.mp hq with hq | hq
          · exact ih.2 hnone q hq
          · rw [List.mem_singleton.mp hq]
            exact hp

/-- A process of the list that the loop hands on. -/
def IsChild (s : ProcessTable) (proc p : ProcessPtr) : Prop :=
  p ≠ proc ∧ s.ppid p = s.pid proc

instance : Decidable (s.IsChild proc p) := inferInstanceAs (Decidable (_ ∧ _))

/-- The table behind the loop that hands the children of `proc` on. -/
def adopt (s : ProcessTable) (l : List ProcessPtr) (proc : ProcessPtr)
    (init : Option ProcessPtr) : ProcessTable :=
  { s with process := fun p =>
      if p ∈ l ∧ s.IsChild proc p then
        { s.process p with ppid := if init.isSome then 1 else 0 }
      else s.process p }

section Adopt

variable {init : Option ProcessPtr}

@[simp]
theorem pid_adopt : (s.adopt l proc init).pid p = s.pid p := by
  rw [pid, adopt]
  dsimp only
  split_ifs <;> rfl

@[simp]
theorem zombie_adopt : (s.adopt l proc init).zombie p = s.zombie p := by
  rw [zombie, adopt]
  dsimp only
  split_ifs <;> rfl

@[simp]
theorem exitStatus_adopt : (s.adopt l proc init).exitStatus p = s.exitStatus p := by
  rw [exitStatus, adopt]
  dsimp only
  split_ifs <;> rfl

@[simp]
theorem childWq_adopt : (s.adopt l proc init).childWq p = s.childWq p := by
  rw [childWq, adopt]
  dsimp only
  split_ifs <;> rfl

theorem ppid_adopt : (s.adopt l proc init).ppid p =
    if p ∈ l ∧ s.IsChild proc p then if init.isSome then 1 else 0 else s.ppid p := by
  rw [ppid, adopt]
  dsimp only
  split_ifs <;> rfl

theorem isChild_adopt_of_notMem (hp : p ∉ l) :
    (s.adopt l proc init).IsChild proc p ↔ s.IsChild proc p := by
  rw [IsChild, IsChild, pid_adopt, ppid_adopt, if_neg (fun h => hp h.1)]

/-- Handing on one more process. -/
theorem reparentChild_adopt (hp : p ∉ l) (newZombie : Bool) :
    reparentChild proc init (s.adopt l proc init, newZombie) p =
      (s.adopt (l ++ [p]) proc init,
        newZombie || init.isSome && (decide (s.IsChild proc p) && s.zombie p)) := by
  have hchild : (s.adopt l proc init).IsChild proc p ↔ s.IsChild proc p :=
    isChild_adopt_of_notMem hp
  by_cases h : s.IsChild proc p
  · have hcond : ¬ (p = proc ∨
        (s.adopt l proc init).ppid p ≠ (s.adopt l proc init).pid proc) := by
      have h' := hchild.mpr h
      simp only [not_or, not_not]
      exact h'
    rw [reparentChild, if_neg hcond, zombie_adopt, decide_eq_true h, Bool.true_and]
    refine Prod.ext ?_ rfl
    simp only [setProcess, adopt, ProcessTable.mk.injEq, and_true]
    funext q
    by_cases hq : q = p
    · subst hq
      simp [h, hp]
    · simp [hq]
  · have hcond : p = proc ∨
        (s.adopt l proc init).ppid p ≠ (s.adopt l proc init).pid proc := by
      by_contra hnot
      simp only [not_or, not_not] at hnot
      exact h (hchild.mp hnot)
    rw [reparentChild, if_pos hcond, decide_eq_false h, Bool.false_and, Bool.and_false,
      Bool.or_false]
    refine Prod.ext ?_ rfl
    simp only [adopt, ProcessTable.mk.injEq, and_true]
    funext q
    by_cases hq : q = p
    · subst hq
      simp [h]
    · simp [hq]

theorem reparent_eq (h : IsList s.links.next s.links.head l) :
    s.reparent proc init = some (s.adopt l proc init,
      init.isSome && l.any fun p => decide (s.IsChild proc p) && s.zombie p) := by
  have hnext : ∀ (r : ProcessTable × Bool) p,
      (reparentChild proc init r p).1.links.next = r.1.links.next := by
    intro r p
    rw [reparentChild]
    split_ifs <;> rfl
  have hwalk := IsList.walk_eq (fun r : ProcessTable × Bool => r.1.links.next) hnext
    (s := (s, false)) h (length_lt_maxNodes h).le
  have hnodup := h.nodup
  rw [reparent, hwalk]
  clear hwalk h
  congr 1
  induction l using List.reverseRecOn with
  | nil => simp [adopt]
  | append_singleton l p ih =>
      obtain ⟨hl, -, hp⟩ := List.nodup_append'.mp hnodup
      have hpl : p ∉ l := fun hmem => hp hmem (by simp)
      rw [List.foldl_append, ih hl, List.foldl_cons, List.foldl_nil, reparentChild_adopt hpl]
      simp [Bool.and_or_distrib_left]

end Adopt

theorem freeAll_eq (l : List ProcessPtr) (reason : FreeReason) (s : ProcessTable) :
    s.freeAll l reason =
      { s with
        live := s.live \ {p | p ∈ l}
        freed := s.freed ++ l.map fun p => (s.pid p, reason) } := by
  induction l generalizing s with
  | nil =>
      have hlive : s.live \ {p | p ∈ ([] : List ProcessPtr)} = s.live := by
        ext q
        simp
      rw [hlive, List.map_nil, List.append_nil]
      rfl
  | cons p l ih =>
      have hcons : s.freeAll (p :: l) reason = (s.free p reason).freeAll l reason := rfl
      rw [hcons, ih]
      simp only [free, ProcessTable.mk.injEq, true_and]
      refine ⟨?_, by simp [pid]⟩
      ext q
      simp [not_or, and_assoc]

theorem sweep_eq (h : IsList s.links.next s.links.head l) (proc : ProcessPtr) :
    ∃ links : Links ProcessPtr, IsList links.next links.head
        (l.filter fun p => !s.isOrphanZombie proc p) ∧
      s.sweep proc = some
        { s with
          links := links
          live := s.live \ {p | p ∈ l.filter (s.isOrphanZombie proc)}
          freed := s.freed ++ (l.filter (s.isOrphanZombie proc)).map
            fun p => (s.pid p, .orphaned) } := by
  obtain ⟨links, hrun, hlist, -⟩ := Links.removeIf_eq (s.isOrphanZombie proc) (l := l)
    none [] h (fun _ _ => nofun) (length_lt_maxNodes h)
  refine ⟨links, hlist, ?_⟩
  rw [sweep, hrun, Option.map_some, List.nil_append]
  dsimp only
  rw [freeAll_eq]
  rfl

/-- What `process_terminate` does before it looks for the parent. -/
theorem handChildrenOn_eq (h : IsList s.links.next s.links.head l) (proc : ProcessPtr) :
    ∃ (init : Option ProcessPtr) (links : Links ProcessPtr) (orphans : List ProcessPtr),
      (∀ p, init = some p → p ∈ l ∧ s.IsInit proc p) ∧
      (init = none → ∀ p ∈ l, ¬ s.IsInit proc p) ∧
      orphans = l.filter ((s.adopt l proc init).isOrphanZombie proc) ∧
      IsList links.next links.head
        (l.filter fun p => !(s.adopt l proc init).isOrphanZombie proc p) ∧
      s.handChildrenOn proc = some
        ({ s.adopt l proc init with
            links := links
            live := s.live \ {p | p ∈ orphans}
            freed := s.freed ++ orphans.map fun p => (s.pid p, .orphaned) },
          if (l.any fun p => decide (s.IsChild proc p) && s.zombie p) then init.map s.childWq
          else none) := by
  obtain ⟨init, hinit, hsome, hnone⟩ := findInit_eq h proc
  have hadopt : IsList (s.adopt l proc init).links.next (s.adopt l proc init).links.head l := h
  obtain ⟨links, hlinks, hsweep⟩ := sweep_eq hadopt proc
  refine ⟨init, links, _, hsome, hnone, rfl, hlinks, ?_⟩
  simp only [handChildrenOn, hinit, reparent_eq h, hsweep, Option.bind_eq_bind, Option.bind_some,
    Option.pure_def, pid_adopt, Option.some.injEq, Prod.mk.injEq]
  refine ⟨rfl, ?_⟩
  cases init with
  | none => simp
  | some p =>
      simp only [Option.isSome_some, Bool.true_and, Option.map_some]
      congr 2
      exact childWq_adopt

theorem findParent_eq (h : IsList s.links.next s.links.head l) (proc : ProcessPtr) :
    ∃ parent, s.findParent proc = some parent ∧
      (∀ p, parent = some p → s.ppid proc ≠ 0 ∧ p ∈ l ∧ s.pid p = s.ppid proc ∧
        s.zombie p = false) ∧
      (parent = none → s.ppid proc = 0 ∨ ∀ p ∈ l, ¬ (s.pid p = s.ppid proc ∧
        s.zombie p = false)) := by
  rw [findParent]
  split_ifs with hppid
  · exact ⟨none, rfl, nofun, fun _ => Or.inl hppid⟩
  · refine ⟨_, h.findNode_eq (length_lt_maxNodes h).le, fun p hp => ?_, fun hnone => ?_⟩
    · have hmatch := List.find?_some hp
      simp only [decide_eq_true_eq] at hmatch
      exact ⟨hppid, List.mem_of_find?_eq_some hp, hmatch⟩
    · right
      intro p hp
      simpa using List.find?_eq_none.mp hnone p hp

theorem unlink_links (h : IsList s.links.next s.links.head l) (p : ProcessPtr) :
    ∃ links : Links ProcessPtr, Links.unlink p maxNodes s.links none = some links ∧
      IsList links.next links.head (l.erase p) := by
  obtain ⟨links, hrun, hlist, -⟩ := Links.unlink_eq p none (l := l) h
    (fun _ _ => nofun) (length_lt_maxNodes h)
  exact ⟨links, hrun, hlist⟩

/-- The loop of `process_wait_child` finds the first zombie among the matching
children. -/
theorem waitLoop_eq (parent : ProcessPtr) (pid : BitVec 32) (haveChild : Bool)
    {head : Option ProcessPtr} {fuel : ℕ} (h : IsList s.links.next head l) (hlen : l.length ≤ fuel) :
    s.waitLoop parent pid fuel haveChild head =
      some (haveChild || l.any (s.isMatch parent pid),
        l.find? fun p => s.isMatch parent pid p && s.zombie p) := by
  induction l generalizing head fuel haveChild with
  | nil =>
      rw [isList_nil] at h
      subst h
      cases fuel <;> simp [waitLoop]
  | cons p l ih =>
      obtain ⟨rfl, hrest⟩ := h
      cases fuel with
      | zero => simp at hlen
      | succ fuel =>
          have hlen := Nat.le_of_succ_le_succ hlen
          rw [waitLoop]
          split_ifs with hmatch hzombie
          · simp [hmatch, hzombie]
          · rw [ih _ hrest hlen]
            simp [hmatch, hzombie]
          · rw [ih _ hrest hlen]
            simp [hmatch]

/-- `process_wait_child` takes the first matching zombie out of the list and frees
it, or there is none and nothing changes. -/
theorem processWaitChild_cases (h : IsList s.links.next s.links.head l) (parent : ProcessPtr)
    (pid : BitVec 32) :
    (∃ p ∈ l, s.isMatch parent pid p = true ∧ s.zombie p = true ∧
      ∃ links : Links ProcessPtr, IsList links.next links.head (l.erase p) ∧
        s.processWaitChild parent pid = some (s.pid p, some (s.exitStatus p),
          { s with
            links := links
            live := s.live \ {p}
            freed := s.freed ++
              [(s.pid p, .reaped (s.pid parent) (s.pid p) (s.exitStatus p))] })) ∨
    ((∀ p ∈ l, s.isMatch parent pid p = true → s.zombie p = false) ∧
      s.processWaitChild parent pid =
        some (if l.any (s.isMatch parent pid) then 0 else -1, none, s)) := by
  have hloop := waitLoop_eq parent pid false h
    (length_lt_maxNodes h).le
  cases hfind : l.find? fun p => s.isMatch parent pid p && s.zombie p with
  | some p =>
      left
      have hp := List.find?_some hfind
      simp only [Bool.and_eq_true] at hp
      obtain ⟨links, hrun, hlist⟩ := unlink_links h p
      refine ⟨p, List.mem_of_find?_eq_some hfind, hp.1, hp.2, links, hlist, ?_⟩
      rw [processWaitChild, hloop, hfind]
      simp only [Option.bind_eq_bind, Option.bind_some, hrun]
      rfl
  | none =>
      right
      refine ⟨fun p hp hmatch => ?_, ?_⟩
      · have hnot := List.find?_eq_none.mp hfind p hp
        simpa [hmatch] using hnot
      · rw [processWaitChild, hloop, hfind, Bool.false_or]
        rfl

end ProcessTable

end Utopia
