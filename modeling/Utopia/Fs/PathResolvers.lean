/-
The two resolvers of paths, `vfs_lookup` and `tarfs_walk`: where they agree.
-/
import Utopia.Fs.TarfsTree
import Utopia.Fs.Vfs
import Mathlib.Data.List.Dedup
import Mathlib.Data.List.GetD
import Mathlib.Data.List.Nodup

namespace Utopia

/-- A path on which the resolvers agree: no component is `..` or longer than the token
buffer, and `.` comes before all others only. -/
def PlainPath (path : List Byte) : Prop :=
  (∀ c ∈ components slash path, c ≠ [dot, dot] ∧ c.length ≤ 127) ∧
    [dot] ∉ (components slash path).dropWhile (· = [dot])

namespace Tarfs

variable {s : Tarfs} {path : List Byte} {cur r : NodePtr} {comp : List Byte}

/-- `vfs_lookup` where the mount is the root. -/
def vfsLookup (s : Tarfs) (path : List Byte) : Option NodePtr :=
  Utopia.vfsLookup s.lookup (some root) path

theorem vfsLookup_eq (habs : path.head? = some slash) :
    s.vfsLookup path = (components slash path).foldlM (vfsStep s.lookup root) root := by
  rw [vfsLookup, Utopia.vfsLookup, if_pos habs, Option.bind_some, vfsLoop_eq _ _ _ le_rfl]

theorem WellFormed.walk_eq (h : s.WellFormed) (habs : path.head? = some slash) :
    s.walk root path =
      (components slash path).foldlM (s.walkStep (s.follow maxSymlinkDepth)) root := by
  rw [walk, walkWith, if_pos habs, h.top_root, Option.bind_some, foldComponents_eq, components]

theorem walkStep_eq_lookup (hdot : comp ≠ [dot]) (hdots : comp ≠ [dot, dot]) :
    s.walkStep (s.follow maxSymlinkDepth) cur comp = s.lookup cur comp := by
  rw [walkStep, if_neg hdot, if_neg hdots, lookup]

theorem walkStep_dot {follow : NodePtr → Option NodePtr} (h : (s.node cur).type = .dir) :
    s.walkStep follow cur [dot] = some cur := by
  rw [walkStep, if_neg (not_not.mpr h), if_pos rfl]

theorem walkStep_dots {follow : NodePtr → Option NodePtr} (h : (s.node cur).type = .dir) :
    s.walkStep follow cur [dot, dot] = some ((s.node cur).parent.getD cur) := by
  rw [walkStep, if_neg (not_not.mpr h), if_neg (by simp), if_pos rfl]

/-- Behind the leading `.` components both do the same steps. -/
theorem foldlM_walkStep_eq {cs : List (List Byte)} (hdot : [dot] ∉ cs)
    (hplain : ∀ c ∈ cs, c ≠ [dot, dot] ∧ c.length ≤ 127) (cur : NodePtr) :
    cs.foldlM (vfsStep s.lookup root) cur =
      cs.foldlM (s.walkStep (s.follow maxSymlinkDepth)) cur := by
  induction cs generalizing cur with
  | nil => rfl
  | cons c cs ih =>
      rw [List.mem_cons, not_or] at hdot
      obtain ⟨hdots, hlen⟩ := hplain c List.mem_cons_self
      rw [List.foldlM_cons, List.foldlM_cons, vfsStep, if_neg (Ne.symm hdot.1),
        walkStep_eq_lookup (Ne.symm hdot.1) hdots, List.take_of_length_le hlen]
      exact bind_congr fun next => ih hdot.2 (fun d hd => hplain d (List.mem_cons_of_mem _ hd)) next

theorem WellFormed.resolvers_agree (h : s.WellFormed) {cs : List (List Byte)}
    (hdot : [dot] ∉ cs.dropWhile (· = [dot]))
    (hplain : ∀ c ∈ cs, c ≠ [dot, dot] ∧ c.length ≤ 127) :
    cs.foldlM (vfsStep s.lookup root) root =
      cs.foldlM (s.walkStep (s.follow maxSymlinkDepth)) root := by
  induction cs with
  | nil => rfl
  | cons c cs ih =>
      by_cases hc : c = [dot]
      · subst hc
        rw [List.dropWhile_cons_of_pos (by simp)] at hdot
        rw [List.foldlM_cons, List.foldlM_cons, vfsStep, if_pos rfl, walkStep_dot h.root_type]
        exact ih hdot fun d hd => hplain d (List.mem_cons_of_mem _ hd)
      · rw [List.dropWhile_cons_of_neg (by simpa using hc)] at hdot
        exact foldlM_walkStep_eq hdot hplain root

/-! ### Trees that tell the resolvers apart -/

/-- A root with symlinks to itself. -/
def linkTree (names : List (List Byte)) : Tarfs where
  node n :=
    match n with
    | 0 => ⟨.dir, 0, [], none, (List.range names.length).map (· + 1), none, [], 0, false⟩
    | i + 1 => ⟨.file, 0, names.getD i [], some 0, [], none, [slash], i + 1, true⟩
  count := names.length + 1
  calls := names.length + 1
  granted _ := true

/-- Directories, each in the one before. -/
def chainTree (names : List (List Byte)) : Tarfs where
  node n :=
    { type := .dir
      size := 0
      name := if n = 0 then [] else names.getD (n - 1) []
      parent := if n = 0 then none else some (n - 1)
      children := if n < names.length then [n + 1] else []
      data := none
      linkTarget := []
      ino := n
      isSymlink := false }
  count := names.length + 1
  calls := names.length + 1
  granted _ := true

variable {names : List (List Byte)}

/-- Names that a node can have. -/
def NodeNames (names : List (List Byte)) : Prop :=
  ∀ c ∈ names, IsNodeName c

theorem NodeNames.getD (h : NodeNames names) {i : ℕ} (hi : i < names.length) :
    IsNodeName (names.getD i []) := by
  rw [List.getD_eq_getElem _ _ hi]
  exact h _ (List.getElem_mem hi)

theorem linkTree_wellFormed (h : NodeNames names) (hnodup : names.Nodup) :
    (linkTree names).WellFormed := by
  refine ⟨Nat.succ_pos _, rfl, rfl, fun n hn c hc => ?_, fun c hc hne => ?_, fun c hc hne => ?_,
    fun n hn c hc d hd hname => ?_⟩
  · cases n with
    | zero =>
        obtain ⟨i, hi, rfl⟩ := List.mem_map.mp hc
        exact ⟨Nat.succ_pos i, Nat.succ_lt_succ (List.mem_range.mp hi), rfl⟩
    | succ n => cases hc
  · obtain ⟨i, rfl⟩ := Nat.exists_eq_succ_of_ne_zero hne
    exact ⟨0, Nat.succ_pos _,
      List.mem_map.mpr ⟨i, List.mem_range.mpr (Nat.lt_of_succ_lt_succ hc), rfl⟩⟩
  · obtain ⟨i, rfl⟩ := Nat.exists_eq_succ_of_ne_zero hne
    exact h.getD (Nat.lt_of_succ_lt_succ hc)
  · cases n with
    | zero =>
        obtain ⟨i, hi, rfl⟩ := List.mem_map.mp hc
        obtain ⟨j, hj, rfl⟩ := List.mem_map.mp hd
        rw [List.mem_range] at hi hj
        have hname : names.getD i [] = names.getD j [] := hname
        rw [List.getD_eq_getElem _ _ hi, List.getD_eq_getElem _ _ hj] at hname
        rw [(List.Nodup.getElem_inj_iff hnodup).mp hname]
    | succ n => cases hc

theorem linkTree_lookup (names : List (List Byte)) (comp : List Byte) :
    (linkTree names).lookup 0 comp = if comp ∈ names then some 0 else none := by
  have hfollow : ∀ i, (linkTree names).follow maxSymlinkDepth (i + 1) = some 0 := by
    intro i
    rfl
  have hlookup : (linkTree names).lookup 0 comp =
      ((linkTree names).findChild 0 comp).bind ((linkTree names).follow maxSymlinkDepth) :=
    if_neg (not_not.mpr rfl)
  rw [hlookup]
  cases hfind : (linkTree names).findChild 0 comp with
  | none =>
      have hnone := findChild_eq_none.mp hfind
      rw [if_neg]
      · rfl
      · intro hmem
        obtain ⟨i, hi, rfl⟩ := List.mem_iff_getElem.mp hmem
        refine hnone (i + 1) (List.mem_map.mpr ⟨i, List.mem_range.mpr hi, rfl⟩) ?_
        exact List.getD_eq_getElem _ _ hi
  | some n =>
      obtain ⟨hmem, hname⟩ := mem_of_findChild hfind
      obtain ⟨i, hi, rfl⟩ := List.mem_map.mp hmem
      have hname : names.getD i [] = comp := hname
      rw [List.getD_eq_getElem _ _ (List.mem_range.mp hi)] at hname
      rw [if_pos (hname ▸ List.getElem_mem _)]
      exact hfollow i

theorem mem_chainTree_children {n c : NodePtr} :
    c ∈ ((chainTree names).node n).children ↔ n < names.length ∧ c = n + 1 := by
  have hdef : ((chainTree names).node n).children = if n < names.length then [n + 1] else [] := rfl
  rw [hdef]
  split_ifs with h <;> simp [h]

theorem chainTree_wellFormed (h : NodeNames names) : (chainTree names).WellFormed := by
  refine ⟨Nat.succ_pos _, rfl, rfl, fun n hn c hc => ?_, fun c hc hne => ?_, fun c hc hne => ?_,
    fun n hn c hc d hd hname => ?_⟩
  · obtain ⟨hlt, rfl⟩ := mem_chainTree_children.mp hc
    exact ⟨Nat.lt_succ_self n, Nat.succ_lt_succ hlt, rfl⟩
  · obtain ⟨i, rfl⟩ := Nat.exists_eq_succ_of_ne_zero hne
    exact ⟨i, Nat.lt_of_succ_lt hc, mem_chainTree_children.mpr ⟨Nat.lt_of_succ_lt_succ hc, rfl⟩⟩
  · obtain ⟨i, rfl⟩ := Nat.exists_eq_succ_of_ne_zero hne
    exact h.getD (Nat.lt_of_succ_lt_succ hc)
  · rw [(mem_chainTree_children.mp hc).2, (mem_chainTree_children.mp hd).2]

/-- The only way in the chain is down. -/
theorem chainTree_lookup (names : List (List Byte)) (n : NodePtr) (comp : List Byte) :
    (chainTree names).lookup n comp = if names[n]? = some comp then some (n + 1) else none := by
  have hlookup : (chainTree names).lookup n comp =
      ((chainTree names).findChild n comp).bind ((chainTree names).follow maxSymlinkDepth) :=
    if_neg (not_not.mpr rfl)
  rw [hlookup]
  cases hfind : (chainTree names).findChild n comp with
  | none =>
      have hnone := findChild_eq_none.mp hfind
      rw [if_neg]
      · rfl
      · intro hcomp
        obtain ⟨hlt, rfl⟩ := List.getElem?_eq_some_iff.mp hcomp
        exact hnone (n + 1) (mem_chainTree_children.mpr ⟨hlt, rfl⟩) (List.getD_eq_getElem _ _ hlt)
  | some c =>
      obtain ⟨hmem, hname⟩ := mem_of_findChild hfind
      obtain ⟨hlt, rfl⟩ := mem_chainTree_children.mp hmem
      have hname : names.getD n [] = comp := hname
      rw [List.getD_eq_getElem _ _ hlt] at hname
      rw [List.getElem?_eq_getElem hlt, hname, if_pos rfl]
      rfl

/-! ### Paths on which the resolvers differ -/

/-- `tarfs_walk` leads through all directories of the chain. -/
theorem chainTree_walk {cs : List (List Byte)} (hdots : ∀ c ∈ cs, c ≠ [dot, dot]) (n : NodePtr)
    (hnames : names.drop n = cs.filter (· ≠ [dot])) :
    cs.foldlM ((chainTree names).walkStep ((chainTree names).follow maxSymlinkDepth)) n =
      some (n + (cs.filter (· ≠ [dot])).length) := by
  induction cs generalizing n with
  | nil => rfl
  | cons c cs ih =>
      have hrest := fun d hd => hdots d (List.mem_cons_of_mem c hd)
      rw [List.foldlM_cons]
      by_cases hc : c = [dot]
      · have hfilter : (c :: cs).filter (· ≠ [dot]) = cs.filter (· ≠ [dot]) :=
          List.filter_cons_of_neg (by simpa using hc)
        rw [hfilter] at hnames ⊢
        subst hc
        rw [walkStep_dot rfl]
        exact ih hrest n hnames
      · have hfilter : (c :: cs).filter (· ≠ [dot]) = c :: cs.filter (· ≠ [dot]) :=
          List.filter_cons_of_pos (by simpa using hc)
        rw [hfilter] at hnames ⊢
        have hn : names[n]? = some c := by
          rw [← List.head?_drop, hnames, List.head?_cons]
        have hdrop : names.drop (n + 1) = cs.filter (· ≠ [dot]) := by
          rw [← List.tail_drop, hnames, List.tail_cons]
        rw [walkStep_eq_lookup hc (hdots c List.mem_cons_self), chainTree_lookup, if_pos hn]
        refine (ih hrest (n + 1) hdrop).trans ?_
        exact congrArg some (Nat.succ_add_eq_add_succ n _)

/-- `vfs_lookup` comes no further than there are components behind the last `.`. -/
theorem chainTree_vfs_le {cs : List (List Byte)} {n r : ℕ}
    (h : cs.foldlM (vfsStep (chainTree names).lookup root) n = some r) :
    r ≤ n + (cs.filter (· ≠ [dot])).length := by
  induction cs generalizing n with
  | nil =>
      obtain rfl := Option.some.inj h
      exact Nat.le_add_right _ _
  | cons c cs ih =>
      rw [List.foldlM_cons] at h
      by_cases hc : c = [dot]
      · rw [vfsStep, if_pos hc] at h
        have hle := ih h
        rw [List.filter_cons_of_neg (by simpa using hc)]
        exact le_trans hle (Nat.add_le_add_right (Nat.zero_le n) _)
      · rw [vfsStep, if_neg hc, chainTree_lookup] at h
        rw [List.filter_cons_of_pos (by simpa using hc), List.length_cons]
        split_ifs at h
        · have hle := ih h
          omega
        · cases h

theorem chainTree_vfs_lt {c : List Byte} {cs : List (List Byte)} {n r : ℕ} (hc : c ≠ [dot])
    (hdot : [dot] ∈ cs)
    (h : (c :: cs).foldlM (vfsStep (chainTree names).lookup root) n = some r) :
    r < ((c :: cs).filter (· ≠ [dot])).length := by
  obtain ⟨before, after, rfl⟩ := List.append_of_mem hdot
  rw [← List.cons_append, List.foldlM_append] at h
  obtain ⟨m, -, h⟩ := Option.bind_eq_some_iff.mp h
  rw [List.foldlM_cons, vfsStep, if_pos rfl] at h
  have hle := chainTree_vfs_le h
  rw [List.filter_cons_of_pos (by simpa using hc), List.length_cons, List.filter_append,
    List.length_append, List.filter_cons_of_neg (by simp)]
  simp only [root] at hle
  omega

theorem chainTree_vfs_lt_of_dropWhile {cs : List (List Byte)} {r : ℕ}
    (hdot : [dot] ∈ cs.dropWhile (· = [dot]))
    (h : cs.foldlM (vfsStep (chainTree names).lookup root) root = some r) :
    r < (cs.filter (· ≠ [dot])).length := by
  induction cs with
  | nil => cases hdot
  | cons c cs ih =>
      by_cases hc : c = [dot]
      · subst hc
        rw [List.dropWhile_cons_of_pos (by simp)] at hdot
        rw [List.foldlM_cons, vfsStep, if_pos rfl] at h
        rw [List.filter_cons_of_neg (by simp)]
        exact ih hdot h
      · rw [List.dropWhile_cons_of_neg (by simpa using hc)] at hdot
        exact chainTree_vfs_lt hc ((List.mem_cons.mp hdot).resolve_left (Ne.symm hc)) h

/-- A loop that stays where it is until a component stops it. -/
theorem foldlM_stay {f : NodePtr → List Byte → Option NodePtr} {P : List Byte → Prop}
    [DecidablePred P] (h : ∀ c, f cur c = if P c then some cur else none)
    (cs : List (List Byte)) : cs.foldlM f cur = if ∀ c ∈ cs, P c then some cur else none := by
  induction cs with
  | nil => simp
  | cons c cs ih =>
      rw [List.foldlM_cons, h]
      by_cases hc : P c
      · rw [if_pos hc]
        refine ih.trans (if_congr ?_ rfl rfl)
        rw [List.forall_mem_cons]
        exact (and_iff_right hc).symm
      · rw [if_neg hc, if_neg fun hall => hc (hall c List.mem_cons_self)]
        rfl

theorem linkTree_vfs (cs : List (List Byte)) :
    cs.foldlM (vfsStep (linkTree names).lookup root) root =
      if ∀ c ∈ cs, c = [dot] ∨ c.take 127 ∈ names then some root else none := by
  refine foldlM_stay (fun c => ?_) cs
  rw [vfsStep, root, linkTree_lookup]
  by_cases hc : c = [dot] <;> simp [hc]

theorem linkTree_walk (cs : List (List Byte)) :
    cs.foldlM ((linkTree names).walkStep ((linkTree names).follow maxSymlinkDepth)) root =
      if ∀ c ∈ cs, c = [dot] ∨ c = [dot, dot] ∨ c ∈ names then some root else none := by
  refine foldlM_stay (fun c => ?_) cs
  by_cases hdot : c = [dot]
  · rw [hdot, walkStep_dot rfl, if_pos (Or.inl rfl)]
  · by_cases hdots : c = [dot, dot]
    · rw [hdots, walkStep_dots rfl, if_pos (Or.inr (Or.inl rfl))]
      rfl
    · rw [walkStep_eq_lookup hdot hdots, root, linkTree_lookup]
      simp [hdot, hdots]

/-- The names that `vfs_lookup` looks up. -/
theorem nodeNames_tokens (hnul : 0 ∉ path) (keep : List Byte → Bool) :
    NodeNames ((((components slash path).filter keep).map (List.take 127)).dedup) := by
  intro c hc
  obtain ⟨d, hd, rfl⟩ := List.mem_map.mp (List.mem_dedup.mp hc)
  have hmem := List.mem_of_mem_filter hd
  have hcomp := isComponent_components hmem
  refine ⟨⟨fun h => hcomp.1 (by simpa using h), fun h => hcomp.2 (List.mem_of_mem_take h)⟩,
    fun h => hnul ((isInfix_of_mem_components hmem).subset (List.mem_of_mem_take h)), by simp⟩

/-- A component too long for the token buffer finds the node whose name is its start. -/
theorem differ_of_long (habs : path.head? = some slash) (hnul : 0 ∉ path)
    (hlong : ∃ c ∈ components slash path, 127 < c.length) :
    ∃ s : Tarfs, s.WellFormed ∧ s.vfsLookup path ≠ s.walk root path := by
  obtain ⟨c, hc, hlen⟩ := hlong
  have hwf := linkTree_wellFormed (nodeNames_tokens hnul fun _ => true) (List.nodup_dedup _)
  refine ⟨_, hwf, ?_⟩
  rw [vfsLookup_eq habs, hwf.walk_eq habs, linkTree_vfs, linkTree_walk, if_pos, if_neg]
  · simp
  · intro hall
    rcases hall c hc with rfl | rfl | hmem
    · simp at hlen
    · simp at hlen
    · obtain ⟨d, -, rfl⟩ := List.mem_map.mp (List.mem_dedup.mp hmem)
      simp at hlen
  · intro d hd
    exact Or.inr (List.mem_dedup.mpr (List.mem_map_of_mem (List.mem_filter.mpr ⟨hd, rfl⟩)))

/-- `vfs_lookup` looks for a node with the name `..`. -/
theorem differ_of_dots (habs : path.head? = some slash) (hnul : 0 ∉ path)
    (hshort : ∀ c ∈ components slash path, c.length ≤ 127)
    (hdots : [dot, dot] ∈ components slash path) :
    ∃ s : Tarfs, s.WellFormed ∧ s.vfsLookup path ≠ s.walk root path := by
  have hwf := linkTree_wellFormed (nodeNames_tokens hnul fun c => c ≠ [dot, dot])
    (List.nodup_dedup _)
  refine ⟨_, hwf, ?_⟩
  rw [vfsLookup_eq habs, hwf.walk_eq habs, linkTree_vfs, linkTree_walk, if_neg, if_pos]
  · simp
  · intro c hc
    refine Or.inr ((em (c = [dot, dot])).imp_right fun hne => ?_)
    refine List.mem_dedup.mpr (List.mem_map.mpr ⟨c, List.mem_filter.mpr ⟨hc, by simpa using hne⟩, ?_⟩)
    exact List.take_of_length_le (hshort c hc)
  · intro hall
    rcases hall _ hdots with hdot | hmem
    · simp at hdot
    · obtain ⟨d, hd, hd'⟩ := List.mem_map.mp (List.mem_dedup.mp hmem)
      have hd := List.mem_filter.mp hd
      rw [List.take_of_length_le (hshort d hd.1)] at hd'
      simp [hd'] at hd

/-- Behind another component, `vfs_lookup` goes back to the root at a `.`. -/
theorem differ_of_dot (habs : path.head? = some slash) (hnul : 0 ∉ path)
    (hplain : ∀ c ∈ components slash path, c ≠ [dot, dot] ∧ c.length ≤ 127)
    (hdot : [dot] ∈ (components slash path).dropWhile (· = [dot])) :
    ∃ s : Tarfs, s.WellFormed ∧ s.vfsLookup path ≠ s.walk root path := by
  have hnames : NodeNames ((components slash path).filter (· ≠ [dot])) := by
    intro c hc
    have hmem := List.mem_of_mem_filter hc
    exact ⟨isComponent_components hmem, fun h => hnul ((isInfix_of_mem_components hmem).subset h),
      le_trans (hplain c hmem).2 (by decide)⟩
  have hwf := chainTree_wellFormed hnames
  refine ⟨_, hwf, ?_⟩
  rw [vfsLookup_eq habs, hwf.walk_eq habs,
    chainTree_walk (fun c hc => (hplain c hc).1) root List.drop_zero]
  intro hsame
  have hlt := chainTree_vfs_lt_of_dropWhile hdot hsame
  rw [root, Nat.zero_add] at hlt
  exact Nat.lt_irrefl _ hlt

/-! ### Trees in which the resolvers agree -/

/-- The components lead the same way in this tree: as far as `tarfs_walk` comes, `.` is met at
the root only, a directory with `..` in the way has an entry of that name that leads to its
parent, and what the token buffer holds of a component leads where the component does. -/
def SameWay (s : Tarfs) : NodePtr → List (List Byte) → Prop
  | _, [] => True
  | cur, c :: cs =>
      (if c = [dot] then cur = root
        else if c = [dot, dot] then
          (s.node cur).type = .dir → s.lookup cur c = some ((s.node cur).parent.getD cur)
        else s.lookup cur (c.take 127) = s.lookup cur c) ∧
      ∀ next, s.walkStep (s.follow maxSymlinkDepth) cur c = some next → s.SameWay next cs

theorem lookup_of_not_dir (h : (s.node cur).type ≠ .dir) (comp : List Byte) :
    s.lookup cur comp = none := by
  rw [lookup, if_pos h]

/-- What the condition says of a component is that the loops make the same step. -/
theorem WellFormed.step_eq_iff (h : s.WellFormed) (cur : NodePtr) (comp : List Byte) :
    (if comp = [dot] then cur = root
      else if comp = [dot, dot] then
        (s.node cur).type = .dir → s.lookup cur comp = some ((s.node cur).parent.getD cur)
      else s.lookup cur (comp.take 127) = s.lookup cur comp) ↔
      vfsStep s.lookup root cur comp = s.walkStep (s.follow maxSymlinkDepth) cur comp := by
  by_cases hdot : comp = [dot]
  · rw [if_pos hdot, vfsStep, if_pos hdot, hdot]
    by_cases hdir : (s.node cur).type = .dir
    · rw [walkStep_dot hdir, Option.some.injEq, eq_comm]
    · have hroot : cur ≠ root := fun heq => hdir (heq ▸ h.root_type)
      rw [walkStep, if_pos hdir]
      exact iff_of_false hroot (by simp)
  · rw [if_neg hdot, vfsStep, if_neg hdot]
    by_cases hdots : comp = [dot, dot]
    · have hshort : comp.take 127 = comp := List.take_of_length_le (by rw [hdots]; decide)
      rw [if_pos hdots, hshort, hdots]
      by_cases hdir : (s.node cur).type = .dir
      · rw [walkStep_dots hdir, imp_iff_right hdir]
      · rw [lookup_of_not_dir hdir, walkStep, if_pos hdir]
        exact iff_of_true (fun hd => absurd hd hdir) rfl
    · rw [if_neg hdots, walkStep_eq_lookup hdot hdots]

/-- The loops come to the same node behind every component, if and only if these lead the same
way. -/
theorem WellFormed.sameWay_iff (h : s.WellFormed) {cs : List (List Byte)} (cur : NodePtr) :
    s.SameWay cur cs ↔ ∀ q, q <+: cs → q.foldlM (vfsStep s.lookup root) cur =
      q.foldlM (s.walkStep (s.follow maxSymlinkDepth)) cur := by
  induction cs generalizing cur with
  | nil =>
      refine iff_of_true trivial fun q hq => ?_
      rw [List.prefix_nil.mp hq]
      rfl
  | cons c cs ih =>
      rw [SameWay, h.step_eq_iff]
      constructor
      · rintro ⟨hstep, hrest⟩ q hq
        cases q with
        | nil => rfl
        | cons d q =>
            obtain ⟨rfl, hq'⟩ := List.cons_prefix_cons.mp hq
            rw [List.foldlM_cons, List.foldlM_cons, hstep]
            cases hnext : s.walkStep (s.follow maxSymlinkDepth) cur d with
            | none => rfl
            | some next => exact (ih next).mp (hrest next hnext) q hq'
      · intro hall
        have hstep : vfsStep s.lookup root cur c =
            s.walkStep (s.follow maxSymlinkDepth) cur c := by
          have hone := hall [c] (List.cons_prefix_cons.mpr ⟨rfl, List.nil_prefix⟩)
          simpa using hone
        refine ⟨hstep, fun next hnext => (ih next).mpr fun q hq => ?_⟩
        have hmore := hall (c :: q) (List.cons_prefix_cons.mpr ⟨rfl, hq⟩)
        rwa [List.foldlM_cons, List.foldlM_cons, hstep, hnext] at hmore

/-- The path with the first components of another. -/
theorem exists_path_of_prefix {q : List (List Byte)} (hq : q <+: components slash path) :
    ∃ p : List Byte, p.head? = some slash ∧ components slash p = q := by
  refine ⟨slash :: [slash].intercalate q, rfl, ?_⟩
  rw [components_sep]
  exact components_intercalate fun c hc => isComponent_components (hq.subset hc)

/-- In a tree, the resolvers agree on a path and on all that it begins with, if and only if its
components lead the same way.  They agree on a path in every tree, if and only if the path is
plain. -/
theorem vfsLookup_eq_walk_iff (habs : path.head? = some slash) (hnul : 0 ∉ path) :
    (∀ s : Tarfs, s.WellFormed →
      ((∀ p : List Byte, p.head? = some slash →
          components slash p <+: components slash path → s.vfsLookup p = s.walk root p) ↔
        s.SameWay root (components slash path))) ∧
      ((∀ s : Tarfs, s.WellFormed → s.vfsLookup path = s.walk root path) ↔ PlainPath path) := by
  refine ⟨fun s hwf => ?_, fun hall => ?_, ?_⟩
  · rw [hwf.sameWay_iff]
    constructor
    · intro hall q hq
      obtain ⟨p, hp, rfl⟩ := exists_path_of_prefix hq
      have hsame := hall p hp hq
      rwa [vfsLookup_eq hp, hwf.walk_eq hp] at hsame
    · intro hall p hp hq
      rw [vfsLookup_eq hp, hwf.walk_eq hp]
      exact hall _ hq
  · have hsame : ¬ ∃ s : Tarfs, s.WellFormed ∧ s.vfsLookup path ≠ s.walk root path := by
      rintro ⟨s, hwf, hne⟩
      exact hne (hall s hwf)
    have hshort : ∀ c ∈ components slash path, c.length ≤ 127 := by
      intro c hc
      by_contra hlong
      exact hsame (differ_of_long habs hnul ⟨c, hc, not_le.mp hlong⟩)
    have hplain : ∀ c ∈ components slash path, c ≠ [dot, dot] ∧ c.length ≤ 127 := by
      refine fun c hc => ⟨?_, hshort c hc⟩
      rintro rfl
      exact hsame (differ_of_dots habs hnul hshort hc)
    exact ⟨hplain, fun hdot => hsame (differ_of_dot habs hnul hplain hdot)⟩
  · rintro ⟨hplain, hdot⟩ s hwf
    rw [vfsLookup_eq habs, hwf.walk_eq habs]
    exact hwf.resolvers_agree hdot hplain

/-- On the path `/./a` they agree, and on `/a/.` where there is no `a`. -/
theorem vfsLookup_eq_walk_iff_plain :
    (PlainPath [slash, dot, slash, 0x61] ∧ ∀ s : Tarfs, s.WellFormed →
      s.vfsLookup [slash, dot, slash, 0x61] = s.walk root [slash, dot, slash, 0x61]) ∧
    ¬ PlainPath [slash, 0x61, slash, dot] ∧
    (chainTree []).SameWay root [[0x61], [dot]] ∧
    (chainTree []).vfsLookup [slash, 0x61, slash, dot] =
      (chainTree []).walk root [slash, 0x61, slash, dot] := by
  have hplain : PlainPath [slash, dot, slash, 0x61] := by
    unfold PlainPath
    decide
  have hnot : ¬ PlainPath [slash, 0x61, slash, dot] := by
    unfold PlainPath
    decide
  have hwf : (chainTree []).WellFormed := chainTree_wellFormed (by unfold NodeNames; simp)
  have hway : (chainTree []).SameWay root [[0x61], [dot]] := by
    refine ⟨rfl, fun next hnext => ?_⟩
    have hnone : (chainTree []).walkStep ((chainTree []).follow maxSymlinkDepth) root [0x61] =
        none := by decide
    rw [hnone] at hnext
    cases hnext
  exact ⟨⟨hplain, (vfsLookup_eq_walk_iff rfl (by decide)).2.mpr hplain⟩, hnot, hway,
    ((@vfsLookup_eq_walk_iff [slash, 0x61, slash, dot] rfl (by decide)).1 _ hwf).mpr hway
      _ rfl List.prefix_rfl⟩

/-- On the path `/a/.`, where `a` is a directory, `vfs_lookup` returns the root. -/
theorem vfsLookup_ne_walk :
    (chainTree [[0x61]]).WellFormed ∧
      (chainTree [[0x61]]).vfsLookup [slash, 0x61, slash, dot] = some root ∧
      (chainTree [[0x61]]).walk root [slash, 0x61, slash, dot] = some 1 :=
  ⟨chainTree_wellFormed (by unfold NodeNames IsNodeName IsComponent; decide), by decide, by decide⟩

end Tarfs

end Utopia
