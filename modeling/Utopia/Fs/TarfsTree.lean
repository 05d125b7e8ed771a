/-
The tree of nodes of a tarfs mount, and what a new node changes in it.
-/
import Utopia.Fs.Tarfs

namespace Utopia

namespace Tarfs

variable {s s' : Tarfs} {n p : NodePtr} {comp : List Byte}

/-- A name as nodes have it. -/
def IsNodeName (c : List Byte) : Prop := IsComponent slash c ∧ 0 ∉ c ∧ c.length ≤ 255

/-- Children and parents belong together, and siblings have different names. -/
structure WellFormed (s : Tarfs) : Prop where
  root_lt : root < s.count
  root_type : (s.node root).type = .dir
  root_parent : (s.node root).parent = none
  children : ∀ n < s.count, ∀ c ∈ (s.node n).children, n < c ∧ c < s.count ∧
    (s.node c).parent = some n
  parent : ∀ c < s.count, c ≠ root → ∃ n < s.count, c ∈ (s.node n).children
  names : ∀ c < s.count, c ≠ root → IsNodeName (s.node c).name
  siblings : ∀ n < s.count, ∀ c ∈ (s.node n).children, ∀ d ∈ (s.node n).children,
    (s.node c).name = (s.node d).name → c = d

theorem WellFormed.top_root (h : s.WellFormed) (fuel : ℕ) : s.top fuel root = some root := by
  cases fuel <;> simp [top, h.root_parent]

theorem mem_of_findChild (h : s.findChild p comp = some n) :
    n ∈ (s.node p).children ∧ (s.node n).name = comp := by
  have hname := List.find?_some h
  exact ⟨List.mem_of_find?_eq_some h, by simpa using hname⟩

theorem findChild_eq_none : s.findChild p comp = none ↔
    ∀ n ∈ (s.node p).children, (s.node n).name ≠ comp := by
  simp [findChild, List.find?_eq_none]

theorem WellFormed.findChild_eq_some (h : s.WellFormed) (hp : p < s.count)
    (hn : n ∈ (s.node p).children) : s.findChild p (s.node n).name = some n := by
  cases hfind : s.findChild p (s.node n).name with
  | none => exact absurd rfl (findChild_eq_none.mp hfind n hn)
  | some c =>
      obtain ⟨hc, hname⟩ := mem_of_findChild hfind
      rw [h.siblings p hp c hc n hn hname]

/-! ### A new node -/

/-- The state with the new node `v` under `p`. -/
def attach (s : Tarfs) (p : NodePtr) (v : TarfsNode) : Tarfs :=
  { s with
    node := Function.update
      (Function.update s.node p { s.node p with children := s.count :: (s.node p).children })
      s.count { v with parent := some p }
    count := s.count + 1
    calls := s.calls + 1 }

/-- `tarfs_create_node`, what its caller does with the node, and `tarfs_add_child`. -/
theorem addChild_createNode {v w : TarfsNode} (hp : p < s.count) :
    (({ s.setNode s.count v with count := s.count + 1, calls := s.calls + 1 } : Tarfs).setNode
      s.count w).addChild p s.count = s.attach p w := by
  have hne : p ≠ s.count := hp.ne
  simp only [addChild, setNode, attach, Function.update_idem, Function.update_of_ne hne,
    Function.update_of_ne hne.symm, Function.update_self]
  congr 1
  funext n
  by_cases hn : n = s.count
  · subst hn
    simp
  · by_cases hnp : n = p
    · subst hnp
      simp [hn]
    · simp [hn, hnp]

section Attach

variable {v : TarfsNode}

theorem node_attach_new : (s.attach p v).node s.count = { v with parent := some p } :=
  Function.update_self _ _ _

theorem node_attach_parent (hp : p < s.count) :
    (s.attach p v).node p = { s.node p with children := s.count :: (s.node p).children } :=
  (Function.update_of_ne hp.ne _ _).trans (Function.update_self _ _ _)

theorem node_attach_of_ne (hn : n < s.count) (hnp : n ≠ p) : (s.attach p v).node n = s.node n :=
  (Function.update_of_ne hn.ne _ _).trans (Function.update_of_ne hnp _ _)

/-- Nodes keep everything but the list of children. -/
theorem field_attach {β : Type*} (f : TarfsNode → β) (hp : p < s.count) (hn : n < s.count)
    (hf : ∀ w l, f { w with children := l } = f w) :
    f ((s.attach p v).node n) = f (s.node n) := by
  by_cases hnp : n = p
  · subst hnp
    rw [node_attach_parent hp, hf]
  · rw [node_attach_of_ne hn hnp]

theorem name_attach (hp : p < s.count) (hn : n < s.count) :
    ((s.attach p v).node n).name = (s.node n).name :=
  field_attach TarfsNode.name hp hn fun _ _ => rfl

theorem mem_children_attach (hp : p < s.count) (hn : n < s.count) {c : NodePtr} :
    c ∈ ((s.attach p v).node n).children ↔ c ∈ (s.node n).children ∨ (n = p ∧ c = s.count) := by
  by_cases hnp : n = p
  · subst hnp
    rw [node_attach_parent hp, List.mem_cons]
    tauto
  · rw [node_attach_of_ne hn hnp]
    tauto

theorem WellFormed.attach (h : s.WellFormed) (hp : p < s.count)
    (hname : IsNodeName v.name)
    (hnew : s.findChild p v.name = none) (hchildren : v.children = []) :
    (s.attach p v).WellFormed := by
  have hnewName : ((s.attach p v).node s.count).name = v.name := by rw [node_attach_new]
  have hnewChildren : ((s.attach p v).node s.count).children = [] := by
    rw [node_attach_new]
    exact hchildren
  have hlt : ∀ n, n < (s.attach p v).count → n ≠ s.count → n < s.count := fun n hn hne =>
    lt_of_le_of_ne (Nat.le_of_lt_succ hn) hne
  refine ⟨Nat.lt_succ_of_lt h.root_lt, ?_, ?_, fun n hn c hc => ?_, fun c hc hne => ?_,
    fun c hc hne => ?_, fun n hn c hc d hd hsame => ?_⟩
  · exact (field_attach TarfsNode.type hp h.root_lt fun _ _ => rfl).trans h.root_type
  · exact (field_attach TarfsNode.parent hp h.root_lt fun _ _ => rfl).trans h.root_parent
  · by_cases hnc : n = s.count
    · rw [hnc, hnewChildren] at hc
      cases hc
    · have hold := hlt n hn hnc
      rcases (mem_children_attach hp hold).mp hc with hc | ⟨rfl, rfl⟩
      · obtain ⟨hlow, hhigh, hparent⟩ := h.children n hold c hc
        exact ⟨hlow, Nat.lt_succ_of_lt hhigh,
          (field_attach TarfsNode.parent hp hhigh fun _ _ => rfl).trans hparent⟩
      · refine ⟨hold, Nat.lt_succ_self _, ?_⟩
        rw [node_attach_new]
  · by_cases hcc : c = s.count
    · exact ⟨p, Nat.lt_succ_of_lt hp, (mem_children_attach hp hp).mpr (Or.inr ⟨rfl, hcc⟩)⟩
    · obtain ⟨n, hn, hmem⟩ := h.parent c (hlt c hc hcc) hne
      exact ⟨n, Nat.lt_succ_of_lt hn, (mem_children_attach hp hn).mpr (Or.inl hmem)⟩
  · by_cases hcc : c = s.count
    · rw [hcc, hnewName]
      exact hname
    · rw [name_attach hp (hlt c hc hcc)]
      exact h.names c (hlt c hc hcc) hne
  · by_cases hnc : n = s.count
    · rw [hnc, hnewChildren] at hc
      cases hc
    · have hold := hlt n hn hnc
      have hfresh : ∀ e ∈ (s.node n).children, n = p →
          ((s.attach p v).node e).name ≠ v.name := by
        rintro e he rfl
        rw [name_attach hp (h.children n hold e he).2.1]
        exact findChild_eq_none.mp hnew e he
      rcases (mem_children_attach hp hold).mp hc with hc | ⟨hnp, rfl⟩ <;>
        rcases (mem_children_attach hp hold).mp hd with hd | ⟨hnp', rfl⟩
      · rw [name_attach hp (h.children n hold c hc).2.1,
          name_attach hp (h.children n hold d hd).2.1] at hsame
        exact h.siblings n hold c hc d hd hsame
      · exact absurd (hsame.trans hnewName) (hfresh c hc hnp')
      · exact absurd (hsame.symm.trans hnewName) (hfresh d hd hnp)
      · rfl

end Attach

/-! ### What the parser does to the tree -/

theorem cString_append_zero (c rest : List Byte) : cString (c ++ 0 :: rest) = cString c := by
  induction c with
  | nil => rfl
  | cons x c ih =>
      rw [cString] at ih ⊢
      rw [List.cons_append, List.takeWhile_cons, cString, List.takeWhile_cons, ih, cString]

theorem cString_eq_self {c : List Byte} (h : 0 ∉ c) : cString c = c := by
  rw [cString, List.takeWhile_eq_self_iff]
  intro b hb
  simp only [ne_eq, decide_eq_true_eq]
  rintro rfl
  exact h hb

theorem zero_notMem_cString (c : List Byte) : 0 ∉ cString c := fun h => by
  simpa using List.mem_takeWhile_imp h

theorem name_newNode {c : List Byte} (h : IsNodeName c) (type : VnodeType) :
    (s.newNode c type).name = c := by
  rw [newNode, List.take_of_length_le h.2.2, cString_eq_self h.2.1]

/-- A call of `malloc` that fails. -/
def failCall (s : Tarfs) : Tarfs := { s with calls := s.calls + 1 }

theorem WellFormed.failCall (h : s.WellFormed) : s.failCall.WellFormed :=
  ⟨h.root_lt, h.root_type, h.root_parent, h.children, h.parent, h.names, h.siblings⟩

/-- A round of `tarfs_resolve_dir_path` finds a child or makes one. -/
theorem resolveStep_cases (hp : p < s.count) (comp : List Byte) :
    (∃ n, s.findChild p comp = some n ∧ resolveStep (s, p) comp = .ok (s, n)) ∨
      (s.findChild p comp = none ∧ s.granted s.calls = true ∧
        resolveStep (s, p) comp = .ok (s.attach p (s.newNode comp .dir), s.count)) ∨
      (s.findChild p comp = none ∧ s.granted s.calls = false ∧
        resolveStep (s, p) comp = .error s.failCall) := by
  rw [resolveStep]
  cases hfind : s.findChild p comp with
  | some n => exact Or.inl ⟨n, rfl, rfl⟩
  | none =>
      right
      dsimp only
      rw [createNode]
      cases hgranted : s.granted s.calls with
      | true =>
          left
          refine ⟨rfl, rfl, ?_⟩
          rw [← addChild_createNode hp (v := s.newNode comp .dir)]
          simp [setNode]
      | false => exact Or.inr ⟨rfl, rfl, rfl⟩

/-- The node that `tarfs_add_entry` makes of a header, if any. -/
def entryValue (s : Tarfs) (base : List Byte) (hdr : TarHeader) (data : ℕ) (size : Word) :
    Option TarfsNode :=
  if hdr.typeflag = 0x35 then some (s.newNode base .dir)
  else if hdr.typeflag = 0x32 then some { s.newNode base .file with
    isSymlink := true
    linkTarget := (cString hdr.linkname).take 255 }
  else if hdr.typeflag = 0x31 then
    match s.walk root (tarfsStrip (cString hdr.linkname)) with
    | none => none
    | some t =>
        if (s.node t).type = .dir then none
        else some { s.newNode base (s.node t).type with
          size := (s.node t).size
          data := (s.node t).data
          ino := (s.node t).ino }
  else some { s.newNode base .file with data := some data, size := size }

theorem entryValue_keeps {base : List Byte} {hdr : TarHeader} {data : ℕ} {size : Word}
    {v : TarfsNode} (h : s.entryValue base hdr data size = some v) :
    v.name = (s.newNode base .dir).name ∧ v.children = [] := by
  rw [entryValue] at h
  split_ifs at h
  · obtain rfl := Option.some.inj h
    exact ⟨rfl, rfl⟩
  · obtain rfl := Option.some.inj h
    exact ⟨rfl, rfl⟩
  · split at h
    · cases h
    · split_ifs at h
      obtain rfl := Option.some.inj h
      exact ⟨rfl, rfl⟩
  · obtain rfl := Option.some.inj h
    exact ⟨rfl, rfl⟩

/-- Making a node, setting its fields and giving it its parent. -/
theorem createNode_bind_addChild (hp : p < s.count) (base : List Byte) (type : VnodeType)
    (f : TarfsNode → TarfsNode) :
    (match (do
        let (n, s) ← s.createNode base type
        return (n, s.setNode n (f (s.node n))) : Except Tarfs (NodePtr × Tarfs)) with
      | .ok (n, s) => s.addChild p n
      | .error s => s) =
    if s.granted s.calls then s.attach p (f (s.newNode base type)) else s.failCall := by
  rw [createNode]
  split_ifs
  · have hnode : ({ s.setNode s.count (s.newNode base type) with
        count := s.count + 1, calls := s.calls + 1 } : Tarfs).node s.count =
        s.newNode base type := Function.update_self _ _ _
    rw [← addChild_createNode hp (v := s.newNode base type)]
    exact congrArg (fun v => (Tarfs.setNode _ s.count (f v)).addChild p s.count) hnode
  · rfl

theorem createNode_addChild (hp : p < s.count) (base : List Byte) (type : VnodeType) :
    (match s.createNode base type with
      | .ok (n, s) => s.addChild p n
      | .error s => s) =
    if s.granted s.calls then s.attach p (s.newNode base type) else s.failCall := by
  rw [createNode]
  split_ifs
  · rw [← addChild_createNode hp (v := s.newNode base type)]
    simp [setNode]
  · rfl

theorem addEntry_eq (hp : p < s.count) (base : List Byte) (hdr : TarHeader) (data : ℕ)
    (size : Word) :
    s.addEntry p base hdr data size =
      match s.entryValue base hdr data size with
      | none => s
      | some v => if s.granted s.calls then s.attach p v else s.failCall := by
  rw [addEntry, entryNode, entryValue]
  by_cases hdir : hdr.typeflag = 0x35
  · simp only [if_pos hdir]
    exact createNode_addChild hp base .dir
  by_cases hlink : hdr.typeflag = 0x32
  · simp only [if_neg hdir, if_pos hlink]
    exact createNode_bind_addChild hp base .file fun v => { v with
      isSymlink := true
      linkTarget := (cString hdr.linkname).take 255 }
  by_cases hhard : hdr.typeflag = 0x31
  · simp only [if_neg hdir, if_neg hlink, if_pos hhard]
    cases hwalk : s.walk root (tarfsStrip (cString hdr.linkname)) with
    | none => rfl
    | some t =>
        dsimp only
        by_cases htype : (s.node t).type = .dir
        · simp only [if_pos htype]
        · simp only [if_neg htype]
          exact createNode_bind_addChild hp base (s.node t).type fun v => { v with
            size := (s.node t).size
            data := (s.node t).data
            ino := (s.node t).ino }
  · simp only [if_neg hdir, if_neg hlink, if_neg hhard]
    exact createNode_bind_addChild hp base .file fun v => { v with
      data := some data
      size := size }

/-! ### Mounted trees -/

theorem stripDots_suffix (p : List Byte) : stripDots p <:+ p := by
  induction p using stripDots.induct with
  | case1 => exact List.suffix_rfl
  | case2 b => exact List.suffix_rfl
  | case3 b b' rest hdots ih =>
      rw [stripDots, if_pos hdots]
      exact ih.trans ⟨[b, b'], rfl⟩
  | case4 b b' rest hdots =>
      rw [stripDots, if_neg hdots]

theorem tarfsStrip_isInfix (p : List Byte) : tarfsStrip p <:+: p :=
  ((List.dropWhile_suffix _).isInfix.trans (stripDots_suffix _).isInfix).trans
    (List.rdropWhile_prefix _ _).isInfix

theorem length_namePrefix_le (hdr : TarHeader) : (cString hdr.namePrefix).length ≤ 155 := by
  refine (List.takeWhile_prefix _).length_le.trans ?_
  rw [TarHeader.namePrefix, List.length_take]
  exact min_le_left _ _

theorem length_name_le (hdr : TarHeader) : (cString hdr.name).length ≤ 100 := by
  refine (List.takeWhile_prefix _).length_le.trans ?_
  rw [TarHeader.name, List.length_take]
  exact min_le_left _ _

/-- What stands between slashes in the path of a header can be the name of a node. -/
theorem isNodeName_of_isInfix {hdr : TarHeader} {c : List Byte} (hc : IsComponent slash c)
    (h : c <:+: tarfsBuildPath hdr 256) : IsNodeName c := by
  have hpre := length_namePrefix_le hdr
  have hname := length_name_le hdr
  refine ⟨hc, fun hzero => ?_, ?_⟩
  · have hmem := h.subset hzero
    rw [tarfsBuildPath] at hmem
    rcases List.mem_append.mp hmem with hmem | hmem
    · split_ifs at hmem
      · cases hmem
      · rcases List.mem_append.mp (List.mem_of_mem_take hmem) with hmem | hmem
        · exact zero_notMem_cString _ hmem
        · exact absurd (List.mem_singleton.mp hmem) (by decide)
    · exact zero_notMem_cString _ (List.mem_of_mem_take hmem)
  · rw [tarfsBuildPath] at h
    split_ifs at h with hempty
    · have hlen := h.length_le
      rw [List.nil_append, List.length_take] at hlen
      omega
    · have hshort : (cString hdr.namePrefix ++ [slash]).take 256 =
          cString hdr.namePrefix ++ [slash] :=
        List.take_of_length_le (by rw [List.length_append, List.length_singleton]; omega)
      rw [hshort] at h
      have hlen := h.length_le
      rw [List.length_append, List.length_append, List.length_singleton, List.length_take] at hlen
      by_contra hlong
      -- only the whole path is that long, but it has a slash
      have hwhole := h.eq_of_length_le (by
        rw [List.length_append, List.length_append, List.length_singleton, List.length_take]
        omega)
      apply hc.2
      rw [hwhole]
      simp

theorem initial_wellFormed {granted : ℕ → Bool} {n : NodePtr}
    (h : (empty granted).createNode [] .dir = .ok (n, s)) : s.WellFormed := by
  rw [createNode] at h
  split_ifs at h
  obtain ⟨-, rfl⟩ := Prod.mk.inj (Except.ok.inj h)
  have hlt : ∀ c, c < 1 → c = root := fun c hc => Nat.lt_one_iff.mp hc
  refine ⟨Nat.one_pos, rfl, rfl, fun n hn c hc => ?_, fun c hc hne => absurd (hlt c hc) hne,
    fun c hc hne => absurd (hlt c hc) hne, fun n hn c hc => ?_⟩ <;>
  · rw [hlt n hn] at hc
    cases hc

end Tarfs

end Utopia
