/-
The tree of `fs/ramfs.c`: its nodes, the operations of directories, and what a new node
changes.
-/
import Utopia.Fs.Tarfs
import Mathlib.Data.List.Find

namespace Utopia

/-- The fields of `ramfs_node_t` that directories use, with the list of children as a
list. -/
structure RamfsEntry where
  type : VnodeType
  name : List Byte
  parent : Option NodePtr
  children : List NodePtr
deriving DecidableEq, Repr

/-- The nodes of a mount. -/
structure Ramfs where
  node : NodePtr → RamfsEntry
  count : ℕ

namespace Ramfs

variable (s : Ramfs)

def root : NodePtr := 0

def setNode (n : NodePtr) (v : RamfsEntry) : Ramfs :=
  { s with node := Function.update s.node n v }

/-- `ramfs_create_node`; `granted` says whether `malloc` has room.  The name is cut to the
size of its field. -/
def createNode (name : List Byte) (type : VnodeType) (granted : Bool) :
    Option (NodePtr × Ramfs) :=
  if granted then
    some (s.count, { s.setNode s.count ⟨type, name.take 63, none, []⟩ with count := s.count + 1 })
  else none

/-- `ramfs_find_child`. -/
def findChild (parent : NodePtr) (name : List Byte) : Option NodePtr :=
  (s.node parent).children.find? fun c => (s.node c).name = name

/-- `ramfs_add_child`. -/
def addChild (parent child : NodePtr) : Ramfs :=
  let s := s.setNode parent
    { s.node parent with children := child :: (s.node parent).children }
  s.setNode child { s.node child with parent := some parent }

/-- `ramfs_lookup`. -/
def lookup (parent : NodePtr) (name : List Byte) : Option NodePtr :=
  if (s.node parent).type ≠ .dir then none else s.findChild parent name

/-- The body that `ramfs_mkdir` and `ramfs_create` share. -/
def make (type : VnodeType) (granted : Bool) (parent : NodePtr) (name : List Byte) :
    Option (NodePtr × Ramfs) :=
  if (s.node parent).type ≠ .dir then none
  else if (s.findChild parent name).isSome then none
  else (s.createNode name type granted).map fun r => (r.1, r.2.addChild parent r.1)

/-- `ramfs_mkdir`. -/
def mkdir (granted : Bool) (parent : NodePtr) (name : List Byte) : Option (NodePtr × Ramfs) :=
  s.make .dir granted parent name

/-- `ramfs_create`. -/
def create (granted : Bool) (parent : NodePtr) (name : List Byte) : Option (NodePtr × Ramfs) :=
  s.make .file granted parent name

/-- `ramfs_mount`. -/
def mounted : Ramfs where
  node n := if n = root then ⟨.dir, [], none, []⟩ else ⟨.file, [], none, []⟩
  count := 1

variable {s}

/-! ### The tree -/

/-- A name as nodes have it. -/
def IsName (c : List Byte) : Prop := c ≠ [] ∧ c.length ≤ 63

instance (c : List Byte) : Decidable (IsName c) := inferInstanceAs (Decidable (_ ∧ _))

/-- Children are nodes, and the names in a directory are names of different nodes. -/
structure WellFormed (s : Ramfs) : Prop where
  root_lt : root < s.count
  children : ∀ n < s.count, ∀ c ∈ (s.node n).children, c < s.count
  names : ∀ n < s.count, ∀ c ∈ (s.node n).children, IsName (s.node c).name
  nodup : ∀ n < s.count, ((s.node n).children.map fun c => (s.node c).name).Nodup

theorem mem_of_findChild {p n : NodePtr} {name : List Byte} (h : s.findChild p name = some n) :
    n ∈ (s.node p).children ∧ (s.node n).name = name := by
  have hname := List.find?_some h
  exact ⟨List.mem_of_find?_eq_some h, by simpa using hname⟩

/-- The state with the new node `v` under `p`. -/
def attach (s : Ramfs) (p : NodePtr) (v : RamfsEntry) : Ramfs where
  node := Function.update
    (Function.update s.node p { s.node p with children := s.count :: (s.node p).children })
    s.count { v with parent := some p }
  count := s.count + 1

/-- `ramfs_create_node` and `ramfs_add_child`. -/
theorem addChild_setNode {p : NodePtr} {v : RamfsEntry} (hp : p < s.count) :
    ({ s.setNode s.count v with count := s.count + 1 } : Ramfs).addChild p s.count =
      s.attach p v := by
  have hne : p ≠ s.count := hp.ne
  simp only [addChild, setNode, attach, Function.update_of_ne hne, Function.update_of_ne hne.symm,
    Function.update_self]
  congr 1
  funext n
  by_cases hn : n = s.count
  · subst hn
    simp
  · by_cases hnp : n = p
    · subst hnp
      simp [hn]
    · simp [hn, hnp]

/-- What `ramfs_mkdir` and `ramfs_create` do. -/
theorem make_eq_some_iff {type : VnodeType} {granted : Bool} {p n : NodePtr} {name : List Byte}
    {s' : Ramfs} (hp : p < s.count) :
    s.make type granted p name = some (n, s') ↔
      (s.node p).type = .dir ∧ s.findChild p name = none ∧ granted = true ∧ n = s.count ∧
        s' = s.attach p ⟨type, name.take 63, none, []⟩ := by
  rw [make, createNode]
  by_cases hdir : (s.node p).type = .dir
  · rw [if_neg (not_not.mpr hdir)]
    cases hfind : s.findChild p name with
    | some c => simp
    | none =>
        cases granted with
        | false => simp
        | true =>
            have hlink := addChild_setNode (v := ⟨type, name.take 63, none, []⟩) hp
            simp only [Option.isSome_none, Bool.false_eq_true, if_false, if_true, Option.map_some,
              hlink, Option.some.injEq, Prod.mk.injEq, hdir, true_and]
            exact and_congr eq_comm eq_comm
  · simp [hdir]

section Attach

variable {p : NodePtr} {v : RamfsEntry}

theorem node_attach_new : (s.attach p v).node s.count = { v with parent := some p } :=
  Function.update_self _ _ _

theorem node_attach_parent (hp : p < s.count) :
    (s.attach p v).node p = { s.node p with children := s.count :: (s.node p).children } :=
  (Function.update_of_ne hp.ne _ _).trans (Function.update_self _ _ _)

theorem node_attach_of_ne {n : NodePtr} (hn : n < s.count) (hnp : n ≠ p) :
    (s.attach p v).node n = s.node n :=
  (Function.update_of_ne hn.ne _ _).trans (Function.update_of_ne hnp _ _)

/-- Nodes keep everything but the list of children. -/
theorem field_attach {β : Type*} (f : RamfsEntry → β) {n : NodePtr} (hp : p < s.count)
    (hn : n < s.count) (hf : ∀ w l, f { w with children := l } = f w) :
    f ((s.attach p v).node n) = f (s.node n) := by
  by_cases hnp : n = p
  · subst hnp
    rw [node_attach_parent hp, hf]
  · rw [node_attach_of_ne hn hnp]

theorem name_attach {n : NodePtr} (hp : p < s.count) (hn : n < s.count) :
    ((s.attach p v).node n).name = (s.node n).name :=
  field_attach RamfsEntry.name hp hn fun _ _ => rfl

/-- The children of an old node, with their names. -/
theorem names_attach {n : NodePtr} (h : s.WellFormed) (hp : p < s.count) (hn : n < s.count) :
    ((s.attach p v).node n).children.map (fun c => ((s.attach p v).node c).name) =
      if n = p then v.name :: (s.node n).children.map fun c => (s.node c).name
      else (s.node n).children.map fun c => (s.node c).name := by
  have hold : (s.node n).children.map (fun c => ((s.attach p v).node c).name) =
      (s.node n).children.map fun c => (s.node c).name :=
    List.map_congr_left fun c hc => name_attach hp (h.children n hn c hc)
  by_cases hnp : n = p
  · subst hnp
    rw [if_pos rfl, node_attach_parent hp, List.map_cons, hold, node_attach_new]
  · rw [if_neg hnp, node_attach_of_ne hn hnp, hold]

theorem WellFormed.attach (h : s.WellFormed) (hp : p < s.count) (hname : IsName v.name)
    (hnew : s.findChild p v.name = none) (hleaf : v.children = []) :
    (s.attach p v).WellFormed := by
  have hold : ∀ {n}, n < s.count + 1 → n ≠ s.count → n < s.count := fun hn hne =>
    lt_of_le_of_ne (Nat.le_of_lt_succ hn) hne
  have hchildren : ∀ n < s.count + 1, ∀ c ∈ ((s.attach p v).node n).children,
      c < s.count ∧ (∃ m < s.count, c ∈ (s.node m).children) ∨ c = s.count := by
    intro n hn c hc
    by_cases hnc : n = s.count
    · subst hnc
      rw [node_attach_new, hleaf] at hc
      cases hc
    · have hlt := hold hn hnc
      by_cases hnp : n = p
      · subst hnp
        rw [node_attach_parent hp] at hc
        rcases List.mem_cons.mp hc with rfl | hc
        · exact .inr rfl
        · exact .inl ⟨h.children n hp c hc, n, hp, hc⟩
      · rw [node_attach_of_ne hlt hnp] at hc
        exact .inl ⟨h.children n hlt c hc, n, hlt, hc⟩
  refine ⟨Nat.lt_succ_of_lt h.root_lt, fun n hn c hc => ?_, fun n hn c hc => ?_, fun n hn => ?_⟩
  · rcases hchildren n hn c hc with ⟨hlt, -⟩ | rfl
    · exact Nat.lt_succ_of_lt hlt
    · exact Nat.lt_succ_self _
  · rcases hchildren n hn c hc with ⟨hlt, m, hm, hmem⟩ | rfl
    · rw [name_attach hp hlt]
      exact h.names m hm c hmem
    · rw [node_attach_new]
      exact hname
  · by_cases hnc : n = s.count
    · subst hnc
      rw [node_attach_new, hleaf]
      exact List.nodup_nil
    · have hlt := hold hn hnc
      rw [names_attach h hp hlt]
      split_ifs with hnp
      · subst hnp
        refine List.nodup_cons.mpr ⟨fun hmem => ?_, h.nodup n hp⟩
        obtain ⟨c, hc, hsame⟩ := List.mem_map.mp hmem
        rw [findChild, List.find?_eq_none] at hnew
        exact hnew c hc (by simpa using hsame)
      · exact h.nodup n hlt

/-- A directory finds what it found before. -/
theorem findChild_attach {n m : NodePtr} {name : List Byte} (h : s.WellFormed) (hp : p < s.count)
    (hn : n < s.count) (hnew : s.findChild p v.name = none) (hfind : s.findChild n name = some m) :
    (s.attach p v).findChild n name = some m := by
  have hold : (s.node n).children.find? (fun c => ((s.attach p v).node c).name = name) = some m := by
    rw [← hfind, findChild]
    exact List.find?_congr fun c hc => by rw [name_attach hp (h.children n hn c hc)]
  rw [findChild]
  by_cases hnp : n = p
  · subst hnp
    have hne : v.name ≠ name := by
      rintro rfl
      rw [hfind] at hnew
      cases hnew
    rw [node_attach_parent hp, List.find?_cons_of_neg]
    · exact hold
    · rw [node_attach_new]
      simpa using hne
  · rw [node_attach_of_ne hn hnp]
    exact hold

/-- It finds the new node. -/
theorem findChild_attach_new (hp : p < s.count) :
    (s.attach p v).findChild p v.name = some s.count := by
  rw [findChild, node_attach_parent hp, List.find?_cons_of_pos]
  rw [node_attach_new]
  simp

end Attach

end Ramfs

end Utopia
