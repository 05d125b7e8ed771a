/-
`vfs_open` with `O_CREAT` and `mkdir` on a ramfs root, in any order: what open creates,
open finds.
-/
import Utopia.Fs.Ramfs
import Utopia.Fs.VfsOpen

namespace Utopia

namespace Ramfs

/-- The vnodes of a ramfs, each with the state that it is a vnode of. -/
def ops (granted : Bool) : VnodeOps (NodePtr × Ramfs) where
  lookup v name := (v.2.lookup v.1 name).map fun n => (n, v.2)
  isDir v := (v.2.node v.1).type = .dir
  create v := some (v.2.create granted v.1)

variable (s : Ramfs)

/-- `vfs_lookup`. -/
def resolve (path : List Byte) : Option NodePtr := vfsLookup s.lookup (some root) path

/-- `vfs_open`. -/
def openAt (granted : Bool) (path : List Byte) (flags : Word) : VfsOpened (NodePtr × Ramfs) :=
  vfsOpen (ops granted) (some (root, s)) path flags

/-- The calls of a run; `granted` says whether `malloc` has room for a new node. -/
inductive Call where
  | open (path : List Byte) (flags : Word) (granted : Bool)
  | mkdir (parent : NodePtr) (name : List Byte) (granted : Bool)

/-- The state that a call leaves. -/
def next : Call → Ramfs
  | .open path flags granted => ((s.openAt granted path flags).result.map Prod.snd).getD s
  | .mkdir parent name granted => ((s.mkdir granted parent name).map Prod.snd).getD s

/-- The arguments are good: the path fits the buffers, and the parent is a node. -/
def Valid : Call → Prop
  | .open path flags granted => (s.openAt granted path flags).InBuffers
  | .mkdir parent _ _ => parent < s.count

/-- If the call makes a node, the field of the node has room for its name, and the name
given to `mkdir` is not empty. -/
def NameFits : Call → Prop
  | .open path flags granted => s.resolve path = none →
      (s.openAt granted path flags).result.isSome →
        ∀ parent name, vfsSplitPath path = some (parent, name) → name.length ≤ 63
  | .mkdir parent name granted => (s.mkdir granted parent name).isSome → IsName name

/-- From one state to another by calls that are allowed. -/
inductive Runs (Allowed : Ramfs → Call → Prop) (s : Ramfs) : Ramfs → Prop
  | refl : Runs Allowed s s
  | step {s' : Ramfs} {call : Call} (before : Runs Allowed s s') (allowed : Allowed s' call) :
      Runs Allowed s (s'.next call)

variable {s} {s' : Ramfs}

/-! ### Paths -/

/-- The components that `vfs_lookup` walks. -/
theorem resolve_eq (path : List Byte) : s.resolve path =
    (components slash (if path.head? = some slash then path else skipDot path)).foldlM
      (vfsStep s.lookup root) root :=
  vfsLoop_eq _ _ _ le_rfl

theorem vfsLookup_ops (granted : Bool) (path : List Byte) :
    vfsLookup (ops granted).lookup (some (root, s)) path = (s.resolve path).map fun n => (n, s) := by
  have hloop : ∀ (cs : List (List Byte)) (n : NodePtr),
      cs.foldlM (vfsStep (ops granted).lookup (root, s)) (n, s) =
        (cs.foldlM (vfsStep s.lookup root) n).map fun n => (n, s) := by
    intro cs
    induction cs with
    | nil => exact fun n => rfl
    | cons c cs ih =>
        intro n
        rw [List.foldlM_cons, List.foldlM_cons, vfsStep, vfsStep]
        split_ifs
        · exact ih root
        · cases hlookup : s.lookup n (c.take 127) with
          | none =>
              have hnone : (ops granted).lookup (n, s) (c.take 127) = none :=
                congrArg (Option.map fun n => (n, s)) hlookup
              rw [hnone]
              rfl
          | some m =>
              have hsome : (ops granted).lookup (n, s) (c.take 127) = some (m, s) :=
                congrArg (Option.map fun n => (n, s)) hlookup
              rw [hsome]
              exact ih m
  rw [resolve_eq]
  exact (vfsLoop_eq _ _ _ le_rfl).trans (hloop _ root)

/-- An absolute path, split at its last slash. -/
theorem resolve_append {parent name : List Byte} (habs : (parent ++ slash :: name).head? = some slash) :
    s.resolve (parent ++ slash :: name) =
      (s.resolve (if parent = [] then [slash] else parent)).bind fun p =>
        (components slash name).foldlM (vfsStep s.lookup root) p := by
  have hparent : s.resolve (if parent = [] then [slash] else parent) =
      (components slash parent).foldlM (vfsStep s.lookup root) root := by
    cases parent with
    | nil => rfl
    | cons b parent =>
        have hb : (b :: parent).head? = some slash := habs
        rw [if_neg (by simp), resolve_eq, if_pos hb]
  rw [hparent, resolve_eq, if_pos habs, components, componentsFrom_append_sep, List.foldlM_append]
  rfl

/-! ### Calls -/

/-- A path that is found is opened. -/
theorem openAt_of_resolve {path : List Byte} {v : NodePtr} (h : s.resolve path = some v)
    (granted : Bool) (flags : Word) : s.openAt granted path flags =
      if hasBits flags oCreat ∧ hasBits flags oExcl then ⟨-17, none, none⟩
      else if hasBits flags oDirectory ∧ (s.node v).type ≠ .dir then ⟨-20, none, none⟩
      else ⟨0, some (v, s), none⟩ := by
  have hlookup : vfsLookup (ops granted).lookup (some (root, s)) path = some (v, s) := by
    rw [vfsLookup_ops, h, Option.map_some]
  have hdir : (ops granted).isDir (v, s) = false ↔ (s.node v).type ≠ .dir := decide_eq_false_iff_not
  rw [openAt, vfsOpen, hlookup]
  simp only [hdir]

/-- A vnode that `vfs_open` returns was found, or is new in the directory before the last
slash. -/
theorem openAt_cases {path : List Byte} {flags : Word} {granted : Bool} {v : NodePtr}
    (h : (s.openAt granted path flags).result = some (v, s')) :
    (s.resolve path = some v ∧ s' = s) ∨
      (s.resolve path = none ∧ ∃ parent name p, path = parent ++ slash :: name ∧
        slash ∉ name ∧ path.head? = some slash ∧
        vfsSplitPath path = some (if parent = [] then [slash] else parent, name) ∧
        s.resolve (if parent = [] then [slash] else parent) = some p ∧
        s.create granted p name = some (v, s')) := by
  cases hpath : s.resolve path with
  | some n =>
      left
      rw [openAt_of_resolve hpath] at h
      split_ifs at h
      cases h
      exact ⟨rfl, rfl⟩
  | none =>
      right
      refine ⟨rfl, ?_⟩
      rw [openAt, vfsOpen, vfsLookup_ops, hpath, Option.map_none] at h
      dsimp only at h
      split_ifs at h with hcreat
      by_cases habs : path.head? = some slash
      · obtain ⟨parent, name, rfl, hname⟩ := exists_last_slash (List.mem_of_mem_head? habs)
        have hsplit := vfsSplitPath_eq hname habs
        rw [hsplit] at h
        dsimp only at h
        rw [vfsLookup_ops] at h
        cases hparent : s.resolve (if parent = [] then [slash] else parent) with
        | none =>
            rw [hparent] at h
            cases h
        | some p =>
            rw [hparent, Option.map_some] at h
            dsimp only at h
            have hops : (ops granted).create (p, s) = some (s.create granted p) := rfl
            by_cases hdir : (ops granted).isDir (p, s) = false
            · rw [if_pos hdir] at h
              cases h
            rw [if_neg hdir, hops] at h
            dsimp only at h
            cases hcreate : s.create granted p name with
            | none =>
                rw [hcreate] at h
                cases h
            | some made =>
                rw [hcreate] at h
                cases h
                exact ⟨parent, name, p, rfl, hname, habs, hsplit, hparent, hcreate⟩
      · rw [vfsSplitPath_of_relative habs] at h
        cases h

/-! ### What calls leave as it was -/

/-- Directories stay, and find what they found before. -/
structure Grows (s s' : Ramfs) : Prop where
  count : s.count ≤ s'.count
  type : ∀ n < s.count, (s'.node n).type = (s.node n).type
  found : ∀ n < s.count, ∀ name m, s.findChild n name = some m → s'.findChild n name = some m

theorem Grows.refl (s : Ramfs) : s.Grows s := ⟨le_rfl, fun _ _ => rfl, fun _ _ _ _ => id⟩

theorem Grows.trans {s'' : Ramfs} (h : s.Grows s') (h' : s'.Grows s'') : s.Grows s'' := by
  refine ⟨h.count.trans h'.count, fun n hn => ?_, fun n hn name m hfind => ?_⟩
  · exact (h'.type n (hn.trans_le h.count)).trans (h.type n hn)
  · exact h'.found n (hn.trans_le h.count) name m (h.found n hn name m hfind)

/-- A new node leaves the tree in order, if its name fits. -/
theorem make_keeps {type : VnodeType} {granted : Bool} {p n : NodePtr} {name : List Byte}
    (hs : s.WellFormed) (hp : p < s.count) (hmake : s.make type granted p name = some (n, s'))
    (hname : IsName name) : s'.WellFormed ∧ s.Grows s' := by
  obtain ⟨-, hnew, -, -, rfl⟩ := (make_eq_some_iff hp).mp hmake
  rw [List.take_of_length_le hname.2]
  refine ⟨hs.attach hp hname hnew rfl, Nat.le_succ _, fun m hm => ?_, fun m hm c found hfind => ?_⟩
  · exact field_attach RamfsEntry.type hp hm fun _ _ => rfl
  · exact findChild_attach hs hp hm hnew hfind

/-- Paths lead to where they led before. -/
theorem Grows.walk (h : s.Grows s') (hs : s.WellFormed) {cs : List (List Byte)} {n m : NodePtr}
    (hn : n < s.count) (hwalk : cs.foldlM (vfsStep s.lookup root) n = some m) :
    cs.foldlM (vfsStep s'.lookup root) n = some m ∧ m < s.count := by
  induction cs generalizing n with
  | nil =>
      cases hwalk
      exact ⟨rfl, hn⟩
  | cons c cs ih =>
      rw [List.foldlM_cons, vfsStep] at hwalk ⊢
      by_cases hdot : c = [dot]
      · rw [if_pos hdot] at hwalk ⊢
        exact ih hs.root_lt hwalk
      rw [if_neg hdot] at hwalk ⊢
      cases hlookup : s.lookup n (c.take 127) with
      | none =>
          rw [hlookup] at hwalk
          cases hwalk
      | some next =>
          have hdir : (s.node n).type = .dir := by
            by_contra hfile
            rw [lookup, if_pos hfile] at hlookup
            cases hlookup
          have hfind : s.findChild n (c.take 127) = some next := by
            rwa [lookup, if_neg (not_not.mpr hdir)] at hlookup
          have hlookup' : s'.lookup n (c.take 127) = some next := by
            rw [lookup, h.type n hn, if_neg (not_not.mpr hdir)]
            exact h.found n hn _ _ hfind
          rw [hlookup] at hwalk
          rw [hlookup']
          exact ih (hs.children n hn next (mem_of_findChild hfind).1) hwalk

theorem Grows.resolve (h : s.Grows s') (hs : s.WellFormed) {path : List Byte} {v : NodePtr}
    (hv : s.resolve path = some v) : s'.resolve path = some v ∧ v < s.count := by
  rw [resolve_eq] at hv ⊢
  exact h.walk hs hs.root_lt hv

/-- A path with nothing behind its last slash leads to the directory before it. -/
theorem name_ne_nil {parent name : List Byte} {p : NodePtr}
    (habs : (parent ++ slash :: name).head? = some slash)
    (hpath : s.resolve (parent ++ slash :: name) = none)
    (hparent : s.resolve (if parent = [] then [slash] else parent) = some p) : name ≠ [] := by
  rintro rfl
  rw [resolve_append habs, hparent] at hpath
  cases hpath

/-- What `vfs_open` keeps if it makes a node, and where the path leads then. -/
theorem create_keeps {parent name : List Byte} {p v : NodePtr} {granted : Bool}
    (hs : s.WellFormed) (hname : slash ∉ name)
    (habs : (parent ++ slash :: name).head? = some slash)
    (hpath : s.resolve (parent ++ slash :: name) = none)
    (hparent : s.resolve (if parent = [] then [slash] else parent) = some p)
    (hcreate : s.create granted p name = some (v, s')) (hfits : name.length ≤ 63) :
    (s'.WellFormed ∧ s.Grows s') ∧ s'.resolve (parent ++ slash :: name) = some v := by
  have hne := name_ne_nil habs hpath hparent
  obtain ⟨-, hp⟩ := (Grows.refl s).resolve hs hparent
  obtain ⟨hwf, hgrows⟩ := make_keeps hs hp hcreate ⟨hne, hfits⟩
  refine ⟨⟨hwf, hgrows⟩, ?_⟩
  have hcomp : components slash name = [name] := components_component ⟨hne, hname⟩
  have hdot : name ≠ [dot] := by
    intro hdot
    rw [resolve_append habs, hparent, hcomp, Option.bind_some, List.foldlM_cons, vfsStep,
      if_pos hdot] at hpath
    cases hpath
  obtain ⟨hparent', -⟩ := hgrows.resolve hs hparent
  obtain ⟨hdir, -, -, rfl, rfl⟩ := (make_eq_some_iff hp).mp hcreate
  rw [List.take_of_length_le hfits] at hgrows hparent' ⊢
  have hlookup : (s.attach p ⟨.file, name, none, []⟩).lookup p (name.take 127) =
      some s.count := by
    rw [lookup, hgrows.type p hp, if_neg (not_not.mpr hdir),
      List.take_of_length_le (hfits.trans (by decide))]
    exact findChild_attach_new (v := ⟨.file, name, none, []⟩) hp
  rw [resolve_append habs, hparent', hcomp, Option.bind_some, List.foldlM_cons, vfsStep,
    if_neg hdot, hlookup]
  rfl

/-- What a call keeps. -/
theorem next_keeps (hs : s.WellFormed) {call : Call} (hvalid : s.Valid call)
    (hfits : s.NameFits call) : (s.next call).WellFormed ∧ s.Grows (s.next call) := by
  cases call with
  | «open» path flags granted =>
      rw [next]
      cases hresult : (s.openAt granted path flags).result with
      | none => exact ⟨hs, Grows.refl s⟩
      | some r =>
          obtain ⟨v, s'⟩ := r
          change s'.WellFormed ∧ s.Grows s'
          rcases openAt_cases hresult with ⟨-, rfl⟩ | ⟨hpath, parent, name, p, rfl, hname, habs,
            hsplit, hparent, hcreate⟩
          · exact ⟨hs, Grows.refl _⟩
          · have hshort := hfits hpath (by rw [hresult]; rfl) _ _ hsplit
            exact (create_keeps hs hname habs hpath hparent hcreate hshort).1
  | mkdir parent name granted =>
      rw [next]
      cases hmake : s.mkdir granted parent name with
      | none => exact ⟨hs, Grows.refl s⟩
      | some r =>
          obtain ⟨v, s'⟩ := r
          exact make_keeps hs hvalid hmake (hfits (by rw [hmake]; rfl))

/-! ### Runs -/

/-- The calls of which the names are stored as they are. -/
def Fits (s : Ramfs) (call : Call) : Prop := s.Valid call ∧ s.NameFits call

theorem Runs.keeps (h : Runs Fits s s') (hs : s.WellFormed) : s'.WellFormed ∧ s.Grows s' := by
  induction h with
  | refl => exact ⟨hs, Grows.refl s⟩
  | step _ allowed ih =>
      obtain ⟨hwf, hgrows⟩ := ih
      obtain ⟨hwf', hgrows'⟩ := next_keeps hwf allowed.1 allowed.2
      exact ⟨hwf', hgrows.trans hgrows'⟩

theorem mounted_wellFormed : mounted.WellFormed := by
  have hleaf : ∀ n, (mounted.node n).children = [] := by
    intro n
    rw [mounted]
    dsimp only
    split_ifs <;> rfl
  refine ⟨Nat.one_pos, fun n _ c hc => ?_, fun n _ c hc => ?_, fun n _ => ?_⟩
  · rw [hleaf] at hc
    cases hc
  · rw [hleaf] at hc
    cases hc
  · rw [hleaf]
    exact List.nodup_nil

/-- In every directory the names are different, and none is empty. -/
def NamesDistinct (s : Ramfs) : Prop :=
  ∀ n < s.count, ((s.node n).children.map fun c => (s.node c).name).Nodup ∧
    ∀ c ∈ (s.node n).children, (s.node c).name ≠ []

/-- `vfs_lookup` finds `v`, `vfs_open` without `O_EXCL` returns it with the flags of
`Reopens`, and with `O_CREAT` and `O_EXCL` it fails. -/
structure FindsAgain (Reopens : Ramfs → NodePtr → Word → Prop) (s : Ramfs) (path : List Byte)
    (v : NodePtr) : Prop where
  found : s.resolve path = some v
  opened : ∀ granted flags, hasBits flags oExcl = false → Reopens s v flags →
    (s.openAt granted path flags).status = 0 ∧
      (s.openAt granted path flags).result = some (v, s)
  exists_already : ∀ granted flags, hasBits flags oCreat = true → hasBits flags oExcl = true →
    (s.openAt granted path flags).status = -17

/-- In every run of calls that are allowed: the names are distinct, and what `vfs_open`
with `O_CREAT` returns is found behind any further run. -/
def OpenFinds (Allowed : Ramfs → Call → Prop) (Reopens : Ramfs → NodePtr → Word → Prop) : Prop :=
  ∀ s, Runs Allowed mounted s → s.NamesDistinct ∧
    ∀ path flags granted v s₁, hasBits flags oCreat = true →
      Allowed s (.open path flags granted) → (s.openAt granted path flags).status = 0 →
      (s.openAt granted path flags).result = some (v, s₁) →
      ∀ s', Runs Allowed s₁ s' → FindsAgain Reopens s' path v

/-- Flags that do not ask for a directory where the node is none. -/
def FlagsFit (s : Ramfs) (v : NodePtr) (flags : Word) : Prop :=
  hasBits flags oDirectory = true → (s.node v).type = .dir

/-- What open creates, open finds, as long as the names are stored as they are and
`O_DIRECTORY` is for directories. -/
theorem openFinds : OpenFinds Fits FlagsFit := by
  intro s hrun
  obtain ⟨hs, -⟩ := hrun.keeps mounted_wellFormed
  refine ⟨fun n hn => ⟨hs.nodup n hn, fun c hc => (hs.names n hn c hc).1⟩, ?_⟩
  intro path flags granted v s₁ _ hfits _ hresult s' hlater
  have hfirst : (s₁.WellFormed ∧ s.Grows s₁) ∧ s₁.resolve path = some v := by
    rcases openAt_cases hresult with ⟨hpath, rfl⟩ | ⟨hpath, parent, name, p, rfl, hname, habs,
      hsplit, hparent, hcreate⟩
    · exact ⟨⟨hs, Grows.refl _⟩, hpath⟩
    · have hshort := hfits.2 hpath (by rw [hresult]; rfl) _ _ hsplit
      exact create_keeps hs hname habs hpath hparent hcreate hshort
  obtain ⟨⟨hs₁, -⟩, hpath⟩ := hfirst
  obtain ⟨-, hgrows⟩ := hlater.keeps hs₁
  obtain ⟨hfound, -⟩ := hgrows.resolve hs₁ hpath
  refine ⟨hfound, fun granted flags hexcl hflags => ?_, fun granted flags hcreat hexcl => ?_⟩
  · have hneither : ¬ (hasBits flags oCreat = true ∧ hasBits flags oExcl = true) := by
      simp [hexcl]
    have hdir : ¬ (hasBits flags oDirectory = true ∧ (s'.node v).type ≠ .dir) :=
      fun h => h.2 (hflags h.1)
    rw [openAt_of_resolve hfound, if_neg hneither, if_neg hdir]
    exact ⟨rfl, rfl⟩
  · rw [openAt_of_resolve hfound, if_pos ⟨hcreat, hexcl⟩]

/-- A file in the root, with a name of `n` bytes. -/
def rootFile (n : ℕ) : List Byte := slash :: List.replicate n (0x61 : Byte)

/-- The state behind its creation. -/
def afterCreate (n : ℕ) : Ramfs := mounted.next (.open (rootFile n) oCreat true)

theorem openAt_rootFile {n : ℕ} {v : NodePtr}
    (hstored : (mounted.openAt true (rootFile n) oCreat).stored =
      some ([slash], List.replicate n (0x61 : Byte)))
    (hresult : (mounted.openAt true (rootFile n) oCreat).result.map Prod.fst = some v)
    (hn : n < filenameMax) :
    mounted.Valid (.open (rootFile n) oCreat true) ∧
      (mounted.openAt true (rootFile n) oCreat).result = some (v, afterCreate n) := by
  constructor
  · intro parentPath filename h
    rw [hstored] at h
    cases h
    refine ⟨fun i hi => ?_, fun i hi => ?_⟩
    · exact lt_of_le_of_lt hi (by decide)
    · rw [List.length_replicate] at hi
      exact lt_of_le_of_lt hi hn
  · obtain ⟨r, hr, rfl⟩ := Option.map_eq_some_iff.mp hresult
    rw [afterCreate, next, hr]
    rfl

/-- A file with a name of 64 bytes is not found again, and a file is not opened as a
directory. -/
theorem not_openFinds : ¬ OpenFinds Valid FlagsFit ∧ ¬ OpenFinds Fits fun _ _ _ => True := by
  constructor
  · intro h
    obtain ⟨hvalid, hresult⟩ := openAt_rootFile (n := 64) (v := 1) (by decide +kernel)
      (by decide +kernel) (by decide)
    have hagain := (h mounted .refl).2 _ _ _ _ _ (by decide) hvalid (by decide +kernel) hresult
      _ .refl
    exact absurd hagain.found (by decide +kernel)
  · intro h
    obtain ⟨hvalid, hresult⟩ := openAt_rootFile (n := 1) (v := 1) (by decide +kernel)
      (by decide +kernel) (by decide)
    have hfits : mounted.Fits (.open (rootFile 1) oCreat true) := by
      refine ⟨hvalid, fun _ _ parent name hsplit => ?_⟩
      have hparts : vfsSplitPath (rootFile 1) = some ([slash], [0x61]) := by decide +kernel
      rw [hparts] at hsplit
      cases hsplit
      decide
    have hagain := (h mounted .refl).2 _ _ _ _ _ (by decide) hfits (by decide +kernel) hresult
      _ .refl
    exact absurd (hagain.opened true oDirectory (by decide) trivial).1 (by decide +kernel)

end Ramfs

end Utopia
