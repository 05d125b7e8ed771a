/-
`vfs_open` of `fs/vfs.c`, and when the paths it is given fit into its buffers.
-/
import Utopia.Arch.Pte
import Utopia.Fs.Vfs
import Mathlib.Data.List.DropRight

namespace Utopia

/-- What `vfs_open` uses of the vnodes: `ops->lookup`, whether one is a directory, and
`ops->create` where there is one. -/
structure VnodeOps (V : Type) where
  lookup : V → List Byte → Option V
  isDir : V → Bool
  create : V → Option (List Byte → Option V)

def oCreat : Word := 0x0040
def oExcl : Word := 0x0080
def oDirectory : Word := 0x10000

def pathMax : ℕ := 256

/-- The size of `filename`. -/
def filenameMax : ℕ := 128

/-- The loop down from `len - 1` that finds the last slash. -/
def lastSlash (path : List Byte) : ℕ → Option ℕ
  | 0 => none
  | i + 1 => if path[i]? = some slash then some i else lastSlash path i

/-- The strings that `vfs_split_path` stores in `parent_out` and `filename_out`. -/
def vfsSplitPath (path : List Byte) : Option (List Byte × List Byte) :=
  if path.length = 0 ∨ path.head? ≠ some slash then none
  else
    match lastSlash path path.length with
    | none => none
    | some i =>
        if i = 0 then some ([slash], path.drop 1) else some (path.take i, path.drop (i + 1))

/-- The status of a call of `vfs_open`, its result, and the strings that it stored in
`parent_path` and `filename`. -/
structure VfsOpened (V : Type) where
  status : ℤ
  result : Option V
  stored : Option (List Byte × List Byte)

/-- `vfs_open` for a path that is a C string, so it has no NUL in it. -/
def vfsOpen {V : Type} (ops : VnodeOps V) (root : Option V) (path : List Byte) (flags : Word) :
    VfsOpened V :=
  match vfsLookup ops.lookup root path with
  | some node =>
      if hasBits flags oCreat ∧ hasBits flags oExcl then ⟨-17, none, none⟩
      else if hasBits flags oDirectory ∧ ops.isDir node = false then ⟨-20, none, none⟩
      else ⟨0, some node, none⟩
  | none =>
      if hasBits flags oCreat then
        match vfsSplitPath path with
        | none => ⟨-2, none, none⟩
        | some (parentPath, filename) =>
            let stored := some (parentPath, filename)
            match vfsLookup ops.lookup root parentPath with
            | none => ⟨-2, none, stored⟩
            | some parent =>
                if ops.isDir parent = false then ⟨-20, none, stored⟩
                else
                  match ops.create parent with
                  | none => ⟨-30, none, stored⟩
                  | some create =>
                      match create filename with
                      | none => ⟨-5, none, stored⟩
                      | some node => ⟨0, some node, stored⟩
      else ⟨-2, none, none⟩

/-- Every write into the buffers, the NUL behind each string included, has an index
below the size of its buffer. -/
def VfsOpened.InBuffers {V : Type} (opened : VfsOpened V) : Prop :=
  ∀ parentPath filename, opened.stored = some (parentPath, filename) →
    (∀ i ≤ parentPath.length, i < pathMax) ∧ ∀ i ≤ filename.length, i < filenameMax

/-- The part before the last slash and the part behind it fit into the buffers. -/
def FitsBuffers (path : List Byte) : Prop :=
  ∀ parent name, path = parent ++ slash :: name → slash ∉ name →
    parent.length < pathMax ∧ name.length < filenameMax

theorem lastSlash_append (parent name : List Byte) (hname : slash ∉ name) (n : ℕ)
    (hle : n ≤ name.length) :
    lastSlash (parent ++ slash :: name) (parent.length + 1 + n) = some parent.length := by
  induction n with
  | zero => simp [lastSlash]
  | succ n ih =>
      have hne : (parent ++ slash :: name)[parent.length + 1 + n]? ≠ some slash := by
        rw [List.getElem?_append_right (by omega),
          show parent.length + 1 + n - parent.length = n + 1 from by omega,
          List.getElem?_cons_succ]
        exact fun h => hname (List.mem_of_getElem? h)
      rw [← Nat.add_assoc, lastSlash, if_neg hne]
      exact ih (by omega)

/-- A path with a slash in it splits at the last one. -/
theorem exists_last_slash {path : List Byte} (h : slash ∈ path) :
    ∃ parent name, path = parent ++ slash :: name ∧ slash ∉ name := by
  induction path with
  | nil => cases h
  | cons b path ih =>
      by_cases hrest : slash ∈ path
      · obtain ⟨parent, name, hpath, hname⟩ := ih hrest
        exact ⟨b :: parent, name, by rw [hpath, List.cons_append], hname⟩
      · obtain rfl : b = slash := by
          rcases List.mem_cons.mp h with heq | hmem
          · exact heq.symm
          · exact absurd hmem hrest
        exact ⟨[], path, rfl, hrest⟩

/-- What is stored of an absolute path. -/
theorem vfsSplitPath_eq {parent name : List Byte} (hname : slash ∉ name)
    (habs : (parent ++ slash :: name).head? = some slash) :
    vfsSplitPath (parent ++ slash :: name) =
      some (if parent = [] then [slash] else parent, name) := by
  have hlast : lastSlash (parent ++ slash :: name) (parent ++ slash :: name).length =
      some parent.length := by
    rw [List.length_append, List.length_cons, Nat.add_comm name.length, ← Nat.add_assoc]
    exact lastSlash_append parent name hname name.length le_rfl
  have hlen : ¬ ((parent ++ slash :: name).length = 0 ∨
      (parent ++ slash :: name).head? ≠ some slash) := by
    simp [habs]
  rw [vfsSplitPath, if_neg hlen, hlast]
  cases parent with
  | nil => simp
  | cons b parent =>
      dsimp only
      rw [if_neg (by simp), if_neg (by simp)]
      simp

theorem vfsSplitPath_of_relative {path : List Byte} (habs : path.head? ≠ some slash) :
    vfsSplitPath path = none := by
  rw [vfsSplitPath, if_pos (Or.inr habs)]

variable {V : Type} {ops : VnodeOps V} {root : Option V} {path : List Byte} {flags : Word}

/-- Something is stored only for an absolute path that is looked up in vain and is to be
created. -/
theorem stored_vfsOpen :
    (vfsOpen ops root path flags).stored =
      if vfsLookup ops.lookup root path = none ∧ hasBits flags oCreat = true then
        vfsSplitPath path
      else none := by
  rw [vfsOpen]
  cases hlookup : vfsLookup ops.lookup root path with
  | some node =>
      simp only [reduceCtorEq, false_and, if_false]
      split_ifs <;> rfl
  | none =>
      cases hflag : hasBits flags oCreat with
      | false => simp
      | true =>
          simp only [if_true, true_and]
          cases hsplit : vfsSplitPath path with
          | none => rfl
          | some split =>
              dsimp only
              split
              · rfl
              · split_ifs
                · rfl
                · split
                  · rfl
                  · split <;> rfl

/-- The buffers hold the two parts of an absolute path exactly when the parts fit.  Of a
path with nothing before its last slash, `"/"` is stored. -/
theorem splitInBuffers_iff (habs : path.head? = some slash) :
    (∀ parentPath filename, vfsSplitPath path = some (parentPath, filename) →
      (∀ i ≤ parentPath.length, i < pathMax) ∧ ∀ i ≤ filename.length, i < filenameMax) ↔
      FitsBuffers path := by
  constructor
  · intro h parent name hpath hname
    subst hpath
    obtain ⟨hparent, hfile⟩ := h _ _ (vfsSplitPath_eq hname habs)
    refine ⟨?_, hfile name.length le_rfl⟩
    by_cases hnil : parent = []
    · rw [hnil]
      decide
    · rw [if_neg hnil] at hparent
      exact hparent parent.length le_rfl
  · intro h parentPath filename hsplit
    obtain ⟨parent, name, hpath, hname⟩ := exists_last_slash (List.mem_of_mem_head? habs)
    obtain ⟨hparent, hfile⟩ := h parent name hpath hname
    rw [hpath] at habs hsplit
    rw [vfsSplitPath_eq hname habs] at hsplit
    obtain ⟨rfl, rfl⟩ : (if parent = [] then [slash] else parent) = parentPath ∧
        name = filename := by simpa using hsplit
    refine ⟨fun i hi => ?_, fun i hi => lt_of_le_of_lt hi hfile⟩
    by_cases hnil : parent = []
    · rw [if_pos hnil, List.length_singleton] at hi
      exact lt_of_le_of_lt hi (by decide)
    · rw [if_neg hnil] at hi
      exact lt_of_le_of_lt hi hparent

/-- `vfs_open` stays inside its buffers exactly when it does not get as far as splitting
the path, or the two parts of the path fit. -/
theorem vfsOpen_inBuffers_iff (ops : VnodeOps V) (root : Option V) (path : List Byte)
    (flags : Word) :
    (vfsOpen ops root path flags).InBuffers ↔
      vfsLookup ops.lookup root path ≠ none ∨ hasBits flags oCreat = false ∨
        path.head? ≠ some slash ∨ FitsBuffers path := by
  rw [VfsOpened.InBuffers, stored_vfsOpen]
  by_cases hsplits : vfsLookup ops.lookup root path = none ∧ hasBits flags oCreat = true
  · rw [if_pos hsplits]
    by_cases habs : path.head? = some slash
    · rw [splitInBuffers_iff habs]
      simp [hsplits, habs]
    · simp [vfsSplitPath_of_relative habs, habs]
  · rw [if_neg hsplits]
    constructor
    · intro _
      by_contra hcon
      simp only [not_or, not_not, Bool.not_eq_false] at hcon
      exact hsplits ⟨hcon.1, hcon.2.1⟩
    · intro _ _ _ h
      cases h

/-- A file system with an empty root directory. -/
def emptyVnodeOps : VnodeOps Unit where
  lookup _ _ := none
  isDir _ := true
  create _ := none

/-- A slash and 128 other bytes. -/
def longPath : List Byte := slash :: List.replicate 128 (0x61 : Byte)

/-- With `O_CREAT`, the NUL behind the name is written at index 128. -/
theorem not_vfsOpen_inBuffers :
    ¬ (vfsOpen emptyVnodeOps (some ()) longPath oCreat).InBuffers := by
  have hname : slash ∉ List.replicate 128 (0x61 : Byte) := by
    rw [List.mem_replicate]
    exact fun h => absurd h.2 (by decide)
  have hsplit : vfsSplitPath longPath = some ([slash], List.replicate 128 (0x61 : Byte)) :=
    @vfsSplitPath_eq [] _ hname rfl
  have hlookup : vfsLookup emptyVnodeOps.lookup (some ()) longPath = none := by
    decide +kernel
  intro h
  rw [VfsOpened.InBuffers, stored_vfsOpen, if_pos ⟨hlookup, by decide⟩, hsplit] at h
  have hlt := (h _ _ rfl).2 128 (by rw [List.length_replicate])
  exact absurd hlt (by decide)

end Utopia
