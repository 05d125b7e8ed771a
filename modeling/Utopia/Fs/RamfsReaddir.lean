/-
The listings of `ramfs_readdir`, and the directories of both file systems as lists.
-/
import Utopia.Fs.Ramfs
import Utopia.Fs.TarfsReaddir
import Mathlib.Data.Finset.Card
import Mathlib.Data.Finset.Range

namespace Utopia

/-- `ramfs_readdir`; the failure is `none`. -/
def Ramfs.readdir (s : Ramfs) (dir : NodePtr) (index : Word) : Option VfsDirent :=
  if (s.node dir).type ≠ .dir then none
  else if index = 0 then some ⟨dir, 1, 4, [dot]⟩
  else if index = 1 then some ⟨(s.node dir).parent.getD dir, 2, 4, [dot, dot]⟩
  else
    (s.node dir).children[(index - 2).toNat]?.map fun child =>
      ⟨child, index + 1, if (s.node child).type = .dir then 4 else 8, (s.node child).name⟩

/-! ### Listings -/

/-- The listing of a directory: two entries, then one for each of the children. -/
def listing (self parent : VfsDirent) (item : Word → NodePtr → VfsDirent)
    (children : List NodePtr) : List VfsDirent :=
  self :: parent :: children.mapIdx fun k c => item (BitVec.ofNat 64 (k + 2)) c

/-- What a directory returns for each index is this list, whose names are strings. -/
structure Listed (readdir : Word → Option VfsDirent) (entries : List VfsDirent) : Prop where
  length_lt : entries.length < 2 ^ 63
  entry : ∀ i, readdir i = entries[i.toNat]?
  names : ∀ e ∈ entries, 0 ∉ e.name ∧ e.name.length ≤ 255

/-- A directory has one listing. -/
theorem Listed.unique {readdir : Word → Option VfsDirent} {entries entries' : List VfsDirent}
    (h : Listed readdir entries) (h' : Listed readdir entries') : entries = entries' := by
  apply List.ext_getElem?
  intro i
  by_cases hi : i < 2 ^ 64
  · have hword : (BitVec.ofNat 64 i).toNat = i := by
      rw [BitVec.toNat_ofNat, Nat.mod_eq_of_lt hi]
    rw [← hword, ← h.entry, ← h'.entry]
  · have hlen := h.length_lt
    have hlen' := h'.length_lt
    rw [List.getElem?_eq_none (by omega), List.getElem?_eq_none (by omega)]

section Listing

variable {self parent : VfsDirent} {item : Word → NodePtr → VfsDirent} {children : List NodePtr}
  {readdir : Word → Option VfsDirent}

theorem getElem?_listing (i : Word) : (listing self parent item children)[i.toNat]? =
    if i = 0 then some self else if i = 1 then some parent
    else children[(i - 2).toNat]?.map (item i) := by
  by_cases h0 : i = 0
  · subst h0
    rfl
  by_cases h1 : i = 1
  · subst h1
    rfl
  have hsub : i.toNat = (i - 2).toNat + 2 := by bv_omega
  have hi : BitVec.ofNat 64 ((i - 2).toNat + 2) = i := by
    rw [← hsub, BitVec.ofNat_toNat, BitVec.setWidth_eq]
  rw [if_neg h0, if_neg h1, hsub, listing, List.getElem?_cons_succ, List.getElem?_cons_succ,
    List.getElem?_mapIdx, hi]

/-- A directory is listed if it has such entries and its children have such names. -/
theorem listed_listing (hlen : children.length ≤ 2 ^ 61)
    (hentry : ∀ i, readdir i = if i = 0 then some self else if i = 1 then some parent
      else children[(i - 2).toNat]?.map (item i))
    (hself : self.name = [dot]) (hparent : parent.name = [dot, dot])
    (hnames : ∀ i, ∀ c ∈ children, 0 ∉ (item i c).name ∧ (item i c).name.length ≤ 255) :
    Listed readdir (listing self parent item children) := by
  refine ⟨?_, fun i => (hentry i).trans (getElem?_listing i).symm, fun e he => ?_⟩
  · rw [listing, List.length_cons, List.length_cons, List.length_mapIdx]
    omega
  · rw [listing, List.mem_cons, List.mem_cons, List.mem_mapIdx] at he
    rcases he with rfl | rfl | ⟨k, hk, rfl⟩
    · rw [hself]
      decide
    · rw [hparent]
      decide
    · exact hnames _ _ (List.getElem_mem hk)

end Listing

/-! ### Nodes in memory -/

/-- The nodes lie at different addresses, as their fields need them. -/
structure Placed (count : ℕ) (address : NodePtr → Word) : Prop where
  aligned : ∀ n < count, 8 ∣ (address n).toNat
  distinct : ∀ n < count, ∀ m < count, address n = address m → n = m

theorem Placed.count_le {count : ℕ} {address : NodePtr → Word} (h : Placed count address) :
    count ≤ 2 ^ 61 := by
  have hcard : (Finset.range count).card ≤ (Finset.range (2 ^ 61)).card := by
    refine Finset.card_le_card_of_injOn (fun n => (address n).toNat / 8) (fun n _ => ?_) ?_
    · have hlt := (address n).isLt
      rw [Finset.mem_coe, Finset.mem_range]
      exact Nat.div_lt_of_lt_mul hlt
    · intro n hn m hm heq
      rw [Finset.mem_coe, Finset.mem_range] at hn hm
      have hn8 := h.aligned n hn
      have hm8 := h.aligned m hm
      refine h.distinct n hn m hm (BitVec.eq_of_toNat_eq ?_)
      dsimp only at heq
      omega
  rwa [Finset.card_range, Finset.card_range] at hcard

/-! ### States of a ramfs -/

namespace Ramfs

/-- The states that a new mount comes to. -/
inductive Reached : Ramfs → Prop
  | mounted : Reached mounted
  | made {s s' : Ramfs} {type : VnodeType} {granted : Bool} {p n : NodePtr} {name : List Byte}
      (before : Reached s) (below : p < s.count) (text : 0 ∉ name)
      (made : s.make type granted p name = some (n, s')) : Reached s'

/-- The children of a node are different nodes, and names are strings that fit their field. -/
structure Named (s : Ramfs) : Prop where
  root_lt : root < s.count
  children : ∀ n < s.count, ∀ c ∈ (s.node n).children, c < s.count
  nodup : ∀ n < s.count, (s.node n).children.Nodup
  names : ∀ n < s.count, 0 ∉ (s.node n).name ∧ (s.node n).name.length ≤ 63

theorem Named.attach {s : Ramfs} {p : NodePtr} {v : RamfsEntry} (h : s.Named) (hp : p < s.count)
    (hname : 0 ∉ v.name ∧ v.name.length ≤ 63) (hleaf : v.children = []) : (s.attach p v).Named := by
  have hcases : ∀ n < s.count + 1, n = s.count ∨ n < s.count ∧
      (((s.attach p v).node n).children = (s.node n).children ∨
        ((s.attach p v).node n).children = s.count :: (s.node n).children) := by
    intro n hn
    rcases Nat.lt_succ_iff_lt_or_eq.mp hn with hlt | rfl
    · refine .inr ⟨hlt, ?_⟩
      by_cases hnp : n = p
      · subst hnp
        exact .inr (by rw [node_attach_parent hp])
      · exact .inl (by rw [node_attach_of_ne hlt hnp])
    · exact .inl rfl
  have hnew : ((s.attach p v).node s.count).children = [] := by rw [node_attach_new, hleaf]
  refine ⟨Nat.lt_succ_of_lt h.root_lt, fun n hn c hc => ?_, fun n hn => ?_, fun n hn => ?_⟩
  · rcases hcases n hn with rfl | ⟨hlt, heq | heq⟩
    · rw [hnew] at hc
      cases hc
    · rw [heq] at hc
      exact Nat.lt_succ_of_lt (h.children n hlt c hc)
    · rw [heq] at hc
      rcases List.mem_cons.mp hc with rfl | hc
      · exact Nat.lt_succ_self _
      · exact Nat.lt_succ_of_lt (h.children n hlt c hc)
  · rcases hcases n hn with rfl | ⟨hlt, heq | heq⟩
    · rw [hnew]
      exact List.nodup_nil
    · rw [heq]
      exact h.nodup n hlt
    · rw [heq]
      exact List.nodup_cons.mpr ⟨fun hmem => (h.children n hlt _ hmem).false, h.nodup n hlt⟩
  · rcases Nat.lt_succ_iff_lt_or_eq.mp hn with hlt | rfl
    · rw [name_attach hp hlt]
      exact h.names n hlt
    · rw [node_attach_new]
      exact hname

theorem Reached.named {s : Ramfs} (h : Reached s) : s.Named := by
  induction h with
  | mounted =>
      have hroot : ∀ n < Ramfs.mounted.count, n = root := fun n hn => Nat.lt_one_iff.mp hn
      refine ⟨Nat.one_pos, fun n hn c hc => ?_, fun n hn => ?_, fun n hn => ?_⟩
      · rw [hroot n hn] at hc
        cases hc
      · rw [hroot n hn]
        exact List.nodup_nil
      · rw [hroot n hn]
        decide
  | made _ below text made ih =>
      obtain ⟨-, -, -, -, rfl⟩ := (make_eq_some_iff below).mp made
      refine ih.attach below ⟨fun hmem => text (List.mem_of_mem_take hmem), ?_⟩ rfl
      exact List.length_take_le _ _

end Ramfs

/-! ### Directories -/

/-- The directories of an archive and of a memory file system: what `readdir` returns for
each index, and the inode number that a node stands for in it. -/
inductive IsDirectory : (Word → Option VfsDirent) → (NodePtr → Word) → Prop
  | tarfs {granted : ℕ → Bool} {image : List Byte} {s : Tarfs} {n : NodePtr}
      {address : NodePtr → Word} (mounted : Tarfs.mount granted image = some (.ok s))
      (below : n < s.count) (dir : (s.node n).type = .dir) (placed : Placed s.count address) :
      IsDirectory (s.readdir n) (BitVec.ofNat 64)
  | ramfs {s : Ramfs} {n : NodePtr} {address : NodePtr → Word} (reached : Ramfs.Reached s)
      (below : n < s.count) (dir : (s.node n).type = .dir) (placed : Placed s.count address) :
      IsDirectory (s.readdir n) address

theorem Tarfs.readdir_eq {s : Tarfs} {n : NodePtr} (hdir : (s.node n).type = .dir) (i : Word) :
    s.readdir n i =
      if i = 0 then some ⟨(s.node n).ino, 1, 4, [dot]⟩
      else if i = 1 then some ⟨(s.node ((s.node n).parent.getD n)).ino, 2, 4, [dot, dot]⟩
      else (s.node n).children[(i - 2).toNat]?.map fun child =>
        let r := (s.follow maxSymlinkDepth child).getD child
        ⟨(s.node r).ino, i + 1, if (s.node r).type = .dir then 4 else 8, (s.node child).name⟩ := by
  rw [readdir, if_neg (not_not.mpr hdir)]
  by_cases h0 : i = 0
  · subst h0
    rfl
  by_cases h1 : i = 1
  · subst h1
    rfl
  rw [if_neg (by bv_omega), if_neg h0, if_neg h1]

theorem Ramfs.readdir_eq {s : Ramfs} {n : NodePtr} (hdir : (s.node n).type = .dir) (i : Word) :
    s.readdir n i =
      if i = 0 then some ⟨n, 1, 4, [dot]⟩
      else if i = 1 then some ⟨(s.node n).parent.getD n, 2, 4, [dot, dot]⟩
      else (s.node n).children[(i - 2).toNat]?.map fun child =>
        ⟨child, i + 1, if (s.node child).type = .dir then 4 else 8, (s.node child).name⟩ := by
  rw [readdir, if_neg (not_not.mpr hdir)]

/-- Every directory has a listing. -/
theorem IsDirectory.exists_listed {readdir : Word → Option VfsDirent} {ino : NodePtr → Word}
    (h : IsDirectory readdir ino) : ∃ entries, Listed readdir entries := by
  cases h with
  | @tarfs granted image s n address mounted below dir placed =>
      have hs := Tarfs.mount_wellFormed mounted
      obtain ⟨_, hlast⟩ := Tarfs.exists_parsing mounted
      have hlen := (length_le_count (hlast.nodup n below)
        fun c hc => (hs.children n below c hc).2.1).trans placed.count_le
      refine ⟨_, listed_listing hlen (Tarfs.readdir_eq dir) rfl rfl fun i c hc => ?_⟩
      obtain ⟨hlow, hlt, -⟩ := hs.children n below c hc
      obtain ⟨-, htext, hshort⟩ := hs.names c hlt (Nat.ne_zero_of_lt hlow)
      exact ⟨htext, hshort⟩
  | @ramfs s n _ reached below dir placed =>
      have hs := reached.named
      have hlen := (length_le_count (hs.nodup n below) (hs.children n below)).trans placed.count_le
      refine ⟨_, listed_listing hlen (Ramfs.readdir_eq dir) rfl rfl fun i c hc => ?_⟩
      obtain ⟨htext, hshort⟩ := hs.names c (hs.children n below c hc)
      exact ⟨htext, hshort.trans (by decide)⟩

end Utopia
