/-
The listings of `tarfs_readdir`: in which archives every name is listed once.
-/
import Utopia.Fs.TarfsLookup
import Mathlib.Data.List.Nodup

namespace Utopia

/-- `vfs_dirent_t`. -/
structure VfsDirent where
  ino : NodePtr
  off : Word
  type : Word
  name : List Byte
deriving DecidableEq, Repr

/-- The names that a walk does not look up. -/
def IsDots (c : List Byte) : Prop := c = [dot] ∨ c = [dot, dot]

instance (c : List Byte) : Decidable (IsDots c) := inferInstanceAs (Decidable (_ ∨ _))

/-- A list of different nodes is no longer than there are nodes. -/
theorem length_le_count {children : List NodePtr} {count : ℕ} (hnodup : children.Nodup)
    (hlt : ∀ c ∈ children, c < count) : children.length ≤ count := by
  have hle := hnodup.length_le_of_subset fun c hc => List.mem_range.mpr (hlt c hc)
  rwa [List.length_range] at hle

namespace Tarfs

variable {s s' s₀ : Tarfs} {n m p k : NodePtr} {c base : List Byte}
  {q r cs dir : List (List Byte)} {image : List Byte} {granted : ℕ → Bool} {hdr : TarHeader}
  {data : ℕ} {size offset : Word} {v : TarfsNode}

/-- `tarfs_readdir`; the failure is `none`. -/
def readdir (s : Tarfs) (dir : NodePtr) (index : Word) : Option VfsDirent :=
  if (s.node dir).type ≠ .dir then none
  else if index < 2 then
    let t := if index = 1 then (s.node dir).parent.getD dir else dir
    some ⟨(s.node t).ino, index + 1, 4, if index = 0 then [dot] else [dot, dot]⟩
  else
    (s.node dir).children[(index - 2).toNat]?.map fun child =>
      let r := (s.follow maxSymlinkDepth child).getD child
      ⟨(s.node r).ino, index + 1, if (s.node r).type = .dir then 4 else 8, (s.node child).name⟩

/-- A listing has `.`, `..` and then each of the children, and ends behind them; no name is in
it twice, no name is empty, and no child has one of the first two names. -/
structure ListsOnce (s : Tarfs) (n : NodePtr) : Prop where
  self : (s.readdir n 0).map VfsDirent.name = some [dot]
  parent : (s.readdir n 1).map VfsDirent.name = some [dot, dot]
  listed : ∀ i : ℕ, i + 2 < 2 ^ 64 →
    (s.readdir n (BitVec.ofNat 64 (i + 2))).map VfsDirent.name =
      (s.node n).children[i]?.map fun c => (s.node c).name
  children : ∀ i e, 2 ≤ i → s.readdir n i = some e →
    ∃ c ∈ (s.node n).children, (s.node c).name = e.name
  plain : ∀ c ∈ (s.node n).children, ¬ IsDots (s.node c).name
  nonempty : ∀ i e, s.readdir n i = some e → e.name ≠ []
  distinct : ∀ i j e e', s.readdir n i = some e → s.readdir n j = some e' → e.name = e'.name →
    i = j

/-- No directory has a child with the name `.` or `..`. -/
def DotFree (s : Tarfs) : Prop :=
  ∀ n < s.count, (s.node n).type = .dir → ∀ c ∈ (s.node n).children, ¬ IsDots (s.node c).name

/-! ### One listing -/

theorem readdir_child (hdir : (s.node n).type = .dir) {i : Word} {e : VfsDirent} (hi : 2 ≤ i)
    (h : s.readdir n i = some e) :
    ∃ c, (s.node n).children[(i - 2).toNat]? = some c ∧ (s.node c).name = e.name := by
  rw [readdir, if_neg (not_not.mpr hdir), if_neg (BitVec.not_lt.mpr hi),
    Option.map_eq_some_iff] at h
  obtain ⟨c, hc, rfl⟩ := h
  exact ⟨c, hc, rfl⟩

/-- The indices from 2 on are those of the children. -/
theorem readdir_listed (hdir : (s.node n).type = .dir) {i : ℕ} (hi : i + 2 < 2 ^ 64) :
    (s.readdir n (BitVec.ofNat 64 (i + 2))).map VfsDirent.name =
      (s.node n).children[i]?.map fun c => (s.node c).name := by
  have hnat : (BitVec.ofNat 64 (i + 2)).toNat = i + 2 := by
    rw [BitVec.toNat_ofNat, Nat.mod_eq_of_lt hi]
  have hchild : ¬ BitVec.ofNat 64 (i + 2) < 2 := by
    rw [BitVec.lt_def, hnat]
    exact Nat.not_lt.mpr (Nat.le_add_left 2 i)
  have hindex : (BitVec.ofNat 64 (i + 2) - 2).toNat = i := by
    bv_omega
  rw [readdir, if_neg (not_not.mpr hdir), if_neg hchild, hindex, Option.map_map]
  rfl

theorem readdir_dots (hdir : (s.node n).type = .dir) {i : Word} {e : VfsDirent} (hi : i < 2)
    (h : s.readdir n i = some e) :
    i = 0 ∧ e.name = [dot] ∨ i = 1 ∧ e.name = [dot, dot] := by
  rw [readdir, if_neg (not_not.mpr hdir), if_pos hi, Option.some.injEq] at h
  subst h
  have hcases : i = 0 ∨ i = 1 := by
    rw [BitVec.lt_def] at hi
    rcases Nat.lt_succ_iff_lt_or_eq.mp hi with hlt | heq
    · exact Or.inl (BitVec.eq_of_toNat_eq (Nat.lt_one_iff.mp hlt))
    · exact Or.inr (BitVec.eq_of_toNat_eq heq)
  rcases hcases with rfl | rfl
  · exact Or.inl ⟨rfl, rfl⟩
  · exact Or.inr ⟨rfl, rfl⟩

/-- The listings are right exactly where no child of a directory has the name of one of the
two entries that every directory has. -/
theorem listsOnce_iff (hs : s.WellFormed) (hnodup : ∀ n < s.count, (s.node n).children.Nodup)
    (hn : n < s.count) (hdir : (s.node n).type = .dir) :
    s.ListsOnce n ↔ ∀ c ∈ (s.node n).children, ¬ IsDots (s.node c).name := by
  have hself : (s.readdir n 0).map VfsDirent.name = some [dot] := by
    rw [readdir, if_neg (not_not.mpr hdir)]
    rfl
  have hparent : (s.readdir n 1).map VfsDirent.name = some [dot, dot] := by
    rw [readdir, if_neg (not_not.mpr hdir)]
    rfl
  constructor
  · exact ListsOnce.plain
  · intro h
    have hchild : ∀ i e, 2 ≤ i → s.readdir n i = some e →
        ∃ c, (s.node n).children[(i - 2).toNat]? = some c ∧ c ∈ (s.node n).children ∧
          (s.node c).name = e.name := by
      intro i e hi he
      obtain ⟨c, hc, hname⟩ := readdir_child hdir hi he
      exact ⟨c, hc, List.mem_of_getElem? hc, hname⟩
    refine ⟨hself, hparent, fun i => readdir_listed hdir, fun i e hi he => ?_, h, fun i e he => ?_,
      fun i j e e' he he' hsame => ?_⟩
    · obtain ⟨c, -, hc, hname⟩ := hchild i e hi he
      exact ⟨c, hc, hname⟩
    · by_cases hi : i < 2
      · rcases readdir_dots hdir hi he with ⟨-, hname⟩ | ⟨-, hname⟩ <;> rw [hname] <;> simp
      · obtain ⟨c, -, hc, hname⟩ := hchild i e (BitVec.not_lt.mp hi) he
        obtain ⟨hlow, hlt, -⟩ := hs.children n hn c hc
        rw [← hname]
        exact (hs.names c hlt (Nat.ne_zero_of_lt hlow)).1.1
    · by_cases hi : i < 2 <;> by_cases hj : j < 2
      · rcases readdir_dots hdir hi he with ⟨rfl, hname⟩ | ⟨rfl, hname⟩ <;>
          rcases readdir_dots hdir hj he' with ⟨rfl, hname'⟩ | ⟨rfl, hname'⟩ <;>
          rw [hname, hname'] at hsame <;> first | rfl | cases hsame
      · obtain ⟨c, -, hc, hname⟩ := hchild j e' (BitVec.not_lt.mp hj) he'
        have hdots := readdir_dots hdir hi he
        rw [hsame, ← hname] at hdots
        exact absurd (hdots.imp And.right And.right) (h c hc)
      · obtain ⟨c, -, hc, hname⟩ := hchild i e (BitVec.not_lt.mp hi) he
        have hdots := readdir_dots hdir hj he'
        rw [← hsame, ← hname] at hdots
        exact absurd (hdots.imp And.right And.right) (h c hc)
      · obtain ⟨c, hget, hc, hname⟩ := hchild i e (BitVec.not_lt.mp hi) he
        obtain ⟨d, hget', hd, hname'⟩ := hchild j e' (BitVec.not_lt.mp hj) he'
        have hcd := hs.siblings n hn c hc d hd (hname.trans (hsame.trans hname'.symm))
        subst hcd
        obtain ⟨hlt, heq⟩ := List.getElem?_eq_some_iff.mp hget
        obtain ⟨hlt', heq'⟩ := List.getElem?_eq_some_iff.mp hget'
        have hindex := (List.Nodup.getElem_inj_iff (hnodup n hn)).mp (heq.trans heq'.symm)
        have hi' := BitVec.not_lt.mp hi
        have hj' := BitVec.not_lt.mp hj
        bv_omega

theorem AddsNodes.nodup (h : AddsNodes image s s') (hs : s.WellFormed)
    (hnodup : ∀ n < s.count, (s.node n).children.Nodup) :
    ∀ n < s'.count, (s'.node n).children.Nodup := by
  refine (h.keeps (P := fun s => ∀ n < s.count, (s.node n).children.Nodup) ?_ hs hnodup).2
  intro s s' hs hall hadd n hn
  cases hadd with
  | fail => exact hall n hn
  | @attach p v below _ _ leaf _ =>
      rcases Nat.lt_succ_iff_lt_or_eq.mp hn with hlt | rfl
      · by_cases hnp : n = p
        · rw [hnp, node_attach_parent below]
          refine List.nodup_cons.mpr ⟨fun hmem => ?_, hall p below⟩
          exact absurd (hs.children p below _ hmem).2.1 (Nat.lt_irrefl _)
        · rw [node_attach_of_ne hlt hnp]
          exact hall n hlt
      · rw [node_attach_new]
        exact leaf ▸ List.nodup_nil

theorem AddsNodes.granted_eq (h : AddsNodes image s s') : s'.granted = s.granted := by
  induction h with
  | refl => rfl
  | tail _ hadd ih =>
      cases hadd with
      | attach => exact ih
      | fail => exact ih

theorem Parsing.nodup (h : Parsing granted image offset s) :
    ∀ n < s.count, (s.node n).children.Nodup := by
  induction h with
  | start made =>
      rw [createNode] at made
      split_ifs at made
      obtain ⟨-, rfl⟩ := Prod.mk.inj (Except.ok.inj made)
      intro n hn
      rw [Nat.lt_one_iff.mp hn]
      exact List.nodup_nil
  | next before round ih => exact (parseStep_adds before.wellFormed round).nodup before.wellFormed ih

theorem Parsing.granted_eq (h : Parsing granted image offset s) : s.granted = granted := by
  induction h with
  | start made =>
      rw [createNode] at made
      split_ifs at made
      obtain ⟨-, rfl⟩ := Prod.mk.inj (Except.ok.inj made)
      rfl
  | next before round ih => exact (parseStep_adds before.wellFormed round).granted_eq.trans ih

/-- The loop ends in one of the states that it comes to. -/
theorem exists_parsing (hmount : mount granted image = some (.ok s)) :
    ∃ offset, Parsing granted image offset s := by
  obtain ⟨n, s₀, made⟩ := exists_start hmount
  have hstart : Parsing granted image 0 s₀ := .start made
  obtain ⟨fuel, hloop⟩ := hstart.loop hmount
  generalize (0 : Word) = offset at hstart hloop
  clear made
  induction fuel generalizing s₀ offset with
  | zero => cases hloop
  | succ fuel ih =>
      rw [parseLoop] at hloop
      cases hstep : s₀.parseStep image offset with
      | none =>
          rw [hstep] at hloop
          obtain rfl := Option.some.inj hloop
          exact ⟨offset, hstart⟩
      | some r =>
          rw [hstep] at hloop
          exact ih r.2 r.1 (hstart.next hstep) hloop

/-! ### How many entries a directory can have -/

theorem length_entryPath_le (hdr : TarHeader) : hdr.entryPath.length ≤ 257 := by
  have hbuilt : (tarfsBuildPath hdr 256).length ≤ 256 := by
    rw [tarfsBuildPath]
    split_ifs <;> rw [List.length_append, List.length_take]
    · exact le_trans (Nat.add_le_add_left (Nat.min_le_left _ _) _) (by simp)
    · rw [List.length_take]
      omega
  have hstrip := (tarfsStrip_isInfix (tarfsBuildPath hdr 256)).length_le
  have hcomps : (componentsFrom slash [] (tarfsStrip (tarfsBuildPath hdr 256))).length ≤
      (tarfsStrip (tarfsBuildPath hdr 256)).length + 1 := length_componentsFrom_le _ _
  rw [TarHeader.entryPath, components]
  omega

theorem resolve_count (hs : s.WellFormed) (hp : p < s.count) (hcs : ∀ c ∈ cs, IsNodeName c) :
    Outcome (fun s' => s'.count ≤ s.count + cs.length) (fun r => r.1.count ≤ s.count + cs.length)
      (cs.foldlM resolveStep (s, p)) := by
  induction cs generalizing s p with
  | nil => exact le_rfl
  | cons c cs ih =>
      have hc := hcs c List.mem_cons_self
      have hrest := fun d hd => hcs d (List.mem_cons_of_mem c hd)
      rw [List.foldlM_cons, List.length_cons]
      rcases resolveStep_cases hp c with ⟨n, hfind, hstep⟩ | ⟨hnone, -, hstep⟩ | ⟨-, -, hstep⟩ <;>
        rw [hstep]
      · have hrun := ih hs (hs.children p hp n (mem_of_findChild hfind).1).2.1 hrest
        exact hrun.mono (fun s' hs' => by omega) fun r hr => by omega
      · have hname := name_newNode (s := s) hc .dir
        have hrun := ih (hs.attach hp (hname.symm ▸ hc) (hname.symm ▸ hnone) rfl)
          (Nat.lt_succ_self _) hrest
        have hcount : (s.attach p (s.newNode c .dir)).count = s.count + 1 := rfl
        exact hrun.mono (fun s' hs' => by omega) fun r hr => by omega
      · exact Nat.le_add_right _ _

/-- A header makes no more nodes than its path has components. -/
theorem parseEntry_count (hs : s.WellFormed) (hdr : TarHeader) (data : ℕ) (size : Word) :
    (s.parseEntry hdr data size).count ≤ s.count + 257 := by
  rcases s.parseEntry_eq hdr data size with ⟨-, heq⟩ | ⟨dir, base, hpath, heq⟩
  · rw [heq]
    exact Nat.le_add_right _ _
  have hnames : ∀ c ∈ dir ++ [base], IsNodeName c := fun c hc =>
    @isNodeName_of_mem hdr _ (hpath ▸ hc)
  have hdirs : ∀ c ∈ dir, IsNodeName c := fun c hc => hnames c (List.mem_append_left _ hc)
  have hlen := length_entryPath_le hdr
  rw [hpath, List.length_append, List.length_singleton] at hlen
  have hresolve := resolve_count hs hs.root_lt hdirs
  rw [heq, addPath]
  cases hrun : dir.foldlM resolveStep (s, Tarfs.root) with
  | error s' =>
      have hle := hresolve.of_error hrun
      dsimp only
      omega
  | ok a =>
      obtain ⟨s', p⟩ := a
      have hle := hresolve.of_ok hrun
      have hp := ((resolve_adds [] hs hs.root_lt hdirs).of_ok hrun).2
      have hentry : (s'.addEntry p base hdr data size).count ≤ s'.count + 1 := by
        rw [addEntry_eq hp]
        cases s'.entryValue base hdr data size with
        | none => exact Nat.le_succ _
        | some v =>
            dsimp only
            split_ifs
            · exact le_rfl
            · exact Nat.le_succ _
      dsimp only at hle hp ⊢
      split_ifs <;> omega

theorem parseLoop_count {fuel : ℕ} (hs : s.WellFormed)
    (hloop : parseLoop image fuel offset s = some s') : s'.count ≤ s.count + fuel * 257 := by
  induction fuel generalizing s offset with
  | zero => cases hloop
  | succ fuel ih =>
      rw [parseLoop] at hloop
      cases hstep : s.parseStep image offset with
      | none =>
          rw [hstep] at hloop
          obtain rfl := Option.some.inj hloop
          exact Nat.le_add_right _ _
      | some r =>
          rw [hstep] at hloop
          have hrest := ih ((parseStep_adds hs hstep).wellFormed hs) hloop
          have hround : r.2.count ≤ s.count + 257 := by
            rcases parseStep_eq hstep with ⟨hdr, data, size, -, heq⟩ | ⟨-, heq⟩ <;> rw [heq]
            · exact parseEntry_count hs hdr data size
            · exact Nat.le_add_right _ _
          rw [Nat.succ_mul]
          omega

/-- The nodes of an archive that memory can hold are fewer than the indices of a listing. -/
theorem mount_count (hmount : mount granted image = some (.ok s)) (hlen : image.length < 2 ^ 64) :
    s.count + 2 < 2 ^ 64 := by
  obtain ⟨n, s₀, made⟩ := exists_start hmount
  have hstart : Parsing granted image 0 s₀ := .start made
  have hone : s₀.count = 1 := by
    rw [createNode] at made
    split_ifs at made
    obtain ⟨-, rfl⟩ := Prod.mk.inj (Except.ok.inj made)
    rfl
  rw [mount, made] at hmount
  obtain ⟨t, ht, hts⟩ := Option.map_eq_some_iff.mp hmount
  obtain rfl := Except.ok.inj hts
  rw [parseArchive] at ht
  split_ifs at ht
  · obtain rfl := Option.some.inj ht
    omega
  · have hle := parseLoop_count hstart.wellFormed ht
    omega

/-! ### Entries that make no such child -/

/-- The header is a hard link, and `tarfs_walk` does not find a file for it. -/
def NoTarget (s : Tarfs) (hdr : TarHeader) : Prop :=
  hdr.typeflag = 0x31 ∧ ∀ t, s.walk Tarfs.root (tarfsStrip (cString hdr.linkname)) = some t →
    (s.node t).type = .dir

theorem entryValue_eq_none_iff :
    s.entryValue base hdr data size = none ↔ s.NoTarget hdr := by
  rw [entryValue, NoTarget]
  by_cases hdir : hdr.typeflag = 0x35
  · simp [hdir]
  by_cases hlink : hdr.typeflag = 0x32
  · simp [hlink]
  by_cases hhard : hdr.typeflag = 0x31
  · rw [if_neg hdir, if_neg hlink, if_pos hhard]
    cases s.walk Tarfs.root (tarfsStrip (cString hdr.linkname)) with
    | none => simp [hhard]
    | some t => by_cases htype : (s.node t).type = .dir <;> simp [hhard, htype]
  · rw [if_neg hdir, if_neg hlink, if_neg hhard]
    exact iff_of_false (by simp) fun h => hhard h.1

/-- Where the cleaned path of the header has the name `.` or `..`, it leads there through
something that is not a directory, or the entry is a hard link that is not made. -/
def CreatesNoDots (s : Tarfs) (hdr : TarHeader) : Prop :=
  ∀ q c r, hdr.entryPath = q ++ c :: r → IsDots c →
    (∃ m, s.descend Tarfs.root q = some m ∧ (s.node m).type ≠ .dir) ∨
      r = [] ∧ ∀ s' p, q.foldlM resolveStep (s, Tarfs.root) = .ok (s', p) → s'.NoTarget hdr

theorem DotFree.failCall (h : s.DotFree) : s.failCall.DotFree := h

theorem DotFree.attach (h : s.DotFree) (hs : s.WellFormed) (hp : p < s.count)
    (hleaf : v.children = []) (hnew : (s.node p).type = .dir → ¬ IsDots v.name) :
    (s.attach p v).DotFree := by
  intro n hn hdir c hc
  rcases Nat.lt_succ_iff_lt_or_eq.mp hn with hlt | rfl
  · rw [(extends_attach hp).field TarfsNode.type (fun _ _ => rfl) hlt] at hdir
    rcases (mem_children_attach hp hlt).mp hc with hc | ⟨rfl, rfl⟩
    · rw [name_attach hp (hs.children n hlt c hc).2.1]
      exact h n hlt hdir c hc
    · rw [node_attach_new]
      exact hnew hdir
  · rw [node_attach_new] at hc
    exact absurd (hleaf ▸ hc) List.not_mem_nil

/-- The directories that `tarfs_resolve_dir_path` makes have other names, or are not below a
directory. -/
theorem DotFree.resolve (h : s.DotFree) (hs : s.WellFormed) (hp : p < s.count)
    (hcs : ∀ c ∈ cs, IsNodeName c)
    (hdots : ∀ q c r, cs = q ++ c :: r → IsDots c →
      ∃ m, s.descend p q = some m ∧ (s.node m).type ≠ .dir) :
    Outcome DotFree (fun r => r.1.DotFree) (cs.foldlM resolveStep (s, p)) := by
  induction cs generalizing s p with
  | nil => exact h
  | cons c cs ih =>
      have hc := hcs c List.mem_cons_self
      have hrest := fun d hd => hcs d (List.mem_cons_of_mem c hd)
      rw [List.foldlM_cons]
      rcases resolveStep_cases hp c with ⟨n, hfind, hstep⟩ | ⟨hnone, -, hstep⟩ | ⟨-, -, hstep⟩ <;>
        rw [hstep]
      · refine ih h hs (hs.children p hp n (mem_of_findChild hfind).1).2.1 hrest fun q d r hq hd => ?_
        obtain ⟨m, hm, htype⟩ := hdots (c :: q) d r (by rw [hq]; rfl) hd
        rw [descend_cons, hfind] at hm
        exact ⟨m, hm, htype⟩
      · have hname := name_newNode (s := s) hc .dir
        have hwf := hs.attach hp (hname.symm ▸ hc) (hname.symm ▸ hnone) rfl
        have hfree : (s.attach p (s.newNode c .dir)).DotFree := by
          refine h.attach hs hp rfl fun hdir hd => ?_
          rw [hname] at hd
          obtain ⟨m, hm, htype⟩ := hdots [] c cs rfl hd
          obtain rfl := Option.some.inj hm
          exact htype hdir
        refine ih hfree hwf (Nat.lt_succ_self _) hrest fun q d r hq hd => ?_
        obtain ⟨m, hm, -⟩ := hdots (c :: q) d r (by rw [hq]; rfl) hd
        rw [descend_cons, hnone] at hm
        cases hm
      · exact h.failCall

theorem DotFree.parseEntry (h : s.DotFree) (hs : s.WellFormed) (hclean : s.CreatesNoDots hdr)
    (data : ℕ) (size : Word) : (s.parseEntry hdr data size).DotFree := by
  rcases s.parseEntry_eq hdr data size with ⟨-, heq⟩ | ⟨dir, base, hpath, heq⟩
  · rwa [heq]
  have hnames : ∀ c ∈ dir ++ [base], IsNodeName c := fun c hc =>
    @isNodeName_of_mem hdr _ (hpath ▸ hc)
  have hdirs : ∀ c ∈ dir, IsNodeName c := fun c hc => hnames c (List.mem_append_left _ hc)
  have hresolve := h.resolve hs hs.root_lt hdirs fun q c r hq hc => by
    rcases hclean q c (r ++ [base]) (by rw [hpath, hq, List.append_assoc]; rfl) hc with
      hother | ⟨hnil, -⟩
    · exact hother
    · simp at hnil
  rw [heq, addPath]
  cases hrun : dir.foldlM resolveStep (s, Tarfs.root) with
  | error s' => exact hresolve.of_error hrun
  | ok a =>
      obtain ⟨s', p⟩ := a
      have hfree := hresolve.of_ok hrun
      obtain ⟨hadds, hp⟩ := (resolve_adds [] hs hs.root_lt hdirs).of_ok hrun
      have hs' := hadds.wellFormed hs
      dsimp only at hfree ⊢
      split_ifs with hnone
      · rw [addEntry_eq hp]
        cases hvalue : s'.entryValue base hdr data size with
        | none => exact hfree
        | some v =>
            obtain ⟨hname, hchildren⟩ := entryValue_keeps hvalue
            rw [name_newNode (hnames base (by simp))] at hname
            dsimp only
            split_ifs
            · refine hfree.attach hs' hp hchildren fun hdir hd => ?_
              rw [hname] at hd
              rcases hclean dir base [] hpath hd with ⟨m, hm, htype⟩ | ⟨-, htarget⟩
              · -- the node that was there before is the parent
                have hm' := hadds.extends.descend hs hs' hs.root_lt hm
                rw [resolve_descend hs hs.root_lt hdirs hrun, Option.some.injEq] at hm'
                subst hm'
                refine htype ?_
                rw [← hadds.extends.field TarfsNode.type (fun _ _ => rfl) (hs.descend_lt hs.root_lt hm)]
                exact hdir
              · rw [entryValue_eq_none_iff.mpr (htarget s' p hrun)] at hvalue
                cases hvalue
            · exact hfree.failCall
      · exact hfree

/-! ### The whole archive -/

theorem Extends.dotFree (h : s.Extends s') (hs : s.WellFormed) (hfree : s'.DotFree) :
    s.DotFree := by
  intro n hn hdir c hc
  rw [← h.field TarfsNode.type (fun _ _ => rfl) hn] at hdir
  rw [← h.field TarfsNode.name (fun _ _ => rfl) (hs.children n hn c hc).2.1]
  exact hfree n (hn.trans_le h.count) hdir c (h.children n hn c hc)

/-- The nodes on the way of `tarfs_resolve_dir_path` were there before, or are directories. -/
theorem resolve_old_or_dir (hs : s.WellFormed) (hp : p < s.count) (hcs : ∀ c ∈ cs, IsNodeName c)
    (hrun : cs.foldlM resolveStep (s, p) = .ok (s', n)) (hq : q <+: cs)
    (hm : s'.descend p q = some m) : s.descend p q = some m ∨ (s'.node m).type = .dir := by
  induction cs generalizing s p q with
  | nil =>
      obtain rfl := List.prefix_nil.mp hq
      exact Or.inl hm
  | cons c cs ih =>
      cases q with
      | nil => exact Or.inl hm
      | cons d q =>
          obtain ⟨rfl, hq'⟩ := List.cons_prefix_cons.mp hq
          have hc := hcs d List.mem_cons_self
          have hrest := fun e he => hcs e (List.mem_cons_of_mem d he)
          have hadds := ((resolve_adds [] hs hp hcs).of_ok hrun).1
          have hs' := hadds.wellFormed hs
          rw [List.foldlM_cons] at hrun
          rw [descend_cons, Option.bind_eq_some_iff] at hm ⊢
          obtain ⟨k, hk, hm⟩ := hm
          rcases resolveStep_cases hp d with ⟨j, hfind, hstep⟩ | ⟨hnone, -, hstep⟩ | ⟨-, -, hstep⟩ <;>
            rw [hstep] at hrun
          · rw [hadds.extends.findChild hs hs' hp hfind, Option.some.injEq] at hk
            subst hk
            exact (ih hs (hs.children p hp j (mem_of_findChild hfind).1).2.1 hrest hrun hq' hm).imp_left
              fun hold => ⟨j, hfind, hold⟩
          · have hname := name_newNode (s := s) hc .dir
            have hwf := hs.attach hp (hname.symm ▸ hc) (hname.symm ▸ hnone) rfl
            have hlater := ((resolve_adds [] hwf (Nat.lt_succ_self _) hrest).of_ok hrun).1
            have hmem : s.count ∈ ((s.attach p (s.newNode d .dir)).node p).children :=
              (mem_children_attach hp hp).mpr (Or.inr ⟨rfl, rfl⟩)
            have hfound := hwf.findChild_eq_some (Nat.lt_succ_of_lt hp) hmem
            have hnew : ((s.attach p (s.newNode d .dir)).node s.count).name = d := by
              rw [node_attach_new]
              exact hname
            rw [hnew] at hfound
            rw [hlater.extends.findChild hwf hs' (Nat.lt_succ_of_lt hp) hfound,
              Option.some.injEq] at hk
            subst hk
            right
            rcases ih hwf (Nat.lt_succ_self _) hrest hrun hq' hm with hold | hdir
            · rw [hlater.extends.field TarfsNode.type (fun _ _ => rfl)
                (hwf.descend_lt (Nat.lt_succ_self _) hold)]
              exact directoriesOn_new p cs q hq' m hold
            · exact hdir
          · cases hrun

theorem resolve_granted (hs : s.WellFormed) (hp : p < s.count) (hcs : ∀ c ∈ cs, IsNodeName c)
    (hgranted : ∀ k, s.granted k = true) : ∃ s' n, cs.foldlM resolveStep (s, p) = .ok (s', n) := by
  induction cs generalizing s p with
  | nil => exact ⟨s, p, rfl⟩
  | cons c cs ih =>
      have hc := hcs c List.mem_cons_self
      have hrest := fun d hd => hcs d (List.mem_cons_of_mem c hd)
      rw [List.foldlM_cons]
      rcases resolveStep_cases hp c with ⟨k, hfind, hstep⟩ | ⟨hnone, -, hstep⟩ | ⟨-, hfail, -⟩
      · rw [hstep]
        exact ih hs (hs.children p hp k (mem_of_findChild hfind).1).2.1 hrest hgranted
      · rw [hstep]
        have hname := name_newNode (s := s) hc .dir
        exact ih (hs.attach hp (hname.symm ▸ hc) (hname.symm ▸ hnone) rfl) (Nat.lt_succ_self _)
          hrest hgranted
      · rw [hgranted] at hfail
        cases hfail

theorem addEntry_extends (hp : p < s.count) : s.Extends (s.addEntry p base hdr data size) := by
  rw [addEntry_eq hp]
  cases s.entryValue base hdr data size with
  | none => exact Extends.refl s
  | some v =>
      dsimp only
      split_ifs
      · exact extends_attach hp
      · exact ⟨le_rfl, fun _ _ => rfl, fun _ _ _ hc => hc⟩

/-- With all calls of `malloc` granted, an entry that may not make a child with such a name
makes one. -/
theorem createsNoDots_of_dotFree (hs : s.WellFormed) (hgranted : ∀ k, s.granted k = true)
    (hfree : (s.parseEntry hdr data size).DotFree) : s.CreatesNoDots hdr := by
  intro q c r hpath hc
  by_contra hmakes
  rw [not_or] at hmakes
  obtain ⟨hold, hlast⟩ := hmakes
  push Not at hold
  rcases s.parseEntry_eq hdr data size with ⟨hnil, -⟩ | ⟨dir, base, hpath', heq⟩
  · rw [hnil] at hpath
    exact absurd hpath (by simp)
  have hnames : ∀ c ∈ dir ++ [base], IsNodeName c := fun c hc =>
    @isNodeName_of_mem hdr _ (hpath' ▸ hc)
  have hdirs : ∀ c ∈ dir, IsNodeName c := fun c hc => hnames c (List.mem_append_left _ hc)
  obtain ⟨s', p, hrun⟩ := resolve_granted hs hs.root_lt hdirs hgranted
  obtain ⟨hadds, hp⟩ := (resolve_adds [] hs hs.root_lt hdirs).of_ok hrun
  have hs' := hadds.wellFormed hs
  rw [addPath, hrun] at heq
  dsimp only at heq
  have hext : s'.Extends (s.parseEntry hdr data size) := by
    rw [heq]
    split_ifs
    · exact addEntry_extends hp
    · exact Extends.refl s'
  have hfree' := hext.dotFree hs' hfree
  have hway := resolve_descend hs hs.root_lt hdirs hrun
  -- what the names in front of `c` lead to is a directory
  have hdirectory : ∀ m, q <+: dir → s'.descend Tarfs.root q = some m → (s'.node m).type = .dir := by
    intro m hq hm
    rcases resolve_old_or_dir hs hs.root_lt hdirs hrun hq hm with hm' | hdir
    · rw [hadds.extends.field TarfsNode.type (fun _ _ => rfl) (hs.descend_lt hs.root_lt hm')]
      exact hold m hm'
    · exact hdir
  rcases List.eq_nil_or_concat r with rfl | ⟨r', d, rfl⟩
  · obtain ⟨rfl, hbase⟩ := List.append_inj' (hpath.symm.trans hpath') rfl
    obtain rfl := List.singleton_inj.mp hbase
    have hpdir := hdirectory p List.prefix_rfl hway
    refine hlast ⟨rfl, fun s'' p' hrun' => ?_⟩
    obtain ⟨rfl, rfl⟩ := Prod.mk.inj (Except.ok.inj (hrun.symm.trans hrun'))
    by_contra htarget
    cases hfind : s'.findChild p c with
    | some k =>
        obtain ⟨hmem, hname⟩ := mem_of_findChild hfind
        exact hfree' p hp hpdir k hmem (hname ▸ hc)
    | none =>
        rw [hfind, if_pos Option.isNone_none, addEntry_eq hp] at heq
        cases hvalue : s'.entryValue c hdr data size with
        | none => exact htarget (entryValue_eq_none_iff.mp hvalue)
        | some v =>
            obtain ⟨hname, -⟩ := entryValue_keeps hvalue
            rw [name_newNode (hnames c (by simp))] at hname
            rw [hvalue] at heq
            dsimp only at heq
            rw [if_pos (by rw [hadds.granted_eq]; exact hgranted _)] at heq
            rw [heq] at hfree
            have hpdir' : ((s'.attach p v).node p).type = .dir :=
              ((extends_attach hp).field TarfsNode.type (fun _ _ => rfl) hp).trans hpdir
            refine hfree p (Nat.lt_succ_of_lt hp) hpdir' s'.count
              ((mem_children_attach hp hp).mpr (Or.inr ⟨rfl, rfl⟩)) ?_
            rw [node_attach_new]
            exact hname.symm ▸ hc
  · have hsplit : q ++ c :: r' ++ [d] = dir ++ [base] := by
      rw [← hpath', hpath, List.concat_eq_append, List.append_assoc]
      rfl
    obtain ⟨hdir, -⟩ := List.append_inj' hsplit rfl
    rw [← hdir, descend, List.foldlM_append, Option.bind_eq_bind, Option.bind_eq_some_iff] at hway
    obtain ⟨m, hm, hway⟩ := hway
    rw [List.foldlM_cons, Option.bind_eq_bind, Option.bind_eq_some_iff] at hway
    obtain ⟨k, hk, -⟩ := hway
    obtain ⟨hmem, hname⟩ := mem_of_findChild hk
    have hmdir := hdirectory m ⟨c :: r', hdir⟩ hm
    exact hfree' m (hs'.descend_lt hs'.root_lt hm) hmdir k hmem (hname ▸ hc)

/-- No header of the archive makes a child with the name `.` or `..` below a directory. -/
def MakesNoDots (granted : ℕ → Bool) (image : List Byte) : Prop :=
  ∀ offset s hdr data size, Parsing granted image offset s →
    headerAt image offset = some (hdr, data, size) → s.CreatesNoDots hdr

theorem Parsing.dotFree (hclean : MakesNoDots granted image) (h : Parsing granted image offset s) :
    s.DotFree := by
  induction h with
  | start made =>
      rw [createNode] at made
      split_ifs at made
      obtain ⟨-, rfl⟩ := Prod.mk.inj (Except.ok.inj made)
      intro n hn _ c hc
      rw [Nat.lt_one_iff.mp hn] at hc
      exact absurd hc List.not_mem_nil
  | next before round ih =>
      rcases parseStep_eq round with ⟨hdr, data, size, hhdr, rfl⟩ | ⟨-, rfl⟩
      · exact ih.parseEntry before.wellFormed (hclean _ _ _ _ _ before hhdr) data size
      · exact ih

/-- If no header makes such a child, all listings of the mounted archive are right; where
`malloc` does not fail, they are right only then.  Every child of a directory has an index. -/
theorem mount_listsOnce_iff (hmount : mount granted image = some (.ok s)) :
    (MakesNoDots granted image →
        ∀ n < s.count, (s.node n).type = .dir → s.ListsOnce n) ∧
      ((∀ k, granted k = true) → (∀ n < s.count, (s.node n).type = .dir → s.ListsOnce n) →
        MakesNoDots granted image) ∧
      (image.length < 2 ^ 64 → ∀ n < s.count, (s.node n).children.length + 2 < 2 ^ 64) := by
  have hs := mount_wellFormed hmount
  obtain ⟨last, hlast⟩ := exists_parsing hmount
  refine ⟨fun hclean n hn hdir => ?_, fun hgranted hlists offset s₀ hdr data size hrun hhdr => ?_,
    fun hlen n hn => ?_⟩
  · exact (listsOnce_iff hs hlast.nodup hn hdir).mpr (hlast.dotFree hclean n hn hdir)
  · have hfree : s.DotFree := fun n hn hdir =>
      (listsOnce_iff hs hlast.nodup hn hdir).mp (hlists n hn hdir)
    obtain ⟨next, hstep⟩ := parseStep_of_headerAt s₀ hhdr
    have hafter := hrun.next hstep
    exact createsNoDots_of_dotFree hrun.wellFormed (hrun.granted_eq ▸ hgranted)
      ((hafter.adds hmount).extends.dotFree hafter.wellFormed hfree)
  · have hchildren := length_le_count (hlast.nodup n hn) fun c hc => (hs.children n hn c hc).2.1
    have hcount := mount_count hmount hlen
    omega

/-- No header of it makes such a child, and its three listings are right. -/
theorem mount_listsOnce_iff_sample :
    ∃ s, mount (fun _ => true) smallArchive = some (.ok s) ∧ s.count = 3 ∧
      MakesNoDots (fun _ => true) smallArchive ∧
      ∀ n < s.count, (s.node n).type = .dir → s.ListsOnce n := by
  obtain ⟨s, hs⟩ : ∃ s, rootOnly.parseArchive smallArchive = some s :=
    Option.isSome_iff_exists.mp (by decide +kernel)
  have hmount : mount (fun _ => true) smallArchive = some (.ok s) := by
    rw [mount_eq, hs]
    rfl
  have hview : (rootOnly.parseArchive smallArchive).map (fun s =>
      (s.count, (List.range 3).all fun n => (s.node n).children.all fun c =>
        decide (¬ IsDots (s.node c).name))) = some (3, true) := by decide +kernel
  rw [hs, Option.map_some, Option.some.injEq, Prod.mk.injEq] at hview
  obtain ⟨hcount, hnames⟩ := hview
  obtain ⟨last, hlast⟩ := exists_parsing hmount
  have hlists : ∀ n < s.count, (s.node n).type = .dir → s.ListsOnce n := by
    intro n hn hdir
    refine (listsOnce_iff (mount_wellFormed hmount) hlast.nodup hn hdir).mpr fun c hc => ?_
    have hnode := List.all_eq_true.mp hnames n (List.mem_range.mpr (hcount ▸ hn))
    exact of_decide_eq_true (List.all_eq_true.mp hnode c hc)
  have hclean := (mount_listsOnce_iff hmount).2.1 (fun _ => rfl) hlists
  exact ⟨s, hmount, hcount, hclean, (mount_listsOnce_iff hmount).1 hclean⟩

/-- The first entry of an archive of the directory `.`: the header with the path `./`. -/
def dotArchive : List Byte := plainHeader [dot, slash] 0x35 []

/-- The root directory lists `.` twice. -/
theorem mount_lists_dot_twice :
    ∃ s, mount (fun _ => true) dotArchive = some (.ok s) ∧ (s.node Tarfs.root).type = .dir ∧
      (s.readdir Tarfs.root 0).map VfsDirent.name = some [dot] ∧
      (s.readdir Tarfs.root 2).map VfsDirent.name = some [dot] ∧ ¬ s.ListsOnce Tarfs.root := by
  obtain ⟨s, hs⟩ : ∃ s, rootOnly.parseArchive dotArchive = some s :=
    Option.isSome_iff_exists.mp (by decide +kernel)
  have hnames : (rootOnly.parseArchive dotArchive).map (fun s =>
      ((s.node Tarfs.root).type, (s.readdir Tarfs.root 0).map VfsDirent.name,
        (s.readdir Tarfs.root 2).map VfsDirent.name)) =
      some (.dir, some [dot], some [dot]) := by decide +kernel
  rw [hs, Option.map_some, Option.some.injEq, Prod.mk.injEq, Prod.mk.injEq] at hnames
  obtain ⟨htype, hfirst, hthird⟩ := hnames
  refine ⟨s, by rw [mount_eq, hs]; rfl, htype, hfirst, hthird, fun hlists => ?_⟩
  obtain ⟨e, he, hname⟩ := Option.map_eq_some_iff.mp hfirst
  obtain ⟨e', he', hname'⟩ := Option.map_eq_some_iff.mp hthird
  exact absurd (hlists.distinct 0 2 e e' he he' (hname.trans hname'.symm)) (by decide)

end Tarfs

end Utopia
