/-
`tarfs_parse_archive` decodes what ustar encodes.
-/
import Utopia.Fs.TarfsPaths

namespace Utopia

open Tarfs

/-! ### Paths in headers -/

theorem intercalate_concat (q : FilePath) (b : List Byte) :
    [slash].intercalate (q ++ [b]) =
      if q = [] then b else [slash].intercalate q ++ slash :: b := by
  induction q with
  | nil => rw [List.nil_append, List.intercalate_singleton, if_pos rfl]
  | cons c q ih =>
      rw [if_neg (List.cons_ne_nil c q)]
      cases q with
      | nil => simp [List.intercalate_cons_cons, List.intercalate_singleton]
      | cons d q =>
          rw [if_neg (List.cons_ne_nil d q)] at ih
          rw [List.cons_append, List.cons_append, List.intercalate_cons_cons, ← List.cons_append,
            ih, List.intercalate_cons_cons, List.append_assoc, List.append_assoc, List.append_assoc]

section Base

variable {x b : List Byte}

theorem rtakeWhile_append (hb : slash ∉ b) : (x ++ slash :: b).rtakeWhile (· ≠ slash) = b := by
  have hall : ∀ c ∈ b.reverse, decide (c ≠ slash) = true := by
    intro c hc
    rw [decide_eq_true_eq]
    rintro rfl
    exact hb (List.mem_reverse.mp hc)
  rw [List.rtakeWhile, List.reverse_append, List.reverse_cons, List.append_assoc,
    List.takeWhile_append_of_pos hall]
  simp

theorem rdropWhile_append (hb : slash ∉ b) :
    (x ++ slash :: b).rdropWhile (· ≠ slash) = x ++ [slash] := by
  have hall : ∀ c ∈ b.reverse, decide (c ≠ slash) = true := by
    intro c hc
    rw [decide_eq_true_eq]
    rintro rfl
    exact hb (List.mem_reverse.mp hc)
  rw [List.rdropWhile, List.reverse_append, List.reverse_cons, List.append_assoc,
    List.dropWhile_append_of_pos hall]
  simp

theorem rtakeWhile_self (hb : slash ∉ b) : b.rtakeWhile (· ≠ slash) = b := by
  rw [List.rtakeWhile_eq_self_iff]
  intro c hc
  rw [decide_eq_true_eq]
  rintro rfl
  exact hb hc

theorem rdropWhile_self (hb : slash ∉ b) : b.rdropWhile (· ≠ slash) = [] := by
  rw [List.rdropWhile_eq_nil_iff]
  intro c hc
  rw [decide_eq_true_eq]
  rintro rfl
  exact hb hc

end Base

/-- The name of an entry, and the path of its directory. -/
theorem base_intercalate (q : FilePath) {b : List Byte} (hb : slash ∉ b) :
    ([slash].intercalate (q ++ [b])).rtakeWhile (· ≠ slash) = b ∧
      (([slash].intercalate (q ++ [b])).rdropWhile (· ≠ slash)).dropLast =
        [slash].intercalate q := by
  rw [intercalate_concat]
  split_ifs with hq
  · subst hq
    rw [rtakeWhile_self hb, rdropWhile_self hb]
    exact ⟨rfl, rfl⟩
  · rw [rtakeWhile_append hb, rdropWhile_append hb, List.dropLast_concat]
    exact ⟨rfl, rfl⟩

/-- Where a path of components begins and ends. -/
theorem intercalate_ends {q : FilePath} (hq : ∀ c ∈ q, IsComponent slash c) (hne : q ≠ []) :
    (∃ b rest, [slash].intercalate q = b :: rest ∧ b ≠ slash) ∧
      ∃ rest b, [slash].intercalate q = rest ++ [b] ∧ b ≠ slash := by
  constructor
  · cases q with
    | nil => exact absurd rfl hne
    | cons c q =>
        have hc := hq c List.mem_cons_self
        cases c with
        | nil => exact absurd rfl hc.1
        | cons b c =>
            have hb : b ≠ slash := fun h => hc.2 (h ▸ List.mem_cons_self)
            cases q with
            | nil => exact ⟨b, c, by rw [List.intercalate_singleton], hb⟩
            | cons d q => exact ⟨b, _, by rw [List.intercalate_cons_cons]; rfl, hb⟩
  · rcases List.eq_nil_or_concat q with rfl | ⟨q, c, rfl⟩
    · exact absurd rfl hne
    · rw [List.concat_eq_append] at hq ⊢
      have hc := hq c (by simp)
      rcases List.eq_nil_or_concat c with rfl | ⟨c, b, rfl⟩
      · exact absurd rfl hc.1
      · rw [List.concat_eq_append] at hc
        have hb : b ≠ slash := fun h => hc.2 (by simp [h])
        rw [List.concat_eq_append, intercalate_concat]
        split_ifs
        · exact ⟨c, b, rfl, hb⟩
        · exact ⟨_, b, by rw [← List.cons_append, ← List.append_assoc], hb⟩

theorem stripDots_eq_self {p : List Byte} (h : ∀ rest, p ≠ dot :: slash :: rest) :
    stripDots p = p := by
  cases p with
  | nil => rfl
  | cons b p =>
      cases p with
      | nil => rfl
      | cons b' p =>
          rw [stripDots, if_neg]
          rintro ⟨rfl, rfl⟩
          exact h p rfl

theorem stripDots_intercalate {q : FilePath} (hq : ∀ c ∈ q, IsComponent slash c)
    (hdot : q.head? ≠ some [dot]) : stripDots ([slash].intercalate q) = [slash].intercalate q := by
  refine stripDots_eq_self fun rest hrest => hdot ?_
  have hcomp : IsComponent slash [dot] := by
    unfold IsComponent
    decide
  have hsplit := components_append_sep rest hcomp
  rw [List.singleton_append, ← hrest, components_intercalate hq] at hsplit
  rw [hsplit, List.head?_cons]

/-- `tarfs_strip` takes away what an archive may add to a path. -/
theorem tarfsStrip_archivePath {q : FilePath} {s t : List Byte}
    (hq : ∀ c ∈ q, IsComponent slash c) (hdot : q.head? ≠ some [dot]) (hne : q ≠ [])
    (hs : IsArchivePath q s) (ht : t = s ∨ t = s ++ [slash]) :
    tarfsStrip t = [slash].intercalate q := by
  obtain ⟨⟨b, rest, hfirst, hb⟩, front, d, hlast, hd⟩ := intercalate_ends hq hne
  have hend : ∃ front', s = front' ++ [d] := by
    rcases hs with rfl | rfl
    · exact ⟨front, hlast⟩
    · exact ⟨dot :: slash :: front, by rw [hlast]; rfl⟩
  have hdrop : t.rdropWhile (· = slash) = s := by
    obtain ⟨front', rfl⟩ := hend
    have hstop : (front' ++ [d]).rdropWhile (· = slash) = front' ++ [d] :=
      List.rdropWhile_concat_neg _ _ _ (by simpa using hd)
    rcases ht with rfl | rfl
    · exact hstop
    · rw [List.rdropWhile_concat_pos _ _ _ (by simp), hstop]
  have hdots : stripDots s = [slash].intercalate q := by
    rcases hs with rfl | rfl
    · exact stripDots_intercalate hq hdot
    · rw [stripDots, if_pos ⟨rfl, rfl⟩, stripDots_intercalate hq hdot]
  rw [tarfsStrip, hdrop, hdots, hfirst, List.dropWhile_cons_of_neg (by simpa using hb)]

theorem tarfsStrip_archivePath_nil {s t : List Byte}
    (hs : IsArchivePath [] s) (ht : t = s ∨ t = s ++ [slash]) :
    tarfsStrip t = [] ∨ tarfsStrip t = [dot] := by
  rcases hs with rfl | rfl <;> rcases ht with rfl | rfl <;> decide

/-- `tarfs_build_path` puts the fields of a header together. -/
theorem tarfsBuildPath_eq {hdr : TarHeader} {t : List Byte}
    (h : (cString hdr.namePrefix = [] ∧ cString hdr.name = t) ∨
      (cString hdr.namePrefix ≠ [] ∧ t = cString hdr.namePrefix ++ slash :: cString hdr.name)) :
    tarfsBuildPath hdr 256 = t := by
  have hpre := length_namePrefix_le hdr
  have hname := length_name_le hdr
  rw [tarfsBuildPath]
  rcases h with ⟨hempty, rfl⟩ | ⟨hne, rfl⟩
  · rw [if_pos hempty, List.nil_append, List.take_of_length_le (by simp; omega)]
  · have hshort : (cString hdr.namePrefix ++ [slash]).take 256 =
        cString hdr.namePrefix ++ [slash] :=
      List.take_of_length_le (by rw [List.length_append, List.length_singleton]; omega)
    rw [if_neg hne, hshort, List.take_of_length_le, List.append_assoc, List.singleton_append]
    rw [List.length_append, List.length_singleton]
    omega

/-! ### Numbers in headers -/

theorem octalDigit_eq {d : ℕ} (hd : d < 8) :
    (0x30 ≤ BitVec.ofNat 8 (0x30 + d) ∧ BitVec.ofNat 8 (0x30 + d) ≤ 0x37) ∧
      (BitVec.ofNat 8 (0x30 + d) - 0x30).setWidth 64 = BitVec.ofNat 64 d := by
  interval_cases d <;> decide

theorem tarfsOct2u64_eq {field : List Byte} {n : ℕ} (h : HoldsOctal field n) :
    tarfsOct2u64 field = BitVec.ofNat 64 n := by
  obtain ⟨digits, stop, -, hdigits, rfl, hstop, rfl⟩ := h
  have hfold : ∀ (digits : List ℕ) (v : ℕ), (∀ d ∈ digits, d < 8) →
      (digits.map fun d => BitVec.ofNat 8 (0x30 + d)).foldl
        (fun (v : Word) b => (v <<< 3) + (b - 0x30).setWidth 64) (BitVec.ofNat 64 v) =
      BitVec.ofNat 64 (digits.foldl (fun v d => 8 * v + d) v) := by
    intro digits
    induction digits with
    | nil => exact fun _ _ => rfl
    | cons d digits ih =>
        intro v hd
        rw [List.map_cons, List.foldl_cons, List.foldl_cons,
          ← ih _ fun e he => hd e (List.mem_cons_of_mem _ he),
          (octalDigit_eq (hd d List.mem_cons_self)).2]
        congr 1
        apply BitVec.eq_of_toNat_eq
        simp only [BitVec.toNat_add, BitVec.toNat_shiftLeft, BitVec.toNat_ofNat, Nat.shiftLeft_eq]
        omega
  have htake : ((digits.map fun d => BitVec.ofNat 8 (0x30 + d)) ++ [stop]).takeWhile
      (fun b => 0x30 ≤ b ∧ b ≤ 0x37) = digits.map fun d => BitVec.ofNat 8 (0x30 + d) := by
    rw [List.takeWhile_append_of_pos]
    · rw [List.takeWhile_cons_of_neg, List.append_nil]
      rcases hstop with rfl | rfl <;> decide
    · intro b hb
      obtain ⟨d, hd, rfl⟩ := List.mem_map.mp hb
      exact decide_eq_true (octalDigit_eq (hdigits d hd)).1
  rw [tarfsOct2u64, htake]
  exact hfold digits 0 hdigits

theorem lt_of_holdsOctal {field : List Byte} {n : ℕ} (h : HoldsOctal field n) : n < 8 ^ 11 := by
  obtain ⟨digits, stop, hlen, hdigits, rfl, -, -⟩ := h
  have hbound : ∀ (digits : List ℕ) (v k : ℕ), (∀ d ∈ digits, d < 8) → v < k →
      digits.foldl (fun v d => 8 * v + d) v < k * 8 ^ digits.length := by
    intro digits
    induction digits with
    | nil => simp
    | cons d digits ih =>
        intro v k hd hv
        have hd' := hd d List.mem_cons_self
        have h := ih (8 * v + d) (8 * k) (fun e he => hd e (List.mem_cons_of_mem _ he)) (by omega)
        rw [List.foldl_cons, List.length_cons, pow_succ']
        rwa [mul_left_comm, ← mul_assoc]
  have h := hbound digits 0 1 hdigits Nat.one_pos
  rwa [hlen, one_mul] at h

theorem toNat_tarfsAlignUp {n : Word} (hn : n.toNat + 511 < 2 ^ 64) :
    (tarfsAlignUp n).toNat = (n.toNat + 511) / 512 * 512 := by
  have hadd : (n + 511).toNat = n.toNat + 511 := toNat_add_of_lt hn
  rw [tarfsAlignUp, toNat_and_not_mask (k := 9) (by decide), hadd]
  rfl

/-! ### Entries -/

namespace FileTree

/-- What the parser may put at a path: the tree, and a node `.` that an entry for the root
directory leads to. -/
def withDot (tree : FileTree) (p : FilePath) : Option FileContent :=
  if p = [[dot]] then some .dir else tree.content p

variable {tree : FileTree} {p : FilePath} {c : List Byte}

theorem withDot_eq (h : tree.content p ≠ none) : tree.withDot p = tree.content p := by
  rw [withDot, if_neg]
  rintro rfl
  exact (tree.names _ h [dot] (by simp)).2.2.1 rfl

theorem withDot_parent (p : FilePath) (c : List Byte) (h : tree.withDot (p ++ [c]) ≠ none) :
    tree.withDot p = some .dir := by
  by_cases hdot : p ++ [c] = [[dot]]
  · obtain ⟨rfl, -⟩ := List.append_eq_singleton_iff.mp hdot |>.resolve_right (by simp)
    rw [withDot_eq (by rw [tree.root]; simp), tree.root]
  · rw [withDot, if_neg hdot] at h
    have hp := tree.parent p c h
    rw [withDot_eq (by rw [hp]; simp), hp]

/-- Above every path there are directories. -/
theorem withDot_above {r : FilePath} (h : tree.withDot (p ++ r) ≠ none) (hr : r ≠ []) :
    tree.withDot p = some .dir := by
  induction r using List.reverseRecOn with
  | nil => exact absurd rfl hr
  | append_singleton r c ih =>
      rw [← List.append_assoc] at h
      have hdir := withDot_parent _ _ h
      by_cases hr' : r = []
      · rwa [hr', List.append_nil] at hdir
      · exact ih (by rw [hdir]; simp) hr'

end FileTree

namespace Tarfs

variable {s s' : Tarfs} {image : List Byte} {content : FilePath → Option FileContent}
  {path : NodePtr → FilePath} {K : Set FilePath} {n p : NodePtr} {q : FilePath} {b : List Byte}

/-- `tarfs_resolve_dir_path` makes the directories that are missing. -/
theorem Built.resolve (h : s.Built image content path K) (hp : p < s.count)
    (hq : ∀ c ∈ q, IsNodeName c)
    (hdir : ∀ q', q' <+: q → content (path p ++ q') = some .dir) :
    ∃ s' n path' K', q.foldlM resolveStep (s, p) = .ok (s', n) ∧
      s'.Built image content path' K' ∧ K ⊆ K' ∧ n < s'.count ∧ path' n = path p ++ q := by
  induction q generalizing s p path K with
  | nil => exact ⟨s, p, path, K, rfl, h, subset_rfl, hp, (List.append_nil _).symm⟩
  | cons c q ih =>
      have hc := hq c List.mem_cons_self
      have hrest := fun d hd => hq d (List.mem_cons_of_mem c hd)
      have hdirs : ∀ q', q' <+: q → content (path p ++ [c] ++ q') = some .dir := by
        intro q' hq'
        rw [List.append_assoc]
        exact hdir _ ((List.prefix_append_right_inj [c]).mpr hq')
      rw [List.foldlM_cons]
      rcases resolveStep_cases hp c with ⟨n, hfind, hstep⟩ | ⟨hnone, -, hstep⟩ | ⟨-, hfail, -⟩
      · obtain ⟨hn, hpath⟩ := (h.findChild_eq_some hp).mp hfind
        rw [← hpath] at hdirs
        obtain ⟨s', m, path', K', hrun, hbuilt, hsub, hm, hmpath⟩ := ih h hn hrest hdirs
        refine ⟨s', m, path', K', ?_, hbuilt, hsub, hm, ?_⟩
        · rw [hstep]
          exact hrun
        · rw [hmpath, hpath, List.append_assoc, List.singleton_append]
      · have hname := name_newNode (s := s) hc .dir
        have hcontent := hdirs [] List.nil_prefix
        rw [List.append_nil] at hcontent
        have htype : (s.newNode c .dir).Holds image .dir := rfl
        have hnew := h.attach hp (hname.symm ▸ hc) (hname.symm ▸ hnone) rfl rfl
          ⟨.dir, hname.symm ▸ hcontent, htype⟩
        have hself : Function.update path s.count (path p ++ [(s.newNode c .dir).name]) s.count =
            path p ++ [c] := by
          rw [Function.update_self, hname]
        rw [← hself] at hdirs
        obtain ⟨s', m, path', K', hrun, hbuilt, hsub, hm, hmpath⟩ :=
          ih hnew (Nat.lt_succ_self _) hrest hdirs
        refine ⟨s', m, path', K', ?_, hbuilt, (Set.subset_insert _ _).trans hsub, hm, ?_⟩
        · rw [hstep]
          exact hrun
        · rw [hmpath, hself, List.append_assoc, List.singleton_append]
      · rw [h.granted] at hfail
        cases hfail

variable {tree : FileTree} {e : ArchiveEntry} {hdr : TarHeader} {data : ℕ} {size : Word}

/-- `tarfs_walk` finds the target of a hard link. -/
theorem Built.walk_archivePath (h : s.Built image tree.withDot path K) {target : FilePath}
    {bytes str : List Byte} (htarget : tree.content target = some (.file bytes))
    (hK : target ∈ K) (hstr : IsArchivePath target str) :
    ∃ t < s.count, s.walk Tarfs.root (tarfsStrip str) = some t ∧
      (s.node t).Holds image (.file bytes) := by
  have hne : target ≠ [] := by
    rintro rfl
    rw [tree.root] at htarget
    cases htarget
  have hsome : tree.content target ≠ none := by rw [htarget]; simp
  have hnames := tree.names target hsome
  have hcomp : ∀ c ∈ target, IsComponent slash c := fun c hc => (hnames c hc).1
  have hdot : target.head? ≠ some [dot] := fun hhead =>
    (hnames _ (List.mem_of_mem_head? hhead)).2.2.1 rfl
  rw [tarfsStrip_archivePath hcomp hdot hne hstr (Or.inl rfl)]
  obtain ⟨t, ht, hpath⟩ := (h.paths target).mp hK
  obtain ⟨x, hx, hholds⟩ := h.holds t ht
  rw [hpath, FileTree.withDot_eq hsome, htarget] at hx
  obtain rfl := Option.some.inj hx
  have hwalk := h.walk_root_eq_some (n := t) (fun p c => FileTree.withDot_parent p c)
    ([slash].intercalate target)
    (by rw [components_intercalate hcomp]; exact fun c hc => (hnames c hc).2.2)
  rw [components_intercalate hcomp] at hwalk
  exact ⟨t, ht, hwalk.mpr ⟨ht, hpath⟩, hholds⟩

/-- The node of an entry is what the tree has at its path. -/
theorem Built.entryValue (h : s.Built image tree.withDot path K) (hhdr : EncodesHeader hdr e)
    (hsound : EntrySound tree e) (htarget : ∀ t, e.kind = .link t → t ∈ K)
    (hdata : (image.drop data).take e.data.length = e.data) (hsize : size.toNat = e.data.length) :
    ∃ v x, s.entryValue b hdr data size = some v ∧ v.isSymlink = false ∧
      tree.content e.path = some x ∧ v.Holds image x := by
  have hkind := hhdr.kind
  rw [EntrySound] at hsound
  rw [ArchiveEntry.data] at hdata hsize
  cases hk : e.kind with
  | dir =>
      rw [hk] at hkind hsound
      have htype : (s.newNode b .dir).Holds image .dir := rfl
      exact ⟨_, .dir, by rw [Tarfs.entryValue, if_pos hkind.1], rfl, hsound, htype⟩
  | file bytes =>
      rw [hk] at hkind hsound hdata hsize
      have hne : hdr.typeflag ≠ 0x35 ∧ hdr.typeflag ≠ 0x32 ∧ hdr.typeflag ≠ 0x31 := by
        rcases hkind.1 with hflag | hflag <;> rw [hflag] <;> decide
      refine ⟨_, .file bytes, by
        rw [Tarfs.entryValue, if_neg hne.1, if_neg hne.2.1, if_neg hne.2.2], rfl, hsound, ?_⟩
      exact ⟨rfl, hsize, data, rfl, hdata⟩
  | link target =>
      rw [hk] at hkind hsound
      obtain ⟨bytes, hpath, htree⟩ := hsound
      obtain ⟨t, ht, hwalk, htype, htsize, offset, htdata, hbytes⟩ :=
        h.walk_archivePath htree (htarget target hk) hkind.2
      have hnotDir : (s.node t).type ≠ .dir := by rw [htype]; decide
      refine ⟨_, .file bytes, by
        rw [Tarfs.entryValue, hkind.1, if_neg (by decide), if_neg (by decide), if_pos rfl, hwalk]
        exact if_neg hnotDir, rfl, hpath, ?_⟩
      exact ⟨htype, htsize, offset, htdata, hbytes⟩

/-- An entry whose path is `q ++ [b]` for the parser. -/
theorem Built.parseEntry_place (h : s.Built image tree.withDot path K)
    (hhdr : EncodesHeader hdr e) (hsound : EntrySound tree e)
    (htarget : ∀ t, e.kind = .link t → t ∈ K)
    (hdata : (image.drop data).take e.data.length = e.data) (hsize : size.toNat = e.data.length)
    (hcomp : ∀ c ∈ q ++ [b], IsComponent slash c)
    (hstrip : tarfsStrip (tarfsBuildPath hdr 256) = [slash].intercalate (q ++ [b]))
    (hplace : tree.withDot (q ++ [b]) = tree.content e.path) :
    ∃ path' K', (s.parseEntry hdr data size).Built image tree.withDot path' K' ∧ K ⊆ K' ∧
      q ++ [b] ∈ K' := by
  have hnames : ∀ c ∈ q ++ [b], IsNodeName c := by
    intro c hc
    have hmem : c ∈ components slash (tarfsStrip (tarfsBuildPath hdr 256)) := by
      rwa [hstrip, components_intercalate hcomp]
    exact isNodeName_of_isInfix (hcomp c hc)
      ((isInfix_of_mem_components hmem).trans (tarfsStrip_isInfix _))
  have hb := hnames b (by simp)
  have hq : ∀ c ∈ q, IsNodeName c := fun c hc => hnames c (List.mem_append_left _ hc)
  have hsome : tree.withDot (q ++ [b]) ≠ none := by
    rw [hplace]
    obtain ⟨v, x, -, -, hx, -⟩ := h.entryValue (b := b) hhdr hsound htarget hdata hsize
    rw [hx]
    simp
  have hdirs : ∀ q', q' <+: q → tree.withDot (path Tarfs.root ++ q') = some .dir := by
    rintro q' ⟨r, rfl⟩
    rw [h.root, List.nil_append]
    rw [List.append_assoc] at hsome
    exact FileTree.withDot_above hsome (by simp)
  obtain ⟨s', n, path', K', hrun, hbuilt, hsub, hn, hpath⟩ := h.resolve h.wellFormed.root_lt hq hdirs
  rw [h.root, List.nil_append] at hpath
  obtain ⟨hbase, hdir⟩ := base_intercalate q hb.1.2
  have hqcomp : ∀ c ∈ q, IsComponent slash c := fun c hc => (hq c hc).1
  have hresolve : s.resolveDirPath ([slash].intercalate q) = .ok (s', n) := by
    rw [resolveDirPath, foldComponents_eq]
    have hcs := components_intercalate hqcomp
    rw [components] at hcs
    rw [hcs, hrun]
  have hparse : s.parseEntry hdr data size =
      if (s'.findChild n b).isNone then s'.addEntry n b hdr data size else s' := by
    simp only [parseEntry, hstrip, hbase, hdir, hresolve]
    rw [if_neg hb.1.1]
  rw [hparse]
  obtain ⟨v, x, hvalue, hplain, hx, hholds⟩ :=
    hbuilt.entryValue (b := b) hhdr hsound (fun t ht => hsub (htarget t ht)) hdata hsize
  obtain ⟨hname, hchildren⟩ := entryValue_keeps hvalue
  rw [name_newNode hb] at hname
  cases hfind : s'.findChild n b with
  | none =>
      rw [if_pos Option.isNone_none, addEntry_eq hn, hvalue]
      dsimp only
      rw [if_pos (hbuilt.granted _)]
      have hcontent : tree.withDot (path' n ++ [v.name]) = some x := by
        rw [hname, hpath, hplace, hx]
      have hnew := hbuilt.attach hn (hname.symm ▸ hb) (hname.symm ▸ hfind) hchildren hplain
        ⟨x, hcontent, hholds⟩
      refine ⟨_, _, hnew, hsub.trans (Set.subset_insert _ _), ?_⟩
      rw [hname, hpath]
      exact Set.mem_insert _ _
  | some k =>
      rw [if_neg (by simp)]
      obtain ⟨hk, hkpath⟩ := (hbuilt.findChild_eq_some hn).mp hfind
      refine ⟨path', K', hbuilt, hsub, (hbuilt.paths _).mpr ⟨k, hk, ?_⟩⟩
      rw [hkpath, hpath]

/-- `tarfs_parse_archive` at an entry. -/
theorem Built.parseEntry (h : s.Built image tree.withDot path K)
    (hhdr : EncodesHeader hdr e) (hsound : EntrySound tree e)
    (htarget : ∀ t, e.kind = .link t → t ∈ K)
    (hdata : (image.drop data).take e.data.length = e.data) (hsize : size.toNat = e.data.length) :
    ∃ path' K', (s.parseEntry hdr data size).Built image tree.withDot path' K' ∧ K ⊆ K' ∧
      e.path ∈ K' := by
  obtain ⟨str, hstr, t, ht, hfields⟩ := hhdr.path
  have hbuild := tarfsBuildPath_eq hfields
  have hsome : tree.content e.path ≠ none := by
    obtain ⟨v, x, -, -, hx, -⟩ := h.entryValue (b := []) hhdr hsound htarget hdata hsize
    rw [hx]
    simp
  have ht : t = str ∨ t = str ++ [slash] := ht.imp_right And.right
  rcases List.eq_nil_or_concat e.path with hpath | ⟨q, b, hpath⟩
  · have hroot : ∀ {K : Set FilePath} {s : Tarfs} {path : NodePtr → FilePath},
        s.Built image tree.withDot path K → e.path ∈ K := by
      intro K s path hbuilt
      rw [hpath]
      exact (hbuilt.paths []).mpr ⟨Tarfs.root, hbuilt.wellFormed.root_lt, hbuilt.root⟩
    rw [hpath] at hstr
    rcases tarfsStrip_archivePath_nil hstr ht with hstrip | hstrip
    · have hskip : s.parseEntry hdr data size = s := by
        simp only [Tarfs.parseEntry, hbuild, hstrip]
        rfl
      exact ⟨path, K, hskip.symm ▸ h, subset_rfl, hroot h⟩
    · have hdot : tree.withDot [[dot]] = tree.content e.path := by
        rw [hpath, tree.root]
        exact if_pos rfl
      obtain ⟨path', K', hbuilt, hsub, -⟩ := h.parseEntry_place (q := []) (b := [dot]) hhdr hsound
        htarget hdata hsize (by unfold IsComponent; decide)
        (by rw [hbuild, hstrip]; rfl) hdot
      exact ⟨path', K', hbuilt, hsub, hroot hbuilt⟩
  · rw [List.concat_eq_append] at hpath
    have hnames := tree.names _ hsome
    rw [hpath] at hnames hstr
    have hcomp : ∀ c ∈ q ++ [b], IsComponent slash c := fun c hc => (hnames c hc).1
    have hdot : (q ++ [b]).head? ≠ some [dot] := fun hhead =>
      (hnames _ (List.mem_of_mem_head? hhead)).2.2.1 rfl
    have hplace : tree.withDot (q ++ [b]) = tree.content e.path := by
      rw [← hpath, FileTree.withDot_eq hsome]
    obtain ⟨path', K', hbuilt, hsub, hmem⟩ := h.parseEntry_place hhdr hsound htarget hdata hsize
      hcomp (by rw [hbuild, tarfsStrip_archivePath hcomp hdot (by simp) hstr ht]) hplace
    exact ⟨path', K', hbuilt, hsub, hpath.symm ▸ hmem⟩

end Tarfs

end Utopia
