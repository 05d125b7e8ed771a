/-
The parser of `fs/tarfs.c` makes no access outside of a buffer, whatever the image is.
-/
import Utopia.Fs.TarfsAccess
import Utopia.Fs.TarfsDecode

namespace Utopia

variable {b image : List Byte} {i len max hdr : ℕ}

/-! ### Fields and paths -/

theorem tarfsStrnlenAt_eq (h : i + max ≤ b.length) :
    tarfsStrnlenAt b i max = some (cString (part b i max)).length :=
  countWhile_eq h

theorem part_cString (b : List Byte) (i max : ℕ) :
    part b i (cString (part b i max)).length = cString (part b i max) :=
  part_takeWhile b i max

theorem length_cString_part_le (b : List Byte) (i max : ℕ) :
    (cString (part b i max)).length ≤ max :=
  (List.takeWhile_prefix _).length_le.trans (List.length_take_le _ _)

theorem tarfsOct2u64At_eq (h : i + len ≤ b.length) :
    tarfsOct2u64At b i 0 len = some (tarfsOct2u64 (part b i len)) := by
  have hloop : ∀ (len i : ℕ) (v : Word), i + len ≤ b.length → tarfsOct2u64At b i v len =
      some (((part b i len).takeWhile fun c => 0x30 ≤ c ∧ c ≤ 0x37).foldl
        (fun (v : Word) (c : Byte) => (v <<< 3) + (c - 0x30).setWidth 64) v) := by
    intro len
    induction len with
    | zero =>
        intro i v _
        rw [tarfsOct2u64At, part_zero, List.takeWhile_nil, List.foldl_nil]
    | succ len ih =>
        intro i v h
        have hi : i < b.length := by omega
        rw [tarfsOct2u64At, List.getElem?_eq_getElem hi, Option.bind_some, part_succ hi,
          List.takeWhile_cons]
        by_cases hdigit : 0x30 ≤ b[i] ∧ b[i] ≤ 0x37
        · rw [if_pos hdigit, if_pos (by simpa using hdigit), List.foldl_cons]
          exact ih (i + 1) _ (by omega)
        · rw [if_neg hdigit, if_neg (by simpa using hdigit), List.foldl_nil]
  exact hloop len i 0 h

theorem tarfsBlockIsZeroAt_eq (h : i + 512 ≤ b.length) :
    tarfsBlockIsZeroAt b i = some (tarfsBlockIsZero (part b i 512)) := by
  have hlen := length_part h
  rw [tarfsBlockIsZeroAt, countWhile_eq h, Option.map_some, tarfsBlockIsZero]
  generalize part b i 512 = block at hlen
  congr 1
  rw [Bool.eq_iff_iff, decide_eq_true_iff, ← hlen, List.all_eq_true]
  constructor
  · intro hcount c hc
    rw [← (List.takeWhile_prefix _).eq_of_length hcount] at hc
    exact List.mem_takeWhile_imp (p := fun c : Byte => decide (c = 0)) hc
  · intro hall
    rw [List.takeWhile_eq_self_iff.mpr hall]

theorem stripDotsAt_eq (h : i + len ≤ b.length) :
    ∃ k ≤ len, stripDotsAt b i len = some (i + k, len - k) ∧
      part b (i + k) (len - k) = stripDots (part b i len) := by
  induction len using Nat.twoStepInduction generalizing i with
  | zero => exact ⟨0, le_rfl, rfl, by rw [Nat.sub_zero, Nat.add_zero, part_zero, stripDots]⟩
  | one =>
      refine ⟨0, Nat.zero_le _, rfl, ?_⟩
      rw [Nat.sub_zero, Nat.add_zero, part_succ (by omega), part_zero, stripDots]
  | more len ih _ =>
      have hi : i < b.length := by omega
      have hi' : i + 1 < b.length := by omega
      rw [part_succ hi, part_succ hi', stripDots, stripDotsAt, List.getElem?_eq_getElem hi,
        List.getElem?_eq_getElem hi', Option.bind_some, Option.bind_some]
      by_cases hdots : b[i] = dot ∧ b[i + 1] = slash
      · obtain ⟨k, hk, hrun, hpart⟩ := ih (i := i + 1 + 1) (by omega)
        refine ⟨k + 2, by omega, ?_, ?_⟩
        · rw [if_pos hdots.1, if_pos hdots.2, hrun]
          congr 2 <;> omega
        · rw [if_pos hdots, ← hpart]
          congr 1 <;> omega
      · refine ⟨0, Nat.zero_le _, ?_, ?_⟩
        · split_ifs with hdot hslash
          · exact absurd ⟨hdot, hslash⟩ hdots
          · rfl
          · rfl
        · rw [if_neg hdots, Nat.sub_zero, Nat.add_zero, part_succ hi, part_succ hi']

theorem tarfsStripAt_eq (h : i + len ≤ b.length) :
    ∃ p n, tarfsStripAt b i len = some (p, n) ∧ i ≤ p ∧ p + n ≤ i + len ∧
      part b p n = tarfsStrip (part b i len) := by
  obtain ⟨n, hn, htrim, hpart, -⟩ := exists_trimWhile (· = slash) h
  obtain ⟨k, hk, hdots, hpart'⟩ := @stripDotsAt_eq b i n (by omega)
  obtain ⟨j, hj, hcount, -, hrest⟩ := exists_countWhile (b := b) (i := i + k) (n := n - k)
    (· = slash) (by omega)
  refine ⟨i + k + j, n - k - j, ?_, by omega, by omega, ?_⟩
  · simp only [tarfsStripAt, htrim, hdots, hcount, Option.bind_eq_bind, Option.bind_some]
    rfl
  · rw [hrest, hpart', hpart, tarfsStrip]

/-! ### Writes into buffers -/

/-- A zeroed buffer ends the string that is copied into it. -/
theorem cString_copyAt {n : ℕ} (hn : n ≤ 255) (h : i + n ≤ b.length) :
    ∃ dst, copyAt (List.replicate 256 0) 0 b i n = some dst ∧ dst.length = 256 ∧
      dst.take n = part b i n ∧ cString dst = cString (part b i n) := by
  have hlen : ((List.replicate 256 (0 : Byte)).drop n).length = 256 - n := by
    rw [List.length_drop, List.length_replicate]
  refine ⟨_, copyAt_eq (by rw [List.length_replicate]; omega) h, ?_, ?_, ?_⟩
  · simp only [List.take_zero, List.nil_append, Nat.zero_add, List.length_append, hlen,
      length_part h]
    omega
  · rw [List.take_zero, List.nil_append, List.take_left' (length_part h)]
  · rw [List.take_zero, List.nil_append, Nat.zero_add, List.drop_replicate,
      show 256 - n = (255 - n) + 1 by omega, List.replicate_succ, Tarfs.cString_append_zero]

theorem tarfsCopyLinkTargetAt_eq (h : i + 100 ≤ image.length) :
    ∃ dst, tarfsCopyLinkTargetAt (List.replicate 256 0) image i 100 = some dst ∧
      cString dst = (cString (part image i 100)).take 255 := by
  have hlen := length_cString_part_le image i 100
  have hpart := part_cString image i 100
  obtain ⟨dst, hcopy, hdst, htake, -⟩ := cString_copyAt (b := image) (i := i)
    (n := (cString (part image i 100)).length) (by omega) (by omega)
  obtain ⟨dst', hstore, hdst'⟩ : ∃ dst', storeAt dst (cString (part image i 100)).length 0 =
      some dst' ∧ dst' = dst.take (cString (part image i 100)).length ++
        0 :: dst.drop ((cString (part image i 100)).length + 1) :=
    ⟨_, storeAt_eq (by omega) 0, rfl⟩
  refine ⟨dst', ?_, ?_⟩
  · simp only [tarfsCopyLinkTargetAt, tarfsStrnlenAt_eq h, Option.bind_eq_bind, Option.bind_some,
      List.length_replicate]
    rw [if_neg (by omega), hcopy, Option.bind_some]
    exact hstore
  · rw [hdst', Tarfs.cString_append_zero, htake, hpart,
      Tarfs.cString_eq_self (Tarfs.zero_notMem_cString _), List.take_of_length_le (by omega)]

section Header

variable (image) (hdr)

@[simp]
theorem name_part : TarHeader.name (part image hdr 512) = part image hdr 100 :=
  take_part image hdr (by decide)

@[simp]
theorem namePrefix_part :
    TarHeader.namePrefix (part image hdr 512) = part image (hdr + 345) 155 :=
  part_part image (by decide)

@[simp]
theorem linkname_part :
    TarHeader.linkname (part image hdr 512) = part image (hdr + 157) 100 :=
  part_part image (by decide)

@[simp]
theorem size_part : TarHeader.size (part image hdr 512) = part image (hdr + 124) 12 :=
  part_part image (by decide)

end Header

theorem getElem?_typeflag (h : hdr + 512 ≤ image.length) :
    image[hdr + 156]? = some (TarHeader.typeflag (part image hdr 512)) :=
  getElem?_add (by decide) h 0

theorem tarfsBuildPathAt_eq {raw : List Byte} (h : hdr + 512 ≤ image.length)
    (hraw : raw.length = 256) :
    ∃ out len, tarfsBuildPathAt image hdr raw raw.length = some (out, len) ∧
      out.length = 256 ∧ len ≤ 256 ∧
      part out 0 len = tarfsBuildPath (part image hdr 512) 256 := by
  have hplen := length_cString_part_le image (hdr + 345) 155
  have hnlen := length_cString_part_le image hdr 100
  have hpre := part_cString image (hdr + 345) 155
  have hname := part_cString image hdr 100
  simp only [tarfsBuildPathAt, @tarfsStrnlenAt_eq image (hdr + 345) 155 (by omega),
    @tarfsStrnlenAt_eq image hdr 100 (by omega), hraw, Option.bind_eq_bind, Option.bind_some,
    tarfsBuildPath, name_part, namePrefix_part]
  generalize cString (part image (hdr + 345) 155) = pre at hplen hpre
  generalize cString (part image hdr 100) = name at hnlen hname
  by_cases hempty : pre = []
  · obtain ⟨out, hcopy, hlen, htake⟩ :=
      @exists_copyAt _ raw image hdr 0 name.length (by omega) (by omega)
    refine ⟨out, name.length, ?_, hlen.trans hraw, by omega, ?_⟩
    · rw [hempty, List.length_nil, if_neg (lt_irrefl 0)]
      simp only [Option.pure_def, Option.bind_some]
      rw [min_eq_left (by omega), hcopy, Option.bind_some, Nat.zero_add]
    · rw [if_pos hempty, List.length_nil, List.nil_append, List.take_of_length_le (by omega)]
      rw [Nat.zero_add, List.take_zero, List.nil_append, hname] at htake
      exact htake
  · have hpos := List.length_pos_iff.mpr hempty
    obtain ⟨out, hcopy, hlen, htake⟩ :=
      @exists_copyAt _ raw image (hdr + 345) 0 pre.length (by omega) (by omega)
    obtain ⟨out', hstore, hlen', htake'⟩ := @exists_storeAt _ out pre.length (by omega) slash
    obtain ⟨out'', hcopy', hlen'', htake''⟩ :=
      @exists_copyAt _ out' image hdr (pre.length + 1) name.length (by omega) (by omega)
    refine ⟨out'', pre.length + 1 + name.length, ?_, by omega, by omega, ?_⟩
    · rw [if_pos hpos, min_eq_left (by omega), hcopy, Option.bind_some, if_pos (by omega),
        hstore]
      simp only [Option.pure_def, Option.bind_some]
      rw [min_eq_left (by omega), hcopy', Option.bind_some]
    · have hslash : (pre ++ [slash]).length = pre.length + 1 := List.length_append
      rw [Nat.zero_add, List.take_zero, List.nil_append, hpre] at htake
      rw [if_neg hempty, List.take_of_length_le (by omega), List.take_of_length_le (by omega)]
      exact htake''.trans (by rw [htake', htake, hname])

/-! ### Nodes -/

namespace Tarfs

variable {s : Tarfs} {n p parent : NodePtr} {type : VnodeType} {data : ℕ} {size : Word}

theorem createNodeAt_eq (h : i + len ≤ b.length) :
    s.createNodeAt b i len type = OptionT.lift (s.createNode (part b i len) type) := by
  obtain ⟨name, hcopy, -, -, hname⟩ := cString_copyAt (b := b) (i := i) (n := min len 255)
    (by omega) (by omega)
  have htake : part b i (min len 255) = (part b i len).take 255 := by
    rw [part, part, List.take_take, min_comm]
  rw [createNodeAt, createNode, hcopy]
  split_ifs
  · dsimp only [newNode]
    rw [hname, htake]
    rfl
  · rfl

theorem findChildFrom_eq (h : i + len ≤ b.length) (children : List NodePtr) :
    s.findChildFrom b i len children =
      some (children.find? fun c => (s.node c).name = part b i len) := by
  induction children with
  | nil => rfl
  | cons c rest ih =>
      rw [findChildFrom, readPart_eq h, Option.bind_some, ih]
      by_cases hname : (s.node c).name = part b i len
      · rw [if_pos (hname ▸ length_part h), if_pos hname, List.find?_cons_of_pos (by simpa)]
      · rw [List.find?_cons_of_neg (by simpa), if_neg hname, ite_self]

theorem findChildAt_eq (h : i + len ≤ b.length) :
    s.findChildAt parent b i len = some (s.findChild parent (part b i len)) :=
  findChildFrom_eq h _

theorem resolveStepAt_eq (h : i + len ≤ b.length) (cur : Tarfs × NodePtr) :
    resolveStepAt b cur i len = OptionT.lift (resolveStep cur (part b i len)) := by
  rw [resolveStepAt, resolveStep, findChildAt_eq h]
  cases cur.1.findChild cur.2 (part b i len) with
  | some child => rfl
  | none =>
      dsimp only
      rw [createNodeAt_eq h, ← lift_bind]
      rfl

theorem resolveDirPathAt_eq (h : i + len ≤ b.length) :
    s.resolveDirPathAt b i len = OptionT.lift (s.resolveDirPath (part b i len)) :=
  forComponents_eq (fun cur _ _ hin => resolveStepAt_eq hin cur) (Nat.lt_succ_self len) h _

/-! ### Walks -/

/-- What a walk relies on: links have a parent, and parents lead to a root. -/
structure Climbs (s : Tarfs) : Prop where
  top : ∀ n, ∃ r, s.top s.count n = some r
  linked : ∀ n, (s.node n).isSymlink = true → ∃ p, (s.node n).parent = some p

theorem isDotAt_eq (h : i + len ≤ b.length) :
    isDotAt b i len = some (decide (part b i len = [dot])) := by
  rw [isDotAt]
  split_ifs with hlen
  · subst hlen
    have hi : i < b.length := by omega
    rw [List.getElem?_eq_getElem hi, part_succ hi, part_zero, Option.map_some]
    simp
  · have hne : part b i len ≠ [dot] := fun heq => hlen (by rw [← length_part h, heq]; rfl)
    rw [decide_eq_false hne]

theorem isDotDotAt_eq (h : i + len ≤ b.length) :
    isDotDotAt b i len = some (decide (part b i len = [dot, dot])) := by
  rw [isDotDotAt]
  split_ifs with hlen
  · subst hlen
    have hi : i < b.length := by omega
    have hi' : i + 1 < b.length := by omega
    rw [List.getElem?_eq_getElem hi, List.getElem?_eq_getElem hi', part_succ hi, part_succ hi',
      part_zero, Option.map_some, Option.bind_some]
    split_ifs with hdot
    · simp [hdot]
    · simp [hdot]
  · have hne : part b i len ≠ [dot, dot] := fun heq => hlen (by rw [← length_part h, heq]; rfl)
    rw [decide_eq_false hne]

section Walk

variable {follow' : NodePtr → OptionT Option NodePtr} {follow : NodePtr → Option NodePtr}

theorem walkStepAt_eq (hfollow : ∀ n, follow' n = OptionT.lift (follow n))
    (h : i + len ≤ b.length) (cur : NodePtr) :
    s.walkStepAt follow' b cur i len = OptionT.lift (s.walkStep follow cur (part b i len)) := by
  rw [walkStepAt, walkStep, isDotAt_eq h, isDotDotAt_eq h, findChildAt_eq h]
  split_ifs with htype hdot hdots
  · rfl
  · rw [decide_eq_true hdot]
    rfl
  · rw [decide_eq_false hdot, decide_eq_true hdots]
    rfl
  · rw [decide_eq_false hdot, decide_eq_false hdots]
    cases s.findChild cur (part b i len) with
    | none => rfl
    | some child => exact hfollow child

theorem walkWithAt_eq (hs : s.Climbs) (hfollow : ∀ n, follow' n = OptionT.lift (follow n))
    (h : i + len ≤ b.length) (start : NodePtr) :
    s.walkWithAt follow' start b i len = OptionT.lift (s.walkWith follow start (part b i len)) := by
  have hloop : ∀ cur, forComponents slash b (s.walkStepAt follow' b) (len + 1) i len cur =
      OptionT.lift (foldComponents slash (s.walkStep follow) cur [] (part b i len)) :=
    forComponents_eq (fun cur _ _ hin => walkStepAt_eq hfollow hin cur) (Nat.lt_succ_self len) h
  obtain ⟨r, htop⟩ := hs.top start
  have hhead : (if 0 < len then b[i]?.map fun c => decide (c = slash) else some false) =
      some (decide ((part b i len).head? = some slash)) := by
    split_ifs with hlen
    · obtain ⟨n, rfl⟩ := Nat.exists_eq_succ_of_ne_zero hlen.ne'
      have hi : i < b.length := by omega
      rw [List.getElem?_eq_getElem hi, part_succ hi, Option.map_some, List.head?_cons]
      simp
    · rw [Nat.eq_zero_of_not_pos hlen, part_zero]
      rfl
  rw [walkWithAt, hhead, walkWith, htop]
  split_ifs with habs
  · rw [decide_eq_true habs]
    exact hloop r
  · rw [decide_eq_false habs]
    exact hloop start

end Walk

theorem followAt_eq (hs : s.Climbs) (left : ℕ) (n : NodePtr) :
    s.followAt left n = OptionT.lift (s.follow left n) := by
  induction left generalizing n with
  | zero =>
      rw [followAt, follow]
      split_ifs <;> rfl
  | succ left ih =>
      rw [followAt, follow]
      split_ifs with hlink
      · obtain ⟨p, hp⟩ := hs.linked n hlink
        rw [hp]
        refine (walkWithAt_eq hs ih (by omega) p).trans ?_
        rw [part_self]
        rfl
      · rfl

theorem walkAt_eq (hs : s.Climbs) (h : i + len ≤ b.length) (start : NodePtr) :
    s.walkAt start b i len = OptionT.lift (s.walk start (part b i len)) :=
  walkWithAt_eq hs (followAt_eq hs maxSymlinkDepth) h start

/-! ### Entries -/

section Entry

variable (hs : s.Climbs) (h : i + len ≤ b.length) (hhdr : hdr + 512 ≤ image.length)

include hs h hhdr

theorem entryNodeAt_eq :
    s.entryNodeAt b i len image hdr data size =
      OptionT.lift (s.entryNode (part b i len) (part image hdr 512) data size) := by
  rw [entryNodeAt, entryNode, getElem?_typeflag hhdr, checked_some, pure_bind]
  split_ifs with hdir hlink hhard
  · exact createNodeAt_eq h
  · obtain ⟨target, hcopy, htarget⟩ := @tarfsCopyLinkTargetAt_eq image (hdr + 157) (by omega)
    rw [createNodeAt_eq h, hcopy, linkname_part, ← htarget, ← lift_bind]
    rfl
  · have hlen := length_cString_part_le image (hdr + 157) 100
    obtain ⟨lp, llen, hstrip, -, hend, hpath⟩ := @tarfsStripAt_eq image (hdr + 157)
      (cString (part image (hdr + 157) 100)).length (by omega)
    rw [tarfsStrnlenAt_eq (by omega), checked_some, pure_bind, hstrip, checked_some, pure_bind]
    dsimp only
    rw [walkAt_eq hs (by omega), hpath, part_cString, linkname_part]
    cases hwalk : s.walk root (tarfsStrip (cString (part image (hdr + 157) 100))) with
    | none => rfl
    | some t =>
        change (if (s.node t).type = .dir then _ else _) = _
        dsimp only
        split_ifs
        · rfl
        · rw [createNodeAt_eq h, ← lift_bind]
          rfl
  · rw [createNodeAt_eq h, ← lift_bind]
    rfl

theorem addEntryAt_eq :
    s.addEntryAt parent b i len image hdr data size =
      some (s.addEntry parent (part b i len) (part image hdr 512) data size) := by
  rw [addEntryAt, addEntry, entryNodeAt_eq hs h hhdr]
  cases s.entryNode (part b i len) (part image hdr 512) data size with
  | error s' => rfl
  | ok r => rfl

end Entry

/-- What the parser relies on in the state before a header. -/
structure Ready (s : Tarfs) : Prop where
  wellFormed : s.WellFormed
  /-- Nodes that are not there yet are nobody's children. -/
  blank : ∀ n, s.count ≤ n → (s.node n).parent = none
  linked : ∀ n, (s.node n).isSymlink = true → ∃ p, (s.node n).parent = some p

theorem top_of_none {fuel : ℕ} (h : (s.node n).parent = none) : s.top fuel n = some n := by
  cases fuel <;> simp [top, h]

theorem top_of_some {fuel : ℕ} (h : (s.node n).parent = some p) :
    s.top (fuel + 1) n = s.top fuel p := by
  simp [top, h]

/-- Parents stand in front of their children, so the way up ends. -/
theorem Ready.climbs (h : s.Ready) : s.Climbs := by
  have hclimb : ∀ fuel n, n ≤ fuel → ∃ r, s.top fuel n = some r := by
    intro fuel
    induction fuel with
    | zero =>
        intro n hn
        rw [Nat.le_zero.mp hn]
        exact ⟨root, h.wellFormed.top_root 0⟩
    | succ fuel ih =>
        intro n hn
        cases hparent : (s.node n).parent with
        | none => exact ⟨n, top_of_none hparent⟩
        | some p =>
            have hlt : n < s.count := by
              by_contra hout
              rw [h.blank n (not_lt.mp hout)] at hparent
              cases hparent
            have hne : n ≠ root := by
              rintro rfl
              rw [h.wellFormed.root_parent] at hparent
              cases hparent
            obtain ⟨m, hm, hmem⟩ := h.wellFormed.parent n hlt hne
            obtain ⟨hmn, -, hm'⟩ := h.wellFormed.children m hm n hmem
            rw [hparent] at hm'
            obtain rfl := Option.some.inj hm'
            rw [top_of_some hparent]
            exact ih p (Nat.le_of_lt_succ (hmn.trans_le hn))
  refine ⟨fun n => ?_, h.linked⟩
  rcases le_total n s.count with hn | hn
  · exact hclimb s.count n hn
  · exact ⟨n, top_of_none (h.blank n hn)⟩

theorem Ready.adds (h : s.Ready) {s' : Tarfs} (hadds : AddsNodes image s s') : s'.Ready := by
  have hkeeps := hadds.keeps
    (P := fun s => (∀ n, s.count ≤ n → (s.node n).parent = none) ∧
      ∀ n, (s.node n).isSymlink = true → ∃ p, (s.node n).parent = some p)
    (fun s s' _ hP hadd => ?_) h.wellFormed ⟨h.blank, h.linked⟩
  · exact ⟨hkeeps.1, hkeeps.2.1, hkeeps.2.2⟩
  · cases hadd with
    | fail => exact hP
    | @attach p v _ _ _ _ _ =>
        have hnode : ∀ n, n ≠ s.count → ((s.attach p v).node n).parent = (s.node n).parent ∧
            ((s.attach p v).node n).isSymlink = (s.node n).isSymlink := fun n hn => by
          dsimp only [attach]
          rw [Function.update_of_ne hn]
          by_cases hnp : n = p
          · rw [hnp, Function.update_self]
            exact ⟨rfl, rfl⟩
          · rw [Function.update_of_ne hnp]
            exact ⟨rfl, rfl⟩
        refine ⟨fun n hn => ?_, fun n hlink => ?_⟩
        · have hlt : s.count < n := hn
          rw [(hnode n hlt.ne').1]
          exact hP.1 n hlt.le
        · by_cases hn : n = s.count
          · rw [hn, node_attach_new]
            exact ⟨p, rfl⟩
          · rw [(hnode n hn).2] at hlink
            rw [(hnode n hn).1]
            exact hP.2 n hlink

theorem parseEntryAt_eq (hs : s.Ready) {raw : List Byte} (hraw : raw.length = 256)
    (hhdr : hdr + 512 ≤ image.length) :
    s.parseEntryAt raw image hdr data size =
      some (s.parseEntry (part image hdr 512) data size) := by
  obtain ⟨out, len, hbuild, hout, hlen, hpath⟩ := tarfsBuildPathAt_eq hhdr hraw
  obtain ⟨p, plen, hstrip, -, hend, hclean⟩ := @tarfsStripAt_eq out 0 len (by omega)
  obtain ⟨split, hsplit, htrim, hdir, hbase⟩ := exists_trimWhile (b := out) (i := p) (n := plen)
    (· ≠ slash) (by omega)
  rw [hpath] at hclean
  rw [hclean] at hdir hbase
  have hdirLast := part_dropLast (b := out) (i := p) (n := split) (by omega)
  have hbaseLen := length_part (b := out) (i := p + split) (n := plen - split) (by omega)
  rw [hdir] at hdirLast
  rw [hbase] at hbaseLen
  rw [parseEntryAt, hbuild]
  simp only [Option.bind_eq_bind, Option.bind_some, hstrip, htrim]
  rw [parseEntry]
  by_cases hnil : (tarfsStrip (tarfsBuildPath (part image hdr 512) 256)).rtakeWhile
      (· ≠ slash) = []
  · rw [hnil, List.length_nil] at hbaseLen
    rw [if_neg (by omega), if_pos hnil]
    rfl
  · have hpos := List.length_pos_iff.mpr hnil
    rw [if_pos (by omega), if_neg hnil, resolveDirPathAt_eq (by omega), ← hdirLast,
      resolveDirPath, foldComponents_eq resolveStep, ← components]
    obtain ⟨dir, hcomponents⟩ : ∃ dir, components slash ((tarfsStrip (tarfsBuildPath
        (part image hdr 512) 256)).rdropWhile (· ≠ slash)).dropLast = dir := ⟨_, rfl⟩
    have hnames : ∀ c ∈ dir, IsNodeName c := fun c hc => by
      refine @isNodeName_of_mem (part image hdr 512) _ ?_
      rw [TarHeader.entryPath, components_base _ hnil, hcomponents]
      exact List.mem_append_left _ hc
    have hresolve := resolve_adds image hs.wellFormed hs.wellFormed.root_lt hnames
    rw [hcomponents]
    cases hrun : dir.foldlM resolveStep (s, root) with
    | error s' => rfl
    | ok r =>
        obtain ⟨s', parent⟩ := r
        have hs' := hs.adds (hresolve.of_ok hrun).1
        rw [← hbase]
        change (s'.findChildAt parent out (p + split) (plen - split)).bind _ = _
        rw [findChildAt_eq (by omega), Option.bind_some]
        cases hfind : s'.findChild parent (part out (p + split) (plen - split)) with
        | none =>
            refine (addEntryAt_eq hs'.climbs (by omega) hhdr).trans ?_
            dsimp only
            rw [hfind]
            rfl
        | some c =>
            dsimp only
            rw [hfind]
            rfl

/-! ### The loop -/

variable {raw : List Byte} {offset offset' : Word} {s' : Tarfs} {granted : ℕ → Bool}
  {stack : Word → List Byte}

/-- A round of the loop finds its whole header in the image, and the next offset is behind it. -/
theorem parseStep_bounds (hfit : image.length + 2 ^ 36 + 512 ≤ 2 ^ 64)
    (hoffset : offset.toNat ≤ image.length + 511) :
    (BitVec.ofNat 64 image.length < offset + 512 ↔ image.length < offset.toNat + 512) ∧
      ∀ s', s.parseStep image offset = some (offset', s') →
        offset.toNat + 512 ≤ image.length ∧ offset.toNat + 512 ≤ offset'.toNat ∧
          offset'.toNat ≤ image.length + 511 := by
  have himage : (BitVec.ofNat 64 image.length).toNat = image.length := by
    rw [BitVec.toNat_ofNat]
    exact Nat.mod_eq_of_lt (by omega)
  have h512 : (offset + 512).toNat = offset.toNat + 512 :=
    toNat_add_of_lt (show offset.toNat + (512 : Word).toNat < 2 ^ 64 by
      change offset.toNat + 512 < _
      omega)
  have hheader : BitVec.ofNat 64 image.length < offset + 512 ↔
      image.length < offset.toNat + 512 := by
    rw [BitVec.lt_def, himage, h512]
  refine ⟨hheader, fun s' hstep => ?_⟩
  obtain ⟨block, hread⟩ : ∃ block : TarHeader, (image.drop offset.toNat).take 512 = block :=
    ⟨_, rfl⟩
  have hshort : (TarHeader.size ((image.drop offset.toNat).take 512)).length ≤ 12 :=
    List.length_take_le _ _
  simp only [parseStep, hread] at hstep hshort
  have hlt : (if block.typeflag = 0x31 ∨ block.typeflag = 0x32 then (0 : Word) else
      tarfsOct2u64 block.size).toNat < 2 ^ 36 := by
    split_ifs
    · decide
    · exact tarfsOct2u64_lt hshort
  generalize (if block.typeflag = 0x31 ∨ block.typeflag = 0x32 then (0 : Word) else
    tarfsOct2u64 block.size) = blockSize at hstep hlt
  split_ifs at hstep with hend hzero hdata
  all_goals
    obtain ⟨rfl, -⟩ := Prod.mk.inj (Option.some.inj hstep)
    rw [hheader, not_lt] at hend
    have hsum : (offset + 512 + blockSize).toNat = offset.toNat + 512 + blockSize.toNat :=
      (toNat_add_of_lt (by omega)).trans (by rw [h512])
    rw [BitVec.lt_def, himage, hsum, not_lt] at hdata
    have halign := toNat_tarfsAlignUp (n := blockSize) (by omega)
    have hnext : (offset + 512 + tarfsAlignUp blockSize).toNat =
        offset.toNat + 512 + (tarfsAlignUp blockSize).toNat :=
      (toNat_add_of_lt (by omega)).trans (by rw [h512])
    omega

theorem parseStepAt_eq (hfit : image.length + 2 ^ 36 + 512 ≤ 2 ^ 64)
    (hoffset : offset.toNat ≤ image.length + 511) (hs : s.Ready) (hraw : raw.length = 256) :
    s.parseStepAt raw image offset = some (s.parseStep image offset) := by
  have hbounds := (@parseStep_bounds _ s _ offset hfit hoffset).1
  rw [parseStepAt, parseStep]
  by_cases hend : BitVec.ofNat 64 image.length < offset + 512
  · rw [if_pos hend, if_pos hend]
  · have hin : offset.toNat + 512 ≤ image.length := by
      rw [hbounds] at hend
      exact not_lt.mp hend
    have hread : (image.drop offset.toNat).take 512 = part image offset.toNat 512 := rfl
    rw [if_neg hend, if_neg hend, hread]
    dsimp only
    rw [tarfsBlockIsZeroAt_eq hin, tarfsOct2u64At_eq (by omega), getElem?_typeflag hin,
      ← size_part]
    obtain ⟨block, hblock⟩ : ∃ block : TarHeader, part image offset.toNat 512 = block := ⟨_, rfl⟩
    simp only [Option.bind_eq_bind, Option.bind_some, Option.pure_def,
      parseEntryAt_eq hs hraw hin]
    rw [hblock]
    split_ifs <;> rfl

/-- The loop ends, and it makes no access outside. -/
theorem parseLoopAt_eq (hfit : image.length + 2 ^ 36 + 512 ≤ 2 ^ 64)
    (hoffset : offset.toNat ≤ image.length + 511) (hs : s.Ready)
    (hstack : ∀ o, (stack o).length = 256) {fuel : ℕ}
    (hfuel : image.length < offset.toNat + 512 * fuel + 512) :
    ∃ s', parseLoopAt stack image (fuel + 1) offset s = some s' ∧
      parseLoop image (fuel + 1) offset s = some s' := by
  induction fuel generalizing offset s with
  | zero =>
      rw [parseLoopAt, parseLoop, parseStepAt_eq hfit hoffset hs (hstack offset), Option.bind_some]
      cases hstep : s.parseStep image offset with
      | none => exact ⟨s, rfl, rfl⟩
      | some r =>
          have hin := ((parseStep_bounds hfit hoffset).2 r.2 hstep).1
          omega
  | succ fuel ih =>
      rw [parseLoopAt, parseLoop, parseStepAt_eq hfit hoffset hs (hstack offset), Option.bind_some]
      cases hstep : s.parseStep image offset with
      | none => exact ⟨s, rfl, rfl⟩
      | some r =>
          obtain ⟨offset', s'⟩ := r
          obtain ⟨-, hnext, hnext'⟩ := (parseStep_bounds hfit hoffset).2 s' hstep
          rw [Option.elim_some, Option.elim_some]
          dsimp only
          exact ih hnext' (hs.adds (parseStep_adds hs.wellFormed hstep)) (by omega)

theorem initial_ready {n : NodePtr} (h : (empty granted).createNode [] .dir = .ok (n, s)) :
    s.Ready := by
  have hwf := initial_wellFormed h
  rw [createNode] at h
  split_ifs at h
  obtain ⟨-, rfl⟩ := Prod.mk.inj (Except.ok.inj h)
  have hnode : ∀ n, ((empty granted).setNode 0 ((empty granted).newNode [] .dir)).node n =
      if n = 0 then (empty granted).newNode [] .dir else (empty granted).node n := fun n => by
    dsimp only [setNode]
    rw [Function.update_apply]
  refine ⟨hwf, fun n _ => ?_, fun n hlink => ?_⟩
  · change (((empty granted).setNode 0 _).node n).parent = none
    rw [hnode]
    split_ifs <;> rfl
  · change (((empty granted).setNode 0 _).node n).isSymlink = true at hlink
    rw [hnode] at hlink
    split_ifs at hlink <;> cases hlink

theorem mountAt_eq (hfit : image.length + 2 ^ 36 + 512 ≤ 2 ^ 64)
    (hstack : ∀ o, (stack o).length = 256) :
    ∃ r, mountAt granted stack image = some r ∧ mount granted image = some r := by
  rw [mountAt, mount, @createNodeAt_eq ([0]) 0 0 _ _ (by simp), part_zero]
  cases hroot : (empty granted).createNode [] .dir with
  | error s => exact ⟨_, rfl, rfl⟩
  | ok r =>
      obtain ⟨n, s⟩ := r
      change ∃ r, (s.parseArchiveAt stack image).map Except.ok = some r ∧
        (s.parseArchive image).map Except.ok = some r
      rw [parseArchiveAt, parseArchive]
      split_ifs
      · exact ⟨_, rfl, rfl⟩
      · have hrounds : image.length < (0 : Word).toNat + 512 * (image.length / 512) + 512 := by
          rw [show (0 : Word).toNat = 0 from rfl]
          omega
        obtain ⟨s', hat, hlist⟩ := @parseLoopAt_eq _ _ 0 _ hfit (Nat.zero_le _)
          (initial_ready hroot) hstack (image.length / 512) hrounds
        rw [hat, hlist]
        exact ⟨_, rfl, rfl⟩

/-- Whatever the image, whatever stands in the path buffer and however `malloc` ends: no access
of the parser is outside of its buffer, its loops end, and the data of each file lie in the
image. -/
theorem mountAt_safe (hfit : image.length + 2 ^ 36 + 512 ≤ 2 ^ 64)
    (hstack : ∀ o, (stack o).length = 256) :
    ∃ r, mountAt granted stack image = some r ∧ mount granted image = some r ∧
      ∀ s, r = .ok s → ∀ n < s.count, (s.node n).type = .file → (s.node n).InImage image := by
  obtain ⟨r, hat, hlist⟩ := mountAt_eq hfit hstack
  refine ⟨r, hat, hlist, fun s hr n _ _ => ?_⟩
  rw [hr] at hlist
  exact mount_inImage hfit hlist n

/-- The archive of one file. -/
theorem mountAt_safe_sample :
    ∃ r, mountAt (fun _ => true) (fun _ => List.replicate 256 0xff)
        (plainHeader [0x61] 0x30 []) = some r ∧
      mount (fun _ => true) (plainHeader [0x61] 0x30 []) = some r ∧
      ∀ s, r = .ok s → ∀ n < s.count, (s.node n).type = .file →
        (s.node n).InImage (plainHeader [0x61] 0x30 []) :=
  mountAt_safe (by
    rw [show (plainHeader [0x61] 0x30 []).length = 512 by decide +kernel]
    norm_num) fun _ => List.length_replicate

end Tarfs

end Utopia
