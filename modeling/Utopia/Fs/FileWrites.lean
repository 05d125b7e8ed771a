/-
Which indices `ramfs_write` touches, of the old array of the node and of the new one.
-/
import Utopia.Fs.FileData
import Utopia.Fs.TarfsSized

namespace Utopia

/-- The write has touched no index outside the arrays, and stored below the node's size. -/
structure WritesInside (size offset : Word) (result : WriteResult) : Prop where
  inside : ∀ a ∈ result.touched, a.Inside
  stored : result.status = some 0 →
    ∀ i, offset.toNat ≤ i → i < offset.toNat + size.toNat → i < result.node.size.toNat

/-- A file whose array is a live block of the heap that holds its bytes, or that has none. -/
structure RamfsNode.Owned (s : HeapState) (n : RamfsNode) : Prop where
  file : n.type = .file
  live : n.data = 0 ∨ n.data ∈ s.live
  size_le : n.size.toNat ≤ dataLength s.mem n.data

theorem Access.inside_of_le {a : Access} (h : a.start + a.count ≤ a.length) : a.Inside :=
  fun _ _ hi => Nat.lt_of_lt_of_le hi h

/-- An access of the whole range below a wrapping sum. -/
theorem Access.not_inside {a : Access} (hpos : 0 < a.count) (h : a.length < a.start + a.count) :
    ¬a.Inside := fun hinside => by
  have hlast := hinside (a.start + a.count - 1) (by omega) (by omega)
  omega

theorem ramfsStore_inside_iff (m : Memory) (n : RamfsNode) {length : ℕ} {touched : List Access}
    (buffer : Word) {size offset : Word} (htouched : ∀ a ∈ touched, a.Inside)
    (hlength : length < 2 ^ 64) (hfits : n.size.toNat ≤ length)
    (hsum : offset.toNat + size.toNat < 2 ^ 64 → (offset + size).toNat ≤ n.size.toNat) :
    WritesInside size offset (ramfsStore m n length touched buffer size offset) ↔
      offset.toNat + size.toNat < 2 ^ 64 := by
  constructor
  · intro h
    by_contra hwrap
    have hlast : (⟨offset.toNat, size.toNat, length⟩ : Access) ∈ touched ++
        [⟨offset.toNat, size.toNat, length⟩] :=
      List.mem_append_right _ List.mem_cons_self
    have hoffset := offset.isLt
    exact Access.not_inside (by dsimp only; omega) (by dsimp only; omega) (h.inside _ hlast)
  · intro hnowrap
    have hle := hsum hnowrap
    rw [toNat_add_of_lt hnowrap] at hle
    refine ⟨fun a ha => ?_, fun _ i _ hi => Nat.lt_of_lt_of_le hi hle⟩
    rcases List.mem_append.1 ha with ha | ha
    · exact htouched a ha
    · obtain rfl := List.mem_singleton.1 ha
      exact Access.inside_of_le (hle.trans hfits)

section Blocks

variable {r : HeapRegion} {s : HeapState} {m m' : Memory} {bs : List Block} {b : Block}

theorem HeapRegion.Blocks.dataLength_payload (h : r.Blocks m bs) (hb : b ∈ bs) :
    dataLength m b.payload = b.size.toNat := by
  rw [dataLength, if_neg (h.payload_ne_zero hb), b.payload_sub, (h.load hb).2]

/-- No array is as long as the address space. -/
theorem HeapState.Tiled.dataLength_lt (h : s.Tiled r bs) {ptr : Word}
    (hptr : ptr = 0 ∨ ptr ∈ s.live) : dataLength s.mem ptr + 8192 ≤ 2 ^ 64 := by
  rcases hptr with rfl | hlive
  · rw [dataLength, if_pos rfl]
    decide
  · obtain ⟨b, hb, rfl⟩ := h.exists_of_live hlive
    rw [h.blocks.dataLength_payload (mem_allocated.1 hb).1]
    have hbounds := Chain.bounds h.blocks (mem_allocated.1 hb).1
    have hhigh := r.high
    simp only [Block.stop] at hbounds
    omega

/-- Writing inside one array leaves the heap as it is. -/
theorem HeapState.Tiled.of_eqOn_body (h : s.Tiled r bs) (hb : b ∈ allocated bs)
    (heq : Set.EqOn m' s.mem b.bodyᶜ) : HeapState.Tiled r ⟨m', s.live⟩ bs :=
  ⟨h.blocks.of_eqOn_body (mem_allocated.1 hb).1 heq, h.live⟩

theorem HeapRegion.Blocks.fill_body (h : r.Blocks m bs) (hb : b ∈ bs) {n : ℕ}
    (hn : n ≤ b.size.toNat) (v : Byte) : Set.EqOn (m.fill b.payload n v) m b.bodyᶜ := by
  have hpayload := h.payload_toNat hb
  have hbounds := Chain.bounds h hb
  have hhigh := r.high
  simp only [Block.stop] at hbounds
  refine (Memory.fill_eqOn m v (by omega)).mono (Set.compl_subset_compl.mpr ?_)
  exact span_subset_span le_rfl (by omega)

theorem HeapRegion.Blocks.copy_body (h : r.Blocks m bs) (hb : b ∈ bs) {n : ℕ}
    (hn : n ≤ b.size.toNat) (src : Word) : Set.EqOn (m.copy b.payload src n) m b.bodyᶜ := by
  have hpayload := h.payload_toNat hb
  have hbounds := Chain.bounds h hb
  have hhigh := r.high
  simp only [Block.stop] at hbounds
  refine (Memory.copy_eqOn m src (by omega)).mono (Set.compl_subset_compl.mpr ?_)
  exact span_subset_span le_rfl (by omega)

end Blocks

section Grow

variable {r : HeapRegion} {s : HeapState} {n : RamfsNode} {buffer size offset : Word}

/-- What `ramfs_write` has done when its new array is in place. -/
structure Grown (r : HeapRegion) (needed newData : Word) (length : ℕ) (touched : List Access)
    (m : Memory) : Prop where
  inside : ∀ a ∈ touched, a.Inside
  fits : needed.toNat ≤ length
  length_eq : length = dataLength m newData
  heap : ∃ live bs, HeapState.Tiled r ⟨m, live⟩ bs ∧ newData ∈ live

/-- `free` of another live block leaves a block and its size. -/
theorem free?_keeps_length {m : Memory} {live : List Word} {bs : List Block} {b : Block}
    {ptr : Word} (h : HeapState.Tiled r ⟨m, live⟩ bs) (hb : b ∈ allocated bs) (hptr : ptr ∈ live)
    (hne : b.payload ≠ ptr) :
    ∃ m' live' bs', free? r.head m ptr = some m' ∧ HeapState.Tiled r ⟨m', live'⟩ bs' ∧
      b.payload ∈ live' ∧ b.size.toNat = dataLength m' b.payload := by
  obtain ⟨s', bs', hcall, htiled, -⟩ := free_keeps h (Or.inr hptr)
  obtain ⟨m', hfree, rfl⟩ := Option.map_eq_some_iff.1 hcall
  have hlive : b.payload ∈ live.erase ptr :=
    (List.mem_erase_of_ne hne).2 (h.live.mem_iff.1 (List.mem_map_of_mem hb))
  obtain ⟨c, hc, rfl⟩ := h.exists_of_live hptr
  obtain ⟨pre, post, hsplit⟩ := List.append_of_mem (mem_allocated.1 hc).1
  obtain ⟨m'', hrun, hblocks, -⟩ := free?_spec (hsplit ▸ h.blocks)
  have hsame : m'' = m' := Option.some.inj (hrun.symm.trans hfree)
  rw [hsame] at hblocks
  have hkept : b ∈ allocated (mergeFree (pre ++ { c with free := true } :: post)) := by
    rw [allocated_mergeFree, allocated_append]
    rw [hsplit, allocated_append] at hb
    rcases List.mem_append.1 hb with hpre | hpost
    · exact List.mem_append_left _ hpre
    · refine List.mem_append_right _ (mem_allocated.2 ⟨?_, (mem_allocated.1 hpost).2⟩)
      rcases List.mem_cons.1 (mem_allocated.1 hpost).1 with rfl | hpost
      · exact absurd rfl hne
      · exact List.mem_cons_of_mem _ hpost
  exact ⟨m', _, bs', hfree, htiled, hlive,
    (hblocks.dataLength_payload (mem_allocated.1 hkept).1).symm⟩

/-- With a new array that is large enough, everything before the last `memcpy` is inside. -/
theorem ramfsGrow_grown {k : Carve} {m' : Memory} {asked : ℕ} {newData : Word}
    (h : s.Tiled r k.before) (hk : k.Holds r s.mem asked newData m') (hn : n.Owned s)
    (hgrows : n.size.toNat < (offset + size).toNat)
    (hroom : (offset + size).toNat ≤ k.target.size.toNat) (buffer : Word) :
    ∃ m touched, Grown r (offset + size) newData k.target.size.toNat touched m ∧
      ramfsGrow r.head m' n (dataLength s.mem n.data) newData buffer size offset =
        ramfsStore m { n with data := newData, size := offset + size } k.target.size.toNat
          touched buffer size offset := by
  have htarget : k.target ∈ allocated k.after :=
    mem_allocated.2 ⟨by simp [Carve.after], hk.targetUsed⟩
  have hmem : k.target ∈ k.after := (mem_allocated.1 htarget).1
  have hne : newData ≠ 0 := hk.ptr_ne_zero
  have hout : HeapState.Tiled r ⟨m', newData :: s.live⟩ k.after := by
    have htiled := hk.tiled h
    rwa [HeapState.handOut, if_neg hne] at htiled
  obtain rfl := hk.payload
  have hfilled := hout.of_eqOn_body htarget (hk.after.fill_body hmem hroom 0)
  have hcleared : (⟨0, (offset + size).toNat, k.target.size.toNat⟩ : Access).Inside :=
    Access.inside_of_le (by rwa [Nat.zero_add])
  rw [ramfsGrow, hk.after.dataLength_payload hmem]
  by_cases hnull : n.data = 0
  · refine ⟨_, _, ⟨fun a ha => ?_, hroom, ?_, _, _, hfilled, List.mem_cons_self⟩, if_pos hnull⟩
    · obtain rfl := List.mem_singleton.1 ha
      exact hcleared
    · exact (hfilled.blocks.dataLength_payload hmem).symm
  · have hlive : n.data ∈ s.live := hn.live.resolve_left hnull
    have hold : n.size.toNat ≤ k.target.size.toNat := hgrows.le.trans hroom
    have hcopied := hfilled.of_eqOn_body htarget (hfilled.blocks.copy_body hmem hold n.data)
    have hother : k.target.payload ≠ n.data := fun heq =>
      (List.nodup_cons.1 hout.live_nodup).1 (heq ▸ hlive)
    obtain ⟨m₂, live', bs', hfree, htiled, hnew, hlength⟩ := free?_keeps_length hcopied htarget
      (List.mem_cons_of_mem _ hlive) hother
    refine ⟨m₂, [⟨0, (offset + size).toNat, k.target.size.toNat⟩] ++
      [⟨0, n.size.toNat, dataLength s.mem n.data⟩, ⟨0, n.size.toNat, k.target.size.toNat⟩],
      ⟨fun a ha => ?_, hroom, hlength, _, _, htiled, hnew⟩, ?_⟩
    · rcases List.mem_append.1 ha with ha | ha
      · obtain rfl := List.mem_singleton.1 ha
        exact hcleared
      · rcases List.mem_cons.1 ha with rfl | ha
        · exact Access.inside_of_le (by rw [Nat.zero_add]; exact hn.size_le)
        · obtain rfl := List.mem_singleton.1 ha
          exact Access.inside_of_le (by rw [Nat.zero_add]; exact hold)
    · rw [if_neg hnull]
      dsimp only at hfree ⊢
      rw [hfree]

/-- A new array that is too short is overrun when it is cleared. -/
theorem ramfsGrow_not_inside {m : Memory} {oldLength : ℕ} {newData : Word}
    (hshort : dataLength m newData < (offset + size).toNat) :
    ¬WritesInside size offset (ramfsGrow r.head m n oldLength newData buffer size offset) := by
  intro h
  have hcleared : (⟨0, (offset + size).toNat, dataLength m newData⟩ : Access) ∈
      (ramfsGrow r.head m n oldLength newData buffer size offset).touched := by
    rw [ramfsGrow]
    split_ifs
    · exact List.mem_append_left _ List.mem_cons_self
    · dsimp only
      split
      · exact List.mem_append_left _ List.mem_cons_self
      · exact List.mem_append_left _ (List.mem_append_left _ List.mem_cons_self)
  exact Access.not_inside (by dsimp only; omega) (by dsimp only; omega) (h.inside _ hcleared)

/-- Every index that `ramfs_write` touches is inside exactly if it asks for a block that it
does not get, or neither the end of the write nor the rounded size of the new block wraps. -/
theorem ramfsWrite_inside_iff {bs : List Block} (h : s.Tiled r bs) (hn : n.Owned s)
    (hbuffer : buffer ≠ 0) :
    WritesInside size offset (ramfsWrite r.head s.mem n buffer size offset) ↔
      (n.size < offset + size ∧ ∀ b ∈ bs, b.free = true → b.size < roundUp8 (offset + size)) ∨
        offset.toNat + size.toNat < 2 ^ 64 ∧
          (offset.toNat + size.toNat ≤ n.size.toNat ∨ offset.toNat + size.toNat + 7 < 2 ^ 64) := by
  have hargs : ¬(buffer = 0 ∨ n.type ≠ .file) := fun harg =>
    harg.elim hbuffer fun hne => hne hn.file
  rw [ramfsWrite, if_neg hargs]
  by_cases hgrows : n.size < offset + size
  · have hgrows' : n.size.toNat < (offset + size).toNat := BitVec.lt_def.1 hgrows
    have hnonzero : offset + size ≠ 0 := by
      rintro hzero
      rw [hzero] at hgrows'
      exact Nat.not_lt_zero _ hgrows'
    rw [if_pos hgrows]
    rcases malloc?_cases h.blocks (offset + size) with
      ⟨hnull, hwhy⟩ | ⟨newData, m', k, hrun, rfl, hk, -, b, hb, hfree, hlarge⟩
    · rw [hnull]
      refine ⟨fun _ => Or.inl ⟨hgrows, hwhy.resolve_left hnonzero⟩, fun _ => ⟨?_, ?_⟩⟩
      · exact fun a ha => absurd ha List.not_mem_nil
      · exact fun hstatus => absurd (Option.some.inj hstatus) (by decide)
    · have hgiven : ¬(n.size < offset + size ∧
          ∀ b ∈ k.before, b.free = true → b.size < roundUp8 (offset + size)) := fun hrefused =>
        hlarge (hrefused.2 b hb hfree)
      have hlength : dataLength m' newData = k.target.size.toNat := by
        rw [← hk.payload, hk.after.dataLength_payload (by simp [Carve.after])]
      have hbound := Chain.bounds hk.after (b := k.target) (by simp [Carve.after])
      have hhigh := r.high
      simp only [Block.stop] at hbound
      rw [hrun]
      dsimp only
      rw [if_neg hk.ptr_ne_zero, or_iff_right hgiven]
      by_cases hround : (offset + size).toNat + 7 < 2 ^ 64
      · obtain ⟨m, touched, hgrown, heq⟩ := ramfsGrow_grown h hk hn hgrows'
          ((le_toNat_roundUp8 hround).trans hk.room) buffer
        rw [heq, ramfsStore_inside_iff m _ buffer hgrown.inside (by omega) hgrown.fits
          fun _ => Nat.le_refl _]
        refine ⟨fun hwrap => ⟨hwrap, Or.inr ?_⟩, fun hcond => hcond.1⟩
        rwa [toNat_add_of_lt hwrap] at hround
      · refine ⟨fun hinside => absurd hinside (ramfsGrow_not_inside (by omega)), ?_⟩
        rintro ⟨hwrap, hcond⟩
        rw [toNat_add_of_lt hwrap] at hround hgrows'
        omega
  · have hinside : (offset + size).toNat ≤ n.size.toNat := BitVec.le_def.1 (BitVec.not_lt.1 hgrows)
    have hlength := h.dataLength_lt hn.live
    rw [if_neg hgrows, ramfsStore_inside_iff s.mem n buffer
      (fun a ha => absurd ha List.not_mem_nil) (by omega) hn.size_le fun _ => hinside,
      or_iff_right fun hrefused => hgrows hrefused.1]
    refine ⟨fun hwrap => ⟨hwrap, Or.inl ?_⟩, fun hcond => hcond.1⟩
    rwa [toNat_add_of_lt hwrap] at hinside

/-- The last `memcpy` stays in the block of the node. -/
theorem ramfsStore_owned {m : Memory} {live : List Word} {bs : List Block}
    (touched : List Access) (buffer : Word)
    (h : HeapState.Tiled r ⟨m, live⟩ bs) (hn : n.Owned ⟨m, live⟩)
    (hfits : offset.toNat + size.toNat ≤ n.size.toNat) :
    ∃ bs', HeapState.Tiled r
        ⟨(ramfsStore m n (dataLength m n.data) touched buffer size offset).memory, live⟩ bs' ∧
      (ramfsStore m n (dataLength m n.data) touched buffer size offset).node.Owned
        ⟨(ramfsStore m n (dataLength m n.data) touched buffer size offset).memory, live⟩ := by
  rw [ramfsStore]
  dsimp only
  rcases hn.live with hnull | hlive
  · have hlength := hn.size_le
    rw [hnull, dataLength, if_pos rfl] at hlength
    have hzero : size.toNat = 0 := by omega
    rw [hzero]
    exact ⟨bs, h, hn⟩
  · obtain ⟨b, hb, hpayload⟩ := h.exists_of_live hlive
    have hmem := (mem_allocated.1 hb).1
    have hlength := hn.size_le
    dsimp only at hlength
    rw [← hpayload, h.blocks.dataLength_payload hmem] at hlength
    have haddr := h.blocks.payload_toNat hmem
    have hbounds := Chain.bounds h.blocks hmem
    have hhigh := r.high
    simp only [Block.stop] at hbounds
    have hstart : (b.payload + offset).toNat = b.payload.toNat + offset.toNat :=
      toNat_add_of_lt (by omega)
    have hbody : Set.EqOn (m.copy (b.payload + offset) buffer size.toNat) m b.bodyᶜ := by
      refine (Memory.copy_eqOn m buffer (by omega)).mono (Set.compl_subset_compl.mpr ?_)
      exact span_subset_span (by omega) (by omega)
    have htiled := h.of_eqOn_body hb hbody
    rw [← hpayload]
    refine ⟨bs, htiled, hn.file, Or.inr (hpayload ▸ hlive), ?_⟩
    rw [← hpayload, htiled.blocks.dataLength_payload hmem]
    exact hlength

/-- A write that keeps inside leaves the heap in order and the node with its array. -/
theorem ramfsWrite_owned {bs : List Block} (h : s.Tiled r bs) (hn : n.Owned s)
    (hbuffer : buffer ≠ 0)
    (hinside : WritesInside size offset (ramfsWrite r.head s.mem n buffer size offset)) :
    ∃ live bs', HeapState.Tiled r
        ⟨(ramfsWrite r.head s.mem n buffer size offset).memory, live⟩ bs' ∧
      (ramfsWrite r.head s.mem n buffer size offset).node.Owned
        ⟨(ramfsWrite r.head s.mem n buffer size offset).memory, live⟩ := by
  have hargs : ¬(buffer = 0 ∨ n.type ≠ .file) := fun harg =>
    harg.elim hbuffer fun hne => hne hn.file
  have hiff := (ramfsWrite_inside_iff h hn hbuffer).1 hinside
  rw [ramfsWrite, if_neg hargs]
  by_cases hgrows : n.size < offset + size
  · have hgrows' : n.size.toNat < (offset + size).toNat := BitVec.lt_def.1 hgrows
    rw [if_pos hgrows]
    rcases malloc?_cases h.blocks (offset + size) with
      ⟨hnull, -⟩ | ⟨newData, m', k, hrun, rfl, hk, -, b, hb, hfree, hlarge⟩
    · rw [hnull]
      exact ⟨s.live, bs, h, hn⟩
    · obtain ⟨hwrap, hcond⟩ := hiff.resolve_left fun hrefused => hlarge (hrefused.2 b hb hfree)
      have hsum := toNat_add_of_lt hwrap
      have hround : (offset + size).toNat + 7 < 2 ^ 64 := by omega
      obtain ⟨m, touched, hgrown, heq⟩ := ramfsGrow_grown h hk hn hgrows'
        ((le_toNat_roundUp8 hround).trans hk.room) buffer
      obtain ⟨live, bs', htiled, hlive⟩ := hgrown.heap
      rw [hrun]
      dsimp only
      rw [if_neg hk.ptr_ne_zero, heq, hgrown.length_eq]
      obtain ⟨bs'', hstored⟩ := ramfsStore_owned touched buffer htiled
        (n := { n with data := newData, size := offset + size })
        ⟨hn.file, Or.inr hlive, hgrown.length_eq ▸ hgrown.fits⟩ hsum.ge
      exact ⟨live, bs'', hstored⟩
  · rw [if_neg hgrows]
    have hle : (offset + size).toNat ≤ n.size.toNat := BitVec.le_def.1 (BitVec.not_lt.1 hgrows)
    obtain ⟨hwrap, -⟩ := hiff.resolve_left fun hrefused => hgrows hrefused.1
    rw [toNat_add_of_lt hwrap] at hle
    obtain ⟨bs', hstored⟩ := ramfsStore_owned [] buffer h hn hle
    exact ⟨s.live, bs', hstored⟩

/-- A file as `ramfs_create` makes it. -/
theorem RamfsNode.owned_created (s : HeapState) : RamfsNode.Owned s ⟨.file, 0, 0⟩ :=
  ⟨rfl, Or.inl rfl, Nat.zero_le _⟩

end Grow

theorem RamfsNode.Owned.size_zero {s : HeapState} {n : RamfsNode} (h : n.Owned s)
    (hnone : n.dataAt = none) : n.size = 0 := by
  rw [RamfsNode.dataAt] at hnone
  split_ifs at hnone with hnull
  have hle := h.size_le
  rw [hnull, dataLength, if_pos rfl] at hle
  exact BitVec.eq_of_toNat_eq (Nat.le_zero.1 hle)

/-- In every reachable heap: a read of a file of either file system is exact, and a write of a
file of the memory file system stays inside its arrays, exactly if what is added does not wrap. -/
theorem fileData_bounds_iff {r : HeapRegion} {s : HeapState} (h : HeapReachable r s)
    (buffer size offset : Word) (hbuffer : buffer ≠ 0) : ∃ bs, r.Blocks s.mem bs ∧
      (∀ granted archive t image f, Tarfs.mount granted archive = some (.ok t) →
        (t.node f).type = .file →
        (ReadsExactly s.mem ((t.node f).dataAt image) (t.node f).size buffer size offset
            (tarfsRead s.mem image (t.node f) buffer size offset) ↔
          (offset.toNat < (t.node f).size.toNat → offset.toNat + size.toNat < 2 ^ 64))) ∧
      ∀ n : RamfsNode, n.Owned s →
        (ReadsExactly s.mem n.dataAt n.size buffer size offset
            (ramfsRead s.mem n buffer size offset) ↔
          (offset.toNat < n.size.toNat → offset.toNat + size.toNat < 2 ^ 64)) ∧
        (WritesInside size offset (ramfsWrite r.head s.mem n buffer size offset) ↔
          (n.size < offset + size ∧
              ∀ b ∈ bs, b.free = true → b.size < roundUp8 (offset + size)) ∨
            offset.toNat + size.toNat < 2 ^ 64 ∧
              (offset.toNat + size.toNat ≤ n.size.toNat ∨
                offset.toNat + size.toNat + 7 < 2 ^ 64)) := by
  obtain ⟨bs, htiled⟩ := h.tiled
  refine ⟨bs, htiled.blocks, fun granted archive t image f hmount htype => ?_, fun n hn =>
    ⟨?_, ramfsWrite_inside_iff htiled hn hbuffer⟩⟩
  · rw [tarfsRead, htype]
    refine readFile_exactly_iff s.mem size offset hbuffer fun hnone => ?_
    exact Tarfs.mount_sized hmount f (Option.map_eq_none_iff.1 hnone)
  · rw [ramfsRead, hn.file]
    exact readFile_exactly_iff s.mem size offset hbuffer hn.size_zero

/-- A file without bytes on the fresh sample heap. -/
theorem fileData_bounds_iff_sample : ∃ bs,
    sampleRegion.Blocks (initHead (fun _ => 0) sampleRegion.head sampleRegion.size) bs ∧
      (WritesInside 5 3 (ramfsWrite sampleRegion.head
          (initHead (fun _ => 0) sampleRegion.head sampleRegion.size) ⟨.file, 0, 0⟩ 1 5 3) ↔
        ((0 : Word) < 3 + 5 ∧ ∀ b ∈ bs, b.free = true → b.size < roundUp8 (3 + 5)) ∨
          (3 : Word).toNat + (5 : Word).toNat < 2 ^ 64 ∧
            ((3 : Word).toNat + (5 : Word).toNat ≤ (0 : Word).toNat ∨
              (3 : Word).toNat + (5 : Word).toNat + 7 < 2 ^ 64)) := by
  obtain ⟨bs, hblocks, -, hramfs⟩ := fileData_bounds_iff
    (HeapReachable.init (r := sampleRegion) fun _ => 0) 1 5 3 (by decide)
  exact ⟨bs, hblocks, (hramfs ⟨.file, 0, 0⟩ (RamfsNode.owned_created _)).2⟩

/-- A file of 16 bytes in a reachable heap. -/
theorem exists_file_of_16 : ∃ (s : HeapState) (n : RamfsNode),
    HeapReachable sampleRegion s ∧ n.Owned s ∧ n.size = 16 := by
  have hinit := initHead_tiled sampleRegion fun _ => 0
  rcases malloc?_cases hinit.blocks 16 with ⟨-, hwhy⟩ | ⟨ptr, m', k, hrun, hbefore, hk, -, -⟩
  · rcases hwhy with hzero | hsmall
    · exact absurd hzero (by decide)
    · exact absurd (hsmall _ (List.mem_singleton_self _) rfl) (by decide)
  · have hptr := hk.ptr_ne_zero
    have hroom : (16 : Word).toNat ≤ k.target.size.toNat :=
      (le_toNat_roundUp8 (by decide)).trans hk.room
    refine ⟨⟨m', [ptr]⟩, ⟨.file, 16, ptr⟩, HeapReachable.call (HeapReachable.init fun _ => 0)
      (c := .malloc 16) trivial ?_, ⟨rfl, Or.inr ?_, ?_⟩, rfl⟩
    · simp only [HeapState.call, hrun, Option.map_some, HeapState.handOut, if_neg hptr]
    · exact List.mem_singleton_self _
    · rw [← hk.payload]
      exact hroom.trans_eq (hk.after.dataLength_payload (by simp [Carve.after])).symm

/-- In that file at offset 8, the size `2^64 - 8` is not clamped by a read, and a write takes
it for an end at 0. -/
theorem not_fileData_bounds :
    (¬∀ (s : HeapState) (n : RamfsNode) (buffer size offset : Word),
      HeapReachable sampleRegion s → n.Owned s → buffer ≠ 0 →
        ReadsExactly s.mem n.dataAt n.size buffer size offset
          (ramfsRead s.mem n buffer size offset)) ∧
    ¬∀ (s : HeapState) (n : RamfsNode) (buffer size offset : Word),
      HeapReachable sampleRegion s → n.Owned s → buffer ≠ 0 →
        WritesInside size offset (ramfsWrite sampleRegion.head s.mem n buffer size offset) := by
  obtain ⟨s, n, hreach, hn, hsize⟩ := exists_file_of_16
  have hlt : (8 : Word).toNat < n.size.toNat := by
    rw [hsize]
    decide
  constructor
  · intro h
    have hread := h s n 1 (-8) 8 hreach hn (by decide)
    rw [ramfsRead, hn.file, readFile_exactly_iff s.mem (-8) 8 (by decide) hn.size_zero] at hread
    exact absurd (hread hlt) (by decide)
  · intro h
    have hwrite := h s n 1 (-8) 8 hreach hn (by decide)
    obtain ⟨bs, htiled⟩ := hreach.tiled
    rcases (ramfsWrite_inside_iff htiled hn (by decide)).1 hwrite with ⟨hgrows, -⟩ | ⟨hwrap, -⟩
    · rw [hsize] at hgrows
      exact absurd hgrows (by decide)
    · exact absurd hwrap (by decide)

end Utopia
