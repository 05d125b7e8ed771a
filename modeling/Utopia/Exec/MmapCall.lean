/-
The ways `mmap` can end, and what each of them leaves behind.
-/
import Utopia.Exec.MemoryCalls

namespace Utopia

namespace AddressSpace

/-- The pages from `target` on mapped one by one to the frames from `phys` on. -/
def mapRun (s : AddressSpace) (target phys : Word) (flags : VmFlags) : Nat → AddressSpace
  | 0 => s
  | n + 1 =>
      (mapRun s target phys flags n).map (vpn (target + BitVec.ofNat 64 n * 0x1000))
        (phys + BitVec.ofNat 64 n * 0x1000) flags

end AddressSpace

/-- The first `n` pages from `target` on. -/
def runPages (target : Word) (n : Nat) : Set Vpn :=
  { page | ∃ i < n, vpn (target + BitVec.ofNat 64 i * 0x1000) = page }

namespace AddressSpace

variable {s : AddressSpace} {target phys : Word} {flags : VmFlags} {n : Nat} {page : Vpn}

theorem mapRun_of_notMem (h : page ∉ runPages target n) :
    s.mapRun target phys flags n page = s page := by
  induction n with
  | zero => rfl
  | succ n ih =>
      have hne : page ≠ vpn (target + BitVec.ofNat 64 n * 0x1000) :=
        fun heq => h ⟨n, Nat.lt_succ_self n, heq.symm⟩
      rw [mapRun, map, Function.update_of_ne hne]
      exact ih fun ⟨i, hi, heq⟩ => h ⟨i, by omega, heq⟩

/-- A page of the run is mapped to one of its frames. -/
theorem mapRun_of_mem (s : AddressSpace) (phys : Word) (flags : VmFlags)
    (h : page ∈ runPages target n) :
    ∃ i < n, s.mapRun target phys flags n page =
      some ⟨phys + BitVec.ofNat 64 i * 0x1000, flags⟩ := by
  induction n with
  | zero =>
      obtain ⟨i, hi, -⟩ := h
      omega
  | succ n ih =>
      by_cases heq : page = vpn (target + BitVec.ofNat 64 n * 0x1000)
      · subst heq
        exact ⟨n, Nat.lt_succ_self n, Function.update_self _ _ _⟩
      · have hrest : page ∈ runPages target n := by
          obtain ⟨i, hi, hi'⟩ := h
          refine ⟨i, lt_of_le_of_ne (Nat.lt_succ_iff.mp hi) ?_, hi'⟩
          rintro rfl
          exact heq hi'.symm
        obtain ⟨i, hi, hmapped⟩ := ih hrest
        refine ⟨i, by omega, ?_⟩
        rw [mapRun, map, Function.update_of_ne heq]
        exact hmapped

end AddressSpace

namespace Machine

variable {k : Machine} {m m₁ : Memory} {live live₁ mine array held data : Set Chunk}
  {tops : Set (Fin 512)} {pages : Set Vpn} {roots : Set TableAddr} {r : TableAddr}
  {owned : PageList} {ps : List Word} {c : Chunk} {target : Word} {flags : VmFlags} {n : Nat}

theorem hhdmVirtToPhys_add (p offset : Word) :
    k.hhdmVirtToPhys (p + offset) = k.hhdmVirtToPhys p + offset := by
  rw [hhdmVirtToPhys, hhdmVirtToPhys, BitVec.sub_eq_add_neg, BitVec.sub_eq_add_neg,
    BitVec.add_assoc, BitVec.add_assoc, BitVec.add_comm (-k.hhdmOffset)]

/-- The pages of a block that was handed out are frames. -/
theorem isFrame_block (hlive : k.alloc.Live m live) (hc : c ∈ live)
    (haligned : c.ptr.toNat % 4096 = 0) (hsize : 4096 * n ≤ c.size) {i : Nat} (hi : i < n) :
    k.arch.IsFrame (k.hhdmVirtToPhys c.ptr + BitVec.ofNat 64 i * 0x1000) := by
  have hfit := k.alloc.bytes_fit hlive hc
  have hmul : (BitVec.ofNat 64 i * 0x1000 : Word).toNat = 4096 * i := by
    rw [BitVec.toNat_mul, BitVec.toNat_ofNat]
    change i % 2 ^ 64 * 4096 % 2 ^ 64 = 4096 * i
    omega
  have haddr : (c.ptr + BitVec.ofNat 64 i * 0x1000).toNat = c.ptr.toNat + 4096 * i := by
    rw [toNat_add_of_lt, hmul]
    rw [hmul]
    omega
  rw [← hhdmVirtToPhys_add, hhdmVirtToPhys]
  constructor
  · have hoffset := k.hhdm_aligned
    rw [BitVec.toNat_sub, haddr]
    omega
  · apply k.arena_frames
    apply k.alloc.bytes_subset hlive hc
    rw [Chunk.bytes, mem_span, haddr]
    omega

/-- The mapping loop maps the whole block, or stops before its end. -/
theorem mapBlock_spec (hr : r ∈ roots) (hc : c ∈ data)
    (h : k.Custody tops pages roots r m live ps mine data m₁ live₁ owned ps array held)
    (haligned : c.ptr.toNat % 4096 = 0) (hsize : 4096 * n ≤ c.size)
    (htops : ∀ i < n, ptIndex (target + BitVec.ofNat 64 i * 0x1000) ptTopLevel ∈ tops)
    (hpages : runPages target n ⊆ pages) (flags : VmFlags) :
    ∃ live' held', k.Custody tops pages roots r m live ps mine data
        (k.mapBlock m₁ r.addr target (k.hhdmVirtToPhys c.ptr) flags n).2 live' owned ps array held' ∧
      ∃ j ≤ n, k.spaceOf (k.mapBlock m₁ r.addr target (k.hhdmVirtToPhys c.ptr) flags n).2 r.addr =
          (k.spaceOf m₁ r.addr).mapRun target (k.hhdmVirtToPhys c.ptr) flags j ∧
        ((k.mapBlock m₁ r.addr target (k.hhdmVirtToPhys c.ptr) flags n).1 = 0 ↔ j = n) := by
  have hloop := forEach_rule (fun i m => k.mapPage4k m r.addr
      (target + BitVec.ofNat 64 i * 0x1000) (k.hhdmVirtToPhys c.ptr + BitVec.ofNat 64 i * 0x1000)
      flags) (List.range n)
    (fun done m' => ∃ live' held',
      k.Custody tops pages roots r m live ps mine data m' live' owned ps array held' ∧
        k.spaceOf m' r.addr =
          (k.spaceOf m₁ r.addr).mapRun target (k.hhdmVirtToPhys c.ptr) flags done.length)
    (fun m' => ∃ live' held',
      k.Custody tops pages roots r m live ps mine data m' live' owned ps array held' ∧ ∃ j < n,
        k.spaceOf m' r.addr =
          (k.spaceOf m₁ r.addr).mapRun target (k.hhdmVirtToPhys c.ptr) flags j)
    (s := m₁) ⟨live₁, held, h, rfl⟩ ?_
  · rcases hloop with ⟨hzero, live', held', hcustody, hspace⟩ |
      ⟨hne, live', held', hcustody, j, hj, hspace⟩
    · rw [List.length_range] at hspace
      exact ⟨live', held', hcustody, n, le_rfl, hspace, fun _ => rfl, fun _ => hzero⟩
    · exact ⟨live', held', hcustody, j, hj.le, hspace,
        ⟨fun hzero => absurd hzero hne, fun heq => absurd heq hj.ne⟩⟩
  · rintro done i rest m' hsplit ⟨live', held', hcustody, hspace⟩
    obtain ⟨rfl, hlt⟩ := eq_length_of_range_eq hsplit
    obtain ⟨live'', hx, hanswers⟩ := hcustody.alters.tables.mapPage4k_spec hr
      (htops done.length hlt) (k.hhdmVirtToPhys c.ptr + BitVec.ofNat 64 done.length * 0x1000) flags
    rw [pageMapping_pteLeaf (isFrame_block hcustody.alters.tables.heap (hcustody.data_sub hc) haligned
      hsize hlt)] at hanswers
    generalize k.mapPage4k m' r.addr (target + BitVec.ofNat 64 done.length * 0x1000)
      (k.hhdmVirtToPhys c.ptr + BitVec.ofNat 64 done.length * 0x1000) flags = res
      at hx hanswers ⊢
    obtain ⟨status, m''⟩ := res
    have hpage : ({vpn (target + BitVec.ofNat 64 done.length * 0x1000)} : Set Vpn) ⊆ pages :=
      Set.singleton_subset_iff.mpr (hpages ⟨done.length, hlt, rfl⟩)
    have hnext := hcustody.extend hr hx
      (fun page hout => hanswers.own hr (fun page hne => Function.update_of_ne hne _ _)
        fun hmem => hout (hpage hmem))
      (fun r' hr' hne page hout => hanswers.others hr' hne
        (hout.imp_right fun hout hmem => hout (hpage hmem)))
    rcases hanswers with ⟨hzero, hupdate, -⟩ | ⟨hfail, hsame⟩
    · refine Or.inl ⟨hzero, live'', _, hnext, ?_⟩
      rw [hspace] at hupdate
      rw [List.length_append, List.length_singleton]
      exact hupdate
    · refine Or.inr ⟨fun hzero => absurd (hfail.symm.trans hzero) (by decide), live'', _, hnext,
        done.length, hlt, ?_⟩
      rw [← hspace]
      exact hsame r hr

/-! ### The block -/

theorem fillBlock_eqOn {block size offset : Word} {node : Option Vnode} {m' : Memory}
    (hfit : block.toNat + size.toNat ≤ 2 ^ 64)
    (hfill : fillBlock m block size node offset = some m') :
    Set.EqOn m' m (span block size.toNat)ᶜ := by
  rw [fillBlock] at hfill
  by_cases hbig : 2 ^ 63 ≤ size.toNat
  · rw [if_pos hbig] at hfill
    cases hfill
  rw [if_neg hbig] at hfill
  have hclear : Set.EqOn (m.fill block size.toNat 0) m (span block size.toNat)ᶜ :=
    Memory.fill_eqOn m 0 hfit
  cases node with
  | none =>
      cases hfill
      exact hclear
  | some node =>
      by_cases hread : offset < node.size
      · simp only [if_pos hread, Option.some.injEq] at hfill
        generalize hwant : (if size < node.size - offset then size else node.size - offset) = want
          at hfill
        have hle : want.toNat ≤ size.toNat := by
          rw [← hwant]
          split_ifs with hlt
          · exact le_rfl
          · exact BitVec.not_lt.mp hlt
        have hlength := node.read_length_le want offset
        rw [← hfill]
        refine ((Memory.store_eqOn _ (by omega)).mono ?_).trans hclear
        exact Set.compl_subset_compl.mpr (span_subset_span le_rfl (by omega))
      · simp only [if_neg hread, Option.some.injEq] at hfill
        rw [← hfill]
        exact hclear

/-! ### The call -/

/-- The number of pages of a mapping of `length` bytes. -/
def mmapPages (length : Word) : Nat := (pageAlignUp length / 0x1000).toNat

theorem mmapPages_mul (length : Word) :
    4096 * mmapPages length = (pageAlignUp length).toNat := by
  have haligned := pageAlignUp_aligned length
  rw [mmapPages, BitVec.toNat_udiv]
  change 4096 * ((pageAlignUp length).toNat / 4096) = _
  omega

/-- The pages that `mmap` is about to map. -/
def mmapRange (process : ProcessSpace) (addr length : Word) : Set Vpn :=
  runPages (process.mmapTarget addr) (mmapPages length)

/-- The block `block` was handed out and filled, and the mapping loop ended with
`mapped`. -/
structure MmapRuns (k : Machine) (m : Memory) (process : ProcessSpace)
    (addr length prot flags fd offset block : Word) (mapped : Int × Memory) : Prop where
  block_ne_zero : block ≠ 0
  runs : ∃ node m₁ m₂, process.mmapNode flags fd = some node ∧
    k.alloc.pageAlloc m (pageAlignUp length / 0x1000) = (block, m₁) ∧
    fillBlock m₁ block (pageAlignUp length) node offset = some m₂ ∧
    k.mapBlock m₂ process.pageTable (process.mmapTarget addr) (k.hhdmVirtToPhys block)
      (mmapFlags prot) (mmapPages length) = mapped

section Runs

variable {process : ProcessSpace} {addr length prot flags fd offset : Word}

theorem MmapRuns.unique {block block' : Word} {mapped mapped' : Int × Memory}
    (h : k.MmapRuns m process addr length prot flags fd offset block mapped)
    (h' : k.MmapRuns m process addr length prot flags fd offset block' mapped') :
    mapped = mapped' := by
  obtain ⟨node, m₁, m₂, hnode, hgrant, hfill, hmap⟩ := h.runs
  obtain ⟨node', m₁', m₂', hnode', hgrant', hfill', hmap'⟩ := h'.runs
  obtain rfl : node = node' := Option.some.inj (hnode.symm.trans hnode')
  obtain ⟨rfl, rfl⟩ := Prod.mk.inj (hgrant.symm.trans hgrant')
  obtain rfl : m₂ = m₂' := Option.some.inj (hfill.symm.trans hfill')
  exact hmap.symm.trans hmap'

theorem MmapRuns.node_ne_none {block : Word} {mapped : Int × Memory}
    (h : k.MmapRuns m process addr length prot flags fd offset block mapped) :
    process.mmapNode flags fd ≠ none := by
  obtain ⟨node, -, -, hnode, -⟩ := h.runs
  simp [hnode]

theorem MmapRuns.granted {block : Word} {mapped : Int × Memory}
    (h : k.MmapRuns m process addr length prot flags fd offset block mapped) :
    (k.alloc.pageAlloc m (pageAlignUp length / 0x1000)).1 ≠ 0 := by
  obtain ⟨node, m₁, m₂, -, hgrant, -⟩ := h.runs
  rw [hgrant]
  exact h.block_ne_zero

theorem MmapRuns.size_lt {block : Word} {mapped : Int × Memory}
    (h : k.MmapRuns m process addr length prot flags fd offset block mapped) :
    (pageAlignUp length).toNat < 2 ^ 63 := by
  obtain ⟨node, m₁, m₂, -, -, hfill, -⟩ := h.runs
  by_contra hbig
  rw [fillBlock, if_pos (Nat.le_of_not_lt hbig)] at hfill
  cases hfill

end Runs

/-- The pages that `mmap` is about to map, once it has a block for them. -/
def mmapTouched (k : Machine) (m : Memory) (process : ProcessSpace)
    (addr length flags fd : Word) : Set Vpn :=
  { page | process.mmapNode flags fd ≠ none ∧
    (k.alloc.pageAlloc m (pageAlignUp length / 0x1000)).1 ≠ 0 ∧
    page ∈ mmapRange process addr length }

/-- How `mmap` ends. -/
inductive MmapEnds (k : Machine) (tops : Set (Fin 512)) (roots : Set TableAddr) (r : TableAddr)
    (m : Memory) (live : Set Chunk) (ps : List Word) (array mine : Set Chunk)
    (process : ProcessSpace) (addr length prot flags fd offset : Word) :
    Option (Word × Memory × ProcessSpace) → Prop where
  | nothing (hlength : length = 0) : MmapEnds k tops roots r m live ps array mine process addr
      length prot flags fd offset (some (0, m, process))
  | badDescriptor (hlength : length ≠ 0) (hnode : process.mmapNode flags fd = none) :
      MmapEnds k tops roots r m live ps array mine process addr length prot flags fd offset
        (some (ebadf, m, process.mmapAdvance addr (pageAlignUp length)
          (pageAlignUp_aligned length)))
  | noMemory (hlength : length ≠ 0) (hnode : process.mmapNode flags fd ≠ none)
      (hnull : (k.alloc.pageAlloc m (pageAlignUp length / 0x1000)).1 = 0) :
      MmapEnds k tops roots r m live ps array mine process addr length prot flags fd offset
        (some (0, m, process.mmapAdvance addr (pageAlignUp length) (pageAlignUp_aligned length)))
  | faults (hlength : length ≠ 0) (hnode : process.mmapNode flags fd ≠ none)
      (hblock : (k.alloc.pageAlloc m (pageAlignUp length / 0x1000)).1 ≠ 0)
      (hbig : 2 ^ 63 ≤ (pageAlignUp length).toNat) :
      MmapEnds k tops roots r m live ps array mine process addr length prot flags fd offset none
  | mapped {c : Chunk} {m' : Memory} {live' held : Set Chunk} (hlength : length ≠ 0)
      (hruns : k.MmapRuns m process addr length prot flags fd offset c.ptr (0, m'))
      (haligned : c.ptr.toNat % 4096 = 0) (hsize : 4096 * mmapPages length ≤ c.size)
      (hcustody : k.Custody tops (mmapRange process addr length) roots r m live ps mine {c} m' live'
        process.ownedPages ps array held)
      (hspace : k.spaceOf m' r.addr = (k.spaceOf m r.addr).mapRun (process.mmapTarget addr)
        (k.hhdmVirtToPhys c.ptr) (mmapFlags prot) (mmapPages length)) :
      MmapEnds k tops roots r m live ps array mine process addr length prot flags fd offset
        (some (process.mmapTarget addr, m',
          process.mmapAdvance addr (pageAlignUp length) (pageAlignUp_aligned length)))
  | undone {c : Chunk} {status : Int} {m' : Memory} {live' held : Set Chunk} {n : Nat}
      (hlength : length ≠ 0) (hstatus : status ≠ 0)
      (hruns : k.MmapRuns m process addr length prot flags fd offset c.ptr (status, m'))
      (haligned : c.ptr.toNat % 4096 = 0) (hsize : 4096 * mmapPages length ≤ c.size)
      (hless : n < mmapPages length)
      (hcustody : k.Custody tops (mmapRange process addr length) roots r m live ps mine {c} m' live'
        process.ownedPages ps array held)
      (hspace : k.spaceOf m' r.addr = (k.spaceOf m r.addr).mapRun (process.mmapTarget addr)
        (k.hhdmVirtToPhys c.ptr) (mmapFlags prot) n) :
      MmapEnds k tops roots r m live ps array mine process addr length prot flags fd offset
        (some (0, k.alloc.free m' c.ptr,
          process.mmapAdvance addr (pageAlignUp length) (pageAlignUp_aligned length)))

/-- The block is in custody once it was handed out and filled. -/
theorem filledBlock_custody (tops : Set (Fin 512)) (pages : Set Vpn) (h : k.PageTables m live roots)
    (hr : r ∈ roots) (ht : k.Tenant roots r m live owned ps array mine) {length offset block : Word}
    {node : Option Vnode} {m₂ : Memory} (hblock : block ≠ 0)
    (hgrant : k.alloc.pageAlloc m (pageAlignUp length / 0x1000) = (block, m₁))
    (hfill : fillBlock m₁ block (pageAlignUp length) node offset = some m₂) :
    ∃ c : Chunk, c.ptr = block ∧ c.ptr.toNat % 4096 = 0 ∧ 4096 * mmapPages length ≤ c.size ∧
      k.Custody tops pages roots r m live ps mine {c} m₂ (insert c live) owned ps array mine ∧
      k.spaceOf m₂ r.addr = k.spaceOf m r.addr := by
  have hbig : ¬ 2 ^ 63 ≤ (pageAlignUp length).toNat := by
    intro hbig
    rw [fillBlock, if_pos hbig] at hfill
    cases hfill
  have hpages : 4096 * mmapPages length = (pageAlignUp length).toNat := mmapPages_mul length
  have hpages' : (pageAlignUp length / 0x1000).toNat = mmapPages length := rfl
  obtain ⟨haligned, hgranted⟩ := k.alloc.pageAlloc_spec h.heap
    (show 4096 * (pageAlignUp length / 0x1000).toNat + 8192 ≤ 2 ^ 64 by omega)
  rw [hgrant] at haligned hgranted
  rcases hgranted with hnone | ⟨c, m', hresult, hsize, hnew, hlive, hkept⟩
  · exact absurd (congrArg Prod.fst hnone) hblock
  obtain ⟨rfl, rfl⟩ := Prod.mk.inj hresult
  rw [hpages'] at hsize
  have hfit := k.alloc.bytes_fit hlive (Set.mem_insert c live)
  have hfilled := fillBlock_eqOn (by omega) hfill
  have hbytes : span c.ptr (pageAlignUp length).toNat ⊆ c.bytes :=
    span_subset_span le_rfl (by omega)
  obtain ⟨hlive₂, hkept₂⟩ := Allocator.written hnew hlive hkept hbytes hfilled
  exact ⟨c, rfl, haligned, hsize, Custody.first tops pages ht h hr hnew hlive₂ hkept₂,
    PageTables.spaceOf_congr hr fun t ht => hkept₂.mono (h.kept t ht)⟩

/-- Everything that `mmap` can do. -/
theorem syscallMmap_ends {process : ProcessSpace} (tops : Set (Fin 512)) (addr length : Word)
    (h : k.PageTables m live roots) (hr : r ∈ roots) (htable : process.pageTable = r.addr)
    (ht : k.Tenant roots r m live process.ownedPages ps array mine)
    (prot flags fd offset : Word)
    (htops : ∀ page ∈ k.mmapTouched m process addr length flags fd,
      ptIndex page.addr ptTopLevel ∈ tops) :
    k.MmapEnds tops roots r m live ps array mine process addr length prot flags fd offset
      (k.syscallMmap m process addr length prot flags fd offset) := by
  by_cases hlength : length = 0
  · rw [syscallMmap, if_pos hlength]
    exact MmapEnds.nothing hlength
  obtain ⟨⟨block, m₁⟩, hgrant⟩ :
      ∃ granted, k.alloc.pageAlloc m (pageAlignUp length / 0x1000) = granted := ⟨_, rfl⟩
  rw [syscallMmap, if_neg hlength]
  simp only [ProcessSpace.mmapNode_mmapAdvance, ProcessSpace.pageTable_mmapAdvance, hgrant]
  cases hnode : process.mmapNode flags fd with
  | none => exact MmapEnds.badDescriptor hlength hnode
  | some node =>
      have hgood : process.mmapNode flags fd ≠ none := by simp [hnode]
      dsimp only
      by_cases hnull : block = 0
      · have hzero : (k.alloc.pageAlloc m (pageAlignUp length / 0x1000)).1 = 0 := by
          rw [hgrant]
          exact hnull
        rw [k.alloc.pageAlloc_null h.heap hzero, Prod.mk.injEq] at hgrant
        rw [if_pos hnull, ← hgrant.2]
        exact MmapEnds.noMemory hlength hgood hzero
      rw [if_neg hnull]
      have hblock : (k.alloc.pageAlloc m (pageAlignUp length / 0x1000)).1 = block :=
        congrArg Prod.fst hgrant
      by_cases hbig : 2 ^ 63 ≤ (pageAlignUp length).toNat
      · rw [fillBlock, if_pos hbig]
        exact MmapEnds.faults hlength hgood (hblock ▸ hnull) hbig
      cases hfill : fillBlock m₁ block (pageAlignUp length) node offset with
      | none =>
          rw [fillBlock, if_neg hbig] at hfill
          split at hfill
          · cases hfill
          · split_ifs at hfill
      | some m₂ =>
          obtain ⟨c, rfl, haligned, hsize, hcustody, hspace₂⟩ := filledBlock_custody tops
            (mmapRange process addr length) h hr ht hnull hgrant hfill
          have hrange : ∀ i < mmapPages length,
              ptIndex (process.mmapTarget addr + BitVec.ofNat 64 i * 0x1000) ptTopLevel ∈ tops := by
            intro i hi
            rw [← ptIndex_top_congr (vpn_addr (vpn _))]
            exact htops _ ⟨hgood, hblock ▸ hnull, i, hi, rfl⟩
          obtain ⟨live₃, held, hcustody₃, j, hj, hspace, hdone⟩ := mapBlock_spec hr (Set.mem_singleton c) hcustody
            haligned hsize hrange subset_rfl (mmapFlags prot)
          rw [hspace₂] at hspace
          simp only [Option.map_some, htable, show (pageAlignUp length / 0x1000).toNat =
            mmapPages length from rfl]
          generalize hmap : k.mapBlock m₂ r.addr (process.mmapTarget addr) (k.hhdmVirtToPhys c.ptr)
            (mmapFlags prot) (mmapPages length) = result at hcustody₃ hspace hdone ⊢
          obtain ⟨status, m₃⟩ := result
          have hruns : k.MmapRuns m process addr length prot flags fd offset c.ptr (status, m₃) :=
            ⟨hnull, node, m₁, m₂, hnode, hgrant, hfill, htable ▸ hmap⟩
          by_cases hzero : status = 0
          · obtain rfl := hdone.mp hzero
            subst hzero
            rw [if_neg (by simp)]
            exact MmapEnds.mapped hlength hruns haligned hsize hcustody₃ hspace
          · rw [if_pos hzero]
            exact MmapEnds.undone hlength hzero hruns haligned hsize
              (lt_of_le_of_ne hj fun heq => hzero (hdone.mpr heq)) hcustody₃ hspace

end Machine

end Utopia
