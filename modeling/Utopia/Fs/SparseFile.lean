/-
A file of the memory file system as a sparse array of bytes: what `ramfs_write` and
`ramfs_read` do to it, over any history of calls.
-/
import Mathlib.Data.BitVec
import Utopia.Fs.FileData
import Utopia.Lib.Fields
import Utopia.Lib.SparseArray
import Utopia.Mm.HeapArena

namespace Utopia

/-- The chunks but that at `data`. -/
def othersOf (live : Set Chunk) (data : Word) : Set Chunk := live \ { c | c.ptr = data }

/-- The node is a file whose array, in a heap with the chunks `live`, holds `f`. -/
structure RamfsNode.Stores (r : HeapRegion) (m : Memory) (live : Set Chunk) (n : RamfsNode)
    (f : SparseArray Byte) : Prop where
  heap : r.Live m live
  file : n.type = .file
  array : (n.data = 0 ∧ n.size = 0) ∨ ∃ c ∈ live, c.ptr = n.data ∧ n.size.toNat ≤ c.size
  size : n.size.toNat = f.size
  bytes : ∀ i < f.size, m (n.data + BitVec.ofNat 64 i) = f.entry i

/-- The `n` bytes at `a` lie outside the heap, or in its other chunks. -/
def Apart (r : HeapRegion) (live : Set Chunk) (data a : Word) (n : ℕ) : Prop :=
  reach a n ⊆ r.allocator.kept (othersOf live data)

section Memory

variable {m : Memory} {a : Word} {n i : ℕ}

theorem add_ofNat_sub {offset : Word} (hle : offset.toNat ≤ i) (hi : i < 2 ^ 64) :
    offset + BitVec.ofNat 64 (i - offset.toNat) = BitVec.ofNat 64 i := by
  have hrest : (BitVec.ofNat 64 (i - offset.toNat)).toNat = i - offset.toNat := by
    rw [BitVec.toNat_ofNat, Nat.mod_eq_of_lt (by omega)]
  apply BitVec.eq_of_toNat_eq
  rw [toNat_add_of_lt (by omega), hrest, BitVec.toNat_ofNat, Nat.mod_eq_of_lt hi]
  omega

theorem copy_of_lt (m : Memory) (dst src : Word) (hi : i < n) (h : i < 2 ^ 64) :
    m.copy dst src n (dst + BitVec.ofNat 64 i) = m (src + BitVec.ofNat 64 i) := by
  have hsub : dst + BitVec.ofNat 64 i - dst = BitVec.ofNat 64 i := by
    rw [BitVec.add_comm, BitVec.add_sub_cancel]
  rw [Memory.copy, add_sub_toNat dst h, if_pos hi, hsub]

theorem copy_of_not_lt (m : Memory) (dst src : Word) (hi : ¬ i < n) (h : i < 2 ^ 64) :
    m.copy dst src n (dst + BitVec.ofNat 64 i) = m (dst + BitVec.ofNat 64 i) := by
  rw [Memory.copy, add_sub_toNat dst h, if_neg hi]

end Memory

variable {r : HeapRegion} {m : Memory} {live : Set Chunk} {n : RamfsNode} {f : SparseArray Byte}
  {c : Chunk} {i : ℕ} {buffer size offset : Word}

theorem Chunk.toNat_add (hlive : r.Live m live) (hc : c ∈ live) (hi : i < c.size) :
    (c.ptr + BitVec.ofNat 64 i).toNat = c.ptr.toNat + i := by
  have hfit := hlive.bytes_fit hc
  have hi' : (BitVec.ofNat 64 i).toNat = i := by
    rw [BitVec.toNat_ofNat, Nat.mod_eq_of_lt (by omega)]
  rw [toNat_add_of_lt (by omega), hi']

theorem Chunk.mem_bytes (hlive : r.Live m live) (hc : c ∈ live) (hi : i < c.size) :
    c.ptr + BitVec.ofNat 64 i ∈ c.bytes := by
  rw [Chunk.bytes, mem_span, Chunk.toNat_add hlive hc hi]
  omega

/-- Stores to the bytes of a chunk leave the heap in order. -/
theorem live_of_chunk {m' : Memory} (hlive : r.Live m live) (hc : c ∈ live)
    (heq : Set.EqOn m' m c.bytesᶜ) : r.Live m' live :=
  @Allocator.Live.of_eqOn_compl r.allocator _ _ _ _ hlive (Allocator.bytes_subset_kept hc) heq

/-- The last `memcpy` of `ramfs_write`. -/
theorem RamfsNode.Stores.store (h : n.Stores r m live f) (buffer : Word)
    (hfits : offset.toNat + size.toNat ≤ n.size.toNat) :
    n.Stores r (m.copy (n.data + offset) buffer size.toNat) live
        (f.write offset.toNat (bytesFrom m buffer size.toNat)) ∧
      Set.EqOn (m.copy (n.data + offset) buffer size.toNat) m
        (r.allocator.kept (othersOf live n.data)) := by
  have hsize : (f.write offset.toNat (bytesFrom m buffer size.toNat)).size = f.size := by
    rw [SparseArray.size_write, length_bytesFrom, ← h.size]
    omega
  by_cases hnone : size.toNat = 0
  · have hsame : m.copy (n.data + offset) buffer size.toNat = m := by
      funext x
      rw [hnone, Memory.copy, if_neg (Nat.not_lt_zero _)]
    rw [hsame]
    refine ⟨⟨h.heap, h.file, h.array, h.size.trans hsize.symm, fun i hi => ?_⟩, fun _ _ => rfl⟩
    rw [SparseArray.entry_write_outside f (by rw [length_bytesFrom]; omega)]
    exact h.bytes i (hsize ▸ hi)
  obtain ⟨c, hc, hptr, hroom⟩ : ∃ c ∈ live, c.ptr = n.data ∧ n.size.toNat ≤ c.size := by
    refine h.array.resolve_left fun hnull => hnone ?_
    have hzero : n.size.toNat = 0 := by
      rw [hnull.2]
      rfl
    omega
  have hfit := h.heap.bytes_fit hc
  have hstart : (n.data + offset).toNat = c.ptr.toNat + offset.toNat := by
    rw [← hptr, toNat_add_of_lt (by omega)]
  have hcopy := @Memory.copy_eqOn (n.data + offset) size.toNat m buffer (by omega)
  have hbody : Set.EqOn (m.copy (n.data + offset) buffer size.toNat) m c.bytesᶜ := by
    refine hcopy.mono (Set.compl_subset_compl.mpr ?_)
    exact span_subset_span (by omega) (by omega)
  have hapart : Disjoint c.bytes (r.allocator.kept (othersOf live n.data)) :=
    @Allocator.bytes_disjoint_kept_diff r.allocator _ _ _ _ h.heap hc hptr
  refine ⟨⟨live_of_chunk h.heap hc hbody, h.file, h.array, h.size.trans hsize.symm,
    fun i hi => ?_⟩, fun x hx => hbody fun hxc => Set.disjoint_left.mp hapart hxc hx⟩
  rw [hsize] at hi
  have haddr : (n.data + BitVec.ofNat 64 i).toNat = c.ptr.toNat + i := by
    rw [← hptr]
    exact Chunk.toNat_add h.heap hc (by rw [← h.size] at hi; omega)
  have hlt : i < 2 ^ 64 := by
    rw [← h.size] at hi
    omega
  by_cases hin : offset.toNat ≤ i ∧ i < offset.toNat + size.toNat
  · rw [SparseArray.entry_write_inside f hin.1 (by rw [length_bytesFrom]; exact hin.2),
      getD_bytesFrom (by omega), ← add_ofNat_sub hin.1 hlt, ← BitVec.add_assoc,
      copy_of_lt m _ _ (by omega) (by omega)]
  · rw [SparseArray.entry_write_outside f (by rwa [length_bytesFrom]), ← h.bytes i hi]
    apply hcopy
    rw [Set.mem_compl_iff, mem_span, haddr, hstart]
    omega

/-- What `ramfs_write` does with a new array before the last `memcpy`; none if `free` does
not return. -/
def movedArray (head : Word) (m : Memory) (n : RamfsNode) (newData needed : Word) :
    Option Memory :=
  let m := m.fill newData needed.toNat 0
  if n.data = 0 then some m else free? head (m.copy newData n.data n.size.toNat) n.data

theorem ramfsGrow_eq {head newData : Word} {m' : Memory}
    (h : movedArray head m n newData (offset + size) = some m') (oldLength : ℕ) :
    ∃ length touched, ramfsGrow head m n oldLength newData buffer size offset =
      ramfsStore m' { n with data := newData, size := offset + size } length touched buffer size
        offset := by
  rw [movedArray] at h
  rw [ramfsGrow]
  dsimp only at h ⊢
  by_cases hnull : n.data = 0
  · rw [if_pos hnull] at h ⊢
    cases h
    exact ⟨_, _, rfl⟩
  · rw [if_neg hnull] at h ⊢
    rw [h]
    exact ⟨_, _, rfl⟩

/-- The node has its array in the new chunk `c`, and the bytes of others are as they were. -/
structure MovedTo (r : HeapRegion) (m : Memory) (live : Set Chunk) (n : RamfsNode)
    (f : SparseArray Byte) (needed : Word) (c : Chunk) (m' : Memory) (live' : Set Chunk) :
    Prop where
  stores : RamfsNode.Stores r m' live' { n with data := c.ptr, size := needed }
    (f.grow needed.toNat)
  others : othersOf live n.data ⊆ othersOf live' c.ptr
  kept : Set.EqOn m' m (r.allocator.kept (othersOf live n.data))

/-- A new chunk is none of the others. -/
theorem othersOf_subset {live' : Set Chunk} {data : Word} (hlive : r.Live m (insert c live))
    (hnew : c ∉ live) (hsub : othersOf live data ⊆ live') :
    othersOf live data ⊆ othersOf live' c.ptr := by
  intro d hd
  refine ⟨hsub hd, fun hptr => hnew ?_⟩
  have hsame : d = c := r.allocator.ptr_injOn hlive (Set.mem_insert_of_mem c hd.1)
    (Set.mem_insert c live) hptr
  exact hsame ▸ hd.1

/-- The new array is cleared, takes over the old bytes, and the old array is freed. -/
theorem RamfsNode.Stores.moves {needed : Word} {m₁ : Memory} (h : n.Stores r m live f)
    (hlt : n.size.toNat < needed.toNat) (hroom : needed.toNat ≤ c.size) (hnew : c ∉ live)
    (hlive : r.Live m₁ (insert c live)) (hkept : Set.EqOn m₁ m (r.allocator.kept live)) :
    ∃ m' live', movedArray r.head m₁ n c.ptr needed = some m' ∧
      MovedTo r m live n f needed c m' live' := by
  have hc : c ∈ insert c live := Set.mem_insert c live
  have hfit := hlive.bytes_fit hc
  have hdisjoint : Disjoint c.bytes (r.allocator.kept live) :=
    @Allocator.bytes_disjoint_kept r.allocator _ _ _ _ hlive (Set.subset_insert c live) hc hnew
  have hgrown : (f.grow needed.toNat).size = needed.toNat := by
    rw [SparseArray.size_grow, ← h.size]
    omega
  have hfill : Set.EqOn (m₁.fill c.ptr needed.toNat 0) m₁ c.bytesᶜ := by
    refine (Memory.fill_eqOn m₁ 0 (by omega)).mono (Set.compl_subset_compl.mpr ?_)
    exact span_subset_span le_rfl (by omega)
  have hzero : ∀ i < needed.toNat, m₁.fill c.ptr needed.toNat 0 (c.ptr + BitVec.ofNat 64 i) = 0 := by
    intro i hi
    rw [Memory.fill, add_sub_toNat c.ptr (by omega), if_pos hi]
  have hlive₂ : r.Live (m₁.fill c.ptr needed.toNat 0) (insert c live) := live_of_chunk hlive hc hfill
  have hold : Set.EqOn (m₁.fill c.ptr needed.toNat 0) m (r.allocator.kept live) := by
    intro x hx
    rw [hfill fun hxc => Set.disjoint_left.mp hdisjoint hxc hx, hkept hx]
  rw [movedArray]
  generalize m₁.fill c.ptr needed.toNat 0 = m₂ at hzero hlive₂ hold
  by_cases hnull : n.data = 0
  · rw [if_pos hnull]
    have hempty : f.size = 0 := by
      rcases h.array with ⟨-, hzero⟩ | ⟨c₀, hc₀, hptr, -⟩
      · rw [← h.size, hzero]
        rfl
      · exact absurd (hptr.trans hnull) (r.allocator.ptr_ne_zero h.heap hc₀)
    refine ⟨m₂, insert c live, rfl, ⟨hlive₂, h.file, .inr ⟨c, hc, rfl, hroom⟩, hgrown.symm,
      fun i hi => ?_⟩, ?_, hold.mono (Allocator.kept_mono Set.sdiff_subset)⟩
    · rw [hgrown] at hi
      exact (hzero i hi).trans (f.entry_eq_zero i (hempty ▸ Nat.zero_le i)).symm
    · exact othersOf_subset hlive₂ hnew (Set.sdiff_subset.trans (Set.subset_insert c live))
  · rw [if_neg hnull]
    obtain ⟨c₀, hc₀, hptr, hsize⟩ := h.array.resolve_left fun hnone => hnull hnone.1
    have hcopy : Set.EqOn (m₂.copy c.ptr n.data n.size.toNat) m₂ c.bytesᶜ := by
      refine (Memory.copy_eqOn m₂ n.data (by omega)).mono (Set.compl_subset_compl.mpr ?_)
      exact span_subset_span le_rfl (by omega)
    have hlive₃ := live_of_chunk hlive₂ hc hcopy
    obtain ⟨m', hfree, hlive', hframe⟩ := HeapRegion.free?_live hlive₃ (Set.mem_insert_of_mem c hc₀)
    have hne : c ≠ c₀ := by
      rintro rfl
      exact hnew hc₀
    have hstay : c ∈ insert c live \ {c₀} := ⟨hc, hne⟩
    have hothers : othersOf live n.data ⊆ insert c live \ {c₀} := by
      refine fun d hd => ⟨Set.mem_insert_of_mem c hd.1, ?_⟩
      rintro rfl
      exact hd.2 hptr
    rw [hptr] at hfree
    refine ⟨m', insert c live \ {c₀}, hfree, ⟨hlive', h.file, .inr ⟨c, hstay, rfl, hroom⟩,
      hgrown.symm, fun i hi => ?_⟩, ?_, fun x hx => ?_⟩
    · rw [hgrown] at hi
      have hin : c.ptr + BitVec.ofNat 64 i ∈ keptBytes r.bytes (insert c live \ {c₀}) :=
        .inr ⟨c, hstay, Chunk.mem_bytes hlive₂ hc (by omega)⟩
      change m' (c.ptr + BitVec.ofNat 64 i) = f.entry i
      rw [hframe hin]
      by_cases hcopied : i < n.size.toNat
      · have hbody : n.data + BitVec.ofNat 64 i ∈ r.allocator.kept live := by
          rw [← hptr]
          exact .inr ⟨c₀, hc₀, Chunk.mem_bytes h.heap hc₀ (by omega)⟩
        rw [copy_of_lt m₂ _ _ hcopied (by omega), hold hbody]
        exact h.bytes i (by rwa [← h.size])
      · rw [copy_of_not_lt m₂ _ _ hcopied (by omega), hzero i hi]
        exact (f.entry_eq_zero i (by rw [← h.size]; omega)).symm
    · exact othersOf_subset hlive₂ hnew hothers
    · have hlater : x ∈ r.allocator.kept (insert c live \ {c₀}) := Allocator.kept_mono hothers hx
      have hkeptLive : x ∈ r.allocator.kept live := Allocator.kept_mono Set.sdiff_subset hx
      have hout : x ∉ c.bytes := fun hxc => Set.disjoint_left.mp hdisjoint hxc hkeptLive
      rw [hframe hlater, hcopy hout, hold hkeptLive]

/-- A write that succeeds leaves the file with the bytes of the buffer at its offset. -/
structure WriteSucceeds (r : HeapRegion) (m : Memory) (live : Set Chunk) (n : RamfsNode)
    (f : SparseArray Byte) (buffer size offset : Word) (result : WriteResult) : Prop where
  status : result.status = some 0
  written : result.written = some size
  stores : ∃ live', result.node.Stores r result.memory live'
    (f.write offset.toNat (bytesFrom m buffer size.toNat))
  kept : Set.EqOn result.memory m (r.allocator.kept (othersOf live n.data))

theorem bytesFrom_congr {m' : Memory} {a : Word} {len : ℕ} {S : Set Word}
    (hsub : reach a len ⊆ S) (heq : Set.EqOn m' m S) (hlen : len < 2 ^ 64) :
    bytesFrom m' a len = bytesFrom m a len := by
  refine List.map_congr_left fun i hi => heq (hsub ?_)
  have hi := List.mem_range.mp hi
  change (a + BitVec.ofNat 64 i - a).toNat < len
  rwa [add_sub_toNat a (by omega)]

/-- `ramfs_write` succeeds, or leaves everything as it is. -/
theorem RamfsNode.Stores.write_cases (h : n.Stores r m live f)
    (hfit : offset.toNat + size.toNat < 2 ^ 63)
    (hapart : Apart r live n.data buffer size.toNat) :
    WriteSucceeds r m live n f buffer size offset (ramfsWrite r.head m n buffer size offset) ∨
      ((ramfsWrite r.head m n buffer size offset).status = some (-1) ∧
        (ramfsWrite r.head m n buffer size offset).node = n ∧
        (ramfsWrite r.head m n buffer size offset).memory = m) := by
  have hsum : (offset + size).toNat = offset.toNat + size.toNat := toNat_add_of_lt (by omega)
  rw [ramfsWrite]
  by_cases hbuffer : buffer = 0
  · rw [if_pos (.inl hbuffer)]
    exact .inr ⟨rfl, rfl, rfl⟩
  rw [if_neg (not_or.mpr ⟨hbuffer, not_not.mpr h.file⟩)]
  by_cases hgrows : n.size < offset + size
  · rw [if_pos hgrows]
    have hlt : n.size.toNat < (offset + size).toNat := BitVec.lt_def.mp hgrows
    obtain ⟨result, hrun, hgranted⟩ := HeapRegion.malloc?_granted h.heap (n := offset + size)
      (by omega)
    rw [hrun]
    rcases hgranted with rfl | ⟨c, m₁, rfl, hroom, hnew, hlive, hkept⟩
    · exact .inr ⟨rfl, rfl, rfl⟩
    · left
      have hne : c.ptr ≠ 0 := r.allocator.ptr_ne_zero hlive (Set.mem_insert c live)
      obtain ⟨m', live', hmoved, hto⟩ := h.moves hlt hroom hnew hlive hkept
      obtain ⟨length, touched, hgrow⟩ :=
        @ramfsGrow_eq _ _ buffer _ _ _ _ _ hmoved (dataLength m n.data)
      dsimp only
      rw [if_neg hne, hgrow]
      obtain ⟨hstores, hsame⟩ := hto.stores.store buffer hsum.ge
      rw [SparseArray.write_grow f (by rw [length_bytesFrom, hsum]),
        bytesFrom_congr hapart hto.kept size.isLt] at hstores
      refine ⟨rfl, rfl, ⟨live', hstores⟩, fun x hx => ?_⟩
      exact (hsame (Allocator.kept_mono hto.others hx)).trans (hto.kept hx)
  · rw [if_neg hgrows]
    have hle : offset.toNat + size.toNat ≤ n.size.toNat := by
      rw [← hsum]
      exact BitVec.le_def.mp (BitVec.not_lt.mp hgrows)
    obtain ⟨hstores, hsame⟩ := h.store buffer hle
    exact .inl ⟨rfl, rfl, ⟨live, hstores⟩, hsame⟩

/-- The file stays in a heap that keeps its array. -/
theorem RamfsNode.Stores.frame {m' : Memory} {live' : Set Chunk} (h : n.Stores r m live f)
    (hlive : r.Live m' live')
    (hkept : ∀ c ∈ live, c.ptr = n.data → c ∈ live' ∧ Set.EqOn m' m c.bytes) :
    n.Stores r m' live' f := by
  refine ⟨hlive, h.file, ?_, h.size, fun i hi => ?_⟩
  · refine h.array.imp_right ?_
    rintro ⟨c, hc, hptr, hroom⟩
    exact ⟨c, (hkept c hc hptr).1, hptr, hroom⟩
  · rw [← h.bytes i hi]
    rcases h.array with ⟨-, hzero⟩ | ⟨c, hc, hptr, hroom⟩
    · rw [← h.size, hzero] at hi
      exact absurd hi (Nat.not_lt_zero i)
    · rw [← h.size] at hi
      apply (hkept c hc hptr).2
      rw [← hptr]
      exact Chunk.mem_bytes h.heap hc (by omega)

/-- Stores to the bytes of others. -/
theorem RamfsNode.Stores.of_others {m' : Memory} (h : n.Stores r m live f)
    (heq : Set.EqOn m' m (r.allocator.kept (othersOf live n.data))ᶜ) : n.Stores r m' live f := by
  refine h.frame ?_ fun c hc hptr => ⟨hc, fun x hx => heq fun hkept => ?_⟩
  · exact @Allocator.Live.of_eqOn_compl r.allocator _ _ _ _ h.heap
      (Allocator.kept_mono Set.sdiff_subset) heq
  · have hdisjoint : Disjoint c.bytes (r.allocator.kept (othersOf live n.data)) :=
      @Allocator.bytes_disjoint_kept_diff r.allocator _ _ _ _ h.heap hc hptr
    exact Set.disjoint_left.mp hdisjoint hx hkept

/-- A read stores the bytes of the file in the buffer, and nothing else. -/
structure ReadExact (r : HeapRegion) (m : Memory) (live : Set Chunk) (n : RamfsNode)
    (f : SparseArray Byte) (buffer size offset : Word) (result : ReadResult) : Prop where
  status : result.status = 0
  bytesRead : result.bytesRead.map BitVec.toNat = some (f.read offset.toNat size.toNat).length
  bytes : bytesFrom result.memory buffer (f.read offset.toNat size.toNat).length =
    f.read offset.toNat size.toNat
  others : Set.EqOn result.memory m (reach buffer (f.read offset.toNat size.toNat).length)ᶜ
  stores : n.Stores r result.memory live f

theorem RamfsNode.Stores.read (h : n.Stores r m live f)
    (hfit : offset.toNat + size.toNat < 2 ^ 63) (hbuffer : buffer ≠ 0)
    (hapart : Apart r live n.data buffer size.toNat) :
    ReadExact r m live n f buffer size offset (ramfsRead m n buffer size offset) := by
  have hzero : n.dataAt = none → n.size = 0 := by
    intro hnone
    rw [RamfsNode.dataAt] at hnone
    split_ifs at hnone with hnull
    rcases h.array with ⟨-, hzero⟩ | ⟨c, hc, hptr, -⟩
    · exact hzero
    · exact absurd (hptr.trans hnull) (r.allocator.ptr_ne_zero h.heap hc)
  have hdata : n.dataAt.getD 0 = n.data := by
    rw [RamfsNode.dataAt]
    split_ifs with hnull
    · exact hnull.symm
    · rfl
  have hcount : transferSize n.size size offset = (f.read offset.toNat size.toNat).length := by
    rw [transferSize, SparseArray.length_read, h.size]
    split_ifs <;> omega
  have hexact := (readFile_exactly_iff m size offset hbuffer hzero).mpr fun _ => by omega
  rw [ramfsRead, h.file]
  obtain ⟨hstatus, hread, hmemory, -⟩ := hexact
  rw [hdata, hcount] at hmemory
  rw [hcount] at hread
  have hlen := f.length_read (o := offset.toNat) (n := size.toNat)
  have hlt : (f.read offset.toNat size.toNat).length < 2 ^ 64 := by omega
  have heq : Set.EqOn (readFile m .file n.dataAt n.size buffer size offset).memory m
      (reach buffer (f.read offset.toNat size.toNat).length)ᶜ := by
    intro x hx
    rw [hmemory]
    exact if_neg hx
  refine ⟨hstatus, hread, ?_, heq, h.of_others fun x hx => heq fun hin => hx (hapart ?_)⟩
  · rw [hmemory]
    apply List.ext_getElem
    · rw [length_bytesFrom]
    · intro i hi hi'
      have hget := f.getD_read (i := i) (hlen ▸ hi')
      have hfile : offset.toNat + i < f.size := by omega
      have hsum : (offset + BitVec.ofNat 64 i).toNat = offset.toNat + i := by
        have hi64 : (BitVec.ofNat 64 i).toNat = i := by
          rw [BitVec.toNat_ofNat, Nat.mod_eq_of_lt (by omega)]
        rw [toNat_add_of_lt (by omega), hi64]
      have haddr : offset + BitVec.ofNat 64 i = BitVec.ofNat 64 (offset.toNat + i) := by
        rw [← hsum, BitVec.ofNat_toNat, BitVec.setWidth_eq]
      rw [← List.getElem_eq_getD (h := hi') 0] at hget
      rw [hget, ← h.bytes _ hfile, ← haddr, ← BitVec.add_assoc]
      refine (List.getElem_eq_getD (h := hi) 0).trans ?_
      rw [getD_bytesFrom hi']
      exact copy_of_lt m _ _ hi' (by omega)
  · change (x - buffer).toNat < size.toNat
    have hin : (x - buffer).toNat < (f.read offset.toNat size.toNat).length := hin
    omega

/-! ### Histories -/

/-- The memory, the node, and the bytes that the file should have. -/
structure FileState where
  mem : Memory
  node : RamfsNode
  content : SparseArray Byte

/-- The node has these bytes. -/
def FileState.Good (r : HeapRegion) (s : FileState) : Prop :=
  ∃ live, s.node.Stores r s.mem live s.content

/-- The buffer lies outside the heap, or in chunks of others. -/
def FileState.BufferApart (r : HeapRegion) (s : FileState) (buffer size : Word) : Prop :=
  ∀ live, r.Live s.mem live → Apart r live s.node.data buffer size.toNat

/-- What the rest of the kernel does while the file has its array at `data`: it allocates,
it frees what is not the array, and it stores to its own bytes. -/
inductive OtherStep (r : HeapRegion) (data : Word) (m : Memory) : Memory → Prop
  | malloc {size ptr : Word} {m' : Memory} (fits : size.toNat + 8 ≤ 2 ^ 64)
      (call : malloc? r.head m size = some (ptr, m')) : OtherStep r data m m'
  | pageAlloc {pages ptr : Word} {m' : Memory} (fits : 4096 * pages.toNat + 8192 ≤ 2 ^ 64)
      (call : pageAlloc? r.head m pages = some (ptr, m')) : OtherStep r data m m'
  | free {ptr : Word} {m' : Memory}
      (other : ∀ live, r.Live m live → ∃ c ∈ othersOf live data, c.ptr = ptr)
      (call : free? r.head m ptr = some m') : OtherStep r data m m'
  | store {m' : Memory}
      (own : ∀ live, r.Live m live → Set.EqOn m' m (r.allocator.kept (othersOf live data))ᶜ) :
      OtherStep r data m m'

/-- The file after a call of `ramfs_write`. -/
def FileState.write (r : HeapRegion) (s : FileState) (buffer size offset : Word) : FileState :=
  let result := ramfsWrite r.head s.mem s.node buffer size offset
  { mem := result.memory
    node := result.node
    content :=
      if result.status = some 0 then
        s.content.write offset.toNat (bytesFrom s.mem buffer size.toNat)
      else s.content }

/-- The file after a call of `ramfs_read`. -/
def FileState.read (s : FileState) (buffer size offset : Word) : FileState :=
  { s with mem := (ramfsRead s.mem s.node buffer size offset).memory }

/-- A step of a history. -/
inductive FileStep (r : HeapRegion) (s : FileState) : FileState → Prop
  | write {buffer size offset : Word} (fits : offset.toNat + size.toNat < 2 ^ 63)
      (apart : s.BufferApart r buffer size) : FileStep r s (s.write r buffer size offset)
  | read {buffer size offset : Word} (fits : offset.toNat + size.toNat < 2 ^ 63)
      (apart : s.BufferApart r buffer size) : FileStep r s (s.read buffer size offset)
  | other {m' : Memory} (step : OtherStep r s.node.data s.mem m') :
      FileStep r s { s with mem := m' }

/-- The rest of the kernel leaves the file as it is. -/
theorem RamfsNode.Stores.other {m' : Memory} (h : n.Stores r m live f)
    (hstep : OtherStep r n.data m m') : ∃ live', n.Stores r m' live' f := by
  have hgranted : ∀ {k ptr}, Granted r.bytes r.Live live k m (ptr, m') →
      ∃ live', n.Stores r m' live' f := by
    rintro k ptr (heq | ⟨c, m'', heq, -, -, hlive, hkept⟩)
    · cases heq
      exact ⟨live, h⟩
    · cases heq
      refine ⟨insert c live, h.frame hlive fun d hd _ => ⟨Set.mem_insert_of_mem c hd, ?_⟩⟩
      exact hkept.mono (@Allocator.bytes_subset_kept r.allocator _ _ hd)
  cases hstep with
  | malloc fits call =>
      obtain ⟨result, hrun, hgranted'⟩ := HeapRegion.malloc?_granted h.heap fits
      rw [call] at hrun
      cases hrun
      exact hgranted hgranted'
  | pageAlloc fits call =>
      obtain ⟨result, hrun, -, hgranted'⟩ := HeapRegion.pageAlloc?_granted h.heap fits
      rw [call] at hrun
      cases hrun
      exact hgranted hgranted'
  | free other call =>
      obtain ⟨c, hc, rfl⟩ := other live h.heap
      obtain ⟨m'', hrun, hlive, hframe⟩ := HeapRegion.free?_live h.heap hc.1
      rw [call] at hrun
      cases hrun
      refine ⟨live \ {c}, h.frame hlive fun d hd hptr => ?_⟩
      have hstay : d ∈ live \ {c} := by
        refine ⟨hd, ?_⟩
        rintro rfl
        exact hc.2 hptr
      exact ⟨hstay, hframe.mono (@Allocator.bytes_subset_kept r.allocator _ _ hstay)⟩
  | store own => exact ⟨live, h.of_others (own live h.heap)⟩

variable {s s' : FileState}

/-- A step keeps the file and its bytes together. -/
theorem FileStep.good (hstep : FileStep r s s') (h : s.Good r) : s'.Good r := by
  obtain ⟨live, hstores⟩ := h
  cases hstep with
  | write fits apart =>
      rcases hstores.write_cases fits (apart live hstores.heap) with hok | ⟨hstatus, hnode, hmem⟩
      · obtain ⟨live', hafter⟩ := hok.stores
        rw [FileState.Good, FileState.write]
        dsimp only
        rw [if_pos hok.status]
        exact ⟨live', hafter⟩
      · rw [FileState.Good, FileState.write]
        dsimp only
        rw [hnode, hmem, hstatus, if_neg (by decide)]
        exact ⟨live, hstores⟩
  | @read buffer size offset fits apart =>
      by_cases hbuffer : buffer = 0
      · have hsame : (ramfsRead s.mem s.node buffer size offset).memory = s.mem := by
          rw [ramfsRead, readFile.eq_def, if_pos (.inl hbuffer)]
        rw [FileState.Good, FileState.read, hsame]
        exact ⟨live, hstores⟩
      · exact ⟨live, (hstores.read fits hbuffer (apart live hstores.heap)).stores⟩
  | other step => exact hstores.other step

/-- What a write does to a file with these bytes. -/
def WriteRefines (r : HeapRegion) (s : FileState) (buffer size offset : Word) : Prop :=
  let result := ramfsWrite r.head s.mem s.node buffer size offset
  (result.status = some 0 ∧ result.written = some size ∧
    FileState.Good r ⟨result.memory, result.node,
      s.content.write offset.toNat (bytesFrom s.mem buffer size.toNat)⟩) ∨
  (result.status = some (-1) ∧ FileState.Good r ⟨result.memory, result.node, s.content⟩)

/-- What a read of such a file does. -/
def ReadRefines (s : FileState) (buffer size offset : Word) : Prop :=
  let result := ramfsRead s.mem s.node buffer size offset
  let bytes := s.content.read offset.toNat size.toNat
  result.status = 0 ∧ result.bytesRead.map BitVec.toNat = some bytes.length ∧
    bytesFrom result.memory buffer bytes.length = bytes ∧
    Set.EqOn result.memory s.mem (reach buffer bytes.length)ᶜ

/-- After every history of a new file, with any heap, a file is the sparse array of what was
written to it: a write that succeeds changes the array as it should, any other leaves it,
and a read returns the entries of the array. -/
theorem ramfs_sparse {m₀ : Memory} {live₀ : Set Chunk} (hheap : r.Live m₀ live₀)
    (hrun : Relation.ReflTransGen (FileStep r) ⟨m₀, ⟨.file, 0, 0⟩, .empty⟩ s) :
    s.Good r ∧ ∀ buffer size offset : Word, offset.toNat + size.toNat < 2 ^ 63 →
      s.BufferApart r buffer size →
        WriteRefines r s buffer size offset ∧ (buffer ≠ 0 → ReadRefines s buffer size offset) := by
  have hgood : s.Good r := by
    induction hrun with
    | refl => exact ⟨live₀, hheap, rfl, .inl ⟨rfl, rfl⟩, rfl, fun i hi => absurd hi (Nat.not_lt_zero i)⟩
    | tail _ hstep ih => exact hstep.good ih
  refine ⟨hgood, fun buffer size offset hfit hapart => ⟨?_, fun hbuffer => ?_⟩⟩
  · obtain ⟨live, hstores⟩ := hgood
    rcases hstores.write_cases hfit (hapart live hstores.heap) with hok | ⟨hstatus, hnode, hmem⟩
    · exact .inl ⟨hok.status, hok.written, hok.stores⟩
    · refine .inr ⟨hstatus, live, ?_⟩
      rw [hnode, hmem]
      exact hstores
  · obtain ⟨live, hstores⟩ := hgood
    obtain ⟨hstatus, hread, hbytes, hothers, -⟩ :=
      hstores.read hfit hbuffer (hapart live hstores.heap)
    exact ⟨hstatus, hread, hbytes, hothers⟩

/-- A new file, with the text `hi` at 0x1000. -/
def newFile : FileState :=
  ⟨initHead (fun x => if x = 0x1000 then 0x68 else if x = 0x1001 then 0x69 else 0)
    sampleRegion.head sampleRegion.size, ⟨.file, 0, 0⟩, .empty⟩

/-- The file after the text has been written at 0 and at 8. -/
def twiceWritten : FileState :=
  (newFile.write sampleRegion 0x1000 2 0).write sampleRegion 0x1000 2 8

/-- A read returns both texts and the hole between them. -/
theorem ramfs_sparse_sample :
    twiceWritten.content.read 0 10 = [0x68, 0x69, 0, 0, 0, 0, 0, 0, 0x68, 0x69] ∧
      ReadRefines twiceWritten 0x2000 10 0 := by
  have hlow (s : FileState) {buffer size : Word} (h : buffer.toNat + size.toNat < 2 ^ 63) :
      s.BufferApart sampleRegion buffer size := by
    intro live _ x hx
    refine Or.inl fun hheap : x ∈ sampleRegion.bytes => ?_
    have hfirst : 0xffff800000100000 ≤ x.toNat := hheap.1
    have hreach : (x - buffer).toNat < size.toNat := hx
    rw [BitVec.toNat_sub] at hreach
    omega
  have hfirst := @FileStep.write sampleRegion newFile 0x1000 2 0 (by decide) (hlow _ (by decide))
  have hsecond := @FileStep.write sampleRegion (newFile.write sampleRegion 0x1000 2 0) 0x1000 2 8
    (by decide) (hlow _ (by decide))
  have hrun := (Relation.ReflTransGen.single hfirst).tail hsecond
  exact ⟨by decide +kernel, (ramfs_sparse (HeapRegion.live_initHead sampleRegion _) hrun).2 0x2000
    10 0 (by decide) (hlow _ (by decide)) |>.2 (by decide)⟩

end Utopia
