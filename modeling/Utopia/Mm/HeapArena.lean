/-
The kernel heap as an allocator: the block list in memory decides which chunks
are live.
-/
import Utopia.Lib.Allocator
import Utopia.Mm.HeapRun

namespace Utopia

def Block.chunk (b : Block) : Chunk := ⟨b.payload, b.size.toNat⟩

namespace HeapRegion

variable {r : HeapRegion} {m m' : Memory} {bs : List Block}

/-- The blocks in use, as chunks. -/
def chunks (bs : List Block) : Set Chunk := { c | ∃ b ∈ allocated bs, b.chunk = c }

def bytes (r : HeapRegion) : Set Word := between r.head.toNat r.stop

/-- The chunks `live` are the blocks in use of the heap in `m`. -/
def Live (r : HeapRegion) (m : Memory) (live : Set Chunk) : Prop :=
  ∃ bs, r.Blocks m bs ∧ chunks bs = live

theorem Blocks.body_subset (h : r.Blocks m bs) {b : Block} (hb : b ∈ bs) :
    b.body ⊆ r.bytes := by
  intro x hx
  rw [h.mem_body hb] at hx
  have hbounds := Chain.bounds h hb
  rw [bytes, mem_between]
  omega

/-- Headers lie in the arena and outside every chunk. -/
theorem Blocks.header_not_kept (h : r.Blocks m bs) {b : Block} (hb : b ∈ bs) {x : Word}
    (hx : x ∈ span b.addr 24) : x ∉ keptBytes r.bytes (chunks bs) := by
  rintro (hout | ⟨-, ⟨c, hc, rfl⟩, hxc⟩)
  · have hbounds := Chain.bounds h hb
    rw [mem_span] at hx
    simp only [Block.stop] at hbounds
    exact hout ⟨by omega, by omega⟩
  · exact Set.disjoint_left.mp (h.body_disjoint_header (mem_allocated.mp hc).1 hb) hxc hx

/-- Free blocks lie outside every chunk. -/
theorem Blocks.free_not_kept (h : r.Blocks m bs) {b : Block} (hb : b ∈ bs)
    (hfree : b.free = true) {x : Word} (hx : x ∈ between b.addr.toNat b.stop) :
    x ∉ keptBytes r.bytes (chunks bs) := by
  by_cases hheader : x ∈ span b.addr 24
  · exact h.header_not_kept hb hheader
  · have hbody : x ∈ b.body := by
      rw [h.mem_body hb]
      rw [mem_between] at hx
      rw [mem_span] at hheader
      omega
    rintro (hout | ⟨-, ⟨c, hc, rfl⟩, hxc⟩)
    · exact hout (h.body_subset hb hbody)
    · obtain ⟨hcmem, hcused⟩ := mem_allocated.mp hc
      have hne : c ≠ b := by
        rintro rfl
        simp [hfree] at hcused
      exact Set.disjoint_left.mp (h.body_disjoint hcmem hb hne) hxc hbody

theorem Live.congr {live : Set Chunk} (h : r.Live m live)
    (heq : Set.EqOn m' m (keptBytes r.bytes live)ᶜ) : r.Live m' live := by
  obtain ⟨bs, hblocks, rfl⟩ := h
  have hhigh := r.high
  refine ⟨bs, Chain.congr_headers hblocks (by omega) ?_, rfl⟩
  intro b hb x hx
  exact (heq (hblocks.header_not_kept hb hx)).symm

theorem Live.bytes_fit {live : Set Chunk} {c : Chunk} (h : r.Live m live) (hc : c ∈ live) :
    c.ptr.toNat + c.size ≤ 2 ^ 64 := by
  obtain ⟨bs, hblocks, rfl⟩ := h
  obtain ⟨b, hb, rfl⟩ := hc
  have hmem := (mem_allocated.mp hb).1
  have hpayload := hblocks.payload_toNat hmem
  have hstop := (Chain.bounds hblocks hmem).2
  have hhigh := r.high
  simp only [Block.stop] at hstop
  simp only [Block.chunk]
  omega

/-- A carve grants a new chunk. -/
theorem granted_of_carve {k : Carve} {n : Nat} {ptr : Word}
    (hk : k.Holds r m n ptr m') :
    Granted r.bytes r.Live (chunks k.before) n m (ptr, m') := by
  have hperm := hk.allocated_perm
  have htarget : k.target ∈ k.after := by simp [Carve.after]
  have hsource : k.source ∈ k.before := by simp [Carve.before]
  have hnodup : (allocated k.after).Nodup :=
    (List.Nodup.of_map _ (Chain.nodup hk.after)).filter _
  refine Or.inr ⟨k.target.chunk, m', ?_, hk.room, ?_, ⟨k.after, hk.after, ?_⟩, ?_⟩
  · rw [← hk.payload]
    rfl
  · rintro ⟨b, hb, hchunk⟩
    have hafter : b ∈ allocated k.after :=
      hperm.mem_iff.mpr (List.mem_cons_of_mem _ hb)
    obtain rfl := hk.after.payload_injOn (mem_allocated.mp hafter).1 htarget
      (congrArg Chunk.ptr hchunk)
    exact (List.nodup_cons.mp (hperm.nodup_iff.mp hnodup)).1 hb
  · ext c
    simp only [chunks, Set.mem_ofPred_eq, Set.mem_insert_iff, hperm.mem_iff,
      List.mem_cons, or_and_right, exists_or, exists_eq_left, eq_comm]
  · apply hk.frame.mono
    intro x hx hxs
    exact hk.before.free_not_kept hsource hk.sourceFree hxs hx

theorem malloc?_granted {live : Set Chunk} (h : r.Live m live) {n : Word}
    (hn : n.toNat + 8 ≤ 2 ^ 64) :
    ∃ result, malloc? r.head m n = some result ∧
      Granted r.bytes r.Live live n.toNat m result := by
  obtain ⟨bs, hblocks, rfl⟩ := h
  rcases malloc?_spec hblocks n with hnull | ⟨ptr, m', k, hrun, rfl, hk⟩
  · exact ⟨_, hnull, Or.inl rfl⟩
  · have hround := toNat_roundUp8_of_lt hn
    exact ⟨_, hrun, granted_of_carve { hk with room := hround.trans hk.room }⟩

theorem pageAlloc?_granted {live : Set Chunk} (h : r.Live m live) {pages : Word}
    (hpages : 4096 * pages.toNat + 8192 ≤ 2 ^ 64) :
    ∃ result, pageAlloc? r.head m pages = some result ∧
      result.1.toNat % 4096 = 0 ∧
      Granted r.bytes r.Live live (4096 * pages.toNat) m result := by
  obtain ⟨bs, hblocks, rfl⟩ := h
  rcases pageAlloc?_spec hblocks _ hpages with hnull | ⟨ptr, m', k, hrun, halign, rfl, hk⟩
  · exact ⟨_, hnull, rfl, Or.inl rfl⟩
  · exact ⟨_, hrun, halign, granted_of_carve hk⟩

theorem free?_live {live : Set Chunk} (h : r.Live m live) {c : Chunk} (hc : c ∈ live) :
    ∃ m', free? r.head m c.ptr = some m' ∧ r.Live m' (live \ {c}) ∧
      Set.EqOn m' m (keptBytes r.bytes (live \ {c})) := by
  obtain ⟨bs, hblocks, rfl⟩ := h
  obtain ⟨b, hb, rfl⟩ := hc
  obtain ⟨hmem, hused⟩ := mem_allocated.mp hb
  obtain ⟨pre, post, rfl⟩ := List.append_of_mem hmem
  obtain ⟨m', hrun, hblocks', hframe⟩ := free?_spec hblocks
  refine ⟨m', hrun, ⟨_, hblocks', ?_⟩, ?_⟩
  · have hrest : ∀ d, d ∈ allocated pre ∨ d ∈ allocated post → d.chunk ≠ b.chunk := by
      intro d hd hchunk
      have hdmem : d ∈ allocated (pre ++ b :: post) := by
        rcases hd with hd | hd <;> simp [allocated, List.mem_filter.mp hd]
      obtain rfl := hblocks.payload_injOn (mem_allocated.mp hdmem).1 hmem
        (congrArg Chunk.ptr hchunk)
      have hnodup := List.Nodup.of_map _ (Chain.nodup hblocks)
      rw [List.nodup_middle, List.nodup_cons] at hnodup
      apply hnodup.1
      rcases hd with hd | hd
      · exact List.mem_append_left _ (mem_allocated.mp hd).1
      · exact List.mem_append_right _ (mem_allocated.mp hd).1
    have hafter : allocated (mergeFree (pre ++ { b with free := true } :: post)) =
        allocated pre ++ allocated post := by
      rw [allocated_mergeFree]
      simp [allocated]
    have hbefore : allocated (pre ++ b :: post) =
        allocated pre ++ b :: allocated post := by
      simp [allocated, hused]
    ext c
    simp only [chunks, hafter, hbefore, Set.mem_ofPred_eq, Set.mem_sdiff,
      Set.mem_singleton_iff, List.mem_append, List.mem_cons]
    constructor
    · rintro ⟨d, hd, rfl⟩
      exact ⟨⟨d, hd.imp_right Or.inr, rfl⟩, hrest d hd⟩
    · rintro ⟨⟨d, hd, rfl⟩, hne⟩
      rcases hd with hd | rfl | hd
      · exact ⟨d, Or.inl hd, rfl⟩
      · exact absurd rfl hne
      · exact ⟨d, Or.inr hd, rfl⟩
  · apply hframe.mono
    rintro x hx ⟨d, hd, -, hxd⟩
    have hheader : ∃ e ∈ pre ++ b :: post, e.addr = d.addr := by
      rcases List.mem_append.mp hd with hd | hd
      · exact ⟨d, by simp [hd], rfl⟩
      · rcases List.mem_cons.mp hd with rfl | hd
        · exact ⟨b, by simp, rfl⟩
        · exact ⟨d, by simp [hd], rfl⟩
    obtain ⟨e, he, heq⟩ := hheader
    rw [← heq] at hxd
    apply hblocks.header_not_kept he hxd
    rcases hx with hout | ⟨c, hc, hxc⟩
    · exact Or.inl hout
    · exact Or.inr ⟨c, hc.1, hxc⟩

/-- The kernel heap on the region `r`; a walk that did not end would leave the
memory as it was. -/
def allocator (r : HeapRegion) : Allocator where
  malloc m n := (malloc? r.head m n).getD (0, m)
  pageAlloc m pages := (pageAlloc? r.head m pages).getD (0, m)
  free m ptr := (free? r.head m ptr).getD m
  arena := r.bytes
  Live := r.Live
  ptr_ne_zero := by
    rintro m - - ⟨bs, hblocks, rfl⟩ ⟨b, hb, rfl⟩
    exact hblocks.payload_ne_zero (mem_allocated.mp hb).1
  bytes_subset := by
    rintro m - - ⟨bs, hblocks, rfl⟩ ⟨b, hb, rfl⟩
    exact hblocks.body_subset (mem_allocated.mp hb).1
  bytes_fit := Live.bytes_fit
  ptr_injOn := by
    rintro m - - - ⟨bs, hblocks, rfl⟩ ⟨b, hb, rfl⟩ ⟨d, hd, rfl⟩ heq
    rw [hblocks.payload_injOn (mem_allocated.mp hb).1 (mem_allocated.mp hd).1 heq]
  bytes_disjoint := by
    rintro m - - - ⟨bs, hblocks, rfl⟩ ⟨b, hb, rfl⟩ ⟨d, hd, rfl⟩ hne
    apply hblocks.body_disjoint (mem_allocated.mp hb).1 (mem_allocated.mp hd).1
    rintro rfl
    exact hne rfl
  live_congr := Live.congr
  malloc_spec := by
    intro m live n h hn
    obtain ⟨result, hrun, hgranted⟩ := malloc?_granted h hn
    simpa only [hrun, Option.getD_some] using hgranted
  pageAlloc_spec := by
    intro m live pages h hpages
    obtain ⟨result, hrun, halign, hgranted⟩ := pageAlloc?_granted h hpages
    simpa only [hrun, Option.getD_some] using ⟨halign, hgranted⟩
  pageAlloc_null := by
    rintro m - pages ⟨bs, hblocks, rfl⟩ hnull
    obtain ⟨result, hrun, hsame⟩ := pageAlloc?_null hblocks pages
    rw [hrun, Option.getD_some] at hnull ⊢
    exact hsame hnull
  free_zero m := by simp [free?]
  free_spec := by
    intro m live c h hc
    obtain ⟨m', hrun, hlive, hframe⟩ := free?_live h hc
    simpa only [hrun, Option.getD_some] using ⟨hlive, hframe⟩

theorem live_initHead (r : HeapRegion) (m : Memory) :
    r.allocator.Live (initHead m r.head r.size) ∅ := by
  refine ⟨_, (initHead_tiled r m).blocks, ?_⟩
  simp [chunks, allocated]

end HeapRegion

end Utopia
