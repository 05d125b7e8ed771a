/-
Runs of the heap from boot: the blocks tile the region in every reachable
state, and the live pointers are exactly the blocks in use.
-/
import Utopia.Mm.HeapOps
import Mathlib.Data.List.Nodup
import Mathlib.Data.List.Perm.Basic

namespace Utopia

inductive HeapCall where
  | malloc (size : Word)
  | calloc (num size : Word)
  | pageAlloc (pages : Word)
  | free (ptr : Word)
deriving DecidableEq, Repr

/-- The memory, and the pointers handed out and not freed since. -/
structure HeapState where
  mem : Memory
  live : List Word

def HeapState.handOut (s : HeapState) : Word × Memory → HeapState
  | (ptr, m) => ⟨m, if ptr = 0 then s.live else ptr :: s.live⟩

/-- One call under the heap lock; `none` when its list walk does not end. -/
def HeapState.call (head : Word) (s : HeapState) : HeapCall → Option HeapState
  | .malloc size => (malloc? head s.mem size).map s.handOut
  | .calloc num size => (calloc? head s.mem num size).map s.handOut
  | .pageAlloc pages => (pageAlloc? head s.mem pages).map s.handOut
  | .free ptr => (free? head s.mem ptr).map fun m => ⟨m, s.live.erase ptr⟩

/-- What the callers promise: sizes that do not wrap, and only null or live
pointers freed. -/
def HeapState.Allows (s : HeapState) : HeapCall → Prop
  | .malloc _ => True
  | .calloc num size => num.toNat * size.toNat < 2 ^ 63
  | .pageAlloc pages => 4096 * pages.toNat < 2 ^ 63
  | .free ptr => ptr = 0 ∨ ptr ∈ s.live

/-- The states reachable from boot.  Between the calls, the owner of a live
pointer may write to the bytes behind it. -/
inductive HeapReachable (r : HeapRegion) : HeapState → Prop
  | init (m : Memory) : HeapReachable r ⟨initHead m r.head r.size, []⟩
  | call {s s' : HeapState} {c : HeapCall} (hs : HeapReachable r s)
      (hallows : s.Allows c) (hcall : s.call r.head c = some s') :
      HeapReachable r s'
  | store {s : HeapState} {ptr x : Word} (hs : HeapReachable r s)
      (hptr : ptr ∈ s.live)
      (hx : x ∈ span ptr (blockSize s.mem (ptr - sizeofHeapBlock)).toNat)
      (v : Byte) : HeapReachable r ⟨s.mem.write8 x v, s.live⟩

/-- The block list `bs` describes the state: it tiles the region, and the
blocks in use are the live pointers. -/
structure HeapState.Tiled (r : HeapRegion) (s : HeapState) (bs : List Block) :
    Prop where
  blocks : r.Blocks s.mem bs
  live : ((allocated bs).map Block.payload).Perm s.live

theorem HeapRegion.Blocks.payload_ne_zero {r : HeapRegion} {m : Memory}
    {bs : List Block} (h : r.Blocks m bs) {b : Block} (hb : b ∈ bs) :
    b.payload ≠ 0 := by
  intro hzero
  have hnat := h.payload_toNat hb
  rw [hzero] at hnat
  simp at hnat

theorem HeapRegion.Blocks.payload_injOn {r : HeapRegion} {m : Memory}
    {bs : List Block} (h : r.Blocks m bs) {b c : Block} (hb : b ∈ bs)
    (hc : c ∈ bs) (heq : b.payload = c.payload) : b = c := by
  have hbnat := h.payload_toNat hb
  have hcnat := h.payload_toNat hc
  rw [heq] at hbnat
  rcases Chain.apart h hb hc with rfl | hle | hle
  · rfl
  · simp only [Block.stop] at hle
    omega
  · simp only [Block.stop] at hle
    omega

theorem HeapState.Tiled.live_nodup {r : HeapRegion} {s : HeapState}
    {bs : List Block} (h : s.Tiled r bs) : s.live.Nodup := by
  rw [← h.live.nodup_iff]
  apply List.Nodup.map_on
  · intro b hb c hc heq
    exact h.blocks.payload_injOn (mem_allocated.mp hb).1 (mem_allocated.mp hc).1 heq
  · exact (List.Nodup.of_map _ (Chain.nodup h.blocks)).filter _

theorem HeapState.Tiled.exists_of_live {r : HeapRegion} {s : HeapState}
    {bs : List Block} (h : s.Tiled r bs) {ptr : Word} (hptr : ptr ∈ s.live) :
    ∃ b ∈ allocated bs, b.payload = ptr :=
  List.mem_map.mp (h.live.mem_iff.mpr hptr)

/-- Handing out the target of a carve. -/
theorem Carve.Holds.tiled {k : Carve} {r : HeapRegion} {s : HeapState}
    {m' : Memory} {n : Nat} {ptr : Word} (h : s.Tiled r k.before)
    (hk : k.Holds r s.mem n ptr m') : (s.handOut (ptr, m')).Tiled r k.after := by
  have htarget : k.target ∈ k.after := by simp [Carve.after]
  have hne : ptr ≠ 0 := hk.payload ▸ hk.after.payload_ne_zero htarget
  refine ⟨hk.after, ?_⟩
  simp only [HeapState.handOut, if_neg hne]
  refine (hk.allocated_perm.map _).trans ?_
  rw [List.map_cons, hk.payload]
  exact h.live.cons ptr

theorem toNat_roundUp8_of_lt {n : Word} (hn : n.toNat + 8 ≤ 2 ^ 64) :
    n.toNat ≤ ((n + 7) &&& ~~~7).toNat := by
  have hsum : (n + 7).toNat = n.toNat + 7 := by bv_omega
  rw [toNat_and_not_mask (k := 3) (by decide), hsum]
  omega

/-- Clearing the payload of a fresh block is invisible to every other block. -/
theorem Carve.Holds.fill {k : Carve} {r : HeapRegion} {m m' : Memory} {n : Nat}
    {ptr : Word} (hk : k.Holds r m n ptr m') {total : Nat} (htotal : total ≤ n)
    (v : Byte) : r.Blocks (m'.fill ptr total v) k.after ∧
      ∀ b ∈ allocated k.before, Set.EqOn (m'.fill ptr total v) m' b.body := by
  have htarget : k.target ∈ k.after := by simp [Carve.after]
  have hroom := hk.room
  have hpayload := hk.payload
  have hnat := hk.after.payload_toNat htarget
  have hstop := (Chain.bounds hk.after htarget).2
  have hhigh := r.high
  have hfit : ptr.toNat + total ≤ 2 ^ 64 := by
    rw [hpayload] at hnat
    simp only [Block.stop] at hstop
    omega
  have heq : Set.EqOn (m'.fill ptr total v) m' k.target.bodyᶜ := by
    apply (Memory.fill_eqOn m' v hfit).mono
    apply Set.compl_subset_compl.mpr
    rw [Block.body, hpayload]
    exact span_subset_span le_rfl (by omega)
  refine ⟨hk.after.of_eqOn_body htarget heq, ?_⟩
  intro b hb
  have hafter : b ∈ allocated k.after :=
    hk.allocated_perm.mem_iff.mpr (List.mem_cons_of_mem _ hb)
  have hnodup : (allocated k.after).Nodup :=
    (List.Nodup.of_map _ (Chain.nodup hk.after)).filter _
  have hne : b ≠ k.target := by
    rintro rfl
    exact (List.nodup_cons.mp (hk.allocated_perm.nodup_iff.mp hnodup)).1 hb
  exact heq.mono (Set.disjoint_left.mp
    (hk.after.body_disjoint (mem_allocated.mp hafter).1 htarget hne))

/-! ### One call -/

/-- What a call on a tiled heap comes to: it returns, the heap is tiled again,
and no byte of a block in use has changed. -/
def CallKeeps (r : HeapRegion) (s : HeapState) (bs : List Block) (c : HeapCall) :
    Prop :=
  ∃ s' bs', s.call r.head c = some s' ∧ s'.Tiled r bs' ∧
    ∀ b ∈ allocated bs, Set.EqOn s'.mem s.mem b.body

theorem HeapState.Tiled.handOut_null {r : HeapRegion} {s : HeapState}
    {bs : List Block} (h : s.Tiled r bs) : (s.handOut (0, s.mem)).Tiled r bs := by
  simpa [HeapState.handOut] using h

theorem malloc_keeps {r : HeapRegion} {s : HeapState} {bs : List Block}
    (h : s.Tiled r bs) (size : Word) : CallKeeps r s bs (.malloc size) := by
  rcases malloc?_spec h.blocks size with hnull | ⟨ptr, m', k, hrun, rfl, hk⟩
  · exact ⟨_, bs, by simp [HeapState.call, hnull], h.handOut_null,
      fun b _ => Set.eqOn_refl _ _⟩
  · exact ⟨_, k.after, by simp [HeapState.call, hrun], hk.tiled h,
      fun b hb => hk.eqOn_body hb⟩

theorem pageAlloc_keeps {r : HeapRegion} {s : HeapState} {bs : List Block}
    (h : s.Tiled r bs) {pages : Word} (hpages : 4096 * pages.toNat < 2 ^ 63) :
    CallKeeps r s bs (.pageAlloc pages) := by
  rcases pageAlloc?_spec h.blocks pages (by omega) with hnull | ⟨ptr, m', k, hrun, -, rfl, hk⟩
  · exact ⟨_, bs, by simp [HeapState.call, hnull], h.handOut_null,
      fun b _ => Set.eqOn_refl _ _⟩
  · exact ⟨_, k.after, by simp [HeapState.call, hrun], hk.tiled h,
      fun b hb => hk.eqOn_body hb⟩

theorem calloc_keeps {r : HeapRegion} {s : HeapState} {bs : List Block}
    (h : s.Tiled r bs) {num size : Word}
    (hsize : num.toNat * size.toNat < 2 ^ 63) :
    CallKeeps r s bs (.calloc num size) := by
  have htotal : (num * size).toNat = num.toNat * size.toNat := by
    rw [BitVec.toNat_mul, Nat.mod_eq_of_lt (by omega)]
  rcases malloc?_spec h.blocks (num * size) with hnull | ⟨ptr, m', k, hrun, rfl, hk⟩
  · exact ⟨_, bs, by simp [HeapState.call, calloc?, hnull], h.handOut_null,
      fun b _ => Set.eqOn_refl _ _⟩
  · have hround := toNat_roundUp8_of_lt (n := num * size) (by omega)
    obtain ⟨hblocks, hfill⟩ := hk.fill hround 0
    have htiled := hk.tiled h
    have hptr : ptr ≠ 0 := by
      rw [← hk.payload]
      exact hk.after.payload_ne_zero (by simp [Carve.after])
    refine ⟨s.handOut (ptr, m'.fill ptr (num * size).toNat 0), k.after, ?_,
      ⟨hblocks, htiled.live⟩, fun b hb => (hfill b hb).trans (hk.eqOn_body hb)⟩
    simp only [HeapState.call, calloc?, hrun, Option.map_some, if_pos hptr]

theorem free_keeps {r : HeapRegion} {s : HeapState} {bs : List Block}
    (h : s.Tiled r bs) {ptr : Word} (hptr : ptr = 0 ∨ ptr ∈ s.live) :
    CallKeeps r s bs (.free ptr) := by
  rcases hptr with rfl | hlive
  · have hnot : (0 : Word) ∉ s.live := by
      intro hmem
      obtain ⟨b, hb, hzero⟩ := h.exists_of_live hmem
      exact h.blocks.payload_ne_zero (mem_allocated.mp hb).1 hzero
    refine ⟨s, bs, ?_, h, fun b _ => Set.eqOn_refl _ _⟩
    simp only [HeapState.call, free?, if_true, Option.map_some,
      List.erase_of_not_mem hnot]
  · obtain ⟨b, hb, rfl⟩ := h.exists_of_live hlive
    obtain ⟨hmem, hused⟩ := mem_allocated.mp hb
    obtain ⟨pre, post, rfl⟩ := List.append_of_mem hmem
    obtain ⟨m', hrun, hblocks, hframe⟩ := free?_spec h.blocks
    refine ⟨⟨m', s.live.erase b.payload⟩, _, by simp [HeapState.call, hrun],
      ⟨hblocks, ?_⟩, ?_⟩
    · have hbefore : (allocated (pre ++ b :: post)).map Block.payload =
          (allocated pre).map Block.payload ++
            b.payload :: (allocated post).map Block.payload := by
        simp [allocated, hused]
      have hafter : (allocated (mergeFree
          (pre ++ { b with free := true } :: post))).map Block.payload =
          (allocated pre).map Block.payload ++ (allocated post).map Block.payload := by
        rw [allocated_mergeFree]
        simp [allocated]
      have hperm := (List.perm_middle.symm.trans (hbefore ▸ h.live)).erase b.payload
      rw [hafter]
      simpa using hperm
    · intro c hc
      apply hframe.mono
      rintro x hx ⟨d, hd, -, hxd⟩
      have hheader : ∃ e ∈ pre ++ b :: post, e.addr = d.addr := by
        rcases List.mem_append.mp hd with hd | hd
        · exact ⟨d, by simp [hd], rfl⟩
        · rcases List.mem_cons.mp hd with rfl | hd
          · exact ⟨b, by simp, rfl⟩
          · exact ⟨d, by simp [hd], rfl⟩
      obtain ⟨e, he, heq⟩ := hheader
      rw [← heq] at hxd
      exact Set.disjoint_left.mp
        (h.blocks.body_disjoint_header (mem_allocated.mp hc).1 he) hx hxd

theorem call_keeps {r : HeapRegion} {s : HeapState} {bs : List Block}
    (h : s.Tiled r bs) {c : HeapCall} (hallows : s.Allows c) :
    CallKeeps r s bs c := by
  cases c with
  | malloc size => exact malloc_keeps h size
  | calloc num size => exact calloc_keeps h hallows
  | pageAlloc pages => exact pageAlloc_keeps h hallows
  | free ptr => exact free_keeps h hallows

/-! ### Runs -/

theorem initHead_tiled (r : HeapRegion) (m : Memory) :
    HeapState.Tiled r ⟨initHead m r.head r.size, []⟩
      [⟨r.head, r.size - sizeofHeapBlock, true⟩] := by
  have hhigh := r.high
  have hroom := r.room
  have hfit : r.head.toNat + 24 ≤ 2 ^ 64 := by
    simp only [HeapRegion.stop] at hhigh
    omega
  refine ⟨⟨rfl, rfl, 0, loadBlock_storeHeader hfit _ _ _, rfl, ?_⟩, by simp [allocated]⟩
  simp only [Block.stop, HeapRegion.stop, sizeofHeapBlock]
  bv_omega

/-- A write by the owner of a live pointer, inside its payload. -/
theorem HeapState.Tiled.store {r : HeapRegion} {s : HeapState} {bs : List Block}
    (h : s.Tiled r bs) {ptr x : Word} (hptr : ptr ∈ s.live)
    (hx : x ∈ span ptr (blockSize s.mem (ptr - sizeofHeapBlock)).toNat)
    (v : Byte) : HeapState.Tiled r ⟨s.mem.write8 x v, s.live⟩ bs := by
  obtain ⟨b, hb, rfl⟩ := h.exists_of_live hptr
  obtain ⟨hmem, -⟩ := mem_allocated.mp hb
  have hsize : blockSize s.mem (b.payload - sizeofHeapBlock) = b.size := by
    obtain ⟨pre, post, rfl⟩ := List.append_of_mem hmem
    obtain ⟨t, u, -, ⟨-, -, next, hload, -⟩, -⟩ := Chain.split_at h.blocks
    rw [Block.payload, BitVec.add_sub_cancel]
    exact congrArg HeapBlock.size hload
  rw [hsize] at hx
  refine ⟨h.blocks.of_eqOn_body hmem ?_, h.live⟩
  apply (Memory.write8_eqOn s.mem x v).mono
  apply Set.compl_subset_compl.mpr
  intro y hy
  have hyx : y = x := by
    rw [mem_span] at hy
    bv_omega
  rw [hyx]
  exact hx

theorem HeapReachable.tiled {r : HeapRegion} {s : HeapState}
    (h : HeapReachable r s) : ∃ bs, s.Tiled r bs := by
  induction h with
  | init m => exact ⟨_, initHead_tiled r m⟩
  | call hs hallows hcall ih =>
      obtain ⟨bs, htiled⟩ := ih
      obtain ⟨s', bs', hrun, htiled', -⟩ := call_keeps htiled hallows
      rw [hcall] at hrun
      cases hrun
      exact ⟨bs', htiled'⟩
  | store hs hptr hx v ih =>
      obtain ⟨bs, htiled⟩ := ih
      exact ⟨bs, htiled.store hptr hx v⟩

/-- Neighbours in the block list are linked and lie back to back. -/
theorem HeapRegion.Blocks.next_eq {r : HeapRegion} {m : Memory}
    {pre post : List Block} {b c : Block}
    (h : r.Blocks m (pre ++ b :: c :: post)) :
    blockNext m b.addr = b.addr + sizeofHeapBlock + b.size ∧
      c.addr = b.addr + sizeofHeapBlock + b.size := by
  obtain ⟨t, u, -, ⟨-, -, next, hload, hnext, -⟩, hc, haddr, -⟩ := Chain.split_at h
  have hb := (Chain.bounds h (b := b) (by simp)).2
  have hhigh := r.high
  have hcaddr : c.addr = b.addr + sizeofHeapBlock + b.size := by
    simp only [Block.stop] at haddr hb
    simp only [sizeofHeapBlock]
    bv_omega
  have hlink : blockNext m b.addr = next := congrArg HeapBlock.next hload
  exact ⟨by rw [hlink, hnext, hc, hcaddr], hcaddr⟩

theorem HeapRegion.Blocks.last_eq {r : HeapRegion} {m : Memory}
    {pre : List Block} {b : Block} (h : r.Blocks m (pre ++ [b])) :
    blockNext m b.addr = 0 ∧ b.stop = r.stop := by
  obtain ⟨t, mid, -, -, -, next, hload, hnext, hstop⟩ := chain_append.mp h
  have hlink : blockNext m b.addr = next := congrArg HeapBlock.next hload
  exact ⟨hlink.trans hnext, hstop⟩

/-- In every reachable state the block list from `head` tiles the region, its
blocks in use are the live pointers, and no call changes a byte behind one. -/
theorem heapReachable_tiles_region {r : HeapRegion} {s : HeapState}
    (h : HeapReachable r s) :
    ∃ bs, r.Blocks s.mem bs ∧
      (∀ pre b c post, bs = pre ++ b :: c :: post →
        blockNext s.mem b.addr = b.addr + sizeofHeapBlock + b.size ∧
          c.addr = b.addr + sizeofHeapBlock + b.size) ∧
      (∀ pre b, bs = pre ++ [b] → blockNext s.mem b.addr = 0 ∧ b.stop = r.stop) ∧
      ((allocated bs).map Block.payload).Perm s.live ∧ s.live.Nodup ∧
      (∀ b ∈ allocated bs, ∀ c ∈ bs, Disjoint b.body (span c.addr 24)) ∧
      (∀ b ∈ allocated bs, ∀ c ∈ allocated bs, b ≠ c → Disjoint b.body c.body) ∧
      ∀ c, s.Allows c → ∃ s', s.call r.head c = some s' ∧
        ∀ b ∈ allocated bs, Set.EqOn s'.mem s.mem b.body := by
  obtain ⟨bs, htiled⟩ := h.tiled
  have hblocks := htiled.blocks
  refine ⟨bs, hblocks, ?_, ?_, htiled.live, htiled.live_nodup, ?_, ?_, ?_⟩
  · rintro pre b c post rfl
    exact hblocks.next_eq
  · rintro pre b rfl
    exact hblocks.last_eq
  · intro b hb c hc
    exact hblocks.body_disjoint_header (mem_allocated.mp hb).1 hc
  · intro b hb c hc hne
    exact hblocks.body_disjoint (mem_allocated.mp hb).1 (mem_allocated.mp hc).1 hne
  · intro c hallows
    obtain ⟨s', bs', hrun, -, hframe⟩ := call_keeps htiled hallows
    exact ⟨s', hrun, hframe⟩

/-- A region of 64 KiB in the higher half. -/
def sampleRegion : HeapRegion where
  head := 0xffff800000100000
  size := 0x10000
  low := by decide
  room := by decide
  fits := by decide

/-- The tiling after one `malloc(24)` on the sample region. -/
theorem heapReachable_tiles_region_malloc :
    ∃ s, HeapReachable sampleRegion s ∧ s.live = [0xffff800000100018] ∧
      ∃ bs, sampleRegion.Blocks s.mem bs ∧
        ((allocated bs).map Block.payload).Perm s.live := by
  have hboot := HeapReachable.init (r := sampleRegion) fun _ => 0
  have hsome : (HeapState.call sampleRegion.head
      ⟨initHead (fun _ => 0) sampleRegion.head sampleRegion.size, []⟩
      (.malloc 24)).isSome := by decide
  have hreach := hboot.call (c := HeapCall.malloc 24) trivial
    (Option.some_get hsome).symm
  obtain ⟨bs, hblocks, -, -, hlive, -⟩ := heapReachable_tiles_region hreach
  exact ⟨_, hreach, rfl, bs, hblocks, hlive⟩

end Utopia
