/-
How large the blocks are that `malloc`, `calloc` and `page_alloc` hand out, and when they
hand out none: the sizes are computed modulo 2^64 before they are compared.
-/
import Utopia.Mm.HeapCoalesced

namespace Utopia

/-- Unless the call failed: the block in front of the pointer has `n` bytes, and it lies in
the region. -/
def HeapRegion.AsAsked (r : HeapRegion) (n : ℕ) (result : Word × Memory) : Prop :=
  result.1 ≠ 0 →
    n ≤ (blockSize result.2 (result.1 - sizeofHeapBlock)).toNat ∧
      r.head.toNat ≤ (result.1 - sizeofHeapBlock).toNat ∧
      (result.1 - sizeofHeapBlock).toNat + 24 +
        (blockSize result.2 (result.1 - sizeofHeapBlock)).toNat ≤ r.stop

/-- `size` after rounding. -/
def roundUp8 (size : Word) : Word := (size + 7) &&& ~~~7

variable {r : HeapRegion} {m m' : Memory} {bs : List Block} {b : Block} {n : ℕ}
  {ptr size pages : Word} {result : Word × Memory}

theorem HeapRegion.Blocks.load (h : r.Blocks m bs) (hb : b ∈ bs) :
    blockFree m b.addr = b.free ∧ blockSize m b.addr = b.size := by
  obtain ⟨pre, post, rfl⟩ := List.append_of_mem hb
  obtain ⟨t, u, -, ⟨-, -, next, hload, -⟩, -⟩ := Chain.split_at h
  exact ⟨congrArg HeapBlock.free hload, congrArg HeapBlock.size hload⟩

theorem Block.payload_sub (b : Block) : b.payload - sizeofHeapBlock = b.addr := by
  rw [Block.payload, BitVec.add_sub_cancel]

namespace HeapRegion

theorem asAsked_of_mem (h : r.Blocks m bs) (hb : b ∈ bs) (hn : n ≤ b.size.toNat) :
    r.AsAsked n (b.payload, m) := by
  intro _
  have hbounds := Chain.bounds h hb
  simp only [b.payload_sub, (h.load hb).2]
  exact ⟨hn, hbounds.1, hbounds.2⟩

/-- No block is as large as a size close to 2^64. -/
theorem asAsked_iff_null (hn : 2 ^ 64 < n + 8192) : r.AsAsked n result ↔ result.1 = 0 := by
  constructor
  · intro h
    by_contra hne
    obtain ⟨hsize, -, hstop⟩ := h hne
    have hhigh := r.high
    omega
  · exact fun hnull hne => absurd hnull hne

end HeapRegion

/-! ### `malloc` and `calloc` -/

theorem mallocPlace_eq_none_iff (h : r.Blocks m bs) (hb : b ∈ bs) :
    mallocPlace size m b.addr = none ↔ (b.free = true → b.size < size) := by
  rw [mallocPlace, (h.load hb).1, (h.load hb).2]
  simp only [ite_eq_right_iff, reduceCtorEq, imp_false, not_and, BitVec.not_le]

/-- `malloc` fails if nothing is asked for or no free block is large enough, and else cuts a
block for the rounded size. -/
theorem malloc?_cases (h : r.Blocks m bs) (size : Word) :
    malloc? r.head m size = some (0, m) ∧
        (size = 0 ∨ ∀ b ∈ bs, b.free = true → b.size < roundUp8 size) ∨
      ∃ ptr m' k, malloc? r.head m size = some (ptr, m') ∧ Carve.before k = bs ∧
        k.Holds r m (roundUp8 size).toNat ptr m' ∧ size ≠ 0 ∧
        ∃ b ∈ bs, b.free = true ∧ ¬ b.size < roundUp8 size := by
  have hlen := h.length_lt
  rw [malloc?]
  split_ifs with hzero
  · exact Or.inl ⟨rfl, Or.inl hzero⟩
  · rcases firstFit_spec (mallocPlace (roundUp8 size)) walkFuel h r.low (by omega) with
      ⟨hnull, hnone⟩ | ⟨pre, b, post, ⟨ptr, m'⟩, rfl, -, hplace, hfit⟩
    · exact Or.inl ⟨hnull, Or.inr fun b hb => (mallocPlace_eq_none_iff h hb).mp (hnone b hb)⟩
    · obtain ⟨k, hbefore, hk⟩ := mallocPlace_spec h hplace
      have hb : b ∈ pre ++ b :: post := by simp
      refine Or.inr ⟨ptr, m', k, hfit, hbefore, hk, hzero, b, hb, ?_⟩
      have hsome : ¬ (b.free = true → b.size < roundUp8 size) := by
        rw [← mallocPlace_eq_none_iff h hb, hplace]
        exact fun hnone => by cases hnone
      rwa [Classical.not_imp] at hsome

theorem Carve.Holds.ptr_ne_zero {k : Carve} (hk : k.Holds r m n ptr m') : ptr ≠ 0 := by
  rw [← hk.payload]
  exact hk.after.payload_ne_zero (by simp [Carve.after])

theorem le_toNat_roundUp8 (h : size.toNat + 7 < 2 ^ 64) :
    size.toNat ≤ (roundUp8 size).toNat :=
  toNat_roundUp8_of_lt (by omega)

/-- Rounding a size next to 2^64 gives 0, and `malloc` takes the first free block. -/
theorem malloc?_asAsked_iff (h : r.Blocks m bs) (size : Word) :
    ∃ result, malloc? r.head m size = some result ∧
      (r.AsAsked size.toNat result ↔
        size.toNat + 7 < 2 ^ 64 ∨ ∀ b ∈ bs, b.free = true → b.size < roundUp8 size) := by
  rcases malloc?_cases h size with
    ⟨hnull, hwhy⟩ | ⟨ptr, m', k, hrun, rfl, hk, hne, b, hb, hfree, hlarge⟩
  · refine ⟨_, hnull, fun _ => ?_, fun _ hne => absurd rfl hne⟩
    rcases hwhy with rfl | hsmall
    · exact Or.inl (by decide)
    · exact Or.inr hsmall
  · refine ⟨_, hrun, ?_⟩
    by_cases hwrap : size.toNat + 7 < 2 ^ 64
    · refine ⟨fun _ => Or.inl hwrap, fun _ => ?_⟩
      rw [← hk.payload]
      exact HeapRegion.asAsked_of_mem hk.after (by simp [Carve.after])
        ((le_toNat_roundUp8 hwrap).trans hk.room)
    · rw [HeapRegion.asAsked_iff_null (by omega)]
      refine ⟨fun hnull => absurd hnull hk.ptr_ne_zero, ?_⟩
      rintro (hlt | hsmall)
      · exact absurd hlt hwrap
      · exact absurd (hsmall b hb hfree) hlarge

/-- `calloc` asks `malloc` for the product modulo 2^64. -/
theorem calloc?_asAsked_iff (h : r.Blocks m bs) (num size : Word) :
    ∃ result, calloc? r.head m num size = some result ∧
      (r.AsAsked (num.toNat * size.toNat) result ↔
        num.toNat * size.toNat + 7 < 2 ^ 64 ∨ num * size = 0 ∨
          ∀ b ∈ bs, b.free = true → b.size < roundUp8 (num * size)) := by
  rcases malloc?_cases h (num * size) with
    ⟨hnull, hwhy⟩ | ⟨ptr, m', k, hrun, rfl, hk, hne, b, hb, hfree, hlarge⟩
  · have hcalloc : calloc? r.head m num size = some (0, m) := by
      simp [calloc?, hnull]
    exact ⟨_, hcalloc, fun _ => Or.inr hwhy, fun _ hne => absurd rfl hne⟩
  · have hptr := hk.ptr_ne_zero
    have hcalloc : calloc? r.head m num size =
        some (ptr, m'.fill ptr (num * size).toNat 0) := by
      simp only [calloc?, hrun, Option.map_some, ne_eq, hptr, not_false_eq_true, if_true]
    refine ⟨_, hcalloc, ?_⟩
    by_cases hwrap : num.toNat * size.toNat + 7 < 2 ^ 64
    · have htotal : (num * size).toNat = num.toNat * size.toNat := by
        rw [BitVec.toNat_mul, Nat.mod_eq_of_lt (by omega)]
      have hround := le_toNat_roundUp8 (htotal ▸ hwrap)
      refine ⟨fun _ => Or.inl hwrap, fun _ => ?_⟩
      rw [← hk.payload, ← htotal]
      exact HeapRegion.asAsked_of_mem (hk.payload ▸ (hk.fill hround 0).1) (by simp [Carve.after])
        (hround.trans hk.room)
    · rw [HeapRegion.asAsked_iff_null (by omega)]
      refine ⟨fun hnull => absurd hnull hptr, ?_⟩
      rintro (hlt | hzero | hsmall)
      · exact absurd hlt hwrap
      · exact absurd hzero hne
      · exact absurd (hsmall b hb hfree) hlarge

/-! ### `page_alloc` -/

/-- What `page_alloc` compares with the size of the free block `b`. -/
def pageNeed (b : Block) (size : Word) : Word := size + (alignPayload b.payload).2

theorem pagePlace_eq_none_iff (h : r.Blocks m bs) (hb : b ∈ bs) :
    pagePlace size m b.addr = none ↔ (b.free = true → b.size < pageNeed b size) := by
  rw [pagePlace, (h.load hb).1, (h.load hb).2, pageNeed, Block.payload]
  by_cases hfree : b.free = true
  · simp only [hfree, if_true, true_implies, ite_eq_right_iff, reduceCtorEq, imp_false,
      BitVec.not_le]
  · simp [hfree]

theorem pageAlloc?_cases (h : r.Blocks m bs) (pages : Word) :
    pageAlloc? r.head m pages = some (0, m) ∧
        (∀ b ∈ bs, b.free = true → b.size < pageNeed b (4096 * pages)) ∨
      ∃ result, pageAlloc? r.head m pages = some result ∧ result.1 ≠ 0 ∧
        ∃ b ∈ bs, b.free = true ∧ ¬ b.size < pageNeed b (4096 * pages) := by
  have hlen := h.length_lt
  rw [pageAlloc?]
  rcases firstFit_spec (pagePlace (4096 * pages)) walkFuel h r.low (by omega) with
    ⟨hnull, hnone⟩ | ⟨pre, b, post, result, rfl, -, hplace, hfit⟩
  · exact Or.inl ⟨hnull, fun b hb => (pagePlace_eq_none_iff h hb).mp (hnone b hb)⟩
  · have hb : b ∈ pre ++ b :: post := by simp
    refine Or.inr ⟨result, hfit, fun hzero => ?_, b, hb, ?_⟩
    · obtain ⟨result', hrun, hsame⟩ := pageAlloc?_null h pages
      rw [pageAlloc?, hfit, Option.some.injEq] at hrun
      have hbounds := Chain.bounds h hb
      have hhigh := r.high
      simp only [Block.stop] at hbounds
      have hraw : (b.addr + sizeofHeapBlock).toNat = b.addr.toNat + 24 := h.payload_toNat hb
      obtain ⟨-, haligned, -⟩ := alignPayload_spec (b.addr + sizeofHeapBlock) (by omega)
      rw [pagePlace] at hplace
      simp only [Option.ite_none_right_eq_some, Option.some.injEq] at hplace
      obtain ⟨-, -, rfl⟩ := hplace
      rw [show (alignPayload (b.addr + sizeofHeapBlock)).1 = 0 from hzero, hraw] at haligned
      have hnat : (0 : Word).toNat = 0 := rfl
      omega
    · have hsome : ¬ (b.free = true → b.size < pageNeed b (4096 * pages)) := by
        rw [← pagePlace_eq_none_iff h hb, hplace]
        exact fun hnone => by cases hnone
      rwa [Classical.not_imp] at hsome

theorem pageAlloc?_asAsked_iff (h : r.Blocks m bs) (pages : Word) :
    ∃ result, pageAlloc? r.head m pages = some result ∧
      (r.AsAsked (4096 * pages.toNat) result ↔
        4096 * pages.toNat + 8192 ≤ 2 ^ 64 ∨
          ∀ b ∈ bs, b.free = true → b.size < pageNeed b (4096 * pages)) := by
  rcases pageAlloc?_cases h pages with ⟨hnull, hsmall⟩ | ⟨result, hrun, hne, b, hb, hfree, hlarge⟩
  · exact ⟨_, hnull, fun _ => Or.inr hsmall, fun _ hne => absurd rfl hne⟩
  · refine ⟨result, hrun, ?_⟩
    by_cases hwrap : 4096 * pages.toNat + 8192 ≤ 2 ^ 64
    · refine ⟨fun _ => Or.inl hwrap, fun _ => ?_⟩
      rcases pageAlloc?_spec h pages hwrap with hnull | ⟨ptr, m', k, hrun', -, rfl, hk⟩
      · rw [hrun, Option.some.injEq] at hnull
        exact absurd (congrArg Prod.fst hnull) hne
      · rw [hrun, Option.some.injEq] at hrun'
        rw [hrun', ← hk.payload]
        exact HeapRegion.asAsked_of_mem hk.after (by simp [Carve.after]) hk.room
    · rw [HeapRegion.asAsked_iff_null (by omega)]
      refine ⟨fun hnull => absurd hnull hne, ?_⟩
      rintro (hlt | hsmall)
      · exact absurd hlt hwrap
      · exact absurd (hsmall b hb hfree) hlarge

/-! ### Reachable states -/

/-- In every reachable state a block that is handed out has the size asked for and lies in
the region, exactly if the size did not wrap or nothing is handed out. -/
theorem heapReachable_asAsked_iff {s : HeapState} (h : HeapReachable r s) :
    ∃ bs, r.Blocks s.mem bs ∧
      (∀ size, ∃ result, malloc? r.head s.mem size = some result ∧
        (r.AsAsked size.toNat result ↔
          size.toNat + 7 < 2 ^ 64 ∨ ∀ b ∈ bs, b.free = true → b.size < roundUp8 size)) ∧
      (∀ num size, ∃ result, calloc? r.head s.mem num size = some result ∧
        (r.AsAsked (num.toNat * size.toNat) result ↔
          num.toNat * size.toNat + 7 < 2 ^ 64 ∨ num * size = 0 ∨
            ∀ b ∈ bs, b.free = true → b.size < roundUp8 (num * size))) ∧
      ∀ pages, ∃ result, pageAlloc? r.head s.mem pages = some result ∧
        (r.AsAsked (4096 * pages.toNat) result ↔
          4096 * pages.toNat + 8192 ≤ 2 ^ 64 ∨
            ∀ b ∈ bs, b.free = true → b.size < pageNeed b (4096 * pages)) := by
  obtain ⟨bs, htiled⟩ := h.tiled
  exact ⟨bs, htiled.blocks, malloc?_asAsked_iff htiled.blocks,
    calloc?_asAsked_iff htiled.blocks, pageAlloc?_asAsked_iff htiled.blocks⟩

theorem sampleRegion_init :
    sampleRegion.Blocks (initHead (fun _ => 0) sampleRegion.head sampleRegion.size)
      [⟨sampleRegion.head, sampleRegion.size - sizeofHeapBlock, true⟩] :=
  (initHead_tiled sampleRegion _).blocks

/-- On a fresh heap `malloc(2^64 - 1)` returns a pointer. -/
theorem not_heapReachable_asAsked : ¬ ∀ (r : HeapRegion) (s : HeapState), HeapReachable r s →
    ∀ size result, malloc? r.head s.mem size = some result → r.AsAsked size.toNat result := by
  intro h
  obtain ⟨result, hrun, hiff⟩ := malloc?_asAsked_iff sampleRegion_init (-1)
  rcases hiff.mp (h sampleRegion _ (HeapReachable.init fun _ => 0) (-1) result hrun) with
    hlt | hsmall
  · exact absurd hlt (by decide)
  · exact absurd (hsmall _ (List.mem_singleton_self _) rfl) (by decide)

/-- A program on the sample heap allocates 24 and 40 bytes and frees the first block. -/
def sampleCalls : Option HeapState :=
  ((HeapState.call sampleRegion.head
      ⟨initHead (fun _ => 0) sampleRegion.head sampleRegion.size, []⟩ (.malloc 24)).bind
    fun s => s.call sampleRegion.head (.malloc 40)).bind
    fun s => s.call sampleRegion.head (.free 0xffff800000100018)

theorem sampleCalls_reachable :
    ∃ s, sampleCalls = some s ∧ HeapReachable sampleRegion s := by
  obtain ⟨s, hs⟩ : ∃ s, sampleCalls = some s := Option.isSome_iff_exists.mp (by decide)
  refine ⟨s, hs, ?_⟩
  rw [sampleCalls] at hs
  obtain ⟨s₂, hboth, h₃⟩ := Option.bind_eq_some_iff.mp hs
  have hlive : ((HeapState.call sampleRegion.head
      ⟨initHead (fun _ => 0) sampleRegion.head sampleRegion.size, []⟩ (.malloc 24)).bind
        fun s => s.call sampleRegion.head (.malloc 40)).map HeapState.live =
      some [0xffff800000100048, 0xffff800000100018] := by decide
  rw [hboth, Option.map_some, Option.some.injEq] at hlive
  obtain ⟨s₁, h₁, h₂⟩ := Option.bind_eq_some_iff.mp hboth
  have hreach := ((HeapReachable.init (r := sampleRegion) fun _ => 0).call (c := .malloc 24)
    trivial h₁).call (c := .malloc 40) trivial h₂
  exact hreach.call (c := .free 0xffff800000100018) (Or.inr (by rw [hlive]; simp)) h₃

/-- What is handed out next: the hole, a zeroed array and two pages behind the second block. -/
theorem heapReachable_asAsked_iff_sample : ∃ s p q u,
    sampleCalls = some s ∧ HeapReachable sampleRegion s ∧
      (malloc? sampleRegion.head s.mem 16 = some p ∧ p.1 = 0xffff800000100018 ∧
        sampleRegion.AsAsked 16 p) ∧
      (calloc? sampleRegion.head s.mem 3 40 = some q ∧ q.1 = 0xffff800000100088 ∧
        sampleRegion.AsAsked 120 q) ∧
      pageAlloc? sampleRegion.head s.mem 2 = some u ∧ u.1 = 0xffff800000101000 ∧
        sampleRegion.AsAsked 8192 u := by
  obtain ⟨s, hs, hreach⟩ := sampleCalls_reachable
  obtain ⟨bs, -, hmalloc, hcalloc, hpages⟩ := heapReachable_asAsked_iff hreach
  obtain ⟨p, hp, hpiff⟩ := hmalloc 16
  obtain ⟨q, hq, hqiff⟩ := hcalloc 3 40
  obtain ⟨u, hu, huiff⟩ := hpages 2
  have hfirst : (sampleCalls.bind fun s => malloc? sampleRegion.head s.mem 16).map Prod.fst =
      some 0xffff800000100018 := by decide
  have hsecond : (sampleCalls.bind fun s => calloc? sampleRegion.head s.mem 3 40).map Prod.fst =
      some 0xffff800000100088 := by decide
  have hthird : (sampleCalls.bind fun s => pageAlloc? sampleRegion.head s.mem 2).map Prod.fst =
      some 0xffff800000101000 := by decide
  rw [hs, Option.bind_some, hp, Option.map_some, Option.some.injEq] at hfirst
  rw [hs, Option.bind_some, hq, Option.map_some, Option.some.injEq] at hsecond
  rw [hs, Option.bind_some, hu, Option.map_some, Option.some.injEq] at hthird
  exact ⟨s, p, q, u, hs, hreach, ⟨hp, hfirst, hpiff.mpr (Or.inl (by decide))⟩,
    ⟨hq, hsecond, hqiff.mpr (Or.inl (by decide))⟩, hu, hthird, huiff.mpr (Or.inl (by decide))⟩

/-! ### `page_alloc` is exact and complete -/

/-- The aligned address is the first one that leaves no gap, or one with room for a header
and 16 bytes. -/
theorem alignPayload_least (raw : Word) (hraw : raw.toNat + 8192 ≤ 2 ^ 64) {a : ℕ}
    (ha : a % 4096 = 0) (hgap : a = raw.toNat ∨ raw.toNat + 40 ≤ a) :
    (alignPayload raw).1.toNat ≤ a := by
  have haligned : ((raw + (4096 - 1)) &&& ~~~(4096 - 1)).toNat =
      (raw.toNat + 4095) / 4096 * 4096 := by
    have hsum : (raw + (4096 - 1)).toNat = raw.toNat + 4095 := by bv_omega
    rw [toNat_and_not_mask (k := 12) (by decide), hsum]
    rfl
  simp only [alignPayload]
  generalize (raw + (4096 - 1)) &&& ~~~(4096 - 1) = aligned at haligned ⊢
  have hpad : (aligned - raw).toNat = aligned.toNat - raw.toNat := by bv_omega
  split_ifs with hsmall
  · obtain ⟨hne, hlt⟩ := hsmall
    have hnext : (aligned + 4096).toNat = aligned.toNat + 4096 := by bv_omega
    have hpos : 0 < aligned.toNat - raw.toNat := by
      rw [← hpad]
      bv_omega
    have hlt' : aligned.toNat - raw.toNat < 40 := by
      rw [← hpad]
      exact BitVec.lt_def.mp hlt
    change (aligned + 4096).toNat ≤ a
    omega
  · change aligned.toNat ≤ a
    omega

/-- An aligned place for `n` bytes inside a free block, behind nothing or behind what is left
as a block of its own. -/
def Block.HasPlace (b : Block) (n : ℕ) : Prop :=
  ∃ a, a % 4096 = 0 ∧ (a = b.addr.toNat + 24 ∨ b.addr.toNat + 24 + 40 ≤ a) ∧ a + n ≤ b.stop

theorem pageNeed_le_of_hasPlace (h : r.Blocks m bs) (hb : b ∈ bs) (hsize : size.toNat < 2 ^ 63)
    (hplace : b.HasPlace size.toNat) : pageNeed b size ≤ b.size := by
  obtain ⟨a, ha, hgap, hroom⟩ := hplace
  have hbounds := Chain.bounds h hb
  have hhigh := r.high
  have hpayload := h.payload_toNat hb
  simp only [Block.stop] at hbounds hroom
  have hleast := alignPayload_least b.payload (by omega) ha (by omega)
  obtain ⟨-, haligned, -, hpad⟩ := alignPayload_spec b.payload (by omega)
  rw [BitVec.le_def, pageNeed]
  have hsum : (size + (alignPayload b.payload).2).toNat =
      size.toNat + (alignPayload b.payload).2.toNat := toNat_add_of_lt (by omega)
  omega

/-- The block in front of `ptr` is the only new one in use, and `free` of `ptr` gives back
just this block. -/
def HeapRegion.HandsOut (r : HeapRegion) (bs : List Block) (n : ℕ) (ptr : Word) (m' : Memory) :
    Prop :=
  ptr.toNat % 4096 = 0 ∧ ∃ bs' b, r.Blocks m' bs' ∧ b ∈ bs' ∧ b.addr = ptr - sizeofHeapBlock ∧
    b.addr.toNat + 24 = ptr.toNat ∧ n ≤ b.size.toNat ∧
    (allocated bs').Perm (b :: allocated bs) ∧
    ∃ m'' bs'', free? r.head m' ptr = some m'' ∧ r.Blocks m'' bs'' ∧
      (allocated bs'').Perm (allocated bs)

theorem Carve.Holds.handsOut {k : Carve} (hk : k.Holds r m n ptr m')
    (haligned : ptr.toNat % 4096 = 0) : r.HandsOut k.before n ptr m' := by
  have htarget : k.target ∈ k.after := by simp [Carve.after]
  have hback : ptr - sizeofHeapBlock = k.target.addr := by
    rw [← hk.payload, Block.payload_sub]
  have hafter : k.after = (k.pre ++ k.front) ++ k.target :: (k.rest ++ k.post) := by
    simp [Carve.after]
  obtain ⟨m'', hrun, hblocks, -⟩ := free?_spec (hafter ▸ hk.after)
  rw [hk.payload] at hrun
  refine ⟨haligned, k.after, k.target, hk.after, htarget, hback.symm, ?_, hk.room,
    hk.allocated_perm, m'', _, hrun, hblocks, ?_⟩
  · rw [← hk.payload, hk.after.payload_toNat htarget]
  · have hused : (allocated k.after).Perm (k.target :: allocated ((k.pre ++ k.front) ++
        (k.rest ++ k.post))) := by
      have htargetUsed : allocated [k.target] = [k.target] := by
        simp [allocated, hk.targetUsed]
      rw [hafter, ← List.singleton_append, allocated_append (k.pre ++ k.front),
        allocated_append [k.target], allocated_append (k.pre ++ k.front), htargetUsed,
        List.singleton_append]
      exact List.perm_middle
    have hsame := List.Perm.cons_inv (hused.symm.trans hk.allocated_perm)
    rw [allocated_mergeFree]
    refine List.Perm.trans (List.Perm.of_eq ?_) hsame
    simp [allocated]

/-- `page_alloc` hands out an aligned block that `free` gives back, and fails only when no
free block has a place for it. -/
theorem heapReachable_pageAlloc_exact {s : HeapState} (h : HeapReachable r s) {pages : Word}
    (hpages : 4096 * pages.toNat < 2 ^ 63) :
    ∃ bs result, r.Blocks s.mem bs ∧ pageAlloc? r.head s.mem pages = some result ∧
      (result.1 ≠ 0 → r.HandsOut bs (4096 * pages.toNat) result.1 result.2) ∧
      (result.1 = 0 → result.2 = s.mem ∧
        ∀ b ∈ bs, b.free = true → ¬ b.HasPlace (4096 * pages.toNat)) := by
  obtain ⟨bs, htiled⟩ := h.tiled
  have hblocks := htiled.blocks
  have hsize : (4096 * pages).toNat = 4096 * pages.toNat := by bv_omega
  rcases pageAlloc?_cases hblocks pages with ⟨hnull, hsmall⟩ | ⟨result, hrun, hne, -⟩
  · refine ⟨bs, _, hblocks, hnull, fun hne => absurd rfl hne, fun _ => ⟨rfl, ?_⟩⟩
    intro b hb hfree hplace
    rw [← hsize] at hplace
    have hfits := pageNeed_le_of_hasPlace hblocks hb (by omega) hplace
    exact absurd (hsmall b hb hfree) (BitVec.not_lt.mpr hfits)
  · refine ⟨bs, result, hblocks, hrun, fun _ => ?_, fun hnull => absurd hnull hne⟩
    rcases pageAlloc?_spec hblocks pages (by omega) with
      hnull | ⟨ptr, m', k, hrun', haligned, rfl, hk⟩
    · rw [hrun, Option.some.injEq] at hnull
      exact absurd (congrArg Prod.fst hnull) hne
    · rw [hrun, Option.some.injEq] at hrun'
      rw [hrun']
      exact hk.handsOut haligned

/-- Two pages of the fresh sample heap. -/
theorem heapReachable_pageAlloc_exact_sample : 4096 * (2 : Word).toNat < 2 ^ 63 ∧
    ∃ bs result, sampleRegion.Blocks
        (initHead (fun _ => 0) sampleRegion.head sampleRegion.size) bs ∧
      pageAlloc? sampleRegion.head
        (initHead (fun _ => 0) sampleRegion.head sampleRegion.size) 2 = some result ∧
      (result.1 ≠ 0 → sampleRegion.HandsOut bs (4096 * (2 : Word).toNat) result.1 result.2) := by
  have hpages : 4096 * (2 : Word).toNat < 2 ^ 63 := by decide
  obtain ⟨bs, result, hblocks, hrun, hout, -⟩ :=
    heapReachable_pageAlloc_exact (HeapReachable.init (r := sampleRegion) fun _ => 0) hpages
  exact ⟨hpages, bs, result, hblocks, hrun, hout⟩

end Utopia
