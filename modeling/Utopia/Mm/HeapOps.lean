/-
What `malloc`, `page_alloc` and `free` do to the block list of the heap.
-/
import Utopia.Mm.Heap
import Mathlib.Data.List.Basic

namespace Utopia

/-- The memory handed to the heap at boot: one region, above the null page and
clear of the last two pages of the address space, with room for a header. -/
structure HeapRegion where
  head : Word
  size : Word
  low : 4096 ≤ head.toNat
  room : 24 ≤ size.toNat
  fits : head.toNat + size.toNat + 8192 ≤ 2 ^ 64

def HeapRegion.stop (r : HeapRegion) : Nat := r.head.toNat + r.size.toNat

theorem HeapRegion.high (r : HeapRegion) : r.stop + 8192 ≤ 2 ^ 64 := r.fits

/-- The headers in memory tile the region with the blocks `bs`. -/
def HeapRegion.Blocks (r : HeapRegion) (m : Memory) (bs : List Block) : Prop :=
  Chain m r.head r.head.toNat bs 0 r.stop

def allocated (bs : List Block) : List Block := bs.filter fun b => !b.free

/-! ### The first-fit walk -/

theorem Chain.addr_ne_zero {m : Memory} {p q : Word} {start stop : Nat}
    {bs : List Block} (h : Chain m p start bs q stop) (hstart : 4096 ≤ start)
    {b : Block} (hb : b ∈ bs) : b.addr ≠ 0 := by
  intro hzero
  have hlow := (h.bounds hb).1
  bv_omega

/-- The walk stops at the first block where `place` succeeds, and with a null
pointer when there is none. -/
theorem firstFit_spec (place : Memory → Word → Option (Word × Memory))
    {m : Memory} {p : Word} {start stop : Nat} (fuel : Nat) {bs : List Block}
    (h : Chain m p start bs 0 stop) (hstart : 4096 ≤ start)
    (hfuel : bs.length < fuel) :
    (firstFit place fuel m p = some (0, m) ∧ ∀ b ∈ bs, place m b.addr = none) ∨
      ∃ pre b post result, bs = pre ++ b :: post ∧
        (∀ c ∈ pre, place m c.addr = none) ∧ place m b.addr = some result ∧
        firstFit place fuel m p = some result := by
  induction bs generalizing p start fuel with
  | nil =>
      obtain ⟨rfl, -⟩ := h
      cases fuel with
      | zero => simp at hfuel
      | succ fuel => exact Or.inl ⟨by simp [firstFit], by simp⟩
  | cons b bs ih =>
      have hne := h.addr_ne_zero hstart List.mem_cons_self
      obtain ⟨rfl, hb, next, hload, htail⟩ := h
      have hnext : blockNext m b.addr = next := congrArg HeapBlock.next hload
      cases fuel with
      | zero => simp at hfuel
      | succ fuel =>
          rw [firstFit, if_neg hne, hnext]
          cases hplace : place m b.addr with
          | some result =>
              exact Or.inr ⟨[], b, bs, result, rfl, by simp, hplace, rfl⟩
          | none =>
              have hbstop : 4096 ≤ b.stop := by
                simp only [Block.stop]
                omega
              rcases ih fuel htail hbstop (by simpa using hfuel) with
                ⟨hfit, hall⟩ | ⟨pre, c, post, result, rfl, hpre, hc, hfit⟩
              · exact Or.inl ⟨hfit, by simpa [hplace] using hall⟩
              · exact Or.inr ⟨b :: pre, c, post, result, rfl,
                  by simpa [hplace] using hpre, hc, hfit⟩

theorem HeapRegion.Blocks.length_lt {r : HeapRegion} {m : Memory}
    {bs : List Block} (h : r.Blocks m bs) : bs.length + 1 < walkFuel := by
  have hlen := Chain.length_le h
  have hhigh := r.high
  simp only [walkFuel]
  omega

/-! ### Page alignment -/

theorem alignPayload_spec (raw : Word) (hraw : raw.toNat + 8192 ≤ 2 ^ 64) :
    (alignPayload raw).1.toNat % 4096 = 0 ∧
      (alignPayload raw).1.toNat = raw.toNat + (alignPayload raw).2.toNat ∧
      ((alignPayload raw).2 = 0 ∨ 40 ≤ (alignPayload raw).2.toNat) ∧
      (alignPayload raw).2.toNat < 4096 + 40 := by
  have haligned : ((raw + (4096 - 1)) &&& ~~~(4096 - 1)).toNat =
      (raw.toNat + 4095) / 4096 * 4096 := by
    have hsum : (raw + (4096 - 1)).toNat = raw.toNat + 4095 := by bv_omega
    rw [toNat_and_not_mask (k := 12) (by decide), hsum]
    rfl
  simp only [alignPayload]
  generalize (raw + (4096 - 1)) &&& ~~~(4096 - 1) = aligned at haligned ⊢
  have hpad : (aligned - raw).toNat = aligned.toNat - raw.toNat := by bv_omega
  split_ifs with hsmall
  · simp only [sizeofHeapBlock] at hsmall ⊢
    refine ⟨?_, ?_, Or.inr ?_, ?_⟩ <;> bv_omega
  · simp only [sizeofHeapBlock, not_and] at hsmall ⊢
    refine ⟨by omega, by omega, ?_, by omega⟩
    by_cases hzero : aligned - raw = 0
    · exact Or.inl hzero
    · have hlarge := hsmall hzero
      right
      bv_omega

/-- `cutPadding` leaves the padding behind as a free block and yields the block
whose payload starts at the aligned address. -/
theorem cutPadding_spec {m : Memory} {p q : Word} (aligned padding : Word)
    {start stop : Nat} {b : Block} (h : Chain m p start [b] q stop)
    (hstart : 4096 ≤ start) (hfit : stop ≤ 2 ^ 64)
    (haligned : aligned.toNat = b.addr.toNat + 24 + padding.toNat)
    (hpad : padding = 0 ∨ 40 ≤ padding.toNat)
    (hsize : padding.toNat ≤ b.size.toNat) :
    ∃ front target, (cutPadding m b.addr aligned padding).1 = target.addr ∧
      Chain (cutPadding m b.addr aligned padding).2 p start (front ++ [target]) q stop ∧
      target.payload = aligned ∧ target.free = false ∧
      target.size.toNat = b.size.toNat - padding.toNat ∧
      (∀ c ∈ front, c.free = true) ∧ front.length ≤ 1 ∧
      Set.EqOn (cutPadding m b.addr aligned padding).2 m (between start stop)ᶜ := by
  have hchain := h
  obtain ⟨hp, haddr, next, hload, hq, hstop⟩ := h
  simp only [Block.stop] at hstop
  have hbsize : blockSize m b.addr = b.size := congrArg HeapBlock.size hload
  by_cases hcut : sizeofHeapBlock + 16 ≤ padding
  · have hroom : 40 ≤ padding.toNat := by
      simp only [sizeofHeapBlock] at hcut
      bv_omega
    have htarget : (aligned - sizeofHeapBlock).toNat =
        b.addr.toNat + padding.toNat := by
      simp only [sizeofHeapBlock]
      bv_omega
    have htsize : (b.size - padding).toNat = b.size.toNat - padding.toNat := by
      bv_omega
    have hfsize : (padding - sizeofHeapBlock).toNat = padding.toNat - 24 := by
      simp only [sizeofHeapBlock]
      bv_omega
    simp only [cutPadding, if_pos hcut, hbsize]
    set ab := aligned - sizeofHeapBlock with hab
    have hbfit : b.addr.toNat + 24 ≤ 2 ^ 64 := by omega
    have habfit : ab.toNat + 24 ≤ 2 ^ 64 := by omega
    have hnext : blockNext (setBlockSize m ab (b.size - padding)) b.addr = next := by
      have hdis := loadBlock_of_eqOn_compl
        (setBlockSize_eqOn habfit m (b.size - padding)) hbfit (by omega)
      rw [hload] at hdis
      exact congrArg HeapBlock.next hdis
    rw [hnext]
    set m₁ := setBlockFree (setBlockNext
      (setBlockSize m ab (b.size - padding)) ab next) ab false with hm₁
    have heq₁ : Set.EqOn m₁ m (span ab 24)ᶜ := storeHeader_eqOn habfit m _ _ _
    have heq₂ := storeHeader_eqOn hbfit m₁ (padding - sizeofHeapBlock) ab true
    refine ⟨[⟨b.addr, padding - sizeofHeapBlock, true⟩],
      ⟨ab, b.size - padding, false⟩, rfl,
      ⟨hp, haddr, ab, ?_, rfl, by simp only [Block.stop]; omega, next, ?_, hq, ?_⟩,
      ?_, rfl, htsize, by simp, le_rfl, ?_⟩
    · exact loadBlock_storeHeader hbfit _ _ _
    · rw [loadBlock_of_eqOn_compl heq₂ habfit (by omega), hm₁,
        loadBlock_storeHeader habfit]
    · simp only [Block.stop]
      omega
    · simp only [Block.payload, hab]
      exact BitVec.sub_add_cancel _ _
    · exact (eqOn_between_compl heq₂ (by omega) (by omega)).trans
        (eqOn_between_compl heq₁ (by omega) (by omega))
  · have hzero : padding = 0 := by
      rcases hpad with hzero | hlarge
      · exact hzero
      · exfalso
        simp only [sizeofHeapBlock] at hcut
        bv_omega
    obtain ⟨hmark, heq⟩ := hchain.setBlockFree hfit false
    simp only [cutPadding, if_neg hcut]
    refine ⟨[], { b with free := false }, rfl, hmark, ?_, rfl, by simp [hzero],
      by simp, Nat.zero_le 1, eqOn_between_compl heq haddr.ge (by omega)⟩
    rw [Block.payload]
    simp only [sizeofHeapBlock]
    bv_omega

/-! ### Allocation -/

/-- How an allocation changes the block list: the free block `source` gives way
to the free blocks in `front`, the block handed out, and the free blocks in
`rest`. -/
structure Carve where
  pre : List Block
  source : Block
  post : List Block
  front : List Block
  target : Block
  rest : List Block

def Carve.before (k : Carve) : List Block := k.pre ++ k.source :: k.post

def Carve.after (k : Carve) : List Block :=
  k.pre ++ (k.front ++ k.target :: k.rest) ++ k.post

/-- The carve `k` took the heap from `m` to `m'` and handed out `ptr` with room
for `n` bytes. -/
structure Carve.Holds (k : Carve) (r : HeapRegion) (m : Memory) (n : Nat)
    (ptr : Word) (m' : Memory) : Prop where
  before : r.Blocks m k.before
  after : r.Blocks m' k.after
  sourceFree : k.source.free = true
  frontFree : ∀ c ∈ k.front, c.free = true
  frontShort : k.front.length ≤ 1
  restFree : ∀ c ∈ k.rest, c.free = true
  restShort : k.rest.length ≤ 1
  targetUsed : k.target.free = false
  payload : k.target.payload = ptr
  room : n ≤ k.target.size.toNat
  frame : Set.EqOn m' m (between k.source.addr.toNat k.source.stop)ᶜ

theorem Chain.split_at {m : Memory} {p q : Word} {start stop : Nat}
    {pre post : List Block} {b : Block}
    (h : Chain m p start (pre ++ b :: post) q stop) :
    ∃ r t, Chain m p start pre r b.addr.toNat ∧
      Chain m r b.addr.toNat [b] t b.stop ∧ Chain m t b.stop post q stop := by
  obtain ⟨r, mid, hpre, hp, haddr, next, hload, hpost⟩ := chain_append.mp h
  rw [haddr]
  exact ⟨r, next, hpre, ⟨hp, haddr, next, hload, rfl, rfl⟩, hpost⟩

theorem mallocPlace_spec {r : HeapRegion} {m m' : Memory} {pre post : List Block}
    {b : Block} {size ptr : Word} (h : r.Blocks m (pre ++ b :: post))
    (hplace : mallocPlace size m b.addr = some (ptr, m')) :
    ∃ k : Carve, k.before = pre ++ b :: post ∧ k.Holds r m size.toNat ptr m' := by
  obtain ⟨t, u, hpre, hb, hpost⟩ := Chain.split_at h
  have hlow := (Chain.bounds h (b := b) (by simp)).1
  have hfit := hpost.start_le
  have hhigh := r.high
  have hregion := r.low
  have hload : ∃ next, loadBlock m b.addr = ⟨b.size, next, b.free⟩ := by
    obtain ⟨-, -, next, hload, -⟩ := hb
    exact ⟨next, hload⟩
  obtain ⟨next, hload⟩ := hload
  have hbfree : blockFree m b.addr = b.free := congrArg HeapBlock.free hload
  have hbsize : blockSize m b.addr = b.size := congrArg HeapBlock.size hload
  simp only [mallocPlace, hbfree, hbsize, Option.ite_none_right_eq_some,
    Option.some.injEq, Prod.mk.injEq] at hplace
  obtain ⟨⟨hfree, hsize⟩, hptr, hm'⟩ := hplace
  obtain ⟨b', rest, hsplit, haddr, -, hroom, hrest, hshort, heq⟩ :=
    splitBlock_spec _ hb (by omega) (by omega) (BitVec.le_def.mp hsize)
  obtain ⟨hmark, heqMark⟩ := hsplit.setBlockFree (by omega) false
  have hstop : b.addr.toNat + 24 ≤ b.stop := by
    simp only [Block.stop]
    omega
  rw [haddr, hm'] at hmark heqMark
  have hframe := (eqOn_between_compl heqMark le_rfl hstop).trans heq
  refine ⟨⟨pre, b, post, [], ⟨b.addr, b'.size, false⟩, rest⟩, rfl, h,
    ?_, hfree, by simp, Nat.zero_le 1, hrest, hshort, rfl, ?_, hroom, hframe⟩
  · exact hpre.replace hpost hmark (by omega) hframe
  · rw [← hptr, Block.payload]

theorem pagePlace_spec {r : HeapRegion} {m m' : Memory} {pre post : List Block}
    {b : Block} {size ptr : Word} (h : r.Blocks m (pre ++ b :: post))
    (hbound : size.toNat + 8192 ≤ 2 ^ 64)
    (hplace : pagePlace size m b.addr = some (ptr, m')) :
    ptr.toNat % 4096 = 0 ∧
      ∃ k : Carve, k.before = pre ++ b :: post ∧ k.Holds r m size.toNat ptr m' := by
  obtain ⟨t, u, hpre, hb, hpost⟩ := Chain.split_at h
  have hlow := (Chain.bounds h (b := b) (by simp)).1
  have hfit := hpost.start_le
  have hhigh := r.high
  have hregion := r.low
  have hload : ∃ next, loadBlock m b.addr = ⟨b.size, next, b.free⟩ := by
    obtain ⟨-, -, next, hload, -⟩ := hb
    exact ⟨next, hload⟩
  obtain ⟨next, hload⟩ := hload
  have hbfree : blockFree m b.addr = b.free := congrArg HeapBlock.free hload
  have hbsize : blockSize m b.addr = b.size := congrArg HeapBlock.size hload
  have hstop : b.addr.toNat + 24 + b.size.toNat = b.stop := rfl
  have hraw : (b.addr + sizeofHeapBlock).toNat = b.addr.toNat + 24 := by
    simp only [sizeofHeapBlock]
    bv_omega
  obtain ⟨halign, haligned, hpad, hpadlt⟩ :=
    alignPayload_spec (b.addr + sizeofHeapBlock) (by omega)
  simp only [pagePlace, hbfree, hbsize] at hplace
  generalize alignPayload (b.addr + sizeofHeapBlock) = aligned at *
  obtain ⟨alignedAddr, padding⟩ := aligned
  dsimp only at halign haligned hpad hpadlt
  simp only [Option.ite_none_right_eq_some, Option.some.injEq,
    Prod.mk.injEq] at hplace
  obtain ⟨hfree, hsize, hptr, hm'⟩ := hplace
  have hsum : size.toNat + padding.toNat ≤ b.size.toNat := by bv_omega
  obtain ⟨front, target, htarget, hcut, hpayload, hused, htsize, hfront, hfrontShort, heqCut⟩ :=
    cutPadding_spec alignedAddr padding hb (by omega) (by omega) (by omega) hpad
      (by omega)
  rw [htarget] at hm'
  obtain ⟨v, mid, hcutFront, hcutTarget⟩ := chain_append.mp hcut
  have hmid := hcutFront.start_le
  obtain ⟨b', rest, hsplit, haddr, hfree', hroom, hrest, hshort, heqSplit⟩ :=
    splitBlock_spec size hcutTarget (by omega) (by omega) (by omega)
  rw [hm'] at hsplit heqSplit
  have hframe : Set.EqOn m' m (between b.addr.toNat b.stop)ᶜ := by
    refine (heqSplit.mono ?_).trans heqCut
    intro x hx hx'
    rw [mem_between] at hx'
    exact hx ⟨by omega, hx'.2⟩
  have hnew : Chain m' t b.addr.toNat (front ++ b' :: rest) u b.stop := by
    have hnil : Chain (cutPadding m b.addr alignedAddr padding).2 u b.stop [] u
        b.stop := ⟨rfl, rfl⟩
    simpa using hcutFront.replace hnil hsplit (by omega) heqSplit
  refine ⟨hptr ▸ halign, ⟨pre, b, post, front, b', rest⟩, rfl, h, ?_, hfree,
    hfront, hfrontShort, hrest, hshort, hfree'.trans hused, ?_, hroom, hframe⟩
  · exact hpre.replace hpost hnew (by omega) hframe
  · rw [← hptr, ← hpayload, Block.payload, haddr, Block.payload]

/-- Every walk of the allocator ends: with a null pointer and the heap as it
was, or with a carve. -/
theorem malloc?_spec {r : HeapRegion} {m : Memory} {bs : List Block}
    (h : r.Blocks m bs) (size : Word) :
    malloc? r.head m size = some (0, m) ∨
      ∃ ptr m' k, malloc? r.head m size = some (ptr, m') ∧
        Carve.before k = bs ∧
        k.Holds r m ((size + 7) &&& ~~~7).toNat ptr m' := by
  have hlen := h.length_lt
  rw [malloc?]
  split_ifs with hzero
  · exact Or.inl rfl
  · rcases firstFit_spec (mallocPlace ((size + 7) &&& ~~~7))
      walkFuel h r.low (by omega) with ⟨hnull, -⟩ | ⟨pre, b, post, ⟨ptr, m'⟩, rfl, -, hplace, hfit⟩
    · exact Or.inl hnull
    · obtain ⟨k, hbefore, hk⟩ := mallocPlace_spec h hplace
      exact Or.inr ⟨ptr, m', k, hfit, hbefore, hk⟩

theorem pageAlloc?_spec {r : HeapRegion} {m : Memory} {bs : List Block}
    (h : r.Blocks m bs) (pages : Word) (hpages : 4096 * pages.toNat + 8192 ≤ 2 ^ 64) :
    pageAlloc? r.head m pages = some (0, m) ∨
      ∃ ptr m' k, pageAlloc? r.head m pages = some (ptr, m') ∧
        ptr.toNat % 4096 = 0 ∧ Carve.before k = bs ∧
        k.Holds r m (4096 * pages.toNat) ptr m' := by
  have hlen := h.length_lt
  have hsize : (4096 * pages).toNat = 4096 * pages.toNat := by bv_omega
  rw [pageAlloc?]
  rcases firstFit_spec (pagePlace (4096 * pages)) walkFuel h r.low (by omega) with
    ⟨hnull, -⟩ | ⟨pre, b, post, ⟨ptr, m'⟩, rfl, -, hplace, hfit⟩
  · exact Or.inl hnull
  · obtain ⟨halign, k, hbefore, hk⟩ := pagePlace_spec h (by omega) hplace
    rw [hsize] at hk
    exact Or.inr ⟨ptr, m', k, hfit, halign, hbefore, hk⟩

/-- Whatever is asked for, the walk of `page_alloc` ends, and a null pointer comes
with the heap as it was. -/
theorem pageAlloc?_null {r : HeapRegion} {m : Memory} {bs : List Block}
    (h : r.Blocks m bs) (pages : Word) :
    ∃ result, pageAlloc? r.head m pages = some result ∧ (result.1 = 0 → result = (0, m)) := by
  have hlen := h.length_lt
  rw [pageAlloc?]
  rcases firstFit_spec (pagePlace (4096 * pages)) walkFuel h r.low (by omega) with
    ⟨hnull, -⟩ | ⟨pre, b, post, ⟨ptr, m'⟩, rfl, -, hplace, hfit⟩
  · exact ⟨_, hnull, fun _ => rfl⟩
  · refine ⟨_, hfit, fun hzero => ?_⟩
    have hbounds := Chain.bounds h (b := b) (by simp)
    have hhigh := r.high
    simp only [Block.stop] at hbounds
    have hraw : (b.addr + sizeofHeapBlock).toNat = b.addr.toNat + 24 := by
      simp only [sizeofHeapBlock]
      bv_omega
    obtain ⟨-, haligned, -⟩ := alignPayload_spec (b.addr + sizeofHeapBlock) (by omega)
    rw [pagePlace] at hplace
    simp only [Option.ite_none_right_eq_some, Option.some.injEq, Prod.mk.injEq] at hplace
    obtain ⟨-, -, hptr, -⟩ := hplace
    rw [hptr, show ptr = 0 from hzero, hraw] at haligned
    have hnull : (0 : Word).toNat = 0 := rfl
    omega

/-! ### Merging free neighbours -/

/-- The list that the merge loop of `free` leaves behind. -/
def mergeFree : List Block → List Block
  | [] => []
  | [b] => [b]
  | b :: c :: bs =>
      if b.free ∧ c.free then
        mergeFree (⟨b.addr, b.size + (sizeofHeapBlock + c.size), b.free⟩ :: bs)
      else b :: mergeFree (c :: bs)
termination_by bs => bs.length

theorem allocated_mergeFree (bs : List Block) :
    allocated (mergeFree bs) = allocated bs := by
  induction bs using mergeFree.induct with
  | case1 => simp [mergeFree]
  | case2 b => simp [mergeFree]
  | case3 b c bs hfree ih =>
      rw [mergeFree, if_pos hfree, ih]
      simp [allocated, hfree.1, hfree.2]
  | case4 b c bs hused ih =>
      rw [mergeFree, if_neg hused]
      simp only [allocated, List.filter_cons] at ih ⊢
      rw [ih]

/-- The bytes of the headers of the free blocks. -/
def freeHeaders (bs : List Block) : Set Word :=
  { x | ∃ b ∈ bs, b.free = true ∧ x ∈ span b.addr 24 }

section

variable {m m' : Memory} {p : Word} {start stop : Nat} {b c : Block} {bs bs' : List Block}

/-- What the loop reads of a block and the one behind it. -/
theorem Chain.reads (h : Chain m p start (b :: c :: bs) 0 stop) :
    p = b.addr ∧ blockFree m b.addr = b.free ∧ blockSize m b.addr = b.size ∧
      blockNext m b.addr = c.addr ∧ blockFree m c.addr = c.free ∧ blockSize m c.addr = c.size := by
  obtain ⟨rfl, -, next, hload, rfl, -, next', hload', -⟩ := h
  exact ⟨rfl, congrArg HeapBlock.free hload, congrArg HeapBlock.size hload,
    congrArg HeapBlock.next hload, congrArg HeapBlock.free hload', congrArg HeapBlock.size hload'⟩

/-- The header of a block is rewritten so that it takes in the block behind it. -/
theorem Chain.absorb (h : Chain m p start (b :: c :: bs) 0 stop) (hfit : stop ≤ 2 ^ 64) :
    Chain (setBlockNext (setBlockSize m b.addr (b.size + (sizeofHeapBlock + c.size))) b.addr
        (blockNext m c.addr)) b.addr start
      (⟨b.addr, b.size + (sizeofHeapBlock + c.size), b.free⟩ :: bs) 0 stop := by
  obtain ⟨rfl, haddr, next, hload, rfl, hcaddr, next', hload', htail⟩ := h
  have htailLe := htail.start_le
  simp only [Block.stop] at hcaddr htailLe
  have hbfit : b.addr.toNat + 24 ≤ 2 ^ 64 := by omega
  have hsum : (b.size + (sizeofHeapBlock + c.size)).toNat = b.size.toNat + 24 + c.size.toNat := by
    simp only [sizeofHeapBlock]
    bv_omega
  have hnext : blockNext m c.addr = next' := congrArg HeapBlock.next hload'
  have hstop : Block.stop ⟨b.addr, b.size + (sizeofHeapBlock + c.size), b.free⟩ = c.stop := by
    simp only [Block.stop]
    omega
  rw [hnext]
  refine ⟨rfl, haddr, next', ?_, ?_⟩
  · rw [loadBlock_resizeHeader hbfit, hload]
  · rw [hstop]
    apply htail.congr hfit
    apply (resizeHeader_eqOn hbfit m _ next').symm.mono
    intro x hx
    simp only [mem_between, Block.stop] at hx
    rw [Set.mem_compl_iff, mem_span]
    omega

/-- A round of the loop at two free blocks makes one of them. -/
theorem coalesce_merge (h : Chain m p start (b :: c :: bs) 0 stop) (hstart : 4096 ≤ start)
    (hfit : stop ≤ 2 ^ 64) (hfree : b.free ∧ c.free) (fuel : Nat) :
    ∃ m', coalesce (fuel + 1) m p = coalesce fuel m' p ∧
      Chain m' p start (⟨b.addr, b.size + (sizeofHeapBlock + c.size), b.free⟩ :: bs) 0 stop ∧
      Set.EqOn m' m (span b.addr 24)ᶜ := by
  have hb := h.addr_ne_zero hstart List.mem_cons_self
  have hc := h.addr_ne_zero hstart (List.mem_cons_of_mem b List.mem_cons_self)
  have hmerged := h.absorb hfit
  obtain ⟨rfl, hbfree, hbsize, hbnext, hcfree, hcsize⟩ := h.reads
  have hfits : b.addr.toNat + 24 ≤ 2 ^ 64 ∧ c.addr.toNat + 24 ≤ 2 ^ 64 ∧
      b.addr.toNat + 24 ≤ c.addr.toNat := by
    obtain ⟨-, -, next, -, -, hcaddr, next', -, htail⟩ := h
    have htailLe := htail.start_le
    simp only [Block.stop] at hcaddr htailLe
    omega
  obtain ⟨hbfit, hcfit, hbelow⟩ := hfits
  -- the loop reads the two `next` fields again when the size is written already
  have hnext : blockNext (setBlockSize m b.addr (b.size + (sizeofHeapBlock + c.size))) b.addr =
      c.addr := by
    rw [← hbnext]
    exact congrArg HeapBlock.next (loadBlock_setBlockSize hbfit m _)
  have hnext' : blockNext (setBlockSize m b.addr (b.size + (sizeofHeapBlock + c.size))) c.addr =
      blockNext m c.addr :=
    congrArg HeapBlock.next (loadBlock_of_eqOn_compl (setBlockSize_eqOn hbfit m _) hcfit (by omega))
  refine ⟨_, ?_, hmerged, resizeHeader_eqOn hbfit m _ _⟩
  simp only [coalesce, if_neg hb, hbfree, hbnext, hcfree, hbsize, hcsize, hnext, hnext']
  exact if_pos ⟨hfree.1, hc, hfree.2⟩

/-- Elsewhere a round goes to the next block. -/
theorem coalesce_skip (h : Chain m p start (b :: c :: bs) 0 stop) (hstart : 4096 ≤ start)
    (hused : ¬ (b.free ∧ c.free)) (fuel : Nat) :
    coalesce (fuel + 1) m p = coalesce fuel m c.addr := by
  have hb := h.addr_ne_zero hstart List.mem_cons_self
  obtain ⟨rfl, hbfree, -, hbnext, hcfree, -⟩ := h.reads
  simp only [coalesce, if_neg hb, hbfree, hbnext, hcfree]
  exact if_neg fun hcond => hused ⟨hcond.1, hcond.2.2⟩

/-- The blocks behind a block change, and their headers only. -/
theorem Chain.keep_head (h : Chain m p start (b :: c :: bs) 0 stop) (hfit : stop ≤ 2 ^ 64)
    (hframe : Set.EqOn m' m (freeHeaders (c :: bs))ᶜ)
    (hchain : Chain m' c.addr b.stop bs' 0 stop) : Chain m' p start (b :: bs') 0 stop := by
  obtain ⟨rfl, haddr, next, hload, htail⟩ := h
  have htailLe := htail.start_le
  have hnext : next = c.addr := htail.1
  refine ⟨rfl, haddr, c.addr, ?_, hchain⟩
  rw [← hnext, ← hload]
  apply loadBlock_congr
  · simp only [Block.stop] at htailLe
    omega
  · apply hframe.mono
    rintro x hx ⟨d, hd, -, hxd⟩
    have hdlow := (htail.bounds hd).1
    rw [mem_span] at hx hxd
    simp only [Block.stop] at hdlow
    omega

theorem coalesce_spec {m : Memory} {p : Word} {start stop : Nat}
    {bs : List Block} (h : Chain m p start bs 0 stop) (hstart : 4096 ≤ start)
    (hfit : stop ≤ 2 ^ 64) (fuel : Nat) (hfuel : bs.length < fuel) :
    ∃ m', coalesce fuel m p = some m' ∧ Chain m' p start (mergeFree bs) 0 stop ∧
      Set.EqOn m' m (freeHeaders bs)ᶜ := by
  induction bs using mergeFree.induct generalizing m p start fuel with
  | case1 =>
      obtain ⟨rfl, rfl⟩ := h
      cases fuel with
      | zero => simp at hfuel
      | succ fuel =>
          exact ⟨m, by simp [coalesce], by simp [mergeFree, Chain],
            Set.eqOn_refl _ _⟩
  | case2 b =>
      have hchain := h
      obtain ⟨rfl, haddr, next, hload, rfl, hstop⟩ := h
      have hnext : blockNext m b.addr = 0 := congrArg HeapBlock.next hload
      obtain ⟨fuel, rfl⟩ : ∃ k, fuel = k + 2 := ⟨fuel - 2, by simp at hfuel; omega⟩
      refine ⟨m, by simp [coalesce, hnext], ?_, Set.eqOn_refl _ _⟩
      rw [mergeFree]
      exact hchain
  | case3 b c bs hfree ih =>
      obtain ⟨fuel, rfl⟩ : ∃ k, fuel = k + 1 := ⟨fuel - 1, by omega⟩
      obtain ⟨m₁, hstep, hmerged, heq⟩ := coalesce_merge h hstart hfit hfree fuel
      obtain ⟨m', hrun, hchain, hframe⟩ :=
        ih hmerged hstart fuel (by simp at hfuel ⊢; omega)
      refine ⟨m', hstep.trans hrun, ?_, ?_⟩
      · rw [mergeFree, if_pos hfree]
        exact hchain
      · have hsub : freeHeaders (⟨b.addr, b.size + (sizeofHeapBlock + c.size), b.free⟩ :: bs) ⊆
            freeHeaders (b :: c :: bs) := by
          rintro x ⟨d, hd, hdfree, hx⟩
          rcases List.mem_cons.mp hd with rfl | hd
          · exact ⟨b, List.mem_cons_self, hdfree, hx⟩
          · exact ⟨d, by simp [hd], hdfree, hx⟩
        refine (hframe.mono (Set.compl_subset_compl.mpr hsub)).trans
          (heq.mono (Set.compl_subset_compl.mpr ?_))
        exact fun x hx => ⟨b, List.mem_cons_self, hfree.1, hx⟩
  | case4 b c bs hused ih =>
      obtain ⟨fuel, rfl⟩ : ∃ k, fuel = k + 1 := ⟨fuel - 1, by omega⟩
      have htail : Chain m c.addr b.stop (c :: bs) 0 stop := by
        obtain ⟨-, -, next, -, htail⟩ := h
        rwa [htail.1] at htail
      have hbstop : 4096 ≤ b.stop := by
        have hb := (h.bounds List.mem_cons_self).1
        simp only [Block.stop]
        omega
      obtain ⟨m', hrun, hchain, hframe⟩ :=
        ih htail hbstop fuel (by simp at hfuel ⊢; omega)
      refine ⟨m', (coalesce_skip h hstart hused fuel).trans hrun, ?_,
        hframe.mono (Set.compl_subset_compl.mpr ?_)⟩
      · rw [mergeFree, if_neg hused]
        exact h.keep_head hfit hframe hchain
      · rintro x ⟨d, hd, hdfree, hx⟩
        exact ⟨d, List.mem_cons_of_mem b hd, hdfree, hx⟩

end

/-- `free` of a block in use: the block goes from the allocated ones, and only
headers of free blocks change. -/
theorem free?_spec {r : HeapRegion} {m : Memory} {pre post : List Block}
    {b : Block} (h : r.Blocks m (pre ++ b :: post)) :
    ∃ m', free? r.head m b.payload = some m' ∧
      r.Blocks m' (mergeFree (pre ++ { b with free := true } :: post)) ∧
      Set.EqOn m' m (freeHeaders (pre ++ { b with free := true } :: post))ᶜ := by
  have hmem : b ∈ pre ++ b :: post := by simp
  have hlow := (Chain.bounds h hmem).1
  obtain ⟨t, u, hpre, hb, hpost⟩ := Chain.split_at h
  have hle := hpost.start_le
  have hhigh := r.high
  have hregion := r.low
  have hlen := h.length_lt
  have hstop : b.addr.toNat + 24 ≤ b.stop := by
    simp only [Block.stop]
    omega
  obtain ⟨hmark, heqMark⟩ := hb.setBlockFree (by omega) true
  have hmarked : r.Blocks (setBlockFree m b.addr true)
      (pre ++ { b with free := true } :: post) := by
    have := hpre.replace hpost hmark (by omega)
      (eqOn_between_compl heqMark le_rfl hstop)
    simpa [HeapRegion.Blocks] using this
  obtain ⟨m', hrun, hblocks, hframe⟩ :=
    coalesce_spec hmarked r.low (by omega) walkFuel (by simp at hlen ⊢; omega)
  have hpayload : b.payload ≠ 0 := by
    simp only [Block.payload, sizeofHeapBlock]
    bv_omega
  have hback : b.payload - sizeofHeapBlock = b.addr := by
    rw [Block.payload, BitVec.add_sub_cancel]
  refine ⟨m', ?_, hblocks, hframe.trans (heqMark.mono ?_)⟩
  · rw [free?, if_neg hpayload, hback]
    exact hrun
  · apply Set.compl_subset_compl.mpr
    exact fun x hx => ⟨{ b with free := true }, by simp, rfl, hx⟩

/-! ### Payloads -/

/-- Two blocks of a chain are the same or lie apart. -/
theorem Chain.apart {m : Memory} {p q : Word} {start stop : Nat}
    {bs : List Block} (h : Chain m p start bs q stop) {b c : Block}
    (hb : b ∈ bs) (hc : c ∈ bs) :
    b = c ∨ b.stop ≤ c.addr.toNat ∨ c.stop ≤ b.addr.toNat := by
  induction bs generalizing p start with
  | nil => simp at hb
  | cons d bs ih =>
      obtain ⟨-, -, next, -, htail⟩ := h
      rcases List.mem_cons.mp hb with rfl | hbtail
      · rcases List.mem_cons.mp hc with rfl | hctail
        · exact Or.inl rfl
        · exact Or.inr (Or.inl (htail.bounds hctail).1)
      · rcases List.mem_cons.mp hc with rfl | hctail
        · exact Or.inr (Or.inr (htail.bounds hbtail).1)
        · exact ih htail hbtail hctail

theorem Chain.nodup {m : Memory} {p q : Word} {start stop : Nat}
    {bs : List Block} (h : Chain m p start bs q stop) :
    (bs.map Block.addr).Nodup := by
  induction bs generalizing p start with
  | nil => simp
  | cons b bs ih =>
      obtain ⟨-, -, next, -, htail⟩ := h
      rw [List.map_cons, List.nodup_cons]
      refine ⟨?_, ih htail⟩
      intro hmem
      obtain ⟨c, hc, heq⟩ := List.mem_map.mp hmem
      have hlow := (htail.bounds hc).1
      simp only [Block.stop, heq] at hlow
      omega

theorem mem_allocated {bs : List Block} {b : Block} :
    b ∈ allocated bs ↔ b ∈ bs ∧ b.free = false := by
  simp [allocated]

theorem HeapRegion.Blocks.payload_toNat {r : HeapRegion} {m : Memory}
    {bs : List Block} (h : r.Blocks m bs) {b : Block} (hb : b ∈ bs) :
    b.payload.toNat = b.addr.toNat + 24 := by
  have hstop := (Chain.bounds h hb).2
  have hhigh := r.high
  simp only [Block.stop] at hstop
  simp only [Block.payload, sizeofHeapBlock]
  bv_omega

/-- The bytes a caller may use of the block. -/
def Block.body (b : Block) : Set Word := span b.payload b.size.toNat

theorem HeapRegion.Blocks.mem_body {r : HeapRegion} {m : Memory}
    {bs : List Block} (h : r.Blocks m bs) {b : Block} (hb : b ∈ bs) {x : Word} :
    x ∈ b.body ↔ b.addr.toNat + 24 ≤ x.toNat ∧ x.toNat < b.stop := by
  rw [Block.body, mem_span, h.payload_toNat hb, Block.stop]

/-- Bodies stay clear of every header. -/
theorem HeapRegion.Blocks.body_disjoint_header {r : HeapRegion} {m : Memory}
    {bs : List Block} (h : r.Blocks m bs) {b c : Block} (hb : b ∈ bs)
    (hc : c ∈ bs) : Disjoint b.body (span c.addr 24) := by
  rw [Set.disjoint_left]
  intro x hx hxc
  rw [h.mem_body hb] at hx
  rw [mem_span] at hxc
  simp only [Block.stop] at hx
  rcases Chain.apart h hb hc with rfl | hle | hle
  · omega
  · simp only [Block.stop] at hle
    omega
  · simp only [Block.stop] at hle
    omega

theorem HeapRegion.Blocks.body_disjoint {r : HeapRegion} {m : Memory}
    {bs : List Block} (h : r.Blocks m bs) {b c : Block} (hb : b ∈ bs)
    (hc : c ∈ bs) (hne : b ≠ c) : Disjoint b.body c.body := by
  rw [Set.disjoint_left]
  intro x hx hxc
  rw [h.mem_body hb] at hx
  rw [h.mem_body hc] at hxc
  rcases Chain.apart h hb hc with rfl | hle | hle
  · exact hne rfl
  · omega
  · omega

theorem Chain.congr_headers {m m' : Memory} {p q : Word} {start stop : Nat}
    {bs : List Block} (h : Chain m p start bs q stop) (hfit : stop ≤ 2 ^ 64)
    (heq : ∀ b ∈ bs, Set.EqOn m m' (span b.addr 24)) :
    Chain m' p start bs q stop := by
  induction bs generalizing p start with
  | nil => exact h
  | cons b bs ih =>
      obtain ⟨hp, hstart, next, hload, htail⟩ := h
      have hle := htail.start_le
      simp only [Block.stop] at hle
      refine ⟨hp, hstart, next, ?_,
        ih htail fun c hc => heq c (List.mem_cons_of_mem b hc)⟩
      rw [← loadBlock_congr (by omega) (heq b List.mem_cons_self), hload]

/-- Writing inside the body of a block leaves the block list as it is. -/
theorem HeapRegion.Blocks.of_eqOn_body {r : HeapRegion} {m m' : Memory}
    {bs : List Block} (h : r.Blocks m bs) {b : Block} (hb : b ∈ bs)
    (heq : Set.EqOn m' m b.bodyᶜ) : r.Blocks m' bs := by
  have hhigh := r.high
  apply Chain.congr_headers h (by omega)
  intro c hc
  apply heq.symm.mono
  exact Set.disjoint_left.mp (h.body_disjoint_header hb hc).symm

/-- A carve leaves the bodies of the blocks in use alone. -/
theorem Carve.Holds.eqOn_body {k : Carve} {r : HeapRegion} {m m' : Memory}
    {n : Nat} {ptr : Word} (hk : k.Holds r m n ptr m') {b : Block}
    (hb : b ∈ allocated k.before) : Set.EqOn m' m b.body := by
  obtain ⟨hmem, hused⟩ := mem_allocated.mp hb
  have hsource : k.source ∈ k.before := by simp [Carve.before]
  apply hk.frame.mono
  intro x hx hxs
  rw [hk.before.mem_body hmem] at hx
  rw [mem_between] at hxs
  rcases Chain.apart hk.before hmem hsource with rfl | hle | hle
  · rw [hk.sourceFree] at hused
    cases hused
  · omega
  · omega

theorem allocated_append (xs ys : List Block) :
    allocated (xs ++ ys) = allocated xs ++ allocated ys := by
  simp [allocated]

theorem allocated_eq_nil {bs : List Block} (h : ∀ b ∈ bs, b.free = true) :
    allocated bs = [] := by
  simpa [allocated] using h

theorem Carve.Holds.allocated_perm {k : Carve} {r : HeapRegion} {m m' : Memory}
    {n : Nat} {ptr : Word} (hk : k.Holds r m n ptr m') :
    (allocated k.after).Perm (k.target :: allocated k.before) := by
  have htarget : allocated (k.target :: k.rest) = [k.target] := by
    have hrest := allocated_eq_nil hk.restFree
    simp only [allocated] at hrest ⊢
    simp [hk.targetUsed, hrest]
  have hsource : allocated (k.source :: k.post) = allocated k.post := by
    simp [allocated, hk.sourceFree]
  rw [Carve.after, Carve.before, allocated_append, allocated_append,
    allocated_append, allocated_append, allocated_eq_nil hk.frontFree, htarget,
    hsource, List.nil_append, List.append_assoc, List.singleton_append]
  exact List.perm_middle

end Utopia
