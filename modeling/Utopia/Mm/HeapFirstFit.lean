/-
The heap as a list of blocks: every call of `mm/pmm.c` does to the headers in memory what a
first-fit allocator does to the list, and the list depends on the blocks in use only.
-/
import Utopia.Mm.HeapSizes

namespace Utopia

/-! ### The allocator on lists -/

/-- The block cut to `size` bytes, with what is left behind it when a header and 16 bytes are. -/
def Block.cut (b : Block) (size : Word) : List Block :=
  if size.toNat + 40 ≤ b.size.toNat then
    [⟨b.addr, size, b.free⟩,
      ⟨b.addr + sizeofHeapBlock + size, b.size - size - sizeofHeapBlock, true⟩]
  else [b]

/-- The payload and the blocks that `malloc` makes of a block. -/
def Block.take (b : Block) (size : Word) : Option (Word × List Block) :=
  if b.free ∧ size ≤ b.size then some (b.payload, Block.cut { b with free := false } size)
  else none

/-- The blocks in front of an aligned payload, and the block behind it. -/
def Block.cutAligned (b : Block) (aligned padding : Word) : List Block × Block :=
  if padding = 0 then ([], { b with free := false })
  else ([⟨b.addr, padding - sizeofHeapBlock, true⟩],
    ⟨aligned - sizeofHeapBlock, b.size - padding, false⟩)

/-- The payload and the blocks that `page_alloc` makes of a block. -/
def Block.takeAligned (b : Block) (size : Word) : Option (Word × List Block) :=
  if b.free ∧ pageNeed b size ≤ b.size then
    let (aligned, padding) := alignPayload b.payload
    let (front, target) := b.cutAligned aligned padding
    some (aligned, front ++ target.cut size)
  else none

/-- The first block that gives a place, and the list with it. -/
def takeFirst (place : Block → Option (Word × List Block)) : List Block → Word × List Block
  | [] => (0, [])
  | b :: bs =>
      match place b with
      | some (ptr, new) => (ptr, new ++ bs)
      | none => ((takeFirst place bs).1, b :: (takeFirst place bs).2)

/-- The blocks of the heap and the pointers handed out, newest first. -/
structure BlockHeap where
  blocks : List Block
  live : List Word
deriving DecidableEq, Repr

namespace BlockHeap

/-- The heap with the outcome of an allocation. -/
def handOut (a : BlockHeap) : Word × List Block → BlockHeap
  | (ptr, blocks) => ⟨blocks, if ptr = 0 then a.live else ptr :: a.live⟩

/-- The block of a pointer, marked as free. -/
def release (ptr : Word) (bs : List Block) : List Block :=
  bs.map fun b => if b.payload = ptr then { b with free := true } else b

/-- `malloc` of a number of bytes. -/
def malloc (a : BlockHeap) (size : Word) : BlockHeap :=
  if size = 0 then a else a.handOut (takeFirst (·.take (roundUp8 size)) a.blocks)

/-- A call of the allocator. -/
def call (a : BlockHeap) : HeapCall → BlockHeap
  | .malloc size => a.malloc size
  | .calloc num size => a.malloc (num * size)
  | .pageAlloc pages => a.handOut (takeFirst (·.takeAligned (4096 * pages)) a.blocks)
  | .free ptr =>
      if ptr = 0 then a else ⟨mergeFree (release ptr a.blocks), a.live.erase ptr⟩

/-- `memory_init`. -/
def init (r : HeapRegion) : BlockHeap := ⟨[⟨r.head, r.size - sizeofHeapBlock, true⟩], []⟩

end BlockHeap

variable {r : HeapRegion} {m m' : Memory} {bs bs' : List Block} {b : Block} {p q size ptr : Word}
  {start stop : ℕ}

/-! ### One block -/

theorem Chain.stop_of_singleton (h : Chain m p start [b] q stop) : b.stop = stop := by
  obtain ⟨-, -, next, -, -, hstop⟩ := h
  exact hstop

theorem Chain.stops_of_pair {c : Block} (h : Chain m p start [b, c] q stop) :
    c.addr.toNat = b.stop ∧ c.stop = stop := by
  obtain ⟨-, -, next, -, -, haddr, next', -, -, hstop⟩ := h
  exact ⟨haddr, hstop⟩

/-- `splitBlock` makes of a block what `cut` makes of it. -/
theorem splitBlock_cut (h : Chain m p start [b] q stop) (hstart : 4096 ≤ start)
    (hfit : stop ≤ 2 ^ 64) (hsize : size.toNat ≤ b.size.toNat) :
    Chain (splitBlock m b.addr size) p start (b.cut size) q stop ∧
      Set.EqOn (splitBlock m b.addr size) m (between start stop)ᶜ := by
  obtain ⟨b', rest, hchain, haddr, hfree, -, hrest, hshort, heq⟩ :=
    splitBlock_spec size h hstart hfit hsize
  refine ⟨?_, heq⟩
  have hstop := h.stop_of_singleton
  have hb : b.addr.toNat = start := h.2.1
  simp only [Block.stop] at hstop
  have hload : blockSize m b.addr = b.size := by
    obtain ⟨-, -, next, hload, -⟩ := h
    exact congrArg HeapBlock.size hload
  have hcut : size + sizeofHeapBlock + 16 ≤ b.size ↔ size.toNat + 40 ≤ b.size.toNat := by
    simp only [sizeofHeapBlock]
    bv_omega
  have hnew : b'.size = if size.toNat + 40 ≤ b.size.toNat then size else b.size := by
    have hread : blockSize (splitBlock m b.addr size) b.addr = b'.size := by
      obtain ⟨-, -, next', hload', -⟩ := hchain
      rw [haddr] at hload'
      exact congrArg HeapBlock.size hload'
    rw [← hread, splitBlock, hload]
    simp only [hcut]
    split_ifs
    · exact congrArg HeapBlock.size (loadBlock_resizeHeader (by omega) size _)
    · exact hload
  have hb' : b' = ⟨b.addr, b'.size, b.free⟩ := by
    rw [← haddr, ← hfree]
  rw [Block.cut]
  rcases eq_nil_or_singleton hshort with rfl | ⟨c, rfl⟩
  · have hwhole := hchain.stop_of_singleton
    simp only [Block.stop, haddr] at hwhole
    have hsame : b'.size = b.size := by bv_omega
    split_ifs at hnew ⊢ with hroom
    · rw [← hsame, hnew] at hroom
      omega
    · rwa [hb', hsame] at hchain
  · obtain ⟨hcaddr, hcstop⟩ := hchain.stops_of_pair
    have hcfree : c.free = true := hrest c (by simp)
    simp only [Block.stop, haddr] at hcaddr hcstop
    split_ifs at hnew ⊢ with hroom
    · have hc : c = ⟨b.addr + sizeofHeapBlock + size, b.size - size - sizeofHeapBlock, true⟩ := by
        obtain ⟨addr, csize, free⟩ := c
        dsimp only at hcaddr hcstop hcfree
        rw [hnew] at hcaddr
        have hplace : addr = b.addr + sizeofHeapBlock + size := by
          simp only [sizeofHeapBlock]
          bv_omega
        have hleft : csize = b.size - size - sizeofHeapBlock := by
          simp only [sizeofHeapBlock]
          bv_omega
        rw [hplace, hleft, hcfree]
      rwa [hb', hnew, hc] at hchain
    · rw [hnew] at hcaddr
      omega

/-- `cutPadding` makes of a block what `cutAligned` makes of it. -/
theorem cutPadding_cutAligned {aligned padding : Word} (h : Chain m p start [b] q stop)
    (hstart : 4096 ≤ start) (hfit : stop ≤ 2 ^ 64)
    (haligned : aligned.toNat = b.addr.toNat + 24 + padding.toNat)
    (hpad : padding = 0 ∨ 40 ≤ padding.toNat) (hsize : padding.toNat ≤ b.size.toNat) :
    (cutPadding m b.addr aligned padding).1 = (b.cutAligned aligned padding).2.addr ∧
      Chain (cutPadding m b.addr aligned padding).2 p start
        ((b.cutAligned aligned padding).1 ++ [(b.cutAligned aligned padding).2]) q stop ∧
      Set.EqOn (cutPadding m b.addr aligned padding).2 m (between start stop)ᶜ := by
  obtain ⟨front, target, htarget, hchain, hpayload, hused, htsize, hfront, hshort, heq⟩ :=
    cutPadding_spec aligned padding h hstart hfit haligned hpad hsize
  have hb : b.addr.toNat = start := h.2.1
  have htaddr : target.addr = aligned - sizeofHeapBlock := by
    rw [← hpayload, Block.payload_sub]
  have hplace : target.addr.toNat = b.addr.toNat + padding.toNat := by
    rw [htaddr]
    simp only [sizeofHeapBlock]
    bv_omega
  have ht : target = ⟨target.addr, b.size - padding, false⟩ := by
    obtain ⟨addr, tsize, free⟩ := target
    have hleft : tsize = b.size - padding := by
      dsimp only at htsize
      bv_omega
    rw [hleft, ← hused]
  have hblocks : b.cutAligned aligned padding = (front, target) := by
    rw [Block.cutAligned]
    rcases eq_nil_or_singleton hshort with rfl | ⟨c, rfl⟩
    · have hzero : padding = 0 := by
        have hfirst : target.addr.toNat = start := hchain.2.1
        rcases hpad with hzero | hlarge
        · exact hzero
        · omega
      rw [if_pos hzero, ht]
      have hsame : target.addr = b.addr := by
        rw [hzero] at hplace
        bv_omega
      rw [hsame, hzero, show b.size - 0 = b.size from BitVec.sub_zero _]
    · obtain ⟨hcaddr, hcstop⟩ := hchain.stops_of_pair
      have hfirst : c.addr.toNat = start := hchain.2.1
      have hcfree : c.free = true := hfront c (by simp)
      simp only [Block.stop] at hcaddr
      have hne : padding ≠ 0 := by
        rintro rfl
        have hzero : (0 : Word).toNat = 0 := rfl
        omega
      obtain ⟨addr, csize, free⟩ := c
      dsimp only at hcaddr hfirst hcfree
      have haddr : addr = b.addr := by bv_omega
      have hcsize : csize = padding - sizeofHeapBlock := by
        simp only [sizeofHeapBlock]
        bv_omega
      rw [if_neg hne, haddr, hcsize, hcfree, ← htaddr, ← ht]
  rw [hblocks]
  exact ⟨htarget, hchain, heq⟩

/-! ### One call -/

variable {place : Memory → Word → Option (Word × Memory)}
  {place' : Block → Option (Word × List Block)}

/-- The loop in memory and the loop on the list come to the same block. -/
theorem firstFit_takeFirst (h : r.Blocks m bs)
    (hplace : ∀ pre b post, bs = pre ++ b :: post →
      (place' b = none → place m b.addr = none) ∧
        ∀ ptr new, place' b = some (ptr, new) →
          ∃ m', place m b.addr = some (ptr, m') ∧ r.Blocks m' (pre ++ new ++ post)) :
    ∃ m', firstFit place walkFuel m r.head = some ((takeFirst place' bs).1, m') ∧
      r.Blocks m' (takeFirst place' bs).2 := by
  have hlen : bs.length < walkFuel := by
    have := h.length_lt
    omega
  have hwalk (pre : List Block) (rest : List Block) (hpre : ∀ b ∈ pre, place' b = none)
      (hsplit : bs = pre ++ rest) : takeFirst place' bs =
        ((takeFirst place' rest).1, pre ++ (takeFirst place' rest).2) := by
    subst hsplit
    clear h hplace hlen
    induction pre with
    | nil => rfl
    | cons b pre ih =>
        rw [List.cons_append, takeFirst, hpre b List.mem_cons_self]
        dsimp only
        rw [ih fun c hc => hpre c (List.mem_cons_of_mem b hc)]
        rfl
  have hnone (b : Block) (hb : b ∈ bs) : place m b.addr = none ↔ place' b = none := by
    obtain ⟨pre, post, hsplit⟩ := List.append_of_mem hb
    obtain ⟨hskip, htake⟩ := hplace pre b post hsplit
    refine ⟨fun hm => ?_, hskip⟩
    cases hb' : place' b with
    | none => rfl
    | some found =>
        obtain ⟨m', hsome, -⟩ := htake found.1 found.2 hb'
        rw [hm] at hsome
        cases hsome
  rcases firstFit_spec place walkFuel h r.low hlen with
    ⟨hnull, hall⟩ | ⟨pre, b, post, ⟨ptr, m'⟩, hsplit, hpre, hb, hfit⟩
  · have hlist := hwalk bs [] (fun b hb => (hnone b hb).mp (hall b hb)) (by simp)
    rw [hlist]
    exact ⟨m, hnull, by simpa [takeFirst] using h⟩
  · have hlist := hwalk pre (b :: post)
      (fun c hc => (hnone c (by simp [hsplit, hc])).mp (hpre c hc)) hsplit
    have hne : place' b ≠ none := by
      rw [ne_eq, ← hnone b (by simp [hsplit]), hb]
      exact fun h => by cases h
    obtain ⟨⟨ptr', new⟩, hsome⟩ := Option.ne_none_iff_exists'.mp hne
    obtain ⟨m'', hresult, hblocks⟩ := (hplace pre b post hsplit).2 ptr' new hsome
    rw [hb, Option.some.injEq, Prod.mk.injEq] at hresult
    obtain ⟨rfl, rfl⟩ := hresult
    rw [hlist, takeFirst, hsome]
    exact ⟨m', hfit, by simpa using hblocks⟩

/-- The mark goes to the first of the two blocks. -/
theorem Block.cut_marked (b : Block) (size : Word) (free : Bool) : ∃ first rest,
    b.cut size = first :: rest ∧ first.addr = b.addr ∧
      Block.cut { b with free := free } size = { first with free := free } :: rest := by
  rw [Block.cut, Block.cut]
  split_ifs
  · exact ⟨_, _, rfl, rfl, rfl⟩
  · exact ⟨_, _, rfl, rfl, rfl⟩

theorem mallocPlace_take {pre post : List Block} (h : r.Blocks m (pre ++ b :: post)) :
    (b.take size = none → mallocPlace size m b.addr = none) ∧
      ∀ ptr new, b.take size = some (ptr, new) →
        ∃ m', mallocPlace size m b.addr = some (ptr, m') ∧ r.Blocks m' (pre ++ new ++ post) := by
  have hmem : b ∈ pre ++ b :: post := by simp
  rw [Block.take, mallocPlace, (h.load hmem).1, (h.load hmem).2]
  by_cases hfits : b.free = true ∧ size ≤ b.size
  · rw [if_pos hfits, if_pos hfits]
    refine ⟨fun hnone => absurd hnone (Option.some_ne_none _), fun ptr new hsome => ?_⟩
    rw [Option.some.injEq, Prod.mk.injEq] at hsome
    obtain ⟨rfl, rfl⟩ := hsome
    obtain ⟨t, u, hpre, hb, hpost⟩ := Chain.split_at h
    have hlow := (Chain.bounds h hmem).1
    have hend := hpost.start_le
    have hhigh := r.high
    have hregion := r.low
    have hstop : b.addr.toNat + 24 ≤ b.stop := by
      simp only [Block.stop]
      omega
    obtain ⟨hcut, heqCut⟩ := splitBlock_cut hb (by omega) (by omega) (BitVec.le_def.mp hfits.2)
    obtain ⟨first, rest, hfirst, haddr, hmarked⟩ := b.cut_marked size false
    rw [hfirst] at hcut
    obtain ⟨hmark, heqMark⟩ := hcut.setBlockFree (by omega) false
    rw [haddr] at hmark heqMark hmarked
    refine ⟨_, rfl, ?_⟩
    rw [hmarked]
    exact hpre.replace hpost hmark (by omega)
      ((eqOn_between_compl heqMark le_rfl hstop).trans heqCut)
  · rw [if_neg hfits, if_neg hfits]
    exact ⟨fun _ => rfl, fun _ _ hsome => absurd hsome.symm (Option.some_ne_none _)⟩

theorem pagePlace_takeAligned {pre post : List Block} (h : r.Blocks m (pre ++ b :: post))
    (hbound : size.toNat + 8192 ≤ 2 ^ 64) :
    (b.takeAligned size = none → pagePlace size m b.addr = none) ∧
      ∀ ptr new, b.takeAligned size = some (ptr, new) →
        ∃ m', pagePlace size m b.addr = some (ptr, m') ∧ r.Blocks m' (pre ++ new ++ post) := by
  have hmem : b ∈ pre ++ b :: post := by simp
  have hneed : pagePlace size m b.addr =
      if b.free = true ∧ pageNeed b size ≤ b.size then
        some ((alignPayload b.payload).1,
          splitBlock (cutPadding m b.addr (alignPayload b.payload).1 (alignPayload b.payload).2).2
            (cutPadding m b.addr (alignPayload b.payload).1 (alignPayload b.payload).2).1 size)
      else none := by
    rw [pagePlace, (h.load hmem).1, (h.load hmem).2, pageNeed, Block.payload]
    by_cases hfree : b.free = true
    · simp only [hfree, if_true, true_and]
    · simp only [hfree, false_and, if_false, Bool.false_eq_true]
  rw [Block.takeAligned, hneed]
  by_cases hfits : b.free = true ∧ pageNeed b size ≤ b.size
  · rw [if_pos hfits, if_pos hfits]
    refine ⟨fun hnone => absurd hnone (Option.some_ne_none _), fun ptr new hsome => ?_⟩
    obtain ⟨t, u, hpre, hb, hpost⟩ := Chain.split_at h
    have hlow := (Chain.bounds h hmem).1
    have hend := hpost.start_le
    have hhigh := r.high
    have hregion := r.low
    have hpayload : b.payload.toNat = b.addr.toNat + 24 := h.payload_toNat hmem
    have hstop : b.addr.toNat + 24 + b.size.toNat = b.stop := rfl
    obtain ⟨-, haligned, hpad, hpadlt⟩ := alignPayload_spec b.payload (by omega)
    have hroom : size.toNat + (alignPayload b.payload).2.toNat ≤ b.size.toNat := by
      have hle := BitVec.le_def.mp hfits.2
      rwa [pageNeed, toNat_add_of_lt (by omega)] at hle
    generalize alignPayload b.payload = place at *
    obtain ⟨aligned, padding⟩ := place
    dsimp only at hsome haligned hpad hpadlt hroom ⊢
    rw [hpayload] at haligned
    rw [Option.some.injEq, Prod.mk.injEq] at hsome
    obtain ⟨rfl, rfl⟩ := hsome
    obtain ⟨htarget, hcut, heqCut⟩ :=
      cutPadding_cutAligned hb (by omega) (by omega) haligned hpad (by omega)
    rw [htarget]
    have htsize : (b.cutAligned aligned padding).2.size.toNat =
        b.size.toNat - padding.toNat := by
      rw [Block.cutAligned]
      split_ifs with hzero
      · rw [hzero]
        rfl
      · change (b.size - padding).toNat = _
        bv_omega
    generalize b.cutAligned aligned padding = cut at *
    obtain ⟨front, target⟩ := cut
    dsimp only at hcut htsize ⊢
    obtain ⟨v, mid, hfront, htchain⟩ := chain_append.mp hcut
    have hmid := hfront.start_le
    obtain ⟨hsplit, heqSplit⟩ := splitBlock_cut htchain (by omega) (by omega)
      (by omega : size.toNat ≤ target.size.toNat)
    refine ⟨_, rfl, hpre.replace hpost ?_ (by omega) ((heqSplit.mono ?_).trans heqCut)⟩
    · have hnil : Chain (cutPadding m b.addr aligned padding).2 u b.stop [] u b.stop :=
        ⟨rfl, rfl⟩
      simpa using hfront.replace hnil hsplit (by omega) heqSplit
    · intro x hx hx'
      rw [mem_between] at hx'
      exact hx ⟨by omega, hx'.2⟩
  · rw [if_neg hfits, if_neg hfits]
    exact ⟨fun _ => rfl, fun _ _ hsome => absurd hsome.symm (Option.some_ne_none _)⟩

/-- The blocks in memory and the live pointers are those of the list. -/
structure HeapState.Shows (r : HeapRegion) (s : HeapState) (a : BlockHeap) : Prop where
  tiled : s.Tiled r a.blocks
  live : s.live = a.live

/-- The call returns, and does to memory what it does to the list. -/
def HeapState.Follows (r : HeapRegion) (s : HeapState) (a : BlockHeap) (c : HeapCall) : Prop :=
  ∃ s', s.call r.head c = some s' ∧ s'.Shows r (a.call c)

variable {s s' : HeapState} {a : BlockHeap} {c : HeapCall}

/-- The blocks and the pointers of a call are right when its blocks are. -/
theorem HeapState.Shows.follows (h : s.Shows r a) (hallows : s.Allows c)
    (hcall : s.call r.head c = some s') (hblocks : r.Blocks s'.mem (a.call c).blocks)
    (hlive : s'.live = (a.call c).live) : s.Follows r a c := by
  obtain ⟨s'', bs, hkeeps, htiled, -⟩ := call_keeps h.tiled hallows
  rw [hcall, Option.some.injEq] at hkeeps
  subst hkeeps
  refine ⟨s', hcall, ⟨?_, hlive⟩⟩
  rwa [hblocks.unique htiled.blocks]

theorem HeapState.Shows.handOut_live (h : s.Shows r a) (result : Word × List Block) (m : Memory) :
    (s.handOut (result.1, m)).live = (a.handOut result).live := by
  rw [HeapState.handOut, BlockHeap.handOut, h.live]

theorem malloc?_takeFirst (h : r.Blocks m bs) (hsize : size ≠ 0) :
    ∃ m', malloc? r.head m size = some ((takeFirst (·.take (roundUp8 size)) bs).1, m') ∧
      r.Blocks m' (takeFirst (·.take (roundUp8 size)) bs).2 := by
  rw [malloc?, if_neg hsize]
  refine firstFit_takeFirst h fun pre b post hsplit => ?_
  exact mallocPlace_take (hsplit ▸ h)

theorem HeapState.Shows.malloc (h : s.Shows r a) (size : Word) :
    s.Follows r a (.malloc size) := by
  by_cases hzero : size = 0
  · have hcall : s.call r.head (.malloc size) = some s := by
      rw [HeapState.call, malloc?, if_pos hzero]
      rfl
    have hlist : a.call (.malloc size) = a := if_pos hzero
    exact ⟨s, hcall, by rwa [hlist]⟩
  · obtain ⟨m', hrun, hblocks⟩ := malloc?_takeFirst h.tiled.blocks hzero
    have hcall : s.call r.head (.malloc size) =
        some (s.handOut ((takeFirst (·.take (roundUp8 size)) a.blocks).1, m')) := by
      rw [HeapState.call, hrun]
      rfl
    have hlist : a.call (.malloc size) =
        a.handOut (takeFirst (·.take (roundUp8 size)) a.blocks) := if_neg hzero
    refine h.follows trivial hcall ?_ ?_
    · rw [hlist]
      exact hblocks
    · rw [hlist]
      exact h.handOut_live _ m'

/-- Clearing the payload of the new block changes no header. -/
theorem HeapState.Shows.calloc (h : s.Shows r a) {num size : Word}
    (hallows : s.Allows (.calloc num size)) : s.Follows r a (.calloc num size) := by
  have hlt : num.toNat * size.toNat < 2 ^ 63 := hallows
  have htotal : (num * size).toNat = num.toNat * size.toNat := by
    rw [BitVec.toNat_mul, Nat.mod_eq_of_lt (by omega)]
  by_cases hzero : num * size = 0
  · have hcall : s.call r.head (.calloc num size) = some s := by
      rw [HeapState.call, calloc?, hzero, malloc?, if_pos rfl]
      rfl
    have hlist : a.call (.calloc num size) = a := if_pos hzero
    exact ⟨s, hcall, by rwa [hlist]⟩
  · obtain ⟨m', hrun, hblocks⟩ := malloc?_takeFirst h.tiled.blocks hzero
    have hlist : a.call (.calloc num size) =
        a.handOut (takeFirst (·.take (roundUp8 (num * size))) a.blocks) := if_neg hzero
    rcases malloc?_spec h.tiled.blocks (num * size) with hnull | ⟨ptr, m'', k, hrun', hk, hholds⟩
    · rw [hrun, Option.some.injEq, Prod.mk.injEq] at hnull
      obtain ⟨hptr, rfl⟩ := hnull
      have hcall : s.call r.head (.calloc num size) =
          some (s.handOut ((takeFirst (·.take (roundUp8 (num * size))) a.blocks).1, s.mem)) := by
        rw [HeapState.call, calloc?]
        dsimp only
        rw [hrun, hptr]
        rfl
      refine h.follows hallows hcall ?_ ?_
      · rw [hlist]
        exact hblocks
      · rw [hlist]
        exact h.handOut_live _ _
    · rw [hrun, Option.some.injEq, Prod.mk.injEq] at hrun'
      obtain ⟨hptr, rfl⟩ := hrun'
      have hne := hholds.ptr_ne_zero
      have hround := toNat_roundUp8_of_lt (n := num * size) (by omega)
      have hcall : s.call r.head (.calloc num size) =
          some (s.handOut ((takeFirst (·.take (roundUp8 (num * size))) a.blocks).1,
            m'.fill ptr (num * size).toNat 0)) := by
        rw [HeapState.call, calloc?]
        dsimp only
        rw [hrun, hptr, Option.map_some, Option.map_some, if_pos hne]
      refine h.follows hallows hcall ?_ ?_
      · have hafter := (hholds.fill hround 0).1
        rw [hholds.after.unique hblocks] at hafter
        rw [hlist]
        exact hafter
      · rw [hlist]
        exact h.handOut_live _ _

theorem HeapState.Shows.pageAlloc (h : s.Shows r a) {pages : Word}
    (hallows : s.Allows (.pageAlloc pages)) : s.Follows r a (.pageAlloc pages) := by
  have hlt : 4096 * pages.toNat < 2 ^ 63 := hallows
  have hsize : (4096 * pages).toNat = 4096 * pages.toNat := by bv_omega
  obtain ⟨m', hrun, hblocks⟩ := firstFit_takeFirst h.tiled.blocks fun pre b post hsplit =>
    pagePlace_takeAligned (hsplit ▸ h.tiled.blocks) (by omega : (4096 * pages).toNat + 8192 ≤ 2 ^ 64)
  have hcall : s.call r.head (.pageAlloc pages) =
      some (s.handOut ((takeFirst (·.takeAligned (4096 * pages)) a.blocks).1, m')) := by
    rw [HeapState.call, pageAlloc?, hrun]
    rfl
  exact h.follows hallows hcall hblocks (h.handOut_live _ m')

/-- Each payload belongs to one block. -/
theorem HeapRegion.Blocks.release_eq {pre post : List Block} (h : r.Blocks m (pre ++ b :: post)) :
    BlockHeap.release b.payload (pre ++ b :: post) = pre ++ { b with free := true } :: post := by
  have hnodup : (pre ++ b :: post).Nodup := List.Nodup.of_map _ (Chain.nodup h)
  have hother (c : Block) (hc : c ∈ pre ++ b :: post) (hne : c ≠ b) :
      (if c.payload = b.payload then { c with free := true } else c) = c :=
    if_neg fun heq => hne (h.payload_injOn hc (by simp) heq)
  have hkeep (cs : List Block) (hcs : ∀ c ∈ cs, c ∈ pre ++ b :: post ∧ c ≠ b) :
      cs.map (fun c => if c.payload = b.payload then { c with free := true } else c) = cs := by
    refine (List.map_congr_left fun c hc => hother c (hcs c hc).1 (hcs c hc).2).trans ?_
    exact List.map_id cs
  rw [BlockHeap.release, List.map_append, List.map_cons, if_pos rfl]
  rw [List.nodup_append, List.nodup_cons] at hnodup
  obtain ⟨-, ⟨hbpost, -⟩, happart⟩ := hnodup
  rw [hkeep pre fun c hc => ⟨by simp [hc], happart c hc b (by simp)⟩,
    hkeep post fun c hc => ⟨by simp [hc], fun heq => hbpost (heq ▸ hc)⟩]

theorem HeapState.Shows.free (h : s.Shows r a) {ptr : Word} (hallows : s.Allows (.free ptr)) :
    s.Follows r a (.free ptr) := by
  by_cases hzero : ptr = 0
  · subst hzero
    have hnot : (0 : Word) ∉ s.live := by
      intro hmem
      obtain ⟨b, hb, hpayload⟩ := h.tiled.exists_of_live hmem
      exact h.tiled.blocks.payload_ne_zero (mem_allocated.mp hb).1 hpayload
    have hcall : s.call r.head (.free 0) = some s := by
      rw [HeapState.call, free?, if_pos rfl, Option.map_some, List.erase_of_not_mem hnot]
    have hlist : a.call (.free 0) = a := by
      rw [BlockHeap.call, if_pos rfl]
    exact ⟨s, hcall, by rwa [hlist]⟩
  · obtain ⟨b, hb, rfl⟩ := h.tiled.exists_of_live (Or.resolve_left hallows hzero)
    obtain ⟨pre, post, hsplit⟩ := List.append_of_mem (mem_allocated.mp hb).1
    have hblocks := h.tiled.blocks
    rw [hsplit] at hblocks
    obtain ⟨m', hrun, hafter, -⟩ := free?_spec hblocks
    have hcall : s.call r.head (.free b.payload) = some ⟨m', s.live.erase b.payload⟩ := by
      rw [HeapState.call, hrun]
      rfl
    have hlist : a.call (.free b.payload) =
        ⟨mergeFree (BlockHeap.release b.payload a.blocks), a.live.erase b.payload⟩ := if_neg hzero
    refine h.follows hallows hcall ?_ ?_
    · rw [hlist, hsplit, hblocks.release_eq]
      exact hafter
    · rw [hlist, h.live]

theorem HeapState.Shows.call (h : s.Shows r a) (hallows : s.Allows c) : s.Follows r a c := by
  cases c with
  | malloc size => exact h.malloc size
  | calloc num size => exact h.calloc hallows
  | pageAlloc pages => exact h.pageAlloc hallows
  | free ptr => exact h.free hallows

/-! ### Runs -/

/-- A run of calls.  Between them the owner of a live pointer may write to the bytes behind it. -/
inductive HeapRuns (r : HeapRegion) : HeapState → List HeapCall → HeapState → Prop
  | nil (s : HeapState) : HeapRuns r s [] s
  | call {s s' t : HeapState} {c : HeapCall} {cs : List HeapCall} (hallows : s.Allows c)
      (hcall : s.call r.head c = some s') (hrest : HeapRuns r s' cs t) : HeapRuns r s (c :: cs) t
  | store {s t : HeapState} {cs : List HeapCall} {ptr x : Word} (hptr : ptr ∈ s.live)
      (hx : x ∈ span ptr (blockSize s.mem (ptr - sizeofHeapBlock)).toNat) (v : Byte)
      (hrest : HeapRuns r ⟨s.mem.write8 x v, s.live⟩ cs t) : HeapRuns r s cs t

theorem HeapRuns.shows {cs : List HeapCall} (hrun : HeapRuns r s cs s') (h : s.Shows r a) :
    s'.Shows r (cs.foldl BlockHeap.call a) := by
  induction hrun generalizing a with
  | nil s => exact h
  | call hallows hcall hrest ih =>
      obtain ⟨s₁, hfollows, hshows⟩ := h.call hallows
      rw [hcall, Option.some.injEq] at hfollows
      subst hfollows
      exact ih hshows
  | store hptr hx v hrest ih => exact ih ⟨h.tiled.store hptr hx v, h.live⟩

/-- The heap in memory refines the first-fit allocator on lists: after any run the blocks and
the pointers handed out are what the calls make of one free block, whatever memory held and
whatever was written behind the pointers; and every call that is allowed next returns. -/
theorem heapRuns_firstFit {r : HeapRegion} {m : Memory} {cs : List HeapCall} {s : HeapState}
    (hrun : HeapRuns r ⟨initHead m r.head r.size, []⟩ cs s) :
    r.Blocks s.mem (cs.foldl BlockHeap.call (BlockHeap.init r)).blocks ∧
      s.live = (cs.foldl BlockHeap.call (BlockHeap.init r)).live ∧
      ∀ c, s.Allows c → ∃ s', s.call r.head c = some s' := by
  have hshows := hrun.shows (a := BlockHeap.init r) ⟨initHead_tiled r m, rfl⟩
  refine ⟨hshows.tiled.blocks, hshows.live, fun c hallows => ?_⟩
  obtain ⟨s', hcall, -⟩ := hshows.call hallows
  exact ⟨s', hcall⟩

/-- Three calls on the sample region: the page lies at the first aligned place that leaves room
for a block in front of it, and the block of `malloc` joins that one when it is freed. -/
theorem heapRuns_firstFit_sample : ∃ s,
    HeapRuns sampleRegion ⟨initHead (fun _ => 0xee) sampleRegion.head sampleRegion.size, []⟩
      [.malloc 24, .pageAlloc 1, .free 0xffff800000100018] s ∧
    s.live = [0xffff800000101000] ∧
    sampleRegion.Blocks s.mem [⟨0xffff800000100000, 4048, true⟩,
      ⟨0xffff800000100fe8, 4096, false⟩, ⟨0xffff800000102000, 57320, true⟩] := by
  have hstart : HeapState.Shows sampleRegion
      ⟨initHead (fun _ => 0xee) sampleRegion.head sampleRegion.size, []⟩
      (BlockHeap.init sampleRegion) := ⟨initHead_tiled sampleRegion _, rfl⟩
  obtain ⟨s₁, hcall₁, h₁⟩ := hstart.call (c := .malloc 24) trivial
  have hpages : s₁.Allows (.pageAlloc 1) := (by decide : 4096 * (1 : Word).toNat < 2 ^ 63)
  obtain ⟨s₂, hcall₂, h₂⟩ := h₁.call hpages
  have hlive : (0xffff800000100018 : Word) ∈ s₂.live := by
    rw [h₂.live]
    decide
  have hfree : s₂.Allows (.free 0xffff800000100018) := Or.inr hlive
  obtain ⟨s₃, hcall₃, -⟩ := h₂.call hfree
  have hrun := HeapRuns.call (c := .malloc 24) trivial hcall₁
    (HeapRuns.call hpages hcall₂ (HeapRuns.call hfree hcall₃ (HeapRuns.nil s₃)))
  obtain ⟨hblocks, hpointers, -⟩ := heapRuns_firstFit hrun
  have hlist : [HeapCall.malloc 24, .pageAlloc 1, .free 0xffff800000100018].foldl BlockHeap.call
      (BlockHeap.init sampleRegion) = ⟨[⟨0xffff800000100000, 4048, true⟩,
        ⟨0xffff800000100fe8, 4096, false⟩, ⟨0xffff800000102000, 57320, true⟩],
        [0xffff800000101000]⟩ := by
    decide +kernel
  rw [hlist] at hblocks hpointers
  exact ⟨s₃, hrun, hpointers, hblocks⟩

/-! ### The list is a function of the blocks in use -/

theorem mem_of_allocated_perm {c : Block} (hperm : (allocated bs).Perm (allocated bs'))
    (hc : c ∈ bs) (hused : c.free = false) : c ∈ bs' :=
  (mem_allocated.mp (hperm.mem_iff.mp (mem_allocated.mpr ⟨hc, hused⟩))).1

/-- In a coalesced chain the block behind a free block is in use. -/
theorem used_of_coalesced {c : Block} (hpairs : Coalesced (b :: c :: bs)) (hb : b.free = true) :
    c.free = false := by
  have hpair := (List.isChain_cons_cons.mp hpairs).1
  rw [Bool.eq_false_iff]
  exact fun hc => hpair ⟨hb, hc⟩

theorem Chain.head_addr {q' : Word} (h : Chain m p start (b :: bs) q' stop) :
    b.addr.toNat = start := h.2.1

theorem Chain.tail {q' : Word} (h : Chain m p start (b :: bs) q' stop) :
    ∃ next, Chain m next b.stop bs q' stop := by
  obtain ⟨-, -, next, -, htail⟩ := h
  exact ⟨next, htail⟩

theorem Chain.stop_le {q' : Word} {c : Block} (h : Chain m p start (b :: bs) q' stop)
    (hc : c ∈ bs) : b.stop ≤ c.addr.toNat := by
  obtain ⟨next, htail⟩ := h.tail
  exact (Chain.bounds htail hc).1

/-- A free block reaches as far as the next block in use lets it. -/
theorem Chain.free_stop_le {p' q' : Word} {c : Block} {cs : List Block}
    (h : Chain m p start (b :: bs) q stop) (h' : Chain m' p' start (c :: cs) q' stop)
    (hb : b.free = true) (hc : c.free = true) (hpairs' : Coalesced (c :: cs))
    (hperm : (allocated (c :: cs)).Perm (allocated (b :: bs))) : b.stop ≤ c.stop := by
  cases cs with
  | nil =>
      rw [h'.stop_of_singleton]
      exact (Chain.bounds h List.mem_cons_self).2
  | cons d ds =>
      have hd := used_of_coalesced hpairs' hc
      have hmem : d ∈ b :: bs := mem_of_allocated_perm hperm (by simp) hd
      obtain ⟨next, htail⟩ := h'.tail
      have hnext : d.addr.toNat = c.stop := htail.head_addr
      rcases List.mem_cons.mp hmem with rfl | hmem
      · rw [hb] at hd
        cases hd
      · rw [← hnext]
        exact h.stop_le hmem

/-- A block in use at the start of one chain is the start of the other. -/
theorem Chain.head_eq {p' q' : Word} {c : Block} {cs : List Block}
    (h : Chain m p start (b :: bs) q stop) (h' : Chain m' p' start (c :: cs) q' stop)
    (hb : b.free = false) (hperm : (allocated (b :: bs)).Perm (allocated (c :: cs))) : b = c := by
  have hmem : b ∈ c :: cs := mem_of_allocated_perm hperm List.mem_cons_self hb
  rcases List.mem_cons.mp hmem with heq | hmem
  · exact heq
  · have hle := h'.stop_le hmem
    have haddr := h.head_addr
    have haddr' := h'.head_addr
    simp only [Block.stop] at hle
    omega

/-- Two coalesced chains over the same place with the same blocks in use are the same. -/
theorem chain_eq_of_allocated {p' q' : Word} (h : Chain m p start bs q stop)
    (h' : Chain m' p' start bs' q' stop) (hpairs : Coalesced bs) (hpairs' : Coalesced bs')
    (hperm : (allocated bs).Perm (allocated bs')) : bs = bs' := by
  induction bs generalizing p p' start bs' with
  | nil =>
      cases bs' with
      | nil => rfl
      | cons c cs =>
          have hempty : start = stop := h.2
          have hroom := h'.length_le
          simp only [List.length_cons] at hroom
          omega
  | cons b bs ih =>
      cases bs' with
      | nil =>
          have hempty : start = stop := h'.2
          have hroom := h.length_le
          simp only [List.length_cons] at hroom
          omega
      | cons c cs =>
          have hbc : b = c := by
            cases hb : b.free with
            | false => exact h.head_eq h' hb hperm
            | true =>
                cases hc : c.free with
                | false => exact (h'.head_eq h hc hperm.symm).symm
                | true =>
                    have hle := h.free_stop_le h' hb hc hpairs' hperm.symm
                    have hge := h'.free_stop_le h hc hb hpairs hperm
                    have haddr := h.head_addr
                    have haddr' := h'.head_addr
                    obtain ⟨baddr, bsize, bfree⟩ := b
                    obtain ⟨caddr, csize, cfree⟩ := c
                    simp only [Block.stop] at hle hge
                    dsimp only at haddr haddr' hb hc
                    rw [Block.mk.injEq]
                    exact ⟨by bv_omega, by bv_omega, hb.trans hc.symm⟩
          subst hbc
          obtain ⟨next, htail⟩ := h.tail
          obtain ⟨next', htail'⟩ := h'.tail
          have hrest : (allocated bs).Perm (allocated cs) := by
            cases hb : b.free with
            | false =>
                simp only [allocated, List.filter_cons, hb, Bool.not_false, if_true] at hperm ⊢
                exact hperm.cons_inv
            | true =>
                simp only [allocated, List.filter_cons, hb, Bool.not_true, Bool.false_eq_true,
                  if_false] at hperm ⊢
                exact hperm
          rw [ih htail htail' (List.isChain_cons.mp hpairs).2 (List.isChain_cons.mp hpairs').2 hrest]

/-! ### The order of frees -/

/-- The calls that free the pointers of a list, one by one. -/
def frees (ptrs : List Word) : List HeapCall := ptrs.map HeapCall.free

theorem allocated_release (ptr : Word) (bs : List Block) :
    allocated (mergeFree (BlockHeap.release ptr bs)) =
      (allocated bs).filter fun b => b.payload ≠ ptr := by
  rw [allocated_mergeFree, BlockHeap.release]
  induction bs with
  | nil => rfl
  | cons b bs ih =>
      simp only [allocated, List.map_cons, List.filter_cons] at ih ⊢
      by_cases hptr : b.payload = ptr
      · cases hb : b.free <;> simp [hptr, ih]
      · cases hb : b.free <;> simp [hptr, hb, ih]

/-- What stays in use are the blocks whose pointers were not freed. -/
theorem allocated_foldl_frees {ptrs : List Word} (hne : (0 : Word) ∉ ptrs) (a : BlockHeap) :
    allocated ((frees ptrs).foldl BlockHeap.call a).blocks =
      (allocated a.blocks).filter fun b => b.payload ∉ ptrs := by
  induction ptrs generalizing a with
  | nil => simp [frees]
  | cons ptr ptrs ih =>
      rw [List.mem_cons, not_or] at hne
      have hcall : a.call (.free ptr) =
          ⟨mergeFree (BlockHeap.release ptr a.blocks), a.live.erase ptr⟩ := if_neg (Ne.symm hne.1)
      rw [frees, List.map_cons, List.foldl_cons, hcall]
      have hrest := ih hne.2 ⟨mergeFree (BlockHeap.release ptr a.blocks), a.live.erase ptr⟩
      rw [frees] at hrest
      rw [hrest, allocated_release, List.filter_filter]
      refine List.filter_congr fun b hb => ?_
      simp [Bool.and_comm]

theorem HeapRuns.reachable {cs : List HeapCall} (hrun : HeapRuns r s cs s')
    (h : HeapReachable r s) : HeapReachable r s' := by
  induction hrun with
  | nil s => exact h
  | call hallows hcall hrest ih => exact ih (h.call hallows hcall)
  | store hptr hx v hrest ih => exact ih (h.store hptr hx v)

/-- In two reachable states with the same blocks in use the lists are the same. -/
theorem HeapReachable.blocks_eq (h : HeapReachable r s) (h' : HeapReachable r s')
    (hbs : r.Blocks s.mem bs) (hbs' : r.Blocks s'.mem bs')
    (hperm : (allocated bs).Perm (allocated bs')) : bs = bs' :=
  chain_eq_of_allocated hbs hbs' (h.coalesced hbs) (h'.coalesced hbs') hperm

/-- Live pointers can be freed one after the other. -/
theorem HeapState.Shows.frees (h : s.Shows r a) {ptrs : List Word}
    (hlive : ∀ ptr ∈ ptrs, ptr ∈ s.live) (hnodup : ptrs.Nodup) :
    ∃ s', HeapRuns r s (frees ptrs) s' := by
  induction ptrs generalizing s a with
  | nil => exact ⟨s, HeapRuns.nil s⟩
  | cons ptr ptrs ih =>
      have hallows : s.Allows (.free ptr) := Or.inr (hlive ptr List.mem_cons_self)
      obtain ⟨s₁, hcall, h₁⟩ := h.call hallows
      have hrest : ∀ p ∈ ptrs, p ∈ s₁.live := by
        intro p hp
        have hne : p ≠ ptr := fun heq => (List.nodup_cons.mp hnodup).1 (heq ▸ hp)
        obtain ⟨m', -, rfl⟩ := Option.map_eq_some_iff.mp hcall
        exact (List.mem_erase_of_ne hne).mpr (hlive p (List.mem_cons_of_mem ptr hp))
      obtain ⟨s', hrun⟩ := ih h₁ hrest (List.nodup_cons.mp hnodup).2
      exact ⟨s', HeapRuns.call hallows hcall hrun⟩

/-- Live pointers can be freed in any order, and the order does not show in the list: what
stays in use are the other blocks, and the free space between them is the same. -/
theorem heapRuns_frees_perm {r : HeapRegion} {s : HeapState} (h : HeapReachable r s)
    {ptrs ptrs' : List Word} (hlive : ∀ ptr ∈ ptrs, ptr ∈ s.live) (hnodup : ptrs.Nodup)
    (hperm : ptrs.Perm ptrs') :
    (∃ t, HeapRuns r s (frees ptrs) t) ∧ (∃ t, HeapRuns r s (frees ptrs') t) ∧
      ∀ t t' bs bs₁ bs₂, HeapRuns r s (frees ptrs) t → HeapRuns r s (frees ptrs') t' →
        r.Blocks s.mem bs → r.Blocks t.mem bs₁ → r.Blocks t'.mem bs₂ →
          bs₁ = bs₂ ∧ allocated bs₁ = (allocated bs).filter fun b => b.payload ∉ ptrs := by
  obtain ⟨bs, htiled⟩ := h.tiled
  have hshows : s.Shows r ⟨bs, s.live⟩ := ⟨htiled, rfl⟩
  have hlive' : ∀ ptr ∈ ptrs', ptr ∈ s.live := fun ptr hptr => hlive ptr (hperm.mem_iff.mpr hptr)
  have hzero : (0 : Word) ∉ ptrs := by
    intro hmem
    obtain ⟨b, hb, hpayload⟩ := htiled.exists_of_live (hlive 0 hmem)
    exact htiled.blocks.payload_ne_zero (mem_allocated.mp hb).1 hpayload
  refine ⟨hshows.frees hlive hnodup, hshows.frees hlive' (hperm.nodup_iff.mp hnodup), ?_⟩
  intro t t' bs₀ bs₁ bs₂ hrun hrun' h₀ h₁ h₂
  obtain rfl := h₀.unique htiled.blocks
  have hused := allocated_foldl_frees hzero (⟨bs₀, s.live⟩ : BlockHeap)
  have hused' := allocated_foldl_frees (fun hmem => hzero (hperm.mem_iff.mpr hmem))
    (⟨bs₀, s.live⟩ : BlockHeap)
  rw [(hrun.shows hshows).tiled.blocks.unique h₁] at hused
  rw [(hrun'.shows hshows).tiled.blocks.unique h₂] at hused'
  have hsame : allocated bs₁ = allocated bs₂ := by
    rw [hused, hused']
    refine List.filter_congr fun b hb => ?_
    simp only [hperm.mem_iff]
  exact ⟨(hrun.reachable h).blocks_eq (hrun'.reachable h) h₁ h₂ (List.Perm.of_eq hsame), hused⟩

/-- Two pointers of the sample region, freed in the two orders. -/
theorem heapRuns_frees_perm_sample : ∃ s t t' bs, HeapReachable sampleRegion s ∧
    s.live = [0xffff800000100048, 0xffff800000100018] ∧
    HeapRuns sampleRegion s (frees [0xffff800000100048, 0xffff800000100018]) t ∧
    HeapRuns sampleRegion s (frees [0xffff800000100018, 0xffff800000100048]) t' ∧
    sampleRegion.Blocks t.mem bs ∧ sampleRegion.Blocks t'.mem bs := by
  have hstart : HeapState.Shows sampleRegion
      ⟨initHead (fun _ => 0xee) sampleRegion.head sampleRegion.size, []⟩
      (BlockHeap.init sampleRegion) := ⟨initHead_tiled sampleRegion _, rfl⟩
  obtain ⟨s₁, hcall₁, h₁⟩ := hstart.call (c := .malloc 24) trivial
  obtain ⟨s₂, hcall₂, h₂⟩ := h₁.call (c := .malloc 24) trivial
  have hreach : HeapReachable sampleRegion s₂ :=
    ((HeapReachable.init _).call (c := .malloc 24) trivial hcall₁).call (c := .malloc 24) trivial
      hcall₂
  have hlive : s₂.live = [0xffff800000100048, 0xffff800000100018] := by
    rw [h₂.live]
    decide
  obtain ⟨⟨t, ht⟩, ⟨t', ht'⟩, hsame⟩ := @heapRuns_frees_perm sampleRegion s₂ hreach
    [0xffff800000100048, 0xffff800000100018] [0xffff800000100018, 0xffff800000100048]
    (by rw [hlive]; exact fun _ h => h) (by decide) (List.Perm.swap _ _ _)
  obtain ⟨bs, htiled⟩ := hreach.tiled
  obtain ⟨bs₁, htiled₁⟩ := (ht.reachable hreach).tiled
  obtain ⟨bs₂, htiled₂⟩ := (ht'.reachable hreach).tiled
  obtain ⟨rfl, -⟩ := hsame t t' bs bs₁ bs₂ ht ht' htiled.blocks htiled₁.blocks htiled₂.blocks
  exact ⟨s₂, t, t', bs₁, hreach, hlive, ht, ht', htiled₁.blocks, htiled₂.blocks⟩

/-! ### Back to the same list -/

/-- A null pointer is not handed out. -/
theorem handOut_null_live (hnull : ptr = 0) (s : HeapState) (m : Memory) :
    (s.handOut (ptr, m)).live ≠ ptr :: s.live := by
  rw [HeapState.handOut]
  dsimp only
  rw [if_pos hnull]
  exact fun hsame => absurd (congrArg List.length hsame) (by simp)

/-- An allocation adds one block to those in use, the one of its pointer. -/
theorem HeapState.Tiled.handedOut (h : s.Tiled r bs) (hallows : s.Allows c)
    (hcall : s.call r.head c = some s') (hlive : s'.live = ptr :: s.live)
    (h' : r.Blocks s'.mem bs') : ∃ b, b.payload = ptr ∧ b ∈ bs' ∧
      (allocated bs').Perm (b :: allocated bs) := by
  have hcarve {k : Carve} {m m' : Memory} {n : ℕ} {ptr' : Word} (hk : k.Holds r m n ptr' m')
      (hbefore : k.before = bs) (hptr : ptr' = ptr) (hafter : bs' = k.after) :
      ∃ b, b.payload = ptr ∧ b ∈ bs' ∧ (allocated bs').Perm (b :: allocated bs) := by
    subst hbefore hptr hafter
    exact ⟨k.target, hk.payload, by simp [Carve.after], hk.allocated_perm⟩
  have hhead {ptr' : Word} {m : Memory} (hs : s.handOut (ptr', m) = s') : ptr' = ptr := by
    subst hs
    rw [HeapState.handOut] at hlive
    dsimp only at hlive
    split_ifs at hlive with hnull
    · exact absurd (congrArg List.length hlive) (by simp)
    · exact (List.cons.inj hlive).1
  cases c with
  | malloc size =>
      obtain ⟨⟨ptr', m'⟩, hrun, hs⟩ := Option.map_eq_some_iff.mp hcall
      obtain rfl := hhead hs
      subst hs
      rcases malloc?_spec h.blocks size with hnull | ⟨ptr'', m'', k, hrun', hbefore, hk⟩
      · rw [hrun, Option.some.injEq, Prod.mk.injEq] at hnull
        exact absurd hlive (handOut_null_live hnull.1 _ _)
      · rw [hrun, Option.some.injEq, Prod.mk.injEq] at hrun'
        obtain ⟨rfl, rfl⟩ := hrun'
        exact hcarve hk hbefore rfl (h'.unique hk.after)
  | calloc num size =>
      have hlt : num.toNat * size.toNat < 2 ^ 63 := hallows
      have htotal : (num * size).toNat = num.toNat * size.toNat := by
        rw [BitVec.toNat_mul, Nat.mod_eq_of_lt (by omega)]
      have hround := toNat_roundUp8_of_lt (n := num * size) (by omega)
      obtain ⟨⟨ptr', m'⟩, hrun, hs⟩ := Option.map_eq_some_iff.mp hcall
      obtain rfl := hhead hs
      subst hs
      rw [calloc?] at hrun
      dsimp only at hrun
      rcases malloc?_spec h.blocks (num * size) with hnull | ⟨ptr'', m'', k, hrun', hbefore, hk⟩
      · rw [hnull, Option.map_some, Option.some.injEq] at hrun
        simp only [ne_eq, not_true_eq_false, if_false, Prod.mk.injEq] at hrun
        exact absurd hlive (handOut_null_live hrun.1.symm _ _)
      · rw [hrun', Option.map_some, Option.some.injEq] at hrun
        simp only [ne_eq, hk.ptr_ne_zero, not_false_eq_true, if_true, Prod.mk.injEq] at hrun
        obtain ⟨rfl, rfl⟩ := hrun
        exact hcarve hk hbefore rfl (h'.unique (hk.fill hround 0).1)
  | pageAlloc pages =>
      have hlt : 4096 * pages.toNat < 2 ^ 63 := hallows
      obtain ⟨⟨ptr', m'⟩, hrun, hs⟩ := Option.map_eq_some_iff.mp hcall
      obtain rfl := hhead hs
      subst hs
      rcases pageAlloc?_spec h.blocks pages (by omega) with
        hnull | ⟨ptr'', m'', k, hrun', -, hbefore, hk⟩
      · rw [hrun, Option.some.injEq, Prod.mk.injEq] at hnull
        exact absurd hlive (handOut_null_live hnull.1 _ _)
      · rw [hrun, Option.some.injEq, Prod.mk.injEq] at hrun'
        obtain ⟨rfl, rfl⟩ := hrun'
        exact hcarve hk hbefore rfl (h'.unique hk.after)
  | free p =>
      obtain ⟨m', -, rfl⟩ := Option.map_eq_some_iff.mp hcall
      have hlen := congrArg List.length hlive
      have hle := List.length_erase_le (a := p) (l := s.live)
      simp only [List.length_cons] at hlen
      omega

/-- From any reachable state, an allocation and the `free` of its pointer come back to the same
list of blocks and the same live pointers. -/
theorem heapReachable_free_undoes {r : HeapRegion} {s s' : HeapState} {c : HeapCall} {ptr : Word}
    (h : HeapReachable r s) (hallows : s.Allows c) (hcall : s.call r.head c = some s')
    (hlive : s'.live = ptr :: s.live) :
    ∃ s'', s'.call r.head (.free ptr) = some s'' ∧ s''.live = s.live ∧
      ∀ bs, r.Blocks s.mem bs → r.Blocks s''.mem bs := by
  obtain ⟨bs, htiled⟩ := h.tiled
  have h' := h.call hallows hcall
  obtain ⟨bs', htiled'⟩ := h'.tiled
  obtain ⟨b, hpayload, hb, hperm⟩ := htiled.handedOut hallows hcall hlive htiled'.blocks
  have hfree : s'.Allows (.free ptr) := Or.inr (by simp [hlive])
  have hshows : s'.Shows r ⟨bs', s'.live⟩ := ⟨htiled', rfl⟩
  obtain ⟨s'', hcall'', hshows''⟩ := hshows.call hfree
  have hne : ptr ≠ 0 := hpayload ▸ htiled'.blocks.payload_ne_zero hb
  have hlist : BlockHeap.call ⟨bs', s'.live⟩ (.free ptr) =
      ⟨mergeFree (BlockHeap.release ptr bs'), s'.live.erase ptr⟩ := if_neg hne
  rw [hlist] at hshows''
  refine ⟨s'', hcall'', ?_, fun bs₀ hbs₀ => ?_⟩
  · rw [hshows''.live, hlive]
    exact List.erase_cons_head ptr s.live
  · obtain rfl := hbs₀.unique htiled.blocks
    have hused : (allocated (mergeFree (BlockHeap.release ptr bs'))).Perm (allocated bs₀) := by
      rw [allocated_release]
      refine (hperm.filter _).trans ?_
      have hothers : (allocated bs₀).filter (fun d => decide (d.payload ≠ ptr)) = allocated bs₀ := by
        refine List.filter_eq_self.mpr fun d hd => ?_
        have hmem : d.payload ∈ s.live := htiled.live.mem_iff.mp (List.mem_map_of_mem hd)
        have hnodup := htiled'.live_nodup
        rw [hlive, List.nodup_cons] at hnodup
        exact decide_eq_true fun heq => hnodup.1 (heq ▸ hmem)
      rw [List.filter_cons, if_neg (by simp [hpayload]), hothers]
    rw [← (h'.call hfree hcall'').blocks_eq h hshows''.tiled.blocks hbs₀ hused]
    exact hshows''.tiled.blocks

/-- `malloc(24)` and `free` of its pointer on the fresh sample region. -/
theorem heapReachable_free_undoes_sample : ∃ s' s'',
    HeapState.call sampleRegion.head
      ⟨initHead (fun _ => 0xee) sampleRegion.head sampleRegion.size, []⟩ (.malloc 24) = some s' ∧
    s'.call sampleRegion.head (.free 0xffff800000100018) = some s'' ∧ s''.live = [] ∧
    sampleRegion.Blocks s''.mem [⟨sampleRegion.head, sampleRegion.size - sizeofHeapBlock, true⟩] := by
  have hboot := HeapReachable.init (r := sampleRegion) fun _ => 0xee
  have hstart : HeapState.Shows sampleRegion
      ⟨initHead (fun _ => 0xee) sampleRegion.head sampleRegion.size, []⟩
      (BlockHeap.init sampleRegion) := ⟨initHead_tiled sampleRegion _, rfl⟩
  obtain ⟨s', hcall, hshows⟩ := hstart.call (c := .malloc 24) trivial
  have hlive : s'.live = [0xffff800000100018] := by
    rw [hshows.live]
    decide
  obtain ⟨s'', hfree, hback, hblocks⟩ :=
    heapReachable_free_undoes hboot (c := .malloc 24) trivial hcall hlive
  exact ⟨s', s'', hcall, hfree, hback, hblocks _ (initHead_tiled sampleRegion _).blocks⟩

end Utopia
