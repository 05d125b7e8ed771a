/-
Free space stays coalesced: a split never leaves two free blocks next to each other, and
the merge loop of `free` joins those that become neighbours.
-/
import Utopia.Mm.HeapRun
import Mathlib.Data.List.Chain

namespace Utopia

/-- No two neighbours are both free. -/
def Coalesced (bs : List Block) : Prop :=
  bs.IsChain fun b c => ¬ (b.free = true ∧ c.free = true)

/-! ### Splitting -/

theorem coalesced_append_cons {xs ys : List Block} {b : Block} (hb : b.free = true) :
    Coalesced (xs ++ b :: ys) ↔ Coalesced xs ∧ Coalesced ys ∧
      (∀ x ∈ xs.getLast?, x.free = false) ∧ ∀ y ∈ ys.head?, y.free = false := by
  rw [Coalesced, List.isChain_append, List.isChain_cons]
  simp only [List.head?_cons, Option.mem_some_iff, forall_eq', hb, and_true, true_and,
    Bool.not_eq_true]
  constructor
  · rintro ⟨hxs, ⟨hhead, hys⟩, hlast⟩
    exact ⟨hxs, hys, hlast, hhead⟩
  · rintro ⟨hxs, hys, hlast, hhead⟩
    exact ⟨hxs, ⟨hhead, hys⟩, hlast⟩

/-- The neighbours of a block in use may be free. -/
theorem coalesced_append_cons_used {xs ys : List Block} {b : Block} (hb : b.free = false) :
    Coalesced (xs ++ b :: ys) ↔ Coalesced xs ∧ Coalesced ys := by
  rw [Coalesced, List.isChain_append, List.isChain_cons]
  simp only [List.head?_cons, Option.mem_some_iff, forall_eq', hb, Bool.false_eq_true, and_false,
    false_and, not_false_eq_true, implies_true, true_and, and_true]
  exact Iff.rfl

theorem eq_nil_or_singleton {bs : List Block} (h : bs.length ≤ 1) : bs = [] ∨ ∃ b, bs = [b] := by
  match bs with
  | [] => exact Or.inl rfl
  | [b] => exact Or.inr ⟨b, rfl⟩

/-- An allocation cuts a free block, whose neighbours are in use. -/
theorem Carve.Holds.coalesced {k : Carve} {r : HeapRegion} {m m' : Memory} {n : Nat} {ptr : Word}
    (hk : k.Holds r m n ptr m') (h : Coalesced k.before) : Coalesced k.after := by
  rw [Carve.before, coalesced_append_cons hk.sourceFree] at h
  obtain ⟨hpre, hpost, hlast, hhead⟩ := h
  have hfront : Coalesced (k.pre ++ k.front) := by
    rcases eq_nil_or_singleton hk.frontShort with hnil | ⟨f, hone⟩
    · rwa [hnil, List.append_nil]
    · have hf := hk.frontFree f (by rw [hone]; exact List.mem_singleton_self f)
      rw [hone, coalesced_append_cons hf]
      exact ⟨hpre, List.isChain_nil, hlast, (fun y hy => by cases hy)⟩
  have hrest : Coalesced (k.rest ++ k.post) := by
    rcases eq_nil_or_singleton hk.restShort with hnil | ⟨x, hone⟩
    · rwa [hnil, List.nil_append]
    · have hx := hk.restFree x (by rw [hone]; exact List.mem_singleton_self x)
      rw [hone, ← List.nil_append ([x] ++ k.post), List.singleton_append, coalesced_append_cons hx]
      exact ⟨List.isChain_nil, hpost, (fun y hy => by cases hy), hhead⟩
  have hafter : k.after = (k.pre ++ k.front) ++ k.target :: (k.rest ++ k.post) := by
    simp [Carve.after]
  rw [hafter, coalesced_append_cons_used hk.targetUsed]
  exact ⟨hfront, hrest⟩

/-! ### Merging -/

theorem free_head_mergeFree (b : Block) (bs : List Block) :
    ∀ c ∈ (mergeFree (b :: bs)).head?, c.free = b.free := by
  generalize hall : b :: bs = all
  induction all using mergeFree.induct generalizing b bs with
  | case1 => cases hall
  | case2 d =>
      obtain ⟨rfl, rfl⟩ := List.cons.inj hall
      rw [mergeFree]
      rintro c ⟨⟩
      rfl
  | case3 d e ds hfree ih =>
      obtain ⟨rfl, rfl⟩ := List.cons.inj hall
      rw [mergeFree, if_pos hfree]
      exact ih ⟨b.addr, b.size + (sizeofHeapBlock + e.size), b.free⟩ ds rfl
  | case4 d e ds hused ih =>
      obtain ⟨rfl, rfl⟩ := List.cons.inj hall
      rw [mergeFree, if_neg hused]
      rintro c ⟨⟩
      rfl

/-- The merge loop leaves no pair. -/
theorem mergeFree_coalesced (bs : List Block) : Coalesced (mergeFree bs) := by
  induction bs using mergeFree.induct with
  | case1 =>
      rw [mergeFree]
      exact List.isChain_nil
  | case2 b =>
      rw [mergeFree]
      exact List.isChain_singleton b
  | case3 b c bs hfree ih =>
      rw [mergeFree, if_pos hfree]
      exact ih
  | case4 b c bs hused ih =>
      rw [mergeFree, if_neg hused, Coalesced, List.isChain_cons]
      refine ⟨fun d hd => ?_, ih⟩
      rw [free_head_mergeFree c bs d hd]
      exact hused

/-! ### Runs -/

/-- The walk from `head` determines the block list. -/
theorem Chain.unique {m : Memory} {p q : Word} {start stop : Nat} {bs bs' : List Block}
    (h : Chain m p start bs 0 stop) (h' : Chain m q start bs' 0 stop) (hpq : p = q)
    (hstart : 4096 ≤ start) : bs = bs' := by
  induction bs generalizing p q start bs' with
  | nil =>
      cases bs' with
      | nil => rfl
      | cons c bs' =>
          have hzero : p = 0 := h.1
          exact absurd (hpq.symm.trans hzero) (h'.1 ▸ h'.addr_ne_zero hstart List.mem_cons_self)
  | cons b bs ih =>
      have hne := h.addr_ne_zero hstart List.mem_cons_self
      obtain ⟨hp, haddr, next, hload, htail⟩ := h
      cases bs' with
      | nil => exact absurd (hp.symm.trans (hpq.trans h'.1)) hne
      | cons c bs' =>
          obtain ⟨hq, haddr', next', hload', htail'⟩ := h'
          have hsame : b.addr = c.addr := hp.symm.trans (hpq.trans hq)
          rw [hsame, hload', HeapBlock.mk.injEq] at hload
          obtain ⟨hsize, hnext, hfree⟩ := hload
          have hbc : b = c := by
            cases b
            cases c
            simp_all
          subst hbc
          have hbstop : 4096 ≤ b.stop := by
            simp only [Block.stop]
            omega
          rw [ih htail htail' hnext.symm hbstop]

theorem HeapRegion.Blocks.unique {r : HeapRegion} {m : Memory} {bs bs' : List Block}
    (h : r.Blocks m bs) (h' : r.Blocks m bs') : bs = bs' :=
  Chain.unique h h' rfl r.low

/-- One call keeps the free space coalesced. -/
theorem call_coalesced {r : HeapRegion} {s s' : HeapState} {bs bs' : List Block}
    (h : s.Tiled r bs) (hpairs : Coalesced bs) {c : HeapCall} (hallows : s.Allows c)
    (hcall : s.call r.head c = some s') (h' : r.Blocks s'.mem bs') : Coalesced bs' := by
  cases c with
  | malloc size =>
      rcases malloc?_spec h.blocks size with hnull | ⟨ptr, m', k, hrun, rfl, hk⟩
      · rw [HeapState.call, hnull, Option.map_some, Option.some.injEq] at hcall
        subst hcall
        rwa [h'.unique h.blocks]
      · rw [HeapState.call, hrun, Option.map_some, Option.some.injEq] at hcall
        subst hcall
        rw [h'.unique hk.after]
        exact hk.coalesced hpairs
  | calloc num size =>
      rcases malloc?_spec h.blocks (num * size) with hnull | ⟨ptr, m', k, hrun, rfl, hk⟩
      · have hcalloc : calloc? r.head s.mem num size = some (0, s.mem) := by
          simp [calloc?, hnull]
        rw [HeapState.call, hcalloc, Option.map_some, Option.some.injEq] at hcall
        subst hcall
        rwa [h'.unique h.blocks]
      · have htotal : (num * size).toNat = num.toNat * size.toNat := by
          have hlt : num.toNat * size.toNat < 2 ^ 63 := hallows
          rw [BitVec.toNat_mul, Nat.mod_eq_of_lt (by omega)]
        have hlt : num.toNat * size.toNat < 2 ^ 63 := hallows
        have hround := toNat_roundUp8_of_lt (n := num * size) (by omega)
        have hptr : ptr ≠ 0 := by
          rw [← hk.payload]
          exact hk.after.payload_ne_zero (by simp [Carve.after])
        have hcalloc : calloc? r.head s.mem num size =
            some (ptr, m'.fill ptr (num * size).toNat 0) := by
          simp only [calloc?, hrun, Option.map_some, ne_eq, hptr, not_false_eq_true, if_true]
        rw [HeapState.call, hcalloc, Option.map_some, Option.some.injEq] at hcall
        subst hcall
        rw [h'.unique (hk.fill hround 0).1]
        exact hk.coalesced hpairs
  | pageAlloc pages =>
      have hlt : 4096 * pages.toNat < 2 ^ 63 := hallows
      rcases pageAlloc?_spec h.blocks pages (by omega) with
        hnull | ⟨ptr, m', k, hrun, -, rfl, hk⟩
      · rw [HeapState.call, hnull, Option.map_some, Option.some.injEq] at hcall
        subst hcall
        rwa [h'.unique h.blocks]
      · rw [HeapState.call, hrun, Option.map_some, Option.some.injEq] at hcall
        subst hcall
        rw [h'.unique hk.after]
        exact hk.coalesced hpairs
  | free ptr =>
      by_cases hzero : ptr = 0
      · rw [HeapState.call, free?, if_pos hzero, Option.map_some, Option.some.injEq] at hcall
        subst hcall
        rwa [h'.unique h.blocks]
      · obtain ⟨b, hb, rfl⟩ := h.exists_of_live (Or.resolve_left hallows hzero)
        obtain ⟨pre, post, rfl⟩ := List.append_of_mem (mem_allocated.mp hb).1
        obtain ⟨m', hrun, hblocks, -⟩ := free?_spec h.blocks
        rw [HeapState.call, hrun, Option.map_some, Option.some.injEq] at hcall
        subst hcall
        rw [h'.unique hblocks]
        exact mergeFree_coalesced _

theorem HeapReachable.coalesced {r : HeapRegion} {s : HeapState} (h : HeapReachable r s)
    {bs : List Block} (hbs : r.Blocks s.mem bs) : Coalesced bs := by
  induction h generalizing bs with
  | init m =>
      rw [hbs.unique (initHead_tiled r m).blocks]
      exact List.isChain_singleton _
  | call hs hallows hcall ih =>
      obtain ⟨bs₀, htiled⟩ := hs.tiled
      exact call_coalesced htiled (ih htiled.blocks) hallows hcall hbs
  | store hs hptr hx v ih =>
      obtain ⟨bs₀, htiled⟩ := hs.tiled
      rw [hbs.unique (htiled.store hptr hx v).blocks]
      exact ih htiled.blocks

/-- A coalesced list of free blocks has one block. -/
theorem Coalesced.eq_singleton {bs : List Block} (h : Coalesced bs)
    (hfree : ∀ b ∈ bs, b.free = true) (hne : bs ≠ []) : ∃ b, bs = [b] := by
  match bs with
  | [] => exact absurd rfl hne
  | [b] => exact ⟨b, rfl⟩
  | b :: c :: bs =>
      have hpair := (List.isChain_cons_cons.mp h).1
      exact absurd ⟨hfree b (by simp), hfree c (by simp)⟩ hpair

/-- In every reachable state no two consecutive blocks are free; when nothing is allocated,
the list is the block that `memory_init` made. -/
theorem heapReachable_coalesced {r : HeapRegion} {s : HeapState} (h : HeapReachable r s) :
    ∃ bs, r.Blocks s.mem bs ∧
      (∀ pre b c post, bs = pre ++ b :: c :: post → ¬ (b.free = true ∧ c.free = true)) ∧
      (s.live = [] → bs = [⟨r.head, r.size - sizeofHeapBlock, true⟩]) := by
  obtain ⟨bs, htiled⟩ := h.tiled
  have hpairs := h.coalesced htiled.blocks
  refine ⟨bs, htiled.blocks, fun pre b c post heq => ?_, fun hlive => ?_⟩
  · rw [heq] at hpairs
    exact (List.isChain_append_cons_cons.mp hpairs).2.1
  · have hroom := r.room
    have hhigh := r.high
    have hfree : ∀ b ∈ bs, b.free = true := by
      intro b hb
      by_contra hused
      have hmem : b.payload ∈ s.live := htiled.live.mem_iff.mp
        (List.mem_map_of_mem (mem_allocated.mpr ⟨hb, by simpa using hused⟩))
      rw [hlive] at hmem
      cases hmem
    have hne : bs ≠ [] := by
      rintro rfl
      have hend : r.head.toNat = r.stop := htiled.blocks.2
      simp only [HeapRegion.stop] at hend
      omega
    obtain ⟨b, rfl⟩ := hpairs.eq_singleton hfree hne
    obtain ⟨hhead, -, next, -, -, hstop⟩ := htiled.blocks
    have hb : b.free = true := hfree b (List.mem_singleton_self b)
    have hsize : b.size = r.size - sizeofHeapBlock := by
      simp only [Block.stop, HeapRegion.stop, ← hhead] at hstop
      simp only [sizeofHeapBlock]
      bv_omega
    obtain ⟨addr, size, free⟩ := b
    dsimp only at hhead hb hsize
    rw [hhead, hb, hsize]

/-- After `malloc(24)` and `free` of its result the sample region is one free block again. -/
theorem heapReachable_coalesced_sample : ∃ s, HeapReachable sampleRegion s ∧ s.live = [] ∧
    ∃ bs, sampleRegion.Blocks s.mem bs ∧
      bs = [⟨sampleRegion.head, sampleRegion.size - sizeofHeapBlock, true⟩] := by
  have hboot := HeapReachable.init (r := sampleRegion) fun _ => 0
  have hsome : (HeapState.call sampleRegion.head
      ⟨initHead (fun _ => 0) sampleRegion.head sampleRegion.size, []⟩
      (.malloc 24)).isSome := by decide
  have hreach := hboot.call (c := HeapCall.malloc 24) trivial (Option.some_get hsome).symm
  obtain ⟨bs₁, htiled⟩ := hreach.tiled
  have hallows : HeapState.Allows ((HeapState.call sampleRegion.head
      ⟨initHead (fun _ => 0) sampleRegion.head sampleRegion.size, []⟩ (.malloc 24)).get hsome)
      (.free 0xffff800000100018) := Or.inr (List.mem_singleton_self _)
  obtain ⟨s', bs', hrun, htiled', -⟩ := call_keeps htiled hallows
  have hreach' := hreach.call hallows hrun
  have hlive : s'.live = [] := by
    rw [HeapState.call, Option.map_eq_some_iff] at hrun
    obtain ⟨m', -, rfl⟩ := hrun
    rfl
  obtain ⟨bs, hblocks, -, hone⟩ := heapReachable_coalesced hreach'
  exact ⟨s', hreach', hlive, bs, hblocks, hone hlive⟩

end Utopia
