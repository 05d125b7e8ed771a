/-
A failed `process_clone` leaves no trace: whatever allocation fails, the exits give back what
was allocated before it.
-/
import Utopia.Exec.ProcessClone
import Utopia.Mm.Undo

namespace Utopia

/-- The calls of `free` on a stack. -/
def stackBlocks : Option ThreadStack → List Word
  | none => []
  | some stack => [stack.base, stack.obj]

/-- The blocks of a thread, in the order in which `scheduler_reap` frees them. -/
def ThreadObject.blocks (t : ThreadObject) : List Word :=
  stackBlocks t.kernel ++ stackBlocks t.main ++ (if t.regs ≠ 0 then [t.regs] else []) ++ [t.obj]

namespace KernelState

/-- The blocks of the threads that wait to be reaped. -/
def zombieBlocks (s : KernelState) : List Word := s.zombies.flatMap ThreadObject.blocks

def zombieChunks (s : KernelState) (live : Set Chunk) : Set Chunk :=
  Allocator.chunksAt live { p | p ∈ s.zombieBlocks }

end KernelState

namespace Machine

variable {k : Machine} {m m' m'' : Memory} {live live' loose mine data : Set Chunk} {array : Set Chunk}
  {roots : Set TableAddr} {kr n r : TableAddr} {owned : PageList} {ps : List Word} {c : Chunk}

theorem zalloc_spec (hlive : k.alloc.Live m live) {size : Word} (hsize : size.toNat + 8 ≤ 2 ^ 64) :
    Granted k.alloc.arena k.alloc.Live live size.toNat m (k.zalloc m size) := by
  rw [zalloc]
  rcases k.alloc.malloc_spec hlive hsize with hnull | ⟨c, m₁, hresult, hroom, hnew, hlive₁, hkept⟩
  · rw [hnull]
    exact Or.inl rfl
  · have hne := k.alloc.ptr_ne_zero hlive₁ (Set.mem_insert c live)
    have hfit := k.alloc.bytes_fit hlive₁ (Set.mem_insert c live)
    have hfill := Memory.fill_eqOn m₁ 0 (show c.ptr.toNat + size.toNat ≤ 2 ^ 64 by omega)
    have hbytes : span c.ptr size.toNat ⊆ c.bytes := span_subset_span le_rfl (by omega)
    obtain ⟨hlive₂, hkept₂⟩ := Allocator.written hnew hlive₁ hkept hbytes hfill
    simp only [hresult, if_neg hne]
    exact Or.inr ⟨c, _, rfl, hroom, hnew, hlive₂, hkept₂⟩

/-- The address space `n` is being set up, with the chunks `data` in custody. -/
def Hosts (k : Machine) (roots : Set TableAddr) (n : TableAddr) (m : Memory)
    (live : Set Chunk) (owned : PageList) (ps : List Word) (array mine data : Set Chunk)
    (m' : Memory) : Prop :=
  ∃ live' held, k.Custody userTops { page | page.User } (insert n roots) n m live ps mine data m'
    live' owned ps array held

namespace Hosts

section

variable (h : k.Hosts roots n m live owned ps array mine data m')

include h

/-- A block is handed out, or nothing happens. -/
theorem granted {size : Nat} {result : Word × Memory}
    (hgranted : ∀ live', k.alloc.Live m' live' →
      Granted k.alloc.arena k.alloc.Live live' size m' result) :
    result = (0, m') ∨ ∃ c, result.1 = c.ptr ∧ c.ptr ≠ 0 ∧ c ∉ data ∧ size ≤ c.size ∧
      c.ptr.toNat + c.size ≤ 2 ^ 64 ∧
      k.Hosts roots n m live owned ps array mine (insert c data) result.2 := by
  obtain ⟨live', held, hcustody⟩ := h
  rcases hgranted live' hcustody.alters.tables.heap with
    hnull | ⟨c, m₁, rfl, hsize, hnew, hlive, hkept⟩
  · exact Or.inl hnull
  · refine Or.inr ⟨c, rfl, k.alloc.ptr_ne_zero hlive (Set.mem_insert c live'), ?_, hsize,
      k.alloc.bytes_fit hlive (Set.mem_insert c live'), _, _,
      hcustody.handOut (Set.mem_insert n roots) hnew hlive hkept⟩
    exact fun hmem => hnew (hcustody.data_sub hmem)

theorem malloc (size : Word) (hsize : size.toNat + 8 ≤ 2 ^ 64) :
    k.alloc.malloc m' size = (0, m') ∨ ∃ c, (k.alloc.malloc m' size).1 = c.ptr ∧ c.ptr ≠ 0 ∧
      c ∉ data ∧ size.toNat ≤ c.size ∧ c.ptr.toNat + c.size ≤ 2 ^ 64 ∧
      k.Hosts roots n m live owned ps array mine (insert c data) (k.alloc.malloc m' size).2 :=
  h.granted fun _ hlive => k.alloc.malloc_spec hlive hsize

theorem zalloc (size : Word) (hsize : size.toNat + 8 ≤ 2 ^ 64) :
    k.zalloc m' size = (0, m') ∨ ∃ c, (k.zalloc m' size).1 = c.ptr ∧ c.ptr ≠ 0 ∧
      c ∉ data ∧ size.toNat ≤ c.size ∧ c.ptr.toNat + c.size ≤ 2 ^ 64 ∧
      k.Hosts roots n m live owned ps array mine (insert c data) (k.zalloc m' size).2 :=
  h.granted fun _ hlive => zalloc_spec hlive hsize

/-- The same for blocks of whole pages. -/
theorem pageAlloc (pages : Word) (hpages : 4096 * pages.toNat + 8192 ≤ 2 ^ 64) :
    k.alloc.pageAlloc m' pages = (0, m') ∨ ∃ c, (k.alloc.pageAlloc m' pages).1 = c.ptr ∧
      c.ptr ≠ 0 ∧ c ∉ data ∧ 4096 * pages.toNat ≤ c.size ∧ c.ptr.toNat + c.size ≤ 2 ^ 64 ∧
      c.ptr.toNat % 4096 = 0 ∧
      k.Hosts roots n m live owned ps array mine (insert c data)
        (k.alloc.pageAlloc m' pages).2 := by
  have haligned : (k.alloc.pageAlloc m' pages).1.toNat % 4096 = 0 := by
    obtain ⟨live', held, hcustody⟩ := h
    exact (k.alloc.pageAlloc_spec hcustody.alters.tables.heap hpages).1
  rcases h.granted fun _ hlive => (k.alloc.pageAlloc_spec hlive hpages).2 with
    hnull | ⟨c, hptr, hne, hnew, hsize, hfit, hhosts⟩
  · exact Or.inl hnull
  · rw [hptr] at haligned
    exact Or.inr ⟨c, hptr, hne, hnew, hsize, hfit, haligned, hhosts⟩

/-- A block is given back. -/
theorem free (hc : c ∈ data) :
    k.Hosts roots n m live owned ps array mine (data \ {c}) (k.alloc.free m' c.ptr) := by
  obtain ⟨live', held, hcustody⟩ := h
  exact ⟨_, held, (hcustody.giveBack (Set.mem_insert n roots) hc).1⟩

/-- A block is written to. -/
theorem write (hc : c ∈ data) (heq : Set.EqOn m'' m' c.bytesᶜ) :
    k.Hosts roots n m live owned ps array mine data m'' := by
  obtain ⟨live', held, hcustody⟩ := h
  exact ⟨live', held, (hcustody.write (Set.mem_insert n roots) hc heq).1⟩

end

/-- The newest block is given back. -/
theorem free_new (h : k.Hosts roots n m live owned ps array mine (insert c data) m')
    (hc : c ∉ data) : k.Hosts roots n m live owned ps array mine data (k.alloc.free m' c.ptr) := by
  have hfree := h.free (Set.mem_insert c data)
  rwa [Set.insert_sdiff_self_of_notMem hc] at hfree

/-- Blocks are given back one by one. -/
theorem freeAll {ptrs : List Word} (h : k.Hosts roots n m live owned ps array mine data m')
    (hnodup : (ptrs.filter (· ≠ 0)).Nodup)
    (hptrs : ∀ p ∈ ptrs, p = 0 ∨ ∃ c ∈ data, c.ptr = p) :
    k.Hosts roots n m live owned ps array mine (data \ { c | c.ptr ∈ ptrs })
      (ptrs.foldl k.alloc.free m') := by
  induction ptrs generalizing data m' with
  | nil =>
      have hempty : data \ { c | c.ptr ∈ ([] : List Word) } = data := by simp
      rwa [hempty]
  | cons p ptrs ih =>
      have hrest : ∀ q ∈ ptrs, q = 0 ∨ ∃ c ∈ data, c.ptr = q :=
        fun q hq => hptrs q (List.mem_cons_of_mem p hq)
      rw [List.foldl_cons]
      by_cases hp : p = 0
      · subst hp
        rw [List.filter_cons_of_neg (by simp)] at hnodup
        rw [k.alloc.free_zero]
        have hsame : data \ { c | c.ptr ∈ 0 :: ptrs } = data \ { c | c.ptr ∈ ptrs } := by
          obtain ⟨live', held, hcustody⟩ := h
          ext c
          constructor
          · rintro ⟨hc, hout⟩
            exact ⟨hc, fun hmem => hout (List.mem_cons_of_mem 0 hmem)⟩
          · rintro ⟨hc, hout⟩
            refine ⟨hc, fun hmem => ?_⟩
            rcases List.mem_cons.mp hmem with hzero | hmem
            · exact k.alloc.ptr_ne_zero hcustody.alters.tables.heap (hcustody.data_sub hc) hzero
            · exact hout hmem
        rw [hsame]
        exact ih h hnodup hrest
      · obtain ⟨c, hc, rfl⟩ := (hptrs p List.mem_cons_self).resolve_left hp
        rw [List.filter_cons_of_pos (by simpa using hp), List.nodup_cons] at hnodup
        obtain ⟨hnot, hnodup⟩ := hnodup
        have hnext := ih (h.free hc) hnodup fun q hq => by
          rcases hrest q hq with hzero | ⟨d, hd, rfl⟩
          · exact Or.inl hzero
          · by_cases hd0 : d.ptr = 0
            · exact Or.inl hd0
            · refine Or.inr ⟨d, ⟨hd, ?_⟩, rfl⟩
              rintro rfl
              exact hnot (List.mem_filter.mpr ⟨hq, by simpa using hd0⟩)
        have hsame : (data \ {c}) \ { d | d.ptr ∈ ptrs } = data \ { d | d.ptr ∈ c.ptr :: ptrs } := by
          obtain ⟨live', held, hcustody⟩ := h
          ext d
          constructor
          · rintro ⟨⟨hd, hne⟩, hout⟩
            refine ⟨hd, fun hmem => ?_⟩
            rcases List.mem_cons.mp hmem with hptr | hmem
            · exact hne (k.alloc.ptr_injOn hcustody.alters.tables.heap (hcustody.data_sub hd)
                (hcustody.data_sub hc) hptr)
            · exact hout hmem
          · rintro ⟨hd, hout⟩
            refine ⟨⟨hd, ?_⟩, fun hmem => hout (List.mem_cons_of_mem _ hmem)⟩
            rintro rfl
            exact hout List.mem_cons_self
        rwa [hsame] at hnext

/-- The blocks that start at the addresses `ptrs` are the loose ones. -/
theorem sdiff_ptrs {ptrs : List Word} (h : k.Hosts roots n m live owned ps array mine data m')
    (hsub : loose ⊆ data) (hptrs : ∀ p ∈ ptrs, p = 0 ∨ ∃ c ∈ loose, c.ptr = p)
    (hall : ∀ c ∈ loose, c.ptr ∈ ptrs) : data \ { c | c.ptr ∈ ptrs } = data \ loose := by
  obtain ⟨live', held, hcustody⟩ := h
  have hheap := hcustody.alters.tables.heap
  ext c
  constructor
  · rintro ⟨hc, hout⟩
    exact ⟨hc, fun hmem => hout (hall c hmem)⟩
  · rintro ⟨hc, hout⟩
    refine ⟨hc, fun hmem => ?_⟩
    have hclive := hcustody.data_sub hc
    rcases hptrs c.ptr hmem with hzero | ⟨d, hd, hptr⟩
    · exact k.alloc.ptr_ne_zero hheap hclive hzero
    · rw [k.alloc.ptr_injOn hheap (hcustody.data_sub (hsub hd)) hclive hptr] at hd
      exact hout hd

end Hosts

/-! ### The stack of the child -/

theorem userStack_user {i : Nat} (hi : i < userStackPages) :
    ¬ KernelIndex (ptIndex (userStackLow + BitVec.ofNat 64 i * 0x1000) ptTopLevel) := by
  have hi' : i < 2048 := hi
  have hmul : (BitVec.ofNat 64 i * 0x1000 : Word).toNat = 4096 * i := by
    rw [BitVec.toNat_mul, BitVec.toNat_ofNat]
    change i % 2 ^ 64 * 4096 % 2 ^ 64 = 4096 * i
    omega
  have hlow : userStackLow.toNat = 140737479962624 := by decide
  have haddr : (userStackLow + BitVec.ofNat 64 i * 0x1000).toNat = 140737479962624 + 4096 * i := by
    rw [toNat_add_of_lt, hmul, hlow]
    rw [hmul, hlow]
    omega
  rw [KernelIndex, ptIndex_val, haddr, ptTopLevel]
  omega

theorem mapUserStack_eq (m : Memory) (table block : Word) :
    k.mapUserStack m table block =
      k.mapBlock m table userStackLow (k.hhdmVirtToPhys block) ⟨true, true, false, false⟩
        userStackPages := by
  rw [mapUserStack, mapBlock]
  simp only [hhdmVirtToPhys_add]

namespace Hosts

theorem mapUserStack (h : k.Hosts roots n m live owned ps array mine data m') (hc : c ∈ data)
    (haligned : c.ptr.toNat % 4096 = 0) (hsize : userStackSize.toNat ≤ c.size) :
    k.Hosts roots n m live owned ps array mine data (k.mapUserStack m' n.addr c.ptr).2 := by
  obtain ⟨live', held, hcustody⟩ := h
  have hroom : 4096 * userStackPages ≤ c.size := hsize
  have hpages : runPages userStackLow userStackPages ⊆ { page | page.User } := by
    rintro page ⟨i, hi, rfl⟩
    exact user_vpn.mpr (userStack_user hi)
  obtain ⟨live'', held', hmapped, -⟩ := mapBlock_spec (Set.mem_insert n roots) hc hcustody haligned
    hroom (fun i hi => userStack_user hi) hpages ⟨true, true, false, false⟩
  rw [mapUserStack_eq]
  exact ⟨live'', held', hmapped⟩

end Hosts

theorem copyFrom_bounds (userSp : Word) :
    userStackLow.toNat ≤ (copyFrom userSp).toNat ∧ (copyFrom userSp).toNat ≤ userStackTop.toNat := by
  have hlow : userStackLow.toNat ≤ userStackTop.toNat := by decide
  rw [copyFrom]
  generalize (if 128 ≤ userSp then userSp - 128 else 0) = start
  have hclamp : userStackLow.toNat ≤
        (if start < userStackLow ∨ userStackTop < start then userStackLow else start).toNat ∧
      (if start < userStackLow ∨ userStackTop < start then userStackLow else start).toNat ≤
        userStackTop.toNat := by
    split_ifs with hout
    · exact ⟨le_rfl, hlow⟩
    · rw [not_or, BitVec.not_lt, BitVec.not_lt] at hout
      exact ⟨hout.1, hout.2⟩
  by_cases hodd : userSp < userStackLow ∨ userStackTop < userSp
  · rw [if_pos hodd]
    exact ⟨le_rfl, hlow⟩
  · rw [if_neg hodd]
    exact hclamp

/-- The copy stays inside the new stack. -/
theorem copyUserStack_eqOn {table userSp : Word} {block : Word}
    (hfit : block.toNat + userStackSize.toNat ≤ 2 ^ 64)
    (hcopy : k.copyUserStack m' table block userSp = some m'') :
    Set.EqOn m'' m' (span block userStackSize.toNat)ᶜ := by
  rw [copyUserStack] at hcopy
  obtain ⟨hlow, htop⟩ := copyFrom_bounds userSp
  generalize copyFrom userSp = start at hcopy hlow htop
  rw [copyUser] at hcopy
  obtain ⟨-, hcopy⟩ := Option.ite_none_right_eq_some.mp hcopy
  rw [Option.some.injEq] at hcopy
  rw [← hcopy]
  intro x hx
  refine if_neg fun hlt => hx ?_
  have hsize : userStackSize.toNat = userStackTop.toNat - userStackLow.toNat := by decide
  have hstack : userStackLow.toNat ≤ userStackTop.toNat := by decide
  have hoffset : (start - userStackLow).toNat = start.toNat - userStackLow.toNat :=
    BitVec.toNat_sub_of_le hlow
  have hlength : (userStackTop - start).toNat = userStackTop.toNat - start.toNat :=
    BitVec.toNat_sub_of_le htop
  have hdst : (block + (start - userStackLow)).toNat =
      block.toNat + (start.toNat - userStackLow.toNat) := by
    rw [toNat_add_of_lt, hoffset]
    rw [hoffset]
    omega
  rw [mem_span]
  rw [hlength] at hlt
  generalize block + (start - userStackLow) = dst at hlt hdst
  have hsum : x = dst + (x - dst) := by
    rw [BitVec.add_comm, BitVec.sub_add_cancel]
  have hxval : x.toNat = dst.toNat + (x - dst).toNat := by
    conv_lhs => rw [hsum]
    exact toNat_add_of_lt (by omega)
  omega

/-! ### The thread of the child -/

theorem freeThread_eq (m : Memory) (t : ThreadObject) :
    k.freeThread m t = t.blocks.foldl k.alloc.free m := by
  have hstack : ∀ (m : Memory) (stack : Option ThreadStack),
      k.freeStack m stack = (stackBlocks stack).foldl k.alloc.free m := by
    intro m stack
    cases stack <;> rfl
  rw [freeThread, ThreadObject.blocks, List.foldl_append, List.foldl_append, List.foldl_append,
    ← hstack, ← hstack]
  split_ifs <;> rfl

theorem schedulerReap_mem (s : KernelState) :
    (k.schedulerReap s).mem = s.zombieBlocks.foldl k.alloc.free s.mem := by
  rw [schedulerReap, KernelState.zombieBlocks, List.foldl_flatMap]
  exact congrFun (congrFun (congrArg List.foldl (funext₂ freeThread_eq)) _) _

namespace Hosts

variable {s : KernelState}

theorem kernelStackAlloc (h : k.Hosts roots n m live owned ps array mine data m')
    (hfail : (k.kernelStackAlloc m').1 = none) :
    k.Hosts roots n m live owned ps array mine data (k.kernelStackAlloc m').2 := by
  rw [Machine.kernelStackAlloc] at hfail ⊢
  rcases h.malloc sizeofThreadStack (by decide) with
    hnull | ⟨ks, hptr, hne, hnew, -, -, hhosts⟩
  · simp only [hnull, if_true]
    exact h
  simp only [hptr, if_neg hne] at hfail ⊢
  rcases hhosts.zalloc threadKernelStackSize (by decide) with
    hnull | ⟨base, hbase, hbne, -⟩
  · simp only [hnull, if_true]
    exact hhosts.free_new hnew
  · simp only [hbase, if_neg hbne] at hfail
    cases hfail

theorem tcbAlloc (h : k.Hosts roots n m live owned ps array mine data s.mem) (name : List Byte) :
    (∃ m', k.tcbAlloc s name = (none, { s with mem := m' }) ∧
        k.Hosts roots n m live owned ps array mine data m') ∨
      ∃ t m' c d, k.tcbAlloc s name =
          (some t, { s with mem := m', nextThreadId := s.nextThreadId + 1 }) ∧
        t.obj = c.ptr ∧ t.regs = d.ptr ∧ c ∉ data ∧ d ∉ insert c data ∧
        k.Hosts roots n m live owned ps array mine (insert d (insert c data)) m' := by
  rw [Machine.tcbAlloc]
  rcases h.zalloc sizeofThread (by decide) with hnull | ⟨c, hptr, hne, hnew, -, -, hhosts⟩
  · simp only [hnull, if_true]
    exact Or.inl ⟨_, rfl, h⟩
  simp only [hptr, if_neg hne]
  have hsize : (sizeofRegisters k.arch).toNat + 8 ≤ 2 ^ 64 := by
    cases k.arch <;> decide
  rcases hhosts.zalloc (sizeofRegisters k.arch) hsize with
    hnull | ⟨d, hptr', hne', hnew', -, -, hhosts'⟩
  · simp only [hnull, if_true]
    exact Or.inl ⟨_, rfl, hhosts.free_new hnew⟩
  · simp only [hptr', if_neg hne']
    exact Or.inr ⟨_, _, c, d, rfl, rfl, rfl, hnew, hnew', hhosts'⟩

/-- When there is no thread for the child, the zombies are reaped and nothing else
happened. -/
theorem threadCloneUser (h : k.Hosts roots n m live owned ps array mine data s.mem)
    (hnodup : (s.zombieBlocks.filter (· ≠ 0)).Nodup)
    (hzombies : ∀ p ∈ s.zombieBlocks, p = 0 ∨ ∃ c ∈ data, c.ptr = p)
    {parent : ThreadObject} {frame : Registers} {stack : ThreadStack} {fsBase : Word}
    {s' : KernelState} (hfail : k.threadCloneUser s parent frame stack fsBase = (none, s')) :
    s'.processes = s.processes ∧ s'.ready = s.ready ∧ s'.zombies = [] ∧
      k.Hosts roots n m live owned ps array mine (data \ { c | c.ptr ∈ s.zombieBlocks })
        s'.mem := by
  have hreaped := h.freeAll hnodup hzombies
  rw [← schedulerReap_mem] at hreaped
  rw [Machine.threadCloneUser] at hfail
  rcases hreaped.tcbAlloc parent.name with
    ⟨m₁, htcb, hhosts⟩ | ⟨t, m₁, c, d, htcb, hobj, hregs, hc, hd, hhosts⟩
  · simp only [htcb, Prod.mk.injEq, true_and] at hfail
    subst hfail
    exact ⟨rfl, rfl, rfl, hhosts⟩
  simp only [htcb] at hfail
  cases hstack : k.kernelStackAlloc m₁ with
  | mk ks m₂ =>
      cases ks with
      | some ks =>
          simp only [hstack, Prod.mk.injEq] at hfail
          cases hfail.1
      | none =>
          simp only [hstack, Prod.mk.injEq, true_and] at hfail
          subst hfail
          have hhosts' := hhosts.kernelStackAlloc (by rw [hstack])
          rw [hstack] at hhosts'
          have hfreed := (hhosts'.free_new hd).free_new hc
          rw [← hobj, ← hregs] at hfreed
          exact ⟨rfl, rfl, rfl, hfreed⟩

theorem threadStackRelease {b : Chunk}
    (h : k.Hosts roots n m live owned ps array mine (insert b (insert c data)) m')
    (hb : b ∉ insert c data) (hc : c ∉ data) (hne : b.ptr ≠ 0) (stack : ThreadStack)
    (hobj : stack.obj = c.ptr) (hbase : stack.base = b.ptr) :
    k.Hosts roots n m live owned ps array mine data (k.threadStackRelease m' stack) := by
  rw [Machine.threadStackRelease, hobj, hbase]
  simp only [if_pos hne]
  exact (h.free_new hb).free_new hc

end Hosts

/-! ### The way back -/

variable {m₀ : Memory} {live₀ rest : Set Chunk}

theorem Begun.hosts (h : k.Begun roots kr n m₀ live₀ loose m live mine data)
    (htenant : k.Tenant (insert n roots) n m live owned ps array mine) (hdata : data ⊆ live)
    (hapart : Disjoint data mine) :
    k.Hosts roots n m live owned ps array (data ∪ mine) data m :=
  ⟨live, mine, Custody.startWith userTops _ htenant h.tables hdata hapart fun _ ht =>
    h.outside_start hapart ht⟩

/-- `fail_pt` when of the blocks in custody only the process object and loose chunks are
left. -/
theorem Begun.failPt (h : k.Begun roots kr n m₀ live₀ loose m live mine data)
    (hhosts : k.Hosts roots n m live owned ps array (data ∪ mine) (insert c rest) m')
    (hc : c ∉ rest) (hrest : rest ⊆ loose) :
    k.Undone roots m₀ live₀ loose (loose \ rest) (k.failPt m' c.ptr n.addr owned) := by
  obtain ⟨live', held, hcustody⟩ := hhosts
  have hcmem := Set.mem_insert c rest
  have hcheld : c ∉ held := fun hmem => Set.disjoint_left.mp hcustody.apart hcmem hmem
  obtain ⟨-, hfrees⟩ := hcustody.tenant.holding.free_all hcustody.alters.tables
    (Set.mem_insert n roots) hcustody.tenant.sub
  have hfreed := hfrees.trans
    (Allocator.frees_free hfrees.1 ⟨hcustody.data_sub hcmem, hcheld⟩)
  have hleft : insert c rest \ {c} = rest := Set.insert_sdiff_self_of_notMem hc
  have hundone := h.undone hcustody (fun _ hpage => hpage) (Set.singleton_subset_iff.mpr hcmem)
    (hleft.subset.trans hrest) hfreed
  rwa [hleft] at hundone

/-- The queues are as in `s`, and the memory is as in `m₀`, unless the zombies were
reaped. -/
structure GivenUp (k : Machine) (roots : Set TableAddr) (m₀ : Memory) (live₀ loose : Set Chunk)
    (s s' : KernelState) : Prop where
  processes : s'.processes = s.processes
  ready : s'.ready = s.ready
  memory : s'.zombies = s.zombies ∧ k.Undone roots m₀ live₀ loose ∅ s'.mem ∨
    s'.zombies = [] ∧ k.Undone roots m₀ live₀ loose loose s'.mem

theorem processCloneInto_givenUp {s s' : KernelState}
    (h : k.Begun roots kr n m₀ live₀ loose s.mem live mine (insert c loose))
    (hhosts : k.Hosts roots n s.mem live owned ps array (insert c loose ∪ mine) (insert c loose)
      s.mem)
    (hc : c ∉ loose) (hne : c.ptr ≠ 0) (hnodup : (s.zombieBlocks.filter (· ≠ 0)).Nodup)
    (hzombies : ∀ p ∈ s.zombieBlocks, p = 0 ∨ ∃ d ∈ loose, d.ptr = p)
    (hloose : ∀ d ∈ loose, d.ptr ∈ s.zombieBlocks)
    {parent : ProcessObject} {thread : ThreadObject} {frame : Registers} {opts : Option CloneOpts}
    {msrFsBase : Word}
    (hrun : k.processCloneInto s parent thread frame opts msrFsBase c.ptr n.addr owned =
      some (0, s')) : k.GivenUp roots m₀ live₀ loose s s' := by
  have hback : ∀ m', k.Hosts roots n s.mem live owned ps array (insert c loose ∪ mine)
      (insert c loose) m' → k.Undone roots m₀ live₀ loose ∅ (k.failPt m' c.ptr n.addr owned) := by
    intro m' hhosts'
    have hundone := h.failPt hhosts' hc subset_rfl
    rwa [Set.sdiff_self] at hundone
  rw [processCloneInto] at hrun
  rcases hhosts.malloc sizeofThreadStack (by decide) with
    hnull | ⟨d, hptr, hdne, hd, -, -, hhosts₁⟩
  · -- no descriptor
    simp only [hnull, ne_eq, not_true_eq_false, if_false, if_true, Option.some.injEq,
      Prod.mk.injEq, true_and] at hrun
    subst hrun
    exact ⟨rfl, rfl, Or.inl ⟨rfl, hback _ hhosts⟩⟩
  simp only [hptr, ne_eq, hdne, not_false_eq_true, if_true] at hrun
  rcases hhosts₁.pageAlloc (userStackSize / 0x1000) (by decide) with
    hnull | ⟨b, hptr', hbne, hb, hroom, hfit, haligned, hhosts₂⟩
  · -- no block
    simp only [hnull, if_true, Option.some.injEq, Prod.mk.injEq, true_and] at hrun
    subst hrun
    exact ⟨rfl, rfl, Or.inl ⟨rfl, hback _ (hhosts₁.free_new hd)⟩⟩
  simp only [hptr', if_neg hbne] at hrun
  have hsize : userStackSize.toNat ≤ b.size := hroom
  have hspan : span b.ptr userStackSize.toNat ⊆ b.bytes :=
    span_subset_span le_rfl (Nat.add_le_add_left hsize _)
  have hbmem := Set.mem_insert b (insert d (insert c loose))
  have hhosts₃ := hhosts₂.write hbmem ((Memory.fill_eqOn _ 0 (show b.ptr.toNat +
    userStackSize.toNat ≤ 2 ^ 64 by omega)).mono (Set.compl_subset_compl.mpr hspan))
  have hhosts₄ := hhosts₃.mapUserStack hbmem haligned hsize
  split_ifs at hrun with hstatus
  · rw [Option.map_eq_some_iff] at hrun
    obtain ⟨m₅, hcopy, hrun⟩ := hrun
    have hhosts₅ := hhosts₄.write hbmem ((copyUserStack_eqOn (by omega) hcopy).mono
      (Set.compl_subset_compl.mpr hspan))
    split at hrun
    · -- no thread
      rename_i s₆ hthread
      rw [Prod.mk.injEq] at hrun
      obtain ⟨-, rfl⟩ := hrun
      have hin : loose ⊆ insert b (insert d (insert c loose)) :=
        fun e he => Or.inr (Or.inr (Or.inr he))
      obtain ⟨hprocesses, hready, hempty, hhosts₆⟩ :=
        Hosts.threadCloneUser (s := { s with mem := m₅, nextPid := s.nextPid + 1 }) hhosts₅ hnodup
          (fun p hp => (hzombies p hp).imp_right fun ⟨e, he, hep⟩ => ⟨e, hin he, hep⟩) hthread
      have hleft : insert b (insert d (insert c loose)) \ { e | e.ptr ∈ s.zombieBlocks } =
          insert b (insert d (insert c ∅)) := by
        rw [hhosts₅.sdiff_ptrs hin hzombies hloose]
        have hbl : b ∉ loose := fun hmem => hb (Or.inr (Or.inr hmem))
        have hdl : d ∉ loose := fun hmem => hd (Or.inr hmem)
        rw [Set.insert_sdiff_of_notMem _ hbl, Set.insert_sdiff_of_notMem _ hdl,
          Set.insert_sdiff_of_notMem _ hc, Set.sdiff_self]
      have hhosts₇ : k.Hosts roots n s.mem live owned ps array (insert c loose ∪ mine)
          (insert b (insert d (insert c ∅))) s₆.mem := hleft ▸ hhosts₆
      have hsub : insert c (∅ : Set Chunk) ⊆ insert c loose :=
        Set.insert_subset_insert (Set.empty_subset loose)
      have hundone := h.failPt (hhosts₇.threadStackRelease
        (fun hmem => hb (Set.insert_subset_insert hsub hmem)) (fun hmem => hd (hsub hmem)) hbne
        ⟨d.ptr, frame.sp, b.ptr, userStackSize, true⟩ rfl rfl) (Set.notMem_empty c) (Set.empty_subset loose)
      rw [Set.sdiff_empty] at hundone
      exact ⟨hprocesses, hready, Or.inr ⟨hempty, hundone⟩⟩
    · rw [Prod.mk.injEq] at hrun
      exact absurd hrun.1 hne
  · -- a page that cannot be mapped
    simp only [Option.some.injEq, Prod.mk.injEq, true_and] at hrun
    subst hrun
    exact ⟨rfl, rfl, Or.inl ⟨rfl, hback _ (hhosts₄.threadStackRelease hb hd hbne _ rfl rfl)⟩⟩

/-- A kernel that can fork the process with the page table `r`: the blocks that wait to be
reaped are live, each once, and neither page tables nor memory of the process. -/
structure Forkable (k : Machine) (roots : Set TableAddr) (kr r : TableAddr) (s : KernelState)
    (live : Set Chunk) : Prop where
  tables : k.PageTables s.mem live roots
  kernelRoot : kr ∈ roots
  kernel : kr.addr = k.pageTableL4
  parent : r ∈ roots
  nodup : (s.zombieBlocks.filter (· ≠ 0)).Nodup
  zombies : ∀ p ∈ s.zombieBlocks, p = 0 ∨ ∃ c ∈ live, c.ptr = p
  outside : ∀ t, k.Reached s.mem roots t → t.bytes ⊆ k.alloc.kept (live \ s.zombieChunks live)
  frames : ∀ page : Vpn, page.User → ∀ old, k.spaceOf s.mem r.addr page = some old →
    ∀ i < 4096, k.physToVirt old.phys + BitVec.ofNat 64 i ∈
      k.alloc.kept (live \ s.zombieChunks live)
  apart : ∀ page : Vpn, page.User → ∀ old, k.spaceOf s.mem r.addr page = some old →
    ∀ i < 4096, ∀ t, k.Reached s.mem roots t →
      k.physToVirt old.phys + BitVec.ofNat 64 i ∉ t.bytes

/-- The states of a failed fork: what the heap holds, the queues, the page tables and the
memory of the process with the page table `r` are as before, unless the zombies were
reaped. -/
structure Traceless (k : Machine) (roots : Set TableAddr) (r : TableAddr) (live : Set Chunk)
    (s s' : KernelState) : Prop
    extends k.GivenUp roots s.mem live (s.zombieChunks live) s s' where
  contents : ∀ page : Vpn, page.User → ∀ old, k.spaceOf s.mem r.addr page = some old →
    ∀ i < 4096, s'.mem (k.physToVirt old.phys + BitVec.ofNat 64 i) =
      s.mem (k.physToVirt old.phys + BitVec.ofNat 64 i)

namespace Forkable

variable {s s' : KernelState}

theorem traceless (h : k.Forkable roots kr r s live)
    (hgiven : k.GivenUp roots s.mem live (s.zombieChunks live) s s') :
    k.Traceless roots r live s s' := by
  refine ⟨hgiven, fun page huser old hold i hi => ?_⟩
  have hin := h.frames page huser old hold i hi
  have hout := h.apart page huser old hold i hi
  rcases hgiven.memory with ⟨-, hundone⟩ | ⟨-, hundone⟩
  · exact hundone.frame _ hin hout
  · exact hundone.frame _ hin hout

/-- Nothing but the new process object is handed out before the address space is cloned. -/
theorem source (h : k.Forkable roots kr r s live) (hlive : k.alloc.Live m (insert c live))
    (hkept : Set.EqOn m s.mem (k.alloc.kept live)) : k.CloneSource roots r m (insert c live) := by
  have hsub := Set.subset_insert c live
  have hsame : ∀ t, k.Reached s.mem roots t → Set.EqOn m s.mem t.bytes :=
    fun t ht => hkept.mono (h.tables.kept t ht)
  refine ⟨h.tables.congr hlive hsub hsame, h.parent, fun page huser old hold i hi => ?_⟩
  rw [PageTables.spaceOf_congr h.parent hsame] at hold
  exact Allocator.kept_mono (Set.sdiff_subset.trans hsub) (h.frames page huser old hold i hi)

/-- The clone of the address space, with the process object and the zombies in custody. -/
theorem begun {m₁ : Memory} {copies : List (Vpn × Word)} {skip : Vpn → Prop}
    (h : k.Forkable roots kr r s live)
    (hc : c ∉ live) (hkept : Set.EqOn m₁ s.mem (k.alloc.kept live))
    (hcloned : k.Cloned roots r kr n m₁ (insert c live) skip m live' owned copies array) :
    k.Begun roots kr n s.mem live (s.zombieChunks live) m live' ( live' \ insert c live)
      (insert c (s.zombieChunks live)) := by
  have hsub : insert c live ⊆ live' := hcloned.sub
  have hloose : s.zombieChunks live ⊆ live := fun d hd => hd.1
  refine ⟨h.tables, hcloned.tables, h.kernelRoot, hcloned.not_root, ?_, hcloned.kernel, hloose,
    h.outside, Set.sdiff_subset, hcloned.holding.tables, ?_⟩
  · exact (hcloned.kept.mono (Allocator.kept_mono (Set.subset_insert c live))).trans hkept
  · ext d
    constructor
    · rintro ⟨hd, hout⟩
      rw [Set.mem_union, not_or, Set.mem_insert_iff, not_or] at hout
      by_contra hcon
      refine hout.2 ⟨hd, ?_⟩
      rintro (rfl | hmem)
      · exact hout.1.1 rfl
      · exact hcon ⟨hmem, hout.1.2⟩
    · rintro ⟨hd, hout⟩
      refine ⟨hsub (Or.inr hd), ?_⟩
      rintro ((rfl | hmem) | hmem)
      · exact hc hd
      · exact hout hmem
      · exact hmem.2 (Or.inr hd)

end Forkable

/-- A `process_clone` that returns null, wherever it failed, has given back each block it
was handed out.  The laws of the allocator say nothing about `free` of a block that is not
live: no block is freed twice on any of these paths. -/
theorem processClone_traceless {s s' : KernelState} (h : k.Forkable roots kr r s live)
    {parent : Option ProcessObject} (hparent : ∀ p ∈ parent, p.pageTable = r.addr)
    {thread : Option ThreadObject} {frame : Option Registers} {opts : Option CloneOpts}
    {msrFsBase : Word}
    (hrun : k.processClone s parent thread frame opts msrFsBase = some (0, s')) :
    k.Traceless roots r live s s' := by
  apply h.traceless
  have hrefl : k.GivenUp roots s.mem live (s.zombieChunks live) s s :=
    ⟨rfl, rfl, Or.inl ⟨rfl, h.tables.undone h.tables.heap (Set.eqOn_refl _ _)⟩⟩
  unfold processClone at hrun
  split at hrun
  · rename_i parent thread frame
    rcases zalloc_spec h.tables.heap (show sizeofProcess.toNat + 8 ≤ 2 ^ 64 by decide) with
      hnull | ⟨c, m₁, hnew, -, hc, hlive, hkept⟩
    · simp only [hnull, if_true, Option.some.injEq, Prod.mk.injEq, true_and] at hrun
      rw [← hrun]
      exact hrefl
    have hne := k.alloc.ptr_ne_zero hlive (Set.mem_insert c live)
    have hsource := h.source hlive hkept
    simp only [hnew, if_neg hne, hparent parent rfl] at hrun
    rcases cloneUserAddressSpace_spec hsource h.kernelRoot h.kernel userStackLow userStackTop with
      ⟨m₂, hclone, hlive₂, hkept₂⟩ | ⟨n, m₂, live₂, owned, copies, array, hclone, hcloned⟩
    · simp only [hclone, if_true, Option.some.injEq, Prod.mk.injEq, true_and] at hrun
      rw [← hrun]
      obtain ⟨hlive₃, hkept₃⟩ := Allocator.frees_free hlive₂ (Set.mem_insert c live)
      rw [Set.insert_sdiff_self_of_notMem hc] at hlive₃ hkept₃
      have hkept₂' := hkept₂.mono (Allocator.kept_mono (Set.subset_insert c live))
      exact ⟨rfl, rfl, Or.inl ⟨rfl, h.tables.undone hlive₃
        (hkept₃.trans (hkept₂'.trans hkept))⟩⟩
    · simp only [hclone, if_neg hcloned.nonnull] at hrun
      have hbegun := h.begun hc hkept hcloned
      have hapart : Disjoint (insert c (s.zombieChunks live)) (live₂ \ insert c live) := by
        rw [Set.disjoint_left]
        rintro d (rfl | hd) hmem
        · exact hmem.2 (Set.mem_insert d live)
        · exact hmem.2 (Or.inr hd.1)
      have hdata : insert c (s.zombieChunks live) ⊆ live₂ := by
        refine Set.Subset.trans (Set.insert_subset_insert fun d hd => hd.1) hcloned.sub
      have hhosts := hbegun.hosts ⟨hcloned.holding, Set.sdiff_subset, hcloned.other⟩ hdata hapart
      have hgiven := processCloneInto_givenUp (s := { s with mem := m₂ }) hbegun hhosts
        (fun hmem => hc hmem.1) hne h.nodup (fun p hp => (h.zombies p hp).imp_right
          fun ⟨d, hd, hdp⟩ => ⟨d, ⟨hd, show d.ptr ∈ s.zombieBlocks by rwa [hdp]⟩, hdp⟩)
        (fun d hd => hd.2) hrun
      exact ⟨hgiven.processes, hgiven.ready, hgiven.memory⟩
  · simp only [Option.some.injEq, Prod.mk.injEq, true_and] at hrun
    rw [← hrun]
    exact hrefl

/-- In a heap with no room for the stack every fork fails. -/
theorem processClone_eq_null {s : KernelState} (h : k.Forkable roots kr r s live)
    (hsmall : ∀ b : Chunk, b.bytes ⊆ k.alloc.arena → b.ptr.toNat + b.size ≤ 2 ^ 64 →
      b.size < userStackSize.toNat) {parent : ProcessObject} (hparent : parent.pageTable = r.addr)
    (thread : ThreadObject) (frame : Registers) (opts : Option CloneOpts) (msrFsBase : Word) :
    ∃ s', k.processClone s (some parent) (some thread) (some frame) opts msrFsBase =
      some (0, s') := by
  simp only [processClone]
  rcases zalloc_spec h.tables.heap (show sizeofProcess.toNat + 8 ≤ 2 ^ 64 by decide) with
    hnull | ⟨c, m₁, hnew, -, hc, hlive, hkept⟩
  · simp only [hnull, if_true]
    exact ⟨_, rfl⟩
  simp only [hnew, if_neg (k.alloc.ptr_ne_zero hlive (Set.mem_insert c live)), hparent]
  rcases cloneUserAddressSpace_spec (h.source hlive hkept) h.kernelRoot h.kernel userStackLow
    userStackTop with ⟨m₂, hclone, -⟩ | ⟨n, m₂, live₂, owned, copies, array, hclone, hcloned⟩
  · simp only [hclone, if_true]
    exact ⟨_, rfl⟩
  simp only [hclone, if_neg hcloned.nonnull, processCloneInto]
  have hblock : ∀ m live, k.alloc.Live m live →
      (k.alloc.pageAlloc m (userStackSize / 0x1000)).1 = 0 := by
    intro m live hheap
    have hpages : 4096 * (userStackSize / 0x1000 : Word).toNat + 8192 ≤ 2 ^ 64 := by decide
    rcases (k.alloc.pageAlloc_spec hheap hpages).2 with
      hnull | ⟨b, m', hresult, hroom, -, hlive', -⟩
    · rw [hnull]
    · have hb := Set.mem_insert b live
      have hlt := hsmall b (k.alloc.bytes_subset hlive' hb) (k.alloc.bytes_fit hlive' hb)
      exact absurd (show userStackSize.toNat ≤ b.size from hroom) (by omega)
  rcases k.alloc.malloc_spec hcloned.tables.heap
    (show sizeofThreadStack.toNat + 8 ≤ 2 ^ 64 by decide) with
    hnull | ⟨d, m₃, hresult, -, -, hlive₃, -⟩
  · simp only [hnull, ne_eq, not_true_eq_false, if_false, if_true]
    exact ⟨_, rfl⟩
  · have hdne := k.alloc.ptr_ne_zero hlive₃ (Set.mem_insert d live₂)
    simp only [hresult, ne_eq, hdne, not_false_eq_true, if_true, hblock m₃ _ hlive₃]
    exact ⟨_, rfl⟩

end Machine

/-! ### Forking on the sample machine -/

def sampleParent : ProcessObject where
  obj := 0xffff800000002000
  pid := 1
  ppid := 0
  name := []
  pageTable := sampleRoot.addr
  brkStart := 0x600000
  brkCurrent := 0x600000
  mmapStart := 0x400000000000
  mmapCurrent := 0x400000000000
  mainThread := 0xffff800000003000
  fds := List.replicate 32 ⟨0, 0, 0, false⟩
  syscallConv := 0
  ownedPages := PageList.empty
  zombie := false
  exitStatus := 0
  mainTid := 1

def sampleThread : ThreadObject where
  obj := 0xffff800000003000
  id := 1
  name := []
  state := .running
  process := 0xffff800000002000
  fsBase := 0
  main := none
  kernel := none
  ring := 3
  regs := 0xffff800000004000
  frame := Registers.zero .x86_64

def sampleKernel : KernelState := ⟨sampleMemory, [sampleParent], [], [], 2, 2⟩

theorem sampleKernel_forkable :
    (sampleMachine .x86_64).Forkable {sampleRoot} sampleRoot sampleRoot sampleKernel ∅ := by
  have htables := sampleTables .x86_64
  refine ⟨htables, rfl, rfl, rfl, List.nodup_nil, fun p hp => (List.not_mem_nil hp).elim,
    fun t ht => ?_, fun page _ old hold => ?_, fun page _ old hold => ?_⟩
  · refine (htables.kept t ht).trans (Allocator.kept_mono ?_)
    exact Set.empty_subset _
  · cases (congrFun spaceOf_sampleMemory page).symm.trans hold
  · cases (congrFun spaceOf_sampleMemory page).symm.trans hold

/-- Its 64 KiB have no room for a user stack. -/
theorem processClone_traceless_sample : ∃ s',
    (sampleMachine .x86_64).processClone sampleKernel (some sampleParent) (some sampleThread)
        (some sampleThread.frame) none 0 = some (0, s') ∧
      (sampleMachine .x86_64).Traceless {sampleRoot} sampleRoot ∅ sampleKernel s' := by
  have hsmall : ∀ b : Chunk, b.bytes ⊆ (sampleMachine .x86_64).alloc.arena →
      b.ptr.toNat + b.size ≤ 2 ^ 64 → b.size < userStackSize.toNat := by
    intro b hsub hfit
    by_contra hcon
    have hlarge : 0x800000 ≤ b.size := Nat.le_of_not_lt hcon
    have hfirst := hsub (show b.ptr ∈ b.bytes from ⟨le_rfl, by omega⟩)
    have hbase : 0xffff800000100000 ≤ b.ptr.toNat ∧ b.ptr.toNat < 0xffff800000110000 := hfirst
    have haddr : (b.ptr + 0x10000).toNat = b.ptr.toNat + 0x10000 :=
      toNat_add_of_lt (show b.ptr.toNat + 0x10000 < 2 ^ 64 by omega)
    have hlast := hsub (show b.ptr + 0x10000 ∈ b.bytes from ⟨by omega, by omega⟩)
    have hbound : 0xffff800000100000 ≤ (b.ptr + 0x10000).toNat ∧
      (b.ptr + 0x10000).toNat < 0xffff800000110000 := hlast
    omega
  obtain ⟨s', hrun⟩ := Machine.processClone_eq_null sampleKernel_forkable hsmall
    (show sampleParent.pageTable = sampleRoot.addr from rfl) sampleThread sampleThread.frame none 0
  exact ⟨s', hrun, Machine.processClone_traceless sampleKernel_forkable
    (fun p hp => by cases hp; rfl) hrun⟩

end Utopia
