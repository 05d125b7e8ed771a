/-
The program break over runs of `brk`: the heap of a process as a growable array.
-/
import Utopia.Exec.MemoryCalls

namespace Utopia

/-- The pages below the break, from the start of the heap on. -/
def heapPages (process : ProcessSpace) : Set Vpn :=
  { page | process.brkStart.toNat ≤ page.addr.toNat ∧
    page.addr.toNat < (pageAlignUp process.brkCurrent).toNat }

namespace Machine

/-- The byte that the user reads at `va`. -/
def userByte (k : Machine) (m : Memory) (table va : Word) : Option Byte :=
  (k.translate m table va).map fun x => m (k.physToVirt x.phys)

/-- The page is mapped for the user to read and write, to a chunk that holds data. -/
def HeapPage (k : Machine) (r : TableAddr) (m : Memory) (data : Set Chunk) (page : Vpn) : Prop :=
  ∃ d ∈ data, 4096 ≤ d.size ∧
    k.spaceOf m r.addr page = some ⟨k.hhdmVirtToPhys d.ptr, userWritable⟩

/-- The same, and it reads as zeros. -/
def ZeroPage (k : Machine) (r : TableAddr) (m : Memory) (data : Set Chunk) (page : Vpn) : Prop :=
  ∃ d ∈ data, 4096 ≤ d.size ∧
    k.spaceOf m r.addr page = some ⟨k.hhdmVirtToPhys d.ptr, userWritable⟩ ∧
    ∀ x ∈ span d.ptr 4096, m x = 0

/-- A process whose heap is mapped, page by page, to chunks that hold data. -/
structure BrkHeap (k : Machine) (roots : Set TableAddr) (r : TableAddr) (m : Memory)
    (process : ProcessSpace) (live : Set Chunk) (ps : List Word)
    (array mine data : Set Chunk) : Prop where
  tables : k.PageTables m live roots
  root : r ∈ roots
  table : process.pageTable = r.addr
  tenant : k.Tenant roots r m live process.ownedPages ps array mine
  holds : k.HoldsData roots m live array data
  aligned : process.brkStart.toNat % 4096 = 0
  start_le : process.brkStart.toNat ≤ process.brkCurrent.toNat
  bound : process.brkCurrent = process.brkStart ∨ process.brkCurrent.toNat < 2 ^ 47
  mapped : ∀ page ∈ heapPages process, k.HeapPage r m data page

/-- What the process itself stores and what others do leaves its address space as it is, and
its chunks to it. -/
def LeavesHeap (k : Machine) (roots : Set TableAddr) (r : TableAddr) (owned : PageList)
    (m m' : Memory) : Prop :=
  k.spaceOf m' r.addr = k.spaceOf m r.addr ∧ ∀ live ps array mine data,
    k.PageTables m live roots → k.Tenant roots r m live owned ps array mine →
    k.HoldsData roots m live array data → ∃ live', k.PageTables m' live' roots ∧
      k.Tenant roots r m' live' owned ps array mine ∧ k.HoldsData roots m' live' array data

/-- The process after `brk` calls, from a break at the start of its heap on. -/
inductive BrkReachable (k : Machine) (roots : Set TableAddr) (r : TableAddr) :
    Memory → ProcessSpace → Prop where
  | start {m : Memory} {process : ProcessSpace} {live array mine : Set Chunk} {ps : List Word}
      (htables : k.PageTables m live roots) (hr : r ∈ roots)
      (htable : process.pageTable = r.addr)
      (htenant : k.Tenant roots r m live process.ownedPages ps array mine)
      (haligned : process.brkStart.toNat % 4096 = 0)
      (hstart : process.brkCurrent = process.brkStart) : BrkReachable k roots r m process
  | brk {m : Memory} {process : ProcessSpace} (h : BrkReachable k roots r m process)
      (requestedBreak : Word) : BrkReachable k roots r (k.syscallBrk m process requestedBreak).2.1
        (k.syscallBrk m process requestedBreak).2.2
  | others {m m' : Memory} {process : ProcessSpace} (h : BrkReachable k roots r m process)
      (hleaves : k.LeavesHeap roots r process.ownedPages m m') : BrkReachable k roots r m' process

variable {k : Machine} {m m' : Memory} {live mine array data : Set Chunk} {roots : Set TableAddr}
  {r : TableAddr} {owned : PageList} {ps : List Word} {process : ProcessSpace}

/-! ### Growing -/

/-- The heap while `grow_process_brk` has mapped the pages `done`. -/
def GrowsHeap (k : Machine) (roots : Set TableAddr) (r : TableAddr) (m : Memory)
    (data : Set Chunk) (pages : Set Vpn) (done : List Word) (m' : Memory) (owned' : PageList) :
    Prop :=
  ∃ live' ps' array' mine' data', k.PageTables m' live' roots ∧
    k.Tenant roots r m' live' owned' ps' array' mine' ∧ k.HoldsData roots m' live' array' data' ∧
    data ⊆ data' ∧ KeepsData m m' data ∧
    (∀ page ∉ pages, k.spaceOf m' r.addr page = k.spaceOf m r.addr page) ∧
    ∀ va ∈ done, k.ZeroPage r m' data' (vpn va)

theorem ZeroPage.mono {data' : Set Chunk} {page : Vpn} (h : k.ZeroPage r m data page)
    (hsub : data ⊆ data') (hkeeps : KeepsData m m' data)
    (hspace : k.spaceOf m' r.addr page = k.spaceOf m r.addr page) :
    k.ZeroPage r m' data' page := by
  obtain ⟨d, hd, hsize, hmapped, hzero⟩ := h
  refine ⟨d, hsub hd, hsize, hspace.trans hmapped, fun x hx => ?_⟩
  rw [← hzero x hx]
  exact hkeeps d hd (span_subset_span le_rfl (by omega) hx)

theorem growProcessBrk_run (h : k.BrkHeap roots r m process live ps array mine data)
    {newBreak : Word} (hlimit : newBreak < userHeapMax) :
    k.GrowsHeap roots r m data
      (pagesOf (pageAlignUp process.brkCurrent) (pageAlignUp newBreak))
      (if (k.growProcessBrk m process newBreak).1 = 0 then
        pagesBetween (pageAlignUp process.brkCurrent) (pageAlignUp newBreak) else [])
      (k.growProcessBrk m process newBreak).2.1
      (k.growProcessBrk m process newBreak).2.2.ownedPages := by
  have hloop := forEach_rule (k.growPage process.pageTable)
    (pagesBetween (pageAlignUp process.brkCurrent) (pageAlignUp newBreak))
    (fun done s => k.GrowsHeap roots r m data
      (pagesOf (pageAlignUp process.brkCurrent) (pageAlignUp newBreak)) done s.1 s.2)
    (fun s => k.GrowsHeap roots r m data
      (pagesOf (pageAlignUp process.brkCurrent) (pageAlignUp newBreak)) [] s.1 s.2)
    (s := (m, process.ownedPages))
    ⟨live, ps, array, mine, data, h.tables, h.tenant, h.holds, subset_rfl,
      fun _ _ => Set.eqOn_refl _ _, fun _ _ => rfl, by simp⟩ ?_
  · rw [growProcessBrk]
    rcases hloop with ⟨hzero, hinv⟩ | ⟨hne, hfail⟩
    · simp only [hzero, if_true]
      exact hinv
    · simp only [if_neg hne]
      exact hfail
  · rintro done va rest ⟨m₁, owned₁⟩ hsplit
      ⟨live₁, ps₁, array₁, mine₁, data₁, htables, htenant, hholds, hsub, hkeeps, hout, hdone⟩
    have hva : va ∈ pagesBetween (pageAlignUp process.brkCurrent) (pageAlignUp newBreak) := by
      simp [hsplit]
    have hpage : vpn va ∈ pagesOf (pageAlignUp process.brkCurrent) (pageAlignUp newBreak) :=
      ⟨va, hva, rfl⟩
    obtain ⟨live₂, ps₂, array₂, mine₂, hserves, -, -, hgrows⟩ := growPage_run htables h.root
      htenant (user_of_mem_brk hlimit hva)
    obtain ⟨hkeeps₂, hcase⟩ := hgrows data₁ hholds
    rw [h.table]
    dsimp only at *
    have hbytes := hkeeps.trans (hkeeps₂.mono hsub)
    have hothers : (∀ page ≠ vpn va,
        k.spaceOf (k.growPage r.addr va (m₁, owned₁)).2.1 r.addr page =
          k.spaceOf m₁ r.addr page) →
        ∀ page ∉ pagesOf (pageAlignUp process.brkCurrent) (pageAlignUp newBreak),
          k.spaceOf (k.growPage r.addr va (m₁, owned₁)).2.1 r.addr page =
            k.spaceOf m r.addr page := by
      intro hsame page hout'
      have hne : page ≠ vpn va := fun heq => hout' (heq ▸ hpage)
      rw [hsame page hne, hout page hout']
    rcases hcase with ⟨hzero, c, hnew, hholds₂, hsize, hzeroed, hspace⟩ | ⟨hne, hholds₂, hsame⟩
    · refine Or.inl ⟨hzero, live₂, ps₂, array₂, mine₂, insert c data₁, hserves.alters.tables,
        hserves.tenant, hholds₂, hsub.trans (Set.subset_insert c data₁), hbytes,
        hothers fun page hne => ?_, ?_⟩
      · rw [hspace, Function.update_of_ne hne]
      · intro va' hva'
        by_cases heq : vpn va' = vpn va
        · refine ⟨c, Set.mem_insert c data₁, hsize, ?_, hzeroed⟩
          rw [heq, hspace, Function.update_self]
        · rcases List.mem_append.mp hva' with hold | hlast
          · refine (hdone va' hold).mono (Set.subset_insert c data₁) hkeeps₂ ?_
            rw [hspace, Function.update_of_ne heq]
          · exact absurd (congrArg vpn (List.mem_singleton.mp hlast)) heq
    · exact Or.inr ⟨hne, live₂, ps₂, array₂, mine₂, data₁, hserves.alters.tables, hserves.tenant,
        hholds₂, hsub, hbytes, hothers hsame, by simp⟩

/-! ### One call -/

/-- `brk` leaves the break where it is. -/
def BrkRefused (k : Machine) (m : Memory) (process : ProcessSpace) (requestedBreak : Word) : Prop :=
  requestedBreak = 0 ∨ requestedBreak < process.brkStart ∨ userHeapMax ≤ requestedBreak ∨
    process.brkCurrent < requestedBreak ∧ (k.growProcessBrk m process requestedBreak).1 ≠ 0

/-- The call treats the heap as an array that grows and shrinks. -/
structure GrowsArray (k : Machine) (r : TableAddr) (m : Memory) (process : ProcessSpace)
    (requestedBreak : Word) (result : Word × Memory × ProcessSpace) : Prop where
  mapped : ∀ page ∈ heapPages result.2.2, ∃ x,
    k.spaceOf result.2.1 r.addr page = some x ∧ x.flags = userWritable
  kept : ∀ va : Word, process.brkStart ≤ va → va < process.brkCurrent →
    va < result.2.2.brkCurrent → ∃ b, k.userByte m r.addr va = some b ∧
      k.userByte result.2.1 r.addr va = some b
  zeroed : ∀ va : Word, pageAlignUp process.brkCurrent ≤ va →
    va < pageAlignUp result.2.2.brkCurrent → k.userByte result.2.1 r.addr va = some 0
  answer : result.1 = result.2.2.brkCurrent
  refused : k.BrkRefused m process requestedBreak → result.2.2.brkCurrent = process.brkCurrent
  done : ¬ k.BrkRefused m process requestedBreak → result.2.2.brkCurrent = requestedBreak

/-! ### The bytes of the heap -/

theorem userByte_of_mapped {va p : Word} {flags : VmFlags}
    (h : k.spaceOf m r.addr (vpn va) = some ⟨k.hhdmVirtToPhys p, flags⟩) :
    k.userByte m r.addr va = some (m (p + (va &&& 4095))) := by
  rw [userByte, translate_eq_spaceOf, h, Option.map_some, Option.map_some]
  dsimp only
  rw [physToVirt, hhdmVirtToPhys, ← BitVec.add_assoc, BitVec.add_comm k.hhdmOffset,
    BitVec.sub_add_cancel]

theorem offset_mem_span {p va : Word} {size : Nat} (hsize : 4096 ≤ size)
    (hfit : p.toNat + size ≤ 2 ^ 64) : p + (va &&& 4095) ∈ span p 4096 := by
  have hlow : (va &&& 4095).toNat = va.toNat % 4096 := by
    have hmask : levelSpan 0 - 1 = 4095 := by decide
    rw [← hmask, toNat_and_span va (by omega)]
    rfl
  rw [mem_span, toNat_add_of_lt (by omega), hlow]
  omega

/-- A byte of the heap stays as it is where its page and its chunk do. -/
theorem HeapPage.userByte_eq {va : Word} (h : k.HeapPage r m data (vpn va))
    (hlive : k.alloc.Live m live) (hsub : data ⊆ live) (hkeeps : KeepsData m m' data)
    (hspace : k.spaceOf m' r.addr (vpn va) = k.spaceOf m r.addr (vpn va)) :
    ∃ b, k.userByte m r.addr va = some b ∧ k.userByte m' r.addr va = some b := by
  obtain ⟨d, hd, hsize, hmapped⟩ := h
  refine ⟨_, userByte_of_mapped hmapped, ?_⟩
  rw [userByte_of_mapped (hspace.trans hmapped), Option.some.injEq]
  exact hkeeps d hd (span_subset_span le_rfl (by omega)
    (offset_mem_span hsize (k.alloc.bytes_fit hlive (hsub hd))))

theorem ZeroPage.userByte {va : Word} (h : k.ZeroPage r m data (vpn va))
    (hlive : k.alloc.Live m live) (hsub : data ⊆ live) : k.userByte m r.addr va = some 0 := by
  obtain ⟨d, hd, hsize, hmapped, hzero⟩ := h
  rw [userByte_of_mapped hmapped, Option.some.injEq]
  exact hzero _ (offset_mem_span hsize (k.alloc.bytes_fit hlive (hsub hd)))

theorem ZeroPage.heapPage {page : Vpn} (h : k.ZeroPage r m data page) :
    k.HeapPage r m data page := by
  obtain ⟨d, hd, hsize, hmapped, -⟩ := h
  exact ⟨d, hd, hsize, hmapped⟩

theorem HeapPage.mono {data' : Set Chunk} {page : Vpn} (h : k.HeapPage r m data page)
    (hsub : data ⊆ data') (hspace : k.spaceOf m' r.addr page = k.spaceOf m r.addr page) :
    k.HeapPage r m' data' page := by
  obtain ⟨d, hd, hsize, hmapped⟩ := h
  exact ⟨d, hsub hd, hsize, hspace.trans hmapped⟩

/-- Rounding up, for values below the limit. -/
theorem pageAlignUp_of_lt {value : Word} (h : value.toNat < 2 ^ 47) :
    (pageAlignUp value).toNat = (value.toNat + 4095) / 4096 * 4096 := by
  rw [pageAlignUp_toNat]
  omega

/-- The page of a user address. -/
theorem addr_vpn {va : Word} (h : va.toNat < 2 ^ 47) :
    (vpn va).addr.toNat = va.toNat / 4096 * 4096 := by
  rw [Vpn.addr_toNat, vpn_toNat]
  omega

theorem vpn_mem_heapPages (haligned : process.brkStart.toNat % 4096 = 0)
    (hbound : process.brkCurrent.toNat < 2 ^ 47) {va : Word} (hlow : process.brkStart ≤ va)
    (hhigh : va < process.brkCurrent) : vpn va ∈ heapPages process := by
  have hlow' : process.brkStart.toNat ≤ va.toNat := hlow
  have hhigh' : va.toNat < process.brkCurrent.toNat := hhigh
  have hpage := addr_vpn (show va.toNat < 2 ^ 47 by omega)
  have hend := pageAlignUp_of_lt hbound
  constructor <;> omega

/-- The pages that `grow_process_brk` visits. -/
theorem mem_pagesBetween_of_page {start stop va : Word} (hstart : start.toNat % 4096 = 0)
    (hstop : stop.toNat % 4096 = 0) (haligned : va.toNat % 4096 = 0) (hlow : start.toNat ≤ va.toNat)
    (hhigh : va.toNat < stop.toNat) : va ∈ pagesBetween start stop := by
  have hlt := stop.isLt
  refine List.mem_map.mpr ⟨(va.toNat - start.toNat) / 4096, List.mem_range.mpr (by omega), ?_⟩
  have hmul : (4096 * BitVec.ofNat 64 ((va.toNat - start.toNat) / 4096) : Word).toNat =
      va.toNat - start.toNat := by
    rw [BitVec.toNat_mul, BitVec.toNat_ofNat]
    change 4096 * (_ % 2 ^ 64) % 2 ^ 64 = _
    omega
  apply BitVec.eq_of_toNat_eq
  rw [toNat_add_of_lt, hmul]
  · omega
  · omega

/-! ### One call on a heap -/

/-- What a call leaves behind: a heap that grew or shrank as an array. -/
def ServesHeap (k : Machine) (roots : Set TableAddr) (r : TableAddr) (m : Memory)
    (process : ProcessSpace) (requestedBreak : Word) (result : Word × Memory × ProcessSpace) :
    Prop :=
  (∃ live ps array mine data,
    k.BrkHeap roots r result.2.1 result.2.2 live ps array mine data) ∧
  k.GrowsArray r m process requestedBreak result

/-- The pages of the heap are not those that a growing heap maps. -/
theorem heapPages_outside {requestedBreak : Word} {page : Vpn} (hpage : page ∈ heapPages process)
    (hlimit : requestedBreak.toNat < 2 ^ 47) :
    page ∉ pagesOf (pageAlignUp process.brkCurrent) (pageAlignUp requestedBreak) := by
  rintro ⟨va, hva, rfl⟩
  obtain ⟨i, hi, hnat⟩ := mem_pagesBetween_toNat hva
  have hend := pageAlignUp_of_lt hlimit
  have haddr := addr_vpn (show va.toNat < 2 ^ 47 by omega)
  have haligned := pageAlignUp_aligned process.brkCurrent
  have hhigh := hpage.2
  omega

section Call

variable (h : k.BrkHeap roots r m process live ps array mine data) {requestedBreak : Word}

include h

theorem BrkHeap.heapPage_mapped {page : Vpn} (hpage : page ∈ heapPages process) : ∃ x,
    k.spaceOf m r.addr page = some x ∧ x.flags = userWritable := by
  obtain ⟨d, -, -, hmapped⟩ := h.mapped page hpage
  exact ⟨_, hmapped, rfl⟩

/-- No byte lies below a break that stayed at the start. -/
theorem BrkHeap.kept_of {va : Word} (hlow : process.brkStart ≤ va)
    (hhigh : va < process.brkCurrent) (hkeeps : KeepsData m m' data)
    (hspace : ∀ page ∈ heapPages process, k.spaceOf m' r.addr page = k.spaceOf m r.addr page) :
    ∃ b, k.userByte m r.addr va = some b ∧ k.userByte m' r.addr va = some b := by
  have hlow' : process.brkStart.toNat ≤ va.toNat := hlow
  have hhigh' : va.toNat < process.brkCurrent.toNat := hhigh
  have hbound : process.brkCurrent.toNat < 2 ^ 47 := by
    rcases h.bound with heq | hlt
    · rw [heq] at hhigh'
      omega
    · exact hlt
  have hpage := vpn_mem_heapPages h.aligned hbound hlow hhigh
  exact (h.mapped _ hpage).userByte_eq h.tables.heap h.holds.sub hkeeps (hspace _ hpage)

/-- The break stays, and nothing else changes. -/
theorem BrkHeap.serves_same (hrefused : k.BrkRefused m process requestedBreak) :
    k.ServesHeap roots r m process requestedBreak (process.brkCurrent, m, process) := by
  refine ⟨⟨live, ps, array, mine, data, h⟩, ⟨fun page hpage => h.heapPage_mapped hpage, ?_, ?_, rfl,
    fun _ => rfl, fun hnot => absurd hrefused hnot⟩⟩
  · exact fun va hlow hhigh _ => h.kept_of hlow hhigh (fun _ _ => Set.eqOn_refl _ _) fun _ _ => rfl
  · intro va hlow hhigh
    exact absurd hhigh (BitVec.not_lt.mpr hlow)

/-- The break moves down. -/
theorem BrkHeap.serves_shrink (hin : process.brkStart ≤ requestedBreak)
    (hle : requestedBreak ≤ process.brkCurrent)
    (hgranted : ¬ k.BrkRefused m process requestedBreak) :
    k.ServesHeap roots r m process requestedBreak
      (requestedBreak, m, { process with brkCurrent := requestedBreak }) := by
  have hin' : process.brkStart.toNat ≤ requestedBreak.toNat := hin
  have hle' : requestedBreak.toNat ≤ process.brkCurrent.toNat := hle
  have hlimit : requestedBreak.toNat < 2 ^ 47 := by
    by_contra hbig
    exact hgranted (Or.inr (Or.inr (Or.inl (Nat.le_of_not_lt hbig))))
  have hbound : process.brkCurrent.toNat < 2 ^ 47 := by
    rcases h.bound with heq | hlt
    · rw [heq] at hle' ⊢
      omega
    · exact hlt
  have hend := pageAlignUp_of_lt hbound
  have hend' := pageAlignUp_of_lt hlimit
  have hpages : ∀ page ∈ heapPages { process with brkCurrent := requestedBreak },
      page ∈ heapPages process := by
    intro page hpage
    have hhigh : page.addr.toNat < (pageAlignUp requestedBreak).toNat := hpage.2
    exact ⟨hpage.1, by omega⟩
  refine ⟨⟨live, ps, array, mine, data, h.tables, h.root, h.table, h.tenant, h.holds, h.aligned,
    hin', Or.inr hlimit, fun page hpage => h.mapped page (hpages page hpage)⟩,
    ⟨fun page hpage => h.heapPage_mapped (hpages page hpage), ?_, ?_, rfl,
      fun hrefused => absurd hrefused hgranted, fun _ => rfl⟩⟩
  · exact fun va hlow hhigh _ => h.kept_of hlow hhigh (fun _ _ => Set.eqOn_refl _ _) fun _ _ => rfl
  · intro va hlow hhigh
    have hlow' : (pageAlignUp process.brkCurrent).toNat ≤ va.toNat := hlow
    have hhigh' : va.toNat < (pageAlignUp requestedBreak).toNat := hhigh
    omega

/-- The break moves up, or the memory ran out on the way. -/
theorem BrkHeap.serves_grow (hin : process.brkStart ≤ requestedBreak) (hzero : requestedBreak ≠ 0)
    (hlimit : requestedBreak < userHeapMax) (hgrow : process.brkCurrent < requestedBreak) :
    k.ServesHeap roots r m process requestedBreak
      (if (k.growProcessBrk m process requestedBreak).1 ≠ 0 then
        (process.brkCurrent, (k.growProcessBrk m process requestedBreak).2.1,
          (k.growProcessBrk m process requestedBreak).2.2)
      else (requestedBreak, (k.growProcessBrk m process requestedBreak).2.1,
        { (k.growProcessBrk m process requestedBreak).2.2 with brkCurrent := requestedBreak })) := by
  have hlimit' : requestedBreak.toNat < 2 ^ 47 := hlimit
  have hgrow' : process.brkCurrent.toNat < requestedBreak.toNat := hgrow
  have hend := pageAlignUp_of_lt hlimit'
  have hend' := pageAlignUp_of_lt (show process.brkCurrent.toNat < 2 ^ 47 by omega)
  have hrefused_iff : k.BrkRefused m process requestedBreak ↔
      (k.growProcessBrk m process requestedBreak).1 ≠ 0 := by
    constructor
    · rintro (heq | hlow | hhigh | ⟨-, hfail⟩)
      · exact absurd heq hzero
      · exact absurd hlow (BitVec.not_lt.mpr hin)
      · exact absurd hlimit (BitVec.not_lt.mpr hhigh)
      · exact hfail
    · exact fun hfail => Or.inr (Or.inr (Or.inr ⟨hgrow, hfail⟩))
  obtain ⟨live', ps', array', mine', data', htables, htenant, hholds, hsub, hkeeps, hout, hdone⟩ :=
    growProcessBrk_run h hlimit
  have hprocess : (k.growProcessBrk m process requestedBreak).2.2 =
      { process with
        ownedPages := (k.growProcessBrk m process requestedBreak).2.2.ownedPages } := rfl
  have hsame : ∀ page ∈ heapPages process,
      k.spaceOf (k.growProcessBrk m process requestedBreak).2.1 r.addr page =
        k.spaceOf m r.addr page :=
    fun page hpage => hout page (heapPages_outside hpage hlimit')
  generalize k.growProcessBrk m process requestedBreak = grown at *
  obtain ⟨status, m', process'⟩ := grown
  dsimp only at *
  rw [hprocess]
  by_cases hstatus : status = 0
  · rw [if_pos hstatus] at hdone
    rw [if_neg (not_not.mpr hstatus)]
    have hgranted : ¬ k.BrkRefused m process requestedBreak :=
      hrefused_iff.not.mpr (not_not.mpr hstatus)
    have hpages : ∀ page ∈ heapPages { process with brkCurrent := requestedBreak },
        k.HeapPage r m' data' page := by
      intro page hpage
      have hhigh : page.addr.toNat < (pageAlignUp requestedBreak).toNat := hpage.2
      rcases Nat.lt_or_ge page.addr.toNat (pageAlignUp process.brkCurrent).toNat with hold | hnew
      · exact (h.mapped page ⟨hpage.1, hold⟩).mono hsub (hsame page ⟨hpage.1, hold⟩)
      · have hva := mem_pagesBetween_of_page (pageAlignUp_aligned process.brkCurrent)
          (pageAlignUp_aligned requestedBreak) page.addr_mod hnew hhigh
        have hzeroed := (hdone _ hva).heapPage
        rwa [vpn_addr] at hzeroed
    refine ⟨⟨live', ps', array', mine', data', htables, h.root, h.table, htenant, hholds, h.aligned,
      hin, Or.inr hlimit', hpages⟩, ⟨fun page hpage => ?_, ?_, ?_, rfl,
      fun hrefused => absurd hrefused hgranted, fun _ => rfl⟩⟩
    · obtain ⟨d, -, -, hmapped⟩ := hpages page hpage
      exact ⟨_, hmapped, rfl⟩
    · exact fun va hlow hhigh _ => h.kept_of hlow hhigh hkeeps hsame
    · intro va hlow hhigh
      have hlow' : (pageAlignUp process.brkCurrent).toNat ≤ va.toNat := hlow
      have hhigh' : va.toNat < (pageAlignUp requestedBreak).toNat := hhigh
      have haligned := pageAlignUp_aligned process.brkCurrent
      have haddr := addr_vpn (show va.toNat < 2 ^ 47 by omega)
      have hva := mem_pagesBetween_of_page haligned
        (pageAlignUp_aligned requestedBreak) (vpn va).addr_mod (by omega) (by omega)
      have hzeroed := hdone _ hva
      rw [vpn_addr] at hzeroed
      exact hzeroed.userByte htables.heap hholds.sub
  · rw [if_pos hstatus]
    have hrefused := hrefused_iff.mpr hstatus
    refine ⟨⟨live', ps', array', mine', data', htables, h.root, h.table, htenant, hholds, h.aligned,
      h.start_le, h.bound, fun page hpage => (h.mapped page hpage).mono hsub (hsame page hpage)⟩,
      ⟨fun page hpage => ?_, ?_, ?_, rfl, fun _ => rfl, fun hnot => absurd hrefused hnot⟩⟩
    · rw [hsame page hpage]
      exact h.heapPage_mapped hpage
    · exact fun va hlow hhigh _ => h.kept_of hlow hhigh hkeeps hsame
    · intro va hlow hhigh
      exact absurd hhigh (BitVec.not_lt.mpr hlow)

theorem BrkHeap.serves (requestedBreak : Word) : k.ServesHeap roots r m process requestedBreak
    (k.syscallBrk m process requestedBreak) := by
  rw [syscallBrk]
  by_cases hzero : requestedBreak = 0
  · rw [if_pos hzero]
    exact h.serves_same (Or.inl hzero)
  rw [if_neg hzero]
  by_cases hrange : requestedBreak < process.brkStart ∨ userHeapMax ≤ requestedBreak
  · rw [if_pos hrange]
    refine h.serves_same (Or.inr ?_)
    exact hrange.imp_right Or.inl
  rw [if_neg hrange]
  rw [not_or] at hrange
  have hin : process.brkStart ≤ requestedBreak := BitVec.not_lt.mp hrange.1
  have hlimit : requestedBreak < userHeapMax := BitVec.not_le.mp hrange.2
  by_cases hgrow : process.brkCurrent < requestedBreak
  · simp only [if_pos hgrow]
    exact h.serves_grow hin hzero hlimit hgrow
  · simp only [if_neg hgrow]
    rw [if_neg (not_not.mpr rfl)]
    refine h.serves_shrink hin (BitVec.not_lt.mp hgrow) ?_
    rintro (heq | hlow | hhigh | ⟨hmore, -⟩)
    · exact hzero heq
    · exact hrange.1 hlow
    · exact hrange.2 hhigh
    · exact hgrow hmore

end Call

/-! ### Runs -/

/-- The heap of a process in every state that it reaches. -/
theorem BrkReachable.brkHeap (h : k.BrkReachable roots r m process) :
    ∃ live ps array mine data, k.BrkHeap roots r m process live ps array mine data := by
  induction h with
  | @start m process live array mine ps htables hr htable htenant haligned hstart =>
      refine ⟨live, ps, array, mine, ∅, htables, hr, htable, htenant,
        ⟨Set.empty_subset _, Set.disjoint_left.mpr fun d hd => hd.elim, fun d hd => hd.elim⟩,
        haligned, by rw [hstart], Or.inl hstart, fun page hpage => ?_⟩
      have hlt := process.brkStart.isLt
      have hlow := hpage.1
      have hhigh := hpage.2
      rw [hstart, pageAlignUp_toNat] at hhigh
      omega
  | brk h requestedBreak ih =>
      obtain ⟨live, ps, array, mine, data, hheap⟩ := ih
      exact (hheap.serves requestedBreak).1
  | others h hleaves ih =>
      obtain ⟨live, ps, array, mine, data, hheap⟩ := ih
      obtain ⟨hspace, hkeep⟩ := hleaves
      obtain ⟨live', htables, htenant, hholds⟩ := hkeep live ps array mine data hheap.tables
        hheap.tenant hheap.holds
      exact ⟨live', ps, array, mine, data, htables, hheap.root, hheap.table, htenant, hholds,
        hheap.aligned, hheap.start_le, hheap.bound, fun page hpage =>
          (hheap.mapped page hpage).mono subset_rfl (congrFun hspace page)⟩

/-- `brk` treats the heap as an array that grows and shrinks, in every state. -/
theorem brkReachable_growableArray (h : k.BrkReachable roots r m process)
    (requestedBreak : Word) :
    k.GrowsArray r m process requestedBreak (k.syscallBrk m process requestedBreak) := by
  obtain ⟨live, ps, array, mine, data, hheap⟩ := h.brkHeap
  exact (hheap.serves requestedBreak).2

end Machine

/-- The heap of the sample process grows by two pages and shrinks into the first. -/
theorem brkReachable_growableArray_sample : ∃ m process,
    (sampleMachine .x86_64).syscallBrk sampleSpace.2 sampleProcess 0x602000 =
        (0x602000, m, process) ∧
      (sampleMachine .x86_64).spaceOf m sampleTable.addr 0x601 ≠ none ∧
      (sampleMachine .x86_64).GrowsArray sampleTable m process 0x600010
        ((sampleMachine .x86_64).syscallBrk m process 0x600010) := by
  obtain ⟨c, htables, htenant⟩ := sampleTenant
  have hstart : (sampleMachine .x86_64).BrkReachable {sampleTable, sampleRoot} sampleTable
      sampleSpace.2 sampleProcess :=
    Machine.BrkReachable.start htables (Set.mem_insert _ _) rfl htenant (by decide) rfl
  have hret : ((sampleMachine .x86_64).syscallBrk sampleSpace.2 sampleProcess 0x602000).1 =
      0x602000 := by decide
  have hmapped : (sampleMachine .x86_64).spaceOf
      ((sampleMachine .x86_64).syscallBrk sampleSpace.2 sampleProcess 0x602000).2.1
      sampleTable.addr 0x601 ≠ none := by decide
  exact ⟨_, _, Prod.ext hret rfl, hmapped,
    Machine.brkReachable_growableArray (hstart.brk 0x602000) 0x600010⟩

end Utopia
