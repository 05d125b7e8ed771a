/-
Sequences of memory calls of one process: which of them leave the kernel half
alone, and which of them map only what is not mapped yet.
-/
import Utopia.Exec.MmapCall

namespace Utopia

inductive MemoryCall where
  | brk (requestedBreak : Word)
  | mmap (addr length prot flags fd offset : Word)
  | mprotect (addr length prot : Word)
  | munmap (addr length : Word)

def mapFixed : Word := 0x10

namespace MemoryCall

/-- The return value and what the call leaves behind; no result when the kernel
faults. -/
def run (k : Machine) (m : Memory) (process : ProcessSpace) :
    MemoryCall → Option (Word × Memory × ProcessSpace)
  | brk requestedBreak => some (k.syscallBrk m process requestedBreak)
  | mmap addr length prot flags fd offset =>
      k.syscallMmap m process addr length prot flags fd offset
  | mprotect addr length prot =>
      let (ret, m) := k.syscallMprotect m process addr length prot
      some (ret, m, process)
  | munmap addr length =>
      let (ret, m) := k.syscallMunmap m process addr length
      some (ret, m, process)

/-- The pages that the call goes through. -/
def pages (k : Machine) (m : Memory) (process : ProcessSpace) : MemoryCall → Set Vpn
  | brk requestedBreak => Machine.brkPages process requestedBreak
  | mmap addr length _ flags fd _ => k.mmapTouched m process addr length flags fd
  | mprotect addr length _ => Machine.rangePages addr length
  | munmap addr length => Machine.rangePages addr length

/-- `brk`, and `mmap` without `MAP_FIXED`. -/
def MapsNewPages : MemoryCall → Prop
  | brk _ => True
  | mmap _ _ _ flags _ _ => hasBits flags mapFixed = false
  | mprotect _ _ _ => False
  | munmap _ _ => False

/-- The mapping loop of `mmap` fails, if at all, before it has mapped a page. -/
def Undisturbed (k : Machine) (m : Memory) (process : ProcessSpace) : MemoryCall → Prop
  | mmap addr length prot flags fd offset => ∀ block status m',
      k.MmapRuns m process addr length prot flags fd offset block (status, m') → status ≠ 0 →
        k.spaceOf m' process.pageTable = k.spaceOf m process.pageTable
  | _ => True

/-- The call leaves no chunk behind that nobody holds: `brk` grows all the way, and
`mmap` maps nothing. -/
def Tidy (k : Machine) (m : Memory) (process : ProcessSpace) : MemoryCall → Prop
  | brk requestedBreak =>
      process.BrkGrows requestedBreak → (k.growProcessBrk m process requestedBreak).1 = 0
  | mmap addr length prot flags fd offset => ∀ block m',
      ¬ k.MmapRuns m process addr length prot flags fd offset block (0, m')
  | _ => True

end MemoryCall

namespace Machine

variable {k : Machine} {m m' : Memory} {live mine array : Set Chunk} {tops : Set (Fin 512)}
  {pages : Set Vpn} {roots : Set TableAddr} {r : TableAddr} {owned owned' : PageList}
  {ps : List Word} {process process' : ProcessSpace} {ret : Word}

/-- What a memory call did: it maps new frames only if `undisturbed`, and leaves nothing
behind that nobody holds if `tidy`. -/
def ServesCall (k : Machine) (tops : Set (Fin 512)) (pages : Set Vpn) (roots : Set TableAddr)
    (r : TableAddr) (m : Memory) (live : Set Chunk) (ps : List Word) (mine : Set Chunk)
    (undisturbed tidy : Prop) (m' : Memory) (owned' : PageList) : Prop :=
  ∃ live' ps' array' mine',
    k.Serves tops pages roots r m live ps mine m' live' owned' ps' array' mine' ∧
      (undisturbed → k.MapsNew r m live mine m' live' ps' mine') ∧
      (tidy → tops = userTops → live' \ mine' ⊆ live \ mine)

theorem ServesNew.servesCall {clean undisturbed tidy : Prop}
    (h : k.ServesNew tops pages roots r m live ps mine clean m' owned')
    (hclean : tidy → tops = userTops → clean) :
    k.ServesCall tops pages roots r m live ps mine undisturbed tidy m' owned' := by
  obtain ⟨live', ps', array', mine', hserves, hmaps, hrest⟩ := h
  exact ⟨live', ps', array', mine', hserves, fun _ => hmaps,
    fun htidy htops => hrest (hclean htidy htops)⟩

theorem ServesNew.mono_tops {tops' : Set (Fin 512)} {clean : Prop}
    (h : k.ServesNew tops pages roots r m live ps mine clean m' owned') (hsub : tops ⊆ tops') :
    k.ServesNew tops' pages roots r m live ps mine clean m' owned' := by
  obtain ⟨live', ps', array', mine', hserves, hmaps, hrest⟩ := h
  refine ⟨live', ps', array', mine', { hserves with alters := { hserves.alters with
    reached := fun r' hr' q t hq => ?_ } }, hmaps, hrest⟩
  rcases hserves.alters.reached r' hr' q t hq with hold | ⟨⟨j, hj, hjtop, hroot⟩, hdis⟩
  · exact Or.inl hold
  · exact Or.inr ⟨⟨j, hj, hsub hjtop, hroot⟩, hdis⟩

/-- The block of a mapping, or of one that was undone before it mapped a page, is the
only new frame. -/
theorem syscallMmap_spec {addr length prot flags fd offset : Word}
    (h : k.PageTables m live roots) (hr : r ∈ roots) (htable : process.pageTable = r.addr)
    (ht : k.Tenant roots r m live process.ownedPages ps array mine)
    (htops : ∀ page ∈ k.mmapTouched m process addr length flags fd,
      ptIndex page.addr ptTopLevel ∈ tops)
    (hrun : k.syscallMmap m process addr length prot flags fd offset =
      some (ret, m', process')) :
    process'.pageTable = process.pageTable ∧
      k.ServesCall tops (k.mmapTouched m process addr length flags fd) roots r m live ps mine
        ((MemoryCall.mmap addr length prot flags fd offset).Undisturbed k m process)
        ((MemoryCall.mmap addr length prot flags fd offset).Tidy k m process) m'
        process'.ownedPages := by
  have hends := syscallMmap_ends tops addr length h hr htable ht prot flags fd offset htops
  have hunmoved : k.ServesCall tops (k.mmapTouched m process addr length flags fd) roots r m live ps
      mine ((MemoryCall.mmap addr length prot flags fd offset).Undisturbed k m process)
      ((MemoryCall.mmap addr length prot flags fd offset).Tidy k m process) m
      process.ownedPages := ⟨live, ps, array, mine, Serves.refl ht h, fun _ => MapsNew.of_eq rfl,
        fun _ _ => subset_rfl⟩
  have hrange : ∀ {block : Word} {mapped : Int × Memory},
      k.MmapRuns m process addr length prot flags fd offset block mapped →
        mmapRange process addr length ⊆ k.mmapTouched m process addr length flags fd :=
    fun hruns page hpage => ⟨hruns.node_ne_none, hruns.granted, hpage⟩
  rw [hrun] at hends
  cases hends with
  | nothing => exact ⟨rfl, hunmoved⟩
  | badDescriptor =>
      rw [ProcessSpace.pageTable_mmapAdvance, ProcessSpace.ownedPages_mmapAdvance]
      exact ⟨rfl, hunmoved⟩
  | noMemory =>
      rw [ProcessSpace.pageTable_mmapAdvance, ProcessSpace.ownedPages_mmapAdvance]
      exact ⟨rfl, hunmoved⟩
  | mapped hlength hruns haligned hsize hcustody hspace =>
      rw [ProcessSpace.pageTable_mmapAdvance, ProcessSpace.ownedPages_mmapAdvance]
      refine ⟨rfl, _, ps, array, _, hcustody.leave.mono_pages (hrange hruns), fun _ => ?_,
        fun htidy => absurd hruns (htidy _ _)⟩
      intro page x' hx'
      rw [hspace] at hx'
      by_cases hpage : page ∈ runPages (process.mmapTarget addr) (mmapPages length)
      · obtain ⟨i, hi, hmapped⟩ := AddressSpace.mapRun_of_mem (k.spaceOf m r.addr)
          (k.hhdmVirtToPhys _) (mmapFlags prot) hpage
        rw [hmapped, Option.some.injEq] at hx'
        subst hx'
        exact Or.inr ⟨_, hcustody.data_sub rfl, hcustody.notOthers rfl,
          fun hmem => absurd hmem (Set.disjoint_left.mp hcustody.apart rfl), i, by omega, rfl⟩
      · rw [AddressSpace.mapRun_of_notMem hpage] at hx'
        exact Or.inl ⟨x', hx', rfl⟩
  | undone hlength hstatus hruns haligned hsize hless hcustody hspace =>
      rw [ProcessSpace.pageTable_mmapAdvance, ProcessSpace.ownedPages_mmapAdvance]
      obtain ⟨hcustody', hfreed⟩ := hcustody.giveBack hr rfl
      refine ⟨rfl, _, ps, array, _, hcustody'.leave.mono_pages (hrange hruns), fun hundisturbed => ?_,
        fun _ htops => ?_⟩
      · have hsame := hundisturbed _ _ _ hruns hstatus
        rw [htable] at hsame
        exact MapsNew.of_eq (hfreed.trans hsame)
      · simpa using hcustody'.tidy htops

/-- What each memory call does. -/
theorem memoryCall_spec (h : k.PageTables m live roots) (hr : r ∈ roots)
    (htable : process.pageTable = r.addr)
    (ht : k.Tenant roots r m live process.ownedPages ps array mine) (call : MemoryCall)
    (huser : userTops ⊆ tops)
    (htops : ∀ page ∈ call.pages k m process, ptIndex page.addr ptTopLevel ∈ tops)
    (hrun : call.run k m process = some (ret, m', process')) :
    process'.pageTable = process.pageTable ∧
      k.ServesCall tops (call.pages k m process) roots r m live ps mine
        (call.Undisturbed k m process) (call.Tidy k m process) m' process'.ownedPages := by
  cases call with
  | brk requestedBreak =>
      obtain ⟨hserves, brkCurrent, ownedPages, hprocess⟩ :=
        syscallBrk_spec h hr htable ht requestedBreak
      obtain ⟨rfl, rfl, rfl⟩ : (k.syscallBrk m process requestedBreak).1 = ret ∧
          (k.syscallBrk m process requestedBreak).2.1 = m' ∧
          (k.syscallBrk m process requestedBreak).2.2 = process' := by
        simpa [MemoryCall.run, Prod.ext_iff] using hrun
      exact ⟨by rw [hprocess], (hserves.mono_tops huser).servesCall fun htidy _ => htidy⟩
  | mmap addr length prot flags fd offset => exact syscallMmap_spec h hr htable ht htops hrun
  | mprotect addr length prot =>
      obtain ⟨rfl, rfl, rfl⟩ : (k.syscallMprotect m process addr length prot).1 = ret ∧
          (k.syscallMprotect m process addr length prot).2 = m' ∧ process = process' := by
        simpa [MemoryCall.run] using hrun
      exact ⟨rfl, (syscallMprotect_spec h hr htable ht htops prot).1.servesCall fun _ => id⟩
  | munmap addr length =>
      obtain ⟨rfl, rfl, rfl⟩ : (k.syscallMunmap m process addr length).1 = ret ∧
          (k.syscallMunmap m process addr length).2 = m' ∧ process = process' := by
        simpa [MemoryCall.run] using hrun
      exact ⟨rfl, (syscallMunmap_spec h hr htable ht htops).1.servesCall fun _ => id⟩

/-- `mprotect` and `munmap` map nothing. -/
theorem memoryCall_mapsOld (h : k.PageTables m live roots) (hr : r ∈ roots)
    (htable : process.pageTable = r.addr)
    (ht : k.Tenant roots r m live process.ownedPages ps array mine) {call : MemoryCall}
    (hrun : call.run k m process = some (ret, m', process')) :
    (∃ requestedBreak, call = .brk requestedBreak) ∨
      (∃ addr length prot flags fd offset, call = .mmap addr length prot flags fd offset) ∨
      k.MapsOld r m m' := by
  cases call with
  | brk requestedBreak => exact Or.inl ⟨_, rfl⟩
  | mmap addr length prot flags fd offset => exact Or.inr (Or.inl ⟨_, _, _, _, _, _, rfl⟩)
  | mprotect addr length prot =>
      obtain ⟨-, rfl, -⟩ : (k.syscallMprotect m process addr length prot).1 = ret ∧
          (k.syscallMprotect m process addr length prot).2 = m' ∧ process = process' := by
        simpa [MemoryCall.run] using hrun
      exact Or.inr (Or.inr (syscallMprotect_spec h hr htable ht
        (fun page _ => Set.mem_univ (ptIndex page.addr ptTopLevel)) prot).2)
  | munmap addr length =>
      obtain ⟨-, rfl, -⟩ : (k.syscallMunmap m process addr length).1 = ret ∧
          (k.syscallMunmap m process addr length).2 = m' ∧ process = process' := by
        simpa [MemoryCall.run] using hrun
      exact Or.inr (Or.inr (syscallMunmap_spec h hr htable ht
        fun page _ => Set.mem_univ (ptIndex page.addr ptTopLevel)).2)

end Machine

/-! ### Runs -/

/-- The memory, the calling process, and as a record of the past the pages that were
handed out to it. -/
structure CallState where
  mem : Memory
  process : ProcessSpace
  handedOut : Set Vpn

namespace MemoryCall

/-- The pages handed out once the call has left the memory `m'` behind: `brk` and `mmap`
add what they left mapped, `munmap` takes away what it left unmapped. -/
def handOut (k : Machine) (s : CallState) (m' : Memory) (call : MemoryCall) : Set Vpn :=
  let pages := call.pages k s.mem s.process
  let space := k.spaceOf m' s.process.pageTable
  match call with
  | brk _ => s.handedOut ∪ { page ∈ pages | space page ≠ none }
  | mmap _ _ _ _ _ _ => s.handedOut ∪ { page ∈ pages | space page ≠ none }
  | mprotect _ _ _ => s.handedOut
  | munmap _ _ => s.handedOut \ { page ∈ pages | space page = none }

def step (k : Machine) (s : CallState) (call : MemoryCall) : Option (Word × CallState) :=
  (call.run k s.mem s.process).map fun (ret, m', process') =>
    (ret, ⟨m', process', call.handOut k s m'⟩)

/-- All pages that the call goes through lie in the user half; those of `brk` always
do. -/
def InUserHalf (k : Machine) (s : CallState) : MemoryCall → Prop
  | brk _ => True
  | call => ∀ page ∈ call.pages k s.mem s.process, page.User

/-- A call that maps new pages goes through none that was handed out. -/
def Fresh (k : Machine) (s : CallState) (call : MemoryCall) : Prop :=
  call.MapsNewPages → Disjoint (call.pages k s.mem s.process) s.handedOut

end MemoryCall

theorem MemoryCall.InUserHalf.user {k : Machine} {s : CallState} {call : MemoryCall}
    (h : call.InUserHalf k s) {page : Vpn} (hpage : page ∈ call.pages k s.mem s.process) :
    page.User := by
  cases call with
  | brk requestedBreak => exact Machine.user_of_mem_brkPages hpage
  | mmap addr length prot flags fd offset => exact h page hpage
  | mprotect addr length prot => exact h page hpage
  | munmap addr length => exact h page hpage

/-- The state after calls that all met `P`. -/
inductive CallRun (k : Machine) (P : CallState → MemoryCall → Prop) (s₀ : CallState) :
    CallState → Prop where
  | start : CallRun k P s₀ s₀
  | call {s s' : CallState} {ret : Word} (hrun : CallRun k P s₀ s) (call : MemoryCall)
      (hmeets : P s call) (hstep : call.step k s = some (ret, s')) : CallRun k P s₀ s'

namespace CallState

/-- The page table of the process is one of `roots` and among well-formed ones, and the
process holds what its list names. -/
def Valid (k : Machine) (roots : Set TableAddr) (r : TableAddr) (s : CallState) : Prop :=
  s.process.pageTable = r.addr ∧ ∃ live ps array mine, k.PageTables s.mem live roots ∧
    k.Tenant roots r s.mem live s.process.ownedPages ps array mine

/-- All pages that are mapped were handed out. -/
def Records (k : Machine) (r : TableAddr) (s : CallState) : Prop :=
  ∀ page, k.spaceOf s.mem r.addr page ≠ none → page ∈ s.handedOut

variable {k : Machine} {roots : Set TableAddr} {r : TableAddr} {s₀ s s' : CallState}
  {call : MemoryCall} {ret : Word} {P : CallState → MemoryCall → Prop}

/-- One call keeps the process valid and changes its pages only. -/
theorem Valid.step (h : s.Valid k roots r) (hr : r ∈ roots)
    (hstep : call.step k s = some (ret, s')) :
    s'.Valid k roots r ∧
      (∀ page ∉ call.pages k s.mem s.process,
        k.spaceOf s'.mem r.addr page = k.spaceOf s.mem r.addr page) ∧
      ∀ r' ∈ roots, r' ≠ r → ∀ page, page.User ∨ page ∉ call.pages k s.mem s.process →
        k.spaceOf s'.mem r'.addr page = k.spaceOf s.mem r'.addr page := by
  obtain ⟨htable, live, ps, array, mine, htables, htenant⟩ := h
  obtain ⟨⟨ret', m', process'⟩, hrun, hresult⟩ := Option.map_eq_some_iff.mp hstep
  obtain ⟨rfl, rfl⟩ := Prod.mk.inj hresult
  obtain ⟨hsame, live', ps', array', mine', hserves, -⟩ := Machine.memoryCall_spec htables hr
    htable htenant call (Set.subset_univ _) (fun _ _ => trivial) hrun
  exact ⟨⟨hsame.trans htable, live', ps', array', mine', hserves.alters.tables, hserves.tenant⟩,
    hserves.alters.own, hserves.alters.others⟩

theorem Valid.run (h : s₀.Valid k roots r) (hr : r ∈ roots) (hrun : CallRun k P s₀ s) :
    s.Valid k roots r := by
  induction hrun with
  | start => exact h
  | call _ call _ hstep ih => exact (ih.step hr hstep).1

/-- The record stays complete. -/
theorem Records.step (hrecords : s.Records k r) (h : s.Valid k roots r) (hr : r ∈ roots)
    (hstep : call.step k s = some (ret, s')) : s'.Records k r := by
  obtain ⟨-, hown, -⟩ := h.step hr hstep
  obtain ⟨htable, live, ps, array, mine, htables, htenant⟩ := h
  obtain ⟨⟨ret', m', process'⟩, hrun, hresult⟩ := Option.map_eq_some_iff.mp hstep
  obtain ⟨rfl, rfl⟩ := Prod.mk.inj hresult
  intro page hmapped
  have hkept : page ∉ call.pages k s.mem s.process → page ∈ s.handedOut := by
    intro hout
    rw [hown page hout] at hmapped
    exact hrecords page hmapped
  have hold : k.MapsOld r s.mem m' → page ∈ s.handedOut := by
    intro hold
    obtain ⟨x', hx'⟩ := Option.ne_none_iff_exists'.mp hmapped
    obtain ⟨x, hx, -⟩ := hold page x' hx'
    exact hrecords page (by simp [hx])
  have hmaps := Machine.memoryCall_mapsOld htables hr htable htenant hrun
  rw [← htable] at hmapped
  cases call with
  | brk requestedBreak =>
      by_cases hpage : page ∈ (MemoryCall.brk requestedBreak).pages k s.mem s.process
      · exact Or.inr ⟨hpage, hmapped⟩
      · exact Or.inl (hkept hpage)
  | mmap addr length prot flags fd offset =>
      by_cases hpage : page ∈
          (MemoryCall.mmap addr length prot flags fd offset).pages k s.mem s.process
      · exact Or.inr ⟨hpage, hmapped⟩
      · exact Or.inl (hkept hpage)
  | mprotect addr length prot => exact hold (by simpa using hmaps)
  | munmap addr length => exact ⟨hold (by simpa using hmaps), fun hgone => hmapped hgone.2⟩

theorem Records.run (hrecords : s₀.Records k r) (h : s₀.Valid k roots r) (hr : r ∈ roots)
    (hrun : CallRun k P s₀ s) : s.Records k r := by
  induction hrun with
  | start => exact hrecords
  | call hrun call _ hstep ih => exact ih.step (h.run hr hrun) hr hstep

/-- As long as all calls stay in the user half, each call leaves the kernel half of every
address space as it was. -/
theorem kernelHalf_of_inUserHalf (h : s₀.Valid k roots r) (hr : r ∈ roots)
    (hrun : CallRun k (MemoryCall.InUserHalf k) s₀ s) (hmeets : call.InUserHalf k s)
    (hstep : call.step k s = some (ret, s')) :
    ∀ r' ∈ roots, ∀ page : Vpn, ¬ page.User →
      k.spaceOf s'.mem r'.addr page = k.spaceOf s.mem r'.addr page := by
  obtain ⟨-, hown, hothers⟩ := (h.run hr hrun).step hr hstep
  intro r' hr' page hkernel
  have hout : page ∉ call.pages k s.mem s.process := fun hmem => hkernel (hmeets.user hmem)
  by_cases hsame : r' = r
  · subst hsame
    exact hown page hout
  · exact hothers r' hr' hsame page (Or.inr hout)

/-- As long as `brk` and `mmap` go only through pages that were not handed out, each of
them changes only pages that were not mapped. -/
theorem mapped_kept_of_fresh (h : s₀.Valid k roots r) (hr : r ∈ roots)
    (hrecords : s₀.Records k r) (hrun : CallRun k (MemoryCall.Fresh k) s₀ s)
    (hmeets : call.Fresh k s) (hnew : call.MapsNewPages)
    (hstep : call.step k s = some (ret, s')) :
    ∀ page, k.spaceOf s.mem r.addr page ≠ none →
      k.spaceOf s'.mem r.addr page = k.spaceOf s.mem r.addr page := by
  obtain ⟨-, hown, -⟩ := (h.run hr hrun).step hr hstep
  intro page hmapped
  have hhanded := hrecords.run h hr hrun page hmapped
  exact hown page fun hmem => Set.disjoint_left.mp (hmeets hnew) hmem hhanded

end CallState

/-! ### The sample process -/

def sampleState : CallState :=
  ⟨sampleSpace.2, sampleProcess,
    { page | (sampleMachine .x86_64).spaceOf sampleSpace.2 sampleTable.addr page ≠ none }⟩

theorem sampleState_valid :
    sampleState.Valid (sampleMachine .x86_64) {sampleTable, sampleRoot} sampleTable := by
  obtain ⟨c, htables, htenant⟩ := sampleTenant
  exact ⟨rfl, _, _, _, _, htables, htenant⟩

/-- A page is mapped, protected and unmapped in the user half. -/
theorem kernelHalf_of_inUserHalf_sample : ∃ s ret s',
    CallRun (sampleMachine .x86_64) (MemoryCall.InUserHalf (sampleMachine .x86_64)) sampleState s ∧
      (MemoryCall.munmap 0x700000 0x1000).step (sampleMachine .x86_64) s = some (ret, s') ∧
      (sampleMachine .x86_64).spaceOf s.mem sampleTable.addr 0x700 ≠ none ∧
      ∀ r' ∈ ({sampleTable, sampleRoot} : Set TableAddr), ∀ page : Vpn, ¬ page.User →
        (sampleMachine .x86_64).spaceOf s'.mem r'.addr page =
          (sampleMachine .x86_64).spaceOf s.mem r'.addr page := by
  have hrun : ((MemoryCall.mmap 0x700000 0x1000 3 0x22 (-1) 0).run (sampleMachine .x86_64)
      sampleSpace.2 sampleProcess).map (fun x => ((sampleMachine .x86_64).spaceOf
        ((sampleMachine .x86_64).syscallMprotect x.2.1 x.2.2 0x700000 0x1000 1).2
          sampleTable.addr 0x700).isSome) = some true := by decide
  obtain ⟨⟨ret, m, process⟩, hmmap, hsome⟩ := Option.map_eq_some_iff.mp hrun
  obtain ⟨s₁, hstep, hmem₁, hprocess₁⟩ : ∃ s₁, (MemoryCall.mmap 0x700000 0x1000 3 0x22 (-1) 0).step
      (sampleMachine .x86_64) sampleState = some (ret, s₁) ∧ s₁.mem = m ∧ s₁.process = process := by
    rw [MemoryCall.step, show sampleState.mem = sampleSpace.2 from rfl,
      show sampleState.process = sampleProcess from rfl, hmmap]
    exact ⟨_, rfl, rfl, rfl⟩
  obtain ⟨ret₂, s₂, hstep₂, hmem₂⟩ : ∃ ret₂ s₂,
      (MemoryCall.mprotect 0x700000 0x1000 1).step (sampleMachine .x86_64) s₁ = some (ret₂, s₂) ∧
        s₂.mem = ((sampleMachine .x86_64).syscallMprotect s₁.mem s₁.process 0x700000 0x1000 1).2 :=
    ⟨_, _, rfl, rfl⟩
  obtain ⟨ret₃, s₃, hstep₃⟩ : ∃ ret₃ s₃,
      (MemoryCall.munmap 0x700000 0x1000).step (sampleMachine .x86_64) s₂ = some (ret₃, s₃) :=
    ⟨_, _, rfl⟩
  have hmmapUser : (MemoryCall.mmap 0x700000 0x1000 3 0x22 (-1) 0).InUserHalf
      (sampleMachine .x86_64) sampleState := by
    rintro page ⟨-, -, i, hi, rfl⟩
    rw [show Machine.mmapPages 0x1000 = 1 from by decide, Nat.lt_one_iff] at hi
    rw [hi, Vpn.user_iff]
    decide
  have hrange : ∀ page ∈ Machine.rangePages 0x700000 0x1000, page.User := by
    rintro page ⟨-, -, va, hva, rfl⟩
    rw [show pagesBetween 0x700000 (0x700000 + pageAlignUp 0x1000) = [0x700000] from by decide,
      List.mem_singleton] at hva
    rw [hva, Vpn.user_iff]
    decide
  have hreached := (CallRun.start.call _ hmmapUser hstep).call (.mprotect 0x700000 0x1000 1)
    hrange hstep₂
  refine ⟨_, _, _, hreached, hstep₃, fun hnone => ?_,
    CallState.kernelHalf_of_inUserHalf sampleState_valid (Set.mem_insert _ _) hreached
      (show (MemoryCall.munmap 0x700000 0x1000).InUserHalf _ s₂ from hrange) hstep₃⟩
  rw [hmem₂, hmem₁, hprocess₁] at hnone
  rw [hnone] at hsome
  cases hsome

/-- `mmap` with a hint in the kernel half maps a page there. -/
theorem mmap_maps_kernelHalf : ∃ (call : MemoryCall) (ret : Word) (s' : CallState),
    sampleState.Valid (sampleMachine .x86_64) {sampleTable, sampleRoot} sampleTable ∧
      call.step (sampleMachine .x86_64) sampleState = some (ret, s') ∧
      ∃ page : Vpn, ¬ page.User ∧ (sampleMachine .x86_64).spaceOf s'.mem sampleTable.addr page ≠
        (sampleMachine .x86_64).spaceOf sampleState.mem sampleTable.addr page := by
  have hmapped : ((MemoryCall.mmap 0xffff900000000000 0x1000 3 0x22 (-1) 0).run
      (sampleMachine .x86_64) sampleSpace.2 sampleProcess).map (fun x =>
        ((sampleMachine .x86_64).spaceOf x.2.1 sampleTable.addr 0x900000000).isSome) =
      some true := by decide
  have hbefore : (sampleMachine .x86_64).spaceOf sampleSpace.2 sampleTable.addr 0x900000000 =
      none := by decide
  obtain ⟨⟨ret, m', process'⟩, hrun, hsome⟩ := Option.map_eq_some_iff.mp hmapped
  refine ⟨_, ret, ⟨m', process', _⟩, sampleState_valid, by
    rw [MemoryCall.step, show sampleState.mem = sampleSpace.2 from rfl,
      show sampleState.process = sampleProcess from rfl, hrun]
    rfl, 0x900000000, ?_, ?_⟩
  · rw [Vpn.user_iff]
    decide
  · intro hsame
    rw [show sampleState.mem = sampleSpace.2 from rfl, hbefore] at hsame
    rw [show (sampleMachine .x86_64).spaceOf m' sampleTable.addr 0x900000000 = none from hsame]
      at hsome
    cases hsome

/-- The break grows twice; the second page changes nothing of the first. -/
theorem mapped_kept_of_fresh_sample : ∃ s ret s',
    CallRun (sampleMachine .x86_64) (MemoryCall.Fresh (sampleMachine .x86_64)) sampleState s ∧
      (MemoryCall.brk 0x602000).step (sampleMachine .x86_64) s = some (ret, s') ∧
      (sampleMachine .x86_64).spaceOf s.mem sampleTable.addr 0x600 ≠ none ∧
      ∀ page, (sampleMachine .x86_64).spaceOf s.mem sampleTable.addr page ≠ none →
        (sampleMachine .x86_64).spaceOf s'.mem sampleTable.addr page =
          (sampleMachine .x86_64).spaceOf s.mem sampleTable.addr page := by
  have hbrkPages {process : ProcessSpace} {page : Vpn} {requestedBreak : Word} (va : Word)
      (hpage : page ∈ Machine.brkPages process requestedBreak)
      (hpages : pagesBetween (pageAlignUp process.brkCurrent) (pageAlignUp requestedBreak) = [va]) :
      page = vpn va := by
    obtain ⟨-, va', hva, rfl⟩ := hpage
    rw [hpages, List.mem_singleton] at hva
    rw [hva]
  have hbefore : (sampleMachine .x86_64).spaceOf sampleSpace.2 sampleTable.addr 0x600 = none ∧
      (sampleMachine .x86_64).spaceOf sampleSpace.2 sampleTable.addr 0x601 = none := by decide
  have hfresh : (MemoryCall.brk 0x601000).Fresh (sampleMachine .x86_64) sampleState := by
    rintro -
    refine Set.disjoint_left.mpr fun page hpage hmapped => hmapped ?_
    rw [hbrkPages 0x600000 hpage (by decide)]
    exact hbefore.1
  obtain ⟨ret, s, hstep, hmem, hprocess, hhanded⟩ : ∃ ret s,
      (MemoryCall.brk 0x601000).step (sampleMachine .x86_64) sampleState = some (ret, s) ∧
        s.mem = ((sampleMachine .x86_64).syscallBrk sampleSpace.2 sampleProcess 0x601000).2.1 ∧
        s.process = ((sampleMachine .x86_64).syscallBrk sampleSpace.2 sampleProcess 0x601000).2.2 ∧
        s.handedOut ⊆ sampleState.handedOut ∪ Machine.brkPages sampleProcess 0x601000 :=
    ⟨_, _, rfl, rfl, rfl, Set.union_subset_union_right _ fun page hpage => hpage.1⟩
  have hfresh' : (MemoryCall.brk 0x602000).Fresh (sampleMachine .x86_64) s := by
    rintro -
    refine Set.disjoint_left.mpr fun page hpage hmem => ?_
    have hcurrent : s.process.brkCurrent = 0x601000 := by
      rw [hprocess]
      decide
    have hpage' := hbrkPages 0x601000 hpage (by rw [hcurrent]; decide)
    rcases hhanded hmem with hold | hnew
    · refine hold ?_
      rw [hpage']
      exact hbefore.2
    · have hfirst := hbrkPages 0x600000 hnew (by decide)
      exact absurd (hpage'.symm.trans hfirst) (by decide)
  have hreached := CallRun.start.call _ hfresh hstep
  refine ⟨s, _, _, hreached, rfl, ?_, CallState.mapped_kept_of_fresh sampleState_valid
    (Set.mem_insert _ _) (fun _ => id) hreached hfresh' trivial rfl⟩
  rw [hmem]
  decide

/-- Moving the break down and up again puts a new frame behind a page that is still
mapped. -/
theorem brk_remaps_mapped_page : ∃ (s s' : CallState) (call : MemoryCall) (ret : Word),
    sampleState.Valid (sampleMachine .x86_64) {sampleTable, sampleRoot} sampleTable ∧
      sampleState.Records (sampleMachine .x86_64) sampleTable ∧
      CallRun (sampleMachine .x86_64) (fun _ _ => True) sampleState s ∧ call.MapsNewPages ∧
      call.step (sampleMachine .x86_64) s = some (ret, s') ∧
      ∃ page, (sampleMachine .x86_64).spaceOf s.mem sampleTable.addr page ≠ none ∧
        (sampleMachine .x86_64).spaceOf s'.mem sampleTable.addr page ≠
          (sampleMachine .x86_64).spaceOf s.mem sampleTable.addr page :=
  ⟨_, _, .brk 0x601000, _, sampleState_valid, fun _ => id,
    CallRun.call (CallRun.call CallRun.start (.brk 0x601000) trivial rfl) (.brk 0x600000) trivial
      rfl, trivial, rfl, 0x600, by decide, by decide⟩

end Utopia
