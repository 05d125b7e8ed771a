/-
The protection argument as `mmap` and as `mprotect` read it.
-/
import Utopia.Exec.RangeCalls

namespace Utopia

namespace Machine

variable {k : Machine} {m m' : Memory} {live mine array : Set Chunk} {roots : Set TableAddr}
  {r : TableAddr} {ps : List Word} {virt : Word}

/-! ### Pages with a table of their own -/

/-- A level-0 table lies on the path of the address. -/
def HasTable (k : Machine) (m : Memory) (r : TableAddr) (virt : Word) : Prop :=
  ∃ t, k.tableAt m ptTopLevel r (ptPath virt ptTopLevel).dropLast = some t

theorem ptPath_ne_nil (virt : Word) (level : Nat) : ptPath virt level ≠ [] := by
  rw [← List.length_pos_iff, ptPath_length]
  omega

/-- A walk to a table that is there creates and splits nothing. -/
theorem walkDown_of_table (create : Bool) {p : List (Fin 512)} {t u : TableAddr} (level : Nat)
    (ht : k.tableAt m ptTopLevel r p = some t)
    (hu : k.tableAt m ptTopLevel r (ptPath virt ptTopLevel).dropLast = some u)
    (hpath : ptPath virt ptTopLevel = p ++ ptPath virt level) :
    k.walkDown create virt level m t.addr = (.table u.addr, m) := by
  have hrest : (ptPath virt ptTopLevel).dropLast = p ++ (ptPath virt level).dropLast := by
    rw [hpath, List.dropLast_append_of_ne_nil (ptPath_ne_nil virt level)]
  induction level generalizing t p with
  | zero =>
      have hnil : (ptPath virt 0).dropLast = [] := rfl
      rw [hrest, hnil, List.append_nil, ht, Option.some.injEq] at hu
      rw [walkDown, hu]
  | succ level ih =>
      have hlevel : ptTopLevel - p.length = level + 1 := by
        have hlen := congrArg List.length hpath
        simp only [ptPath_length, List.length_append] at hlen
        omega
      have hnext : (ptPath virt (level + 1)).dropLast =
          ptIndex virt (level + 1) :: (ptPath virt level).dropLast := by
        rw [ptPath, List.dropLast_cons_of_ne_nil (ptPath_ne_nil virt level)]
      have hentry : m.read64 (entryAddr t.addr (ptIndex virt (level + 1))) =
          ptEntry m t (ptIndex virt (level + 1)) := rfl
      have hbelow := hu
      rw [hrest, tableAt, Radix.tableAt_append _ ht, hlevel, hnext, Radix.tableAt_cons,
        child] at hbelow
      rw [walkDown]
      simp only [hentry]
      split_ifs at hbelow with hchild
      · rw [if_neg (by simp [hchild.1]), if_neg (by simp [hchild.2])]
        refine ih (t := k.childTable _) (p := p ++ [ptIndex virt (level + 1)]) ?_ ?_ ?_
        · rw [tableAt, Radix.tableAt_append _ ht, hlevel, Radix.tableAt_cons, child, if_pos hchild,
            Option.bind_some, Radix.tableAt_nil]
        · rw [hpath, List.append_assoc]
          rfl
        · rw [hrest, hnext, List.append_assoc]
          rfl
      · cases hbelow

/-- A page that was mapped has a table. -/
theorem mapPage4k_table (h : k.PageTables m live roots) (hr : r ∈ roots) {phys : Word}
    {flags : VmFlags} (hzero : (k.mapPage4k m r.addr virt phys flags).1 = 0) :
    k.HasTable (k.mapPage4k m r.addr virt phys flags).2 r virt := by
  obtain ⟨live', hgrows, hfound⟩ := walkDown_spec (p := []) true hr
    (Set.mem_univ (ptIndex virt ptTopLevel)) ptTopLevel h (Radix.tableAt_nil _ _) rfl
  simp only [mapPage4k, if_neg (h.nonnull r hr)] at hzero ⊢
  generalize k.walkDown true virt ptTopLevel m r.addr = walk at hgrows hfound hzero ⊢
  obtain ⟨descent, m'⟩ := walk
  cases descent with
  | table addr =>
      obtain ⟨t, p, rfl, ht, hpath⟩ := hfound
      obtain ⟨hextends, -⟩ := hgrows.tables.storeLeaf Set.univ hr ht hpath
        (k.arch.pteLeaf phys flags false)
      refine ⟨t, ?_⟩
      rw [hpath, List.dropLast_concat]
      exact hextends.keeps r hr p t ht
  | missing => cases hzero
  | noMemory => cases hzero

/-- `protect_page_4k` finds a page that has a table. -/
theorem protectPage4k_of_table (h : k.PageTables m live roots) (hr : r ∈ roots)
    (ht : k.HasTable m r virt) (hmapped : (k.spaceOf m r.addr (vpn virt)).isSome)
    (flags : VmFlags) : (k.protectPage4k m r.addr virt flags).1 = 0 := by
  obtain ⟨t, ht⟩ := ht
  have hpath : ptPath virt ptTopLevel =
      (ptPath virt ptTopLevel).dropLast ++ [ptIndex virt 0] := rfl
  have hpage := spaceOf_eq_pageMapping ht hpath
  have hslot : m.read64 (entryAddr t.addr (ptIndex virt 0)) = ptEntry m t (ptIndex virt 0) := rfl
  have hwalk := walkDown_of_table false ptTopLevel (Radix.tableAt_nil _ _) ht rfl
  rw [protectPage4k, if_neg (h.nonnull r hr), hwalk]
  simp only [hslot]
  have hpresent : ¬ k.arch.ptePresent (ptEntry m t (ptIndex virt 0)) = false := by
    intro habsent
    rw [hpage, pageMapping, habsent] at hmapped
    cases hmapped
  rw [if_neg hpresent]

/-- The first page of a block that was mapped has a table. -/
theorem mapBlock_table (h : k.PageTables m live roots) (hr : r ∈ roots) {target phys : Word}
    {flags : VmFlags} {n : Nat} (hn : 0 < n)
    (hzero : (k.mapBlock m r.addr target phys flags n).1 = 0) :
    (∃ live', k.PageTables (k.mapBlock m r.addr target phys flags n).2 live' roots) ∧
      k.HasTable (k.mapBlock m r.addr target phys flags n).2 r target := by
  have hloop := forEach_rule (fun i m => k.mapPage4k m r.addr
      (target + BitVec.ofNat 64 i * 0x1000) (phys + BitVec.ofNat 64 i * 0x1000) flags)
    (List.range n)
    (fun done m' => (∃ live', k.PageTables m' live' roots) ∧
      (done ≠ [] → k.HasTable m' r target))
    (fun _ => True) (s := m) ⟨⟨live, h⟩, fun hne => absurd rfl hne⟩ ?_
  · rcases hloop with ⟨-, htables, htable⟩ | ⟨hne, -⟩
    · exact ⟨htables, htable (by simp [List.range_eq_nil, hn.ne'])⟩
    · exact absurd hzero hne
  · rintro done i rest m₁ hsplit ⟨⟨live₁, h₁⟩, htable⟩
    obtain ⟨rfl, -⟩ := eq_length_of_range_eq hsplit
    obtain ⟨live₂, hx, -⟩ := h₁.mapPage4k_spec hr
      (Set.mem_univ (ptIndex (target + BitVec.ofNat 64 done.length * 0x1000) ptTopLevel))
      (phys + BitVec.ofNat 64 done.length * 0x1000) flags
    by_cases hstatus : (k.mapPage4k m₁ r.addr (target + BitVec.ofNat 64 done.length * 0x1000)
        (phys + BitVec.ofNat 64 done.length * 0x1000) flags).1 = 0
    · refine Or.inl ⟨hstatus, ⟨live₂, hx.tables⟩, fun _ => ?_⟩
      by_cases hfirst : done = []
      · subst hfirst
        have hmapped := mapPage4k_table h₁ hr hstatus
        have hstart : target + BitVec.ofNat 64 ([] : List Nat).length * 0x1000 = target := by simp
        rwa [hstart] at hmapped ⊢
      · obtain ⟨t, ht⟩ := htable hfirst
        exact ⟨t, hx.keeps r hr _ t ht⟩
    · exact Or.inr ⟨hstatus, trivial⟩

/-! ### `mprotect` over the pages of a mapping -/

variable {process : ProcessSpace} {target addr length prot flags fd offset : Word}

/-- The permissions that `mprotect` takes from `prot`. -/
def mprotectFlags (prot : Word) : VmFlags := ⟨hasBits prot 0x2, true, hasBits prot 0x4, false⟩

/-- Pages that have the permissions keep what they have. -/
theorem mprotect_of_same (h : k.PageTables m live roots) (hr : r ∈ roots)
    (htable : process.pageTable = r.addr)
    (hsame : ∀ page ∈ pagesOf target (target + pageAlignUp length), ∃ x,
      k.spaceOf m r.addr page = some x ∧ x.flags = mprotectFlags prot) :
    k.spaceOf (k.syscallMprotect m process target length prot).2 r.addr = k.spaceOf m r.addr := by
  have hround : ∀ va ∈ pagesBetween target (target + pageAlignUp length), ∀ m₁,
      (∃ live', k.PageTables m₁ live' roots) ∧ k.spaceOf m₁ r.addr = k.spaceOf m r.addr →
      (∃ live', k.PageTables (k.protectPage4k m₁ r.addr va (mprotectFlags prot)).2 live' roots) ∧
        k.spaceOf (k.protectPage4k m₁ r.addr va (mprotectFlags prot)).2 r.addr =
          k.spaceOf m r.addr := by
    rintro va hva m₁ ⟨⟨live₁, h₁⟩, hspace⟩
    obtain ⟨live₂, hx, hanswers, -⟩ := h₁.protectPage4k_spec hr
      (Set.mem_univ (ptIndex va ptTopLevel)) (mprotectFlags prot)
    refine ⟨⟨live₂, hx.tables⟩, ?_⟩
    rcases hanswers with ⟨-, hset, -⟩ | ⟨-, hkeep⟩
    · obtain ⟨x, hmapped, hflags⟩ := hsame _ ⟨va, hva, rfl⟩
      rw [hset, hspace, AddressSpace.protect, hmapped, Option.map_some, ← hflags, ← hmapped,
        Function.update_eq_self]
    · exact (hkeep r hr).trans hspace
  have hloop := forEach_invariant (fun m' => (∃ live', k.PageTables m' live' roots) ∧
    k.spaceOf m' r.addr = k.spaceOf m r.addr) ⟨⟨live, h⟩, rfl⟩ hround
  rw [syscallMprotect, htable]
  split_ifs
  · rfl
  · rfl
  · dsimp only
    split_ifs
    · exact hloop.2
    · exact hloop.2

/-- The first page gets the permissions, if it has a table. -/
theorem mprotect_first (h : k.PageTables m live roots) (hr : r ∈ roots)
    (htable : process.pageTable = r.addr) (haligned : target.toNat % 4096 = 0)
    (hlength : length ≠ 0) (hends : EndsInside target length) (ht : k.HasTable m r target)
    (hmapped : (k.spaceOf m r.addr (vpn target)).isSome) : ∃ x,
    k.spaceOf (k.syscallMprotect m process target length prot).2 r.addr (vpn target) = some x ∧
      x.flags = mprotectFlags prot := by
  have hround : 0 < roundUp length ∧ roundUp length % 4096 = 0 := by
    have hne : length.toNat ≠ 0 := fun hzero => hlength (BitVec.eq_of_toNat_eq hzero)
    rw [roundUp]
    omega
  have hsize := pageAlignUp_roundUp length
  have hstop : (target + pageAlignUp length).toNat = target.toNat + roundUp length := by
    rw [EndsInside] at hends
    rw [toNat_add_of_lt] <;> omega
  have hfirst : target < target + pageAlignUp length := by
    change target.toNat < (target + pageAlignUp length).toNat
    omega
  have hlow : target &&& 0xFFF = 0 := by
    have hmask : levelSpan 0 - 1 = 0xFFF := by decide
    apply BitVec.eq_of_toNat_eq
    rw [← hmask, toNat_and_span target (by omega)]
    exact haligned
  have hzero := protectPage4k_of_table h hr ht hmapped (mprotectFlags prot)
  obtain ⟨live₁, hx, hanswers, -⟩ := h.protectPage4k_spec hr
    (Set.mem_univ (ptIndex target ptTopLevel)) (mprotectFlags prot)
  have hset : ∃ x, k.spaceOf (k.protectPage4k m r.addr target (mprotectFlags prot)).2 r.addr
      (vpn target) = some x ∧ x.flags = mprotectFlags prot := by
    rcases hanswers with ⟨-, hset, -⟩ | ⟨hfail, -⟩
    · obtain ⟨x, hmapped⟩ := Option.isSome_iff_exists.mp hmapped
      rw [hset, AddressSpace.protect, Function.update_self, hmapped]
      exact ⟨_, rfl, rfl⟩
    · exact absurd (hfail.symm.trans hzero) (by decide)
  -- the rounds behind the first keep it or set it again
  have hround : ∀ va ∈ pagesBetween (target + 4096) (target + pageAlignUp length), ∀ m₁,
      ((∃ live', k.PageTables m₁ live' roots) ∧ ∃ x,
        k.spaceOf m₁ r.addr (vpn target) = some x ∧ x.flags = mprotectFlags prot) →
      (∃ live', k.PageTables (k.protectPage4k m₁ r.addr va (mprotectFlags prot)).2 live' roots) ∧
        ∃ x, k.spaceOf (k.protectPage4k m₁ r.addr va (mprotectFlags prot)).2 r.addr
          (vpn target) = some x ∧ x.flags = mprotectFlags prot := by
    rintro va - m₁ ⟨⟨live₂, h₂⟩, x, hpage, hflags⟩
    obtain ⟨live₃, hx₃, hanswers₃, -⟩ := h₂.protectPage4k_spec hr
      (Set.mem_univ (ptIndex va ptTopLevel)) (mprotectFlags prot)
    refine ⟨⟨live₃, hx₃.tables⟩, ?_⟩
    rcases hanswers₃ with ⟨-, hset₃, -⟩ | ⟨-, hkeep⟩
    · rw [hset₃, AddressSpace.protect]
      by_cases heq : vpn target = vpn va
      · rw [← heq, Function.update_self, hpage]
        exact ⟨_, rfl, rfl⟩
      · rw [Function.update_of_ne heq]
        exact ⟨x, hpage, hflags⟩
    · rw [hkeep r hr]
      exact ⟨x, hpage, hflags⟩
  have hloop := forEach_invariant (fun m' => (∃ live', k.PageTables m' live' roots) ∧ ∃ x,
      k.spaceOf m' r.addr (vpn target) = some x ∧ x.flags = mprotectFlags prot)
    ⟨⟨live₁, hx.tables⟩, hset⟩ hround
  have hall : forEach (fun va m => k.protectPage4k m r.addr va (mprotectFlags prot))
      (pagesBetween target (target + pageAlignUp length)) m =
      forEach (fun va m => k.protectPage4k m r.addr va (mprotectFlags prot))
        (pagesBetween (target + 4096) (target + pageAlignUp length))
        (k.protectPage4k m r.addr target (mprotectFlags prot)).2 := by
    rw [pagesBetween_eq haligned (by omega), if_pos hfirst, forEach, if_pos hzero]
  rw [← hall] at hloop
  rw [syscallMprotect, if_neg hlength, if_neg (not_not.mpr hlow), htable]
  dsimp only
  split_ifs
  · exact hloop.2
  · exact hloop.2

/-! ### After `mmap` -/

/-- `mmap` returned `ret` and not an error. -/
def MmapSucceeds (k : Machine) (m : Memory) (process : ProcessSpace)
    (addr length prot flags fd offset ret : Word) (m' : Memory) (process' : ProcessSpace) : Prop :=
  length = 0 ∧ ret = 0 ∧ m' = m ∧ process' = process ∨
    length ≠ 0 ∧ ret = process.mmapTarget addr ∧
      (∃ block, k.MmapRuns m process addr length prot flags fd offset block (0, m')) ∧
      process' = process.mmapAdvance addr (pageAlignUp length) (pageAlignUp_aligned length)

theorem MmapSucceeds.result {ret : Word} {process' : ProcessSpace}
    (h : k.MmapSucceeds m process addr length prot flags fd offset ret m' process') :
    k.syscallMmap m process addr length prot flags fd offset = some (ret, m', process') := by
  rcases h with ⟨rfl, rfl, rfl, rfl⟩ | ⟨hlength, rfl, ⟨block, hblock, hruns⟩, rfl⟩
  · rw [syscallMmap, if_pos rfl]
  · obtain ⟨node, m₁, m₂, hnode, hgrant, hfill, hmap⟩ := hruns
    rw [syscallMmap, if_neg hlength]
    simp only [ProcessSpace.mmapNode_mmapAdvance, ProcessSpace.pageTable_mmapAdvance, hnode, hgrant,
      if_neg hblock, hfill, Option.map_some]
    rw [mmapPages] at hmap
    rw [hmap]
    simp

/-- Every other result of `mmap` is 0 or an error. -/
theorem mmapSucceeds_of_result (h : k.PageTables m live roots) (hr : r ∈ roots)
    (htable : process.pageTable = r.addr)
    (ht : k.Tenant roots r m live process.ownedPages ps array mine) {ret : Word}
    {process' : ProcessSpace} (hne : ret ≠ 0) (hbad : ret ≠ ebadf)
    (hresult : k.syscallMmap m process addr length prot flags fd offset =
      some (ret, m', process')) :
    k.MmapSucceeds m process addr length prot flags fd offset ret m' process' := by
  have hends := syscallMmap_ends Set.univ addr length h hr htable ht prot flags fd offset
    fun _ _ => trivial
  rw [hresult] at hends
  cases hends with
  | nothing => exact absurd rfl hne
  | badDescriptor => exact absurd rfl hbad
  | noMemory => exact absurd rfl hne
  | mapped hlength hruns => exact Or.inr ⟨hlength, rfl, ⟨_, hruns⟩, rfl⟩
  | undone => exact absurd rfl hne

/-- `mprotect` with the arguments of the mapping at `ret` changes nothing, and a mapping that
was not to be executable is not. -/
def ProtAgrees (k : Machine) (r : TableAddr) (m' : Memory) (process' : ProcessSpace)
    (ret length prot : Word) : Prop :=
  k.spaceOf (k.syscallMprotect m' process' ret length prot).2 r.addr = k.spaceOf m' r.addr ∧
    (hasBits prot 0x4 = false → ∀ page ∈ runPages ret (mmapPages length), ∀ x,
      k.spaceOf m' r.addr page = some x → x.flags.exec = false)

/-- Nothing was mapped; or the bit that `mmap` takes for execution is set only with the one
that `mprotect` takes, and, unless the range reaches the end of the addresses, is set
whenever that one is. -/
def ProtBitsFit (ret length prot : Word) : Prop :=
  mmapPages length = 0 ∨
    (hasBits prot 0x1 = true → hasBits prot 0x4 = true) ∧
      (EndsInside ret length → hasBits prot 0x4 = true → hasBits prot 0x1 = true)

/-- The pages of the loop are those of the mapping. -/
theorem pagesOf_subset_runPages (hends : EndsInside target length) :
    pagesOf target (target + pageAlignUp length) ⊆ runPages target (mmapPages length) := by
  have hmul := mmapPages_mul length
  have hsize := pageAlignUp_roundUp length
  have hstop : (target + pageAlignUp length).toNat = target.toNat + 4096 * mmapPages length := by
    rw [EndsInside] at hends
    rw [toNat_add_of_lt] <;> omega
  rintro page ⟨va, hva, rfl⟩
  obtain ⟨i, hi, rfl⟩ := List.mem_map.mp hva
  have hlt := List.mem_range.mp hi
  exact ⟨i, by omega, by rw [BitVec.mul_comm]⟩

theorem pagesOf_of_no_pages (hpages : mmapPages length = 0) :
    pagesOf target (target + pageAlignUp length) = ∅ := by
  have hmul := mmapPages_mul length
  have hzero : pageAlignUp length = 0 := by
    apply BitVec.eq_of_toNat_eq
    rw [← hmul, hpages]
    rfl
  have hnone : pagesBetween target (target + pageAlignUp length) = [] := by
    rw [hzero, BitVec.ofNat_eq_ofNat, BitVec.add_zero, pagesBetween, Nat.sub_self]
    rfl
  rw [pagesOf, hnone]
  simp

/-- Where the loop of `mprotect` has no round, only execution is left to agree on. -/
theorem mprotect_of_empty (h : k.PageTables m live roots) (hr : r ∈ roots)
    (htable : process.pageTable = r.addr)
    (hempty : pagesOf target (target + pageAlignUp length) = ∅) :
    k.spaceOf (k.syscallMprotect m process target length prot).2 r.addr = k.spaceOf m r.addr := by
  refine mprotect_of_same h hr htable fun page hpage => ?_
  rw [hempty] at hpage
  exact absurd hpage (Set.notMem_empty page)

/-- When the two calls read the protection alike. -/
theorem mmap_mprotect_agree_iff (h : k.PageTables m live roots) (hr : r ∈ roots)
    (htable : process.pageTable = r.addr)
    (ht : k.Tenant roots r m live process.ownedPages ps array mine) {ret : Word}
    {process' : ProcessSpace}
    (hmmap : k.MmapSucceeds m process addr length prot flags fd offset ret m' process') :
    k.ProtAgrees r m' process' ret length prot ↔ ProtBitsFit ret length prot := by
  rcases hmmap with ⟨rfl, rfl, rfl, rfl⟩ | ⟨hlength, rfl, ⟨block, hruns⟩, rfl⟩
  · have hpages : mmapPages 0 = 0 := by decide
    refine ⟨fun _ => Or.inl hpages, fun _ => ⟨?_, fun _ page hpage => ?_⟩⟩
    · rw [syscallMprotect, if_pos rfl]
    · obtain ⟨i, hi, -⟩ := hpage
      omega
  obtain ⟨node, m₁, m₂, -, hgrant, hfill, hmap⟩ := hruns.runs
  obtain ⟨c, rfl, haligned, hsize, hcustody, -⟩ := filledBlock_custody Set.univ Set.univ h hr ht
    hruns.block_ne_zero hgrant hfill
  have htable' : (process.mmapAdvance addr (pageAlignUp length)
      (pageAlignUp_aligned length)).pageTable = r.addr := by
    rw [ProcessSpace.pageTable_mmapAdvance, htable]
  obtain ⟨live₃, held, hcustody₃, j, -, hspace, hdone⟩ := mapBlock_spec hr (Set.mem_singleton c)
    hcustody haligned hsize (fun _ _ => Set.mem_univ _)
    (Set.subset_univ _) (mmapFlags prot)
  rw [htable] at hmap
  rw [hmap] at hcustody₃ hspace hdone
  obtain rfl := hdone.mp rfl
  have htables := hcustody₃.alters.tables
  dsimp only at htables hspace
  have hrun : ∀ page ∈ runPages (process.mmapTarget addr) (mmapPages length), ∃ x,
      k.spaceOf m' r.addr page = some x ∧ x.flags = mmapFlags prot := by
    intro page hpage
    obtain ⟨i, -, hi⟩ := AddressSpace.mapRun_of_mem (k.spaceOf m₂ r.addr)
      (k.hhdmVirtToPhys c.ptr) (mmapFlags prot) hpage
    rw [hspace]
    exact ⟨_, hi, rfl⟩
  rw [ProtAgrees, ProtBitsFit]
  by_cases hpages : mmapPages length = 0
  · refine ⟨fun _ => Or.inl hpages, fun _ =>
      ⟨mprotect_of_empty htables hr htable' (pagesOf_of_no_pages hpages), fun _ page hpage => ?_⟩⟩
    obtain ⟨i, hi, -⟩ := hpage
    omega
  have hfirst : vpn (process.mmapTarget addr) ∈
      runPages (process.mmapTarget addr) (mmapPages length) := ⟨0, by omega, by simp⟩
  obtain ⟨x, hx, hflags⟩ := hrun _ hfirst
  have hexec : (hasBits prot 0x4 = false →
      ∀ page ∈ runPages (process.mmapTarget addr) (mmapPages length), ∀ x,
        k.spaceOf m' r.addr page = some x → x.flags.exec = false) ↔
      (hasBits prot 0x1 = true → hasBits prot 0x4 = true) := by
    constructor
    · intro hall hread
      by_contra hnone
      have hnot := hall (Bool.eq_false_of_not_eq_true hnone) _ hfirst x hx
      rw [hflags, mmapFlags, hread] at hnot
      cases hnot
    · intro himp hnone page hpage x hx
      obtain ⟨y, hy, hyflags⟩ := hrun page hpage
      obtain rfl := Option.some.inj (hx.symm.trans hy)
      rw [hyflags]
      refine Bool.eq_false_of_not_eq_true fun hread => ?_
      rw [himp hread] at hnone
      cases hnone
  rw [hexec, or_iff_right hpages, and_comm]
  refine and_congr_right fun himp => ?_
  by_cases hends : EndsInside (process.mmapTarget addr) length
  · constructor
    · intro hsame _ hbit
      have hmapped : (k.spaceOf m' r.addr (vpn (process.mmapTarget addr))).isSome := by
        rw [hx]
        rfl
      have hzero : (k.mapBlock m₂ r.addr (process.mmapTarget addr) (k.hhdmVirtToPhys c.ptr)
          (mmapFlags prot) (mmapPages length)).1 = 0 := by
        rw [hmap]
      have hleaf := (mapBlock_table hcustody.alters.tables hr (Nat.pos_of_ne_zero hpages) hzero).2
      rw [hmap] at hleaf
      obtain ⟨y, hy, hyflags⟩ := mprotect_first htables hr htable'
        (mmapTarget_aligned process addr) hlength hends hleaf hmapped
      rw [hsame, hx, Option.some.injEq] at hy
      have hexec := congrArg VmFlags.exec (hflags.symm.trans (hy ▸ hyflags))
      exact hexec.trans hbit
    · intro hback
      have hbits : mmapFlags prot = mprotectFlags prot := by
        rw [mmapFlags, mprotectFlags, Bool.eq_iff_iff.mpr ⟨himp, hback hends⟩]
      refine mprotect_of_same htables hr htable' fun page hpage => ?_
      rw [← hbits]
      exact hrun page (pagesOf_subset_runPages hends hpage)
  · refine ⟨fun _ hin => absurd hin hends, fun _ => ?_⟩
    exact mprotect_of_empty htables hr htable' (pagesOf_of_wraps hends)

end Machine

/-- A page of the sample process that is to be read only. -/
def sampleReadable : Option (Word × Memory × ProcessSpace) :=
  (sampleMachine .x86_64).syscallMmap sampleSpace.2 sampleProcess 0 4096 1 0x22 (-1) 0

theorem sampleReadable_maps : sampleReadable.map (fun x =>
    (x.1, ((sampleMachine .x86_64).spaceOf x.2.1 sampleTable.addr (vpn x.1)).map
      fun x => x.flags.exec)) = some (0x400000000000, some true) := by
  decide +kernel

theorem mmap_mprotect_agree_iff_sample : ∃ ret m' process',
    sampleReadable = some (ret, m', process') ∧
      ((sampleMachine .x86_64).ProtAgrees sampleTable m' process' ret 4096 1 ↔
        Machine.ProtBitsFit ret 4096 1) := by
  obtain ⟨c, htables, htenant⟩ := sampleTenant
  obtain ⟨⟨ret, m', process'⟩, hsome, hpair⟩ := Option.map_eq_some_iff.mp sampleReadable_maps
  have hret := congrArg Prod.fst hpair
  dsimp only at hret
  subst hret
  exact ⟨_, m', process', hsome, Machine.mmap_mprotect_agree_iff htables (Set.mem_insert _ _) rfl
    htenant (Machine.mmapSucceeds_of_result htables (Set.mem_insert _ _) rfl htenant (by decide)
      (by decide) hsome)⟩

/-- The readable page is executable. -/
theorem mmap_readable_executes : ∃ ret m' process',
    (sampleMachine .x86_64).MmapSucceeds sampleSpace.2 sampleProcess 0 4096 1 0x22 (-1) 0 ret m'
      process' ∧
      ¬ (sampleMachine .x86_64).ProtAgrees sampleTable m' process' ret 4096 1 := by
  obtain ⟨c, htables, htenant⟩ := sampleTenant
  obtain ⟨⟨ret, m', process'⟩, hsome, hpair⟩ := Option.map_eq_some_iff.mp sampleReadable_maps
  have hret := congrArg Prod.fst hpair
  have hexec := congrArg Prod.snd hpair
  dsimp only at hret hexec
  subst hret
  obtain ⟨x, hx, hxexec⟩ := Option.map_eq_some_iff.mp hexec
  refine ⟨_, m', process', Machine.mmapSucceeds_of_result htables (Set.mem_insert _ _) rfl
    htenant (by decide) (by decide) hsome, fun hagrees => ?_⟩
  have hnot := hagrees.2 (by decide) _ ⟨0, by decide, rfl⟩ x (by simpa using hx)
  rw [hxexec] at hnot
  cases hnot

end Utopia
