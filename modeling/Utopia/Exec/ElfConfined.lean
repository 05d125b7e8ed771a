/-
What `elf_load` does to memory, whatever status it returns: it fills an address space that
is being set up, from pages of its own, and leaves everything else alone.
-/
import Utopia.Exec.ElfRights
import Utopia.Mm.TableWrites

namespace Utopia

namespace Machine

/-- The address space below `r` is being set up from the chunks `mine`: they hold its tables and
the pages of its user half. -/
structure Filling (k : Machine) (roots : Set TableAddr) (r : TableAddr) (m : Memory)
    (live mine : Set Chunk) : Prop where
  tables : k.PageTables m live roots
  root : r ∈ roots
  sub : mine ⊆ live
  own : Owned mine (k.userTables m r)
  frames : ∀ page : Vpn, page.User → ∀ x, k.spaceOf m r.addr page = some x →
    ∃ c ∈ mine, c.ptr = k.physToVirt x.phys ∧ k.IsPage m live roots c

/-- What the set-up has done since the memory `m`: more chunks were handed out to it, and only
the chunks that are its own were written to. -/
structure Fills (k : Machine) (roots : Set TableAddr) (r : TableAddr) (m : Memory)
    (live mine : Set Chunk) (m' : Memory) (live' mine' : Set Chunk) : Prop
    extends k.Filling roots r m' live' mine' where
  grown : mine ⊆ mine'
  rest : live' \ mine' = live \ mine
  kernel : ∀ page : Vpn, ¬ page.User → k.spaceOf m' r.addr page = k.spaceOf m r.addr page
  kept : Set.EqOn m' m (k.alloc.kept (live \ mine))

variable {k : Machine} {m m' m'' : Memory} {live live' live'' mine mine' mine'' : Set Chunk}
  {roots : Set TableAddr} {r kr t : TableAddr} {c : Chunk} {pageVa loadBias bias : Word}
  {file : ElfFile} {ph : ElfPhdr} {prev : VmFlags} {s : ElfLoadState}

namespace Fills

theorem refl (h : k.Filling roots r m live mine) : k.Fills roots r m live mine m live mine :=
  ⟨h, subset_rfl, rfl, fun _ _ => rfl, Set.eqOn_refl _ _⟩

theorem trans (h : k.Fills roots r m live mine m' live' mine')
    (h' : k.Fills roots r m' live' mine' m'' live'' mine'') :
    k.Fills roots r m live mine m'' live'' mine'' := by
  refine ⟨h'.toFilling, h.grown.trans h'.grown, h'.rest.trans h.rest, fun page huser => ?_, ?_⟩
  · rw [h'.kernel page huser, h.kernel page huser]
  · have hkept := h'.kept
    rw [h.rest] at hkept
    exact hkept.trans h.kept

end Fills

namespace Filling

/-- The tables of the user half lie outside of what is kept without the chunks of the set-up. -/
theorem off_tables (h : k.Filling roots r m live mine) {x : Word}
    (hx : x ∈ k.alloc.kept (live \ mine)) : ∀ t ∈ k.userTables m r, x ∉ t.bytes := by
  intro t ht hxt
  obtain ⟨c, hc, hptr, hsize⟩ := h.own t ht
  refine Set.disjoint_left.mp
    (Allocator.bytes_disjoint_kept_diff h.tables.heap (h.sub hc) hc) ?_ hx
  rw [Chunk.bytes, hptr]
  exact span_subset_span le_rfl (by omega) hxt

/-- The tables of the user half grow, and a page of the user half is remapped to a page of the
set-up. -/
theorem grow (h : k.Filling roots r m live mine) (hx : k.Extends userTops roots r m live m' live')
    (hspace : ∀ page, k.spaceOf m' r.addr page = k.spaceOf m r.addr page ∨
      page.User ∧ ∀ x, k.spaceOf m' r.addr page = some x →
        ∃ c ∈ mine, c.ptr = k.physToVirt x.phys ∧ k.IsPage m live roots c)
    (hwrites : ∀ x ∈ k.alloc.kept live, (∀ t ∈ k.userTables m r, x ∉ t.bytes) → m' x = m x) :
    k.Fills roots r m live mine m' live' (mine ∪ live' \ live) := by
  refine ⟨⟨hx.tables, h.root, ?_, ?_, ?_⟩, Set.subset_union_left, ?_, ?_, ?_⟩
  · exact Set.union_subset (h.sub.trans hx.sub) Set.sdiff_subset
  · rintro t ⟨q, hprivate, hq⟩
    rcases hx.reached r h.root q t hq with hold | ⟨-, d, hd, hnew, hptr, hsize⟩
    · obtain ⟨d, hd, hptr, hsize⟩ := h.own t ⟨q, hprivate, hold⟩
      exact ⟨d, Or.inl hd, hptr, hsize⟩
    · exact ⟨d, Or.inr ⟨hd, hnew⟩, hptr, hsize⟩
  · intro page huser x hpage
    have hold : ∃ c ∈ mine, c.ptr = k.physToVirt x.phys ∧ k.IsPage m live roots c := by
      rcases hspace page with hsame | ⟨-, hnew⟩
      · exact h.frames page huser x (hsame ▸ hpage)
      · exact hnew x hpage
    obtain ⟨d, hd, hptr, hframe⟩ := hold
    exact ⟨d, Or.inl hd, hptr, hframe.extend hx⟩
  · ext d
    constructor
    · rintro ⟨hd, hout⟩
      rw [Set.mem_union, not_or] at hout
      exact ⟨by_contra fun hnot => hout.2 ⟨hd, hnot⟩, hout.1⟩
    · rintro ⟨hd, hout⟩
      exact ⟨hx.sub hd, fun hmem => hmem.elim hout fun hnew => hnew.2 hd⟩
  · intro page hkernel
    rcases hspace page with hsame | ⟨huser, -⟩
    · exact hsame
    · exact absurd huser hkernel
  · exact fun x hmem => hwrites x (Allocator.kept_diff_subset mine hmem) (h.off_tables hmem)

/-- A page is handed out to the set-up. -/
theorem grant (h : k.Filling roots r m live mine) (hlive : k.alloc.Live m' (insert c live))
    (hnew : c ∉ live) (haligned : c.ptr.toNat % 4096 = 0) (hsize : 4096 ≤ c.size)
    (hkept : Set.EqOn m' m (k.alloc.kept live)) :
    k.Fills roots r m live mine m' (insert c live) (insert c mine) ∧
      k.IsPage m' (insert c live) roots c := by
  have hsub := Set.subset_insert c live
  have hsame : ∀ t, k.Reached m roots t → Set.EqOn m' m t.bytes :=
    fun t ht => hkept.mono (h.tables.kept t ht)
  have hspace := PageTables.spaceOf_congr h.root hsame
  have hfetch : ∀ t i, k.Reached m roots t → ptEntry m' t i = ptEntry m t i :=
    fun t i ht => congrFun (ptEntry_congr (hsame t ht)) i
  refine ⟨⟨⟨h.tables.congr hlive hsub hsame, h.root, Set.insert_subset_insert h.sub, ?_, ?_⟩,
    Set.subset_insert c mine, Holding.handOut_rest hnew, fun page _ => congrFun hspace page,
    hkept.mono (Allocator.kept_diff_subset mine)⟩, Set.mem_insert c live, haligned, hsize, ?_⟩
  · rw [userTables_congr h.root hsame]
    intro t ht
    obtain ⟨d, hd, hd'⟩ := h.own t ht
    exact ⟨d, Set.mem_insert_of_mem c hd, hd'⟩
  · intro page huser x hx
    rw [hspace] at hx
    obtain ⟨d, hd, hptr, hpage⟩ := h.frames page huser x hx
    exact ⟨d, Set.mem_insert_of_mem c hd, hptr, hpage.congr hsub hsame⟩
  · intro t ht
    rw [Reached, Radix.reached_congr hfetch] at ht
    exact ((Allocator.bytes_disjoint_kept hlive hsub (Set.mem_insert c live) hnew).mono_right
      (h.tables.kept t ht)).symm

/-- A page of the set-up is written to. -/
theorem write (h : k.Filling roots r m live mine) (hc : c ∈ mine) (hpage : k.IsPage m live roots c)
    (heq : Set.EqOn m' m (pageBytes c)ᶜ) : k.Fills roots r m live mine m' live mine := by
  have heq' : Set.EqOn m' m c.bytesᶜ :=
    heq.mono (Set.compl_subset_compl.mpr hpage.pageBytes_subset)
  have hsame : ∀ t, k.Reached m roots t → Set.EqOn m' m t.bytes := fun t ht =>
    heq'.mono fun x hx hxc => Set.disjoint_left.mp (hpage.outside t ht) hx hxc
  have hspace := PageTables.spaceOf_congr h.root hsame
  have hlive := h.tables.heap.of_eqOn_compl (Allocator.bytes_subset_kept hpage.live) heq'
  refine ⟨⟨h.tables.congr hlive subset_rfl hsame, h.root, h.sub, ?_, ?_⟩, subset_rfl, rfl,
    fun page _ => congrFun hspace page, ?_⟩
  · rw [userTables_congr h.root hsame]
    exact h.own
  · intro page huser x hx
    rw [hspace] at hx
    obtain ⟨d, hd, hptr, hframe⟩ := h.frames page huser x hx
    exact ⟨d, hd, hptr, hframe.congr subset_rfl hsame⟩
  · exact heq'.mono fun x hx hxc => Set.disjoint_left.mp
      (Allocator.bytes_disjoint_kept_diff h.tables.heap hpage.live hc) hxc hx

/-- Where the loader finds a page of the user half that is there already. -/
theorem elfUv2kv_cases (h : k.Filling roots r m live mine) (haligned : pageVa.toNat % 4096 = 0)
    (huser : (vpn pageVa).User) :
    (∃ x c, k.spaceOf m r.addr (vpn pageVa) = some x ∧ c ∈ mine ∧ c.ptr = k.physToVirt x.phys ∧
        k.IsPage m live roots c ∧ k.elfUv2kv m r.addr pageVa = c.ptr ∧ c.ptr ≠ 0) ∨
      k.elfUv2kv m r.addr pageVa = 0 := by
  have hoffset : pageVa &&& 4095 = 0 := by
    apply BitVec.eq_of_toNat_eq
    exact (toNat_and_span pageVa (Nat.zero_le 3)).trans haligned
  rw [elfUv2kv, vmUserToKernel_eq, translate_eq_spaceOf, hoffset]
  cases hspace : k.spaceOf m r.addr (vpn pageVa) with
  | none => exact Or.inr rfl
  | some x =>
      obtain ⟨c, hc, hptr, hpage⟩ := h.frames _ huser x hspace
      refine Or.inl ⟨x, c, rfl, hc, hptr, hpage, ?_, k.alloc.ptr_ne_zero h.tables.heap hpage.live⟩
      simp [hptr]

end Filling

/-- The round stays in the user half, and a page that it needs is not refused unnoticed. -/
def PageConfined (k : Machine) (l4 : Word) (m : Memory) (pageVa : Word) : Prop :=
  ¬ KernelIndex (ptIndex pageVa ptTopLevel) ∧ k.PageGranted l4 m pageVa

instance (k : Machine) (l4 : Word) (m : Memory) (pageVa : Word) :
    Decidable (k.PageConfined l4 m pageVa) :=
  inferInstanceAs (Decidable (¬ 256 ≤ (ptIndex pageVa ptTopLevel).val ∧ _))

/-- The set-up has gone on to the memory `m'`. -/
def FillsTo (k : Machine) (roots : Set TableAddr) (r : TableAddr) (m : Memory)
    (live mine : Set Chunk) (m' : Memory) : Prop :=
  ∃ live' mine', k.Fills roots r m live mine m' live' mine'

namespace Filling

/-- A round for a page that is there already. -/
theorem loadPage_again (h : k.Filling roots r m live mine) (haligned : pageVa.toNat % 4096 = 0)
    (huser : (vpn pageVa).User) {x : Mapping} (hspace : k.spaceOf m r.addr (vpn pageVa) = some x)
    (hc : c ∈ mine) (hptr : c.ptr = k.physToVirt x.phys) (hpage : k.IsPage m live roots c)
    (hfound : k.elfUv2kv m r.addr pageVa = c.ptr) (hne : c.ptr ≠ 0) :
    Outcome (fun e => k.FillsTo roots r m live mine e.2) (k.FillsTo roots r m live mine)
      (k.loadPage file r.addr bias ph prev m pageVa) := by
  have htop : ¬ KernelIndex (ptIndex pageVa ptTopLevel) := user_vpn.mp huser
  obtain ⟨live', hx, hanswers, -⟩ := @PageTables.protectPage4k_spec k _ _ _ _ _ userTops
    h.tables h.root htop (ph.pageFlags.or prev)
  have hgrow := h.grow hx (fun page => ?_) fun y hy hout =>
    protectPage4k_writes h.tables h.root htop hy hout
  · rw [loadPage, hfound]
    simp only [if_pos hne]
    generalize k.protectPage4k m r.addr pageVa (ph.pageFlags.or prev) = result at *
    obtain ⟨status, m₁⟩ := result
    simp only at *
    split_ifs with hstatus
    · exact ⟨_, _, hgrow⟩
    · have hcopy := @ElfFile.copyPage_eqOn file bias _ _ ph m₁ haligned hpage.fits
      exact ⟨_, _, hgrow.trans (hgrow.write (Or.inl hc) (hpage.extend hx) hcopy)⟩
  · rcases hanswers with ⟨-, hnext, -⟩ | ⟨-, hsame⟩
    · rw [hnext, AddressSpace.protect]
      by_cases hp : page = vpn pageVa
      · subst hp
        refine Or.inr ⟨huser, fun y hy => ⟨c, hc, ?_, hpage⟩⟩
        rw [Function.update_self, hspace, Option.map_some, Option.some.injEq] at hy
        rw [← hy]
        exact hptr
      · exact Or.inl (Function.update_of_ne hp _ _)
    · exact Or.inl (congrFun (hsame r h.root) page)

/-- A round for a page that is new. -/
theorem loadPage_first (h : k.Filling roots r m live mine) (haligned : pageVa.toNat % 4096 = 0)
    (hconfined : k.PageConfined r.addr m pageVa) (hmissing : k.elfUv2kv m r.addr pageVa = 0) :
    Outcome (fun e => k.FillsTo roots r m live mine e.2) (k.FillsTo roots r m live mine)
      (k.loadPage file r.addr bias ph prev m pageVa) := by
  obtain ⟨htop, hgranted⟩ := hconfined
  rw [loadPage, hmissing]
  simp only [ne_eq, not_true_eq_false, if_false]
  rcases ptPoolAlloc_spec h.tables.heap with
    hnull | ⟨u, c, m₁, halloc, hptr, -, hsize, hnew, hlive, hkept, -⟩
  · have hoffset := hgranted hmissing (congrArg Prod.fst hnull)
    have hphys : k.hhdmVirtToPhys 0 = 0 := by
      rw [hhdmVirtToPhys, hoffset]
      rfl
    simp only [hnull, hphys, if_true]
    exact ⟨live, mine, Fills.refl h⟩
  have haligned' : c.ptr.toNat % 4096 = 0 := by
    rw [hptr]
    exact u.aligned
  have hbytes : span c.ptr 4096 ⊆ c.bytes := span_subset_span le_rfl (by omega)
  simp only [halloc, ← hptr, physToVirt_hhdmVirtToPhys]
  split
  · exact ⟨_, _, (h.grant hlive hnew haligned' hsize hkept).1⟩
  have hfill := Memory.fill_eqOn m₁ 0 (TableAddr.fits ⟨c.ptr, haligned'⟩)
  obtain ⟨hlive₂, hkept₂⟩ := Allocator.written hnew hlive hkept hbytes hfill
  obtain ⟨hfills, hpage⟩ := h.grant hlive₂ hnew haligned' hsize hkept₂
  generalize m₁.fill c.ptr 4096 0 = m₂ at *
  have hc := Set.mem_insert c mine
  obtain ⟨live', hx, hanswers⟩ := @PageTables.mapPage4k_spec k _ _ _ _ _ userTops
    hfills.tables h.root htop (k.hhdmVirtToPhys c.ptr) ph.pageFlags
  have hgrow := hfills.grow hx (fun page => ?_) fun y hy hout =>
    mapPage4k_writes hfills.tables h.root htop hy hout
  · generalize k.mapPage4k m₂ r.addr pageVa (k.hhdmVirtToPhys c.ptr) ph.pageFlags = result at *
    obtain ⟨status, m₃⟩ := result
    simp only at *
    split_ifs with hstatus
    · have hcopy := @ElfFile.copyPage_eqOn file bias _ _ ph m₃ haligned hpage.fits
      exact ⟨_, _, hfills.trans (hgrow.trans (hgrow.write (Or.inl hc) (hpage.extend hx) hcopy))⟩
    · exact ⟨_, _, hfills.trans hgrow⟩
  · rcases hanswers with ⟨-, hnext, -⟩ | ⟨-, hsame⟩
    · rw [hnext, pageMapping_pteLeaf (hpage.isFrame hlive₂)]
      by_cases hp : page = vpn pageVa
      · subst hp
        refine Or.inr ⟨user_vpn.mpr htop, fun y hy => ⟨c, hc, ?_, hpage⟩⟩
        rw [Function.update_self, Option.some.injEq] at hy
        rw [← hy, physToVirt_hhdmVirtToPhys]
      · exact Or.inl (Function.update_of_ne hp _ _)
    · exact Or.inl (congrFun (hsame r h.root) page)

/-- A round goes on with the set-up, whether it succeeds or not. -/
theorem loadPage (h : k.Filling roots r m live mine) (haligned : pageVa.toNat % 4096 = 0)
    (hconfined : k.PageConfined r.addr m pageVa) :
    Outcome (fun e => k.FillsTo roots r m live mine e.2) (k.FillsTo roots r m live mine)
      (k.loadPage file r.addr bias ph prev m pageVa) := by
  have huser := user_vpn.mpr hconfined.1
  rcases h.elfUv2kv_cases haligned huser with
    ⟨x, c, hspace, hc, hptr, hpage, hfound, hne⟩ | hmissing
  · exact h.loadPage_again haligned huser hspace hc hptr hpage hfound hne
  · exact h.loadPage_first haligned hconfined hmissing

end Filling

/-! ### The loops -/

/-- The rounds of the loop over the pages of a segment are confined. -/
def SegmentConfined (k : Machine) (file : ElfFile) (l4 bias : Word) (s : ElfLoadState)
    (ph : ElfPhdr) : Prop :=
  ph.type = ptLoad → ¬ file.size < ph.offset + ph.filesz →
    FoldAlways (k.PageConfined l4) (k.loadPage file l4 bias ph s.prevSegFlags) (ph.pages bias)
      s.memory

instance (k : Machine) (file : ElfFile) (l4 bias : Word) (s : ElfLoadState) (ph : ElfPhdr) :
    Decidable (k.SegmentConfined file l4 bias s ph) :=
  inferInstanceAs (Decidable (_ → _ → FoldAlways _ _ _ _))

/-- All rounds of `elf_load` are confined. -/
def LoadConfined (k : Machine) (file : ElfFile) (l4 loadBias : Word) (m : Memory) : Prop :=
  FoldAlways (k.SegmentConfined file l4 (file.biasFor loadBias))
    (k.loadHeader file l4 (file.biasFor loadBias)) file.phdrs
    ⟨m, 0, VmFlags.none, ~~~0, 0, none, none⟩

instance (k : Machine) (file : ElfFile) (l4 loadBias : Word) (m : Memory) :
    Decidable (k.LoadConfined file l4 loadBias m) :=
  inferInstanceAs (Decidable (FoldAlways _ _ _ _))

/-- The memory that a load leaves, whatever its status. -/
def loadedMemory : ElfLoading (ElfLoadResult × Memory) → Memory
  | .error e => e.2
  | .ok out => out.2

theorem loadedMemory_of {Q : Memory → Prop} {result : ElfLoading (ElfLoadResult × Memory)}
    (h : Outcome (fun e => Q e.2) (fun out => Q out.2) result) : Q (loadedMemory result) := by
  cases result with
  | error e => exact h
  | ok out => exact h

/-- One more step of a set-up. -/
theorem FillsTo.step {α : Type} {result : ElfLoading α} {memory : α → Memory}
    (h : k.FillsTo roots r m live mine m')
    (hstep : ∀ live' mine', k.Filling roots r m' live' mine' →
      Outcome (fun e => k.FillsTo roots r m' live' mine' e.2)
        (fun a => k.FillsTo roots r m' live' mine' (memory a)) result) :
    Outcome (fun e => k.FillsTo roots r m live mine e.2)
      (fun a => k.FillsTo roots r m live mine (memory a)) result := by
  obtain ⟨live', mine', hfills⟩ := h
  refine (hstep live' mine' hfills.toFilling).mono ?_ ?_
  · rintro e ⟨live'', mine'', hnext⟩
    exact ⟨live'', mine'', hfills.trans hnext⟩
  · rintro a ⟨live'', mine'', hnext⟩
    exact ⟨live'', mine'', hfills.trans hnext⟩

namespace Filling

theorem loadHeader (h : k.Filling roots r s.memory live mine)
    (hconfined : k.SegmentConfined file r.addr bias s ph) :
    Outcome (fun e => k.FillsTo roots r s.memory live mine e.2)
      (fun s' => k.FillsTo roots r s.memory live mine s'.memory)
      (k.loadHeader file r.addr bias s ph) := by
  have hrefl : k.FillsTo roots r s.memory live mine s.memory := ⟨live, mine, Fills.refl h⟩
  rw [Machine.loadHeader]
  split
  · exact hrefl
  split
  · exact hrefl
  split
  · exact hrefl
  split
  · exact hrefl
  rename_i hload
  split
  · exact hrefl
  rename_i hshort
  have hpages := (hconfined (not_not.mp hload) hshort).outcome
    (I := k.FillsTo roots r s.memory live mine)
    (E := fun e => k.FillsTo roots r s.memory live mine e.2) ?_ hrefl
  · exact hpages.bind fun m' hm' => hm'
  · exact fun m' va hva hm' hva' => hm'.step fun live' mine' hfilling =>
      hfilling.loadPage (ElfPhdr.mem_pages.mp hva).1 hva'

/-- A load goes on with the set-up, whether it succeeds or not. -/
theorem elfLoad (h : k.Filling roots r m live mine)
    (hconfined : k.LoadConfined file r.addr loadBias m) :
    k.FillsTo roots r m live mine (loadedMemory (k.elfLoad file r.addr loadBias m)) := by
  have hrefl : k.FillsTo roots r m live mine m := ⟨live, mine, Fills.refl h⟩
  apply loadedMemory_of
  rw [Machine.elfLoad]
  split
  · exact hrefl
  have hloop := hconfined.outcome (I := fun s => k.FillsTo roots r m live mine s.memory)
    (E := fun e => k.FillsTo roots r m live mine e.2)
    (fun s ph _ hs hph => hs.step fun live' mine' hfilling => hfilling.loadHeader hph) hrefl
  refine hloop.bind fun s hs => ?_
  split
  · exact hs
  cases file.interpOf s.interpPh with
  | error status => exact hs
  | ok path =>
      cases file.dynamicOf s.dynPh with
      | error status => exact hs
      | ok dynamic => exact hs

end Filling

/-! ### The whole set-up -/

/-- What happened since the memory `m` is confined to the space below `r`: the kernel half of
its translation is as it was, chunks were handed out to it only, and the bytes written to lie in
its chunks or in the free memory of the heap. -/
structure ConfinedTo (k : Machine) (roots : Set TableAddr) (r : TableAddr) (m : Memory)
    (live mine : Set Chunk) (m' : Memory) (live' mine' : Set Chunk) : Prop where
  tables : k.PageTables m' live' roots
  sub : mine' ⊆ live'
  grown : mine ⊆ mine'
  rest : live' \ mine' = live \ mine
  kernel : ∀ va, KernelIndex (ptIndex va ptTopLevel) →
    k.translate m' r.addr va = k.translate m r.addr va
  writes : ∀ x, m' x ≠ m x →
    (∃ c ∈ mine', x ∈ c.bytes) ∨ x ∈ k.alloc.arena ∧ ∀ c ∈ live', x ∉ c.bytes

/-- Other code has run since the memory `m`, and the page tables and the chunks `mine` are still
there. -/
structure SparesTables (k : Machine) (roots : Set TableAddr) (mine : Set Chunk) (m m' : Memory)
    (live' : Set Chunk) : Prop where
  heap : k.alloc.Live m' live'
  mine : mine ⊆ live'
  kept : ∀ t, k.Reached m roots t → t.bytes ⊆ k.alloc.kept live'
  same : ∀ t, k.Reached m roots t → Set.EqOn m' m t.bytes

theorem Fills.confined (h : k.Fills roots r m live mine m' live' mine') :
    k.ConfinedTo roots r m live mine m' live' mine' := by
  refine ⟨h.tables, h.sub, h.grown, h.rest, fun va hva => ?_, fun x hx => ?_⟩
  · have hkernel : ¬ (vpn va).User := fun huser => user_vpn.mp huser hva
    rw [translate_eq_spaceOf, translate_eq_spaceOf, h.kernel _ hkernel]
  · by_cases hmine : ∃ c ∈ mine', x ∈ c.bytes
    · exact Or.inl hmine
    have hout : x ∉ k.alloc.kept (live \ mine) := fun hmem => hx (h.kept hmem)
    refine Or.inr ⟨by_contra fun harena => hout (Or.inl harena), fun c hc hxc => ?_⟩
    have hrest : c ∈ live' \ mine' := ⟨hc, fun hmem => hmine ⟨c, hmem, hxc⟩⟩
    rw [h.rest] at hrest
    exact hout (Allocator.bytes_subset_kept hrest hxc)

/-- The set-up of a fresh table begins with the chunk of the table. -/
theorem NewSpace.filling (h : k.NewSpace m live roots kr r c m') :
    k.Filling (insert r roots) r m' (insert c live) {c} := by
  refine ⟨h.tables, Set.mem_insert r roots,
    Set.singleton_subset_iff.mpr (Set.mem_insert c live), ?_, fun page huser x hx => ?_⟩
  · rw [h.root.userTables_eq]
    rintro t rfl
    exact ⟨c, rfl, h.ptr, h.size⟩
  · rw [h.root.spaceOf_user huser] at hx
    cases hx

/-- A set-up goes on after other code. -/
theorem Filling.spared (h : k.Filling roots r m live mine)
    (hspares : k.SparesTables roots mine m m' live') : k.Filling roots r m' live' mine := by
  have hfetch : ∀ t i, k.Reached m roots t → ptEntry m' t i = ptEntry m t i :=
    fun t i ht => congrFun (ptEntry_congr (hspares.same t ht)) i
  refine ⟨h.tables.transport hspares.heap hspares.kept hspares.same, h.root, hspares.mine, ?_,
    fun page huser x hx => ?_⟩
  · rw [userTables_congr h.root hspares.same]
    exact h.own
  · rw [PageTables.spaceOf_congr h.root hspares.same] at hx
    obtain ⟨d, hd, hptr, hpage⟩ := h.frames page huser x hx
    refine ⟨d, hd, hptr, hspares.mine hd, hpage.aligned, hpage.size, fun t ht => ?_⟩
    rw [Reached, Radix.reached_congr hfetch] at ht
    exact hpage.outside t ht

/-- A load into a fresh table is confined to it when its rounds are, and so is the load of an
interpreter after it. -/
theorem elfLoad_confined (h : k.NewSpace m live roots kr r c m')
    (hmain : k.LoadConfined file r.addr loadBias m') :
    ∃ live₁ mine₁, k.ConfinedTo (insert r roots) r m' (insert c live) {c}
        (loadedMemory (k.elfLoad file r.addr loadBias m')) live₁ mine₁ ∧
      ∀ interp interpBase m₂ live₂, k.SparesTables (insert r roots) mine₁
          (loadedMemory (k.elfLoad file r.addr loadBias m')) m₂ live₂ →
        k.LoadConfined interp r.addr interpBase m₂ →
        ∃ live₃ mine₃, k.ConfinedTo (insert r roots) r m₂ live₂ mine₁
          (loadedMemory (k.elfLoad interp r.addr interpBase m₂)) live₃ mine₃ := by
  obtain ⟨live₁, mine₁, hfills⟩ := h.filling.elfLoad hmain
  refine ⟨live₁, mine₁, hfills.confined, fun interp interpBase m₂ live₂ hspares hinterp => ?_⟩
  obtain ⟨live₃, mine₃, hfills₂⟩ := (hfills.toFilling.spared hspares).elfLoad hinterp
  exact ⟨live₃, mine₃, hfills₂.confined⟩

end Machine

/-! ### An image for the kernel half -/

/-- An image with one segment for a page of the kernel half. -/
def sampleIntruder : ElfFile :=
  ElfFile.ofList (sampleEhdr 1 ++ samplePhdr 6 0xffff900000000000 16)

theorem sampleIntruder_rights : (sampleMachine .x86_64).rightsAfter sampleIntruder
    sampleTable.addr 0 sampleSpace.2 0x900000000 = some ⟨true, true, false, false⟩ := by
  decide +kernel

theorem sampleTable_kernel :
    (sampleMachine .x86_64).spaceOf sampleSpace.2 sampleTable.addr 0x900000000 = none := by
  decide +kernel

theorem sampleElf_loadConfined :
    (sampleMachine .x86_64).LoadConfined sampleElf sampleTable.addr 0 sampleSpace.2 := by
  decide +kernel

/-- The memory after the load of the image with three segments on one page. -/
def sampleLoaded : Memory :=
  Machine.loadedMemory
    ((sampleMachine .x86_64).elfLoad sampleElf sampleTable.addr 0 sampleSpace.2)

theorem sampleElf_loadConfined_again :
    (sampleMachine .x86_64).LoadConfined sampleElf sampleTable.addr 0 sampleLoaded := by
  decide +kernel

namespace Machine

/-- A segment for the kernel half is loaded there. -/
theorem elfLoad_maps_kernel : ∃ (k : Machine) (m m' : Memory) (live : Set Chunk)
    (roots : Set TableAddr) (kr r : TableAddr) (c : Chunk) (file : ElfFile),
    k.PageTables m live roots ∧ kr ∈ roots ∧ k.NewSpace m live roots kr r c m' ∧
      ¬ ∃ live₁ mine₁, k.ConfinedTo (insert r roots) r m' (insert c live) {c}
        (loadedMemory (k.elfLoad file r.addr 0 m')) live₁ mine₁ := by
  obtain ⟨c, hspace⟩ := sampleNewSpace
  refine ⟨sampleMachine .x86_64, sampleMemory, sampleSpace.2, ∅, {sampleRoot}, sampleRoot,
    sampleTable, c, sampleIntruder, sampleTables .x86_64, rfl, hspace, ?_⟩
  rintro ⟨live₁, mine₁, hconfined⟩
  obtain ⟨result, m', x, hok, hx, -⟩ := rightsAfter_eq_some sampleIntruder_rights
  have hsame := hconfined.kernel (Vpn.addr 0x900000000)
    (show 256 ≤ (ptIndex (Vpn.addr 0x900000000) ptTopLevel).val by decide)
  rw [hok] at hsame
  have hnone := hsame.trans sampleTable_kernel
  rw [loadedMemory, show (sampleMachine .x86_64).translate m' sampleTable.addr
    (Vpn.addr 0x900000000) = some x from hx] at hnone
  cases hnone

/-- The image with three segments on one page, loaded twice. -/
theorem elfLoad_confined_sample : ∃ (c : Chunk) (live₁ mine₁ live₃ mine₃ : Set Chunk),
    (sampleMachine .x86_64).ConfinedTo {sampleTable, sampleRoot} sampleTable sampleSpace.2
      (insert c ∅) {c} sampleLoaded live₁ mine₁ ∧
    (sampleMachine .x86_64).ConfinedTo {sampleTable, sampleRoot} sampleTable sampleLoaded live₁
      mine₁ (loadedMemory ((sampleMachine .x86_64).elfLoad sampleElf sampleTable.addr 0
        sampleLoaded)) live₃ mine₃ := by
  obtain ⟨c, hspace⟩ := sampleNewSpace
  obtain ⟨live₁, mine₁, hmain, hinterp⟩ := elfLoad_confined hspace sampleElf_loadConfined
  obtain ⟨live₃, mine₃, hconfined⟩ := hinterp sampleElf 0 sampleLoaded live₁
    ⟨hmain.tables.heap, hmain.sub, hmain.tables.kept, fun _ _ => Set.eqOn_refl _ _⟩
    sampleElf_loadConfined_again
  exact ⟨c, live₁, mine₁, live₃, mine₃, hmain, hconfined⟩

end Machine

end Utopia
