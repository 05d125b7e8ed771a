/-
The address space that `elf_load` fills: the pages of the user half, each in a chunk of its
own outside of the page tables.
-/
import Utopia.Exec.UserImage
import Utopia.Lib.Outcome
import Utopia.Mm.FreshSpace

namespace Utopia

/-- A page of the user half: the chunk with its bytes, and its permissions. -/
structure LoadedPage where
  chunk : Chunk
  flags : VmFlags

namespace Machine

/-- The chunk is a page that no table overlaps. -/
structure IsPage (k : Machine) (m : Memory) (live : Set Chunk) (roots : Set TableAddr)
    (c : Chunk) : Prop where
  live : c ∈ live
  aligned : c.ptr.toNat % 4096 = 0
  size : 4096 ≤ c.size
  outside : ∀ t, k.Reached m roots t → Disjoint t.bytes c.bytes

/-- The user half of the space below `r` is `pages`. -/
structure LoadedPages (k : Machine) (roots : Set TableAddr) (r : TableAddr)
    (pages : Vpn → Option LoadedPage) (m : Memory) (live : Set Chunk) : Prop where
  tables : k.PageTables m live roots
  root : r ∈ roots
  space : ∀ page : Vpn, page.User → k.spaceOf m r.addr page =
    (pages page).map fun p => ⟨k.hhdmVirtToPhys p.chunk.ptr, p.flags⟩
  page : ∀ page p, pages page = some p → k.IsPage m live roots p.chunk
  own : ∀ page page' p p', pages page = some p → pages page' = some p' → p.chunk = p'.chunk →
    page = page'

variable {k : Machine} {m m' m₁ : Memory} {live live' : Set Chunk} {roots : Set TableAddr}
  {r u kr : TableAddr} {pages : Vpn → Option LoadedPage} {page : Vpn} {p : LoadedPage} {c : Chunk}
  {flags : VmFlags} {file : ElfFile} {bias dst : Word} {ph : ElfPhdr} {prev : VmFlags}

/-- The bytes of a page at the start of its chunk. -/
def pageBytes (c : Chunk) : Set Word := span c.ptr 4096

theorem IsPage.pageBytes_subset (h : k.IsPage m live roots c) : pageBytes c ⊆ c.bytes :=
  span_subset_span le_rfl (by have := h.size; omega)

theorem IsPage.fits (h : k.IsPage m live roots c) : c.ptr.toNat + 4096 ≤ 2 ^ 64 :=
  TableAddr.fits ⟨c.ptr, h.aligned⟩

theorem IsPage.isFrame (h : k.IsPage m live roots c) (hheap : k.alloc.Live m live) :
    k.arch.IsFrame (k.hhdmVirtToPhys c.ptr) :=
  isFrame_hhdmVirtToPhys (u := ⟨c.ptr, h.aligned⟩) hheap h.live rfl h.size

theorem IsPage.congr (h : k.IsPage m live roots c) (hsub : live ⊆ live')
    (hsame : ∀ t, k.Reached m roots t → Set.EqOn m' m t.bytes) : k.IsPage m' live' roots c := by
  have hfetch : ∀ t i, k.Reached m roots t → ptEntry m' t i = ptEntry m t i :=
    fun t i ht => congrFun (ptEntry_congr (hsame t ht)) i
  refine ⟨hsub h.live, h.aligned, h.size, fun t ht => ?_⟩
  rw [Reached, Radix.reached_congr hfetch] at ht
  exact h.outside t ht

/-- Growth of the tables does not reach into a page. -/
theorem IsPage.frame (h : k.IsPage m live roots c)
    (hx : k.Extends userTops roots r m live m' live') (i : BitVec 12) :
    m' (c.ptr + i.setWidth 64) = m (c.ptr + i.setWidth 64) := by
  have hmem := h.pageBytes_subset (offset_mem_span h.fits i)
  refine hx.frame _ (Allocator.bytes_subset_kept h.live hmem) fun t ht htx => ?_
  exact Set.disjoint_left.mp (h.outside t ht) htx hmem

theorem IsPage.extend (h : k.IsPage m live roots c)
    (hx : k.Extends userTops roots r m live m' live') : k.IsPage m' live' roots c := by
  refine ⟨hx.sub h.live, h.aligned, h.size, ?_⟩
  rintro t ⟨r', hr', q, hq⟩
  rcases hx.reached r' hr' q t hq with hq | ⟨-, d, hd, hnew, hptr, hsize⟩
  · exact h.outside t ⟨r', hr', q, hq⟩
  · have hne : d ≠ c := by
      rintro rfl
      exact hnew h.live
    refine (k.alloc.bytes_disjoint hx.tables.heap hd (hx.sub h.live) hne).mono_left ?_
    rw [Chunk.bytes, hptr]
    exact span_subset_span le_rfl (by omega)

theorem physToVirt_hhdmVirtToPhys (a : Word) : k.physToVirt (k.hhdmVirtToPhys a) = a := by
  rw [physToVirt, hhdmVirtToPhys, BitVec.add_comm, BitVec.sub_add_cancel]

namespace LoadedPages

/-- A user half without pages. -/
theorem of_empty (htables : k.PageTables m live roots) (hr : r ∈ roots)
    (hempty : ∀ page : Vpn, page.User → k.spaceOf m r.addr page = none) :
    k.LoadedPages roots r (fun _ => none) m live := by
  refine ⟨htables, hr, hempty, ?_, ?_⟩
  · intro page p hp
    cases hp
  · intro page page' p p' hp
    cases hp

/-- Where the loader finds a page that is there already. -/
theorem elfUv2kv_eq (h : k.LoadedPages roots r pages m live) (huser : page.User) :
    k.elfUv2kv m r.addr page.addr = ((pages page).map fun p => p.chunk.ptr).getD 0 := by
  have hoffset : page.addr &&& 4095 = 0 := by
    apply BitVec.eq_of_toNat_eq
    have hlow : (page.addr &&& 4095).toNat = page.addr.toNat % 4096 :=
      toNat_and_span page.addr (Nat.zero_le 3)
    rw [hlow, Vpn.addr_mod]
    rfl
  rw [elfUv2kv, vmUserToKernel_eq, translate_eq_spaceOf, vpn_addr, h.space page huser, hoffset]
  cases pages page with
  | none => rfl
  | some p => simp [physToVirt_hhdmVirtToPhys]

theorem userImage_eq (h : k.LoadedPages roots r pages m live) (huser : page.User) :
    k.userImage m r.addr page =
      (pages page).map fun p => ⟨p.flags, fun i => m (p.chunk.ptr + i.setWidth 64)⟩ := by
  rw [userImage, h.space page huser]
  cases pages page with
  | none => rfl
  | some p => simp only [Option.map_some, physToVirt_hhdmVirtToPhys]

/-- More chunks, and stores outside of the tables, leave the space as it is. -/
theorem congr (h : k.LoadedPages roots r pages m live) (hlive : k.alloc.Live m' live')
    (hsub : live ⊆ live') (hsame : ∀ t, k.Reached m roots t → Set.EqOn m' m t.bytes) :
    k.LoadedPages roots r pages m' live' := by
  refine ⟨h.tables.congr hlive hsub hsame, h.root, fun page huser => ?_, fun page p hp => ?_, h.own⟩
  · rw [← h.space page huser]
    exact PageTables.translate_congr h.root hsame page.addr
  · exact (h.page page p hp).congr hsub hsame

/-- Stores into a page are such stores. -/
theorem write (h : k.LoadedPages roots r pages m live) (hc : k.IsPage m live roots c)
    (heq : Set.EqOn m' m c.bytesᶜ) : k.LoadedPages roots r pages m' live := by
  refine h.congr (h.tables.heap.of_eqOn_compl (Allocator.bytes_subset_kept hc.live) heq) subset_rfl
    fun t ht => ?_
  exact heq.mono fun x hx hxc => Set.disjoint_left.mp (hc.outside t ht) hx hxc

/-- The tables grow and `page` is remapped. -/
theorem extend (h : k.LoadedPages roots r pages m live)
    (hx : k.Extends userTops roots r m live m' live') (hp : k.IsPage m live roots p.chunk)
    (hown : ∀ page' p', pages page' = some p' → p.chunk = p'.chunk → page = page')
    (hspace : k.spaceOf m' r.addr =
      Function.update (k.spaceOf m r.addr) page
        (some ⟨k.hhdmVirtToPhys p.chunk.ptr, p.flags⟩)) :
    k.LoadedPages roots r (Function.update pages page (some p)) m' live' := by
  refine ⟨hx.tables, h.root, fun page' huser' => ?_, fun page' p' hp' => ?_,
    fun page₁ page₂ p₁ p₂ h₁ h₂ hsame => ?_⟩
  · rw [hspace]
    by_cases heq : page' = page
    · subst heq
      rw [Function.update_self, Function.update_self, Option.map_some]
    · rw [Function.update_of_ne heq, Function.update_of_ne heq, h.space page' huser']
  · by_cases heq : page' = page
    · subst heq
      rw [Function.update_self] at hp'
      obtain rfl := Option.some.inj hp'
      exact hp.extend hx
    · rw [Function.update_of_ne heq] at hp'
      exact (h.page page' p' hp').extend hx
  · by_cases heq₁ : page₁ = page <;> by_cases heq₂ : page₂ = page
    · rw [heq₁, heq₂]
    · subst heq₁
      rw [Function.update_self] at h₁
      rw [Function.update_of_ne heq₂] at h₂
      obtain rfl := Option.some.inj h₁
      exact hown page₂ p₂ h₂ hsame
    · subst heq₂
      rw [Function.update_self] at h₂
      rw [Function.update_of_ne heq₁] at h₁
      obtain rfl := Option.some.inj h₂
      exact (hown page₁ p₁ h₁ hsame.symm).symm
    · rw [Function.update_of_ne heq₁] at h₁
      rw [Function.update_of_ne heq₂] at h₂
      exact h.own page₁ page₂ p₁ p₂ h₁ h₂ hsame

/-- The end of a round: `page` is mapped to its chunk, and then its bytes are copied. -/
theorem put (h : k.LoadedPages roots r pages m live) (huser : page.User)
    (hx : k.Extends userTops roots r m live m₁ live') (hp : k.IsPage m live roots p.chunk)
    (hown : ∀ page' p', pages page' = some p' → p.chunk = p'.chunk → page = page')
    (hspace : k.spaceOf m₁ r.addr =
      Function.update (k.spaceOf m r.addr) page
        (some ⟨k.hhdmVirtToPhys p.chunk.ptr, p.flags⟩))
    (hm' : m' = file.copyPage bias ph page.addr p.chunk.ptr m₁) :
    k.LoadedPages roots r (Function.update pages page (some p)) m' live' ∧
      ∀ page', page'.User → k.userImage m' r.addr page' =
        Function.update (k.userImage m r.addr) page (some ⟨p.flags, fun i =>
          if ph.HasByte bias (page.addr + i.setWidth 64) then
            file.byte (ph.fileOffset bias (page.addr + i.setWidth 64))
          else m (p.chunk.ptr + i.setWidth 64)⟩) page' := by
  have h₁ := h.extend hx hp hown hspace
  have hp₁ := hp.extend hx
  have hcopy := @ElfFile.copyPage_eqOn file bias _ _ ph m₁ page.addr_mod hp.fits
  rw [← hm'] at hcopy
  have h' := h₁.write hp₁ (hcopy.mono (Set.compl_subset_compl.mpr hp.pageBytes_subset))
  refine ⟨h', fun page' huser' => ?_⟩
  rw [h'.userImage_eq huser']
  by_cases heq : page' = page
  · subst heq
    rw [Function.update_self, Function.update_self, Option.map_some]
    congr 2
    funext i
    rw [hm', ElfFile.copyPage_eq huser, hp.frame hx]
  · rw [Function.update_of_ne heq, Function.update_of_ne heq, h.userImage_eq huser']
    cases hother : pages page' with
    | none => rfl
    | some p' =>
        have hpage := h.page page' p' hother
        have hne : p.chunk ≠ p'.chunk := fun hsame => heq (hown page' p' hother hsame).symm
        have hdis := k.alloc.bytes_disjoint h.tables.heap hp.live hpage.live hne
        have hsame : ∀ i : BitVec 12,
            m' (p'.chunk.ptr + i.setWidth 64) = m (p'.chunk.ptr + i.setWidth 64) := fun i => by
          rw [hcopy fun hmem => Set.disjoint_left.mp hdis (hp.pageBytes_subset hmem)
            (hpage.pageBytes_subset (offset_mem_span hpage.fits i)), hpage.frame hx]
        simp only [Option.map_some, hsame]

/-- A new page is no table and no page of before. -/
theorem grant (h : k.LoadedPages roots r pages m live) (hlive : k.alloc.Live m' (insert c live))
    (hnew : c ∉ live) (haligned : c.ptr.toNat % 4096 = 0) (hsize : 4096 ≤ c.size)
    (hkept : Set.EqOn m' m (k.alloc.kept live)) :
    k.LoadedPages roots r pages m' (insert c live) ∧ k.IsPage m' (insert c live) roots c ∧
      (∀ page p, pages page = some p → c ≠ p.chunk) ∧
      ∀ page, page.User → k.userImage m' r.addr page = k.userImage m r.addr page := by
  have hsub := Set.subset_insert c live
  have hsame : ∀ t, k.Reached m roots t → Set.EqOn m' m t.bytes :=
    fun t ht => hkept.mono (h.tables.kept t ht)
  have h' := h.congr hlive hsub hsame
  have hdis := Allocator.bytes_disjoint_kept hlive hsub (Set.mem_insert c live) hnew
  refine ⟨h', ⟨Set.mem_insert c live, haligned, hsize, fun t ht => ?_⟩, fun page p hp => ?_,
    fun page huser => ?_⟩
  · have hfetch : ∀ t i, k.Reached m roots t → ptEntry m' t i = ptEntry m t i :=
      fun t i ht => congrFun (ptEntry_congr (hsame t ht)) i
    rw [Reached, Radix.reached_congr hfetch] at ht
    exact (hdis.mono_right (h.tables.kept t ht)).symm
  · rintro rfl
    exact hnew (h.page page p hp).live
  · rw [h'.userImage_eq huser, h.userImage_eq huser]
    cases hp : pages page with
    | none => rfl
    | some p =>
        have hpage := h.page page p hp
        have hbyte : ∀ i : BitVec 12,
            m' (p.chunk.ptr + i.setWidth 64) = m (p.chunk.ptr + i.setWidth 64) := fun i =>
          hkept (Allocator.bytes_subset_kept hpage.live
            (hpage.pageBytes_subset (offset_mem_span hpage.fits i)))
        simp only [Option.map_some, hbyte]

end LoadedPages

/-- The user half of the space below `r` is `image`. -/
def Shows (k : Machine) (roots : Set TableAddr) (r : TableAddr) (image : UserImage) (m : Memory)
    (live : Set Chunk) : Prop :=
  ∃ pages, k.LoadedPages roots r pages m live ∧
    ∀ page, page.User → k.userImage m r.addr page = image page

/-- The round needs no new page, or it gets one, or the direct map starts at 0 and the null of
`pt_pool_alloc` is noticed. -/
def PageGranted (k : Machine) (l4 : Word) (m : Memory) (pageVa : Word) : Prop :=
  k.elfUv2kv m l4 pageVa = 0 → (k.ptPoolAlloc m).1 = 0 → k.hhdmOffset = 0

instance (k : Machine) (l4 : Word) (m : Memory) (pageVa : Word) :
    Decidable (k.PageGranted l4 m pageVa) :=
  inferInstanceAs (Decidable (_ → _ → _))

variable {image : UserImage}

/-- A round for a page that is there already. -/
theorem LoadedPages.loadPage_again (h : k.LoadedPages roots r pages m live) (huser : page.User)
    (hp : pages page = some p) (himage : ∀ page, page.User → k.userImage m r.addr page = image page)
    (hok : k.loadPage file r.addr bias ph prev m page.addr = .ok m') :
    ∃ live', k.Shows roots r (image.addPage file bias ph prev page) m' live' := by
  have hpage := h.page page p hp
  have hfound : k.elfUv2kv m r.addr page.addr = p.chunk.ptr := by
    rw [h.elfUv2kv_eq huser, hp]
    rfl
  have hne : p.chunk.ptr ≠ 0 := k.alloc.ptr_ne_zero h.tables.heap hpage.live
  have hold : image page = some ⟨p.flags, fun i => m (p.chunk.ptr + i.setWidth 64)⟩ := by
    rw [← himage page huser, h.userImage_eq huser, hp]
    rfl
  obtain ⟨live', hx, hanswers, -⟩ := @PageTables.protectPage4k_spec k _ _ _ _ _ userTops
    h.tables h.root huser (ph.pageFlags.or prev)
  rw [loadPage, hfound] at hok
  simp only [if_pos hne] at hok
  generalize k.protectPage4k m r.addr page.addr (ph.pageFlags.or prev) = result at *
  obtain ⟨status, m₁⟩ := result
  rcases hanswers with ⟨rfl, hspace, -⟩ | ⟨rfl, -⟩
  · have hm' := (Except.ok.inj hok).symm
    have hmapped : k.spaceOf m₁ r.addr = Function.update (k.spaceOf m r.addr) page
        (some ⟨k.hhdmVirtToPhys p.chunk.ptr, ph.pageFlags.or prev⟩) := by
      rw [hspace, AddressSpace.protect, vpn_addr, h.space page huser, hp]
      rfl
    obtain ⟨hpages, hbytes⟩ := h.put (p := ⟨p.chunk, ph.pageFlags.or prev⟩) huser hx hpage
      (fun page' p' hp' hsame => h.own page page' p p' hp hp' hsame) hmapped hm'
    refine ⟨live', _, hpages, fun page' huser' => ?_⟩
    rw [hbytes page' huser', UserImage.addPage, hold, UserImage.nextPage]
    by_cases heq : page' = page
    · subst heq
      rw [Function.update_self, Function.update_self]
      rfl
    · rw [Function.update_of_ne heq, Function.update_of_ne heq, himage page' huser']
  · cases hok

/-- A round for a page that is new. -/
theorem LoadedPages.loadPage_first (h : k.LoadedPages roots r pages m live) (huser : page.User)
    (hp : pages page = none) (himage : ∀ page, page.User → k.userImage m r.addr page = image page)
    (hgranted : k.PageGranted r.addr m page.addr)
    (hok : k.loadPage file r.addr bias ph prev m page.addr = .ok m') :
    ∃ live', k.Shows roots r (image.addPage file bias ph prev page) m' live' := by
  have hmissing : k.elfUv2kv m r.addr page.addr = 0 := by
    rw [h.elfUv2kv_eq huser, hp]
    rfl
  have hold : image page = none := by
    rw [← himage page huser, h.userImage_eq huser, hp]
    rfl
  rw [loadPage, hmissing] at hok
  simp only [ne_eq, not_true_eq_false, if_false] at hok
  rcases ptPoolAlloc_spec h.tables.heap with
    hnull | ⟨u, c, m₁, halloc, hptr, -, hsize, hnew, hlive, hkept, -⟩
  · have hoffset := hgranted hmissing (congrArg Prod.fst hnull)
    simp only [hnull, hhdmVirtToPhys, hoffset] at hok
    cases hok
  have haligned : c.ptr.toNat % 4096 = 0 := by
    rw [hptr]
    exact u.aligned
  have hfits : c.ptr.toNat + 4096 ≤ 2 ^ 64 := TableAddr.fits ⟨c.ptr, haligned⟩
  have hbytes : span c.ptr 4096 ⊆ c.bytes := span_subset_span le_rfl (by omega)
  have hfill := Memory.fill_eqOn m₁ 0 hfits
  obtain ⟨hlive₂, hkept₂⟩ := Allocator.written hnew hlive hkept hbytes hfill
  obtain ⟨hpages₂, hc₂, hown, himage₂⟩ := h.grant hlive₂ hnew haligned hsize hkept₂
  simp only [halloc, ← hptr, physToVirt_hhdmVirtToPhys] at hok
  split at hok
  · cases hok
  have hzero : ∀ i : BitVec 12, m₁.fill c.ptr 4096 0 (c.ptr + i.setWidth 64) = 0 := fun i =>
    Memory.fill_of_mem_span m₁ 0 hfits (offset_mem_span hfits i)
  generalize m₁.fill c.ptr 4096 0 = m₂ at *
  obtain ⟨live', hx, hanswers⟩ := @PageTables.mapPage4k_spec k _ _ _ _ _ userTops
    hpages₂.tables h.root huser (k.hhdmVirtToPhys c.ptr) ph.pageFlags
  generalize k.mapPage4k m₂ r.addr page.addr (k.hhdmVirtToPhys c.ptr) ph.pageFlags = result at *
  obtain ⟨status, m₃⟩ := result
  rcases hanswers with ⟨rfl, hspace, -⟩ | ⟨rfl, -⟩
  · have hm' := (Except.ok.inj hok).symm
    rw [vpn_addr, pageMapping_pteLeaf (hc₂.isFrame hlive₂)] at hspace
    obtain ⟨hpages, hput⟩ := hpages₂.put (p := ⟨c, ph.pageFlags⟩) huser hx hc₂
      (fun page' p' hp' hsame => absurd hsame (hown page' p' hp')) hspace hm'
    refine ⟨live', _, hpages, fun page' huser' => ?_⟩
    rw [hput page' huser', UserImage.addPage, hold, UserImage.nextPage]
    by_cases heq : page' = page
    · subst heq
      simp only [Function.update_self, hzero]
      rfl
    · rw [Function.update_of_ne heq, Function.update_of_ne heq, himage₂ page' huser',
        himage page' huser']
  · cases hok

/-- A round leaves the image with the page in it. -/
theorem Shows.loadPage (h : k.Shows roots r image m live) (huser : page.User)
    (hgranted : k.PageGranted r.addr m page.addr)
    (hok : k.loadPage file r.addr bias ph prev m page.addr = .ok m') :
    ∃ live', k.Shows roots r (image.addPage file bias ph prev page) m' live' := by
  obtain ⟨pages, hpages, himage⟩ := h
  cases hp : pages page with
  | none => exact hpages.loadPage_first huser hp himage hgranted hok
  | some p => exact hpages.loadPage_again huser hp himage hok

/-! ### The loops -/

/-- What the rounds of the loop over the pages of a segment are granted. -/
def SegmentGranted (k : Machine) (file : ElfFile) (l4 bias : Word) (s : ElfLoadState)
    (ph : ElfPhdr) : Prop :=
  ph.type = ptLoad →
    FoldAlways (k.PageGranted l4) (k.loadPage file l4 bias ph s.prevSegFlags) (ph.pages bias)
      s.memory

instance (k : Machine) (file : ElfFile) (l4 bias : Word) (s : ElfLoadState) (ph : ElfPhdr) :
    Decidable (k.SegmentGranted file l4 bias s ph) :=
  inferInstanceAs (Decidable (_ → FoldAlways _ _ _ _))

/-- What all rounds of `elf_load` are granted. -/
def LoadGranted (k : Machine) (file : ElfFile) (l4 loadBias : Word) (m : Memory) : Prop :=
  FoldAlways (k.SegmentGranted file l4 (file.biasFor loadBias))
    (k.loadHeader file l4 (file.biasFor loadBias)) file.phdrs
    ⟨m, 0, VmFlags.none, ~~~0, 0, none, none⟩

instance (k : Machine) (file : ElfFile) (l4 loadBias : Word) (m : Memory) :
    Decidable (k.LoadGranted file l4 loadBias m) :=
  inferInstanceAs (Decidable (FoldAlways _ _ _ _))

end Machine

namespace Machine

variable {k : Machine} {m m' : Memory} {live : Set Chunk} {roots : Set TableAddr} {r : TableAddr}
  {image : UserImage} {file : ElfFile} {bias loadBias : Word} {ph : ElfPhdr} {prev : VmFlags}
  {s s' : ElfLoadState} {result : ElfLoadResult}

theorem Shows.loadSegment (h : k.Shows roots r image m live)
    (hconfined : ∀ pageVa ∈ ph.pages bias, pageVa.toNat < 2 ^ 47)
    (hgranted : FoldAlways (k.PageGranted r.addr) (k.loadPage file r.addr bias ph prev)
      (ph.pages bias) m)
    (hok : (ph.pages bias).foldlM (k.loadPage file r.addr bias ph prev) m = .ok m') :
    ∃ live', k.Shows roots r (image.addSegment file bias ph prev) m' live' := by
  rw [UserImage.addSegment, ElfPhdr.vpns, List.foldl_map]
  refine hgranted.refines (R := fun m image => ∃ live, k.Shows roots r image m live) ?_ ⟨live, h⟩
    hok
  rintro m image va m' hva ⟨live, h⟩ hpage hround
  obtain ⟨huser, haddr⟩ := ElfPhdr.page_addr hva (hconfined va hva)
  rw [← haddr] at hpage hround
  exact h.loadPage huser hpage hround

/-- A `PT_LOAD` header is none of the others. -/
theorem ptLoad_only (hload : ph.type = ptLoad) :
    ph.type ≠ ptPhdr ∧ ph.type ≠ ptDynamic ∧ ph.type ≠ ptInterp := by
  rw [hload]
  decide

/-- A load that succeeds has gone through all headers. -/
theorem elfLoad_ok {l4 : Word} (hok : k.elfLoad file l4 loadBias m = .ok (result, m')) :
    ∃ s, file.phdrs.foldlM (k.loadHeader file l4 (file.biasFor loadBias))
        ⟨m, 0, VmFlags.none, ~~~0, 0, none, none⟩ = .ok s ∧
      m' = s.memory ∧ result.phdrVaddr = s.phdrVaddr := by
  rw [elfLoad] at hok
  cases hheader : file.checkHeader k.arch with
  | some status =>
      rw [hheader] at hok
      cases hok
  | none =>
      simp only [hheader] at hok
      obtain ⟨s, hloop, hrest⟩ := bind_eq_ok.mp hok
      refine ⟨s, hloop, ?_⟩
      split at hrest
      · cases hrest
      · obtain ⟨_, -, hrest⟩ := bind_eq_ok.mp hrest
        obtain ⟨_, -, hreturn⟩ := bind_eq_ok.mp hrest
        have hout := Except.ok.inj hreturn
        exact ⟨(congrArg Prod.snd hout).symm, (congrArg (fun out => out.1.phdrVaddr) hout).symm⟩

/-- The state of the loop over the headers, and what it has made of the user half. -/
def LoadShows (k : Machine) (roots : Set TableAddr) (r : TableAddr) (s : ElfLoadState)
    (t : UserImage × VmFlags) : Prop :=
  (∃ live, k.Shows roots r t.1 s.memory live) ∧ s.prevSegFlags = t.2

theorem LoadShows.loadHeader {t : UserImage × VmFlags} (h : k.LoadShows roots r s t)
    (hconfined : ph.type = ptLoad → ∀ pageVa ∈ ph.pages bias, pageVa.toNat < 2 ^ 47)
    (hgranted : k.SegmentGranted file r.addr bias s ph)
    (hok : k.loadHeader file r.addr bias s ph = .ok s') :
    k.LoadShows roots r s'
      (if ph.type = ptLoad then UserImage.addLoad file bias t ph else t) := by
  obtain ⟨⟨live, hshows⟩, hprev⟩ := h
  by_cases htype : ph.type = ptLoad
  · obtain ⟨hphdr, hdynamic, hinterp⟩ := ptLoad_only htype
    rw [Machine.loadHeader, if_neg hphdr, if_neg hdynamic, if_neg hinterp,
      if_neg (not_not.mpr htype)] at hok
    rw [if_pos htype]
    split at hok
    · cases hok
    obtain ⟨m₁, hpages, hreturn⟩ := bind_eq_ok.mp hok
    obtain rfl := Except.ok.inj hreturn
    have hsegment := hshows.loadSegment (hconfined htype) (hgranted htype) hpages
    rw [hprev] at hsegment
    exact ⟨hsegment, rfl⟩
  · rw [if_neg htype]
    simp only [Machine.loadHeader, ne_eq, htype, not_false_eq_true, if_true] at hok
    split_ifs at hok <;>
      · obtain rfl := Except.ok.inj hok
        exact ⟨⟨live, hshows⟩, hprev⟩

/-- A load that succeeds makes of an empty user half what the `PT_LOAD` headers say. -/
theorem elfLoad_shows (h : k.LoadedPages roots r (fun _ => none) m live)
    (hconfined : file.Confined (file.biasFor loadBias))
    (hgranted : k.LoadGranted file r.addr loadBias m)
    (hok : k.elfLoad file r.addr loadBias m = .ok (result, m')) :
    ∃ live', k.Shows roots r (UserImage.ofLoads file (file.biasFor loadBias) file.loads).1 m'
      live' := by
  have hstart : k.LoadShows roots r ⟨m, 0, VmFlags.none, ~~~0, 0, none, none⟩
      (fun _ => none, VmFlags.none) :=
    ⟨⟨live, _, h, fun page huser => h.userImage_eq huser⟩, rfl⟩
  obtain ⟨s, hloop, hm', -⟩ := elfLoad_ok hok
  have hshows := hgranted.refines (R := k.LoadShows roots r)
    (fun s t ph s' hph hs hround hstep => hs.loadHeader (fun htype =>
      hconfined ph (List.mem_filter.mpr ⟨hph, by simpa using htype⟩)) hround hstep) hstart hloop
  rw [UserImage.ofLoads, ElfFile.loads, List.foldl_filter, hm']
  simpa only [decide_eq_true_eq] using hshows.1

end Machine

end Utopia
