/-
What the memory system calls do to the address space, the frames and the list of
the calling process, and that they alter nothing of the others.
-/
import Utopia.Exec.MemorySyscalls
import Utopia.Mm.Tenant

namespace Utopia

/-- The pages that a loop from `start` up to `stop` goes through. -/
def pagesOf (start stop : Word) : Set Vpn := { page | ∃ va ∈ pagesBetween start stop, vpn va = page }

theorem mem_pagesBetween_toNat {start stop va : Word} (hva : va ∈ pagesBetween start stop) :
    ∃ i < (stop.toNat - start.toNat) / 4096, va.toNat = start.toNat + 4096 * i := by
  obtain ⟨i, hi, rfl⟩ := List.mem_map.mp hva
  have hlt := List.mem_range.mp hi
  have hstop := stop.isLt
  refine ⟨i, hlt, ?_⟩
  have hmul : (4096 * BitVec.ofNat 64 i : Word).toNat = 4096 * i := by
    rw [BitVec.toNat_mul, BitVec.toNat_ofNat]
    change 4096 * (i % 2 ^ 64) % 2 ^ 64 = 4096 * i
    omega
  rw [toNat_add_of_lt (by omega), hmul]

/-- `brk` moves the break up. -/
def ProcessSpace.BrkGrows (process : ProcessSpace) (requestedBreak : Word) : Prop :=
  requestedBreak ≠ 0 ∧ ¬ (requestedBreak < process.brkStart ∨ userHeapMax ≤ requestedBreak) ∧
    process.brkCurrent < requestedBreak

namespace Machine

variable {k : Machine} {m : Memory} {live mine array : Set Chunk} {roots : Set TableAddr}
  {r : TableAddr} {owned : PageList} {ps : List Word} {addr : Word}

/-! ### Chunks that hold data -/

/-- The bytes of the chunks `data` stay as they are. -/
def KeepsData (m m' : Memory) (data : Set Chunk) : Prop := ∀ d ∈ data, Set.EqOn m' m d.bytes

/-- The chunks `data` overlap no page table and not the array of the list. -/
structure HoldsData (k : Machine) (roots : Set TableAddr) (m : Memory)
    (live array data : Set Chunk) : Prop where
  sub : data ⊆ live
  list : Disjoint data array
  tables : ∀ d ∈ data, ∀ t, k.Reached m roots t → Disjoint d.bytes t.bytes

theorem KeepsData.trans {m' m'' : Memory} {data : Set Chunk} (h : KeepsData m m' data)
    (h' : KeepsData m' m'' data) : KeepsData m m'' data :=
  fun d hd => (h' d hd).trans (h d hd)

theorem KeepsData.mono {m' : Memory} {data data' : Set Chunk} (h : KeepsData m m' data')
    (hsub : data ⊆ data') : KeepsData m m' data :=
  fun d hd => h d (hsub hd)

namespace HoldsData

variable {data : Set Chunk} {m' : Memory} {live' array' : Set Chunk} {c : Chunk}

theorem mono {data' : Set Chunk} (h : k.HoldsData roots m live array data') (hsub : data ⊆ data') :
    k.HoldsData roots m live array data :=
  ⟨hsub.trans h.sub, h.list.mono_left hsub, fun d hd => h.tables d (hsub hd)⟩

/-- The tables are the same as long as their bytes are. -/
theorem of_same (h : k.HoldsData roots m live array data) (hsub : data ⊆ live')
    (hlist : Disjoint data array') (heq : ∀ t, k.Reached m roots t → Set.EqOn m' m t.bytes) :
    k.HoldsData roots m' live' array' data := by
  have hfetch : ∀ t i, k.Reached m roots t → ptEntry m' t i = ptEntry m t i :=
    fun t i ht => congrFun (ptEntry_congr (heq t ht)) i
  refine ⟨hsub, hlist, fun d hd t ht => ?_⟩
  rw [Reached, Radix.reached_congr hfetch] at ht
  exact h.tables d hd t ht

/-- A chunk that was handed out holds data, too. -/
theorem handOut (h : k.HoldsData roots m live array data) (htables : k.PageTables m live roots)
    (harray : array ⊆ live) (hc : c ∉ live) (hlive : k.alloc.Live m' (insert c live))
    (hkept : Set.EqOn m' m (k.alloc.kept live)) :
    k.HoldsData roots m' (insert c live) array (insert c data) ∧ KeepsData m m' data := by
  have hnew : k.HoldsData roots m (insert c live) array (insert c data) := by
    refine ⟨Set.insert_subset_insert h.sub, ?_, ?_⟩
    · rw [Set.disjoint_insert_left]
      exact ⟨fun hmem => hc (harray hmem), h.list⟩
    · rintro d (rfl | hd) t ht
      · exact (Allocator.bytes_disjoint_kept hlive (Set.subset_insert d live)
          (Set.mem_insert d live) hc).mono_right (htables.kept t ht)
      · exact h.tables d hd t ht
  exact ⟨hnew.of_same hnew.sub hnew.list fun t ht => hkept.mono (htables.kept t ht),
    fun d hd => hkept.mono (Allocator.bytes_subset_kept (h.sub hd))⟩

/-- The tables grow around the data. -/
theorem extend {tops : Set (Fin 512)} (h : k.HoldsData roots m live array data)
    (hx : k.Extends tops roots r m live m' live') :
    k.HoldsData roots m' live' array data ∧ KeepsData m m' data := by
  refine ⟨⟨h.sub.trans hx.sub, h.list, ?_⟩, fun d hd x hxd => hx.frame x
    (Allocator.bytes_subset_kept (h.sub hd) hxd) fun t ht hxt =>
      Set.disjoint_left.mp (h.tables d hd t ht) hxd hxt⟩
  rintro d hd t ⟨r', hr', q, hq⟩
  rcases hx.reached r' hr' q t hq with hold | ⟨-, c, hc, hnew, hptr, hsize⟩
  · exact h.tables d hd t ⟨r', hr', q, hold⟩
  · have hne : d ≠ c := by
      rintro rfl
      exact hnew (h.sub hd)
    refine (k.alloc.bytes_disjoint hx.tables.heap (hx.sub (h.sub hd)) hc hne).mono_right ?_
    rw [Chunk.bytes, hptr]
    exact span_subset_span le_rfl (by omega)

/-- The list moves to another array. -/
theorem moves {owned' : PageList} (h : k.HoldsData roots m live array data)
    (hmoves : PageList.Moves k.alloc m live array ps m' owned' array')
    (hkept : ∀ t, k.Reached m roots t → t.bytes ⊆ k.alloc.kept (live \ array)) :
    k.HoldsData roots m' (live \ array ∪ array') array' data ∧ KeepsData m m' data := by
  have hstay : data ⊆ live \ array := fun d hd => ⟨h.sub hd, Set.disjoint_left.mp h.list hd⟩
  have hlist : Disjoint data array' := by
    rcases hmoves.fresh with rfl | hdis
    · exact h.list
    · exact (hdis.mono_right h.sub).symm
  exact ⟨h.of_same (hstay.trans Set.subset_union_left) hlist fun t ht =>
      hmoves.kept.mono (hkept t ht),
    fun d hd => hmoves.kept.mono (Allocator.bytes_subset_kept (hstay hd))⟩

/-- A chunk without data is given back. -/
theorem free (h : k.HoldsData roots m live array data) (htables : k.PageTables m live roots)
    (hc : c ∈ live) (hcdata : c ∉ data)
    (hout : ∀ t, k.Reached m roots t → t.bytes ⊆ k.alloc.kept (live \ {c})) :
    k.HoldsData roots (k.alloc.free m c.ptr) (live \ {c}) array data ∧
      KeepsData m (k.alloc.free m c.ptr) data := by
  have hkept := (k.alloc.free_spec htables.heap hc).2
  have hstay : data ⊆ live \ {c} := fun d hd => ⟨h.sub hd, fun heq => hcdata (heq ▸ hd)⟩
  exact ⟨h.of_same hstay h.list fun t ht => hkept.mono (hout t ht),
    fun d hd => hkept.mono (Allocator.bytes_subset_kept (hstay hd))⟩

end HoldsData

/-! ### Growing the heap -/

/-- Read and write for the user. -/
def userWritable : VmFlags := ⟨true, true, false, false⟩

/-- A page of the heap was mapped to a zeroed frame of its own, or the call failed; either
way the chunks `data` keep their bytes. -/
def GrowsPage (k : Machine) (roots : Set TableAddr) (r : TableAddr) (addr : Word) (m : Memory)
    (live data : Set Chunk) (status : Int) (m' : Memory) (live' array' : Set Chunk) : Prop :=
  KeepsData m m' data ∧
    (status = 0 ∧ (∃ c ∉ live, k.HoldsData roots m' live' array' (insert c data) ∧
        4096 ≤ c.size ∧ (∀ x ∈ span c.ptr 4096, m' x = 0) ∧
        k.spaceOf m' r.addr = Function.update (k.spaceOf m r.addr) (vpn addr)
          (some ⟨k.hhdmVirtToPhys c.ptr, userWritable⟩)) ∨
      status ≠ 0 ∧ k.HoldsData roots m' live' array' data ∧
        ∀ page ≠ vpn addr, k.spaceOf m' r.addr page = k.spaceOf m r.addr page)

theorem growPage_run (h : k.PageTables m live roots) (hr : r ∈ roots)
    (ht : k.Tenant roots r m live owned ps array mine) (huser : (vpn addr).User) :
    ∃ live' ps' array' mine',
      k.Serves userTops {vpn addr} roots r m live ps mine
        (k.growPage r.addr addr (m, owned)).2.1 live' (k.growPage r.addr addr (m, owned)).2.2
        ps' array' mine' ∧
      k.MapsNew r m live mine (k.growPage r.addr addr (m, owned)).2.1 live' ps' mine' ∧
      ((k.growPage r.addr addr (m, owned)).1 = 0 → live' \ mine' ⊆ live \ mine) ∧
      ∀ data, k.HoldsData roots m live array data →
        k.GrowsPage roots r addr m live data (k.growPage r.addr addr (m, owned)).1
          (k.growPage r.addr addr (m, owned)).2.1 live' array' := by
  rw [growPage]
  rcases ptPoolAlloc_spec h.heap with
    hnull | ⟨u, c, m₁, halloc, hptr, hne, hsize, hnew, hheap, hkept, hzeroed⟩
  · simp only [hnull, if_true]
    exact ⟨live, ps, array, mine, Serves.refl ht h, MapsNew.of_eq rfl, fun _ => subset_rfl,
      fun data hdata => ⟨fun _ _ => Set.eqOn_refl _ _, Or.inr ⟨by decide, hdata, fun _ _ => rfl⟩⟩⟩
  simp only [halloc, if_neg hne]
  have hcustody := Custody.first userTops {vpn addr} ht h hr hnew hheap
    hkept
  have hspace₁ : k.spaceOf m₁ r.addr = k.spaceOf m r.addr :=
    PageTables.spaceOf_congr hr fun t ht => hkept.mono (h.kept t ht)
  have hdata₁ := fun data (hdata : k.HoldsData roots m live array data) =>
    hdata.handOut h (ht.holding.array_sub.trans ht.sub) hnew hheap hkept
  obtain ⟨live₂, hx, hanswers⟩ := hcustody.alters.tables.mapPage4k_spec hr
    (show ptIndex addr ptTopLevel ∈ userTops from user_vpn.mp huser)
    (k.hhdmVirtToPhys u.addr) userWritable
  rw [pageMapping_pteLeaf (isFrame_hhdmVirtToPhys hheap (Set.mem_insert c live) hptr hsize)]
    at hanswers
  simp only [show (⟨true, true, false, false⟩ : VmFlags) = userWritable from rfl]
  generalize k.mapPage4k m₁ r.addr addr (k.hhdmVirtToPhys u.addr) userWritable = res
    at hx hanswers ⊢
  obtain ⟨status, m₂⟩ := res
  have hcustody₂ := hcustody.extend hr hx
    (fun page hpage => hanswers.own hr (fun page hpage => Function.update_of_ne hpage _ _) hpage)
    (fun r' hr' hne page hpage => hanswers.others hr' hne hpage)
  have hdata₂ := fun data (hdata : k.HoldsData roots m live array data) =>
    (hdata₁ data hdata).1.extend hx
  dsimp only at hcustody₂ hdata₂ ⊢
  rcases hanswers with ⟨hzero, hspace, -⟩ | ⟨hfail, hsame⟩
  · obtain rfl : status = 0 := hzero
    rw [if_neg (by decide)]
    rw [hspace₁] at hspace
    have hspace₂ : k.spaceOf m₂ r.addr = _ := hspace
    -- whoever has the new frame in the end, the page is mapped to it
    have hmaps : ∀ live' ps' mine', c ∈ live' → (c ∈ mine' → c.ptr ∈ ps') → ∀ m',
        k.spaceOf m' r.addr = k.spaceOf m₂ r.addr →
        k.MapsNew r m live mine m' live' ps' mine' := by
      intro live' ps' mine' hc hrecorded m' hm' page x' hx'
      rw [hm', hspace₂] at hx'
      by_cases hpage : page = vpn addr
      · subst hpage
        rw [Function.update_self, Option.some.injEq] at hx'
        subst hx'
        refine Or.inr ⟨c, hc, fun hmem => hnew hmem.1, hrecorded, 0, by omega, ?_⟩
        simp [hptr]
      · rw [Function.update_of_ne hpage] at hx'
        exact Or.inl ⟨x', hx', rfl⟩
    have htenant := hcustody₂.tenant
    rcases PageList.pageListAdd_spec hcustody₂.alters.tables.heap htenant.holding.list
      (htenant.holding.array_sub.trans htenant.sub) (htenant.length_le hcustody₂.alters.tables)
      u.addr with hfull | ⟨m₃, owned', array', hadd, hmoves⟩
    · simp only [hfull]
      rw [if_pos (show (-1 : Int) ≠ 0 by decide)]
      refine ⟨live₂, ps, array, _, hcustody₂.leave,
        hmaps _ _ _ (hcustody₂.data_sub rfl)
          (fun hmem => absurd hmem (Set.disjoint_left.mp hcustody₂.apart rfl)) m₂ rfl, by simp,
        fun data hdata => ?_⟩
      obtain ⟨hholds, hkeeps⟩ := hdata₂ data hdata
      refine ⟨(hdata₁ data hdata).2.trans (hkeeps.mono (Set.subset_insert c data)),
        Or.inr ⟨by simp, hholds.mono (Set.subset_insert c data), fun page hpage => ?_⟩⟩
      rw [hspace₂, Function.update_of_ne hpage]
    · simp only [hadd]
      rw [if_neg (show ¬ (0 : Int) ≠ 0 by decide)]
      rw [← hptr] at hmoves
      obtain ⟨hcustody₃, hspace₃⟩ := hcustody₂.record hr rfl hsize hmoves
      have hcarray : c ∉ array := fun hmem => Set.disjoint_left.mp hcustody₂.apart rfl
        (htenant.holding.array_sub hmem)
      rw [Set.sdiff_self] at hcustody₃
      refine ⟨_, _, array', _, hcustody₃.leave, hmaps _ _ _
        (hcustody₃.tenant.sub (Or.inl ⟨Set.mem_insert c _, hcarray⟩)) (fun _ => by simp) m₃
        hspace₃, fun _ => ?_, fun data hdata => ?_⟩
      · simpa using hcustody₃.tidy rfl
      · obtain ⟨hholds, hkeeps⟩ := hdata₂ data hdata
        obtain ⟨hholds₃, hkeeps₃⟩ := hholds.moves hmoves fun t ht =>
          htenant.holding.tables_kept htenant.sub htenant.other ht
        have hall := hkeeps.trans hkeeps₃
        refine ⟨(hdata₁ data hdata).2.trans (hall.mono (Set.subset_insert c data)),
          Or.inl ⟨rfl, c, hnew, hholds₃, hsize, fun x hx => ?_, ?_⟩⟩
        · have hbytes : x ∈ c.bytes := span_subset_span le_rfl (by omega) hx
          rw [hptr] at hx
          exact (hall c (Set.mem_insert c data) hbytes).trans (hzeroed x hx)
        · rw [hspace₃, hspace₂, hptr]
  · obtain rfl : status = -1 := hfail
    rw [if_pos (by decide), ← hptr]
    obtain ⟨hcustody₃, hspace₃⟩ := hcustody₂.giveBack hr rfl
    refine ⟨_, ps, array, _, hcustody₃.leave, MapsNew.of_eq ?_, by simp, fun data hdata => ?_⟩
    · rw [hspace₃, ← hspace₁]
      exact hsame r hr
    · obtain ⟨hholds, hkeeps⟩ := hdata₂ data hdata
      have hcdata : c ∉ data := fun hmem => hnew (hdata.sub hmem)
      obtain ⟨hholds₃, hkeeps₃⟩ := (hholds.mono (Set.subset_insert c data)).free
        hcustody₂.alters.tables (hcustody₂.data_sub rfl) hcdata hcustody₂.outside
      refine ⟨((hdata₁ data hdata).2.trans (hkeeps.mono (Set.subset_insert c data))).trans hkeeps₃,
        Or.inr ⟨by simp, hholds₃, fun page _ => ?_⟩⟩
      rw [hspace₃, hsame r hr, hspace₁]

theorem growPage_spec (h : k.PageTables m live roots) (hr : r ∈ roots)
    (ht : k.Tenant roots r m live owned ps array mine) (huser : (vpn addr).User) :
    k.ServesNew userTops {vpn addr} roots r m live ps mine
      ((k.growPage r.addr addr (m, owned)).1 = 0)
      (k.growPage r.addr addr (m, owned)).2.1 (k.growPage r.addr addr (m, owned)).2.2 := by
  obtain ⟨live', ps', array', mine', hserves, hmaps, hclean, -⟩ := growPage_run h hr ht huser
  exact ⟨live', ps', array', mine', hserves, hmaps, hclean⟩

/-- The pages of a break below the limit are user pages. -/
theorem user_of_mem_brk {process : ProcessSpace} {newBreak va : Word}
    (hlimit : newBreak < userHeapMax)
    (hva : va ∈ pagesBetween (pageAlignUp process.brkCurrent) (pageAlignUp newBreak)) :
    (vpn va).User := by
  obtain ⟨i, hi, hnat⟩ := mem_pagesBetween_toNat hva
  have hbound : newBreak.toNat < 2 ^ 47 := hlimit
  have hend := pageAlignUp_toNat newBreak
  rw [user_vpn]
  exact not_kernelIndex_of_lt (by omega)

theorem growProcessBrk_spec (h : k.PageTables m live roots) (hr : r ∈ roots)
    {process : ProcessSpace} (htable : process.pageTable = r.addr)
    (ht : k.Tenant roots r m live process.ownedPages ps array mine) {newBreak : Word}
    (hlimit : newBreak < userHeapMax) :
    k.ServesNew userTops (pagesOf (pageAlignUp process.brkCurrent) (pageAlignUp newBreak)) roots r
      m live ps mine ((k.growProcessBrk m process newBreak).1 = 0)
      (k.growProcessBrk m process newBreak).2.1
      (k.growProcessBrk m process newBreak).2.2.ownedPages := by
  have hloop := forEach_rule (k.growPage process.pageTable)
    (pagesBetween (pageAlignUp process.brkCurrent) (pageAlignUp newBreak))
    (fun _ s => k.ServesNew userTops
      (pagesOf (pageAlignUp process.brkCurrent) (pageAlignUp newBreak)) roots r m live ps mine
      True s.1 s.2)
    (fun s => k.ServesNew userTops
      (pagesOf (pageAlignUp process.brkCurrent) (pageAlignUp newBreak)) roots r m live ps mine
      False s.1 s.2)
    (s := (m, process.ownedPages)) (ServesNew.refl ht h) ?_
  · rw [growProcessBrk]
    rcases hloop with ⟨hzero, hinv⟩ | ⟨hne, hfail⟩
    · exact hinv.mono subset_rfl fun _ => trivial
    · exact hfail.mono subset_rfl fun hzero => absurd hzero hne
  · rintro done va rest ⟨m₁, owned₁⟩ hsplit hinv
    have hva : va ∈ pagesBetween (pageAlignUp process.brkCurrent) (pageAlignUp newBreak) := by
      simp [hsplit]
    have hround := hinv.trans fun live₁ ps₁ array₁ mine₁ h₁ ht₁ =>
      (growPage_spec h₁ hr ht₁ (user_of_mem_brk hlimit hva)).mono
        (Set.singleton_subset_iff.mpr ⟨va, hva, rfl⟩) id
    rw [← htable] at hround
    by_cases hzero : (k.growPage process.pageTable va (m₁, owned₁)).1 = 0
    · exact Or.inl ⟨hzero, hround.mono subset_rfl fun _ => ⟨trivial, hzero⟩⟩
    · exact Or.inr ⟨hzero, hround.mono subset_rfl False.elim⟩

/-- The pages that `brk` is about to map. -/
def brkPages (process : ProcessSpace) (requestedBreak : Word) : Set Vpn :=
  { page | process.BrkGrows requestedBreak ∧
    page ∈ pagesOf (pageAlignUp process.brkCurrent) (pageAlignUp requestedBreak) }

theorem user_of_mem_brkPages {process : ProcessSpace} {requestedBreak : Word} {page : Vpn}
    (h : page ∈ brkPages process requestedBreak) : page.User := by
  obtain ⟨⟨-, hrange, -⟩, va, hva, rfl⟩ := h
  rw [not_or] at hrange
  exact user_of_mem_brk (BitVec.not_le.mp hrange.2) hva

/-- `brk` maps at most new frames at `brkPages`, and changes nothing of the process but
its list and its break. -/
theorem syscallBrk_spec (h : k.PageTables m live roots) (hr : r ∈ roots)
    {process : ProcessSpace} (htable : process.pageTable = r.addr)
    (ht : k.Tenant roots r m live process.ownedPages ps array mine) (requestedBreak : Word) :
    k.ServesNew userTops (brkPages process requestedBreak) roots r m live ps mine
        (process.BrkGrows requestedBreak → (k.growProcessBrk m process requestedBreak).1 = 0)
        (k.syscallBrk m process requestedBreak).2.1
        (k.syscallBrk m process requestedBreak).2.2.ownedPages ∧
      ∃ brkCurrent ownedPages, (k.syscallBrk m process requestedBreak).2.2 =
        { process with brkCurrent := brkCurrent, ownedPages := ownedPages } := by
  rw [syscallBrk]
  by_cases hzero : requestedBreak = 0
  · rw [if_pos hzero]
    exact ⟨ServesNew.refl ht h, _, _, rfl⟩
  rw [if_neg hzero]
  by_cases hrange : requestedBreak < process.brkStart ∨ userHeapMax ≤ requestedBreak
  · rw [if_pos hrange]
    exact ⟨ServesNew.refl ht h, _, _, rfl⟩
  rw [if_neg hrange]
  have hlimit : requestedBreak < userHeapMax := by
    rw [not_or] at hrange
    exact BitVec.not_le.mp hrange.2
  by_cases hgrow : process.brkCurrent < requestedBreak
  · simp only [if_pos hgrow]
    have hspec := growProcessBrk_spec h hr htable ht hlimit
    have hpages : pagesOf (pageAlignUp process.brkCurrent) (pageAlignUp requestedBreak) ⊆
        brkPages process requestedBreak := fun page hpage => ⟨⟨hzero, hrange, hgrow⟩, hpage⟩
    have hclean := hspec.mono hpages fun hgood : process.BrkGrows requestedBreak → _ =>
      hgood ⟨hzero, hrange, hgrow⟩
    split_ifs
    · exact ⟨hclean, _, _, rfl⟩
    · exact ⟨hclean, _, _, rfl⟩
  · simp only [if_neg hgrow, ne_eq, not_true_eq_false, if_false]
    exact ⟨ServesNew.refl ht h, _, _, rfl⟩

/-! ### Changing and dropping mappings -/

/-- A call that changes or drops mappings of `pages` and makes no new ones. -/
def Adjusts (k : Machine) (tops : Set (Fin 512)) (pages : Set Vpn) (roots : Set TableAddr)
    (r : TableAddr) (m : Memory) (live : Set Chunk) (ps : List Word) (mine : Set Chunk)
    (m' : Memory) (owned : PageList) : Prop :=
  k.ServesNew tops pages roots r m live ps mine (tops = userTops) m' owned ∧ k.MapsOld r m m'

theorem Adjusts.refl {tops : Set (Fin 512)} {pages : Set Vpn}
    (ht : k.Tenant roots r m live owned ps array mine) (h : k.PageTables m live roots) :
    k.Adjusts tops pages roots r m live ps mine m owned :=
  ⟨ServesNew.refl ht h, MapsOld.of_eq rfl⟩

theorem Adjusts.mono {tops : Set (Fin 512)} {pages pages' : Set Vpn} {m' : Memory}
    (h : k.Adjusts tops pages roots r m live ps mine m' owned) (hsub : pages ⊆ pages') :
    k.Adjusts tops pages' roots r m live ps mine m' owned :=
  ⟨h.1.mono hsub id, h.2⟩

/-- A loop whose rounds change single pages of the range. -/
theorem pagesLoop_spec {tops : Set (Fin 512)} {start stop : Word}
    (op : Word → Memory → Int × Memory) (h : k.PageTables m live roots)
    (ht : k.Tenant roots r m live owned ps array mine)
    (hop : ∀ va ∈ pagesBetween start stop, ∀ m live ps array mine, k.PageTables m live roots →
      k.Tenant roots r m live owned ps array mine →
      k.Adjusts tops {vpn va} roots r m live ps mine (op va m).2 owned) :
    k.Adjusts tops (pagesOf start stop) roots r m live ps mine
      (forEach op (pagesBetween start stop) m).2 owned := by
  refine forEach_invariant (fun m' => k.Adjusts tops (pagesOf start stop) roots r m live ps mine
    m' owned) (Adjusts.refl ht h) fun va hva m' hinv => ?_
  have hpage : ({vpn va} : Set Vpn) ⊆ pagesOf start stop :=
    Set.singleton_subset_iff.mpr ⟨va, hva, rfl⟩
  obtain ⟨live', ps', array', mine', hserves, -⟩ := hinv.1
  have hround := hop va hva m' live' ps' array' mine' hserves.alters.tables hserves.tenant
  refine ⟨(hinv.1.trans fun live' ps' array' mine' h' ht' =>
    ((hop va hva m' live' ps' array' mine' h' ht').mono hpage).1).mono subset_rfl fun heq =>
      ⟨heq, heq⟩, hinv.2.trans hround.2⟩

theorem protectPage_spec {tops : Set (Fin 512)} {va : Word} (h : k.PageTables m live roots)
    (hr : r ∈ roots) (ht : k.Tenant roots r m live owned ps array mine)
    (htop : ptIndex va ptTopLevel ∈ tops) (flags : VmFlags) :
    k.Adjusts tops {vpn va} roots r m live ps mine (k.protectPage4k m r.addr va flags).2
      owned := by
  obtain ⟨live', hx, hanswers, -⟩ := h.protectPage4k_spec hr htop flags
  refine ht.servesNew h hr hx hanswers (fun page hpage => Function.update_of_ne hpage _ _)
    fun x' hx' => ?_
  rw [AddressSpace.protect, Function.update_self] at hx'
  obtain ⟨x, hx, rfl⟩ := Option.map_eq_some_iff.mp hx'
  exact ⟨x, hx, rfl⟩

theorem unmapPage_spec {tops : Set (Fin 512)} {va : Word} (h : k.PageTables m live roots)
    (hr : r ∈ roots) (ht : k.Tenant roots r m live owned ps array mine)
    (htop : ptIndex va ptTopLevel ∈ tops) :
    k.Adjusts tops {vpn va} roots r m live ps mine (k.unmapPage4k m r.addr va).2 owned := by
  obtain ⟨live', hx, hanswers⟩ := h.unmapPage4k_spec hr htop
  refine ht.servesNew h hr hx hanswers (fun page hpage => Function.update_of_ne hpage _ _)
    fun x' hx' => ?_
  rw [AddressSpace.unmap, Function.update_self] at hx'
  cases hx'

/-- The pages that `mprotect` and `munmap` are about to change. -/
def rangePages (addr length : Word) : Set Vpn :=
  { page | length ≠ 0 ∧ addr &&& 0xFFF = 0 ∧ page ∈ pagesOf addr (addr + pageAlignUp length) }

theorem top_of_mem_range {tops : Set (Fin 512)} {addr length va : Word} (hlength : length ≠ 0)
    (haligned : addr &&& 0xFFF = 0) (hva : va ∈ pagesBetween addr (addr + pageAlignUp length))
    (htops : ∀ page ∈ rangePages addr length, ptIndex page.addr ptTopLevel ∈ tops) :
    ptIndex va ptTopLevel ∈ tops := by
  rw [← ptIndex_top_congr (vpn_addr (vpn va))]
  exact htops _ ⟨hlength, haligned, va, hva, rfl⟩

/-- `mprotect` and `munmap` map no new frame and touch only the pages of their range. -/
theorem syscallMprotect_spec {tops : Set (Fin 512)} {process : ProcessSpace} {addr length : Word}
    (h : k.PageTables m live roots) (hr : r ∈ roots) (htable : process.pageTable = r.addr)
    (ht : k.Tenant roots r m live owned ps array mine)
    (htops : ∀ page ∈ rangePages addr length, ptIndex page.addr ptTopLevel ∈ tops)
    (prot : Word) :
    k.Adjusts tops (rangePages addr length) roots r m live ps mine
      (k.syscallMprotect m process addr length prot).2 owned := by
  rw [syscallMprotect]
  by_cases hlength : length = 0
  · rw [if_pos hlength]
    exact Adjusts.refl ht h
  rw [if_neg hlength]
  by_cases haligned : addr &&& 0xFFF = 0
  · rw [if_neg (not_not.mpr haligned), htable]
    have hloop := pagesLoop_spec (fun va m => k.protectPage4k m r.addr va
      ⟨hasBits prot 0x2, true, hasBits prot 0x4, false⟩) h ht
      fun va hva _ _ _ _ _ h' ht' =>
        protectPage_spec h' hr ht' (top_of_mem_range hlength haligned hva htops) _
    have hrange := hloop.mono fun page hpage =>
      show page ∈ rangePages addr length from ⟨hlength, haligned, hpage⟩
    dsimp only
    split_ifs
    · exact hrange
    · exact hrange
  · rw [if_pos haligned]
    exact Adjusts.refl ht h

theorem syscallMunmap_spec {tops : Set (Fin 512)} {process : ProcessSpace} {addr length : Word}
    (h : k.PageTables m live roots) (hr : r ∈ roots) (htable : process.pageTable = r.addr)
    (ht : k.Tenant roots r m live owned ps array mine)
    (htops : ∀ page ∈ rangePages addr length, ptIndex page.addr ptTopLevel ∈ tops) :
    k.Adjusts tops (rangePages addr length) roots r m live ps mine
      (k.syscallMunmap m process addr length).2 owned := by
  rw [syscallMunmap]
  by_cases hlength : length = 0
  · rw [if_pos hlength]
    exact Adjusts.refl ht h
  rw [if_neg hlength]
  by_cases haligned : addr &&& 0xFFF = 0
  · rw [if_neg (not_not.mpr haligned), htable]
    have hloop := pagesLoop_spec (fun va m => k.unmapPage4k m r.addr va) h ht
      fun va hva _ _ _ _ _ h' ht' =>
        unmapPage_spec h' hr ht' (top_of_mem_range hlength haligned hva htops)
    have hrange := hloop.mono fun page hpage =>
      show page ∈ rangePages addr length from ⟨hlength, haligned, hpage⟩
    dsimp only
    split_ifs
    · exact hrange
    · exact hrange
  · rw [if_pos haligned]
    exact Adjusts.refl ht h

end Machine

/-- A process of the sample machine, with nothing mapped yet. -/
def sampleProcess : ProcessSpace where
  pageTable := sampleTable.addr
  brkStart := 0x600000
  brkCurrent := 0x600000
  mmapCurrent := 0x400000000000
  mmap_aligned := by decide
  ownedPages := PageList.empty
  fds := fun _ => none

end Utopia
