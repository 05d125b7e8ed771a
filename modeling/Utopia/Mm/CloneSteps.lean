/-
The steps of `clone_user_level`: copying one page and linking one table, and
what they keep of the clone made so far.
-/
import Utopia.Mm.ClonePaths

namespace Utopia

namespace Machine

/-- The page is mapped to a copy of its frame in `s`, at the kernel address
`frame` and with the same permissions. -/
def IsCopy (k : Machine) (s n : TableAddr) (m₀ : Memory) (skip : Vpn → Prop) (m : Memory)
    (page : Vpn) (frame : Word) : Prop :=
  page.User ∧ ¬ skip page ∧ ∃ old, k.spaceOf m₀ s.addr page = some old ∧
    k.spaceOf m n.addr page = some ⟨k.hhdmVirtToPhys frame, old.flags⟩ ∧
    ∀ i < 4096, m (frame + BitVec.ofNat 64 i) = m₀ (k.physToVirt old.phys + BitVec.ofNat 64 i)

/-- A partial clone `n` of the address space `s`, which is as it was in `m₀`:
`copies` lists the pages mapped so far and their frames. -/
structure Cloning (k : Machine) (roots : Set TableAddr) (s n : TableAddr) (m₀ : Memory)
    (live₀ : Set Chunk) (skip : Vpn → Prop) (m : Memory) (live : Set Chunk)
    (owned : PageList) (copies : List (Vpn × Word)) (array : Set Chunk) : Prop where
  tables : k.PageTables m live (insert n roots)
  sub : live₀ ⊆ live
  kept : Set.EqOn m m₀ (k.alloc.kept live₀)
  holding : k.Holding m n owned (copies.map Prod.snd) array (live \ live₀)
  other : k.OtherTablesOutside m live (insert n roots) n (live \ live₀)
  pages : (copies.map Prod.fst).Nodup
  copied : ∀ x ∈ copies, k.IsCopy s n m₀ skip m x.1 x.2
  unmapped : ∀ page : Vpn, page.User → page ∉ copies.map Prod.fst →
    k.spaceOf m n.addr page = none

/-- The source of a clone: its tables, and frames that stay as they are while
new memory is handed out. -/
structure CloneSource (k : Machine) (roots : Set TableAddr) (s : TableAddr) (m₀ : Memory)
    (live₀ : Set Chunk) : Prop where
  tables : k.PageTables m₀ live₀ roots
  source : s ∈ roots
  frames : ∀ page : Vpn, page.User → ∀ old, k.spaceOf m₀ s.addr page = some old →
    ∀ i < 4096, k.physToVirt old.phys + BitVec.ofNat 64 i ∈ k.alloc.kept live₀

/-- Below `n` the memory `m'` has the tables of `m`, with the same entries but
for those that `changed` names. -/
def KeepsEntries (k : Machine) (n : TableAddr) (m m' : Memory)
    (changed : List (Fin 512) → Fin 512 → Prop) : Prop :=
  ∀ q t, k.tableAt m ptTopLevel n q = some t → k.tableAt m' ptTopLevel n q = some t ∧
    ∀ j, ¬ changed q j → ptEntry m' t j = ptEntry m t j

variable {k : Machine} {m₀ m m' m₁ : Memory} {live₀ live live' array : Set Chunk}
  {roots : Set TableAddr} {s n t u tn ts : TableAddr} {owned owned' : PageList}
  {copies : List (Vpn × Word)} {skip : Vpn → Prop} {page : Vpn} {frame va : Word}
  {p : List (Fin 512)} {i : Fin 512} {level : Nat} {c : Chunk}

theorem KeepsEntries.refl (m : Memory) : k.KeepsEntries n m m fun _ _ => False :=
  fun _ _ hq => ⟨hq, fun _ _ => rfl⟩

theorem KeepsEntries.trans {m'' : Memory} {changed changed' : List (Fin 512) → Fin 512 → Prop}
    (h : k.KeepsEntries n m m' changed) (h' : k.KeepsEntries n m' m'' changed') :
    k.KeepsEntries n m m'' fun q j => changed q j ∨ changed' q j := by
  intro q t hq
  obtain ⟨hq', hsame⟩ := h q t hq
  obtain ⟨hq'', hsame'⟩ := h' q t hq'
  refine ⟨hq'', fun j hj => ?_⟩
  rw [hsame' j fun hc => hj (Or.inr hc), hsame j fun hc => hj (Or.inl hc)]

theorem KeepsEntries.mono {changed changed' : List (Fin 512) → Fin 512 → Prop}
    (h : k.KeepsEntries n m m' changed) (hsub : ∀ q j, changed q j → changed' q j) :
    k.KeepsEntries n m m' changed' := by
  intro q t hq
  obtain ⟨hq', hsame⟩ := h q t hq
  exact ⟨hq', fun j hj => hsame j fun hc => hj (hsub q j hc)⟩

namespace CloneSource

/-- An entry of the source reads as before. -/
theorem entry_eq (h : k.CloneSource roots s m₀ live₀)
    (hkept : Set.EqOn m m₀ (k.alloc.kept live₀))
    (hts : k.tableAt m₀ ptTopLevel s p = some ts) (i : Fin 512) :
    m.read64 (entryAddr ts.addr i) = ptEntry m₀ ts i :=
  congrFun (ptEntry_congr (hkept.mono (h.tables.kept ts ⟨s, h.source, p, hts⟩))) i

end CloneSource

namespace Cloning

theorem rest_eq (h : k.Cloning roots s n m₀ live₀ skip m live owned copies array) :
    live \ (live \ live₀) = live₀ := by
  rw [Set.sdiff_sdiff_right_self, Set.inter_eq_right.mpr h.sub]

theorem mine_sub (_h : k.Cloning roots s n m₀ live₀ skip m live owned copies array) :
    live \ live₀ ⊆ live :=
  Set.sdiff_subset

/-- The frame of a copy is a live chunk that no table and no array shares. -/
theorem frame_chunk (h : k.Cloning roots s n m₀ live₀ skip m live owned copies array)
    {x : Vpn × Word} (hx : x ∈ copies) :
    ∃ d ∈ live \ live₀, d.ptr = x.2 ∧ 4096 ≤ d.size ∧ d ∉ array ∧
      ∀ t ∈ k.userTables m n, d.ptr ≠ t.addr := by
  have hmem : x.2 ∈ copies.map Prod.snd := List.mem_map_of_mem hx
  obtain ⟨d, hd, hptr, hsize⟩ := h.holding.frames x.2 hmem
  refine ⟨d, hd, hptr, hsize, fun hda => h.holding.array_frame d hda (hptr ▸ hmem), ?_⟩
  exact h.holding.ne_table_of_frame (hptr ▸ hmem)

/-- Copies stay copies while their frames and their mappings stay. -/
theorem isCopy_congr {x : Vpn × Word} (hx : k.IsCopy s n m₀ skip m x.1 x.2) {d : Chunk}
    (hlive : k.alloc.Live m live) (hd : d ∈ live) (hptr : d.ptr = x.2) (hsize : 4096 ≤ d.size)
    (hbytes : Set.EqOn m' m d.bytes)
    (hspace : k.spaceOf m' n.addr x.1 = k.spaceOf m n.addr x.1) :
    k.IsCopy s n m₀ skip m' x.1 x.2 := by
  obtain ⟨huser, hskip, old, hold, hnew, hcontent⟩ := hx
  refine ⟨huser, hskip, old, hold, hspace.trans hnew, fun i hi => ?_⟩
  rw [← hcontent i hi]
  apply hbytes
  have hfit := k.alloc.bytes_fit hlive hd
  rw [hptr] at hfit
  have hnat : (BitVec.ofNat 64 i).toNat = i := by
    rw [BitVec.toNat_ofNat, Nat.mod_eq_of_lt (by omega)]
  rw [Chunk.bytes, hptr, mem_span, toNat_add_of_lt (by omega), hnat]
  omega

/-- Nothing is lost when only free memory changes. -/
theorem congr (h : k.Cloning roots s n m₀ live₀ skip m live owned copies array)
    (hlive : k.alloc.Live m' live) (heq : Set.EqOn m' m (k.alloc.kept live)) :
    k.Cloning roots s n m₀ live₀ skip m' live owned copies array := by
  have htables : ∀ t, k.Reached m (insert n roots) t → Set.EqOn m' m t.bytes :=
    fun t ht => heq.mono (h.tables.kept t ht)
  have hn : n ∈ insert n roots := Set.mem_insert n roots
  have hspace : ∀ page, k.spaceOf m' n.addr page = k.spaceOf m n.addr page :=
    fun page => PageTables.translate_congr hn htables page.addr
  have hfetch : ∀ t i, k.Reached m (insert n roots) t → ptEntry m' t i = ptEntry m t i :=
    fun t i ht => congrFun (ptEntry_congr (htables t ht)) i
  refine ⟨h.tables.congr hlive subset_rfl htables, h.sub, ?_, ?_, ?_, h.pages, ?_, ?_⟩
  · exact (heq.mono (Allocator.kept_mono h.sub)).trans h.kept
  · refine h.holding.congr hn h.tables.heap h.mine_sub htables fun d hd => ?_
    exact heq.mono (Allocator.bytes_subset_kept (h.mine_sub (h.holding.array_sub hd)))
  · intro t ht hout
    rw [Reached, Radix.reached_congr hfetch] at ht
    rw [userTables_congr hn htables] at hout
    exact h.other t ht hout
  · intro x hx
    obtain ⟨d, hd, hptr, hsize, -⟩ := h.frame_chunk hx
    exact isCopy_congr (h.copied x hx) h.tables.heap hd.1 hptr hsize
      (heq.mono (Allocator.bytes_subset_kept hd.1)) (hspace x.1)
  · intro page huser hout
    rw [hspace]
    exact h.unmapped page huser hout

theorem head_user (hprivate : ∀ j ∈ (p ++ [i]).head?, ¬ KernelIndex j) :
    ∀ j ∈ p.head?, ¬ KernelIndex j := by
  intro j hj
  cases p with
  | nil => cases hj
  | cons a p => exact hprivate j hj

/-- Only the entry of `tn` is written, and `tn` lies outside what the source
relies on. -/
theorem write_kept (h : k.Cloning roots s n m₀ live₀ skip m live owned copies array)
    (htn : tn ∈ k.userTables m n) (i : Fin 512) (e : Word) :
    Set.EqOn (m₁.write64 (entryAddr tn.addr i) e) m₁ (k.alloc.kept live₀) := by
  obtain ⟨d, hd, hptr, hsize⟩ := h.holding.tables tn htn
  have haddr := entryAddr_toNat tn i
  have hfits := tn.fits
  have hi := i.isLt
  refine (Memory.write64_eqOn m₁ e (by omega)).mono ?_
  intro x hx hspan
  have hrest := Allocator.bytes_disjoint_kept_diff h.tables.heap hd.1 hd
  rw [h.rest_eq] at hrest
  refine Set.disjoint_left.mp hrest ?_ hx
  rw [Chunk.bytes, hptr]
  exact span_subset_span le_rfl (by omega) (entry_subset tn i hspan)

/-- Linking a new table. -/
theorem addTable (h : k.Cloning roots s n m₀ live₀ skip m live owned copies array)
    (htn : k.tableAt m ptTopLevel n p = some tn) (hlevel : ptTopLevel - p.length = level + 1)
    (hprivate : ∀ j ∈ (p ++ [i]).head?, ¬ KernelIndex j)
    (habsent : k.arch.ptePresent (ptEntry m tn i) = false)
    (hptr : c.ptr = u.addr) (hsize : 4096 ≤ c.size) (hnew : c ∉ live)
    (hheap : k.alloc.Live m₁ (insert c live)) (hkept : Set.EqOn m₁ m (k.alloc.kept live))
    (hzero : ∀ x ∈ u.bytes, m₁ x = 0)
    (hm' : m' = m₁.write64 (entryAddr tn.addr i) (k.arch.pteTable (k.hhdmVirtToPhys u.addr))) :
    k.Cloning roots s n m₀ live₀ skip m' (insert c live) owned copies array ∧
      k.tableAt m' ptTopLevel n (p ++ [i]) = some u ∧
      (∀ j, k.arch.ptePresent (ptEntry m' u j) = false) ∧
      k.KeepsEntries n m m' fun q j => q = p ∧ j = i := by
  have hn : n ∈ insert n roots := Set.mem_insert n roots
  obtain ⟨hgrows, hlast⟩ := h.tables.createTable hn htn hlevel
    (show ∀ j ∈ (p ++ [i]).head?, j ∈ userTops from hprivate) habsent hptr hsize hnew hheap hkept hzero
  rw [← hm'] at hgrows hlast
  have hreached : k.Reached m (insert n roots) tn := ⟨n, hn, p, htn⟩
  have htnUser : tn ∈ k.userTables m n := ⟨p, head_user hprivate, htn⟩
  have hmine : live \ live₀ ∪ insert c live \ live = insert c live \ live₀ := by
    ext d
    simp only [Set.mem_union, Set.mem_sdiff, Set.mem_insert_iff]
    constructor
    · rintro (⟨hd, hd₀⟩ | ⟨rfl | hd, hd₀⟩)
      · exact ⟨Or.inr hd, hd₀⟩
      · exact ⟨Or.inl rfl, fun hmem => hnew (h.sub hmem)⟩
      · exact absurd hd hd₀
    · rintro ⟨rfl | hd, hd₀⟩
      · exact Or.inr ⟨Or.inl rfl, hnew⟩
      · exact Or.inl ⟨hd, hd₀⟩
  obtain ⟨hholding, hother⟩ := h.holding.extend hgrows.toExtends hn h.tables.heap h.mine_sub
    h.other
  rw [Holding.newTables_eq hgrows.toExtends h.tables.kept, hmine] at hholding hother
  have hut : u ≠ tn := by
    rintro rfl
    obtain ⟨d, hd, hdptr, -⟩ := h.holding.tables u htnUser
    have hcd := k.alloc.ptr_injOn hheap (Set.mem_insert_of_mem c hd.1) (Set.mem_insert c live)
      (hdptr.trans hptr.symm)
    exact hnew (hcd ▸ hd.1)
  refine ⟨⟨hgrows.tables, h.sub.trans hgrows.sub, ?_, hholding, hother, h.pages, ?_, ?_⟩, hlast,
    ?_, ?_⟩
  · rw [hm']
    exact (h.write_kept htnUser i _).trans
      ((hkept.mono (Allocator.kept_mono h.sub)).trans h.kept)
  · intro x hx
    obtain ⟨d, hd, hdptr, hdsize, -, hdtable⟩ := h.frame_chunk hx
    exact isCopy_congr (h.copied x hx) h.tables.heap hd.1 hdptr hdsize
      (h.holding.extends_frame hgrows.toExtends h.tables.heap h.mine_sub h.other hd hdtable)
      (congrFun (hgrows.same.spaceOf_eq hn) x.1)
  · intro page huser hout
    rw [hgrows.same.spaceOf_eq hn]
    exact h.unmapped page huser hout
  · intro j
    rw [hm', ptEntry_write64, Radix.setEntry, if_neg fun heq => hut heq.1,
      ptEntry_eq_zero hzero]
    exact Arch.ptePresent_zero
  · intro q t hq
    refine ⟨hgrows.keeps n hn q t hq, fun j hj => ?_⟩
    have hold : ptEntry m₁ t j = ptEntry m t j :=
      congrFun (ptEntry_congr (hkept.mono (h.tables.kept t ⟨n, hn, q, hq⟩))) j
    rw [hm', ptEntry_write64, Radix.setEntry, if_neg, hold]
    rintro ⟨rfl, rfl⟩
    exact hj ⟨(h.tables.separated n hn n hn q p t hq htn).1, rfl⟩

/-- The entry that maps the copy. -/
theorem pageMapping_pteWithPhys {e phys : Word} (hpresent : k.arch.ptePresent e = true)
    (hphys : k.arch.IsFrame phys) :
    k.pageMapping (k.arch.pteWithPhys e phys) = some ⟨phys, k.arch.pteFlags e⟩ := by
  rw [pageMapping, Arch.ptePresent_pteWithPhys, if_pos hpresent, Arch.ptePhys_pteWithPhys hphys,
    Arch.pteFlags_pteWithPhys]

end Cloning

/-! ### Copying one page -/

/-- A partial clone that has one frame more on its list, in the chunk `d`, and has not
mapped it: `m` and `live` are the memory and the chunks before. -/
structure Recorded (k : Machine) (roots : Set TableAddr) (n : TableAddr) (live₀ : Set Chunk)
    (m : Memory) (live array : Set Chunk) (frames : List Word) (d : Chunk) (m₂ : Memory)
    (live₂ : Set Chunk) (owned : PageList) (array' : Set Chunk) : Prop where
  tables : k.PageTables m₂ live₂ (insert n roots)
  sub : live₀ ⊆ live₂
  holding : k.Holding m₂ n owned frames array' (live₂ \ live₀)
  other : k.OtherTablesOutside m₂ live₂ (insert n roots) n (live₂ \ live₀)
  frame : d ∈ live₂ \ live₀ ∧ d.ptr ∈ frames ∧ 4096 ≤ d.size
  same : ∀ t, k.Reached m (insert n roots) t → Set.EqOn m₂ m t.bytes
  kept : Set.EqOn m₂ m (k.alloc.kept live₀)
  old : ∀ e ∈ live, e ∉ array → e ∈ live₂ ∧ e ≠ d ∧ Set.EqOn m₂ m e.bytes

/-- The frame joins the list. -/
theorem Cloning.recordFrame {m₂ : Memory} {array' : Set Chunk}
    (h : k.Cloning roots s n m₀ live₀ skip m live owned copies array) (hsize : 4096 ≤ c.size)
    (hnew : c ∉ live) (hheap : k.alloc.Live m₁ (insert c live))
    (hkept : Set.EqOn m₁ m (k.alloc.kept live))
    (hmoves : PageList.Moves k.alloc m₁ (insert c live) array (copies.map Prod.snd ++ [c.ptr]) m₂
      owned' array') :
    ∃ live₂ d, d.ptr = c.ptr ∧
      k.Recorded roots n live₀ m live array (copies.map Prod.snd ++ [c.ptr]) d m₂ live₂ owned'
        array' := by
  have hn : n ∈ insert n roots := Set.mem_insert n roots
  obtain ⟨htables₁, hholding₁, hother₁⟩ := h.holding.handOut h.tables hn h.mine_sub h.other hnew
    hheap hkept
  have hcmine : c ∉ live \ live₀ := fun hmem => hnew hmem.1
  obtain ⟨htables₂, hholding₂, hother₂, hmoved, -⟩ := hholding₁.record htables₁ hn
    (h.mine_sub.trans (Set.subset_insert c live)) hother₁ (Set.mem_insert c live) hcmine hsize
    hmoves
  have hkept₂ : Set.EqOn m₂ m (k.alloc.kept (live \ array)) :=
    (hmoved.mono (Allocator.kept_mono (Set.sdiff_subset_sdiff_left
      (Set.subset_insert c live)))).trans (hkept.mono (Allocator.kept_diff_subset _))
  generalize hlive₂ : insert c live \ array ∪ array' = live₂ at *
  have hrest := Holding.record_rest h.holding.array_sub hcmine hmoves.fresh
  rw [hlive₂, Holding.handOut_rest hnew, h.rest_eq] at hrest
  have hmine : insert c (live \ live₀) \ array ∪ array' = live₂ \ live₀ := by
    have hsub : insert c (live \ live₀) \ array ∪ array' ⊆ live₂ := by
      rw [← hlive₂]
      exact Set.union_subset_union_left _
        (Set.sdiff_subset_sdiff_left (Set.insert_subset_insert Set.sdiff_subset))
    rw [← Set.sdiff_sdiff_cancel_left hsub, hrest]
  rw [hmine] at hholding₂ hother₂
  obtain ⟨d, hd, hdptr, hdsize⟩ := hholding₂.frames c.ptr (by simp)
  refine ⟨live₂, d, hdptr, htables₂, hrest ▸ Set.sdiff_subset, hholding₂, hother₂,
    ⟨hd, by simp [hdptr], hdsize⟩, fun t ht => ?_, ?_, fun e he hea => ⟨?_, ?_, ?_⟩⟩
  · exact hkept₂.mono (h.holding.tables_kept h.mine_sub h.other ht)
  · exact hkept₂.mono (Allocator.kept_mono fun e he => show e ∈ live \ array from
      ⟨h.sub he, fun hea => (h.holding.array_sub hea).2 he⟩)
  · rw [← hlive₂]
    exact Or.inl ⟨Or.inr he, hea⟩
  · rintro rfl
    have hec := k.alloc.ptr_injOn hheap (Or.inr he) (Or.inl rfl) hdptr
    exact hnew (hec ▸ he)
  · exact hkept₂.mono (Allocator.bytes_subset_kept (show e ∈ live \ array from ⟨he, hea⟩))

namespace Recorded

variable {m₂ m₃ : Memory} {live₂ array' : Set Chunk} {frames : List Word} {d : Chunk} {e : Word}

theorem mine_sub (_h : k.Recorded roots n live₀ m live array frames d m₂ live₂ owned' array') :
    live₂ \ live₀ ⊆ live₂ :=
  Set.sdiff_subset

/-- What is written to the frame changes nothing else. -/
theorem fill (h : k.Recorded roots n live₀ m live array frames d m₂ live₂ owned' array')
    (heq : Set.EqOn m₃ m₂ d.bytesᶜ) :
    k.Recorded roots n live₀ m live array frames d m₃ live₂ owned' array' := by
  have hn : n ∈ insert n roots := Set.mem_insert n roots
  obtain ⟨hd, hdframe, hdsize⟩ := h.frame
  have hchunk : ∀ e ∈ live₂, e ≠ d → Set.EqOn m₃ m₂ e.bytes := fun e he hne =>
    heq.mono fun x hx hxd => Set.disjoint_left.mp
      (k.alloc.bytes_disjoint h.tables.heap he hd.1 hne) hx hxd
  have htable : ∀ t, k.Reached m₂ (insert n roots) t → Set.EqOn m₃ m₂ t.bytes := fun t ht =>
    heq.mono fun x hx hxd => Set.disjoint_left.mp (h.holding.disjoint_reached h.tables.heap
      h.mine_sub h.other hd (h.holding.ne_table_of_frame hdframe) ht) hx hxd
  have hheap : k.alloc.Live m₃ live₂ :=
    h.tables.heap.of_eqOn_compl (Allocator.bytes_subset_kept hd.1) heq
  have hfetch : ∀ t i, k.Reached m₂ (insert n roots) t → ptEntry m₃ t i = ptEntry m₂ t i :=
    fun t i ht => congrFun (ptEntry_congr (htable t ht)) i
  have hfetch₂ : ∀ t i, k.Reached m (insert n roots) t → ptEntry m₂ t i = ptEntry m t i :=
    fun t i ht => congrFun (ptEntry_congr (h.same t ht)) i
  refine ⟨h.tables.congr hheap subset_rfl htable, h.sub, ?_, ?_, h.frame, fun t ht => ?_, ?_,
    fun e he hea => ?_⟩
  · refine h.holding.congr hn h.tables.heap h.mine_sub htable fun e he => ?_
    refine hchunk e (h.holding.array_sub he).1 ?_
    rintro rfl
    exact h.holding.array_frame e he hdframe
  · intro t ht hout
    rw [Reached, Radix.reached_congr hfetch] at ht
    rw [userTables_congr hn htable] at hout
    exact h.other t ht hout
  · refine (htable t ?_).trans (h.same t ht)
    rwa [Reached, Radix.reached_congr hfetch₂]
  · have houtside : k.alloc.kept live₀ ⊆ d.bytesᶜ := by
      intro x hx hxd
      have hdis := Allocator.bytes_disjoint_kept_diff h.tables.heap hd.1 hd
      rw [Set.sdiff_sdiff_right_self, Set.inter_eq_right.mpr h.sub] at hdis
      exact Set.disjoint_left.mp hdis hxd hx
    exact (heq.mono houtside).trans h.kept
  · obtain ⟨he₂, hne, hbytes⟩ := h.old e he hea
    exact ⟨he₂, hne, (hchunk e he₂ hne).trans hbytes⟩

/-- The tables are those of the memory before. -/
theorem fetch_eq (h : k.Recorded roots n live₀ m live array frames d m₃ live₂ owned' array')
    (ht : k.Reached m (insert n roots) t) (j : Fin 512) : ptEntry m₃ t j = ptEntry m t j :=
  congrFun (ptEntry_congr (h.same t ht)) j

theorem tableAt_eq (h : k.Recorded roots n live₀ m live array frames d m₃ live₂ owned' array')
    (q : List (Fin 512)) : k.tableAt m₃ ptTopLevel n q = k.tableAt m ptTopLevel n q := by
  rw [tableAt, Radix.tableAt_congr_reached (fun t j ht => h.fetch_eq ht j) (Set.mem_insert n roots)]

/-- The entry for `va` is written. -/
theorem store (h : k.Recorded roots n live₀ m live array frames d m₃ live₂ owned' array')
    (htn : k.tableAt m ptTopLevel n p = some tn) (hpath : ptPath va ptTopLevel = p ++ [i])
    (hindex : ptIndex va 0 = i) (hm' : m' = m₃.write64 (entryAddr tn.addr i) e) :
    k.Extends userTops (insert n roots) n m₃ live₂ m' live₂ ∧
      k.Holding m' n owned' frames array' (live₂ \ live₀) ∧
      k.OtherTablesOutside m' live₂ (insert n roots) n (live₂ \ live₀) ∧
      k.spaceOf m' n.addr =
        Function.update (k.spaceOf m n.addr) (vpn va) (k.pageMapping e) ∧
      k.KeepsEntries n m m' fun q j => q = p ∧ j = i := by
  subst hindex
  have hn : n ∈ insert n roots := Set.mem_insert n roots
  have htn₃ : k.tableAt m₃ ptTopLevel n p = some tn := (h.tableAt_eq p).trans htn
  have hspace : k.spaceOf m₃ n.addr = k.spaceOf m n.addr := funext fun page =>
    PageTables.translate_congr hn h.same page.addr
  obtain ⟨hextends, hself, -⟩ := h.tables.storeLeaf userTops hn htn₃ hpath e
  rw [← hm', hspace] at hself
  rw [← hm'] at hextends
  obtain ⟨hholding, hother⟩ := h.holding.extend hextends hn h.tables.heap h.mine_sub h.other
  rw [newTables_self, Set.union_empty] at hholding hother
  refine ⟨hextends, hholding, hother, hself, fun q t hq => ?_⟩
  refine ⟨hextends.keeps n hn q t ((h.tableAt_eq q).trans hq), fun j hj => ?_⟩
  rw [hm', ptEntry_write64, Radix.setEntry, if_neg, h.fetch_eq ⟨n, hn, q, hq⟩]
  rintro ⟨rfl, rfl⟩
  exact hj ⟨(h.tables.separated n hn n hn q p t ((h.tableAt_eq q).trans hq) htn₃).1, rfl⟩

end Recorded

namespace Cloning

/-- No copy is of a page that is not mapped. -/
theorem page_notMem (h : k.Cloning roots s n m₀ live₀ skip m live owned copies array)
    (hnone : k.spaceOf m n.addr page = none) : page ∉ copies.map Prod.fst := by
  intro hmem
  obtain ⟨x, hx, rfl⟩ := List.mem_map.mp hmem
  obtain ⟨-, -, old, -, hmapped, -⟩ := h.copied x hx
  rw [hnone] at hmapped
  cases hmapped

/-- Mapping a recorded copy of the source page at `va`. -/
theorem mapPage {m₂ m₃ : Memory} {ps : List Word}
    (hsource : k.CloneSource roots s m₀ live₀)
    (h : k.Cloning roots s n m₀ live₀ skip m live owned copies array)
    (htn : k.tableAt m ptTopLevel n p = some tn)
    (hprivate : ∀ j ∈ (p ++ [i]).head?, ¬ KernelIndex j)
    (habsent : k.arch.ptePresent (ptEntry m tn i) = false)
    (hts : k.tableAt m₀ ptTopLevel s p = some ts)
    (hpresent : k.arch.ptePresent (ptEntry m₀ ts i) = true)
    (hva : ptPath va ptTopLevel = p ++ [i]) (hindex : ptIndex va 0 = i)
    (huser : (vpn va).User) (hskip : ¬ skip (vpn va))
    (hps : ps = copies.map Prod.snd ++ [c.ptr]) (hptr : c.ptr = u.addr) (hsize : 4096 ≤ c.size)
    (hnew : c ∉ live) (hheap : k.alloc.Live m₁ (insert c live))
    (hkept : Set.EqOn m₁ m (k.alloc.kept live))
    {array' : Set Chunk}
    (hmoves : PageList.Moves k.alloc m₁ (insert c live) array ps m₂ owned' array')
    (hm₃ : m₃ = m₂.copy u.addr (k.physToVirt (k.arch.ptePhys (ptEntry m₀ ts i))) 4096)
    (hm' : m' = m₃.write64 (entryAddr tn.addr i)
      (k.arch.pteWithPhys (ptEntry m₀ ts i) (k.hhdmVirtToPhys u.addr))) :
    ∃ live', k.Cloning roots s n m₀ live₀ skip m' live' owned'
        (copies ++ [(vpn va, u.addr)]) array' ∧
      k.KeepsEntries n m m' fun q j => q = p ∧ j = i := by
  subst hps
  obtain ⟨live₂, d, hdptr, hrecorded⟩ := h.recordFrame hsize hnew hheap hkept hmoves
  obtain ⟨hd, hdframe, hdsize⟩ := hrecorded.frame
  have hubytes : span u.addr 4096 ⊆ d.bytes := by
    rw [Chunk.bytes, hdptr, hptr]
    exact span_subset_span le_rfl (by omega)
  have hcopy : Set.EqOn m₃ m₂ d.bytesᶜ := by
    rw [hm₃]
    exact (Memory.copy_eqOn _ _ u.fits).mono (Set.compl_subset_compl.mpr hubytes)
  have hfilled := hrecorded.fill hcopy
  obtain ⟨hextends, hholding, hother, hspace, hkeeps⟩ := hfilled.store htn hva hindex hm'
  have hframe : k.arch.IsFrame (k.hhdmVirtToPhys u.addr) :=
    isFrame_hhdmVirtToPhys hheap (Set.mem_insert c live) hptr hsize
  rw [pageMapping_pteWithPhys hpresent hframe] at hspace
  -- a chunk that a frame on the list lies in
  have hstays : ∀ e ∈ live₂ \ live₀, e.ptr ∈ copies.map Prod.snd ++ [c.ptr] →
      Set.EqOn m' m₃ e.bytes := fun e he heframe =>
    hfilled.holding.extends_frame hextends hfilled.tables.heap hfilled.mine_sub hfilled.other he
      (hfilled.holding.ne_table_of_frame heframe)
  have hpath : ptPath va ptTopLevel = p ++ [ptIndex va 0] := by rw [hva, hindex]
  have hnone : k.spaceOf m n.addr (vpn va) = none := by
    rw [spaceOf_eq_pageMapping htn hpath, hindex, pageMapping, habsent]
    rfl
  have hread : k.spaceOf m₀ s.addr (vpn va) = some ⟨k.arch.ptePhys (ptEntry m₀ ts i),
      k.arch.pteFlags (ptEntry m₀ ts i)⟩ := by
    rw [spaceOf_eq_pageMapping hts hpath, hindex, pageMapping, if_pos hpresent]
  have hfreshPage := h.page_notMem hnone
  have htnUser : tn ∈ k.userTables m n := ⟨p, head_user hprivate, htn⟩
  refine ⟨live₂, ⟨hextends.tables, hfilled.sub, ?_, ?_, hother, ?_, ?_, ?_⟩, hkeeps⟩
  · rw [hm']
    exact (h.write_kept htnUser i _).trans (hfilled.kept.trans h.kept)
  · rw [List.map_append, List.map_cons, List.map_nil, ← hptr]
    exact hholding
  · rw [List.map_append, List.map_cons, List.map_nil, List.nodup_append]
    refine ⟨h.pages, List.nodup_singleton _, fun a ha b hb hab => hfreshPage ?_⟩
    rwa [← show b = vpn va from List.mem_singleton.mp hb, ← hab]
  · intro x hx
    rcases List.mem_append.mp hx with hx | hx
    · obtain ⟨e, he, heptr, hesize, hea, -⟩ := h.frame_chunk hx
      obtain ⟨he₂, -, hbytes⟩ := hfilled.old e he.1 hea
      have hne : x.1 ≠ vpn va := fun heq => hfreshPage (heq ▸ List.mem_map_of_mem hx)
      have heframe : e.ptr ∈ copies.map Prod.snd ++ [c.ptr] := by
        rw [heptr]
        exact List.mem_append_left _ (List.mem_map_of_mem hx)
      refine isCopy_congr (h.copied x hx) h.tables.heap he.1 heptr hesize
        ((hstays e ⟨he₂, he.2⟩ heframe).trans hbytes) ?_
      rw [hspace, Function.update_of_ne hne]
    · obtain rfl := List.mem_singleton.mp hx
      refine ⟨huser, hskip, _, hread, ?_, fun j hj => ?_⟩
      · rw [hspace, Function.update_self]
      · have hnat : (BitVec.ofNat 64 j).toNat = j := by
          rw [BitVec.toNat_ofNat, Nat.mod_eq_of_lt (by omega)]
        have hfits := u.fits
        have hmem : u.addr + BitVec.ofNat 64 j ∈ d.bytes := by
          apply hubytes
          rw [mem_span, toNat_add_of_lt (by omega), hnat]
          omega
        have hsub : u.addr + BitVec.ofNat 64 j - u.addr = BitVec.ofNat 64 j := by
          rw [BitVec.add_comm, BitVec.add_sub_cancel]
        have hin := hsource.frames (vpn va) huser _ hread j hj
        change m' (u.addr + BitVec.ofNat 64 j) = _
        rw [hstays d hd hdframe hmem, hm₃, Memory.copy, hsub, hnat, if_pos hj, ← h.kept hin]
        exact hrecorded.kept hin
  · intro page hpage hout
    rw [List.map_append, List.mem_append, not_or] at hout
    have hne : page ≠ vpn va := fun heq => hout.2 (by simp [heq])
    rw [hspace, Function.update_of_ne hne]
    exact h.unmapped page hpage hout.1

end Cloning

end Machine

end Utopia
