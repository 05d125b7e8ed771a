/-
Processes as tenants of the kernel's memory: what a call on behalf of one of them
may alter, and that the others keep what is theirs.
-/
import Utopia.Mm.FreshSpace
import Utopia.Mm.PageRefine

namespace Utopia

namespace Machine

/-- The process with the page table `n` holds the live chunks `mine`; all other page
tables lie elsewhere. -/
structure Tenant (k : Machine) (roots : Set TableAddr) (n : TableAddr) (m : Memory)
    (live : Set Chunk) (owned : PageList) (ps : List Word) (array mine : Set Chunk) : Prop where
  holding : k.Holding m n owned ps array mine
  sub : mine ⊆ live
  other : k.OtherTablesOutside m live roots n mine

/-- A call for the process with the page table `r`, which had the chunks `mine` at its
disposal before and has `mine'` afterwards.  It maps nothing but `pages` anew, and its
new page tables are below the top-level entries `tops`. -/
structure Alters (k : Machine) (tops : Set (Fin 512)) (pages : Set Vpn) (roots : Set TableAddr)
    (r : TableAddr) (m : Memory) (live mine : Set Chunk) (m' : Memory)
    (live' mine' : Set Chunk) : Prop where
  tables : k.PageTables m' live' roots
  sub : mine' ⊆ live'
  rest : live \ mine ⊆ live' \ mine'
  fresh : ∀ c ∈ mine', c ∈ mine ∨ c ∉ live
  keeps : ∀ r' ∈ roots, ∀ q t, k.tableAt m ptTopLevel r' q = some t →
    k.tableAt m' ptTopLevel r' q = some t
  reached : ∀ r' ∈ roots, ∀ q t, k.tableAt m' ptTopLevel r' q = some t →
    k.tableAt m ptTopLevel r' q = some t ∨
      (∃ j ∈ q.head?, j ∈ tops ∧ (r' = r ∨ KernelIndex j)) ∧
        Disjoint t.bytes (k.alloc.kept (live \ mine))
  frame : ∀ x ∈ k.alloc.kept (live \ mine), (∀ t, k.Reached m roots t → x ∉ t.bytes) →
    m' x = m x
  own : ∀ page ∉ pages, k.spaceOf m' r.addr page = k.spaceOf m r.addr page
  others : ∀ r' ∈ roots, r' ≠ r → ∀ page, page.User ∨ page ∉ pages →
    k.spaceOf m' r'.addr page = k.spaceOf m r'.addr page

variable {k : Machine} {m m' m'' : Memory} {live live' live'' mine mine' mine'' : Set Chunk}
  {array array' : Set Chunk} {tops : Set (Fin 512)} {pages pages' : Set Vpn}
  {roots : Set TableAddr} {n r t : TableAddr} {owned owned' : PageList} {ps : List Word}
  {c : Chunk} {virt : Word} {next : AddressSpace} {status : Int}

namespace Alters

theorem refl (h : k.PageTables m live roots) (hsub : mine ⊆ live) :
    k.Alters tops pages roots r m live mine m live mine :=
  ⟨h, hsub, subset_rfl, fun _ hc => Or.inl hc, fun _ _ _ _ hq => hq,
    fun _ _ _ _ hq => Or.inl hq, fun _ _ _ => rfl, fun _ _ => rfl, fun _ _ _ _ _ => rfl⟩

theorem trans (h : k.Alters tops pages roots r m live mine m' live' mine')
    (h' : k.Alters tops pages roots r m' live' mine' m'' live'' mine'') :
    k.Alters tops pages roots r m live mine m'' live'' mine'' := by
  have hkept : k.alloc.kept (live \ mine) ⊆ k.alloc.kept ( live' \ mine') :=
    Allocator.kept_mono h.rest
  refine ⟨h'.tables, h'.sub, h.rest.trans h'.rest, ?_, ?_, ?_, ?_, ?_, ?_⟩
  · intro c hc
    rcases h'.fresh c hc with hmid | hmid
    · exact h.fresh c hmid
    · by_cases hold : c ∈ live
      · by_contra hcon
        exact hmid (h.rest ⟨hold, fun hmem => hcon (Or.inl hmem)⟩).1
      · exact Or.inr hold
  · exact fun r' hr' q t hq => h'.keeps r' hr' q t (h.keeps r' hr' q t hq)
  · intro r' hr' q t hq
    rcases h'.reached r' hr' q t hq with hq | ⟨hvia, hdis⟩
    · exact h.reached r' hr' q t hq
    · exact Or.inr ⟨hvia, hdis.mono_right hkept⟩
  · intro x hx hout
    rw [h'.frame x (hkept hx), h.frame x hx hout]
    rintro t ⟨r', hr', q, hq⟩ hxt
    rcases h.reached r' hr' q t hq with hold | ⟨-, hdis⟩
    · exact hout t ⟨r', hr', q, hold⟩ hxt
    · exact Set.disjoint_left.mp hdis hxt hx
  · exact fun page hpage => (h'.own page hpage).trans (h.own page hpage)
  · exact fun r' hr' hne page hpage =>
      (h'.others r' hr' hne page hpage).trans (h.others r' hr' hne page hpage)

theorem mono_pages (h : k.Alters tops pages roots r m live mine m' live' mine')
    (hsub : pages ⊆ pages') : k.Alters tops pages' roots r m live mine m' live' mine' :=
  { h with
    own := fun page hpage => h.own page fun hmem => hpage (hsub hmem)
    others := fun r' hr' hne page hpage => h.others r' hr' hne page
      (hpage.imp_right fun hout hmem => hout (hsub hmem)) }

/-- Chunks that the call leaves to nobody, or to others. -/
theorem release (h : k.Alters tops pages roots r m live mine m' live' mine')
    (hsub : mine'' ⊆ mine') : k.Alters tops pages roots r m live mine m' live' mine'' :=
  { h with
    sub := hsub.trans h.sub
    rest := h.rest.trans (Set.sdiff_subset_sdiff_right hsub)
    fresh := fun c hc => h.fresh c (hsub hc) }

/-- More chunks are at the disposal of the call, which does not touch them. -/
theorem carry (h : k.Alters tops pages roots r m live mine m' live' mine')
    (hsub : mine'' ⊆ live \ mine) :
    k.Alters tops pages roots r m live (mine'' ∪ mine) m' live' (mine'' ∪ mine') :=
  { h with
    sub := Set.union_subset (fun c hc => (h.rest (hsub hc)).1) h.sub
    rest := by
      rintro c ⟨hc, hout⟩
      rw [Set.mem_union, not_or] at hout
      have hstay := h.rest ⟨hc, hout.2⟩
      exact ⟨hstay.1, fun hmem => hmem.elim hout.1 hstay.2⟩
    fresh := by
      rintro c (hc | hc)
      · exact Or.inl (Or.inl hc)
      · exact (h.fresh c hc).imp_left Or.inr
    reached := fun r' hr' q t hq => (h.reached r' hr' q t hq).imp_right fun hnew =>
      ⟨hnew.1, hnew.2.mono_right
        (Allocator.kept_mono (Set.sdiff_subset_sdiff_right Set.subset_union_right))⟩
    frame := fun x hx => h.frame x
      (Allocator.kept_mono (Set.sdiff_subset_sdiff_right Set.subset_union_right) hx) }

/-- A call that leaves all tables as they are. -/
theorem of_same_tables (h : k.PageTables m live roots) (hr : r ∈ roots)
    (hlive : k.alloc.Live m' live')
    (hkept : ∀ t, k.Reached m roots t → t.bytes ⊆ k.alloc.kept live')
    (heq : ∀ t, k.Reached m roots t → Set.EqOn m' m t.bytes) (hsub : mine' ⊆ live')
    (hrest : live \ mine ⊆ live' \ mine') (hfresh : ∀ c ∈ mine', c ∈ mine ∨ c ∉ live)
    (hframe : Set.EqOn m' m (k.alloc.kept (live \ mine))) :
    k.Alters tops pages roots r m live mine m' live' mine' := by
  have hfetch : ∀ t i, k.Reached m roots t → ptEntry m' t i = ptEntry m t i :=
    fun t i ht => congrFun (ptEntry_congr (heq t ht)) i
  refine ⟨h.transport hlive hkept heq, hsub, hrest, hfresh, ?_, ?_, fun x hx _ => hframe hx,
    fun page _ => PageTables.translate_congr hr heq page.addr,
    fun r' hr' _ page _ => PageTables.translate_congr hr' heq page.addr⟩
  · intro r' hr' q t hq
    rwa [tableAt, Radix.tableAt_congr_reached hfetch hr']
  · intro r' hr' q t hq
    rw [tableAt, Radix.tableAt_congr_reached hfetch hr'] at hq
    exact Or.inl hq

/-- A chunk is handed out and filled. -/
theorem handOut (h : k.PageTables m live roots) (hr : r ∈ roots) (hsub : mine ⊆ live)
    (hc : c ∉ live) (hlive : k.alloc.Live m' (insert c live))
    (hkept : Set.EqOn m' m (k.alloc.kept live)) :
    k.Alters tops pages roots r m live mine m' (insert c live) (insert c mine) := by
  refine of_same_tables h hr hlive (fun t ht => ?_) (fun t ht => hkept.mono (h.kept t ht))
    (Set.insert_subset_insert hsub) (Holding.handOut_rest hc).ge ?_
    (hkept.mono (Allocator.kept_diff_subset mine))
  · exact (h.kept t ht).trans (Allocator.kept_mono (Set.subset_insert c live))
  · rintro d (rfl | hd)
    · exact Or.inr hc
    · exact Or.inl hd

/-- A chunk at the disposal of the call is given back. -/
theorem free (tops : Set (Fin 512)) (pages : Set Vpn) (h : k.PageTables m live roots)
    (hr : r ∈ roots) (hsub : mine ⊆ live) (hc : c ∈ mine)
    (hout : ∀ t, k.Reached m roots t → t.bytes ⊆ k.alloc.kept (live \ {c})) :
    k.Alters tops pages roots r m live mine (k.alloc.free m c.ptr) (live \ {c})
      (mine \ {c}) := by
  obtain ⟨hlive, hkept⟩ := k.alloc.free_spec h.heap (hsub hc)
  refine of_same_tables h hr hlive hout (fun t ht => hkept.mono (hout t ht))
    (Set.sdiff_subset_sdiff_left hsub) ?_ (fun d hd => Or.inl hd.1)
    (hkept.mono (Allocator.kept_mono (Set.sdiff_subset_sdiff_right
      (Set.singleton_subset_iff.mpr hc))))
  rintro d ⟨hd, hdmine⟩
  refine ⟨⟨hd, ?_⟩, fun hmem => hdmine hmem.1⟩
  rintro rfl
  exact hdmine hc

/-- The tables grow below `r`. -/
theorem of_extends (n : TableAddr) (hx : k.Extends tops roots r m live m' live')
    (hsub : mine ⊆ live)
    (hown : ∀ page ∉ pages, k.spaceOf m' r.addr page = k.spaceOf m r.addr page)
    (hothers : ∀ r' ∈ roots, r' ≠ r → ∀ page, page.User ∨ page ∉ pages →
      k.spaceOf m' r'.addr page = k.spaceOf m r'.addr page) :
    k.Alters tops pages roots r m live mine m' live' (mine ∪ k.newTables m' n live live') := by
  refine ⟨hx.tables, ?_, ?_, ?_, hx.keeps, ?_, ?_, hown, hothers⟩
  · rintro c (hc | hc)
    · exact hx.sub (hsub hc)
    · exact hc.1
  · rintro c ⟨hc, hcmine⟩
    refine ⟨hx.sub hc, ?_⟩
    rintro (hmem | hmem)
    · exact hcmine hmem
    · exact hmem.2.1 hc
  · rintro c (hc | hc)
    · exact Or.inl hc
    · exact Or.inr hc.2.1
  · intro r' hr' q t hq
    rcases hx.reached r' hr' q t hq with hq | ⟨hvia, c, hc, hnew, hptr, hsize⟩
    · exact Or.inl hq
    · refine Or.inr ⟨hvia, ?_⟩
      refine Set.disjoint_of_subset ?_ (Allocator.kept_diff_subset mine)
        (Allocator.bytes_disjoint_kept hx.tables.heap hx.sub hc hnew)
      rw [Chunk.bytes, hptr]
      exact span_subset_span le_rfl (by omega)
  · exact fun x hx' hout => hx.frame x (Allocator.kept_diff_subset mine hx') hout

end Alters

theorem PageTables.spaceOf_congr (hr : r ∈ roots)
    (heq : ∀ t, k.Reached m roots t → Set.EqOn m' m t.bytes) :
    k.spaceOf m' r.addr = k.spaceOf m r.addr :=
  funext fun page => PageTables.translate_congr hr heq page.addr

/-- New tables lie in new chunks. -/
theorem Extends.tables_outside {gone : Set Chunk} (hx : k.Extends tops roots r m live m' live')
    (hsub : gone ⊆ live)
    (hout : ∀ t, k.Reached m roots t → t.bytes ⊆ k.alloc.kept (live \ gone))
    (ht : k.Reached m' roots t) : t.bytes ⊆ k.alloc.kept ( live' \ gone) := by
  obtain ⟨r', hr', q, hq⟩ := ht
  rcases hx.reached r' hr' q t hq with hq | ⟨-, c, hc, hnew, hptr, hsize⟩
  · exact (hout t ⟨r', hr', q, hq⟩).trans
      (Allocator.kept_mono (Set.sdiff_subset_sdiff_left hx.sub))
  · have hcgone : c ∉ gone := fun hmem => hnew (hsub hmem)
    refine Set.Subset.trans ?_
      (Allocator.bytes_subset_kept (show c ∈ live' \ gone from ⟨hc, hcgone⟩))
    rw [Chunk.bytes, hptr]
    exact span_subset_span le_rfl (by omega)

/-! ### The effect of one page operation -/

theorem Answers.own {m' : Memory} (h : k.Answers roots r virt m (status, m') next)
    (hr : r ∈ roots)
    (hnext : ∀ page, page ≠ vpn virt → next page = k.spaceOf m r.addr page)
    {page : Vpn} (hpage : page ∉ ({vpn virt} : Set Vpn)) :
    k.spaceOf m' r.addr page = k.spaceOf m r.addr page := by
  rcases h with ⟨-, hspace, -⟩ | ⟨-, hsame⟩
  · rw [show k.spaceOf m' r.addr = next from hspace]
    exact hnext page hpage
  · exact congrFun (hsame r hr) page

theorem Answers.others {m' : Memory} (h : k.Answers roots r virt m (status, m') next)
    {r' : TableAddr} (hr' : r' ∈ roots) (hne : r' ≠ r) {page : Vpn}
    (hpage : page.User ∨ page ∉ ({vpn virt} : Set Vpn)) :
    k.spaceOf m' r'.addr page = k.spaceOf m r'.addr page := by
  rcases h with ⟨-, -, hothers⟩ | ⟨-, hsame⟩
  · refine hothers r' hr' hne page fun hkernel => ?_
    rintro rfl
    rcases hpage with huser | hout
    · exact user_vpn.mp huser hkernel
    · exact hout rfl
  · exact congrFun (hsame r' hr') page

/-! ### Tenants -/

namespace Tenant

/-- A tenant only depends on its tables and its list. -/
theorem congr (h : k.Tenant roots n m live owned ps array mine)
    (htables : k.PageTables m live roots) (hn : n ∈ roots)
    (heq : ∀ t, k.Reached m roots t → Set.EqOn m' m t.bytes)
    (harray : ∀ c ∈ array, Set.EqOn m' m c.bytes) (hsub : mine ⊆ live')
    (hother : ∀ t, k.Reached m roots t → t ∉ k.userTables m n →
      t.bytes ⊆ k.alloc.kept ( live' \ mine)) :
    k.Tenant roots n m' live' owned ps array mine := by
  have hfetch : ∀ t i, k.Reached m roots t → ptEntry m' t i = ptEntry m t i :=
    fun t i ht => congrFun (ptEntry_congr (heq t ht)) i
  refine ⟨h.holding.congr hn htables.heap h.sub heq harray, hsub, fun t ht hout => ?_⟩
  rw [Reached, Radix.reached_congr hfetch] at ht
  rw [userTables_congr hn heq] at hout
  exact hother t ht hout

theorem handOut (h : k.Tenant roots n m live owned ps array mine)
    (htables : k.PageTables m live roots) (hn : n ∈ roots)
    (hkept : Set.EqOn m' m (k.alloc.kept live)) :
    k.Tenant roots n m' (insert c live) owned ps array mine := by
  refine h.congr htables hn (fun t ht => hkept.mono (htables.kept t ht)) (fun d hd => ?_)
    (h.sub.trans (Set.subset_insert c live)) fun t ht hout => ?_
  · exact hkept.mono (Allocator.bytes_subset_kept (h.sub (h.holding.array_sub hd)))
  · exact (h.other t ht hout).trans (Allocator.kept_mono
      (Set.sdiff_subset_sdiff_left (Set.subset_insert c live)))

/-- A chunk that is no table and not the tenant's is given back. -/
theorem free (h : k.Tenant roots n m live owned ps array mine)
    (htables : k.PageTables m live roots) (hn : n ∈ roots) (hc : c ∈ live) (hcmine : c ∉ mine)
    (hout : ∀ t, k.Reached m roots t → t.bytes ⊆ k.alloc.kept (live \ {c})) :
    k.Tenant roots n (k.alloc.free m c.ptr) (live \ {c}) owned ps array mine := by
  have hkept := (k.alloc.free_spec htables.heap hc).2
  have hstay : ∀ d ∈ mine, d ∈ live \ {c} := by
    rintro d hd
    refine ⟨h.sub hd, ?_⟩
    rintro rfl
    exact hcmine hd
  refine h.congr htables hn (fun t ht => hkept.mono (hout t ht)) (fun d hd => ?_) hstay
    fun t ht hnot => ?_
  · exact hkept.mono (Allocator.bytes_subset_kept (hstay d (h.holding.array_sub hd)))
  · rw [Set.sdiff_sdiff]
    exact fun x hx => Allocator.kept_diff_inter htables.heap (hout t ht hx) (h.other t ht hnot hx)

/-- A tenant records a frame. -/
theorem record (tops : Set (Fin 512)) (pages : Set Vpn)
    (h : k.Tenant roots n m live owned ps array mine) (htables : k.PageTables m live roots) (hn : n ∈ roots) (hc : c ∈ live) (hcmine : c ∉ mine)
    (hsize : 4096 ≤ c.size)
    (hout : ∀ t, k.Reached m roots t → t.bytes ⊆ k.alloc.kept (live \ {c}))
    (hmoves : PageList.Moves k.alloc m live array (ps ++ [c.ptr]) m' owned' array') :
    k.Alters tops pages roots n m live (insert c mine) m' (live \ array ∪ array')
        (insert c mine \ array ∪ array') ∧
      k.Tenant roots n m' (live \ array ∪ array') owned' (ps ++ [c.ptr]) array'
        (insert c mine \ array ∪ array') ∧
      k.spaceOf m' n.addr = k.spaceOf m n.addr ∧
      (live \ array ∪ array') \ (insert c mine \ array ∪ array') = live \ insert c mine := by
  have hother : k.OtherTablesOutside m live roots n (insert c mine) := by
    intro t ht hnot x hx
    rw [Set.insert_eq]
    exact Allocator.kept_diff_inter htables.heap (hout t ht hx) (h.other t ht hnot hx)
  obtain ⟨htables', hholding, hother', hkept, heq⟩ :=
    h.holding.record htables hn h.sub hother hc hcmine hsize hmoves
  have hrest := Holding.record_rest h.holding.array_sub hcmine hmoves.fresh
  have harray : array ⊆ insert c mine :=
    h.holding.array_sub.trans (Set.subset_insert c mine)
  have hsub : insert c mine \ array ∪ array' ⊆ live \ array ∪ array' :=
    Set.union_subset_union_left _
      (Set.sdiff_subset_sdiff_left (Set.insert_subset hc h.sub))
  refine ⟨Alters.of_same_tables htables hn htables'.heap (fun t ht => ?_) heq hsub hrest.ge ?_
    (hkept.mono (Allocator.kept_mono (Set.sdiff_subset_sdiff_right harray))),
    ⟨hholding, hsub, hother'⟩, PageTables.spaceOf_congr hn heq, hrest⟩
  · exact (h.holding.tables_kept h.sub h.other ht).trans
      (Allocator.kept_mono Set.subset_union_left)
  · rintro d (⟨hd, -⟩ | hd)
    · exact Or.inl hd
    · rcases hmoves.fresh with rfl | hdis
      · exact Or.inl (harray hd)
      · exact Or.inr fun hmem => Set.disjoint_left.mp hdis hd hmem

/-- A tenant has room to record one more frame. -/
theorem length_le (h : k.Tenant roots n m live owned ps array mine)
    (htables : k.PageTables m live roots) : ps.length ≤ 2 ^ 52 := by
  refine Allocator.length_le htables.heap h.holding.nodup fun p hp => ?_
  obtain ⟨c, hc, hptr, hsize⟩ := h.holding.frames p hp
  exact ⟨c, h.sub hc, hptr, hsize⟩

/-- A tenant gets the tables that grow in its address space. -/
theorem extend (h : k.Tenant roots n m live owned ps array mine)
    (htables : k.PageTables m live roots) (hx : k.Extends tops roots r m live m' live')
    (hn : n ∈ roots) :
    k.Tenant roots n m' live' owned ps array (mine ∪ k.newTables m' n live live') := by
  obtain ⟨hholding, hother⟩ := h.holding.extend hx hn htables.heap h.sub h.other
  refine ⟨hholding, ?_, hother⟩
  rintro c (hc | hc)
  · exact hx.sub (h.sub hc)
  · exact hc.1

/-- A call for one process leaves the others what is theirs. -/
theorem of_alters (h : k.Tenant roots n m live owned ps array mine')
    (htables : k.PageTables m live roots)
    (ha : k.Alters tops pages roots r m live mine m' live' mine'') (hn : n ∈ roots)
    (hne : n ≠ r) (hdis : Disjoint mine' mine) :
    k.Tenant roots n m' live' owned ps array mine' ∧ Disjoint mine' mine'' := by
  have hmine : mine' ⊆ live \ mine :=
    fun c hc => ⟨h.sub hc, fun hmem => Set.disjoint_left.mp hdis hc hmem⟩
  have huser : k.userTables m' n = k.userTables m n := by
    ext t
    constructor
    · rintro ⟨q, hprivate, hq⟩
      rcases ha.reached n hn q t hq with hold | ⟨⟨j, hj, -, hroot⟩, -⟩
      · exact ⟨q, hprivate, hold⟩
      · exact absurd (hroot.resolve_left hne) (hprivate j hj)
    · rintro ⟨q, hprivate, hq⟩
      exact ⟨q, hprivate, ha.keeps n hn q t hq⟩
  refine ⟨⟨⟨?_, h.holding.frames, h.holding.nodup, ?_, h.holding.array_sub, ?_,
    h.holding.array_frame, ?_, ?_⟩, fun c hc => (ha.rest (hmine hc)).1, ?_⟩, ?_⟩
  · rw [huser]
    exact h.holding.tables
  · refine h.holding.list.congr htables.heap (h.holding.array_sub.trans h.sub) fun d hd => ?_
    intro x hx
    have hdmine := h.holding.array_sub hd
    refine ha.frame x (Allocator.bytes_subset_kept (hmine hdmine) hx) fun t ht hxt => ?_
    exact Set.disjoint_left.mp (h.holding.disjoint_reached htables.heap h.sub h.other hdmine
      (h.holding.array_table d hd) ht) hxt hx
  · rw [huser]
    exact h.holding.table_frame
  · rw [huser]
    exact h.holding.array_table
  · rw [huser]
    exact h.holding.all
  · intro t ht hout x hx
    rcases ha.tables.kept t ht hx with hfree | ⟨e, he, hxe⟩
    · exact Or.inl hfree
    refine Or.inr ⟨e, ⟨he, fun hemine => ?_⟩, hxe⟩
    -- the chunk would be the tenant's, in memory and in the table at once
    have hexe : x ∈ k.alloc.kept (live \ mine) :=
      Allocator.bytes_subset_kept (hmine hemine) hxe
    obtain ⟨r', hr', q, hq⟩ := ht
    rcases ha.reached r' hr' q t hq with hq | ⟨-, hdis⟩
    · rw [huser] at hout
      have hkept := h.other t ⟨r', hr', q, hq⟩ hout hx
      exact Set.disjoint_left.mp (Allocator.bytes_disjoint_kept_diff htables.heap (h.sub hemine)
        hemine) hxe hkept
    · exact Set.disjoint_left.mp hdis hx hexe
  · rw [Set.disjoint_left]
    intro c hc hmem
    exact (ha.rest (hmine hc)).2 hmem

end Tenant

/-- A new address space is a tenant that holds its top-level table. -/
theorem NewSpace.tenant {kr : TableAddr} (h : k.NewSpace m live roots kr n c m')
    (hold : k.PageTables m live roots) (hkr : kr ∈ roots) :
    k.Tenant (insert n roots) n m' (insert c live) PageList.empty [] ∅ {c} :=
  ⟨h.holding, Set.singleton_subset_iff.mpr (Set.mem_insert c live), h.other hold hkr⟩

/-! ### Calls -/

/-- What a call for the process with the page table `r` did to the memory and to the
list of the process. -/
structure Serves (k : Machine) (tops : Set (Fin 512)) (pages : Set Vpn) (roots : Set TableAddr)
    (r : TableAddr) (m : Memory) (live : Set Chunk) (ps : List Word) (mine : Set Chunk)
    (m' : Memory) (live' : Set Chunk) (owned' : PageList) (ps' : List Word)
    (array' mine' : Set Chunk) : Prop where
  alters : k.Alters tops pages roots r m live mine m' live' mine'
  tenant : k.Tenant roots r m' live' owned' ps' array' mine'
  recorded : ps <+: ps'
  frames : ∀ c ∈ mine, c.ptr ∈ ps → c ∈ mine'

/-- The mapping is of a frame that was handed out to the process during the call, and
is still there. -/
def NewFrame (k : Machine) (live mine live' : Set Chunk) (ps' : List Word) (mine' : Set Chunk)
    (x : Mapping) : Prop :=
  ∃ c ∈ live', c ∉ live \ mine ∧ (c ∈ mine' → c.ptr ∈ ps') ∧
    ∃ i, 4096 * (i + 1) ≤ c.size ∧ x.phys = k.hhdmVirtToPhys c.ptr + BitVec.ofNat 64 i * 0x1000

/-- Every page that is mapped was mapped to this frame before, or its frame is new. -/
def MapsNew (k : Machine) (r : TableAddr) (m : Memory) (live mine : Set Chunk) (m' : Memory)
    (live' : Set Chunk) (ps' : List Word) (mine' : Set Chunk) : Prop :=
  ∀ page x', k.spaceOf m' r.addr page = some x' →
    (∃ x, k.spaceOf m r.addr page = some x ∧ x.phys = x'.phys) ∨
      k.NewFrame live mine live' ps' mine' x'

/-- Every page that is mapped was mapped to this frame before. -/
def MapsOld (k : Machine) (r : TableAddr) (m m' : Memory) : Prop :=
  ∀ page x', k.spaceOf m' r.addr page = some x' →
    ∃ x, k.spaceOf m r.addr page = some x ∧ x.phys = x'.phys

/-- A call that maps new frames only, and if it is `clean` leaves no chunk behind that
nobody holds. -/
def ServesNew (k : Machine) (tops : Set (Fin 512)) (pages : Set Vpn) (roots : Set TableAddr)
    (r : TableAddr) (m : Memory) (live : Set Chunk) (ps : List Word) (mine : Set Chunk)
    (clean : Prop) (m' : Memory) (owned' : PageList) : Prop :=
  ∃ live' ps' array' mine',
    k.Serves tops pages roots r m live ps mine m' live' owned' ps' array' mine' ∧
      k.MapsNew r m live mine m' live' ps' mine' ∧ (clean → live' \ mine' ⊆ live \ mine)

variable {ps' ps'' : List Word} {array'' : Set Chunk} {owned'' : PageList}

namespace Serves

theorem refl (h : k.Tenant roots r m live owned ps array mine)
    (htables : k.PageTables m live roots) :
    k.Serves tops pages roots r m live ps mine m live owned ps array mine :=
  ⟨Alters.refl htables h.sub, h, List.prefix_refl ps, fun _ hc _ => hc⟩

theorem trans
    (h : k.Serves tops pages roots r m live ps mine m' live' owned' ps' array' mine')
    (h' : k.Serves tops pages roots r m' live' ps' mine' m'' live'' owned'' ps'' array'' mine'') :
    k.Serves tops pages roots r m live ps mine m'' live'' owned'' ps'' array'' mine'' :=
  ⟨h.alters.trans h'.alters, h'.tenant, h.recorded.trans h'.recorded, fun c hc hmem =>
    h'.frames c (h.frames c hc hmem) (h.recorded.subset hmem)⟩

theorem mono_pages
    (h : k.Serves tops pages roots r m live ps mine m' live' owned' ps' array' mine')
    (hsub : pages ⊆ pages') :
    k.Serves tops pages' roots r m live ps mine m' live' owned' ps' array' mine' :=
  ⟨h.alters.mono_pages hsub, h.tenant, h.recorded, h.frames⟩

end Serves

/-! ### Chunks in custody -/

/-- During a call: the chunks `data` were handed out and are neither the tenant's yet nor
anybody else's; the tenant holds `held`. -/
structure Custody (k : Machine) (tops : Set (Fin 512)) (pages : Set Vpn) (roots : Set TableAddr)
    (r : TableAddr) (m : Memory) (live : Set Chunk) (ps : List Word) (mine data : Set Chunk)
    (m' : Memory) (live' : Set Chunk) (owned' : PageList) (ps' : List Word)
    (array' held : Set Chunk) : Prop where
  alters : k.Alters tops pages roots r m live mine m' live' (data ∪ held)
  tenant : k.Tenant roots r m' live' owned' ps' array' held
  recorded : ps <+: ps'
  frames : ∀ c ∈ mine, c.ptr ∈ ps → c ∈ held
  apart : Disjoint data held
  outside : ∀ t, k.Reached m' roots t → t.bytes ⊆ k.alloc.kept ( live' \ data)
  tidy : tops = userTops → live' \ (data ∪ held) ⊆ live \ mine

namespace Custody

variable {data held : Set Chunk}

/-- Nothing is in custody when the call begins. -/
theorem start (tops : Set (Fin 512)) (pages : Set Vpn)
    (ht : k.Tenant roots r m live owned ps array mine) (h : k.PageTables m live roots) :
    k.Custody tops pages roots r m live ps mine ∅ m live owned ps array mine := by
  refine ⟨?_, ht, List.prefix_refl ps, fun c hc _ => hc, Set.disjoint_left.mpr fun c hc => hc.elim,
    fun t htr => ?_, fun _ => ?_⟩
  · rw [Set.empty_union]
    exact Alters.refl h ht.sub
  · rw [Set.sdiff_empty]
    exact h.kept t htr
  · rw [Set.empty_union]

/-- The call begins with some chunks in custody that hold no table. -/
theorem startWith (tops : Set (Fin 512)) (pages : Set Vpn)
    (ht : k.Tenant roots r m live owned ps array mine) (h : k.PageTables m live roots)
    (hsub : data ⊆ live) (hapart : Disjoint data mine)
    (hout : ∀ t, k.Reached m roots t → t.bytes ⊆ k.alloc.kept (live \ data)) :
    k.Custody tops pages roots r m live ps (data ∪ mine) data m live owned ps array mine := by
  refine ⟨Alters.refl h (Set.union_subset hsub ht.sub), ht, List.prefix_refl ps, ?_, hapart, hout,
    fun _ => subset_rfl⟩
  rintro c (hc | hc) hmem
  · obtain ⟨d, hd, hptr, -⟩ := ht.holding.frames c.ptr hmem
    rwa [← k.alloc.ptr_injOn h.heap (ht.sub hd) (hsub hc) hptr]
  · exact hc

section Facts

variable (h : k.Custody tops pages roots r m live ps mine data m' live' owned' ps' array' held)

include h

theorem data_sub : data ⊆ live' :=
  Set.subset_union_left.trans h.alters.sub

/-- A chunk in custody was nobody else's before the call. -/
theorem notOthers (hc : c ∈ data) : c ∉ live \ mine := by
  rintro ⟨hlive, hmine⟩
  rcases h.alters.fresh c (Or.inl hc) with hold | hnew
  · exact hmine hold
  · exact hnew hlive

/-- No table overlaps a chunk in custody. -/
theorem disjoint_reached (hc : c ∈ data) (ht : k.Reached m' roots t) :
    Disjoint c.bytes t.bytes :=
  (Allocator.bytes_disjoint_kept_diff h.alters.tables.heap (h.data_sub hc) hc).mono_right
    (h.outside t ht)

/-- One more chunk is handed out. -/
theorem handOut (hr : r ∈ roots) (hc : c ∉ live')
    (hlive : k.alloc.Live m'' (insert c live')) (hkept : Set.EqOn m'' m' (k.alloc.kept live')) :
    k.Custody tops pages roots r m live ps mine (insert c data) m'' (insert c live') owned' ps'
      array' held := by
  have halters := h.alters.trans
    (Alters.handOut h.alters.tables hr h.alters.sub hc hlive hkept)
  have hrest : insert c live' \ insert c data = live' \ data := Holding.handOut_rest hc
  refine ⟨?_, h.tenant.handOut h.alters.tables hr hkept, h.recorded, h.frames, ?_,
    fun t ht => ?_, fun htops => ?_⟩
  · rwa [Set.insert_union]
  · rw [Set.disjoint_insert_left]
    exact ⟨fun hmem => hc (h.tenant.sub hmem), h.apart⟩
  · have hfetch : ∀ t i, k.Reached m' roots t → ptEntry m'' t i = ptEntry m' t i :=
      fun t i ht => congrFun (ptEntry_congr (hkept.mono (h.alters.tables.kept t ht))) i
    rw [Reached, Radix.reached_congr hfetch] at ht
    rw [hrest]
    exact h.outside t ht
  · rw [Set.insert_union, Holding.handOut_rest hc]
    exact h.tidy htops

omit h in
/-- The first chunk is handed out. -/
theorem first (tops : Set (Fin 512)) (pages : Set Vpn)
    (ht : k.Tenant roots r m live owned ps array mine) (h : k.PageTables m live roots)
    (hr : r ∈ roots) (hc : c ∉ live) (hlive : k.alloc.Live m' (insert c live))
    (hkept : Set.EqOn m' m (k.alloc.kept live)) :
    k.Custody tops pages roots r m live ps mine {c} m' (insert c live) owned ps array mine := by
  rw [← insert_empty_eq]
  exact (start tops pages ht h).handOut hr hc hlive hkept

/-- The tables of the tenant grow. -/
theorem extend (hr : r ∈ roots) (hx : k.Extends tops roots r m' live' m'' live'')
    (hown : ∀ page ∉ pages, k.spaceOf m'' r.addr page = k.spaceOf m' r.addr page)
    (hothers : ∀ r' ∈ roots, r' ≠ r → ∀ page, page.User ∨ page ∉ pages →
      k.spaceOf m'' r'.addr page = k.spaceOf m' r'.addr page) :
    k.Custody tops pages roots r m live ps mine data m'' live'' owned' ps' array'
      (held ∪ k.newTables m'' r live' live'') := by
  have halters := h.alters.trans (Alters.of_extends r hx h.alters.sub hown hothers)
  rw [Set.union_assoc] at halters
  refine ⟨halters, h.tenant.extend h.alters.tables hx hr, h.recorded,
    fun c hc hmem => Or.inl (h.frames c hc hmem), ?_,
    fun t ht => hx.tables_outside h.data_sub h.outside ht, ?_⟩
  · rw [Set.disjoint_union_right]
    exact ⟨h.apart, Set.disjoint_left.mpr fun d hd hmem => hmem.2.1 (h.data_sub hd)⟩
  · rintro rfl
    refine Set.Subset.trans ?_ (h.tidy rfl)
    rw [Holding.newTables_eq hx h.alters.tables.kept]
    rintro d ⟨hd, hdheld⟩
    rw [Set.mem_union, Set.mem_union, not_or, not_or] at hdheld
    obtain ⟨hddata, hdheld, hdnew⟩ := hdheld
    refine ⟨?_, fun hmem => hmem.elim hddata hdheld⟩
    by_contra hdlive
    exact hdnew ⟨hd, hdlive⟩

/-- The tables grow around the chunks in custody. -/
theorem extend_eqOn (hx : k.Extends tops roots r m' live' m'' live'') (hc : c ∈ data) :
    Set.EqOn m'' m' c.bytes := fun x hx' =>
  hx.frame x (Allocator.bytes_subset_kept (h.data_sub hc) hx') fun _ ht hxt =>
    Set.disjoint_left.mp (h.disjoint_reached hc ht) hx' hxt

/-- A chunk in custody is written to. -/
theorem write (hr : r ∈ roots) (hc : c ∈ data) (heq : Set.EqOn m'' m' c.bytesᶜ) :
    k.Custody tops pages roots r m live ps mine data m'' live' owned' ps' array' held ∧
      ∀ r' ∈ roots, k.spaceOf m'' r'.addr = k.spaceOf m' r'.addr := by
  have htables := h.alters.tables
  have hclive := h.data_sub hc
  have hcheld : c ∉ held := fun hmem => Set.disjoint_left.mp h.apart hc hmem
  have hsame : ∀ t, k.Reached m' roots t → Set.EqOn m'' m' t.bytes := fun t ht =>
    heq.mono fun x hx hxc => Set.disjoint_left.mp (h.disjoint_reached hc ht) hxc hx
  have hlive : k.alloc.Live m'' live' :=
    htables.heap.of_eqOn_compl (Allocator.bytes_subset_kept hclive) heq
  have hrest : Set.EqOn m'' m' (k.alloc.kept ( live' \ (data ∪ held))) :=
    heq.mono fun x hx hxc => Set.disjoint_left.mp
      (Allocator.bytes_disjoint_kept_diff htables.heap hclive (Or.inl hc)) hxc hx
  refine ⟨⟨h.alters.trans (Alters.of_same_tables htables hr hlive htables.kept hsame h.alters.sub
    subset_rfl (fun d hd => Or.inl hd) hrest), ?_, h.recorded, h.frames, h.apart, ?_, h.tidy⟩,
    fun r' hr' => PageTables.spaceOf_congr hr' hsame⟩
  · refine h.tenant.congr htables hr hsame (fun d hd => ?_) h.tenant.sub h.tenant.other
    have hdheld := h.tenant.holding.array_sub hd
    have hne : c ≠ d := by
      rintro rfl
      exact hcheld hdheld
    have hdis := k.alloc.bytes_disjoint htables.heap hclive (h.tenant.sub hdheld) hne
    exact heq.mono fun x hx hxc => Set.disjoint_left.mp hdis hxc hx
  · have hfetch : ∀ t i, k.Reached m' roots t → ptEntry m'' t i = ptEntry m' t i :=
      fun t i ht => congrFun (ptEntry_congr (hsame t ht)) i
    intro t ht
    rw [Reached, Radix.reached_congr hfetch] at ht
    exact h.outside t ht

/-- The chunks are left to nobody, or to others. -/
theorem leave : k.Serves tops pages roots r m live ps mine m' live' owned' ps' array' held :=
  ⟨h.alters.release Set.subset_union_right, h.tenant, h.recorded, h.frames⟩

/-- A chunk is given back. -/
theorem giveBack (hr : r ∈ roots) (hc : c ∈ data) :
    k.Custody tops pages roots r m live ps mine (data \ {c}) (k.alloc.free m' c.ptr)
        ( live' \ {c}) owned' ps' array' held ∧
      k.spaceOf (k.alloc.free m' c.ptr) r.addr = k.spaceOf m' r.addr := by
  have htables := h.alters.tables
  have hcheld : c ∉ held := fun hmem => Set.disjoint_left.mp h.apart hc hmem
  have hcsub : ({c} : Set Chunk) ⊆ data := Set.singleton_subset_iff.mpr hc
  have hout : ∀ t, k.Reached m' roots t → t.bytes ⊆ k.alloc.kept ( live' \ {c}) :=
    fun t ht => (h.outside t ht).trans
      (Allocator.kept_mono (Set.sdiff_subset_sdiff_right hcsub))
  have hkept := (k.alloc.free_spec htables.heap (h.data_sub hc)).2
  have heq : ∀ t, k.Reached m' roots t → Set.EqOn (k.alloc.free m' c.ptr) m' t.bytes :=
    fun t ht => hkept.mono (hout t ht)
  have hfree := Alters.free tops pages htables hr h.alters.sub (Or.inl hc) hout
  have hback : (data ∪ held) \ {c} = data \ {c} ∪ held := by
    rw [Set.union_sdiff_distrib, Set.sdiff_singleton_eq_self hcheld]
  have hgone : ( live' \ {c}) \ (data \ {c} ∪ held) = live' \ (data ∪ held) := by
    rw [← hback, Set.sdiff_sdiff, Set.union_sdiff_cancel (hcsub.trans Set.subset_union_left)]
  refine ⟨⟨?_, h.tenant.free htables hr (h.data_sub hc) hcheld hout, h.recorded, h.frames,
    h.apart.mono_left Set.sdiff_subset, fun t ht => ?_, fun htops => ?_⟩,
    PageTables.spaceOf_congr hr heq⟩
  · rw [← hback]
    exact h.alters.trans hfree
  · have hfetch : ∀ t i, k.Reached m' roots t →
        ptEntry (k.alloc.free m' c.ptr) t i = ptEntry m' t i :=
      fun t i ht => congrFun (ptEntry_congr (heq t ht)) i
    rw [Reached, Radix.reached_congr hfetch] at ht
    rw [Set.sdiff_sdiff, Set.union_sdiff_cancel hcsub]
    exact h.outside t ht
  · rw [hgone]
    exact h.tidy htops

/-- A chunk becomes a recorded frame. -/
theorem record (hr : r ∈ roots) (hc : c ∈ data) (hsize : 4096 ≤ c.size)
    (hmoves : PageList.Moves k.alloc m' live' array' (ps' ++ [c.ptr]) m'' owned'' array'') :
    k.Custody tops pages roots r m live ps mine (data \ {c}) m'' ( live' \ array' ∪ array'')
        owned'' (ps' ++ [c.ptr]) array'' (insert c held \ array' ∪ array'') ∧
      k.spaceOf m'' r.addr = k.spaceOf m' r.addr := by
  have htables := h.alters.tables
  have harray := h.tenant.holding.array_sub
  have hcheld : c ∉ held := fun hmem => Set.disjoint_left.mp h.apart hc hmem
  have hcsub : ({c} : Set Chunk) ⊆ data := Set.singleton_subset_iff.mpr hc
  obtain ⟨halters, htenant, hspace, hrest⟩ := h.tenant.record tops pages htables hr
    (h.data_sub hc) hcheld hsize
    (fun t ht => (h.outside t ht).trans (Allocator.kept_mono (Set.sdiff_subset_sdiff_right hcsub)))
    hmoves
  have hrest' : data \ {c} ⊆ live' \ insert c held := by
    rintro d ⟨hd, hdc⟩
    refine ⟨h.data_sub hd, ?_⟩
    rintro (rfl | hmem)
    · exact hdc rfl
    · exact Set.disjoint_left.mp h.apart hd hmem
  have hall : data \ {c} ∪ insert c held = data ∪ held := by
    rw [Set.union_insert, ← Set.insert_union, Set.insert_sdiff_singleton,
      Set.insert_eq_of_mem hc]
  have hcarry := halters.carry hrest'
  rw [hall] at hcarry
  have heq : ∀ t, k.Reached m' roots t → Set.EqOn m'' m' t.bytes := fun t ht =>
    hmoves.kept.mono (h.tenant.holding.tables_kept h.tenant.sub h.tenant.other ht)
  refine ⟨⟨h.alters.trans hcarry, htenant, h.recorded.trans (List.prefix_append ps' _), ?_, ?_,
    fun t ht x hx => ?_, fun htops => ?_⟩, hspace⟩
  · exact fun d hd hmem => Or.inl ⟨Or.inr (h.frames d hd hmem),
      fun hda => h.tenant.holding.array_frame d hda (h.recorded.subset hmem)⟩
  · rw [Set.disjoint_union_right]
    refine ⟨Set.disjoint_left.mpr fun d hd hmem => (hrest' hd).2 hmem.1, ?_⟩
    rcases hmoves.fresh with rfl | hdis
    · exact Set.disjoint_left.mpr fun d hd hmem => (hrest' hd).2 (Or.inr (harray hmem))
    · exact Set.disjoint_left.mpr fun d hd hmem =>
        Set.disjoint_left.mp hdis hmem (h.data_sub hd.1)
  · have hfetch : ∀ t i, k.Reached m' roots t → ptEntry m'' t i = ptEntry m' t i :=
      fun t i ht => congrFun (ptEntry_congr (heq t ht)) i
    rw [Reached, Radix.reached_congr hfetch] at ht
    refine Allocator.kept_mono ?_ (Allocator.kept_diff_inter htables.heap (h.outside t ht hx)
      (h.tenant.holding.tables_kept h.tenant.sub h.tenant.other ht hx))
    rintro d ⟨hd, hout⟩
    exact ⟨Or.inl ⟨hd, fun hmem => hout (Or.inr hmem)⟩, fun hmem => hout (Or.inl hmem.1)⟩
  · rw [Set.union_comm (data \ {c}), ← Set.sdiff_sdiff, hrest, Set.sdiff_sdiff,
      Set.union_comm (insert c held), hall]
    exact h.tidy htops

end Facts

end Custody

/-! ### Frames -/

theorem MapsOld.trans (h : k.MapsOld r m m') (h' : k.MapsOld r m' m'') : k.MapsOld r m m'' := by
  intro page x'' hx''
  obtain ⟨x', hx', hphys'⟩ := h' page x'' hx''
  obtain ⟨x, hx, hphys⟩ := h page x' hx'
  exact ⟨x, hx, hphys.trans hphys'⟩

theorem MapsOld.of_eq (h : k.spaceOf m' r.addr = k.spaceOf m r.addr) : k.MapsOld r m m' := by
  intro page x' hx'
  rw [h] at hx'
  exact ⟨x', hx', rfl⟩

theorem MapsNew.of_eq (h : k.spaceOf m' r.addr = k.spaceOf m r.addr) :
    k.MapsNew r m live mine m' live' ps' mine' := by
  intro page x' hx'
  rw [h] at hx'
  exact Or.inl ⟨x', hx', rfl⟩

theorem MapsNew.trans (h : k.MapsNew r m live mine m' live' ps' mine')
    (h' : k.MapsNew r m' live' mine' m'' live'' ps'' mine'')
    (hs : k.Serves tops pages roots r m live ps mine m' live' owned' ps' array' mine')
    (hs' : k.Serves tops pages roots r m' live' ps' mine' m'' live'' owned'' ps'' array'' mine'') :
    k.MapsNew r m live mine m'' live'' ps'' mine'' := by
  intro page x'' hx''
  rcases h' page x'' hx'' with ⟨x', hx', hphys⟩ | ⟨c, hc, hnew, hrecord, hi⟩
  · rcases h page x' hx' with ⟨x, hx, hphys'⟩ | ⟨c, hc, hnew, hrecord, i, hi, hframe⟩
    · exact Or.inl ⟨x, hx, hphys'.trans hphys⟩
    · refine Or.inr ⟨c, ?_, hnew, ?_, i, hi, hphys ▸ hframe⟩
      · by_cases hmine : c ∈ mine'
        · exact hs'.tenant.sub (hs'.frames c hmine (hrecord hmine))
        · exact (hs'.alters.rest ⟨hc, hmine⟩).1
      · intro hmem
        by_cases hmine : c ∈ mine'
        · exact hs'.recorded.subset (hrecord hmine)
        · exact absurd hmem (hs'.alters.rest ⟨hc, hmine⟩).2
  · exact Or.inr ⟨c, hc, fun hmem => hnew (hs.alters.rest hmem), hrecord, hi⟩

/-- One call after another. -/
theorem ServesNew.trans {clean clean' : Prop}
    (h : k.ServesNew tops pages roots r m live ps mine clean m' owned')
    (h' : ∀ live' ps' array' mine', k.PageTables m' live' roots →
      k.Tenant roots r m' live' owned' ps' array' mine' →
      k.ServesNew tops pages roots r m' live' ps' mine' clean' m'' owned'') :
    k.ServesNew tops pages roots r m live ps mine (clean ∧ clean') m'' owned'' := by
  obtain ⟨live', ps', array', mine', hserves, hmaps, hclean⟩ := h
  obtain ⟨live'', ps'', array'', mine'', hserves', hmaps', hclean'⟩ :=
    h' live' ps' array' mine' hserves.alters.tables hserves.tenant
  exact ⟨live'', ps'', array'', mine'', hserves.trans hserves', hmaps.trans hmaps' hserves hserves',
    fun hboth => (hclean' hboth.2).trans (hclean hboth.1)⟩

theorem ServesNew.mono {clean clean' : Prop}
    (h : k.ServesNew tops pages roots r m live ps mine clean m' owned') (hsub : pages ⊆ pages')
    (hclean : clean' → clean) : k.ServesNew tops pages' roots r m live ps mine clean' m' owned' := by
  obtain ⟨live', ps', array', mine', hserves, hmaps, hrest⟩ := h
  exact ⟨live', ps', array', mine', hserves.mono_pages hsub, hmaps, hrest ∘ hclean⟩

theorem ServesNew.refl {clean : Prop} (h : k.Tenant roots r m live owned ps array mine)
    (htables : k.PageTables m live roots) :
    k.ServesNew tops pages roots r m live ps mine clean m owned :=
  ⟨live, ps, array, mine, Serves.refl h htables, MapsNew.of_eq rfl, fun _ => subset_rfl⟩

/-- One page operation that maps no new frame. -/
theorem Tenant.servesNew (h : k.Tenant roots r m live owned ps array mine)
    (htables : k.PageTables m live roots) (hr : r ∈ roots)
    (hx : k.Extends tops roots r m live m' live')
    (hanswers : k.Answers roots r virt m (status, m') next)
    (hnext : ∀ page, page ≠ vpn virt → next page = k.spaceOf m r.addr page)
    (hpage : ∀ x', next (vpn virt) = some x' →
      ∃ x, k.spaceOf m r.addr (vpn virt) = some x ∧ x.phys = x'.phys) :
    k.ServesNew tops {vpn virt} roots r m live ps mine (tops = userTops) m' owned ∧
      k.MapsOld r m m' := by
  have hold : k.MapsOld r m m' := by
    rcases hanswers with ⟨-, hspace, -⟩ | ⟨-, hsame⟩
    · intro page x' hx'
      rw [show k.spaceOf m' r.addr = next from hspace] at hx'
      by_cases hvirt : page = vpn virt
      · subst hvirt
        exact hpage x' hx'
      · rw [hnext page hvirt] at hx'
        exact ⟨x', hx', rfl⟩
    · exact MapsOld.of_eq (hsame r hr)
  refine ⟨⟨live', ps, array, mine ∪ k.newTables m' r live live',
    ⟨Alters.of_extends r hx h.sub (fun page hpage => hanswers.own hr hnext hpage)
      (fun r' hr' hne page hpage => hanswers.others hr' hne hpage), h.extend htables hx hr,
      List.prefix_refl ps, fun c hc _ => Or.inl hc⟩,
    fun page x' hx' => Or.inl (hold page x' hx'), ?_⟩, hold⟩
  · rintro rfl
    rw [Holding.newTables_eq hx htables.kept]
    rintro c ⟨hc, hcmine⟩
    rw [Set.mem_union, not_or] at hcmine
    refine ⟨?_, hcmine.1⟩
    by_contra hclive
    exact hcmine.2 ⟨hc, hclive⟩

end Machine

/-! ### A tenant of the sample machine -/

/-- A zeroed page, which is a page table with an empty user half. -/
def sampleSpace : Word × Memory := (sampleMachine .x86_64).ptPoolAlloc sampleMemory

def sampleTable : TableAddr := ⟨sampleSpace.1, by decide⟩

theorem sampleNewSpace : ∃ c : Chunk, (sampleMachine .x86_64).NewSpace sampleMemory ∅
    {sampleRoot} sampleRoot sampleTable c sampleSpace.2 := by
  have hold := sampleTables .x86_64
  have hsome : sampleSpace.1 ≠ 0 := by decide
  rcases Machine.ptPoolAlloc_spec hold.heap with
    hnull | ⟨u, c, m₁, halloc, hptr, hne, hsize, hnew, hheap, hkept, hzero⟩
  · exact absurd (congrArg Prod.fst hnull) hsome
  have hu : u = sampleTable := TableAddr.ext (congrArg Prod.fst halloc).symm
  have hm : m₁ = sampleSpace.2 := (congrArg Prod.snd halloc).symm
  subst hu hm
  have hc := Set.mem_insert c (∅ : Set Chunk)
  have hbytes : sampleTable.bytes ⊆ c.bytes := by
    rw [Chunk.bytes, hptr]
    exact span_subset_span le_rfl (by omega)
  have hreached : (sampleMachine .x86_64).Reached sampleMemory {sampleRoot} sampleRoot :=
    ⟨sampleRoot, rfl, [], Radix.tableAt_nil _ _⟩
  have hsame : ∀ t, (sampleMachine .x86_64).Reached sampleMemory {sampleRoot} t →
      Set.EqOn sampleSpace.2 sampleMemory t.bytes := fun t ht => hkept.mono (hold.kept t ht)
  have hfresh : (sampleMachine .x86_64).FreshRoot sampleSpace.2 sampleRoot sampleTable := by
    refine ⟨fun i _ => Machine.ptEntry_eq_zero hzero i, fun i _ => ?_⟩
    rw [Machine.ptEntry_eq_zero hzero, congrFun (Machine.ptEntry_congr (hsame _ hreached)) i]
    exact (sampleRoot_empty i).symm
  have hnot : ¬ (sampleMachine .x86_64).Reached sampleSpace.2 {sampleRoot} sampleTable := by
    intro ht
    rw [Machine.Reached, Radix.reached_congr fun t i ht =>
      congrFun (Machine.ptEntry_congr (hsame t ht)) i] at ht
    have hself : sampleTable.addr ∈ sampleTable.bytes := ⟨le_rfl, by omega⟩
    exact Set.disjoint_left.mp (Allocator.bytes_disjoint_kept hheap
      (Set.subset_insert c ∅) hc hnew) (hbytes hself) (hold.kept _ ht hself)
  have htables := (hold.congr hheap (Set.empty_subset _) hsame).insertRoot rfl hfresh hne hnot
    (hbytes.trans (Allocator.bytes_subset_kept hc))
  exact ⟨c, hptr, hne, hsize, hnew,
    fun hmem => hnot ⟨sampleTable, hmem, [], Radix.tableAt_nil _ _⟩, hkept, htables, hfresh⟩

theorem sampleTenant : ∃ c : Chunk,
    (sampleMachine .x86_64).PageTables sampleSpace.2 {c} {sampleTable, sampleRoot} ∧
      (sampleMachine .x86_64).Tenant {sampleTable, sampleRoot} sampleTable sampleSpace.2 {c}
        PageList.empty [] ∅ {c} := by
  obtain ⟨c, hspace⟩ := sampleNewSpace
  have htables := hspace.tables
  have htenant := hspace.tenant (sampleTables .x86_64) rfl
  rw [insert_empty_eq] at htables htenant
  exact ⟨c, htables, htenant⟩

end Utopia
