/-
An address space together with the list of its frames: which chunks of the heap
they own, how the set grows, and that both walks of a teardown together give
back each chunk once.
-/
import Utopia.Mm.FreeTables
import Utopia.Mm.PageOps

namespace Utopia

namespace Machine

/-- The chunks `mine` are the tables of `n`, the frames `ps` recorded in `owned`
and the array of that list, each of them once. -/
structure Holding (k : Machine) (m : Memory) (n : TableAddr) (owned : PageList)
    (ps : List Word) (array mine : Set Chunk) : Prop where
  tables : Owned mine (k.userTables m n)
  frames : ∀ p ∈ ps, ∃ c ∈ mine, c.ptr = p ∧ 4096 ≤ c.size
  nodup : ps.Nodup
  list : owned.Holds m ps array
  array_sub : array ⊆ mine
  table_frame : ∀ t ∈ k.userTables m n, t.addr ∉ ps
  array_frame : ∀ c ∈ array, c.ptr ∉ ps
  array_table : ∀ c ∈ array, ∀ t ∈ k.userTables m n, c.ptr ≠ t.addr
  all : ∀ c ∈ mine, c ∈ array ∨ c.ptr ∈ ps ∨ ∃ t ∈ k.userTables m n, c.ptr = t.addr

/-- The other tables lie in memory that is kept without the chunks `mine`. -/
def OtherTablesOutside (k : Machine) (m : Memory) (live : Set Chunk) (roots : Set TableAddr)
    (n : TableAddr) (mine : Set Chunk) : Prop :=
  ∀ t, k.Reached m roots t → t ∉ k.userTables m n → t.bytes ⊆ k.alloc.kept (live \ mine)

/-- The tables of `n` that are new chunks. -/
def newTables (k : Machine) (m' : Memory) (n : TableAddr) (live live' : Set Chunk) : Set Chunk :=
  { c | c ∈ live' ∧ c ∉ live ∧ ∃ t ∈ k.userTables m' n, c.ptr = t.addr }

variable {k : Machine} {m m' : Memory} {live live' mine array array' : Set Chunk}
  {tops : Set (Fin 512)} {roots : Set TableAddr} {n r t u : TableAddr} {owned owned' : PageList} {ps : List Word}
  {c d : Chunk}

@[simp]
theorem newTables_self (m' : Memory) (n : TableAddr) (live : Set Chunk) :
    k.newTables m' n live live = ∅ :=
  Set.eq_empty_of_forall_notMem fun _ hc => hc.2.1 hc.1

theorem userTables_congr (hr : r ∈ roots)
    (heq : ∀ t, k.Reached m roots t → Set.EqOn m' m t.bytes) :
    k.userTables m' r = k.userTables m r := by
  ext u
  have hfetch : ∀ t i, k.Reached m roots t → ptEntry m' t i = ptEntry m t i :=
    fun t i ht => congrFun (ptEntry_congr (heq t ht)) i
  simp only [userTables, tableAt, Radix.tableAt_congr_reached hfetch hr]

theorem self_mem_userTables (m : Memory) (r : TableAddr) : r ∈ k.userTables m r :=
  ⟨[], by simp, Radix.tableAt_nil _ _⟩

namespace Holding

/-- A chunk of the list or of a frame shares no byte with a table of `n`. -/
theorem disjoint_table (h : k.Holding m n owned ps array mine) (hlive : k.alloc.Live m' live)
    (hsub : mine ⊆ live) (hd : d ∈ mine) (hne : ∀ t ∈ k.userTables m n, d.ptr ≠ t.addr)
    (ht : t ∈ k.userTables m n) : Disjoint t.bytes d.bytes := by
  obtain ⟨e, he, hptr, hsize⟩ := h.tables t ht
  have hdiff : e ≠ d := by
    rintro rfl
    exact hne t ht hptr
  refine (k.alloc.bytes_disjoint hlive (hsub he) (hsub hd) hdiff).mono_left ?_
  rw [Chunk.bytes, hptr]
  exact span_subset_span le_rfl (by omega)

/-- The same for every table of the machine. -/
theorem disjoint_reached (h : k.Holding m n owned ps array mine) (hlive : k.alloc.Live m' live)
    (hsub : mine ⊆ live) (hother : k.OtherTablesOutside m live roots n mine) (hd : d ∈ mine)
    (hne : ∀ t ∈ k.userTables m n, d.ptr ≠ t.addr) (ht : k.Reached m roots t) :
    Disjoint t.bytes d.bytes := by
  by_cases hmine : t ∈ k.userTables m n
  · exact h.disjoint_table hlive hsub hd hne hmine
  · exact ((Allocator.bytes_disjoint_kept_diff hlive (hsub hd) hd).mono_right
      (hother t ht hmine)).symm

/-- Frames and the array are not tables. -/
theorem ne_table_of_frame (h : k.Holding m n owned ps array mine) (hd : d.ptr ∈ ps) :
    ∀ t ∈ k.userTables m n, d.ptr ≠ t.addr := by
  intro t ht heq
  exact h.table_frame t ht (heq ▸ hd)

/-- The holding only depends on its own chunks. -/
theorem congr (h : k.Holding m n owned ps array mine) (hn : n ∈ roots)
    (hlive : k.alloc.Live m live) (hsub : mine ⊆ live)
    (htables : ∀ t, k.Reached m roots t → Set.EqOn m' m t.bytes)
    (harray : ∀ c ∈ array, Set.EqOn m' m c.bytes) :
    k.Holding m' n owned ps array mine := by
  have hsame := userTables_congr hn htables
  refine ⟨?_, h.frames, h.nodup, h.list.congr hlive (h.array_sub.trans hsub) harray,
    h.array_sub, ?_, h.array_frame, ?_, ?_⟩
  · rw [hsame]
    exact h.tables
  · rw [hsame]
    exact h.table_frame
  · rw [hsame]
    exact h.array_table
  · rw [hsame]
    exact h.all

/-- Page tables that grow leave frames and list as they are. -/
theorem extends_frame (h : k.Holding m n owned ps array mine)
    (hx : k.Extends tops roots r m live m' live') (hlive : k.alloc.Live m live)
    (hsub : mine ⊆ live) (hother : k.OtherTablesOutside m live roots n mine) (hd : d ∈ mine)
    (hne : ∀ t ∈ k.userTables m n, d.ptr ≠ t.addr) : Set.EqOn m' m d.bytes := by
  intro x hx'
  apply hx.frame x (Allocator.bytes_subset_kept (hsub hd) hx')
  intro t ht hxt
  exact Set.disjoint_left.mp (h.disjoint_reached hlive hsub hother hd hne ht) hxt hx'

/-- The tables of `n` after growth: the old ones and new chunks. -/
theorem userTables_extends (hx : k.Extends tops roots r m live m' live') (hn : n ∈ roots) :
    k.userTables m n ⊆ k.userTables m' n ∧
      ∀ t ∈ k.userTables m' n, t ∈ k.userTables m n ∨
        ∃ c ∈ live', c ∉ live ∧ c.ptr = t.addr ∧ 4096 ≤ c.size := by
  constructor
  · rintro t ⟨p, hprivate, hp⟩
    exact ⟨p, hprivate, hx.keeps n hn p t hp⟩
  · rintro t ⟨p, hprivate, hp⟩
    rcases hx.reached n hn p t hp with hold | ⟨-, hnew⟩
    · exact Or.inl ⟨p, hprivate, hold⟩
    · exact Or.inr hnew

/-- Growth adds the new tables of `n` to the holding. -/
theorem extend (h : k.Holding m n owned ps array mine)
    (hx : k.Extends tops roots r m live m' live') (hn : n ∈ roots) (hlive : k.alloc.Live m live)
    (hsub : mine ⊆ live) (hother : k.OtherTablesOutside m live roots n mine) :
    k.Holding m' n owned ps array (mine ∪ k.newTables m' n live live') ∧
      k.OtherTablesOutside m' live' roots n (mine ∪ k.newTables m' n live live') := by
  obtain ⟨hold, hnew⟩ := userTables_extends hx hn
  -- a new chunk starts where no old chunk does
  have hapart : ∀ c ∈ live', c ∉ live → ∀ d ∈ live, d.ptr ≠ c.ptr := by
    intro c hc hcnew d hd heq
    exact hcnew (k.alloc.ptr_injOn hx.tables.heap (hx.sub hd) hc heq ▸ hd)
  refine ⟨⟨?_, ?_, h.nodup, ?_, h.array_sub.trans Set.subset_union_left, ?_, h.array_frame,
    ?_, ?_⟩, ?_⟩
  · intro t ht
    rcases hnew t ht with hold | ⟨c, hc, hcnew, hptr, hsize⟩
    · obtain ⟨c, hc, hptr, hsize⟩ := h.tables t hold
      exact ⟨c, Or.inl hc, hptr, hsize⟩
    · exact ⟨c, Or.inr ⟨hc, hcnew, t, ht, hptr⟩, hptr, hsize⟩
  · intro p hp
    obtain ⟨c, hc, hptr, hsize⟩ := h.frames p hp
    exact ⟨c, Or.inl hc, hptr, hsize⟩
  · exact h.list.congr hlive (h.array_sub.trans hsub) fun d hd =>
      h.extends_frame hx hlive hsub hother (h.array_sub hd) (h.array_table d hd)
  · intro t ht hmem
    rcases hnew t ht with ht | ⟨c, hc, hcnew, hptr, -⟩
    · exact h.table_frame t ht hmem
    · obtain ⟨d, hd, hdptr, -⟩ := h.frames t.addr hmem
      exact hapart c hc hcnew d (hsub hd) (hdptr.trans hptr.symm)
  · intro d hd t ht heq
    rcases hnew t ht with ht | ⟨c, hc, hcnew, hptr, -⟩
    · exact h.array_table d hd t ht heq
    · exact hapart c hc hcnew d (hsub (h.array_sub hd)) (heq.trans hptr.symm)
  · rintro c (hc | ⟨-, -, t, ht, hptr⟩)
    · rcases h.all c hc with hmem | hmem | ⟨t, ht, hptr⟩
      · exact Or.inl hmem
      · exact Or.inr (Or.inl hmem)
      · exact Or.inr (Or.inr ⟨t, hold ht, hptr⟩)
    · exact Or.inr (Or.inr ⟨t, ht, hptr⟩)
  · rintro t ⟨r', hr', q, hq⟩ hout
    rcases hx.reached r' hr' q t hq with hq' | ⟨-, c, hc, hcnew, hptr, hsize⟩
    · refine (hother t ⟨r', hr', q, hq'⟩ fun hmem => hout (hold hmem)).trans
        (Allocator.kept_mono ?_)
      rintro c ⟨hc, hcmine⟩
      exact ⟨hx.sub hc, fun hmem => hmem.elim hcmine fun hmem => hmem.2.1 hc⟩
    · have hrest : c ∈ live' \ (mine ∪ k.newTables m' n live live') := by
        refine ⟨hc, ?_⟩
        rintro (hmem | ⟨-, -, u, hu, huptr⟩)
        · exact hcnew (hsub hmem)
        · exact hout (TableAddr.ext (hptr.symm.trans huptr) ▸ hu)
      refine Set.Subset.trans ?_ (Allocator.bytes_subset_kept hrest)
      rw [Chunk.bytes, hptr]
      exact span_subset_span le_rfl (by omega)

/-- Growth in the user half of `n` is all of `n`. -/
theorem newTables_eq (hx : k.Extends userTops roots n m live m' live')
    (hkept : ∀ t, k.Reached m roots t → t.bytes ⊆ k.alloc.kept live) :
    k.newTables m' n live live' = live' \ live := by
  refine Set.Subset.antisymm (fun c hc => ⟨hc.1, hc.2.1⟩) ?_
  rintro c ⟨hc, hcnew⟩
  obtain ⟨hsize, t, ⟨r', hr', q, hq⟩, hptr⟩ := hx.chunks c hc hcnew
  refine ⟨hc, hcnew, t, ?_, hptr⟩
  rcases hx.reached_user hr' hq with hq' | ⟨rfl, ⟨j, hj, hprivate⟩, -⟩
  · exfalso
    have hdis := Allocator.bytes_disjoint_kept hx.tables.heap hx.sub hc hcnew
    have hmem : t.addr ∈ t.bytes := by
      rw [TableAddr.bytes, mem_span]
      omega
    refine Set.disjoint_left.mp hdis ?_ (hkept t ⟨r', hr', q, hq'⟩ hmem)
    rw [Chunk.bytes, hptr, mem_span]
    omega
  · refine ⟨q, ?_, hq⟩
    intro i hi
    rwa [Option.mem_unique hi hj]

theorem tables_kept (h : k.Holding m n owned ps array mine) (hsub : mine ⊆ live)
    (hother : k.OtherTablesOutside m live roots n mine) (ht : k.Reached m roots t) :
    t.bytes ⊆ k.alloc.kept (live \ array) := by
  by_cases hmine : t ∈ k.userTables m n
  · obtain ⟨e, he, hptr, hsize⟩ := h.tables t hmine
    have hmem : e ∈ live \ array := ⟨hsub he, fun hmem => h.array_table e hmem t hmine hptr⟩
    refine Set.Subset.trans ?_ (Allocator.bytes_subset_kept hmem)
    rw [Chunk.bytes, hptr]
    exact span_subset_span le_rfl (by omega)
  · exact (hother t ht hmine).trans
      (Allocator.kept_mono (Set.sdiff_subset_sdiff_right h.array_sub))

/-- What is left of the live chunks outside the holding when a frame joins it. -/
theorem record_rest {live mine array array' : Set Chunk} (hsub : array ⊆ mine) (hc : c ∉ mine)
    (hfresh : array' = array ∨ Disjoint array' live) :
    (live \ array ∪ array') \ (insert c mine \ array ∪ array') = live \ insert c mine := by
  have hca : c ∉ array := fun hmem => hc (hsub hmem)
  ext x
  constructor
  · rintro ⟨(⟨hx, hxa⟩ | hx), hout⟩
    · exact ⟨hx, fun hmem => hout (Or.inl ⟨hmem, hxa⟩)⟩
    · exact absurd (Or.inr hx) hout
  · rintro ⟨hx, hxm⟩
    have hxa : x ∉ array := fun hmem => hxm (Or.inr (hsub hmem))
    refine ⟨Or.inl ⟨hx, hxa⟩, ?_⟩
    rintro (⟨hmem, -⟩ | hmem)
    · exact hxm hmem
    · rcases hfresh with rfl | hdis
      · exact hxa hmem
      · exact Set.disjoint_left.mp hdis hmem hx

/-- A frame joins the holding when the list records it. -/
theorem record {m₂ : Memory} (h : k.Holding m n owned ps array mine)
    (htables : k.PageTables m live roots) (hn : n ∈ roots) (hsub : mine ⊆ live)
    (hother : k.OtherTablesOutside m live roots n (insert c mine)) (hc : c ∈ live)
    (hcmine : c ∉ mine) (hsize : 4096 ≤ c.size)
    (hmoves : PageList.Moves k.alloc m live array (ps ++ [c.ptr]) m₂ owned' array') :
    k.PageTables m₂ (live \ array ∪ array') roots ∧
      k.Holding m₂ n owned' (ps ++ [c.ptr]) array' (insert c mine \ array ∪ array') ∧
      k.OtherTablesOutside m₂ (live \ array ∪ array') roots n
        (insert c mine \ array ∪ array') ∧
      Set.EqOn m₂ m (k.alloc.kept (live \ array)) ∧
      ∀ t, k.Reached m roots t → Set.EqOn m₂ m t.bytes := by
  have hcarray : c ∉ array := fun hmem => hcmine (h.array_sub hmem)
  have hother' : k.OtherTablesOutside m live roots n mine := fun t ht hout =>
    (hother t ht hout).trans (Allocator.kept_mono (Set.sdiff_subset_sdiff_right
      (Set.subset_insert c mine)))
  have heq : ∀ t, k.Reached m roots t → Set.EqOn m₂ m t.bytes :=
    fun t ht => hmoves.kept.mono (h.tables_kept hsub hother' ht)
  have hrest := record_rest h.array_sub hcmine hmoves.fresh
  have htables₂ : k.PageTables m₂ (live \ array ∪ array') roots := by
    refine htables.transport hmoves.heap (fun t ht => ?_) heq
    exact (h.tables_kept hsub hother' ht).trans (Allocator.kept_mono Set.subset_union_left)
  have huser := userTables_congr hn heq
  -- a chunk of the new array is the old array or starts where nothing else does
  have harray : ∀ d ∈ array', d ∉ array → ∀ e ∈ live, e ∉ array → d.ptr ≠ e.ptr := by
    intro d hd hdold e he heold hptr
    have hde := k.alloc.ptr_injOn hmoves.heap (Or.inr hd) (Or.inl ⟨he, heold⟩) hptr
    subst hde
    rcases hmoves.fresh with rfl | hdis
    · exact hdold hd
    · exact Set.disjoint_left.mp hdis hd he
  have hcold : ∀ d ∈ mine, d.ptr ≠ c.ptr := by
    intro d hd hptr
    obtain rfl := k.alloc.ptr_injOn htables.heap (hsub hd) hc hptr
    exact hcmine hd
  refine ⟨htables₂, ⟨?_, ?_, ?_, hmoves.holds, Set.subset_union_right, ?_, ?_, ?_, ?_⟩, ?_,
    hmoves.kept, heq⟩
  · rw [huser]
    intro t ht
    obtain ⟨e, he, hptr, hsize⟩ := h.tables t ht
    exact ⟨e, Or.inl ⟨Or.inr he, fun hmem => h.array_table e hmem t ht hptr⟩, hptr, hsize⟩
  · intro p hp
    rcases List.mem_append.mp hp with hp | hp
    · obtain ⟨e, he, hptr, hsize⟩ := h.frames p hp
      exact ⟨e, Or.inl ⟨Or.inr he, fun hmem => h.array_frame e hmem (hptr ▸ hp)⟩, hptr, hsize⟩
    · exact ⟨c, Or.inl ⟨Or.inl rfl, hcarray⟩, (List.mem_singleton.mp hp).symm, hsize⟩
  · rw [List.nodup_append]
    refine ⟨h.nodup, List.nodup_singleton _, ?_⟩
    intro p hp q hq heq
    obtain ⟨e, he, hptr, -⟩ := h.frames p hp
    rw [List.mem_singleton.mp hq] at heq
    exact hcold e he (hptr.trans heq)
  · rw [huser]
    intro t ht hmem
    rcases List.mem_append.mp hmem with hmem | hmem
    · exact h.table_frame t ht hmem
    · obtain ⟨e, he, hptr, -⟩ := h.tables t ht
      exact hcold e he (hptr.trans (List.mem_singleton.mp hmem))
  · intro d hd hmem
    rcases List.mem_append.mp hmem with hmem | hmem
    · by_cases hold : d ∈ array
      · exact h.array_frame d hold hmem
      · obtain ⟨e, he, hptr, -⟩ := h.frames d.ptr hmem
        refine harray d hd hold e (hsub he) (fun hmem' => ?_) hptr.symm
        exact h.array_frame e hmem' (hptr ▸ hmem)
    · by_cases hold : d ∈ array
      · exact hcold d (h.array_sub hold) (List.mem_singleton.mp hmem)
      · exact harray d hd hold c hc hcarray (List.mem_singleton.mp hmem)
  · rw [huser]
    intro d hd t ht heq
    by_cases hold : d ∈ array
    · exact h.array_table d hold t ht heq
    · obtain ⟨e, he, hptr, -⟩ := h.tables t ht
      refine harray d hd hold e (hsub he) (fun hmem' => ?_) (heq.trans hptr.symm)
      exact h.array_table e hmem' t ht hptr
  · rw [huser]
    rintro d (⟨rfl | hd, hdarray⟩ | hd)
    · exact Or.inr (Or.inl (by simp))
    · rcases h.all d hd with hmem | hmem | hmem
      · exact absurd hmem hdarray
      · exact Or.inr (Or.inl (List.mem_append_left _ hmem))
      · exact Or.inr (Or.inr hmem)
    · exact Or.inl hd
  · intro t ht hout
    have hfetch : ∀ t i, k.Reached m roots t → ptEntry m₂ t i = ptEntry m t i :=
      fun t i ht => congrFun (ptEntry_congr (heq t ht)) i
    rw [Reached, Radix.reached_congr hfetch] at ht
    rw [huser] at hout
    rw [hrest]
    exact hother t ht hout

theorem handOut_rest {live mine : Set Chunk} (hc : c ∉ live) :
    insert c live \ insert c mine = live \ mine := by
  ext x
  constructor
  · rintro ⟨rfl | hx, hxm⟩
    · exact absurd (Or.inl rfl) hxm
    · exact ⟨hx, fun hmem => hxm (Or.inr hmem)⟩
  · rintro ⟨hx, hxm⟩
    refine ⟨Or.inr hx, ?_⟩
    rintro (rfl | hmem)
    · exact hc hx
    · exact hxm hmem

/-- Nothing changes for the holding when a chunk is handed out. -/
theorem handOut {m₁ : Memory} (h : k.Holding m n owned ps array mine)
    (htables : k.PageTables m live roots) (hn : n ∈ roots) (hsub : mine ⊆ live)
    (hother : k.OtherTablesOutside m live roots n mine) (hc : c ∉ live)
    (hlive : k.alloc.Live m₁ (insert c live)) (hkept : Set.EqOn m₁ m (k.alloc.kept live)) :
    k.PageTables m₁ (insert c live) roots ∧ k.Holding m₁ n owned ps array mine ∧
      k.OtherTablesOutside m₁ (insert c live) roots n (insert c mine) := by
  have heq : ∀ t, k.Reached m roots t → Set.EqOn m₁ m t.bytes :=
    fun t ht => hkept.mono (htables.kept t ht)
  refine ⟨htables.congr hlive (Set.subset_insert c live) heq,
    h.congr hn htables.heap hsub heq fun d hd => ?_, fun t ht hout => ?_⟩
  · exact hkept.mono (Allocator.bytes_subset_kept (hsub (h.array_sub hd)))
  · have hfetch : ∀ t i, k.Reached m roots t → ptEntry m₁ t i = ptEntry m t i :=
      fun t i ht => congrFun (ptEntry_congr (heq t ht)) i
    rw [Reached, Radix.reached_congr hfetch] at ht
    rw [userTables_congr hn heq] at hout
    rw [handOut_rest hc]
    exact hother t ht hout

/-- `free_page_table` and then `vm_page_list_free` give back the holding. -/
theorem free_all (h : k.Holding m n owned ps array mine) (htables : k.PageTables m live roots)
    (hn : n ∈ roots) (hsub : mine ⊆ live) :
    (k.alloc.pageListFree (k.freePageTable m n.addr) owned).2 = PageList.empty ∧
      k.alloc.Frees m live mine (k.alloc.pageListFree (k.freePageTable m n.addr) owned).1 := by
  have howned : Owned live (k.userTables m n) := by
    intro t ht
    obtain ⟨e, he, hptr, hsize⟩ := h.tables t ht
    exact ⟨e, hsub he, hptr, hsize⟩
  have hfrees := htables.freePageTable_spec hn howned
  have hstill : ∀ d ∈ mine, (∀ t ∈ k.userTables m n, d.ptr ≠ t.addr) →
      d ∈ live \ tableChunks live (k.userTables m n) := by
    intro d hd hne
    refine ⟨hsub hd, ?_⟩
    rintro ⟨-, t, ht, heq⟩
    exact hne t ht heq.symm
  have harray : ∀ d ∈ array, d ∈ live \ tableChunks live (k.userTables m n) :=
    fun d hd => hstill d (h.array_sub hd) (h.array_table d hd)
  have hlist : owned.Holds (k.freePageTable m n.addr) ps array :=
    h.list.congr htables.heap (h.array_sub.trans hsub) fun d hd =>
      hfrees.2.mono (Allocator.bytes_subset_kept (harray d hd))
  obtain ⟨hempty, hlistFrees⟩ := PageList.pageListFree_spec hfrees.1 hlist harray h.nodup
    (fun p hp => by
      obtain ⟨d, hd, hptr, -⟩ := h.frames p hp
      refine ⟨d, hstill d hd (h.ne_table_of_frame (hptr ▸ hp)), fun hmem => ?_, hptr⟩
      exact h.array_frame d hmem (hptr ▸ hp))
  refine ⟨hempty, (hfrees.trans hlistFrees).congr_gone ?_⟩
  ext d
  simp only [Set.mem_inter_iff, Set.mem_union, mem_tableChunks]
  constructor
  · rintro ⟨hd, ⟨-, t, ht, heq⟩ | ⟨-, hmem⟩ | hmem⟩
    · obtain ⟨e, he, hptr, -⟩ := h.tables t ht
      obtain rfl := k.alloc.ptr_injOn htables.heap hd (hsub he) (heq.symm.trans hptr.symm)
      exact ⟨hd, he⟩
    · obtain ⟨e, he, hptr, -⟩ := h.frames d.ptr hmem
      obtain rfl := k.alloc.ptr_injOn htables.heap hd (hsub he) hptr.symm
      exact ⟨hd, he⟩
    · exact ⟨hd, h.array_sub hmem⟩
  · rintro ⟨hd, hmine⟩
    refine ⟨hd, ?_⟩
    rcases h.all d hmine with hmem | hmem | ⟨t, ht, hptr⟩
    · exact Or.inr (Or.inr hmem)
    · exact Or.inr (Or.inl ⟨hstill d hmine (h.ne_table_of_frame hmem), hmem⟩)
    · exact Or.inl ⟨hd, t, ht, hptr.symm⟩

end Holding

end Machine

end Utopia
