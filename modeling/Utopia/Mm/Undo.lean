/-
An address space that was begun and is given up again: when its tables, its frames and the
chunks in custody have been given back, everything else is as it was.
-/
import Utopia.Mm.Tenant

namespace Utopia

namespace Machine

/-- The chunks `gone` were given back; the address spaces are as before, and so is the memory
outside the tables that is kept without the chunks `loose`. -/
structure Undone (k : Machine) (roots : Set TableAddr) (m : Memory) (live loose gone : Set Chunk)
    (m' : Memory) : Prop where
  tables : k.PageTables m' (live \ gone) roots
  keeps : ∀ r ∈ roots, ∀ q, k.tableAt m' ptTopLevel r q = k.tableAt m ptTopLevel r q
  spaces : ∀ r ∈ roots, k.spaceOf m' r.addr = k.spaceOf m r.addr
  frame : ∀ x ∈ k.alloc.kept (live \ loose), (∀ t, k.Reached m roots t → x ∉ t.bytes) →
    m' x = m x

variable {k : Machine} {m₀ m m' m'' : Memory}
  {live₀ live live' loose mine held data back : Set Chunk} {array array' : Set Chunk} {pages : Set Vpn} {roots : Set TableAddr} {kr n r t : TableAddr}
  {owned' : PageList} {ps ps' : List Word} {i : Fin 512} {p : List (Fin 512)}

/-- Nothing was given back, and what was written was free. -/
theorem PageTables.undone (h : k.PageTables m₀ live₀ roots) (hlive : k.alloc.Live m live₀)
    (hkept : Set.EqOn m m₀ (k.alloc.kept live₀)) : k.Undone roots m₀ live₀ loose ∅ m := by
  have hsame : ∀ t, k.Reached m₀ roots t → Set.EqOn m m₀ t.bytes :=
    fun t ht => hkept.mono (h.kept t ht)
  refine ⟨?_, fun r hr q => ?_, fun r hr => PageTables.spaceOf_congr hr hsame, fun x hx _ =>
    hkept (Allocator.kept_diff_subset loose hx)⟩
  · rw [Set.sdiff_empty]
    exact h.transport hlive h.kept hsame
  · exact Radix.tableAt_congr_reached (fun t i ht => congrFun (ptEntry_congr (hsame t ht)) i) hr q

theorem tableAt_eq_of_kernel (hkernel : ∀ i, KernelIndex i → ptEntry m n i = ptEntry m kr i)
    (hi : KernelIndex i) (p : List (Fin 512)) :
    k.tableAt m ptTopLevel n (i :: p) = k.tableAt m ptTopLevel kr (i :: p) := by
  rw [tableAt, ptTopLevel, Radix.tableAt_cons, Radix.tableAt_cons, hkernel i hi]

/-- A new address space `n` next to the address spaces `roots`, for which nothing but new
chunks and the chunks `loose` is used. -/
structure Begun (k : Machine) (roots : Set TableAddr) (kr n : TableAddr) (m₀ : Memory)
    (live₀ loose : Set Chunk) (m : Memory) (live mine data : Set Chunk) : Prop where
  before : k.PageTables m₀ live₀ roots
  tables : k.PageTables m live (insert n roots)
  kernelRoot : kr ∈ roots
  notRoot : n ∉ roots
  kept : Set.EqOn m m₀ (k.alloc.kept live₀)
  kernel : ∀ i, KernelIndex i → ptEntry m n i = ptEntry m kr i
  loose_sub : loose ⊆ live₀
  outside : ∀ t, k.Reached m₀ roots t → t.bytes ⊆ k.alloc.kept (live₀ \ loose)
  mine_sub : mine ⊆ live
  owned : Owned mine (k.userTables m n)
  rest : live \ (data ∪ mine) = live₀ \ loose

namespace Begun

variable (h : k.Begun roots kr n m₀ live₀ loose m live mine data)

include h

theorem fetch (t : TableAddr) (i : Fin 512) (ht : k.Reached m₀ roots t) :
    ptEntry m t i = ptEntry m₀ t i :=
  h.before.fetch_eq h.kept t i ht

theorem tableAt_eq (hr : r ∈ roots) (q : List (Fin 512)) :
    k.tableAt m ptTopLevel r q = k.tableAt m₀ ptTopLevel r q :=
  Radix.tableAt_congr_reached h.fetch hr q

/-- A table of the new address space that is not its own is a table of the kernel. -/
theorem reached_cases (ht : k.Reached m (insert n roots) t) :
    t ∈ k.userTables m n ∨ k.Reached m₀ roots t := by
  obtain ⟨r, rfl | hr, q, hq⟩ := ht
  · by_cases hprivate : ∀ i ∈ q.head?, ¬ KernelIndex i
    · exact Or.inl ⟨q, hprivate, hq⟩
    · push Not at hprivate
      obtain ⟨i, hi, hkernel⟩ := hprivate
      cases q with
      | nil => cases hi
      | cons j q =>
          cases hi
          refine Or.inr ⟨kr, h.kernelRoot, i :: q, (h.tableAt_eq h.kernelRoot _).symm.trans ?_⟩
          exact (tableAt_eq_of_kernel h.kernel hkernel q).symm.trans hq
  · exact Or.inr ⟨r, hr, q, (h.tableAt_eq hr q).symm.trans hq⟩

/-- No table lies in the chunks that are in custody. -/
theorem outside_start (hapart : Disjoint data mine) (ht : k.Reached m (insert n roots) t) :
    t.bytes ⊆ k.alloc.kept (live \ data) := by
  rcases h.reached_cases ht with hown | hold
  · obtain ⟨c, hc, hptr, hsize⟩ := h.owned t hown
    refine Set.Subset.trans ?_ (Allocator.bytes_subset_kept
      (show c ∈ live \ data from ⟨h.mine_sub hc, fun hmem => Set.disjoint_left.mp hapart hmem hc⟩))
    rw [Chunk.bytes, hptr]
    exact span_subset_span le_rfl (by omega)
  · refine (h.outside t hold).trans (Allocator.kept_mono ?_)
    rw [← h.rest]
    exact Set.sdiff_subset_sdiff_right Set.subset_union_left

section Given

variable (hcustody : k.Custody userTops pages (insert n roots) n m live ps (data ∪ mine) back m'
  live' owned' ps' array' held)

include hcustody

/-- Nothing is lost on the way. -/
theorem rest_eq : live' \ (back ∪ held) = live₀ \ loose := by
  rw [← h.rest]
  refine Set.Subset.antisymm (hcustody.tidy rfl) ?_
  exact hcustody.alters.rest

/-- The tables of the others stay where they were. -/
theorem tableAt_custody (hr : r ∈ roots) (q : List (Fin 512)) :
    k.tableAt m' ptTopLevel r q = k.tableAt m₀ ptTopLevel r q := by
  have hne : r ≠ n := by
    rintro rfl
    exact h.notRoot hr
  have hmem : r ∈ insert n roots := Set.mem_insert_of_mem n hr
  cases hq : k.tableAt m₀ ptTopLevel r q with
  | some t =>
      rw [← h.tableAt_eq hr] at hq
      exact hcustody.alters.keeps r hmem q t hq
  | none =>
      cases hq' : k.tableAt m' ptTopLevel r q with
      | none => rfl
      | some t =>
          rcases hcustody.alters.reached r hmem q t hq' with hold | ⟨⟨j, -, huser, hvia⟩, -⟩
          · rw [h.tableAt_eq hr, hq] at hold
            cases hold
          · exact absurd (hvia.resolve_left hne) huser

theorem reached_custody (ht : k.Reached m' roots t) : k.Reached m₀ roots t := by
  obtain ⟨r, hr, q, hq⟩ := ht
  exact ⟨r, hr, q, (h.tableAt_custody hcustody hr q).symm.trans hq⟩

theorem spaceOf_custody (hpages : ∀ page ∈ pages, page.User) (hr : r ∈ roots) :
    k.spaceOf m' r.addr = k.spaceOf m₀ r.addr := by
  have hne : r ≠ n := by
    rintro rfl
    exact h.notRoot hr
  have hstart : k.spaceOf m r.addr = k.spaceOf m₀ r.addr :=
    PageTables.spaceOf_congr hr fun t ht => h.kept.mono (h.before.kept t ht)
  rw [← hstart]
  funext page
  refine hcustody.alters.others r (Set.mem_insert_of_mem n hr) hne page ?_
  by_cases hpage : page ∈ pages
  · exact Or.inl (hpages page hpage)
  · exact Or.inr hpage

/-- The tables of the others lie in memory that the call never had. -/
theorem outside_custody (ht : k.Reached m' roots t) :
    t.bytes ⊆ k.alloc.kept ( live' \ (back ∪ held)) := by
  rw [h.rest_eq hcustody]
  exact h.outside t (h.reached_custody hcustody ht)

/-- Memory that the call never had, and that is in no table, is as before. -/
theorem frame_custody {x : Word} (hx : x ∈ k.alloc.kept (live₀ \ loose))
    (hout : ∀ t, k.Reached m₀ roots t → x ∉ t.bytes) : m' x = m₀ x := by
  have hx' : x ∈ k.alloc.kept (live \ (data ∪ mine)) := by
    rw [h.rest]
    exact hx
  have hstart : m x = m₀ x := h.kept (Allocator.kept_mono Set.sdiff_subset hx)
  rw [← hstart]
  refine hcustody.alters.frame x hx' fun t ht hxt => ?_
  rcases h.reached_cases ht with hown | hold
  · obtain ⟨c, hc, hptr, hsize⟩ := h.owned t hown
    refine Set.disjoint_left.mp (Allocator.bytes_disjoint_kept_diff h.tables.heap (h.mine_sub hc)
      (Or.inr hc)) ?_ hx'
    rw [Chunk.bytes, hptr]
    exact span_subset_span le_rfl (by omega) hxt
  · exact hout t hold hxt

/-- When the tenant and the chunks `gone` have been given back, only loose chunks are
missing. -/
theorem undone {gone : Set Chunk} (hpages : ∀ page ∈ pages, page.User)
    (hgone : gone ⊆ back) (hback : back \ gone ⊆ loose)
    (hfrees : k.alloc.Frees m' live' (held ∪ gone) m'') :
    k.Undone roots m₀ live₀ loose (loose \ (back \ gone)) m'' := by
  have hlive : live' \ (held ∪ gone) = live₀ \ (loose \ (back \ gone)) := by
    have hrest := h.rest_eq hcustody
    ext c
    constructor
    · rintro ⟨hc, hout⟩
      rw [Set.mem_union, not_or] at hout
      by_cases hcback : c ∈ back
      · exact ⟨h.loose_sub (hback ⟨hcback, hout.2⟩), fun hmem => hmem.2 ⟨hcback, hout.2⟩⟩
      · have hc₀ : c ∈ live₀ \ loose := by
          rw [← hrest]
          exact ⟨hc, fun hmem => hmem.elim hcback hout.1⟩
        exact ⟨hc₀.1, fun hmem => hc₀.2 hmem.1⟩
    · rintro ⟨hc₀, hnot⟩
      by_cases hloose : c ∈ loose
      · have hcback : c ∈ back \ gone := by
          by_contra hcon
          exact hnot ⟨hloose, hcon⟩
        refine ⟨hcustody.data_sub hcback.1, ?_⟩
        rintro (hmem | hmem)
        · exact Set.disjoint_left.mp hcustody.apart hcback.1 hmem
        · exact hcback.2 hmem
      · have hc : c ∈ live' \ (back ∪ held) := by
          rw [hrest]
          exact ⟨hc₀, hloose⟩
        exact ⟨hc.1, fun hmem => hmem.elim (fun hheld => hc.2 (Or.inr hheld))
          fun hg => hc.2 (Or.inl (hgone hg))⟩
  have hkept : k.alloc.kept ( live' \ (back ∪ held)) ⊆ k.alloc.kept ( live' \ (held ∪ gone)) := by
    refine Allocator.kept_mono (Set.sdiff_subset_sdiff_right ?_)
    rw [Set.union_comm]
    exact Set.union_subset_union_left held hgone
  have hout : ∀ t, k.Reached m' roots t → t.bytes ⊆ k.alloc.kept ( live' \ (held ∪ gone)) :=
    fun t ht => (h.outside_custody hcustody ht).trans hkept
  have heq : ∀ t, k.Reached m' roots t → Set.EqOn m'' m' t.bytes :=
    fun t ht => hfrees.2.mono (hout t ht)
  have hfetch : ∀ t i, k.Reached m' roots t → ptEntry m'' t i = ptEntry m' t i :=
    fun t i ht => congrFun (ptEntry_congr (heq t ht)) i
  have htables := hcustody.alters.tables.mono (Set.subset_insert n roots)
  refine ⟨?_, fun r hr q => ?_, fun r hr => ?_, fun x hx hxout => ?_⟩
  · rw [← hlive]
    exact htables.transport hfrees.1 hout heq
  · exact (Radix.tableAt_congr_reached hfetch hr q).trans (h.tableAt_custody hcustody hr q)
  · exact (PageTables.spaceOf_congr hr heq).trans (h.spaceOf_custody hcustody hpages hr)
  · refine Eq.trans (hfrees.2 (hkept ?_)) (h.frame_custody hcustody hx hxout)
    rw [h.rest_eq hcustody]
    exact hx

end Given

end Begun

end Machine

end Utopia
