/-
A new address space: an empty user half over the kernel half that all address
spaces share.
-/
import Utopia.Mm.OwnedSpace

namespace Utopia

namespace Machine

/-- The table `n` has no user entries and the kernel entries of `kr`. -/
structure FreshRoot (k : Machine) (m : Memory) (kr n : TableAddr) : Prop where
  user : ∀ i, ¬ KernelIndex i → ptEntry m n i = 0
  kernel : ∀ i, KernelIndex i → ptEntry m n i = ptEntry m kr i

variable {k : Machine} {m : Memory} {live : Set Chunk} {roots : Set TableAddr}
  {kr n t : TableAddr} {p : List (Fin 512)}

namespace FreshRoot

/-- A walk from the new root stays there or is a walk of the kernel. -/
theorem tableAt_cases (h : k.FreshRoot m kr n) (hp : k.tableAt m ptTopLevel n p = some t) :
    (p = [] ∧ t = n) ∨
      (∃ i ∈ p.head?, KernelIndex i) ∧ k.tableAt m ptTopLevel kr p = some t := by
  cases p with
  | nil => exact Or.inl ⟨rfl, by simpa using hp.symm⟩
  | cons i p =>
      right
      by_cases hi : KernelIndex i
      · refine ⟨⟨i, rfl, hi⟩, ?_⟩
        rw [tableAt, ptTopLevel, Radix.tableAt_cons, h.kernel i hi] at hp
        exact hp
      · rw [tableAt, ptTopLevel, Radix.tableAt_cons, h.user i hi,
          child_eq_none_iff.mpr (Or.inl Arch.ptePresent_zero)] at hp
        cases hp

theorem userTables_eq (h : k.FreshRoot m kr n) : k.userTables m n = {n} := by
  ext t
  constructor
  · rintro ⟨p, hprivate, hp⟩
    rcases h.tableAt_cases hp with ⟨-, rfl⟩ | ⟨⟨i, hi, hkernel⟩, -⟩
    · rfl
    · exact absurd hkernel (hprivate i hi)
  · rintro rfl
    exact self_mem_userTables m t

theorem spaceOf_user (h : k.FreshRoot m kr n) {page : Vpn} (hpage : page.User) :
    k.spaceOf m n.addr page = none := by
  have hentry : ptEntry m n (ptIndex page.addr 3) = 0 := h.user _ hpage
  have hends : k.child 3 (ptEntry m n (ptIndex page.addr 3)) = none := by
    rw [hentry]
    exact child_eq_none_iff.mpr (Or.inl Arch.ptePresent_zero)
  rw [spaceOf, translate_eq, ptPath_top, ptTopLevel,
    Radix.stopAt_cons_of_child_eq_none _ hends, Option.bind_some, hentry]
  exact mappingOf_of_not_present Arch.ptePresent_zero _

theorem spaceOf_kernel (h : k.FreshRoot m kr n) {page : Vpn} (hpage : ¬ page.User) :
    k.spaceOf m n.addr page = k.spaceOf m kr.addr page := by
  have hentry := h.kernel _ (not_not.mp hpage)
  rw [spaceOf, spaceOf, translate_eq, translate_eq, ptPath_top]
  rw [ptTopLevel] at hentry ⊢
  cases hc : k.child 3 (ptEntry m kr (ptIndex page.addr 3)) with
  | none =>
      rw [Radix.stopAt_cons_of_child_eq_none _ hc,
        Radix.stopAt_cons_of_child_eq_none _ (hentry ▸ hc), hentry]
  | some c => simp only [Radix.stopAt, hentry, hc]

end FreshRoot

/-- A fresh root keeps the address spaces well formed. -/
theorem PageTables.insertRoot (h : k.PageTables m live roots) (hkr : kr ∈ roots)
    (hfresh : k.FreshRoot m kr n) (hne : n.addr ≠ 0) (hnot : ¬ k.Reached m roots n)
    (hkept : n.bytes ⊆ k.alloc.kept live) : k.PageTables m live (insert n roots) := by
  have hroot : ∀ r ∈ roots, r ≠ n := by
    rintro r hr rfl
    exact hnot ⟨r, hr, [], Radix.tableAt_nil _ _⟩
  refine ⟨h.heap, ?_, ?_, ?_, ?_⟩
  · rintro r (rfl | hr)
    · exact hne
    · exact h.nonnull r hr
  · rintro r hr r' hr' p q t hp hq
    rcases hr with rfl | hr
    · rcases hr' with rfl | hr'
      · rcases hfresh.tableAt_cases hp with ⟨rfl, ht⟩ | ⟨-, hp'⟩
        · rcases hfresh.tableAt_cases hq with ⟨rfl, -⟩ | ⟨-, hq'⟩
          · exact ⟨rfl, Or.inl rfl⟩
          · exact absurd ⟨kr, hkr, q, ht ▸ hq'⟩ hnot
        · rcases hfresh.tableAt_cases hq with ⟨rfl, ht⟩ | ⟨-, hq'⟩
          · exact absurd ⟨kr, hkr, p, ht ▸ hp'⟩ hnot
          · exact ⟨(h.separated kr hkr kr hkr p q t hp' hq').1, Or.inl rfl⟩
      · rcases hfresh.tableAt_cases hp with ⟨rfl, rfl⟩ | ⟨hhead, hp⟩
        · exact absurd ⟨r', hr', q, hq⟩ hnot
        · exact ⟨(h.separated kr hkr r' hr' p q t hp hq).1, Or.inr hhead⟩
    · rcases hr' with rfl | hr'
      · rcases hfresh.tableAt_cases hq with ⟨rfl, rfl⟩ | ⟨hhead, hq⟩
        · exact absurd ⟨r, hr, p, hp⟩ hnot
        · obtain ⟨rfl, -⟩ := h.separated r hr kr hkr p q t hp hq
          exact ⟨rfl, Or.inr hhead⟩
      · exact h.separated r hr r' hr' p q t hp hq
  · rintro t ⟨r, rfl | hr, p, hp⟩
    · rcases hfresh.tableAt_cases hp with ⟨-, rfl⟩ | ⟨-, hp⟩
      · exact hkept
      · exact h.kept t ⟨kr, hkr, p, hp⟩
    · exact h.kept t ⟨r, hr, p, hp⟩
  · rintro r (rfl | hr) p t i hp
    · rcases hfresh.tableAt_cases hp with ⟨rfl, rfl⟩ | ⟨-, hp⟩
      · by_cases hi : KernelIndex i
        · rw [hfresh.kernel i hi]
          exact h.leaves kr hkr [] kr i (Radix.tableAt_nil _ _)
        · intro hpresent
          rw [hfresh.user i hi, Arch.ptePresent_zero] at hpresent
          cases hpresent
      · exact h.leaves kr hkr p t i hp
    · exact h.leaves r hr p t i hp

/-- What `clone_page_table` made of the memory `m`: the new top-level table `n`
in the chunk `c`. -/
structure NewSpace (k : Machine) (m : Memory) (live : Set Chunk) (roots : Set TableAddr)
    (kr n : TableAddr) (c : Chunk) (m' : Memory) : Prop where
  ptr : c.ptr = n.addr
  nonnull : n.addr ≠ 0
  size : 4096 ≤ c.size
  fresh : c ∉ live
  not_root : n ∉ roots
  kept : Set.EqOn m' m (k.alloc.kept live)
  tables : k.PageTables m' (insert c live) (insert n roots)
  root : k.FreshRoot m' kr n

theorem PageTables.clonePageTable_spec (h : k.PageTables m live roots) (hkr : kr ∈ roots)
    (hkernel : kr.addr = k.pageTableL4) :
    k.clonePageTable m = (0, m) ∨
      ∃ n c m', k.clonePageTable m = (n.addr, m') ∧ k.NewSpace m live roots kr n c m' := by
  rw [clonePageTable]
  rcases ptPoolAlloc_spec h.heap with
    hnull | ⟨n, c, m₁, halloc, hptr, hne, hsize, hnew, hheap, hkept, -⟩
  · left
    simp only [hnull, if_true]
  right
  simp only [halloc, if_neg hne]
  generalize hf : (fun i m => if i < 256 then 0 else
    m.read64 (k.pageTableL4 + 8 * BitVec.ofNat 64 i) : Nat → Memory → Word) = f
  have hc := Set.mem_insert c live
  have hbytes : n.bytes ⊆ c.bytes := by
    rw [Chunk.bytes, hptr]
    exact span_subset_span le_rfl (by omega)
  have hdis : Disjoint n.bytes (k.alloc.kept live) :=
    (Allocator.bytes_disjoint_kept hheap (Set.subset_insert c live) hc hnew).mono_left hbytes
  have hfill := Memory.fillWords_eqOn (n := 512) m₁ f n.fits
  obtain ⟨hlive, hsame⟩ := Allocator.written hnew hheap hkept hbytes hfill
  have htables : k.PageTables (m₁.fillWords n.addr 512 f) (insert c live) roots :=
    h.congr hlive (Set.subset_insert c live) fun t ht => hsame.mono (h.kept t ht)
  have hself : n.addr ∈ n.bytes := by
    rw [TableAddr.bytes, mem_span]
    omega
  have hnot : ¬ k.Reached m roots n := fun hn =>
    Set.disjoint_left.mp hdis hself (h.kept n hn hself)
  have hkrReached : k.Reached m roots kr := ⟨kr, hkr, [], Radix.tableAt_nil _ _⟩
  -- the kernel entries are read while the new table is filled
  have hkrEntry : ∀ (i j : Fin 512), ptEntry (m₁.fillWords n.addr i f) kr j = ptEntry m kr j := by
    intro i j
    have hi := i.isLt
    have hfits := n.fits
    refine congrFun (ptEntry_congr ?_) j
    refine Set.EqOn.trans ?_ (hkept.mono (h.kept kr hkrReached))
    refine (Memory.fillWords_eqOn m₁ f (by omega)).mono ?_
    intro x hx hxn
    refine Set.disjoint_left.mp hdis ?_ (h.kept kr hkrReached hx)
    exact span_subset_span le_rfl (by omega) hxn
  have hroot : k.FreshRoot (m₁.fillWords n.addr 512 f) kr n := by
    constructor
    · intro i hi
      rw [ptEntry_fillWords, ← hf]
      exact if_pos (Nat.lt_of_not_le hi)
    · intro i hi
      rw [ptEntry_fillWords, ← hf]
      simp only [if_neg (Nat.not_lt.mpr hi), hf]
      rw [← hkernel, congrFun (ptEntry_congr (hsame.mono (h.kept kr hkrReached))) i]
      exact hkrEntry i i
  have hfetch : ∀ t i, k.Reached m roots t →
      ptEntry (m₁.fillWords n.addr 512 f) t i = ptEntry m t i :=
    fun t i ht => congrFun (ptEntry_congr (hsame.mono (h.kept t ht))) i
  refine ⟨n, c, _, rfl, hptr, hne, hsize, hnew, ?_, hsame, ?_, hroot⟩
  · intro hmem
    exact hnot ⟨n, hmem, [], Radix.tableAt_nil _ _⟩
  · refine htables.insertRoot hkr hroot hne ?_ (hbytes.trans (Allocator.bytes_subset_kept hc))
    rwa [Reached, Radix.reached_congr hfetch]

namespace NewSpace

variable {m' : Memory} {c : Chunk}

/-- A new address space holds its top-level table and nothing else. -/
theorem holding (h : k.NewSpace m live roots kr n c m') :
    k.Holding m' n PageList.empty [] ∅ {c} := by
  have huser := h.root.userTables_eq
  refine ⟨?_, by simp, List.nodup_nil, PageList.holds_empty m', by simp, by simp, by simp,
    by simp, ?_⟩
  · rw [huser]
    rintro t rfl
    exact ⟨c, rfl, h.ptr, h.size⟩
  · rintro d rfl
    exact Or.inr (Or.inr ⟨n, self_mem_userTables m' n, h.ptr⟩)

theorem other (hold : k.PageTables m live roots) (hkr : kr ∈ roots)
    (h : k.NewSpace m live roots kr n c m') :
    k.OtherTablesOutside m' (insert c live) (insert n roots) n {c} := by
  have hrest : insert c live \ {c} = live := by
    rw [Set.insert_sdiff_of_mem _ (Set.mem_singleton c), Set.sdiff_singleton_eq_self h.fresh]
  have hfetch : ∀ t i, k.Reached m roots t → ptEntry m' t i = ptEntry m t i :=
    fun t i ht => congrFun (ptEntry_congr (h.kept.mono (hold.kept t ht))) i
  have hkept : ∀ t, k.Reached m' roots t → t.bytes ⊆ k.alloc.kept live := by
    intro t ht
    rw [Reached, Radix.reached_congr hfetch] at ht
    exact hold.kept t ht
  rw [OtherTablesOutside, h.root.userTables_eq, hrest]
  rintro t ⟨r, rfl | hr, p, hp⟩ hout
  · rcases h.root.tableAt_cases hp with ⟨-, rfl⟩ | ⟨-, hp⟩
    · exact absurd rfl hout
    · exact hkept t ⟨kr, hkr, p, hp⟩
  · exact hkept t ⟨r, hr, p, hp⟩

end NewSpace

end Machine

end Utopia
