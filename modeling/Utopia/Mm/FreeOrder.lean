/-
`free_page_table` as a sequence of calls of `free`: one for each table of the user half and
one for the top-level table.
-/
import Utopia.Mm.Tenant

namespace Utopia

namespace Machine

/-- The tables are freed one by one, each of them once. -/
def FreesEach (k : Machine) (m : Memory) (tables : Set TableAddr) (m' : Memory) : Prop :=
  ∃ order : List TableAddr, order.Nodup ∧ (∀ t, t ∈ order ↔ t ∈ tables) ∧
    m' = order.foldl (fun m t => k.alloc.free m t.addr) m

variable {k : Machine} {m m' m'' : Memory} {live mine array : Set Chunk}
  {roots tables tables' : Set TableAddr} {r t : TableAddr} {level : Nat} {owned : PageList}
  {ps : List Word}

theorem FreesEach.refl (m : Memory) : k.FreesEach m ∅ m := ⟨[], List.nodup_nil, by simp, rfl⟩

theorem FreesEach.trans (h : k.FreesEach m tables m') (h' : k.FreesEach m' tables' m'')
    (hapart : ∀ t ∈ tables', t ∉ tables) : k.FreesEach m (tables ∪ tables') m'' := by
  obtain ⟨order, hnodup, hmem, rfl⟩ := h
  obtain ⟨order', hnodup', hmem', rfl⟩ := h'
  refine ⟨order ++ order', ?_, fun t => ?_, ?_⟩
  · refine List.nodup_append.mpr ⟨hnodup, hnodup', fun t ht u hu heq => ?_⟩
    subst heq
    exact hapart t ((hmem' t).mp hu) ((hmem t).mp ht)
  · rw [List.mem_append, hmem, hmem', Set.mem_union]
  · rw [List.foldl_append]

/-- One more table. -/
theorem FreesEach.free (h : k.FreesEach m tables m') (hnot : t ∉ tables) :
    k.FreesEach m (insert t tables) (k.alloc.free m' t.addr) := by
  have hlast : k.FreesEach m' {t} (k.alloc.free m' t.addr) :=
    ⟨[t], List.nodup_singleton t, by simp, rfl⟩
  rw [← Set.union_singleton]
  refine h.trans hlast ?_
  rintro u rfl
  exact hnot

theorem FreesEach.congr (h : k.FreesEach m tables m') (heq : tables = tables') :
    k.FreesEach m tables' m' :=
  heq ▸ h

theorem freeEntries_each {freeChild : Memory → Word → Memory} {is : List (Fin 512)}
    (hchild : k.FreesBelow level freeChild)
    (heach : ∀ m live c, k.alloc.Live m live → Radix.Tree k.child (ptEntry m) level c →
      Owned live (k.Below m level c) → k.FreesEach m (k.Below m level c) (freeChild m c.addr))
    (hlive : k.alloc.Live m live) (htree : k.EntriesTree m level t is) (ht : Owned live {t})
    (howned : Owned live (k.BelowEntries m level t is)) (hnodup : is.Nodup) :
    k.FreesEach m (k.BelowEntries m level t is)
      (is.foldl (k.freeEntry freeChild (level + 1) t.addr) m) := by
  induction is using List.reverseRecOn with
  | nil =>
      refine (FreesEach.refl m).congr ?_
      ext u
      simp [BelowEntries]
  | append_singleton is i ih =>
      rw [belowEntries_append] at howned ⊢
      have hnot : i ∉ is := fun hmem =>
        (List.nodup_append.mp hnodup).2.2 i hmem i (List.mem_singleton_self i) rfl
      have htree' := htree.mono (List.subset_append_left is [i])
      have howned' : Owned live (k.BelowEntries m level t is) := fun u hu => howned u (Or.inl hu)
      have hdone := freeEntries_spec hchild hlive htree' ht howned' (List.nodup_append.mp hnodup).1
      have hprev := ih htree' howned' (List.nodup_append.mp hnodup).1
      rw [List.foldl_append, List.foldl_cons, List.foldl_nil]
      generalize is.foldl (k.freeEntry freeChild (level + 1) t.addr) m = m₁ at hdone hprev ⊢
      have hentry : m₁.read64 (entryAddr t.addr i) = ptEntry m t i :=
        congrFun (owned_entries ht hdone rfl htree'.self_notMem) i
      cases hc : k.child (level + 1) (ptEntry m t i) with
      | none =>
          rw [freeEntry_of_none hentry hc]
          refine hprev.congr ?_
          simp
      | some c =>
          rw [freeEntry_of_some hentry hc]
          have hapart : ∀ u ∈ k.Below m level c, u ∉ k.BelowEntries m level t is :=
            fun u hu => htree.below_notMem hnot hc hu
          rw [hc] at howned
          have hbelow : ∀ u ∈ k.Below m level c, u ∈ k.BelowEntries m level t is ∪
              { u | ∃ d, some c = some d ∧ u ∈ k.Below m level d } :=
            fun u hu => Or.inr ⟨c, rfl, hu⟩
          have hfetch : ∀ u ∈ k.Below m level c, ∀ j, ptEntry m₁ u j = ptEntry m u j :=
            fun u hu j => congrFun (owned_entries howned hdone (hbelow u hu) (hapart u hu)) j
          have hbelow₁ : k.Below m₁ level c = k.Below m level c := Radix.below_congr hfetch
          have hrun := heach m₁ _ c hdone.1
            ((htree.tree i (by simp) c hc).1.congr hfetch) (by
            rw [hbelow₁]
            intro u hu
            obtain ⟨d, hd, hptr, hsize⟩ := howned u (hbelow u hu)
            refine ⟨d, ⟨hd, ?_⟩, hptr, hsize⟩
            rintro ⟨-, v, hv, heq⟩
            rw [hptr, tableAddr_injective.eq_iff] at heq
            exact hapart u hu (heq ▸ hv))
          rw [hbelow₁] at hrun
          refine (hprev.trans hrun hapart).congr ?_
          simp

theorem freeTableLevel_each (level : Nat) (m : Memory) (live : Set Chunk) (c : TableAddr)
    (hlive : k.alloc.Live m live) (htree : Radix.Tree k.child (ptEntry m) level c)
    (howned : Owned live (k.Below m level c)) :
    k.FreesEach m (k.Below m level c) (k.freeTableLevel level m c.addr) := by
  induction level generalizing m live c with
  | zero =>
      rw [freeTableLevel, show k.Below m 0 c = {c} from Radix.below_zero c,
        ← LawfulSingleton.insert_empty_eq]
      exact (FreesEach.refl m).free (Set.notMem_empty c)
  | succ level ih =>
      rw [below_eq_insert] at howned ⊢
      have ht : Owned live {c} := by
        rintro u rfl
        exact howned u (Set.mem_insert u _)
      have hentries := entriesTree_of_tree htree (List.finRange 512)
      rw [freeTableLevel]
      exact (freeEntries_each (freeTableLevel_spec level) ih hlive hentries ht
        (fun u hu => howned u (Set.mem_insert_of_mem c hu)) (List.nodup_finRange 512)).free
          hentries.self_notMem

/-- What `free_page_table` does to an address space of its own. -/
structure FreesPrivate (k : Machine) (m : Memory) (live : Set Chunk) (r : TableAddr)
    (m' : Memory) : Prop where
  each : k.FreesEach m (k.userTables m r) m'
  owned : ∀ t ∈ k.userTables m r, ∃ c ∈ live, c.ptr = t.addr
  frees : k.alloc.Frees m live (tableChunks live (k.userTables m r)) m'
  kernel : ∀ p t, (∃ j ∈ p.head?, KernelIndex j) → k.tableAt m ptTopLevel r p = some t →
    t ∉ k.userTables m r ∧ Set.EqOn m' m t.bytes

/-- `free_page_table` frees the top-level table and the tables of the user half, each once,
and leaves every other chunk and the tables of the kernel half as they are. -/
theorem freePageTable_freesPrivate (h : k.PrivateHalf m live r) :
    k.FreesPrivate m live r (k.freePageTable m r.addr) := by
  have hfrees := freePageTable_frees h.heap h.nonnull h.tree h.owned
  have howned := h.owned
  refine ⟨?_, fun t ht => ?_, hfrees, fun p t hp ht => ⟨?_, hfrees.2.mono (h.kernel p t hp ht)⟩⟩
  · rw [userTables_eq_insert] at howned ⊢
    have hr : Owned live {r} := by
      rintro u rfl
      exact howned u (Set.mem_insert u _)
    rw [freePageTable, if_neg h.nonnull]
    exact (freeEntries_each (freeTableLevel_spec _) (freeTableLevel_each _) h.heap h.tree hr
      (fun u hu => howned u (Set.mem_insert_of_mem r hu))
      ((List.nodup_finRange 512).filter _)).free h.tree.self_notMem
  · obtain ⟨c, hc, hptr, -⟩ := h.owned t ht
    exact ⟨c, hc, hptr⟩
  · intro hmem
    obtain ⟨c, hc, hptr, hsize⟩ := h.owned t hmem
    have hself : t.addr ∈ t.bytes := ⟨le_rfl, by omega⟩
    have hbytes : t.addr ∈ c.bytes := by
      rw [← hptr]
      exact ⟨le_rfl, by omega⟩
    have hgone : c ∈ tableChunks live (k.userTables m r) := ⟨hc, t, hmem, hptr.symm⟩
    exact Set.disjoint_left.mp (Allocator.bytes_disjoint_kept_diff h.heap hc hgone) hbytes
      (h.kernel p t hp ht hself)

/-- The address space of every tenant is one. -/
theorem Tenant.privateHalf (h : k.Tenant roots r m live owned ps array mine)
    (htables : k.PageTables m live roots) (hr : r ∈ roots) : k.PrivateHalf m live r := by
  have howned : Owned live (k.userTables m r) := by
    intro t ht
    obtain ⟨c, hc, hptr, hsize⟩ := h.holding.tables t ht
    exact ⟨c, h.sub hc, hptr, hsize⟩
  refine ⟨htables.heap, htables.nonnull r hr, entriesTree_of_tree (htables.tree hr) userEntries,
    howned, ?_⟩
  rintro p t ⟨j, hj, hkernel⟩ ht
  have hnot : t ∉ k.userTables m r := by
    rintro ⟨q, hprivate, hq⟩
    obtain rfl := htables.tree hr p q t ht hq
    exact hprivate j hj hkernel
  have hout := h.other t ⟨r, hr, p, ht⟩ hnot
  refine hout.trans (Allocator.kept_mono (Set.sdiff_subset_sdiff_right ?_))
  rintro c ⟨hc, u, hu, heq⟩
  obtain ⟨d, hd, hptr, -⟩ := h.holding.tables u hu
  rwa [← k.alloc.ptr_injOn htables.heap (h.sub hd) hc (hptr.trans heq)]

end Machine

/-- The sample address space with a page at 0x400000, below three tables more. -/
def sampleWithPage : Memory :=
  ((sampleMachine .x86_64).mapPage4k sampleSpace.2 sampleTable.addr 0x400000 0x5000 userData).2

theorem freePageTable_freesPrivate_sample : ∃ live,
    (∀ p ∈ ([[], [0], [0, 0], [0, 0, 2]] : List (List (Fin 512))),
      ∃ t ∈ (sampleMachine .x86_64).userTables sampleWithPage sampleTable,
        (sampleMachine .x86_64).tableAt sampleWithPage ptTopLevel sampleTable p = some t) ∧
      (sampleMachine .x86_64).FreesPrivate sampleWithPage live sampleTable
        ((sampleMachine .x86_64).freePageTable sampleWithPage sampleTable.addr) := by
  obtain ⟨c, htables, htenant⟩ := sampleTenant
  have hroot : sampleTable ∈ ({sampleTable, sampleRoot} : Set TableAddr) := Set.mem_insert _ _
  have htop : ptIndex 0x400000 ptTopLevel ∈ (Set.univ : Set (Fin 512)) := trivial
  obtain ⟨live, hextends, -⟩ := htables.mapPage4k_spec hroot htop 0x5000 userData
  have hmapped := htenant.extend htables hextends hroot
  refine ⟨live, ?_, Machine.freePageTable_freesPrivate
    (hmapped.privateHalf hextends.tables hroot)⟩
  have hprivate : ∀ p ∈ ([[], [0], [0, 0], [0, 0, 2]] : List (List (Fin 512))),
      ∀ j ∈ p.head?, ¬ Machine.KernelIndex j := by
    simp [Machine.KernelIndex]
  have hsome : ∀ p ∈ ([[], [0], [0, 0], [0, 0, 2]] : List (List (Fin 512))),
      ((sampleMachine .x86_64).tableAt sampleWithPage ptTopLevel sampleTable p).isSome := by
    decide
  intro p hp
  obtain ⟨t, ht⟩ := Option.isSome_iff_exists.mp (hsome p hp)
  exact ⟨t, ⟨p, hprivate p hp, ht⟩, ht⟩

end Utopia
