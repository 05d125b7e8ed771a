/-
Freeing an address space gives back each of its own tables exactly once and
leaves the kernel half alone.
-/
import Utopia.Mm.PageWalk

namespace Utopia

namespace Machine

variable (k : Machine)

abbrev Below (m : Memory) (level : Nat) (t : TableAddr) : Set TableAddr :=
  Radix.Below k.child (ptEntry m) level t

/-- The tables of `r` outside the shared kernel half. -/
def userTables (m : Memory) (r : TableAddr) : Set TableAddr :=
  { t | ∃ p, (∀ j ∈ p.head?, ¬ KernelIndex j) ∧ k.tableAt m ptTopLevel r p = some t }

/-- Every table of `tables` is the start of a live chunk. -/
def Owned (live : Set Chunk) (tables : Set TableAddr) : Prop :=
  ∀ t ∈ tables, ∃ c ∈ live, c.ptr = t.addr ∧ 4096 ≤ c.size

def tableChunks (live : Set Chunk) (tables : Set TableAddr) : Set Chunk :=
  Allocator.chunksAt live (TableAddr.addr '' tables)

variable {k} {m m' : Memory} {live gone : Set Chunk} {roots tables : Set TableAddr}
  {r t c : TableAddr} {level : Nat}

theorem mem_tableChunks {live : Set Chunk} {d : Chunk} :
    d ∈ tableChunks live tables ↔ d ∈ live ∧ ∃ t ∈ tables, t.addr = d.ptr :=
  Iff.rfl

theorem tableAddr_injective : Function.Injective TableAddr.addr :=
  fun _ _ h => TableAddr.ext h

/-- The bytes of an owned table are kept as long as its chunk is. -/
theorem bytes_kept_of_not_mem {all : Set TableAddr} (howned : Owned live all) (ht : t ∈ all)
    (hout : t ∉ tables) : t.bytes ⊆ k.alloc.kept (live \ tableChunks live tables) := by
  obtain ⟨d, hd, hptr, hsize⟩ := howned t ht
  have hmem : d ∈ live \ tableChunks live tables := by
    refine ⟨hd, ?_⟩
    rintro ⟨-, u, hu, heq⟩
    rw [hptr, tableAddr_injective.eq_iff] at heq
    exact hout (heq ▸ hu)
  refine Set.Subset.trans ?_ (Allocator.bytes_subset_kept hmem)
  rw [Chunk.bytes, hptr]
  exact span_subset_span le_rfl (by omega)

/-- Tables whose chunks are not among `gone` keep their entries. -/
theorem owned_entries {all : Set TableAddr} (howned : Owned live all)
    (hfrees : k.alloc.Frees m live (tableChunks live tables) m') (ht : t ∈ all)
    (hout : t ∉ tables) : ptEntry m' t = ptEntry m t :=
  ptEntry_congr (hfrees.2.mono (bytes_kept_of_not_mem howned ht hout))

/-- What `free_table_level` does to the tables below `c`. -/
def FreesBelow (k : Machine) (level : Nat) (freeChild : Memory → Word → Memory) : Prop :=
  ∀ m live c, k.alloc.Live m live → Radix.Tree k.child (ptEntry m) level c →
    Owned live (k.Below m level c) →
    k.alloc.Frees m live (tableChunks live (k.Below m level c)) (freeChild m c.addr)

/-- The tables below the entries `is` of the table `t`. -/
def BelowEntries (k : Machine) (m : Memory) (level : Nat) (t : TableAddr)
    (is : List (Fin 512)) : Set TableAddr :=
  { u | ∃ i ∈ is, ∃ c, k.child (level + 1) (ptEntry m t i) = some c ∧ u ∈ k.Below m level c }

/-- The tables below the entries `is` of `t` form trees that are apart, without `t` itself. -/
structure EntriesTree (k : Machine) (m : Memory) (level : Nat) (t : TableAddr)
    (is : List (Fin 512)) : Prop where
  tree : ∀ i ∈ is, ∀ c, k.child (level + 1) (ptEntry m t i) = some c →
    Radix.Tree k.child (ptEntry m) level c ∧ t ∉ k.Below m level c
  apart : ∀ i ∈ is, ∀ j ∈ is, i ≠ j → ∀ c d, k.child (level + 1) (ptEntry m t i) = some c →
    k.child (level + 1) (ptEntry m t j) = some d → Disjoint (k.Below m level c) (k.Below m level d)

theorem entriesTree_of_tree (h : Radix.Tree k.child (ptEntry m) (level + 1) t)
    (is : List (Fin 512)) : k.EntriesTree m level t is :=
  ⟨fun _ _ _ hc => ⟨h.of_child hc, h.not_mem_below_child hc⟩,
    fun _ _ _ _ hne _ _ hc hd => h.disjoint_below hc hd hne⟩

theorem EntriesTree.mono {is is' : List (Fin 512)} (h : k.EntriesTree m level t is')
    (hsub : is ⊆ is') : k.EntriesTree m level t is :=
  ⟨fun i hi => h.tree i (hsub hi), fun i hi j hj => h.apart i (hsub hi) j (hsub hj)⟩

theorem EntriesTree.self_notMem {is : List (Fin 512)} (h : k.EntriesTree m level t is) :
    t ∉ k.BelowEntries m level t is := by
  rintro ⟨j, hj, c, hc, hmem⟩
  exact (h.tree j hj c hc).2 hmem

/-- An entry that leads to no table is passed over. -/
theorem freeEntry_of_none {freeChild : Memory → Word → Memory} {m₁ : Memory} {i : Fin 512}
    (hentry : m₁.read64 (entryAddr t.addr i) = ptEntry m t i)
    (hc : k.child (level + 1) (ptEntry m t i) = none) :
    k.freeEntry freeChild (level + 1) t.addr m₁ i = m₁ := by
  rw [freeEntry]
  simp only [hentry]
  rcases child_eq_none_iff.mp hc with habsent | hleaf
  · simp [habsent]
  · simp [hleaf]

/-- The table that an entry leads to is freed. -/
theorem freeEntry_of_some {freeChild : Memory → Word → Memory} {m₁ : Memory} {i : Fin 512}
    (hentry : m₁.read64 (entryAddr t.addr i) = ptEntry m t i)
    (hc : k.child (level + 1) (ptEntry m t i) = some c) :
    k.freeEntry freeChild (level + 1) t.addr m₁ i = freeChild m₁ c.addr := by
  have hpresent : k.arch.ptePresent (ptEntry m t i) ≠ false ∧
      k.arch.pteIsLeaf (ptEntry m t i) (level + 1) ≠ true := by
    rw [ne_eq, ne_eq, ← not_or, ← child_eq_none_iff, hc]
    exact fun h => by cases h
  have haddr : k.physToVirt (k.arch.ptePhys (ptEntry m t i)) = c.addr := by
    rw [child, if_pos ⟨by simpa using hpresent.1, hpresent.2⟩, Option.some.injEq] at hc
    exact congrArg TableAddr.addr hc
  rw [freeEntry]
  simp only [hentry]
  rw [if_neg hpresent.1, if_neg hpresent.2, haddr]

/-- The tables below one more entry. -/
theorem belowEntries_append (m : Memory) (t : TableAddr) (is : List (Fin 512)) (i : Fin 512) :
    k.BelowEntries m level t (is ++ [i]) = k.BelowEntries m level t is ∪
      { u | ∃ c, k.child (level + 1) (ptEntry m t i) = some c ∧ u ∈ k.Below m level c } := by
  ext u
  constructor
  · rintro ⟨j, hj, hu⟩
    rcases List.mem_append.mp hj with hj | hj
    · exact Or.inl ⟨j, hj, hu⟩
    · rw [List.mem_singleton.mp hj] at hu
      exact Or.inr hu
  · rintro (⟨j, hj, hu⟩ | hu)
    · exact ⟨j, List.mem_append_left _ hj, hu⟩
    · exact ⟨i, by simp, hu⟩

/-- The tables below a further entry are apart from those before. -/
theorem EntriesTree.below_notMem {is : List (Fin 512)} {i : Fin 512} {u : TableAddr}
    (h : k.EntriesTree m level t (is ++ [i])) (hnot : i ∉ is)
    (hc : k.child (level + 1) (ptEntry m t i) = some c) (hu : u ∈ k.Below m level c) :
    u ∉ k.BelowEntries m level t is := by
  rintro ⟨j, hj, d, hd, hud⟩
  have hne : j ≠ i := by
    rintro rfl
    exact hnot hj
  exact Set.disjoint_left.mp (h.apart j (List.mem_append_left _ hj) i (by simp) hne d c hd hc)
    hud hu

theorem freeEntries_spec {freeChild : Memory → Word → Memory} {is : List (Fin 512)}
    (hchild : k.FreesBelow level freeChild) (hlive : k.alloc.Live m live)
    (htree : k.EntriesTree m level t is) (ht : Owned live {t})
    (howned : Owned live (k.BelowEntries m level t is)) (hnodup : is.Nodup) :
    k.alloc.Frees m live (tableChunks live (k.BelowEntries m level t is))
      (is.foldl (k.freeEntry freeChild (level + 1) t.addr) m) := by
  induction is using List.reverseRecOn with
  | nil =>
      refine (Allocator.frees_refl hlive).congr_gone ?_
      ext d
      simp [tableChunks, Allocator.chunksAt, BelowEntries]
  | append_singleton is i ih =>
      rw [belowEntries_append] at howned ⊢
      have hnot : i ∉ is := fun hmem =>
        (List.nodup_append.mp hnodup).2.2 i hmem i (List.mem_singleton_self i) rfl
      have htree' := htree.mono (List.subset_append_left is [i])
      have hdone := ih htree' (fun u hu => howned u (Or.inl hu)) (List.nodup_append.mp hnodup).1
      rw [List.foldl_append, List.foldl_cons, List.foldl_nil]
      generalize is.foldl (k.freeEntry freeChild (level + 1) t.addr) m = m₁ at hdone ⊢
      have hentry : m₁.read64 (entryAddr t.addr i) = ptEntry m t i :=
        congrFun (owned_entries ht hdone rfl htree'.self_notMem) i
      cases hc : k.child (level + 1) (ptEntry m t i) with
      | none =>
          rw [freeEntry_of_none hentry hc]
          refine hdone.congr_gone ?_
          simp
      | some c =>
          rw [freeEntry_of_some hentry hc]
          have hbelow : ∀ u ∈ k.Below m level c, u ∈ k.BelowEntries m level t is ∪
              { u | ∃ d, some c = some d ∧ u ∈ k.Below m level d } :=
            fun u hu => Or.inr ⟨c, rfl, hu⟩
          have hapart : ∀ u ∈ k.Below m level c, u ∉ k.BelowEntries m level t is :=
            fun u hu => htree.below_notMem hnot hc hu
          rw [hc] at howned
          have hfetch : ∀ u ∈ k.Below m level c, ∀ j, ptEntry m₁ u j = ptEntry m u j :=
            fun u hu j => congrFun (owned_entries howned hdone (hbelow u hu) (hapart u hu)) j
          have hbelow₁ : k.Below m₁ level c = k.Below m level c := Radix.below_congr hfetch
          have hrun := hchild m₁ _ c hdone.1
            ((htree.tree i (by simp) c hc).1.congr hfetch) (by
            rw [hbelow₁]
            intro u hu
            obtain ⟨d, hd, hptr, hsize⟩ := howned u (hbelow u hu)
            refine ⟨d, ⟨hd, ?_⟩, hptr, hsize⟩
            rintro ⟨-, v, hv, heq⟩
            rw [hptr, tableAddr_injective.eq_iff] at heq
            exact hapart u hu (heq ▸ hv))
          rw [hbelow₁] at hrun
          refine (hdone.trans hrun).congr_gone ?_
          ext d
          simp only [Set.mem_inter_iff, Set.mem_union, mem_tableChunks]
          constructor
          · rintro ⟨hd, ⟨-, u, hu, heq⟩ | ⟨-, u, hu, heq⟩⟩
            · exact ⟨hd, hd, u, Or.inl hu, heq⟩
            · exact ⟨hd, hd, u, hbelow u hu, heq⟩
          · rintro ⟨hd, -, u, hu | ⟨e, he, hu⟩, heq⟩
            · exact ⟨hd, Or.inl ⟨hd, u, hu, heq⟩⟩
            · obtain rfl := Option.some.inj he
              refine ⟨hd, Or.inr ⟨⟨hd, ?_⟩, u, hu, heq⟩⟩
              rintro ⟨-, v, hv, heq'⟩
              rw [← heq, tableAddr_injective.eq_iff] at heq'
              exact hapart u hu (heq' ▸ hv)

/-- Freeing a table after everything below its entries. -/
theorem frees_table {is : List (Fin 512)} {m₁ : Memory}
    (htree : k.EntriesTree m level t is) (ht : Owned live {t})
    (hdone : k.alloc.Frees m live (tableChunks live (k.BelowEntries m level t is)) m₁)
    (hlive : k.alloc.Live m live) :
    k.alloc.Frees m live (tableChunks live (insert t (k.BelowEntries m level t is)))
      (k.alloc.free m₁ t.addr) := by
  obtain ⟨d, hd, hptr, hsize⟩ := ht t rfl
  have hself := htree.self_notMem
  have hstill : d ∈ live \ tableChunks live (k.BelowEntries m level t is) := by
    refine ⟨hd, ?_⟩
    rintro ⟨-, u, hu, heq⟩
    rw [hptr, tableAddr_injective.eq_iff] at heq
    exact hself (heq ▸ hu)
  rw [← hptr]
  refine (hdone.trans (Allocator.frees_free hdone.1 hstill)).congr_gone ?_
  ext e
  simp only [Set.mem_inter_iff, Set.mem_union, mem_tableChunks, Set.mem_singleton_iff,
    Set.mem_insert_iff]
  constructor
  · rintro ⟨he, ⟨-, u, hu, heq⟩ | rfl⟩
    · exact ⟨he, he, u, Or.inr hu, heq⟩
    · exact ⟨he, he, t, Or.inl rfl, hptr.symm⟩
  · rintro ⟨he, -, u, rfl | hu, heq⟩
    · exact ⟨he, Or.inr (k.alloc.ptr_injOn hlive he hd (heq.symm.trans hptr.symm))⟩
    · exact ⟨he, Or.inl ⟨he, u, hu, heq⟩⟩

theorem below_eq_insert (m : Memory) (level : Nat) (t : TableAddr) :
    k.Below m (level + 1) t = insert t (k.BelowEntries m level t (List.finRange 512)) := by
  ext u
  rw [Radix.mem_below_succ, Set.mem_insert_iff]
  simp only [BelowEntries, List.mem_finRange, true_and, Set.mem_ofPred_eq]

theorem freeTableLevel_spec (level : Nat) : k.FreesBelow level (k.freeTableLevel level) := by
  induction level with
  | zero =>
      intro m live c hlive _ howned
      have hself : k.Below m 0 c = {c} := Radix.below_zero c
      obtain ⟨d, hd, hptr, -⟩ := howned c (by rw [hself]; rfl)
      rw [freeTableLevel, hself, ← hptr]
      refine (Allocator.frees_free hlive hd).congr_gone ?_
      ext e
      simp only [Set.mem_inter_iff, mem_tableChunks, Set.mem_singleton_iff]
      constructor
      · rintro ⟨he, rfl⟩
        exact ⟨he, he, c, rfl, hptr.symm⟩
      · rintro ⟨he, -, u, rfl, heq⟩
        exact ⟨he, k.alloc.ptr_injOn hlive he hd (heq.symm.trans hptr.symm)⟩
  | succ level ih =>
      intro m live c hlive htree howned
      rw [below_eq_insert] at howned ⊢
      have ht : Owned live {c} := by
        rintro u rfl
        exact howned u (Set.mem_insert u _)
      have hentries := entriesTree_of_tree htree (List.finRange 512)
      exact frees_table hentries ht (freeEntries_spec ih hlive hentries ht
        (fun u hu => howned u (Set.mem_insert_of_mem c hu)) (List.nodup_finRange 512)) hlive

/-! ### A whole address space -/

theorem mem_userEntries {i : Fin 512} : i ∈ userEntries ↔ ¬ KernelIndex i := by
  simp [userEntries, KernelIndex]

theorem userTables_eq_insert (m : Memory) (r : TableAddr) :
    k.userTables m r = insert r (k.BelowEntries m (ptTopLevel - 1) r userEntries) := by
  ext u
  constructor
  · rintro ⟨p, hprivate, hp⟩
    cases p with
    | nil => exact Or.inl (by simpa using hp.symm)
    | cons i p =>
        rw [tableAt, ptTopLevel, Radix.tableAt_cons, Option.bind_eq_some_iff] at hp
        obtain ⟨c, hc, hrest⟩ := hp
        exact Or.inr ⟨i, mem_userEntries.mpr (hprivate i rfl), c, hc, p, hrest⟩
  · rintro (rfl | ⟨i, hi, c, hc, p, hp⟩)
    · exact ⟨[], by simp, Radix.tableAt_nil _ _⟩
    · refine ⟨i :: p, ?_, ?_⟩
      · rintro j hj
        obtain rfl := Option.mem_some_iff.mp hj
        exact mem_userEntries.mp hi
      · change (k.child (ptTopLevel - 1 + 1) (ptEntry m r i)).bind _ = some u
        rw [hc]
        exact hp

theorem PageTables.tree (h : k.PageTables m live roots) (hr : r ∈ roots) :
    Radix.Tree k.child (ptEntry m) ptTopLevel r :=
  fun p q u hp hq => (h.separated r hr r hr p q u hp hq).1

/-- The user half of the address space is a tree of tables that were allocated, and the kernel
half has none of them. -/
structure PrivateHalf (k : Machine) (m : Memory) (live : Set Chunk) (r : TableAddr) : Prop where
  heap : k.alloc.Live m live
  nonnull : r.addr ≠ 0
  tree : k.EntriesTree m (ptTopLevel - 1) r userEntries
  owned : Owned live (k.userTables m r)
  kernel : ∀ p t, (∃ j ∈ p.head?, KernelIndex j) → k.tableAt m ptTopLevel r p = some t →
    t.bytes ⊆ k.alloc.kept (live \ tableChunks live (k.userTables m r))

/-- `free_page_table` gives back the tables of the user half and the top-level
table. -/
theorem freePageTable_frees (hlive : k.alloc.Live m live) (hne : r.addr ≠ 0)
    (htree : k.EntriesTree m (ptTopLevel - 1) r userEntries)
    (howned : Owned live (k.userTables m r)) :
    k.alloc.Frees m live (tableChunks live (k.userTables m r)) (k.freePageTable m r.addr) := by
  have ht : Owned live {r} := by
    rintro u rfl
    refine howned u ?_
    rw [userTables_eq_insert]
    exact Set.mem_insert u _
  rw [userTables_eq_insert] at howned ⊢
  rw [freePageTable, if_neg hne]
  exact frees_table htree ht (freeEntries_spec (freeTableLevel_spec _) hlive htree ht
    (fun u hu => howned u (Set.mem_insert_of_mem r hu)) ((List.nodup_finRange 512).filter _)) hlive

theorem PageTables.freePageTable_spec (h : k.PageTables m live roots) (hr : r ∈ roots)
    (howned : Owned live (k.userTables m r)) :
    k.alloc.Frees m live (tableChunks live (k.userTables m r)) (k.freePageTable m r.addr) :=
  freePageTable_frees h.heap (h.nonnull r hr) (entriesTree_of_tree (h.tree hr) userEntries) howned

end Machine

end Utopia
