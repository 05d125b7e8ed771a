/-
The walk down the page tables: splitting leaves and creating tables on the way
changes no translation in any address space.
-/
import Utopia.Mm.PageTables

namespace Utopia

@[simp]
theorem ptPath_length (va : Word) (level : Nat) : (ptPath va level).length = level + 1 := by
  induction level with
  | zero => rfl
  | succ level ih => simp [ptPath, ih]

/-- What is left of a path behind a proper prefix is the path from there on. -/
theorem ptPath_append {va : Word} {level : Nat} {p q : List (Fin 512)}
    (h : ptPath va level = p ++ q) (hlen : p.length ≤ level) :
    q = ptPath va (level - p.length) := by
  induction level generalizing p with
  | zero =>
      obtain rfl : p = [] := by simpa using hlen
      simpa using h.symm
  | succ level ih =>
      cases p with
      | nil => simpa using h.symm
      | cons j p =>
          rw [ptPath, List.cons_append, List.cons.injEq] at h
          simpa using ih h.2 (by simpa using hlen)

namespace Machine

variable {k : Machine} {m m₁ m' m'' : Memory} {live live' live'' : Set Chunk}
  {roots : Set TableAddr} {r t u : TableAddr} {c : Chunk} {i : Fin 512} {e virt : Word}
  {p : List (Fin 512)} {n : Nat} {tops : Set (Fin 512)}

/-! ### Fresh tables -/

theorem isFrame_hhdmVirtToPhys (h : k.alloc.Live m live) (hc : c ∈ live)
    (hptr : c.ptr = u.addr) (hsize : 4096 ≤ c.size) :
    k.arch.IsFrame (k.hhdmVirtToPhys u.addr) := by
  constructor
  · have haligned := u.aligned
    have hoffset := k.hhdm_aligned
    rw [hhdmVirtToPhys, BitVec.toNat_sub]
    omega
  · apply k.arena_frames
    apply k.alloc.bytes_subset h hc
    rw [Chunk.bytes, hptr, mem_span]
    omega

theorem childTable_pteTable (hframe : k.arch.IsFrame (k.hhdmVirtToPhys u.addr)) :
    k.childTable (k.arch.pteTable (k.hhdmVirtToPhys u.addr)) = u := by
  apply TableAddr.ext
  change k.hhdmOffset + k.arch.ptePhys (k.arch.pteTable (k.hhdmVirtToPhys u.addr)) = u.addr
  rw [Arch.ptePhys_pteTable hframe, hhdmVirtToPhys, BitVec.add_comm, BitVec.sub_add_cancel]

theorem child_pteTable (hframe : k.arch.IsFrame (k.hhdmVirtToPhys u.addr)) (n : Nat) :
    k.child (n + 1) (k.arch.pteTable (k.hhdmVirtToPhys u.addr)) = some u := by
  simp [child, childTable_pteTable hframe]

/-- `pt_pool_alloc` returns null and does nothing, or a new zeroed page. -/
theorem ptPoolAlloc_spec (h : k.alloc.Live m live) :
    k.ptPoolAlloc m = (0, m) ∨
      ∃ (u : TableAddr) (c : Chunk) (m' : Memory), k.ptPoolAlloc m = (u.addr, m') ∧
        c.ptr = u.addr ∧ u.addr ≠ 0 ∧ 4096 ≤ c.size ∧ c ∉ live ∧
        k.alloc.Live m' (insert c live) ∧ Set.EqOn m' m (k.alloc.kept live) ∧
        ∀ x ∈ u.bytes, m' x = 0 := by
  obtain ⟨haligned, hgranted⟩ := k.alloc.pageAlloc_spec h (show 4096 * (1 : Word).toNat + 8192 ≤ 2 ^ 64 by decide)
  rcases hgranted with hnull | ⟨c, m₁, hresult, hsize, hnew, hlive, hkept⟩
  · left
    rw [ptPoolAlloc, hnull]
    rfl
  · right
    rw [hresult] at haligned
    have hne := k.alloc.ptr_ne_zero hlive (Set.mem_insert c live)
    have hsize' : 4096 ≤ c.size := hsize
    have hfits := TableAddr.fits ⟨c.ptr, haligned⟩
    have hfill := Memory.fill_eqOn m₁ 0 hfits
    have hbytes : span c.ptr 4096 ⊆ c.bytes := span_subset_span le_rfl (by omega)
    obtain ⟨hlive', hkept'⟩ := Allocator.written hnew hlive hkept hbytes hfill
    refine ⟨⟨c.ptr, haligned⟩, c, m₁.fill c.ptr 4096 0, ?_, rfl, hne, hsize', hnew, hlive', hkept',
      fun x hx => Memory.fill_of_mem_span _ _ hfits hx⟩
    simp only [ptPoolAlloc, hresult, if_neg hne]

/-! ### Storing one entry -/

theorem PageTables.store (h : k.PageTables m live roots) (hr : r ∈ roots)
    (ht : k.tableAt m ptTopLevel r p = some t)
    (hnew : Radix.EndsOrFresh k.child (ptEntry m) ptTopLevel roots
      (ptTopLevel - p.length) e)
    (hleaf : k.LeafFits (ptTopLevel - p.length) e)
    (hchild : ∀ c, k.child (ptTopLevel - p.length) e = some c →
      c.bytes ⊆ k.alloc.kept live ∧
        ∀ j, k.LeafFits (ptTopLevel - p.length - 1) (ptEntry m c j)) :
    k.PageTables (m.write64 (entryAddr t.addr i) e) live roots := by
  have hreached : k.Reached m roots t := ⟨r, hr, p, ht⟩
  have hslot : (entryAddr t.addr i).toNat + 8 ≤ 2 ^ 64 := by
    have haddr := entryAddr_toNat t i
    have hfits := t.fits
    have hi := i.isLt
    omega
  refine ⟨?_, h.nonnull, ?_, ?_, ?_⟩
  · exact h.heap.of_eqOn_compl ((entry_subset t i).trans (h.kept t hreached))
      (Memory.write64_eqOn m e hslot)
  · rw [ptEntry_write64]
    exact h.separated.setEntry hr ht hnew
  · rintro u ⟨r', hr', q, hq⟩
    rw [ptEntry_write64] at hq
    rcases Radix.tableAt_setEntry_cases h.separated hr ht hnew hr' hq with
      hold | ⟨-, -, hc⟩
    · exact h.kept u ⟨r', hr', q, hold⟩
    · exact (hchild u hc).1
  · intro r' hr' q u j hq
    rw [tableAt, ptEntry_write64] at hq
    rw [ptEntry_write64]
    rcases Radix.tableAt_setEntry_cases h.separated hr ht hnew hr' hq with
      hold | ⟨-, rfl, hc⟩
    · by_cases heq : u = t ∧ j = i
      · obtain ⟨rfl, rfl⟩ := heq
        obtain ⟨rfl, -⟩ := h.separated r hr r' hr' p q u ht hold
        simpa [Radix.setEntry] using hleaf
      · rw [Radix.setEntry, if_neg heq]
        exact h.leaves r' hr' q u j hold
    · have hut : u ≠ t := by
        rintro rfl
        exact (hnew u hc).1 hreached
      rw [Radix.setEntry, if_neg fun heq => hut heq.1]
      have hlevel : ptTopLevel - (p ++ [i]).length = ptTopLevel - p.length - 1 := by
        rw [List.length_append, List.length_singleton]
        omega
      rw [hlevel]
      exact (hchild u hc).2 j

/-- The memory grew by page tables below the entries `tops` of `r` and is otherwise
as it was, but for the entries of the tables. -/
structure Extends (k : Machine) (tops : Set (Fin 512)) (roots : Set TableAddr) (r : TableAddr)
    (m : Memory) (live : Set Chunk) (m' : Memory) (live' : Set Chunk) : Prop where
  tables : k.PageTables m' live' roots
  sub : live ⊆ live'
  keeps : ∀ r' ∈ roots, ∀ q t, k.tableAt m ptTopLevel r' q = some t →
    k.tableAt m' ptTopLevel r' q = some t
  reached : ∀ r' ∈ roots, ∀ q t, k.tableAt m' ptTopLevel r' q = some t →
    k.tableAt m ptTopLevel r' q = some t ∨
      (∃ j ∈ q.head?, j ∈ tops ∧ (r' = r ∨ KernelIndex j)) ∧
        ∃ c ∈ live', c ∉ live ∧ c.ptr = t.addr ∧ 4096 ≤ c.size
  chunks : ∀ c ∈ live', c ∉ live → 4096 ≤ c.size ∧ ∃ t, k.Reached m' roots t ∧ c.ptr = t.addr
  frame : ∀ x ∈ k.alloc.kept live, (∀ t, k.Reached m roots t → x ∉ t.bytes) → m' x = m x

/-- Growth in the user half is growth of one address space. -/
theorem Extends.reached_user (h : k.Extends userTops roots r m live m' live') {r' t : TableAddr}
    {q : List (Fin 512)} (hr' : r' ∈ roots) (hq : k.tableAt m' ptTopLevel r' q = some t) :
    k.tableAt m ptTopLevel r' q = some t ∨
      r' = r ∧ (∃ j ∈ q.head?, ¬ KernelIndex j) ∧
        ∃ c ∈ live', c ∉ live ∧ c.ptr = t.addr ∧ 4096 ≤ c.size := by
  rcases h.reached r' hr' q t hq with hq | ⟨⟨j, hj, huser, hroot⟩, hnew⟩
  · exact Or.inl hq
  · exact Or.inr ⟨hroot.resolve_right huser, ⟨j, hj, huser⟩, hnew⟩

/-- Every address space maps what it mapped before. -/
def SameSpaces (k : Machine) (roots : Set TableAddr) (m m' : Memory) : Prop :=
  ∀ r ∈ roots, ∀ va, k.translate m' r.addr va = k.translate m r.addr va

/-- Growth that no address space notices. -/
structure Grows (k : Machine) (tops : Set (Fin 512)) (roots : Set TableAddr) (r : TableAddr)
    (m : Memory) (live : Set Chunk) (m' : Memory) (live' : Set Chunk) : Prop
    extends k.Extends tops roots r m live m' live' where
  same : k.SameSpaces roots m m'

theorem PageTables.grows_refl (h : k.PageTables m live roots) (r : TableAddr) :
    k.Grows tops roots r m live m live :=
  ⟨⟨h, subset_rfl, fun _ _ _ _ hq => hq, fun _ _ _ _ hq => Or.inl hq,
    fun _ hc hnew => absurd hc hnew, fun _ _ _ => rfl⟩, fun _ _ _ => rfl⟩

theorem Extends.trans (h₁ : k.Extends tops roots r m live m' live')
    (h₂ : k.Extends tops roots r m' live' m'' live'') :
    k.Extends tops roots r m live m'' live'' := by
  refine ⟨h₂.tables, h₁.sub.trans h₂.sub, ?_, ?_, ?_, ?_⟩
  · intro r' hr' q t hq
    exact h₂.keeps r' hr' q t (h₁.keeps r' hr' q t hq)
  · intro r' hr' q t hq
    rcases h₂.reached r' hr' q t hq with hq | ⟨hvia, c, hc, hnew, hptr⟩
    · rcases h₁.reached r' hr' q t hq with hq | ⟨hvia, c, hc, hnew, hptr⟩
      · exact Or.inl hq
      · exact Or.inr ⟨hvia, c, h₂.sub hc, hnew, hptr⟩
    · exact Or.inr ⟨hvia, c, hc, fun hold => hnew (h₁.sub hold), hptr⟩
  · intro c hc hnew
    by_cases hmid : c ∈ live'
    · obtain ⟨hsize, t, ⟨r', hr', q, hq⟩, hptr⟩ := h₁.chunks c hmid hnew
      exact ⟨hsize, t, ⟨r', hr', q, h₂.keeps r' hr' q t hq⟩, hptr⟩
    · exact h₂.chunks c hc hmid
  · intro x hx hout
    rw [h₂.frame x (Allocator.kept_mono h₁.sub hx), h₁.frame x hx hout]
    rintro t ⟨r', hr', q, hq⟩ hxt
    rcases h₁.reached r' hr' q t hq with hold | ⟨-, c, hc, hnew, hptr, hsize⟩
    · exact hout t ⟨r', hr', q, hold⟩ hxt
    · have hdis := Allocator.bytes_disjoint_kept h₁.tables.heap h₁.sub hc hnew
      refine Set.disjoint_left.mp hdis ?_ hx
      rw [Chunk.bytes, hptr]
      exact span_subset_span le_rfl (by omega) hxt

theorem Grows.trans (h₁ : k.Grows tops roots r m live m' live')
    (h₂ : k.Grows tops roots r m' live' m'' live'') :
    k.Grows tops roots r m live m'' live'' := by
  refine ⟨h₁.toExtends.trans h₂.toExtends, fun r' hr' va => ?_⟩
  rw [h₂.same r' hr', h₁.same r' hr']

/-! ### Linking a table -/

/-- The entry `i` of the table `t` ends every walk, and `e` leads to the table `u`, which no
walk reaches and whose entries end the walks themselves. -/
structure NewTable (k : Machine) (roots : Set TableAddr) (m : Memory) (live : Set Chunk)
    (r t u : TableAddr) (p : List (Fin 512)) (i : Fin 512) (n : Nat) (e : Word) : Prop where
  tables : k.PageTables m live roots
  root : r ∈ roots
  table : k.tableAt m ptTopLevel r p = some t
  level : ptTopLevel - p.length = n + 1
  ends : k.child (n + 1) (ptEntry m t i) = none
  leads : k.child (n + 1) e = some u
  fresh : ¬ k.Reached m roots u
  kept : u.bytes ⊆ k.alloc.kept live
  entries : ∀ j, k.child n (ptEntry m u j) = none ∧ k.LeafFits n (ptEntry m u j)

namespace NewTable

variable {r' v : TableAddr} {q : List (Fin 512)}

theorem endsOrFresh (h : k.NewTable roots m live r t u p i n e) :
    Radix.EndsOrFresh k.child (ptEntry m) ptTopLevel roots (ptTopLevel - p.length) e := by
  intro d hd
  rw [h.level, h.leads, Option.some.injEq] at hd
  subst hd
  refine ⟨h.fresh, fun n' j hn => ?_⟩
  rw [h.level] at hn
  obtain rfl : n = n' := by omega
  exact (h.entries j).1

theorem last (h : k.NewTable roots m live r t u p i n e) :
    k.tableAt (m.write64 (entryAddr t.addr i) e) ptTopLevel r (p ++ [i]) = some u := by
  rw [tableAt, ptEntry_write64,
    Radix.tableAt_setEntry_below h.tables.separated h.root h.table h.level, h.leads]
  simp

theorem store (h : k.NewTable roots m live r t u p i n e) :
    k.PageTables (m.write64 (entryAddr t.addr i) e) live roots := by
  have hleads := h.leads
  apply h.tables.store h.root h.table h.endsOrFresh
  · intro _ hleaf
    rw [h.level] at hleaf
    rw [child_eq_none_iff.mpr (Or.inr hleaf)] at hleads
    cases hleads
  · intro d hd
    rw [h.level, hleads, Option.some.injEq] at hd
    subst hd
    refine ⟨h.kept, fun j => ?_⟩
    rw [h.level]
    exact (h.entries j).2

/-- No table is lost. -/
theorem keeps (h : k.NewTable roots m live r t u p i n e) (hr' : r' ∈ roots)
    (hq : k.tableAt m ptTopLevel r' q = some v) :
    k.tableAt (m.write64 (entryAddr t.addr i) e) ptTopLevel r' q = some v := by
  rw [tableAt, ptEntry_write64,
    Radix.tableAt_setEntry_off_path h.tables.separated h.root h.table hr']
  · exact hq
  · rintro hthrough ⟨q', rfl⟩
    rw [tableAt, List.append_assoc, List.singleton_append, Radix.tableAt_append _ hthrough,
      h.level, Radix.tableAt_cons, h.ends] at hq
    cases hq

/-- Only the new table is reached now. -/
theorem reached (h : k.NewTable roots m live r t u p i n e) (hr' : r' ∈ roots)
    (hq : k.tableAt (m.write64 (entryAddr t.addr i) e) ptTopLevel r' q = some v) :
    k.tableAt m ptTopLevel r' q = some v ∨
      v = u ∧ q = p ++ [i] ∧ ∃ j ∈ (p ++ [i]).head?, r' = r ∨ KernelIndex j := by
  rw [tableAt, ptEntry_write64] at hq
  rcases Radix.tableAt_setEntry_cases h.tables.separated h.root h.table h.endsOrFresh hr' hq with
    hold | ⟨hthrough, hpath, hv⟩
  · exact Or.inl hold
  · rw [h.level, h.leads, Option.some.injEq] at hv
    refine Or.inr ⟨hv.symm, hpath, ?_⟩
    rcases h.tables.separated.through h.root h.table hr' hthrough i with hsame | ⟨j, hj, hshared⟩
    · obtain ⟨j, hj⟩ : ∃ j, j ∈ (p ++ [i]).head? := by
        cases p with
        | nil => exact ⟨i, by simp⟩
        | cons j p => exact ⟨j, by simp⟩
      exact ⟨j, hj, Or.inl hsame⟩
    · exact ⟨j, hj, Or.inr hshared⟩

/-- The entries of the new table continue the mapping, so no translation changes. -/
theorem translate (h : k.NewTable roots m live r t u p i n e) (hr' : r' ∈ roots)
    (hsame : ∀ va, k.mappingOf n (ptEntry m u (ptIndex va n)) va =
      k.mappingOf (n + 1) (ptEntry m t i) va) (va : Word) :
    k.translate (m.write64 (entryAddr t.addr i) e) r'.addr va = k.translate m r'.addr va := by
  have hlevel := h.level
  rw [translate_eq, translate_eq, ptEntry_write64]
  by_cases hpath : k.tableAt m ptTopLevel r' p = some t ∧ p ++ [i] <+: ptPath va ptTopLevel
  · obtain ⟨hthrough, q, hq⟩ := hpath
    obtain rfl : q = ptPath va n := by
      have hlen : (p ++ [i]).length ≤ ptTopLevel := by
        rw [List.length_append, List.length_singleton]
        omega
      rw [ptPath_append hq.symm hlen, List.length_append, List.length_singleton]
      congr 1
      omega
    have hut : u ≠ t := by
      rintro rfl
      exact h.fresh ⟨r', hr', p, hthrough⟩
    have hhead : ptPath va n = ptIndex va n :: (ptPath va n).tail := by
      cases n <;> rfl
    rw [← hq, List.append_assoc, List.singleton_append,
      Radix.stopAt_setEntry_below h.tables.separated hr' hthrough,
      Radix.stopAt_append _ hthrough, hlevel, Radix.stopAt_cons_of_child_eq_none _ h.ends, hhead,
      Radix.stopAt_setEntry_child h.leads hut fun j => (h.entries j).1]
    simp only [Option.bind_some]
    rw [hsame]
  · rw [Radix.stopAt_setEntry_off_path h.tables.separated h.root h.table hr'
      fun hthrough hpre => hpath ⟨hthrough, hpre⟩]

end NewTable

/-- Linking a new table whose entries continue the mapping of the entry it
replaces. -/
theorem PageTables.link (h : k.PageTables m live roots) (hr : r ∈ roots)
    (ht : k.tableAt m ptTopLevel r p = some t) (hlevel : ptTopLevel - p.length = n + 1)
    (htop : ∀ j ∈ (p ++ [i]).head?, j ∈ tops)
    (hends : k.child (n + 1) (ptEntry m t i) = none)
    (hptr : c.ptr = u.addr) (hsize : 4096 ≤ c.size) (hnew : c ∉ live)
    (hheap : k.alloc.Live m₁ (insert c live))
    (hkept : Set.EqOn m₁ m (k.alloc.kept live))
    (hentries : ∀ j, k.child n (ptEntry m₁ u j) = none ∧ k.LeafFits n (ptEntry m₁ u j))
    (hsame : ∀ va, k.mappingOf n (ptEntry m₁ u (ptIndex va n)) va =
      k.mappingOf (n + 1) (ptEntry m t i) va) :
    k.Grows tops roots r m live
        (m₁.write64 (entryAddr t.addr i) (k.arch.pteTable (k.hhdmVirtToPhys u.addr)))
        (insert c live) ∧
      k.tableAt
        (m₁.write64 (entryAddr t.addr i) (k.arch.pteTable (k.hhdmVirtToPhys u.addr)))
        ptTopLevel r (p ++ [i]) = some u := by
  have hsub : live ⊆ insert c live := Set.subset_insert c live
  have hc : c ∈ insert c live := Set.mem_insert c live
  have hchild := child_pteTable (isFrame_hhdmVirtToPhys hheap hc hptr hsize) n
  generalize k.arch.pteTable (k.hhdmVirtToPhys u.addr) = e at hchild ⊢
  have hbytes : u.bytes ⊆ c.bytes := by
    rw [Chunk.bytes, hptr]
    exact span_subset_span le_rfl (by omega)
  have hold : ∀ t, k.Reached m roots t → Set.EqOn m₁ m t.bytes :=
    fun t ht => hkept.mono (h.kept t ht)
  have hentry : ∀ t j, k.Reached m roots t → ptEntry m₁ t j = ptEntry m t j :=
    fun t j ht => congrFun (ptEntry_congr (hold t ht)) j
  have hwalks : ∀ r' ∈ roots, ∀ q, k.tableAt m₁ ptTopLevel r' q = k.tableAt m ptTopLevel r' q :=
    fun r' hr' q => Radix.tableAt_congr_reached hentry hr' q
  have hreached : k.Reached m roots t := ⟨r, hr, p, ht⟩
  have hfresh : ¬ k.Reached m₁ roots u := by
    intro hu
    have hkeptu := h.kept u ((Radix.reached_congr hentry u).mp hu)
    have hmem : u.addr ∈ u.bytes := by
      rw [TableAddr.bytes, mem_span]
      omega
    exact Set.disjoint_left.mp (Allocator.bytes_disjoint_kept hheap hsub hc hnew)
      (hbytes hmem) (hkeptu hmem)
  have hlink : k.NewTable roots m₁ (insert c live) r t u p i n e :=
    ⟨h.congr hheap hsub hold, hr, (hwalks r hr p).trans ht, hlevel,
      (congrArg (k.child (n + 1)) (hentry t i hreached)).trans hends, hchild, hfresh,
      hbytes.trans (Allocator.bytes_subset_kept hc), hentries⟩
  refine ⟨⟨⟨hlink.store, hsub, ?_, ?_, ?_, ?_⟩, ?_⟩, hlink.last⟩
  · intro r' hr' q v hq
    exact hlink.keeps hr' ((hwalks r' hr' q).trans hq)
  · intro r' hr' q v hq
    rcases hlink.reached hr' hq with hq | ⟨rfl, rfl, j, hj, hroot⟩
    · exact Or.inl ((hwalks r' hr' q).symm.trans hq)
    · exact Or.inr ⟨⟨j, hj, htop j hj, hroot⟩, c, hc, hnew, hptr, hsize⟩
  · intro d hd hdnew
    obtain rfl : d = c := (Set.mem_insert_iff.mp hd).resolve_right hdnew
    exact ⟨hsize, u, ⟨r, hr, _, hlink.last⟩, hptr⟩
  · intro x hx hout
    rw [← hkept hx]
    have haddr := entryAddr_toNat t i
    have hfits := t.fits
    have hi := i.isLt
    apply Memory.write64_eqOn _ _ (by omega)
    exact fun hspan => hout t hreached (entry_subset t i hspan)
  · intro r' hr' va
    rw [← PageTables.translate_congr hr' hold, hlink.translate hr' fun va => ?_]
    rw [hsame, hentry t i hreached]

/-! ### The two ways to grow -/

theorem mappingOf_of_not_present {level : Nat} (h : k.arch.ptePresent e = false)
    (va : Word) : k.mappingOf level e va = none := by
  simp [mappingOf, h]

/-- An absent entry replaced by an empty table. -/
theorem PageTables.createTable (h : k.PageTables m live roots) (hr : r ∈ roots)
    (ht : k.tableAt m ptTopLevel r p = some t) (hlevel : ptTopLevel - p.length = n + 1)
    (htop : ∀ j ∈ (p ++ [i]).head?, j ∈ tops)
    (habsent : k.arch.ptePresent (ptEntry m t i) = false)
    (hptr : c.ptr = u.addr) (hsize : 4096 ≤ c.size) (hnew : c ∉ live)
    (hheap : k.alloc.Live m₁ (insert c live))
    (hkept : Set.EqOn m₁ m (k.alloc.kept live)) (hzero : ∀ x ∈ u.bytes, m₁ x = 0) :
    k.Grows tops roots r m live
        (m₁.write64 (entryAddr t.addr i) (k.arch.pteTable (k.hhdmVirtToPhys u.addr)))
        (insert c live) ∧
      k.tableAt
        (m₁.write64 (entryAddr t.addr i) (k.arch.pteTable (k.hhdmVirtToPhys u.addr)))
        ptTopLevel r (p ++ [i]) = some u := by
  have hempty : ∀ j, k.arch.ptePresent (ptEntry m₁ u j) = false := by
    intro j
    rw [ptEntry_eq_zero hzero]
    exact Arch.ptePresent_zero
  apply h.link hr ht hlevel htop (child_eq_none_iff.mpr (Or.inl habsent)) hptr hsize
    hnew hheap hkept
  · intro j
    refine ⟨child_eq_none_iff.mpr (Or.inl (hempty j)), fun hpresent => ?_⟩
    rw [hempty j] at hpresent
    cases hpresent
  · intro va
    rw [mappingOf_of_not_present habsent, mappingOf_of_not_present (hempty _)]

/-- The offset within a leaf is a child's index and the offset within the child. -/
theorem index_mul_span_add (va : Word) (hn : n ≤ 2) :
    BitVec.ofNat 64 (ptIndex va n) * levelSpan n + (va &&& (levelSpan n - 1)) =
      va &&& (levelSpan (n + 1) - 1) := by
  apply BitVec.eq_of_toNat_eq
  rw [BitVec.toNat_add, BitVec.toNat_mul, BitVec.toNat_ofNat, levelSpan_toNat (by omega),
    toNat_and_span va (by omega), toNat_and_span va (by omega), ptIndex_val]
  interval_cases n <;> norm_num <;> omega

theorem child_frame_toNat (hn : n ≤ 2) {base : Word} {bound : Nat}
    (hfits : base.toNat + 2 ^ (12 + (n + 1) * 9) ≤ bound) (hbound : bound ≤ 2 ^ 64)
    (j : Fin 512) : (base + BitVec.ofNat 64 j * levelSpan n).toNat =
      base.toNat + j * 2 ^ (12 + n * 9) := by
  have hj := j.isLt
  have hmul : (BitVec.ofNat 64 j * levelSpan n).toNat = j * 2 ^ (12 + n * 9) := by
    rw [BitVec.toNat_mul, BitVec.toNat_ofNat, levelSpan_toNat (by omega)]
    interval_cases n <;> norm_num <;> omega
  rw [toNat_add_of_lt, hmul]
  rw [hmul]
  interval_cases n <;> norm_num at hfits ⊢ <;> omega

theorem physBound_le (arch : Arch) : arch.physBound ≤ 2 ^ 64 := by
  cases arch <;> decide

/-- The frames of the children of a leaf that fits fit as well. -/
theorem isFrame_child (hn : n ≤ 2) (hpresent : k.arch.ptePresent e = true)
    (hleaf : k.arch.pteIsLeaf e (n + 1) = true) (hfits : k.LeafFits (n + 1) e)
    (j : Fin 512) :
    k.arch.IsFrame (k.arch.ptePhys e + BitVec.ofNat 64 j * levelSpan n) ∧
      (k.arch.ptePhys e + BitVec.ofNat 64 j * levelSpan n).toNat + 2 ^ (12 + n * 9) ≤
        k.arch.physBound := by
  have hbase := hfits hpresent hleaf
  have hnat := child_frame_toNat hn hbase (physBound_le _) j
  have hframe : k.arch.IsFrame (k.arch.ptePhys e) := Arch.isFrame_ptePhys e
  have haligned := hframe.1
  have hj := j.isLt
  rw [Arch.IsFrame, hnat]
  interval_cases n <;> norm_num at hbase ⊢ <;> omega

/-- The children of a leaf cover its frames one after the other. -/
theorem mappingOf_pteChildLeaf (hn : n ≤ 2) (hpresent : k.arch.ptePresent e = true)
    (hleaf : k.arch.pteIsLeaf e (n + 1) = true) (hfits : k.LeafFits (n + 1) e) (va : Word) :
    k.mappingOf n (k.arch.pteChildLeaf e
        (k.arch.ptePhys e + BitVec.ofNat 64 (ptIndex va n) * levelSpan n) n) va =
      k.mappingOf (n + 1) e va := by
  have hframe := (isFrame_child hn hpresent hleaf hfits (ptIndex va n)).1
  simp only [mappingOf, hpresent, Arch.ptePresent_pteChildLeaf _ _ hpresent, if_true,
    Arch.pteFlags_pteChildLeaf, Arch.ptePhys_pteChildLeaf hframe]
  rw [BitVec.add_assoc, index_mul_span_add va hn]

/-- A leaf replaced by a table of its children. -/
theorem PageTables.splitLeaf_spec (h : k.PageTables m live roots) (hr : r ∈ roots)
    (ht : k.tableAt m ptTopLevel r p = some t) (hlevel : ptTopLevel - p.length = n + 1)
    (htop : ∀ j ∈ (p ++ [i]).head?, j ∈ tops)
    (hpresent : k.arch.ptePresent (ptEntry m t i) = true)
    (hleaf : k.arch.pteIsLeaf (ptEntry m t i) (n + 1) = true) :
    k.splitLeaf m (entryAddr t.addr i) (n + 1) = (false, m) ∨
      ∃ m' live' u, k.splitLeaf m (entryAddr t.addr i) (n + 1) = (true, m') ∧
        k.Grows tops roots r m live m' live' ∧
        k.tableAt m' ptTopLevel r (p ++ [i]) = some u ∧
        k.physToVirt (k.arch.ptePhys (m'.read64 (entryAddr t.addr i))) = u.addr := by
  have hn : n ≤ 2 := by
    simp only [ptTopLevel] at hlevel
    omega
  have hfits : k.LeafFits (n + 1) (ptEntry m t i) := by
    rw [← hlevel]
    exact h.leaves r hr p t i ht
  rcases ptPoolAlloc_spec h.heap with
    hnull | ⟨u, c, m₁, halloc, hptr, hne, hsize, hnew, hheap, hkept, -⟩
  · left
    simp only [splitLeaf, hnull, if_true]
  right
  have hold : m.read64 (entryAddr t.addr i) = ptEntry m t i := rfl
  simp only [splitLeaf, halloc, if_neg hne, Nat.add_sub_cancel, hold]
  generalize hf : (fun j _ => k.arch.pteChildLeaf (ptEntry m t i)
    (k.arch.ptePhys (ptEntry m t i) + BitVec.ofNat 64 j * levelSpan n) n :
      Nat → Memory → Word) = f
  have hchild : ∀ j, ptEntry (m₁.fillWords u.addr 512 f) u j =
      k.arch.pteChildLeaf (ptEntry m t i)
        (k.arch.ptePhys (ptEntry m t i) + BitVec.ofNat 64 j * levelSpan n) n := by
    intro j
    rw [ptEntry_fillWords, ← hf]
  have hfill := Memory.fillWords_eqOn (n := 512) m₁ f u.fits
  have hc := Set.mem_insert c live
  have hbytes : span u.addr 4096 ⊆ c.bytes := by
    rw [Chunk.bytes, hptr]
    exact span_subset_span le_rfl (by omega)
  obtain ⟨hheap', hkept'⟩ := Allocator.written hnew hheap hkept hbytes hfill
  obtain ⟨hgrows, hlast⟩ := h.link hr ht hlevel htop
    (child_eq_none_iff.mpr (Or.inr hleaf)) hptr hsize hnew
    hheap' hkept'
    (fun j => by
      rw [hchild]
      refine ⟨child_eq_none_iff.mpr (Or.inr (Arch.pteIsLeaf_pteChildLeaf _ hleaf)), ?_⟩
      intro _ _
      obtain ⟨hframe, hbound⟩ := isFrame_child hn hpresent hleaf hfits j
      rw [Arch.ptePhys_pteChildLeaf hframe]
      exact hbound)
    (fun va => by
      rw [hchild]
      exact mappingOf_pteChildLeaf hn hpresent hleaf hfits va)
  refine ⟨_, _, u, rfl, hgrows, hlast, ?_⟩
  rw [Memory.read64_write64]
  exact congrArg TableAddr.addr
    (childTable_pteTable (isFrame_hhdmVirtToPhys hheap hc hptr hsize))

/-! ### The whole walk -/

/-- What a walk that ended with `descent` in `m'` found. -/
def Descent.Holds (k : Machine) (create : Bool) (r : TableAddr) (virt : Word) (m' : Memory) :
    Descent → Prop
  | .table addr => ∃ t p, t.addr = addr ∧ k.tableAt m' ptTopLevel r p = some t ∧
      ptPath virt ptTopLevel = p ++ [ptIndex virt 0]
  | .missing => create = false ∧
      ∀ va, ptPath va ptTopLevel = ptPath virt ptTopLevel → k.translate m' r.addr va = none
  | .noMemory => True

theorem head_path {q : List (Fin 512)} (hvirt : ptIndex virt ptTopLevel ∈ tops)
    (hpath : ptPath virt ptTopLevel = p ++ i :: q) :
    ∀ j ∈ (p ++ [i]).head?, j ∈ tops := by
  have hhead : (ptPath virt ptTopLevel).head? = some (ptIndex virt ptTopLevel) := rfl
  intro j hj
  have hsame : (p ++ [i]).head? = (p ++ i :: q).head? := by
    cases p <;> rfl
  rw [hsame, ← hpath, hhead, Option.mem_some_iff] at hj
  rwa [← hj]

theorem walkDown_spec (create : Bool) (hr : r ∈ roots)
    (hvirt : ptIndex virt ptTopLevel ∈ tops) (level : Nat)
    (h : k.PageTables m live roots) (ht : k.tableAt m ptTopLevel r p = some t)
    (hpath : ptPath virt ptTopLevel = p ++ ptPath virt level) :
    ∃ live', k.Grows tops roots r m live (k.walkDown create virt level m t.addr).2 live' ∧
      Descent.Holds k create r virt (k.walkDown create virt level m t.addr).2
        (k.walkDown create virt level m t.addr).1 := by
  induction level generalizing m live t p with
  | zero => exact ⟨live, h.grows_refl r, t, p, rfl, ht, hpath⟩
  | succ level ih =>
      have hlevel : ptTopLevel - p.length = level + 1 := by
        have hlen := congrArg List.length hpath
        simp only [ptPath_length, List.length_append] at hlen
        omega
      have htop := head_path hvirt hpath
      have hpath' : ptPath virt ptTopLevel =
          (p ++ [ptIndex virt (level + 1)]) ++ ptPath virt level := by
        rw [hpath, List.append_assoc]
        rfl
      have hentry : m.read64 (entryAddr t.addr (ptIndex virt (level + 1))) =
          ptEntry m t (ptIndex virt (level + 1)) := rfl
      rw [walkDown]
      simp only [hentry]
      by_cases habsent : k.arch.ptePresent (ptEntry m t (ptIndex virt (level + 1))) = false
      · simp only [if_pos habsent]
        cases create with
        | true =>
            simp only [if_true]
            rcases ptPoolAlloc_spec h.heap with
              hnull | ⟨u, c, m₁, halloc, hptr, hne, hsize, hnew, hheap, hkept, hzero⟩
            · simp only [hnull, if_true]
              exact ⟨live, h.grows_refl r, trivial⟩
            · simp only [halloc, if_neg hne]
              obtain ⟨hgrows, hchild⟩ := h.createTable hr ht hlevel htop habsent hptr hsize
                hnew hheap hkept hzero
              obtain ⟨live', hgrows', hfound⟩ := ih hgrows.tables hchild hpath'
              exact ⟨live', hgrows.trans hgrows', hfound⟩
        | false =>
            simp only [Bool.false_eq_true, if_false]
            refine ⟨live, h.grows_refl r, rfl, ?_⟩
            intro va hva
            rw [translate_eq, hva, hpath, Radix.stopAt_append _ ht, hlevel, ptPath,
              Radix.stopAt_cons_of_child_eq_none _ (child_eq_none_iff.mpr (Or.inl habsent))]
            exact mappingOf_of_not_present habsent va
      simp only [if_neg habsent]
      have hpresent : k.arch.ptePresent (ptEntry m t (ptIndex virt (level + 1))) = true := by
        simpa using habsent
      by_cases hleaf : k.arch.pteIsLeaf (ptEntry m t (ptIndex virt (level + 1))) (level + 1) = true
      · simp only [if_pos hleaf]
        rcases h.splitLeaf_spec hr ht hlevel htop hpresent hleaf with
          hfail | ⟨m₁, live₁, u, hsplit, hgrows, hchild, hu⟩
        · simp only [hfail, Bool.false_eq_true, if_false]
          exact ⟨live, h.grows_refl r, trivial⟩
        · simp only [hsplit, if_true, hu]
          obtain ⟨live', hgrows', hfound⟩ := ih hgrows.tables hchild hpath'
          exact ⟨live', hgrows.trans hgrows', hfound⟩
      · simp only [if_neg hleaf]
        apply ih h (t := k.childTable _) _ hpath'
        rw [tableAt, Radix.tableAt_append _ ht, hlevel, Radix.tableAt_cons]
        simp [child, hpresent, hleaf]

end Machine

end Utopia
