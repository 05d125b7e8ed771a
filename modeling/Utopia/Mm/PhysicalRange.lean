/-
`map_physical_range` of `mm/vmm.c`: the walker that maps a range of physical memory to
itself in pages of 2 MiB.
-/
import Utopia.Mm.PageRefine

namespace Utopia

/-- The addresses of `for (addr = start; addr < end; addr += huge_span)`; both ends are
multiples of `huge_span`. -/
def hugePagesBetween (start stop : Word) : List Word :=
  (List.range ((stop.toNat - start.toNat) / 2 ^ 21)).map fun i =>
    start + hugeSpan * BitVec.ofNat 64 i

/-- An address that the processor accepts: bits 47 to 63 agree. -/
def Canonical (va : Word) : Prop := va.toNat < 2 ^ 47 ∨ 2 ^ 64 - 2 ^ 47 ≤ va.toNat

/-- The addresses of `[phys_start, phys_start + size)`. -/
def InPhysRange (physStart size : Word) (a : Nat) : Prop :=
  physStart.toNat ≤ a ∧ a < physStart.toNat + size.toNat

/-- A huge leaf is a leaf at every level. -/
theorem Arch.pteIsLeaf_pteLeaf_huge {arch : Arch} (phys : Word) (flags : VmFlags) (level : Nat) :
    arch.pteIsLeaf (arch.pteLeaf phys flags true) level = true := by
  cases arch
  · simp +decide [Arch.pteIsLeaf, Arch.pteLeaf, X86.pteIsLeaf, X86.pteLeaf, X86.orFlags,
      hasBits_orIf]
  · simp +decide [Arch.pteIsLeaf, Arch.pteLeaf, Riscv.pteIsLeaf, Riscv.pteLeaf, Riscv.orFlags,
      hasBits_orIf]

namespace Machine

variable (k : Machine)

/-- One round of the inner loop: the table below the entry for `addr`.  The state goes with
the entries that were stored to. -/
def rangeStep (addr : Word) (level : Nat) (table : Word) (s : Memory × List Word) :
    Option Word × Memory × List Word :=
  let slot := entryAddr table (ptIndex addr level)
  let entry := s.1.read64 slot
  if k.arch.ptePresent entry = false then
    let (child, m) := k.ptPoolAlloc s.1
    if child = 0 then (none, m, s.2)
    else (some child, m.write64 slot (k.arch.pteTable (k.hhdmVirtToPhys child)), slot :: s.2)
  else (some (k.physToVirt (k.arch.ptePhys entry)), s)

/-- The inner loop down to level 1. -/
def rangeTable (addr : Word) : Nat → Word → Memory × List Word → Option Word × Memory × List Word
  | 0, table, s => (some table, s)
  | n + 1, table, s =>
      match k.rangeStep addr (n + 2) table s with
      | (none, s) => (none, s)
      | (some child, s) => rangeTable addr n child s

/-- The body of the outer loop. -/
def rangeRound (flags : VmFlags) (addr : Word) (s : Memory × List Word) :
    Int × Memory × List Word :=
  match k.rangeTable addr (ptTopLevel - 1) k.pageTableL4 s with
  | (none, s) => (-1, s)
  | (some table, m, stores) =>
      let slot := entryAddr table (ptIndex addr 1)
      (0, m.write64 slot (k.arch.pteLeaf (addr &&& ~~~(hugeSpan - 1)) flags true), slot :: stores)

def mapPhysicalRange (m : Memory) (physStart size : Word) (flags : VmFlags) :
    Int × Memory × List Word :=
  forEach (k.rangeRound flags) (hugePagesBetween physStart (physStart + size)) (m, [])

variable {k} {m m' m'' : Memory} {live live' live'' : Set Chunk} {roots : Set TableAddr}
  {r t u : TableAddr} {addr va e slot : Word} {n : Nat} {p q : List (Fin 512)} {i : Fin 512}
  {c : Chunk} {stores : List Word} {flags : VmFlags}

/-! ### Leaves above level 1 -/

/-- The leaves of the two upper levels: the path to the table, the table, the index and the
entry. -/
def largeLeaves (k : Machine) (m : Memory) (r : TableAddr) :
    Set (List (Fin 512) × TableAddr × Fin 512 × Word) :=
  { x | x.1.length ≤ 1 ∧ k.tableAt m ptTopLevel r x.1 = some x.2.1 ∧
    ptEntry m x.2.1 x.2.2.1 = x.2.2.2 ∧ k.arch.ptePresent x.2.2.2 = true ∧
    k.arch.pteIsLeaf x.2.2.2 (ptTopLevel - x.1.length) = true }

/-- The walk to `addr` ends at the leaf `e` of the table that `q` leads to. -/
def UnderLargeLeaf (k : Machine) (m : Memory) (r : TableAddr) (addr : Word)
    (q : List (Fin 512)) (e : Word) : Prop :=
  ∃ t i, (q, t, i, e) ∈ k.largeLeaves m r ∧ q ++ [i] <+: ptPath addr ptTopLevel

/-- A new table brings no large leaf and hides none. -/
theorem createTable_largeLeaves {m₁ : Memory}
    (h : k.PageTables m live roots) (hr : r ∈ roots)
    (ht : k.tableAt m ptTopLevel r p = some t)
    (habsent : k.arch.ptePresent (ptEntry m t i) = false) (hptr : c.ptr = u.addr)
    (hkept : Set.EqOn m₁ m (k.alloc.kept live)) (hzero : ∀ x ∈ u.bytes, m₁ x = 0)
    (hgrows : k.Grows Set.univ roots r m live
      (m₁.write64 (entryAddr t.addr i) (k.arch.pteTable (k.hhdmVirtToPhys u.addr)))
      (insert c live)) :
    k.largeLeaves (m₁.write64 (entryAddr t.addr i)
        (k.arch.pteTable (k.hhdmVirtToPhys u.addr))) r = k.largeLeaves m r := by
  generalize he : k.arch.pteTable (k.hhdmVirtToPhys u.addr) = e at hgrows ⊢
  have hentry : ∀ v j, k.Reached m roots v → ptEntry m₁ v j = ptEntry m v j :=
    fun v j hv => congrFun (ptEntry_congr (hkept.mono (h.kept v hv))) j
  have hempty : ∀ j, k.arch.ptePresent (ptEntry m₁ u j) = false := by
    intro j
    rw [ptEntry_eq_zero hzero]
    exact Arch.ptePresent_zero
  refine Set.Subset.antisymm ?_ ?_
  · rintro ⟨q, v, j, e'⟩ ⟨hq, hv, hentry', hpresent, hleaf⟩
    dsimp only at *
    by_cases hself : v = t ∧ j = i
    · obtain ⟨rfl, rfl⟩ := hself
      rw [ptEntry_write64, Radix.setEntry, if_pos ⟨rfl, rfl⟩] at hentry'
      obtain ⟨l, hl⟩ : ∃ l, ptTopLevel - q.length = l + 1 :=
        ⟨2 - q.length, by change 3 - q.length = _; omega⟩
      rw [← hentry', ← he, hl, Arch.pteIsLeaf_pteTable] at hleaf
      cases hleaf
    · rw [ptEntry_write64, Radix.setEntry, if_neg hself] at hentry'
      rcases hgrows.reached r hr q v hv with hold | ⟨-, d, hd, hdnew, hdptr, -⟩
      · refine ⟨hq, hold, ?_, hpresent, hleaf⟩
        rw [← hentry', hentry v j ⟨r, hr, q, hold⟩]
      · obtain rfl : d = c := (Set.mem_insert_iff.mp hd).resolve_right hdnew
        obtain rfl : v = u := TableAddr.ext (hdptr.symm.trans hptr)
        rw [← hentry', hempty j] at hpresent
        cases hpresent
  · rintro ⟨q, v, j, e'⟩ ⟨hq, hv, hentry', hpresent, hleaf⟩
    dsimp only at *
    have hother : ¬ (v = t ∧ j = i) := by
      rintro ⟨rfl, rfl⟩
      rw [← hentry', habsent] at hpresent
      cases hpresent
    refine ⟨hq, hgrows.keeps r hr q v hv, ?_, hpresent, hleaf⟩
    rw [ptEntry_write64, Radix.setEntry, if_neg hother, hentry v j ⟨r, hr, q, hv⟩]
    exact hentry'

/-- What one round of the inner loop does: the memory runs out, or a new table is linked, or
the frame of the entry is taken for a table. -/
theorem rangeStep_spec (h : k.PageTables m live roots) (hr : r ∈ roots)
    (ht : k.tableAt m ptTopLevel r p = some t) (hlevel : ptTopLevel - p.length = n + 1)
    (stores : List Word) :
    k.rangeStep addr (n + 1) t.addr (m, stores) = (none, m, stores) ∨
      (∃ u c m₁, k.rangeStep addr (n + 1) t.addr (m, stores) =
          (some u.addr, m₁, entryAddr t.addr (ptIndex addr (n + 1)) :: stores) ∧
        k.Grows Set.univ roots r m live m₁ (insert c live) ∧
        k.tableAt m₁ ptTopLevel r (p ++ [ptIndex addr (n + 1)]) = some u ∧
        k.largeLeaves m₁ r = k.largeLeaves m r) ∨
      k.arch.ptePresent (ptEntry m t (ptIndex addr (n + 1))) = true ∧
        k.rangeStep addr (n + 1) t.addr (m, stores) =
          (some (k.childTable (ptEntry m t (ptIndex addr (n + 1)))).addr, m, stores) := by
  have hslot : m.read64 (entryAddr t.addr (ptIndex addr (n + 1))) =
      ptEntry m t (ptIndex addr (n + 1)) := rfl
  rw [rangeStep]
  simp only [hslot]
  by_cases habsent : k.arch.ptePresent (ptEntry m t (ptIndex addr (n + 1))) = false
  · simp only [if_pos habsent]
    rcases ptPoolAlloc_spec h.heap with
      hnull | ⟨u, c, m₁, halloc, hptr, hne, hsize, hnew, hheap, hkept, hzero⟩
    · left
      simp only [hnull, if_true]
    · right
      left
      simp only [halloc, if_neg hne]
      obtain ⟨hgrows, hchild⟩ := h.createTable hr ht hlevel (fun j _ => Set.mem_univ j) habsent hptr hsize hnew hheap
        hkept hzero
      exact ⟨u, c, _, rfl, hgrows, hchild,
        createTable_largeLeaves h hr ht habsent hptr hkept hzero hgrows⟩
  · simp only [if_neg habsent]
    exact Or.inr (Or.inr ⟨by simpa using habsent, rfl⟩)

/-! ### Rounds -/

/-- What every round keeps of the tables: those of the three upper levels and the large
leaves; every other table is new. -/
structure RangeTables (k : Machine) (roots : Set TableAddr) (r : TableAddr) (m : Memory)
    (live : Set Chunk) (m' : Memory) (live' : Set Chunk) : Prop where
  tables : k.PageTables m' live' roots
  sub : live ⊆ live'
  upper : ∀ r' ∈ roots, ∀ q t, q.length ≤ 2 → k.tableAt m ptTopLevel r' q = some t →
    k.tableAt m' ptTopLevel r' q = some t
  reached : ∀ r' ∈ roots, ∀ q t, k.tableAt m' ptTopLevel r' q = some t →
    k.tableAt m ptTopLevel r' q = some t ∨
      ∃ c ∈ live', c ∉ live ∧ c.ptr = t.addr ∧ 4096 ≤ c.size
  large : k.largeLeaves m' r = k.largeLeaves m r

/-- The memory in use outside the tables is kept as well. -/
structure RangeKeeps (k : Machine) (roots : Set TableAddr) (r : TableAddr) (m : Memory)
    (live : Set Chunk) (m' : Memory) (live' : Set Chunk) : Prop
    extends k.RangeTables roots r m live m' live' where
  frame : ∀ x ∈ k.alloc.kept live, (∀ t, k.Reached m roots t → x ∉ t.bytes) → m' x = m x

theorem PageTables.rangeTables_refl (h : k.PageTables m live roots) (r : TableAddr) :
    k.RangeTables roots r m live m live :=
  ⟨h, subset_rfl, fun _ _ _ _ _ hq => hq, fun _ _ _ _ hq => Or.inl hq, rfl⟩

theorem PageTables.rangeKeeps_refl (h : k.PageTables m live roots) (r : TableAddr) :
    k.RangeKeeps roots r m live m live :=
  ⟨h.rangeTables_refl r, fun _ _ _ => rfl⟩

theorem Extends.rangeKeeps (h : k.Extends Set.univ roots r m live m' live')
    (hlarge : k.largeLeaves m' r = k.largeLeaves m r) :
    k.RangeKeeps roots r m live m' live' :=
  ⟨⟨h.tables, h.sub, fun r' hr' q t _ => h.keeps r' hr' q t,
    fun r' hr' q t hq => (h.reached r' hr' q t hq).imp_right And.right, hlarge⟩, h.frame⟩

theorem RangeTables.trans (h₁ : k.RangeTables roots r m live m' live')
    (h₂ : k.RangeTables roots r m' live' m'' live'') :
    k.RangeTables roots r m live m'' live'' := by
  refine ⟨h₂.tables, h₁.sub.trans h₂.sub, ?_, ?_, h₂.large.trans h₁.large⟩
  · intro r' hr' q t hlen hq
    exact h₂.upper r' hr' q t hlen (h₁.upper r' hr' q t hlen hq)
  · intro r' hr' q t hq
    rcases h₂.reached r' hr' q t hq with hq | ⟨c, hc, hnew, hptr⟩
    · rcases h₁.reached r' hr' q t hq with hq | ⟨c, hc, hnew, hptr⟩
      · exact Or.inl hq
      · exact Or.inr ⟨c, h₂.sub hc, hnew, hptr⟩
    · exact Or.inr ⟨c, hc, fun hold => hnew (h₁.sub hold), hptr⟩

/-- Memory that was in use and held no table holds none now. -/
theorem RangeTables.not_mem_bytes (h : k.RangeTables roots r m live m' live') {x : Word}
    (hx : x ∈ k.alloc.kept live) (hout : ∀ t, k.Reached m roots t → x ∉ t.bytes)
    (ht : k.Reached m' roots t) : x ∉ t.bytes := by
  intro hxt
  obtain ⟨r', hr', q, hq⟩ := ht
  rcases h.reached r' hr' q t hq with hold | ⟨c, hc, hnew, hptr, hsize⟩
  · exact hout t ⟨r', hr', q, hold⟩ hxt
  · refine Set.disjoint_left.mp
      (Allocator.bytes_disjoint_kept h.tables.heap h.sub hc hnew) ?_ hx
    rw [Chunk.bytes, hptr]
    exact span_subset_span le_rfl (by omega) hxt

theorem RangeKeeps.trans (h₁ : k.RangeKeeps roots r m live m' live')
    (h₂ : k.RangeKeeps roots r m' live' m'' live'') :
    k.RangeKeeps roots r m live m'' live'' := by
  refine ⟨h₁.toRangeTables.trans h₂.toRangeTables, fun x hx hout => ?_⟩
  rw [h₂.frame x (Allocator.kept_mono h₁.sub hx), h₁.frame x hx hout]
  exact fun t ht => h₁.not_mem_bytes hx hout ht

/-- The slot is an entry of a table of the three upper levels. -/
def TableSlot (k : Machine) (m : Memory) (r : TableAddr) (slot : Word) : Prop :=
  ∃ q t i, q.length ≤ 2 ∧ k.tableAt m ptTopLevel r q = some t ∧ slot = entryAddr t.addr i

theorem RangeTables.tableSlot (h : k.RangeTables roots r m live m' live') (hr : r ∈ roots)
    (hslot : k.TableSlot m r slot) : k.TableSlot m' r slot := by
  obtain ⟨q, t, i, hlen, hq, hi⟩ := hslot
  exact ⟨q, t, i, hlen, h.upper r hr q t hlen hq, hi⟩

/-- Down to level 1 every missing table is created and no translation changes. -/
theorem rangeTable_spec (hr : r ∈ roots) (h : k.PageTables m live roots)
    (hclear : ∀ q e, ¬ k.UnderLargeLeaf m r addr q e)
    (ht : k.tableAt m ptTopLevel r p = some t)
    (hpath : ptPath addr ptTopLevel = p ++ ptPath addr (n + 1)) (stores : List Word) :
    ∃ live', k.RangeKeeps roots r m live (k.rangeTable addr n t.addr (m, stores)).2.1 live' ∧
      k.SameSpaces roots m (k.rangeTable addr n t.addr (m, stores)).2.1 ∧
      (∀ slot ∈ (k.rangeTable addr n t.addr (m, stores)).2.2, slot ∈ stores ∨
        k.TableSlot (k.rangeTable addr n t.addr (m, stores)).2.1 r slot) ∧
      ∀ table, (k.rangeTable addr n t.addr (m, stores)).1 = some table → ∃ t' p',
        table = t'.addr ∧
        k.tableAt (k.rangeTable addr n t.addr (m, stores)).2.1 ptTopLevel r p' = some t' ∧
        ptPath addr ptTopLevel = p' ++ ptPath addr 1 := by
  induction n generalizing m live t p stores with
  | zero =>
      refine ⟨live, h.rangeKeeps_refl r, fun _ _ _ => rfl, fun _ => Or.inl, ?_⟩
      rintro table ⟨⟩
      exact ⟨t, p, rfl, ht, hpath⟩
  | succ n ih =>
      have hlen := congrArg List.length hpath
      simp only [ptPath_length, List.length_append] at hlen
      have hlevel : ptTopLevel - p.length = n + 1 + 1 := by omega
      have hpath' : ptPath addr ptTopLevel =
          (p ++ [ptIndex addr (n + 1 + 1)]) ++ ptPath addr (n + 1) := by
        rw [hpath, List.append_assoc]
        rfl
      have htop : ptTopLevel = 3 := rfl
      rw [rangeTable]
      rcases @rangeStep_spec k m live roots r t addr (n + 1) p h hr ht hlevel stores with
        hnone | ⟨u, c, m₁, hstep, hgrows, hu, hlarge⟩ | ⟨hpresent, hstep⟩
      · simp only [hnone]
        exact ⟨live, h.rangeKeeps_refl r, fun _ _ _ => rfl, fun _ => Or.inl, by simp⟩
      · simp only [hstep]
        have hkeeps := hgrows.toExtends.rangeKeeps hlarge
        have hclear₁ : ∀ q e, ¬ k.UnderLargeLeaf m₁ r addr q e := by
          intro q e
          rw [UnderLargeLeaf, hlarge]
          exact hclear q e
        obtain ⟨live', hkeeps', hsame', hslots, hend⟩ := ih hgrows.tables hclear₁ hu hpath'
          (entryAddr t.addr (ptIndex addr (n + 1 + 1)) :: stores)
        refine ⟨live', hkeeps.trans hkeeps', fun r' hr' va => ?_, fun slot hslot => ?_, hend⟩
        · rw [hsame' r' hr', hgrows.same r' hr']
        · rcases hslots slot hslot with hold | hin
          · rcases List.mem_cons.mp hold with rfl | hold
            · exact Or.inr ((hkeeps.trans hkeeps').tableSlot hr ⟨p, t, _, by omega, ht, rfl⟩)
            · exact Or.inl hold
          · exact Or.inr hin
      · simp only [hstep]
        have hnoleaf : ¬ k.arch.pteIsLeaf (ptEntry m t (ptIndex addr (n + 1 + 1)))
            (n + 1 + 1) = true := by
          intro hleaf
          refine hclear p _ ⟨t, ptIndex addr (n + 1 + 1), ⟨by dsimp only; omega, ht, rfl,
            hpresent, ?_⟩, ?_⟩
          · rw [hlevel]
            exact hleaf
          · rw [hpath']
            exact List.prefix_append _ _
        have hchild : k.tableAt m ptTopLevel r (p ++ [ptIndex addr (n + 1 + 1)]) =
            some (k.childTable (ptEntry m t (ptIndex addr (n + 1 + 1)))) := by
          rw [tableAt, Radix.tableAt_append _ ht, hlevel, Radix.tableAt_cons, child,
            if_pos ⟨hpresent, hnoleaf⟩, Option.bind_some, Radix.tableAt_nil]
        exact ih h hclear hchild hpath' stores

/-- A leaf stored at level 1 maps the 2 MiB below it; no walk elsewhere sees it. -/
theorem storeHuge_spec (h : k.PageTables m live roots) (hr : r ∈ roots)
    (ht : k.tableAt m ptTopLevel r p = some t) (hlen : p.length = 2)
    (hleaf : ∀ level, k.arch.pteIsLeaf e level = true) (hfits : k.LeafFits 1 e) :
    k.RangeKeeps roots r m live (m.write64 (entryAddr t.addr i) e) live ∧
      (∀ va, p ++ [i] <+: ptPath va ptTopLevel →
        k.translate (m.write64 (entryAddr t.addr i) e) r.addr va = k.mappingOf 1 e va) ∧
      ∀ r' ∈ roots, ∀ va, ¬ p ++ [i] <+: ptPath va ptTopLevel →
        k.translate (m.write64 (entryAddr t.addr i) e) r'.addr va = k.translate m r'.addr va := by
  have hlevel : ptTopLevel - p.length = 1 := by
    rw [hlen]
    rfl
  have hnone : ∀ level, k.child level e = none := fun level =>
    child_eq_none_iff.mpr (Or.inr (hleaf level))
  have hends : Radix.EndsOrFresh k.child (ptEntry m) ptTopLevel roots
      (ptTopLevel - p.length) e := by
    intro c hc
    rw [hnone] at hc
    cases hc
  have htables : k.PageTables (m.write64 (entryAddr t.addr i) e) live roots := by
    refine h.store hr ht hends (by rwa [hlevel]) fun c hc => ?_
    rw [hnone] at hc
    cases hc
  have hself : k.tableAt (m.write64 (entryAddr t.addr i) e) ptTopLevel r p = some t := by
    rw [tableAt, ptEntry_write64]
    exact Radix.tableAt_setEntry_self h.separated hr ht
  have hupper : ∀ r' ∈ roots, ∀ q u, q.length ≤ 2 → k.tableAt m ptTopLevel r' q = some u →
      k.tableAt (m.write64 (entryAddr t.addr i) e) ptTopLevel r' q = some u := by
    intro r' hr' q u hq hu
    rw [tableAt, ptEntry_write64, Radix.tableAt_setEntry_off_path h.separated hr ht hr']
    · exact hu
    rintro - hpre
    have hle := hpre.length_le
    simp only [List.length_append, List.length_singleton] at hle
    omega
  have hreached : ∀ r' ∈ roots, ∀ q u,
      k.tableAt (m.write64 (entryAddr t.addr i) e) ptTopLevel r' q = some u →
        k.tableAt m ptTopLevel r' q = some u := by
    intro r' hr' q u hq
    rw [tableAt, ptEntry_write64] at hq
    rcases Radix.tableAt_setEntry_cases h.separated hr ht hends hr' hq with hq | ⟨-, -, hu⟩
    · exact hq
    · rw [hnone] at hu
      cases hu
  have hother : ∀ q v j, q.length ≤ 1 → k.tableAt m ptTopLevel r q = some v →
      ptEntry (m.write64 (entryAddr t.addr i) e) v j = ptEntry m v j := by
    intro q v j hq hv
    rw [ptEntry_write64, Radix.setEntry, if_neg]
    rintro ⟨rfl, -⟩
    obtain ⟨rfl, -⟩ := h.separated r hr r hr p q v ht hv
    omega
  refine ⟨⟨⟨htables, subset_rfl, hupper, fun r' hr' q u hq => Or.inl (hreached r' hr' q u hq),
    ?_⟩, ?_⟩, ?_, ?_⟩
  · refine Set.Subset.antisymm ?_ ?_
    · rintro ⟨q, v, j, e'⟩ ⟨hq, hv, hentry, hrest⟩
      have hv' := hreached r hr q v hv
      exact ⟨hq, hv', (hother q v j hq hv').symm.trans hentry, hrest⟩
    · rintro ⟨q, v, j, e'⟩ ⟨hq, hv, hentry, hrest⟩
      exact ⟨hq, hupper r hr q v (le_trans hq one_le_two) hv,
        (hother q v j hq hv).trans hentry, hrest⟩
  · intro x _ hout
    have haddr := entryAddr_toNat t i
    have hfits' := t.fits
    have hi := i.isLt
    apply Memory.write64_eqOn _ _ (by omega)
    exact fun hspan => hout t ⟨r, hr, p, ht⟩ (entry_subset t i hspan)
  · rintro va ⟨q, hq⟩
    have hentry : ptEntry (m.write64 (entryAddr t.addr i) e) t i = e := by
      rw [ptEntry_write64, Radix.setEntry, if_pos ⟨rfl, rfl⟩]
    rw [translate_eq, ← hq, List.append_assoc, List.singleton_append,
      Radix.stopAt_append _ hself, hlevel, Radix.stopAt_cons_of_child_eq_none, hentry,
      Option.bind_some]
    rw [hentry]
    exact hnone 1
  · intro r' hr' va hoff
    rw [translate_eq, translate_eq, ptEntry_write64,
      Radix.stopAt_setEntry_off_path h.separated hr ht hr' fun _ hpre => hoff hpre]

/-- The walks through a level-1 entry are those of the addresses that share bits 21 to 47. -/
theorem hugePath_prefix_iff :
    [ptIndex addr 3, ptIndex addr 2, ptIndex addr 1] <+: ptPath va ptTopLevel ↔
      va.toNat / 2 ^ 21 % 2 ^ 27 = addr.toNat / 2 ^ 21 % 2 ^ 27 := by
  simp only [ptPath_top, List.cons_prefix_cons, List.nil_prefix, and_true, Fin.ext_iff,
    ptIndex_val]
  norm_num
  omega

/-- The huge page at `addr`. -/
def InHugePage (addr va : Word) : Prop :=
  addr.toNat ≤ va.toNat ∧ va.toNat < addr.toNat + 2 ^ 21

theorem inHugePage_iff_path (haddr : Canonical addr) (haligned : addr.toNat % 2 ^ 21 = 0)
    (hva : Canonical va) : InHugePage addr va ↔
      [ptIndex addr 3, ptIndex addr 2, ptIndex addr 1] <+: ptPath va ptTopLevel := by
  have hlt := va.isLt
  have hlt' := addr.isLt
  rw [hugePath_prefix_iff, InHugePage]
  rw [Canonical] at haddr hva
  omega

theorem hugePage_offset (haligned : addr.toNat % 2 ^ 21 = 0) (hva : InHugePage addr va) :
    addr + (va &&& (levelSpan 1 - 1)) = va := by
  have hlt := va.isLt
  obtain ⟨hlow, hhigh⟩ := hva
  apply BitVec.eq_of_toNat_eq
  rw [BitVec.toNat_add, toNat_and_span va (by omega)]
  norm_num
  omega

theorem and_hugeSpan (haligned : addr.toNat % 2 ^ 21 = 0) : addr &&& ~~~(hugeSpan - 1) = addr := by
  have hlow : addr &&& (hugeSpan - 1) = 0 := by
    apply BitVec.eq_of_toNat_eq
    rw [show hugeSpan = levelSpan 1 from rfl, toNat_and_span addr (by omega)]
    exact haligned
  have hsplit : addr &&& ~~~(hugeSpan - 1) ||| addr &&& (hugeSpan - 1) = addr := by
    rw [← BitVec.and_or_distrib_left, BitVec.or_comm, BitVec.or_not_self, BitVec.and_allOnes]
  rw [hlow] at hsplit
  exact BitVec.or_zero.symm.trans hsplit

/-- One round: the memory runs out and no translation changes, or the huge page at `addr`
maps itself and no other address changes. -/
theorem rangeRound_spec (h : k.PageTables m live roots) (hr : r ∈ roots)
    (hl4 : r.addr = k.pageTableL4) (hclear : ∀ q e, ¬ k.UnderLargeLeaf m r addr q e)
    (hcanon : Canonical addr) (haligned : addr.toNat % 2 ^ 21 = 0)
    (hbound : addr.toNat + 2 ^ 21 ≤ k.arch.physBound) (flags : VmFlags) (stores : List Word) :
    ∃ live', k.RangeKeeps roots r m live (k.rangeRound flags addr (m, stores)).2.1 live' ∧
      (∀ slot ∈ (k.rangeRound flags addr (m, stores)).2.2, slot ∈ stores ∨
        k.TableSlot (k.rangeRound flags addr (m, stores)).2.1 r slot) ∧
      ((k.rangeRound flags addr (m, stores)).1 = -1 ∧
          k.SameSpaces roots m (k.rangeRound flags addr (m, stores)).2.1 ∨
        (k.rangeRound flags addr (m, stores)).1 = 0 ∧
          (∀ va, Canonical va → InHugePage addr va → ∃ x,
            k.translate (k.rangeRound flags addr (m, stores)).2.1 r.addr va = some x ∧
              x.phys = va) ∧
          ∀ r' ∈ roots, ∀ va, Canonical va → ¬ InHugePage addr va →
            k.translate (k.rangeRound flags addr (m, stores)).2.1 r'.addr va =
              k.translate m r'.addr va) := by
  obtain ⟨live', hkeeps, hsame, hslots, hend⟩ := rangeTable_spec (n := 2) hr h hclear
    (Radix.tableAt_nil _ _) rfl stores
  simp only [rangeRound, ← hl4, show ptTopLevel - 1 = 2 from rfl]
  generalize k.rangeTable addr 2 r.addr (m, stores) = res at hkeeps hsame hslots hend ⊢
  obtain ⟨table, m₁, slots⟩ := res
  cases table with
  | none => exact ⟨live', hkeeps, hslots, Or.inl ⟨rfl, hsame⟩⟩
  | some table =>
      obtain ⟨t, p, rfl, ht, hpath⟩ := hend table rfl
      have hp : p = [ptIndex addr 3, ptIndex addr 2] := by
        have hsplit : [ptIndex addr 3, ptIndex addr 2] ++ ptPath addr 1 = p ++ ptPath addr 1 :=
          hpath
        exact (List.append_cancel_right hsplit).symm
      have hframe : k.arch.IsFrame addr := ⟨by omega, by omega⟩
      rw [and_hugeSpan haligned]
      have hphys := Arch.ptePhys_pteLeaf hframe flags true
      have hfits : k.LeafFits 1 (k.arch.pteLeaf addr flags true) := by
        intro _ _
        rw [hphys]
        exact hbound
      obtain ⟨hkeeps', hmapped, hother⟩ := storeHuge_spec (i := ptIndex addr 1) hkeeps.tables hr
        ht (by rw [hp]; rfl) (Arch.pteIsLeaf_pteLeaf_huge addr flags) hfits
      rw [hp] at hmapped hother
      refine ⟨live', hkeeps.trans hkeeps', ?_, Or.inr ⟨rfl, ?_, ?_⟩⟩
      · intro slot hslot
        rcases List.mem_cons.mp hslot with rfl | hold
        · exact Or.inr (hkeeps'.tableSlot hr ⟨p, t, _, by rw [hp]; rfl, ht, rfl⟩)
        · exact (hslots slot hold).imp_right (hkeeps'.tableSlot hr)
      · intro va hva hin
        refine ⟨⟨addr + (va &&& (levelSpan 1 - 1)), flags⟩, ?_, hugePage_offset haligned hin⟩
        rw [hmapped va ((inHugePage_iff_path hcanon haligned hva).mp hin), mappingOf,
          if_pos (Arch.ptePresent_pteLeaf _ _ _), hphys, Arch.pteFlags_pteLeaf]
      · intro r' hr' va hva hout
        rw [hother r' hr' va fun hpre =>
          hout ((inHugePage_iff_path hcanon haligned hva).mpr hpre), hsame r' hr']

/-! ### The whole range -/

variable {physStart size : Word}

theorem mem_hugePagesBetween {start stop : Word} (hstart : start.toNat % 2 ^ 21 = 0)
    (hstop : stop.toNat % 2 ^ 21 = 0) (haddr : addr ∈ hugePagesBetween start stop) :
    addr.toNat % 2 ^ 21 = 0 ∧ start.toNat ≤ addr.toNat ∧ addr.toNat + 2 ^ 21 ≤ stop.toNat := by
  obtain ⟨i, hi, rfl⟩ := List.mem_map.mp haddr
  have hlt := stop.isLt
  have hi' := List.mem_range.mp hi
  have hmul : (hugeSpan * BitVec.ofNat 64 i).toNat = 2 ^ 21 * i := by
    rw [BitVec.toNat_mul, BitVec.toNat_ofNat, show hugeSpan.toNat = 2 ^ 21 from rfl]
    omega
  rw [BitVec.toNat_add, hmul]
  omega

/-- Every address between the two ends lies in one of the pages. -/
theorem exists_hugePage {start stop : Word} (hstart : start.toNat % 2 ^ 21 = 0)
    (hstop : stop.toNat % 2 ^ 21 = 0) (hlow : start.toNat ≤ va.toNat)
    (hhigh : va.toNat < stop.toNat) : ∃ addr ∈ hugePagesBetween start stop, InHugePage addr va := by
  have hlt := stop.isLt
  refine ⟨_, List.mem_map.mpr ⟨(va.toNat - start.toNat) / 2 ^ 21,
    List.mem_range.mpr (by omega), rfl⟩, ?_⟩
  have hmul : (hugeSpan * BitVec.ofNat 64 ((va.toNat - start.toNat) / 2 ^ 21)).toNat =
      2 ^ 21 * ((va.toNat - start.toNat) / 2 ^ 21) := by
    rw [BitVec.toNat_mul, BitVec.toNat_ofNat, show hugeSpan.toNat = 2 ^ 21 from rfl]
    omega
  rw [InHugePage, BitVec.toNat_add, hmul]
  omega

/-- The address space below `r` maps the range to itself. -/
def MapsToItself (k : Machine) (m : Memory) (r : TableAddr) (physStart size : Word) : Prop :=
  ∀ a, InPhysRange physStart size a → ∃ va : Word, va.toNat = a ∧ Canonical va ∧
    ∃ x, k.translate m r.addr va = some x ∧ x.phys = va

/-- The call maps its range to itself and stores to tables of the address space only. -/
structure RangeMapped (k : Machine) (roots : Set TableAddr) (r : TableAddr) (m : Memory)
    (live : Set Chunk) (physStart size : Word) (result : Int × Memory × List Word) : Prop where
  mapped : result.1 = 0 → k.MapsToItself result.2.1 r physStart size
  outside : ∀ r' ∈ roots, ∀ va, Canonical va → ¬ InPhysRange physStart size va.toNat →
    k.translate result.2.1 r'.addr va = k.translate m r'.addr va
  stores : ∀ slot ∈ result.2.2, ∃ t i, k.Reached result.2.1 {r} t ∧ slot = entryAddr t.addr i
  frame : ∀ x ∈ k.alloc.kept live, (∀ t, k.Reached m {r} t → x ∉ t.bytes) →
    result.2.1 x = m x

/-- The rounds of the loop, for the address spaces below `roots`. -/
theorem mapPhysicalRange_run (h : k.PageTables m live roots) (hr : r ∈ roots)
    (hl4 : r.addr = k.pageTableL4) {pages : List Word}
    (hpages : ∀ addr ∈ pages, addr.toNat % 2 ^ 21 = 0 ∧ Canonical addr ∧
      addr.toNat + 2 ^ 21 ≤ k.arch.physBound ∧ ∀ q e, ¬ k.UnderLargeLeaf m r addr q e)
    (flags : VmFlags) :
    (∃ live', k.RangeKeeps roots r m live (forEach (k.rangeRound flags) pages (m, [])).2.1 live') ∧
      (∀ slot ∈ (forEach (k.rangeRound flags) pages (m, [])).2.2,
        k.TableSlot (forEach (k.rangeRound flags) pages (m, [])).2.1 r slot) ∧
      (∀ r' ∈ roots, ∀ va, Canonical va → (∀ addr ∈ pages, ¬ InHugePage addr va) →
        k.translate (forEach (k.rangeRound flags) pages (m, [])).2.1 r'.addr va =
          k.translate m r'.addr va) ∧
      ((forEach (k.rangeRound flags) pages (m, [])).1 = 0 →
        ∀ va, Canonical va → (∃ addr ∈ pages, InHugePage addr va) → ∃ x,
          k.translate (forEach (k.rangeRound flags) pages (m, [])).2.1 r.addr va = some x ∧
            x.phys = va) := by
  have hloop := forEach_rule (k.rangeRound flags) pages
    (fun done s => (∃ live', k.RangeKeeps roots r m live s.1 live') ∧
      (∀ slot ∈ s.2, k.TableSlot s.1 r slot) ∧
      (∀ r' ∈ roots, ∀ va, Canonical va → (∀ addr ∈ done, ¬ InHugePage addr va) →
        k.translate s.1 r'.addr va = k.translate m r'.addr va) ∧
      ∀ va, Canonical va → (∃ addr ∈ done, InHugePage addr va) → ∃ x,
        k.translate s.1 r.addr va = some x ∧ x.phys = va)
    (fun s => (∃ live', k.RangeKeeps roots r m live s.1 live') ∧
      (∀ slot ∈ s.2, k.TableSlot s.1 r slot) ∧
      ∀ r' ∈ roots, ∀ va, Canonical va → (∀ addr ∈ pages, ¬ InHugePage addr va) →
        k.translate s.1 r'.addr va = k.translate m r'.addr va) (s := (m, []))
    ⟨⟨live, h.rangeKeeps_refl r⟩, by simp, fun _ _ _ _ _ => rfl, by simp⟩ ?_
  · rcases hloop with ⟨-, hkeeps, hslots, hout, hdone⟩ | ⟨hne, hkeeps, hslots, hout⟩
    · exact ⟨hkeeps, hslots, hout, fun _ => hdone⟩
    · exact ⟨hkeeps, hslots, hout, fun hzero => absurd hzero hne⟩
  · rintro done addr rest ⟨m₁, stores⟩ hsplit ⟨⟨live₁, hkeeps⟩, hslots, hout, hdone⟩
    have hmem : ∀ a ∈ done ++ [addr], a ∈ pages := by
      intro a ha
      rw [hsplit]
      simp only [List.mem_append, List.mem_cons, List.not_mem_nil, or_false] at ha ⊢
      exact ha.imp_right Or.inl
    obtain ⟨haligned, hcanon, hbound, hclear⟩ := hpages addr (hmem addr (by simp))
    have hclear₁ : ∀ q e, ¬ k.UnderLargeLeaf m₁ r addr q e := by
      intro q e
      rw [UnderLargeLeaf, hkeeps.large]
      exact hclear q e
    obtain ⟨live₂, hkeeps₂, hslots₂, hend⟩ := rangeRound_spec hkeeps.tables hr hl4 hclear₁ hcanon
      haligned hbound flags stores
    generalize k.rangeRound flags addr (m₁, stores) = res at hkeeps₂ hslots₂ hend ⊢
    obtain ⟨status, m₂, slots⟩ := res
    have hkeeps' : ∃ live', k.RangeKeeps roots r m live m₂ live' := ⟨live₂, hkeeps.trans hkeeps₂⟩
    have hslots' : ∀ slot ∈ slots, k.TableSlot m₂ r slot := fun slot hslot =>
      (hslots₂ slot hslot).elim (fun hold => hkeeps₂.tableSlot hr (hslots slot hold)) id
    rcases hend with ⟨rfl, hsame⟩ | ⟨rfl, hmapped, hother⟩
    · refine Or.inr ⟨by simp, hkeeps', hslots', fun r' hr' va hva hall => ?_⟩
      rw [hsame r' hr', hout r' hr' va hva fun a ha => hall a (hmem a (by simp [ha]))]
    · refine Or.inl ⟨rfl, hkeeps', hslots', fun r' hr' va hva hall => ?_, fun va hva hin => ?_⟩
      · rw [hother r' hr' va hva (hall addr (by simp)), hout r' hr' va hva fun a ha =>
          hall a (by simp [ha])]
      · by_cases hhere : InHugePage addr va
        · exact hmapped va hva hhere
        · obtain ⟨a, ha, hin⟩ := hin
          have ha' : a ∈ done := by
            rcases List.mem_append.mp ha with hold | hnew
            · exact hold
            · obtain rfl := List.mem_singleton.mp hnew
              exact absurd hin hhere
          obtain ⟨x, hx, hphys⟩ := hdone va hva ⟨a, ha', hin⟩
          exact ⟨x, (hother r hr va hva hhere).trans hx, hphys⟩

/-- The range ends inside the addresses, all of it is canonical and within the reach of an
entry, and no address of it lies below a leaf of a level above 1; or the range reaches the
end of the addresses and is mapped to itself already. -/
def RangeFits (k : Machine) (m : Memory) (r : TableAddr) (physStart size : Word) : Prop :=
  (physStart.toNat + size.toNat < 2 ^ 64 ∧
      ∀ va : Word, InPhysRange physStart size va.toNat → Canonical va ∧
        va.toNat < k.arch.physBound ∧ ∀ q e, ¬ k.UnderLargeLeaf m r va q e) ∨
    (2 ^ 64 ≤ physStart.toNat + size.toNat ∧ k.MapsToItself m r physStart size)

/-- A leaf above the range is one of level 2, and its frame is memory in use that holds no
table of the address space. -/
def LeavesNameData (k : Machine) (m : Memory) (live : Set Chunk) (r : TableAddr)
    (physStart size : Word) : Prop :=
  ∀ va q e, InPhysRange physStart size va.toNat → k.UnderLargeLeaf m r va q e →
    q.length = 1 ∧ (k.childTable e).bytes ⊆ k.alloc.kept live ∧
      ∀ t, k.Reached m {r} t → Disjoint (k.childTable e).bytes t.bytes

theorem mapPhysicalRange_of_wraps (hwraps : 2 ^ 64 ≤ physStart.toNat + size.toNat) :
    k.mapPhysicalRange m physStart size flags = (0, m, []) := by
  have hsum : (physStart + size).toNat ≤ physStart.toNat := by
    have hlt := physStart.isLt
    have hlt' := size.isLt
    rw [BitVec.toNat_add]
    omega
  rw [mapPhysicalRange, hugePagesBetween, Nat.sub_eq_zero_of_le hsum]
  rfl

theorem hugePages_inRange (hstart : physStart.toNat % 2 ^ 21 = 0) (hsize : size.toNat % 2 ^ 21 = 0)
    (hinside : physStart.toNat + size.toNat < 2 ^ 64)
    (haddr : addr ∈ hugePagesBetween physStart (physStart + size)) :
    addr.toNat % 2 ^ 21 = 0 ∧ physStart.toNat ≤ addr.toNat ∧
      addr.toNat + 2 ^ 21 ≤ physStart.toNat + size.toNat := by
  have hstop := toNat_add_of_lt hinside
  have hpages := mem_hugePagesBetween hstart (by rw [hstop]; omega) haddr
  rwa [hstop] at hpages

theorem inPhysRange_iff (hstart : physStart.toNat % 2 ^ 21 = 0) (hsize : size.toNat % 2 ^ 21 = 0)
    (hinside : physStart.toNat + size.toNat < 2 ^ 64) :
    InPhysRange physStart size va.toNat ↔
      ∃ addr ∈ hugePagesBetween physStart (physStart + size), InHugePage addr va := by
  have hstop := toNat_add_of_lt hinside
  constructor
  · rintro ⟨hlow, hhigh⟩
    exact exists_hugePage hstart (by rw [hstop]; omega) hlow (by rwa [hstop])
  · rintro ⟨addr, haddr, hlow, hhigh⟩
    have hpages := hugePages_inRange hstart hsize hinside haddr
    rw [InPhysRange]
    omega

theorem physBound_aligned : k.arch.physBound % 2 ^ 21 = 0 := by
  cases k.arch <;> rfl

/-- Where the range fits, the call does what it says. -/
theorem mapPhysicalRange_of_fits (h : k.PageTables m live roots) (hr : r ∈ roots)
    (hl4 : r.addr = k.pageTableL4) (hstart : physStart.toNat % 2 ^ 21 = 0)
    (hsize : size.toNat % 2 ^ 21 = 0) (hfits : k.RangeFits m r physStart size)
    (flags : VmFlags) :
    k.RangeMapped roots r m live physStart size
      (k.mapPhysicalRange m physStart size flags) := by
  rcases hfits with ⟨hinside, hall⟩ | ⟨hwraps, hself⟩
  · have hpages : ∀ addr ∈ hugePagesBetween physStart (physStart + size),
        addr.toNat % 2 ^ 21 = 0 ∧ Canonical addr ∧ addr.toNat + 2 ^ 21 ≤ k.arch.physBound ∧
          ∀ q e, ¬ k.UnderLargeLeaf m r addr q e := by
      intro addr haddr
      obtain ⟨haligned, hlow, hhigh⟩ := hugePages_inRange hstart hsize hinside haddr
      obtain ⟨hcanon, hbound, hclear⟩ := hall addr ⟨hlow, by omega⟩
      have hmul := physBound_aligned (k := k)
      exact ⟨haligned, hcanon, by omega, hclear⟩
    obtain ⟨-, -, hout, hmapped⟩ := mapPhysicalRange_run h hr hl4 hpages flags
    obtain ⟨⟨live', hkeeps⟩, hslots, -, -⟩ := mapPhysicalRange_run
      (h.mono (Set.singleton_subset_iff.mpr hr)) (Set.mem_singleton r) hl4 hpages flags
    refine ⟨fun hzero a ha => ?_, fun r' hr' va hva hrange => ?_, fun slot hslot => ?_,
      hkeeps.frame⟩
    · have hlt : a < 2 ^ 64 := ha.2.trans hinside
      have hnat : (BitVec.ofNat 64 a).toNat = a := by
        rw [BitVec.toNat_ofNat]
        exact Nat.mod_eq_of_lt hlt
      rw [← hnat] at ha
      obtain ⟨hcanon, -⟩ := hall _ ha
      exact ⟨_, hnat, hcanon, hmapped hzero _ hcanon ((inPhysRange_iff hstart hsize hinside).mp ha)⟩
    · exact hout r' hr' va hva fun addr haddr hin =>
        hrange ((inPhysRange_iff hstart hsize hinside).mpr ⟨addr, haddr, hin⟩)
    · obtain ⟨q, t, i, -, ht, hi⟩ := hslots slot hslot
      exact ⟨t, i, ⟨r, rfl, q, ht⟩, hi⟩
  · rw [mapPhysicalRange_of_wraps hwraps]
    exact ⟨fun _ => hself, fun _ _ _ _ _ => rfl, by simp, fun _ _ _ => rfl⟩

/-! ### Leaves taken for tables -/

theorem rangeStep_of_present {level : Nat} {table : Word} {s : Memory × List Word}
    (hpresent : k.arch.ptePresent (s.1.read64 (entryAddr table (ptIndex addr level))) = true) :
    k.rangeStep addr level table s =
      (some (k.childTable (s.1.read64 (entryAddr table (ptIndex addr level)))).addr, s) := by
  rw [rangeStep]
  simp only [hpresent, Bool.true_eq_false, if_false]
  rfl

/-- The tables are the same where no table was stored to. -/
theorem PageTables.rangeTables_congr (h : k.PageTables m live roots) (hr : r ∈ roots)
    (hheap : k.alloc.Live m' live) (heq : ∀ t, k.Reached m roots t → Set.EqOn m' m t.bytes) :
    k.RangeTables roots r m live m' live := by
  have hfetch : ∀ t i, k.Reached m roots t → ptEntry m' t i = ptEntry m t i :=
    fun t i ht => congrFun (ptEntry_congr (heq t ht)) i
  have htable : ∀ r' ∈ roots, ∀ q, k.tableAt m' ptTopLevel r' q = k.tableAt m ptTopLevel r' q :=
    fun r' hr' q => Radix.tableAt_congr_reached hfetch hr' q
  refine ⟨h.congr hheap subset_rfl heq, subset_rfl, fun r' hr' q t _ hq => ?_,
    fun r' hr' q t hq => Or.inl ?_, ?_⟩
  · rw [htable r' hr' q, hq]
  · rw [← htable r' hr' q, hq]
  · ext ⟨q, t, i, e⟩
    simp only [largeLeaves, Set.mem_ofPred_eq, htable r hr]
    refine and_congr_right fun _ => and_congr_right fun ht => ?_
    rw [hfetch t i ⟨r, hr, q, ht⟩]

/-- A round below a leaf of level 2 stores to the frame of the leaf. -/
theorem rangeRound_of_largeLeaf {live₁ : Set Chunk} {m₁ : Memory} (hl4 : r.addr = k.pageTableL4)
    (hkeeps : k.RangeTables {r} r m live m₁ live₁) (hleaf : k.UnderLargeLeaf m r addr q e)
    (hlen : q.length = 1) (hkept : (k.childTable e).bytes ⊆ k.alloc.kept live)
    (hdata : ∀ t, k.Reached m {r} t → Disjoint (k.childTable e).bytes t.bytes) :
    (∃ live', k.RangeTables {r} r m live (k.rangeRound flags addr (m₁, stores)).2.1 live') ∧
      ∃ slot ∈ (k.rangeRound flags addr (m₁, stores)).2.2, slot ∈ (k.childTable e).bytes := by
  obtain ⟨t, i, hlarge, hpre⟩ := hleaf
  rw [← hkeeps.large] at hlarge
  obtain ⟨-, ht, hentry, hpresent, -⟩ := hlarge
  obtain ⟨j, rfl⟩ := List.length_eq_one_iff.mp hlen
  dsimp only at ht hentry hpresent
  rw [ptPath_top, List.singleton_append, List.cons_prefix_cons, List.cons_prefix_cons] at hpre
  obtain ⟨rfl, rfl, -⟩ := hpre
  rw [tableAt, show ptTopLevel = 2 + 1 from rfl, Radix.tableAt_cons, Option.bind_eq_some_iff] at ht
  obtain ⟨t', ht', hsame⟩ := ht
  rw [Radix.tableAt_nil, Option.some.injEq] at hsame
  subst hsame
  have hfirst : k.arch.ptePresent (ptEntry m₁ r (ptIndex addr 3)) = true ∧
      k.childTable (ptEntry m₁ r (ptIndex addr 3)) = t' := by
    rw [child] at ht'
    split_ifs at ht' with hboth
    exact ⟨hboth.1, Option.some.inj ht'⟩
  have hstep₃ := rangeStep_of_present (s := (m₁, stores)) hfirst.1
  have hstep₂ : k.rangeStep addr 2 t'.addr (m₁, stores) =
      (some (k.childTable e).addr, m₁, stores) := by
    rw [← hentry] at hpresent ⊢
    exact rangeStep_of_present hpresent
  have hround : k.rangeRound flags addr (m₁, stores) =
      (0, m₁.write64 (entryAddr (k.childTable e).addr (ptIndex addr 1))
        (k.arch.pteLeaf (addr &&& ~~~(hugeSpan - 1)) flags true),
        entryAddr (k.childTable e).addr (ptIndex addr 1) :: stores) := by
    rw [rangeRound, ← hl4, show ptTopLevel - 1 = 2 from rfl, rangeTable, hstep₃]
    dsimp only
    rw [show k.childTable (m₁.read64 (entryAddr r.addr (ptIndex addr 3))) = t' from hfirst.2,
      rangeTable, hstep₂]
    rfl
  have haddr := entryAddr_toNat (k.childTable e) (ptIndex addr 1)
  have hfit := (k.childTable e).fits
  have hi := (ptIndex addr 1).isLt
  have hspan := entry_subset (k.childTable e) (ptIndex addr 1)
  rw [hround]
  refine ⟨⟨live₁, hkeeps.trans (hkeeps.tables.rangeTables_congr rfl ?_ fun v hv => ?_)⟩,
    _, List.mem_cons_self, hspan ⟨le_rfl, by omega⟩⟩
  · exact hkeeps.tables.heap.of_eqOn_compl
      ((hspan.trans hkept).trans (Allocator.kept_mono hkeeps.sub))
      (Memory.write64_eqOn _ _ (by omega))
  · intro x hx
    refine Memory.write64_eqOn _ _ (by omega) fun hin => ?_
    exact hkeeps.not_mem_bytes (hkept (hspan hin))
      (fun t ht => Set.disjoint_left.mp (hdata t ht) (hspan hin)) hv hx

theorem rangeTable_stores (n : Nat) (table : Word) {s : Memory × List Word}
    (hslot : slot ∈ s.2) : slot ∈ (k.rangeTable addr n table s).2.2 := by
  induction n generalizing table s with
  | zero => exact hslot
  | succ n ih =>
      have hstep : slot ∈ (k.rangeStep addr (n + 2) table s).2.2 := by
        rw [rangeStep]
        dsimp only
        split_ifs
        · exact hslot
        · exact List.mem_cons_of_mem _ hslot
        · exact hslot
      rw [rangeTable]
      generalize k.rangeStep addr (n + 2) table s = res at hstep ⊢
      obtain ⟨child, s'⟩ := res
      cases child with
      | none => exact hstep
      | some child => exact ih child hstep

/-- A store is never forgotten. -/
theorem rangeRound_stores {s : Memory × List Word} (hslot : slot ∈ s.2) :
    slot ∈ (k.rangeRound flags addr s).2.2 := by
  have htable : slot ∈ (k.rangeTable addr (ptTopLevel - 1) k.pageTableL4 s).2.2 :=
    rangeTable_stores _ _ hslot
  rw [rangeRound]
  generalize k.rangeTable addr (ptTopLevel - 1) k.pageTableL4 s = res at htable ⊢
  obtain ⟨table, m₁, slots⟩ := res
  cases table with
  | none => exact htable
  | some table => exact List.mem_cons_of_mem _ htable

/-- In a call that returns 0 every leaf of level 2 above the range has been stored to as if
it were a table. -/
theorem mapPhysicalRange_leaves (h : k.PageTables m live {r}) (hl4 : r.addr = k.pageTableL4)
    {pages : List Word} (hpages : ∀ addr ∈ pages, addr.toNat % 2 ^ 21 = 0 ∧ Canonical addr ∧
      addr.toNat + 2 ^ 21 ≤ k.arch.physBound)
    (hleaves : ∀ addr ∈ pages, ∀ q e, k.UnderLargeLeaf m r addr q e →
      q.length = 1 ∧ (k.childTable e).bytes ⊆ k.alloc.kept live ∧
        ∀ t, k.Reached m {r} t → Disjoint (k.childTable e).bytes t.bytes)
    (hzero : (forEach (k.rangeRound flags) pages (m, [])).1 = 0) :
    (∃ live', k.RangeTables {r} r m live (forEach (k.rangeRound flags) pages (m, [])).2.1 live') ∧
      ∀ addr ∈ pages, ∀ q e, k.UnderLargeLeaf m r addr q e →
        ∃ slot ∈ (forEach (k.rangeRound flags) pages (m, [])).2.2,
          slot ∈ (k.childTable e).bytes := by
  have hloop := forEach_rule (k.rangeRound flags) pages
    (fun done s => (∃ live', k.RangeTables {r} r m live s.1 live') ∧
      ∀ addr ∈ done, ∀ q e, k.UnderLargeLeaf m r addr q e →
        ∃ slot ∈ s.2, slot ∈ (k.childTable e).bytes)
    (fun _ => True) (s := (m, [])) ⟨⟨live, h.rangeTables_refl r⟩, by simp⟩ ?_
  · rcases hloop with ⟨-, hdone⟩ | ⟨hne, -⟩
    · exact hdone
    · exact absurd hzero hne
  · rintro done addr rest ⟨m₁, stores⟩ hsplit ⟨⟨live₁, hkeeps⟩, hdone⟩
    have hmem : addr ∈ pages := hsplit ▸ by simp
    obtain ⟨haligned, hcanon, hbound⟩ := hpages addr hmem
    by_cases hstatus : (k.rangeRound flags addr (m₁, stores)).1 = 0
    · have hlogged : ∀ a ∈ done, ∀ q e, k.UnderLargeLeaf m r a q e →
          ∃ slot ∈ (k.rangeRound flags addr (m₁, stores)).2.2, slot ∈ (k.childTable e).bytes := by
        intro a ha q e hleaf
        obtain ⟨slot, hslot, hin⟩ := hdone a ha q e hleaf
        exact ⟨slot, rangeRound_stores hslot, hin⟩
      have hround : ∀ q e, k.UnderLargeLeaf m r addr q e →
          (∃ live', k.RangeTables {r} r m live (k.rangeRound flags addr (m₁, stores)).2.1 live') ∧
            ∃ slot ∈ (k.rangeRound flags addr (m₁, stores)).2.2, slot ∈ (k.childTable e).bytes := by
        intro q e hleaf
        obtain ⟨hlen, hkept, hdata⟩ := hleaves addr hmem q e hleaf
        exact rangeRound_of_largeLeaf hl4 hkeeps hleaf hlen hkept hdata
      refine Or.inl ⟨hstatus, ?_, fun a ha q e hleaf => ?_⟩
      · by_cases hclear : ∀ q e, ¬ k.UnderLargeLeaf m r addr q e
        · have hclear₁ : ∀ q e, ¬ k.UnderLargeLeaf m₁ r addr q e := by
            intro q e
            rw [UnderLargeLeaf, hkeeps.large]
            exact hclear q e
          obtain ⟨live₂, hkeeps₂, -⟩ := rangeRound_spec hkeeps.tables (Set.mem_singleton r) hl4
            hclear₁ hcanon haligned hbound flags stores
          exact ⟨live₂, hkeeps.trans hkeeps₂.toRangeTables⟩
        · push Not at hclear
          obtain ⟨q, e, hleaf⟩ := hclear
          exact (hround q e hleaf).1
      · rcases List.mem_append.mp ha with hold | hnew
        · exact hlogged a hold q e hleaf
        · obtain rfl := List.mem_singleton.mp hnew
          exact (hround q e hleaf).2
    · exact Or.inr ⟨hstatus, trivial⟩

/-- An entry leads to physical addresses of its own width, but for the offset. -/
theorem translate_phys_lt {x : Mapping} (hx : k.translate m r.addr va = some x) :
    x.phys.toNat < k.arch.physBound + 2 ^ 39 := by
  rw [translate_eq, Option.bind_eq_some_iff] at hx
  obtain ⟨⟨level, e⟩, hstop, hmap⟩ := hx
  have hlevel : level ≤ 3 := stopAt_level_le hstop
  rw [mappingOf] at hmap
  split_ifs at hmap with hpresent
  obtain rfl := Option.some.inj hmap
  obtain ⟨-, hphys⟩ : k.arch.IsFrame (k.arch.ptePhys e) := Arch.isFrame_ptePhys e
  have hoffset : (va &&& (levelSpan level - 1)).toNat < 2 ^ 39 := by
    rw [toNat_and_span va hlevel]
    exact (Nat.mod_lt _ (by positivity)).trans_le (Nat.pow_le_pow_right (by decide) (by omega))
  have hsum : (k.arch.ptePhys e + (va &&& (levelSpan level - 1))).toNat ≤
      (k.arch.ptePhys e).toNat + (va &&& (levelSpan level - 1)).toNat := by
    rw [BitVec.toNat_add]
    exact Nat.mod_le _ _
  change (k.arch.ptePhys e + (va &&& (levelSpan level - 1))).toNat < _
  omega

/-- A canonical address that some entry leads to is within the reach of an entry. -/
theorem canonical_lt_physBound (hva : Canonical va)
    (hphys : va.toNat < k.arch.physBound + 2 ^ 39) : va.toNat < k.arch.physBound := by
  have hlt := va.isLt
  rw [Canonical] at hva
  cases harch : k.arch with
  | x86_64 =>
      rw [harch, show Arch.physBound .x86_64 = 2 ^ 52 from rfl] at hphys
      rw [show Arch.physBound .x86_64 = 2 ^ 52 from rfl]
      omega
  | riscv64 => exact hlt

theorem UnderLargeLeaf.hugePage (haddr : Canonical addr) (haligned : addr.toNat % 2 ^ 21 = 0)
    (hva : Canonical va) (hin : InHugePage addr va) (h : k.UnderLargeLeaf m r va q e) :
    k.UnderLargeLeaf m r addr q e := by
  obtain ⟨t, i, hlarge, hpre⟩ := h
  have hshared := (inHugePage_iff_path haddr haligned hva).mp hin
  have hlen : (q ++ [i]).length ≤ [ptIndex addr 3, ptIndex addr 2, ptIndex addr 1].length := by
    have hq : q.length ≤ 1 := hlarge.1
    simp only [List.length_append, List.length_cons, List.length_nil]
    omega
  refine ⟨t, i, hlarge, (List.prefix_of_prefix_length_le hpre hshared hlen).trans ?_⟩
  exact List.prefix_append [ptIndex addr 3, ptIndex addr 2, ptIndex addr 1] [ptIndex addr 0]

/-- A call that returns 0 and does what it says had a range that fits. -/
theorem rangeFits_of_mapped (h : k.PageTables m live roots) (hr : r ∈ roots)
    (hl4 : r.addr = k.pageTableL4) (hstart : physStart.toNat % 2 ^ 21 = 0)
    (hsize : size.toNat % 2 ^ 21 = 0)
    (hdata : k.LeavesNameData m live r physStart size)
    (hzero : (k.mapPhysicalRange m physStart size flags).1 = 0)
    (hmapped : k.RangeMapped roots r m live physStart size
      (k.mapPhysicalRange m physStart size flags)) :
    k.RangeFits m r physStart size := by
  have hself := hmapped.mapped hzero
  by_cases hinside : physStart.toNat + size.toNat < 2 ^ 64
  · have hcanon : ∀ va : Word, InPhysRange physStart size va.toNat → Canonical va ∧
        va.toNat < k.arch.physBound := by
      intro va hva
      obtain ⟨va', hnat, hcanon, x, hx, hphys⟩ := hself _ hva
      obtain rfl : va' = va := BitVec.eq_of_toNat_eq hnat
      exact ⟨hcanon, canonical_lt_physBound hcanon (hphys ▸ translate_phys_lt hx)⟩
    have hin : ∀ addr ∈ hugePagesBetween physStart (physStart + size),
        InPhysRange physStart size addr.toNat := fun addr haddr =>
      (inPhysRange_iff hstart hsize hinside).mpr ⟨addr, haddr, le_rfl, by omega⟩
    have hpages : ∀ addr ∈ hugePagesBetween physStart (physStart + size),
        addr.toNat % 2 ^ 21 = 0 ∧ Canonical addr ∧ addr.toNat + 2 ^ 21 ≤ k.arch.physBound := by
      intro addr haddr
      obtain ⟨haligned, -⟩ := hugePages_inRange hstart hsize hinside haddr
      obtain ⟨hca, hbound⟩ := hcanon addr (hin addr haddr)
      have hmul := physBound_aligned (k := k)
      exact ⟨haligned, hca, by omega⟩
    obtain ⟨⟨live', hkeeps⟩, hleaves⟩ := mapPhysicalRange_leaves
      (h.mono (Set.singleton_subset_iff.mpr hr)) hl4 hpages
      (fun addr haddr q e => hdata addr q e (hin addr haddr)) hzero
    refine Or.inl ⟨hinside, fun va hva => ⟨(hcanon va hva).1, (hcanon va hva).2,
      fun q e hleaf => ?_⟩⟩
    obtain ⟨addr, haddr, hpage⟩ := (inPhysRange_iff hstart hsize hinside).mp hva
    obtain ⟨haligned, hca, -⟩ := hpages addr haddr
    have hleaf' := hleaf.hugePage hca haligned (hcanon va hva).1 hpage
    obtain ⟨slot, hslot, hframe⟩ := hleaves addr haddr q e hleaf'
    obtain ⟨-, hkept, hdis⟩ := hdata addr q e (hin addr haddr) hleaf'
    obtain ⟨t, i, ht, rfl⟩ := hmapped.stores slot hslot
    have hspan : entryAddr t.addr i ∈ t.bytes := by
      have haddr := entryAddr_toNat t i
      have hfit := t.fits
      have hi := i.isLt
      exact entry_subset t i ⟨le_rfl, by omega⟩
    exact hkeeps.not_mem_bytes (hkept hframe)
      (fun v hv => Set.disjoint_left.mp (hdis v hv) hframe) ht hspan
  · rw [mapPhysicalRange_of_wraps (by omega)] at hself
    exact Or.inr ⟨by omega, hself⟩

/-- The call maps its range to itself, changes no other translation and stores to its own
tables only, exactly where the range fits. -/
theorem mapPhysicalRange_exact_iff (h : k.PageTables m live roots) (hr : r ∈ roots)
    (hl4 : r.addr = k.pageTableL4) (hstart : physStart.toNat % 2 ^ 21 = 0)
    (hsize : size.toNat % 2 ^ 21 = 0) (flags : VmFlags) :
    (k.RangeFits m r physStart size → k.RangeMapped roots r m live physStart size
        (k.mapPhysicalRange m physStart size flags)) ∧
      (k.LeavesNameData m live r physStart size →
        (k.mapPhysicalRange m physStart size flags).1 = 0 →
        k.RangeMapped roots r m live physStart size (k.mapPhysicalRange m physStart size flags) →
        k.RangeFits m r physStart size) :=
  ⟨fun hfits => mapPhysicalRange_of_fits h hr hl4 hstart hsize hfits flags,
    fun hdata hzero hmapped => rangeFits_of_mapped h hr hl4 hstart hsize hdata hzero hmapped⟩

end Machine

/-- A range of four megabytes in the empty kernel table. -/
theorem mapPhysicalRange_exact_iff_sample :
    ((sampleMachine .x86_64).RangeFits sampleMemory sampleRoot 0x200000 0x400000 →
        (sampleMachine .x86_64).RangeMapped {sampleRoot} sampleRoot sampleMemory ∅ 0x200000 0x400000
          ((sampleMachine .x86_64).mapPhysicalRange sampleMemory 0x200000 0x400000 userData)) ∧
      ((sampleMachine .x86_64).LeavesNameData sampleMemory ∅ sampleRoot 0x200000 0x400000 →
        ((sampleMachine .x86_64).mapPhysicalRange sampleMemory 0x200000 0x400000 userData).1 = 0 →
        (sampleMachine .x86_64).RangeMapped {sampleRoot} sampleRoot sampleMemory ∅ 0x200000 0x400000
          ((sampleMachine .x86_64).mapPhysicalRange sampleMemory 0x200000 0x400000 userData) →
        (sampleMachine .x86_64).RangeFits sampleMemory sampleRoot 0x200000 0x400000) :=
  Machine.mapPhysicalRange_exact_iff (sampleTables .x86_64) (Set.mem_singleton sampleRoot) rfl
    (by decide) (by decide) userData

/-! ### A 1 GiB leaf -/

/-- The level-2 table of the kernel. -/
def sampleMiddle : TableAddr := ⟨0xffff800000002000, by decide⟩

/-- A leaf of level 2 that maps the first gigabyte to itself. -/
def gigabyteLeaf : Word := X86.pteLeaf 0 userData true

def sampleLinked : Memory :=
  sampleMemory.write64 (entryAddr sampleRoot.addr 0) (X86.pteTable 0x2000)

def gigabyteMemory : Memory :=
  sampleLinked.write64 (entryAddr sampleMiddle.addr 0) gigabyteLeaf

theorem sampleMiddle_empty (i : Fin 512) : ptEntry sampleMemory sampleMiddle i = 0 := by
  refine Machine.ptEntry_eq_zero (fun x hx => ?_) i
  apply sampleMemory_eq_zero
  rintro ⟨hlow, -⟩
  have hhigh : x.toNat < 0xffff800000002000 + 4096 := hx.2
  have hhead : 0xffff800000100000 ≤ x.toNat := hlow
  omega

theorem tableAt_sampleMemory {p : List (Fin 512)} {t : TableAddr}
    (ht : (sampleMachine .x86_64).tableAt sampleMemory ptTopLevel sampleRoot p = some t) :
    t = sampleRoot := by
  cases p with
  | nil =>
      rw [Machine.tableAt, Radix.tableAt_nil, Option.some.injEq] at ht
      exact ht.symm
  | cons i p =>
      rw [Machine.tableAt, show ptTopLevel = 2 + 1 from rfl, Radix.tableAt_cons,
        sampleRoot_empty, show (sampleMachine .x86_64).child (2 + 1) 0 = none by decide] at ht
      cases ht

theorem child_linked : (sampleMachine .x86_64).child 3 (X86.pteTable 0x2000) =
    some sampleMiddle := by
  decide

theorem child_gigabyteLeaf (level : Nat) :
    (sampleMachine .x86_64).child level gigabyteLeaf = none :=
  Machine.child_eq_none_iff.mpr (Or.inr (Arch.pteIsLeaf_pteLeaf_huge 0 userData level))

theorem linked_endsOrFresh : Radix.EndsOrFresh (sampleMachine .x86_64).child
    (ptEntry sampleMemory) ptTopLevel {sampleRoot} 3 (X86.pteTable 0x2000) := by
  intro c hc
  rw [child_linked, Option.some.injEq] at hc
  subst hc
  refine ⟨?_, fun n j _ => ?_⟩
  · rintro ⟨r, rfl, p, hp⟩
    exact absurd (tableAt_sampleMemory hp) (by decide)
  · rw [sampleMiddle_empty]
    exact Machine.child_eq_none_iff.mpr (Or.inl Arch.ptePresent_zero)

theorem linkedTables : (sampleMachine .x86_64).PageTables sampleLinked ∅ {sampleRoot} := by
  refine (sampleTables .x86_64).store (Set.mem_singleton sampleRoot) (Radix.tableAt_nil _ _)
    linked_endsOrFresh ?_ ?_
  · intro _ hleaf
    exact absurd hleaf (by decide)
  · intro c hc
    change (sampleMachine .x86_64).child 3 (X86.pteTable 0x2000) = some c at hc
    rw [child_linked, Option.some.injEq] at hc
    subst hc
    refine ⟨fun x hx => Or.inl ?_, fun j => ?_⟩
    · rintro ⟨hlow, -⟩
      have hhigh : x.toNat < 0xffff800000002000 + 4096 := hx.2
      have hhead : 0xffff800000100000 ≤ x.toNat := hlow
      omega
    · rw [sampleMiddle_empty]
      intro hpresent
      rw [Arch.ptePresent_zero] at hpresent
      cases hpresent

theorem tableAt_linked : (sampleMachine .x86_64).tableAt sampleLinked ptTopLevel sampleRoot [0] =
    some sampleMiddle := by
  rw [Machine.tableAt, show ptTopLevel = 2 + 1 from rfl, Radix.tableAt_cons, sampleLinked,
    Machine.ptEntry_write64,
    show Radix.setEntry (ptEntry sampleMemory) sampleRoot 0 (X86.pteTable 0x2000) sampleRoot 0 =
      X86.pteTable 0x2000 from if_pos ⟨rfl, rfl⟩,
    show (sampleMachine .x86_64).child (2 + 1) (X86.pteTable 0x2000) = some sampleMiddle from
      child_linked, Option.bind_some, Radix.tableAt_nil]

theorem gigabyte_endsOrFresh {fetch : TableAddr → Fin 512 → Word} {level : Nat} :
    Radix.EndsOrFresh (sampleMachine .x86_64).child fetch ptTopLevel {sampleRoot} level
      gigabyteLeaf := by
  intro c hc
  rw [child_gigabyteLeaf] at hc
  cases hc

/-- The tables are the top-level table and the one below it. -/
theorem reached_gigabyte {t : TableAddr}
    (ht : (sampleMachine .x86_64).Reached gigabyteMemory {sampleRoot} t) :
    t = sampleRoot ∨ t = sampleMiddle := by
  obtain ⟨r, rfl, p, hp⟩ := ht
  rw [gigabyteMemory, Machine.ptEntry_write64] at hp
  rcases Radix.tableAt_setEntry_cases linkedTables.separated (Set.mem_singleton sampleRoot)
    tableAt_linked gigabyte_endsOrFresh (Set.mem_singleton sampleRoot) hp with hp | ⟨-, -, hc⟩
  · rw [sampleLinked, Machine.ptEntry_write64] at hp
    rcases Radix.tableAt_setEntry_cases (sampleTables .x86_64).separated
      (Set.mem_singleton sampleRoot) (Radix.tableAt_nil _ _) linked_endsOrFresh
      (Set.mem_singleton sampleRoot) hp with hp | ⟨-, -, hc⟩
    · exact Or.inl (tableAt_sampleMemory hp)
    · change (sampleMachine .x86_64).child 3 (X86.pteTable 0x2000) = some t at hc
      rw [child_linked, Option.some.injEq] at hc
      exact Or.inr hc.symm
  · rw [child_gigabyteLeaf] at hc
    cases hc

/-- The call returns 0 and has stored an entry into the first frame of the gigabyte, which is
no table. -/
theorem mapPhysicalRange_stores_to_frame :
    ((sampleMachine .x86_64).mapPhysicalRange gigabyteMemory 0 0x200000 userData).1 = 0 ∧
      ¬ (sampleMachine .x86_64).RangeMapped {sampleRoot} sampleRoot gigabyteMemory ∅ 0 0x200000
        ((sampleMachine .x86_64).mapPhysicalRange gigabyteMemory 0 0x200000 userData) := by
  refine ⟨by decide +kernel, fun hmapped => ?_⟩
  have hsame := hmapped.frame 0xffff800000000000 (Or.inl ?_) fun t ht => ?_
  · exact absurd hsame (by decide +kernel)
  · rintro ⟨hlow, -⟩
    exact absurd hlow (by decide)
  · rcases reached_gigabyte ht with rfl | rfl
    · rintro ⟨hlow, -⟩
      exact absurd hlow (by decide)
    · rintro ⟨hlow, -⟩
      exact absurd hlow (by decide)

end Utopia
