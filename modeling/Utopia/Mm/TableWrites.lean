/-
Where the walkers of `mm/vmm.c` write: into the tables of one address space that lie on the
way, and into new tables.
-/
import Utopia.Mm.FreeTables
import Utopia.Mm.PageOps

namespace Utopia

namespace Machine

/-- The address `x` is in no table on the way to `virt`. -/
def OffWalk (k : Machine) (m : Memory) (r : TableAddr) (virt x : Word) : Prop :=
  ∀ q t, k.tableAt m ptTopLevel r q = some t → q <+: ptPath virt ptTopLevel → x ∉ t.bytes

variable {k : Machine} {m m' : Memory} {live live' : Set Chunk} {tops : Set (Fin 512)}
  {roots : Set TableAddr} {r t : TableAddr} {i : Fin 512} {p : List (Fin 512)} {virt x phys : Word}
  {flags : VmFlags} {n : Nat}

/-- The new tables are elsewhere. -/
theorem OffWalk.grows (h : k.OffWalk m r virt x) (hr : r ∈ roots)
    (hgrows : k.Grows tops roots r m live m' live') (hx : x ∈ k.alloc.kept live) :
    k.OffWalk m' r virt x := by
  intro q t hq hpre hxt
  rcases hgrows.reached r hr q t hq with hold | ⟨-, c, hc, hnew, hptr, hsize⟩
  · exact h q t hold hpre hxt
  · have hdis := Allocator.bytes_disjoint_kept hgrows.tables.heap hgrows.sub hc hnew
    refine Set.disjoint_left.mp hdis ?_ hx
    rw [Chunk.bytes, hptr]
    exact span_subset_span le_rfl (by omega) hxt

/-- A way in the user half leads through user tables. -/
theorem offWalk_of_userTables (hvirt : ¬ KernelIndex (ptIndex virt ptTopLevel))
    (hx : ∀ t ∈ k.userTables m r, x ∉ t.bytes) : k.OffWalk m r virt x := by
  intro q t hq hpre
  refine hx t ⟨q, fun j hj => ?_, hq⟩
  obtain ⟨rest, hrest⟩ := hpre
  cases q with
  | nil => cases hj
  | cons a q =>
      cases hj
      rw [List.cons_append, ptPath_top, List.cons.injEq] at hrest
      rw [hrest.1]
      exact hvirt

theorem storeEntry_writes (m : Memory) (e : Word) (hx : x ∉ t.bytes) :
    m.write64 (entryAddr t.addr i) e x = m x := by
  have hslot := entryAddr_toNat t i
  have hfits := t.fits
  have hi := i.isLt
  exact Memory.write64_eqOn m e (by omega) fun hspan => hx (entry_subset t i hspan)

theorem splitLeaf_writes (h : k.alloc.Live m live) (hx : x ∈ k.alloc.kept live)
    (hout : x ∉ t.bytes) : (k.splitLeaf m (entryAddr t.addr i) (n + 1)).2 x = m x := by
  rcases ptPoolAlloc_spec h with
    hnull | ⟨u, c, m₁, halloc, hptr, hne, hsize, hnew, hheap, hkept, -⟩
  · simp only [splitLeaf, hnull, if_true]
  · simp only [splitLeaf, halloc, if_neg hne]
    have hbytes : span u.addr 4096 ⊆ c.bytes := by
      rw [Chunk.bytes, hptr]
      exact span_subset_span le_rfl (by omega)
    obtain ⟨-, hfilled⟩ := Allocator.written hnew hheap hkept hbytes
      (Memory.fillWords_eqOn (n := 512) m₁ _ u.fits)
    exact (storeEntry_writes _ _ hout).trans (hfilled hx)

theorem walkDown_writes (create : Bool) (hr : r ∈ roots)
    (hvirt : ptIndex virt ptTopLevel ∈ tops) (level : Nat) (h : k.PageTables m live roots)
    (ht : k.tableAt m ptTopLevel r p = some t)
    (hpath : ptPath virt ptTopLevel = p ++ ptPath virt level) (hx : x ∈ k.alloc.kept live)
    (hoff : k.OffWalk m r virt x) : (k.walkDown create virt level m t.addr).2 x = m x := by
  induction level generalizing m live t p with
  | zero => rfl
  | succ level ih =>
      have hlevel : ptTopLevel - p.length = level + 1 := by
        have hlen := congrArg List.length hpath
        simp only [ptPath_length, List.length_append] at hlen
        omega
      have htop := head_path hvirt hpath
      have hpath' : ptPath virt ptTopLevel =
          (p ++ [ptIndex virt (level + 1)]) ++ ptPath virt level := by
        rw [hpath, List.append_assoc]
        rfl
      have hout : x ∉ t.bytes := hoff p t ht ⟨_, hpath.symm⟩
      have hentry : m.read64 (entryAddr t.addr (ptIndex virt (level + 1))) =
          ptEntry m t (ptIndex virt (level + 1)) := rfl
      rw [walkDown]
      simp only [hentry]
      by_cases habsent : k.arch.ptePresent (ptEntry m t (ptIndex virt (level + 1))) = false
      · simp only [if_pos habsent]
        cases create with
        | true =>
            simp only [if_true]
            rcases ptPoolAlloc_spec h.heap with
              hnull | ⟨u, c, m₁, halloc, hptr, hne, hsize, hnew, hheap, hkept, hzero⟩
            · simp only [hnull, if_true]
            · simp only [halloc, if_neg hne]
              obtain ⟨hgrows, hchild⟩ := h.createTable hr ht hlevel htop habsent hptr hsize
                hnew hheap hkept hzero
              rw [ih hgrows.tables hchild hpath' (Allocator.kept_mono hgrows.sub hx)
                (hoff.grows hr hgrows hx), storeEntry_writes _ _ hout, hkept hx]
        | false => simp only [Bool.false_eq_true, if_false]
      simp only [if_neg habsent]
      have hpresent : k.arch.ptePresent (ptEntry m t (ptIndex virt (level + 1))) = true := by
        simpa using habsent
      by_cases hleaf : k.arch.pteIsLeaf (ptEntry m t (ptIndex virt (level + 1))) (level + 1) = true
      · simp only [if_pos hleaf]
        have hwrites := @splitLeaf_writes k m live t (ptIndex virt (level + 1)) x level h.heap hx hout
        rcases h.splitLeaf_spec hr ht hlevel htop hpresent hleaf with
          hfail | ⟨m₁, live₁, u, hsplit, hgrows, hchild, hu⟩
        · simp only [hfail, Bool.false_eq_true, if_false]
        · rw [hsplit] at hwrites
          simp only [hsplit, if_true, hu]
          exact (ih hgrows.tables hchild hpath' (Allocator.kept_mono hgrows.sub hx)
            (hoff.grows hr hgrows hx)).trans hwrites
      · simp only [if_neg hleaf]
        apply ih h (t := k.childTable _) _ hpath' hx hoff
        rw [tableAt, Radix.tableAt_append _ ht, hlevel, Radix.tableAt_cons]
        simp [child, hpresent, hleaf]

section Pages

variable (h : k.PageTables m live roots) (hr : r ∈ roots)
  (hvirt : ¬ KernelIndex (ptIndex virt ptTopLevel)) (hx : x ∈ k.alloc.kept live)
  (hout : ∀ t ∈ k.userTables m r, x ∉ t.bytes)

include h hr hvirt hx hout

/-- The walk to a user page with its last table. -/
theorem walkDown_user_writes (create : Bool) :
    (k.walkDown create virt ptTopLevel m r.addr).2 x = m x ∧
      ∀ t : TableAddr, (k.walkDown create virt ptTopLevel m r.addr).1 = .table t.addr →
        x ∉ t.bytes := by
  have hoff := offWalk_of_userTables hvirt hout
  have hroot : k.tableAt m ptTopLevel r [] = some r := Radix.tableAt_nil _ _
  have hmem : ptIndex virt ptTopLevel ∈ userTops := hvirt
  refine ⟨walkDown_writes (p := []) create hr hmem ptTopLevel h hroot rfl hx hoff,
    fun t hwalk => ?_⟩
  obtain ⟨live', hgrows, hfound⟩ := walkDown_spec (p := []) create hr hmem ptTopLevel h hroot rfl
  rw [hwalk] at hfound
  obtain ⟨u, p, hu, htable, hpath⟩ := hfound
  obtain rfl : u = t := TableAddr.ext hu
  exact hoff.grows hr hgrows hx p u htable ⟨_, hpath.symm⟩

theorem mapPage4k_writes : (k.mapPage4k m r.addr virt phys flags).2 x = m x := by
  obtain ⟨hwalk, hlast⟩ := walkDown_user_writes h hr hvirt hx hout true
  obtain ⟨live', -, hfound⟩ := walkDown_spec (p := []) true hr
    (show ptIndex virt ptTopLevel ∈ userTops from hvirt) ptTopLevel h (Radix.tableAt_nil _ _) rfl
  simp only [mapPage4k, if_neg (h.nonnull r hr)]
  generalize k.walkDown true virt ptTopLevel m r.addr = walk at *
  obtain ⟨descent, m'⟩ := walk
  cases descent with
  | table addr =>
      obtain ⟨t, -, rfl, -⟩ := hfound
      exact (storeEntry_writes _ _ (hlast t rfl)).trans hwalk
  | missing => exact hwalk
  | noMemory => exact hwalk

theorem protectPage4k_writes : (k.protectPage4k m r.addr virt flags).2 x = m x := by
  obtain ⟨hwalk, hlast⟩ := walkDown_user_writes h hr hvirt hx hout false
  obtain ⟨live', -, hfound⟩ := walkDown_spec (p := []) false hr
    (show ptIndex virt ptTopLevel ∈ userTops from hvirt) ptTopLevel h (Radix.tableAt_nil _ _) rfl
  simp only [protectPage4k, if_neg (h.nonnull r hr)]
  generalize k.walkDown false virt ptTopLevel m r.addr = walk at *
  obtain ⟨descent, m'⟩ := walk
  cases descent with
  | table addr =>
      obtain ⟨t, -, rfl, -⟩ := hfound
      simp only
      split_ifs
      · exact hwalk
      · exact (storeEntry_writes _ _ (hlast t rfl)).trans hwalk
  | missing => exact hwalk
  | noMemory => exact hwalk

end Pages

end Machine

end Utopia
