/-
`clone_user_address_space` duplicates the user half of an address space, or
leaves the heap as it was.
-/
import Utopia.Mm.CloneSteps
import Utopia.Mm.PageRefine
import Mathlib.Data.Fintype.Card

namespace Utopia

namespace Machine

/-- What a part of the clone did to the memory `m` with the copies `copies`: it
has copied the pages `covered` if its status is 0. -/
def Advances (k : Machine) (roots : Set TableAddr) (s n : TableAddr) (m₀ : Memory)
    (live₀ : Set Chunk) (skip : Vpn → Prop) (m : Memory) (copies : List (Vpn × Word))
    (changed : List (Fin 512) → Fin 512 → Prop) (covered : Vpn → Prop)
    (r : Int × Memory × PageList) : Prop :=
  ∃ live' copies' array',
    k.Cloning roots s n m₀ live₀ skip r.2.1 live' r.2.2 copies' array' ∧ copies <+: copies' ∧
    k.KeepsEntries n m r.2.1 changed ∧
    (r.1 = 0 → ∀ page : Vpn, page.User → covered page → ¬ skip page →
      (k.spaceOf m₀ s.addr page).isSome → page ∈ copies'.map Prod.fst)

variable {k : Machine} {m₀ m m' : Memory} {live₀ live array : Set Chunk}
  {roots : Set TableAddr} {s n tn ts : TableAddr} {owned : PageList}
  {copies copies' : List (Vpn × Word)} {skip : Vpn → Prop} {va skipLo skipHi : Word}
  {p : List (Fin 512)} {i : Fin 512} {level : Nat}

theorem mem_fst_of_isPrefix (h : copies <+: copies') {page : Vpn}
    (hpage : page ∈ copies.map Prod.fst) : page ∈ copies'.map Prod.fst :=
  (h.map Prod.fst).subset hpage

theorem Cloning.length_le (h : k.Cloning roots s n m₀ live₀ skip m live owned copies array) :
    copies.length ≤ 2 ^ 36 := by
  have hnodup : List.Nodup ((copies.map Prod.fst).map BitVec.toFin) := by
    refine h.pages.map fun a b hab => ?_
    exact BitVec.eq_of_toFin_eq hab
  simpa using List.Nodup.length_le_card hnodup

/-- A round that does nothing. -/
theorem Advances.skip_entry
    (h : k.Cloning roots s n m₀ live₀ skip m live owned copies array) {status : Int}
    {changed : List (Fin 512) → Fin 512 → Prop} {covered : Vpn → Prop}
    (hnothing : status = 0 → ∀ page : Vpn, page.User → covered page → ¬ skip page →
      (k.spaceOf m₀ s.addr page).isSome → page ∈ copies.map Prod.fst) :
    k.Advances roots s n m₀ live₀ skip m copies changed covered (status, m, owned) :=
  ⟨live, copies, array, h, List.prefix_refl _, fun _ _ hq => ⟨hq, fun _ _ => rfl⟩, hnothing⟩

/-- Copying the page of one level-0 entry. -/
theorem Cloning.cloneUserPage_spec (hsource : k.CloneSource roots s m₀ live₀)
    (h : k.Cloning roots s n m₀ live₀ skip m live owned copies array)
    (hbase : PathBase va 0 p) (hi : i ∈ levelEntries 0)
    (htn : k.tableAt m ptTopLevel n p = some tn)
    (habsent : k.arch.ptePresent (ptEntry m tn i) = false)
    (hts : k.tableAt m₀ ptTopLevel s p = some ts)
    (hpresent : k.arch.ptePresent (ptEntry m₀ ts i) = true)
    (hskip : ¬ skip (vpn (entryVa va 0 i))) :
    k.Advances roots s n m₀ live₀ skip m copies (fun q j => q = p ∧ j = i)
      (fun page => page = vpn (entryVa va 0 i))
      (k.cloneUserPage tn.addr i (ptEntry m₀ ts i) (m, owned)) := by
  obtain ⟨haddr, hpath, hindex, -⟩ := hbase.page hi
  have huser : (vpn (entryVa va 0 i)).User := by
    have hbound := hbase.index_lt hi
    rw [Vpn.user_iff, haddr, hbase.entryVa_toNat]
    norm_num at hbound ⊢
    omega
  rw [cloneUserPage]
  rcases ptPoolAlloc_spec h.tables.heap with
    hnull | ⟨u, c, m₁, halloc, hptr, hne, hsize, hnew, hheap, hkept, -⟩
  · simp only [hnull, if_true]
    exact Advances.skip_entry h (by simp)
  simp only [halloc, if_neg hne]
  have hsub : array ⊆ insert c live := fun d hd =>
    Or.inr (h.mine_sub (h.holding.array_sub hd))
  have hlist₁ : owned.Holds m₁ (copies.map Prod.snd) array :=
    h.holding.list.congr h.tables.heap (h.holding.array_sub.trans h.mine_sub) fun d hd =>
      hkept.mono (Allocator.bytes_subset_kept (h.mine_sub (h.holding.array_sub hd)))
  have hlen : (copies.map Prod.snd).length ≤ 2 ^ 52 := by
    rw [List.length_map]
    exact h.length_le.trans (by norm_num)
  rcases PageList.pageListAdd_spec hheap hlist₁ hsub hlen u.addr with
    hfail | ⟨m₂, owned', array', hadd, hmoves⟩
  · simp only [hfail]
    obtain ⟨hlive', hkept'⟩ := k.alloc.free_spec hheap (Set.mem_insert c live)
    rw [Set.insert_sdiff_of_mem _ (Set.mem_singleton c), Set.sdiff_singleton_eq_self hnew,
      hptr] at hlive' hkept'
    have hback := h.congr hlive' (hkept'.trans hkept)
    refine ⟨live, copies, array, hback, List.prefix_refl _, ?_, by simp⟩
    intro q t hq
    have htable : ∀ t, k.Reached m (insert n roots) t →
        Set.EqOn (k.alloc.free m₁ u.addr) m t.bytes :=
      fun t ht => (hkept'.trans hkept).mono (h.tables.kept t ht)
    have hfetch : ∀ t i, k.Reached m (insert n roots) t →
        ptEntry (k.alloc.free m₁ u.addr) t i = ptEntry m t i :=
      fun t i ht => congrFun (ptEntry_congr (htable t ht)) i
    have hn : n ∈ insert n roots := Set.mem_insert n roots
    refine ⟨?_, fun j _ => hfetch t j ⟨n, hn, q, hq⟩⟩
    exact (Radix.tableAt_congr_reached hfetch hn q).trans hq
  · simp only [hadd]
    rw [← hptr] at hmoves
    obtain ⟨live', hclone, hkeeps⟩ := Cloning.mapPage hsource h htn (hbase.private hi) habsent hts
      hpresent hpath hindex huser hskip rfl hptr hsize hnew hheap hkept hmoves rfl rfl
    exact ⟨live', _, array', hclone, List.prefix_append _ _, hkeeps, by
      rintro - page - rfl - -
      simp⟩

/-- The loop over the entries of one table, given what a round does. -/
theorem Cloning.cloneEntries_spec
    {body : Fin 512 → Memory × PageList → Int × Memory × PageList}
    (h : k.Cloning roots s n m₀ live₀ skip m live owned copies array)
    (hbase : PathBase va level p) (htn : k.tableAt m ptTopLevel n p = some tn)
    (habsent : ∀ i ∈ levelEntries level, k.arch.ptePresent (ptEntry m tn i) = false)
    (hround : ∀ i ∈ levelEntries level, ∀ m' live' owned' copies' array',
      k.Cloning roots s n m₀ live₀ skip m' live' owned' copies' array' →
      k.tableAt m' ptTopLevel n p = some tn → k.arch.ptePresent (ptEntry m' tn i) = false →
      k.Advances roots s n m₀ live₀ skip m' copies' (fun q j => p <+: q ∧ (q = p → j = i))
        (fun page => BelowEntryVa va level i page.addr) (body i (m', owned'))) :
    k.Advances roots s n m₀ live₀ skip m copies
      (fun q j => p <+: q ∧ (q = p → j ∈ levelEntries level))
      (fun page => page.addr.toNat / 2 ^ (12 + (level + 1) * 9) =
        va.toNat / 2 ^ (12 + (level + 1) * 9))
      (forEach body (levelEntries level) (m, owned)) := by
  have hnodup : (levelEntries level).Nodup := by
    rw [levelEntries, userEntries]
    split_ifs
    · exact (List.nodup_finRange 512).filter _
    · exact List.nodup_finRange 512
  refine (forEach_rule body (levelEntries level)
    (fun done x => k.Advances roots s n m₀ live₀ skip m copies
      (fun q j => p <+: q ∧ (q = p → j ∈ done))
      (fun page => ∃ j ∈ done, BelowEntryVa va level j page.addr) (0, x))
    (fun x => k.Advances roots s n m₀ live₀ skip m copies
      (fun q j => p <+: q ∧ (q = p → j ∈ levelEntries level)) (fun _ => False) (0, x))
    (Advances.skip_entry h (by simp)) ?_).elim ?_ ?_
  · rintro done i rest ⟨m', owned'⟩ hsplit ⟨live', copies', array', hclone, hpre, hkeeps,
      hcover⟩
    have hi : i ∈ levelEntries level := by
      rw [hsplit]
      simp
    have hnotDone : i ∉ done := by
      rw [hsplit, List.nodup_append] at hnodup
      exact fun hmem => hnodup.2.2 i hmem i List.mem_cons_self rfl
    obtain ⟨htn', hentries⟩ := hkeeps p tn htn
    have habsent' : k.arch.ptePresent (ptEntry m' tn i) = false := by
      rw [hentries i fun hchanged => hnotDone (hchanged.2 rfl)]
      exact habsent i hi
    obtain ⟨live'', copies'', array'', hclone', hpre', hkeeps', hcover'⟩ :=
      hround i hi m' live' owned' copies' array' hclone htn' habsent'
    have hboth := hkeeps.trans hkeeps'
    by_cases hstatus : (body i (m', owned')).1 = 0
    · refine Or.inl ⟨hstatus, live'', copies'', array'', hclone', hpre.trans hpre', ?_, ?_⟩
      · refine hboth.mono ?_
        rintro q j (⟨hq, hj⟩ | ⟨hq, hj⟩)
        · exact ⟨hq, fun heq => List.mem_append_left _ (hj heq)⟩
        · exact ⟨hq, fun heq => by simp [hj heq]⟩
      · rintro - page huser ⟨j, hj, hpage⟩ hskip hsome
        rcases List.mem_append.mp hj with hj | hj
        · exact mem_fst_of_isPrefix hpre' (hcover rfl page huser ⟨j, hj, hpage⟩ hskip hsome)
        · rw [List.mem_singleton.mp hj] at hpage
          exact hcover' hstatus page huser hpage hskip hsome
    · refine Or.inr ⟨hstatus, live'', copies'', array'', hclone', hpre.trans hpre', ?_,
        fun _ _ _ hfalse => hfalse.elim⟩
      refine hboth.mono ?_
      rintro q j (⟨hq, hj⟩ | ⟨hq, hj⟩)
      · refine ⟨hq, fun heq => ?_⟩
        rw [hsplit]
        exact List.mem_append_left _ (hj heq)
      · exact ⟨hq, fun heq => hj heq ▸ hi⟩
  · rintro ⟨-, live', copies', array', hclone, hpre, hkeeps, hcover⟩
    refine ⟨live', copies', array', hclone, hpre, hkeeps, ?_⟩
    intro _ page huser hpage
    refine hcover rfl page huser ⟨ptIndex page.addr level, ?_, hbase.below_of_index hpage⟩
    rw [levelEntries]
    split_ifs with htop
    · rw [mem_userEntries, htop]
      exact huser
    · exact List.mem_finRange _
  · rintro ⟨hstatus, live', copies', array', hclone, hpre, hkeeps, -⟩
    exact ⟨live', copies', array', hclone, hpre, hkeeps, fun h => absurd h hstatus⟩

/-- Nothing is mapped below an absent entry of the source. -/
theorem spaceOf_of_absent (hbase : PathBase va level p)
    (hts : k.tableAt m₀ ptTopLevel s p = some ts)
    (habsent : k.arch.ptePresent (ptEntry m₀ ts i) = false) {page : Vpn}
    (hbelow : BelowEntryVa va level i page.addr) : k.spaceOf m₀ s.addr page = none := by
  obtain ⟨hindex, hsame⟩ := hbase.index_eq hbelow
  have hlevel : ptTopLevel - p.length = level := by
    have hlen := hbase.len
    omega
  have hpath : ptPath page.addr level = i :: (ptPath page.addr level).tail := by
    cases level <;> simp [ptPath, ← hindex]
  rw [spaceOf, translate_eq, hbase.path _ hsame, Radix.stopAt_append _ hts, hlevel, hpath,
    Radix.stopAt_cons_of_child_eq_none _ (child_eq_none_iff.mpr (Or.inl habsent))]
  exact mappingOf_of_not_present habsent _

theorem Cloning.cloneUserLevel_spec (hsource : k.CloneSource roots s m₀ live₀)
    (hskip : ∀ page : Vpn, skip page ↔ skipLo ≤ page.addr ∧ page.addr < skipHi)
    (h : k.Cloning roots s n m₀ live₀ skip m live owned copies array)
    (hbase : PathBase va level p) (htn : k.tableAt m ptTopLevel n p = some tn)
    (hts : k.tableAt m₀ ptTopLevel s p = some ts)
    (habsent : ∀ i ∈ levelEntries level, k.arch.ptePresent (ptEntry m tn i) = false) :
    k.Advances roots s n m₀ live₀ skip m copies
      (fun q j => p <+: q ∧ (q = p → j ∈ levelEntries level))
      (fun page => page.addr.toNat / 2 ^ (12 + (level + 1) * 9) =
        va.toNat / 2 ^ (12 + (level + 1) * 9))
      (k.cloneUserLevel skipLo skipHi level ts.addr tn.addr va (m, owned)) := by
  induction level generalizing ts tn va p m live owned copies array with
  | zero =>
      rw [cloneUserLevel]
      refine h.cloneEntries_spec hbase htn habsent ?_
      intro i hi m' live' owned' copies' array' hclone htn' habsent'
      obtain ⟨haddr, -, -, hunique⟩ := hbase.page hi
      have hentry := hsource.entry_eq hclone.kept hts i
      simp only [hentry]
      split_ifs with hnone hskipped
      · refine Advances.skip_entry hclone ?_
        rintro - page - hpage - hsome
        rw [spaceOf_of_absent hbase hts hnone hpage] at hsome
        cases hsome
      · refine Advances.skip_entry hclone ?_
        rintro - page - hpage hnot -
        refine absurd ((hskip page).mpr ?_) hnot
        rwa [hunique page hpage, haddr]
      · obtain ⟨live'', copies'', array'', hclone', hpre, hkeeps, hcover⟩ :=
          hclone.cloneUserPage_spec hsource hbase hi htn' habsent' hts (by simpa using hnone)
            (by rwa [hskip, haddr])
        refine ⟨live'', copies'', array'', hclone', hpre, hkeeps.mono ?_, ?_⟩
        · rintro q j ⟨rfl, rfl⟩
          exact ⟨List.prefix_refl _, fun _ => rfl⟩
        · intro hstatus page huser hpage
          exact hcover hstatus page huser (hunique page hpage)
  | succ level ih =>
      rw [cloneUserLevel]
      refine h.cloneEntries_spec hbase htn habsent ?_
      intro i hi m' live' owned' copies' array' hclone htn' habsent'
      have hentry := hsource.entry_eq hclone.kept hts i
      simp only [hentry]
      by_cases hnone : k.arch.ptePresent (ptEntry m₀ ts i) = false
      · rw [if_pos hnone]
        refine Advances.skip_entry hclone ?_
        rintro - page - hpage - hsome
        rw [spaceOf_of_absent hbase hts hnone hpage] at hsome
        cases hsome
      rw [if_neg hnone]
      by_cases hleaf : k.arch.pteIsLeaf (ptEntry m₀ ts i) (level + 1) = true
      · rw [if_pos hleaf]
        exact Advances.skip_entry hclone (by simp)
      rw [if_neg hleaf]
      by_cases hskipped : skipLo ≤ entryVa va (level + 1) i ∧
          entryVa va (level + 1) i + levelSpan (level + 1) ≤ skipHi
      · rw [if_pos hskipped]
        refine Advances.skip_entry hclone ?_
        rintro - page - hpage hnot -
        exact absurd ((hskip page).mpr (hbase.skipped hi hskipped.1 hskipped.2 hpage)) hnot
      · rw [if_neg hskipped]
        have hlevel : ptTopLevel - p.length = level + 1 := by
          have hlen := hbase.len
          omega
        rcases ptPoolAlloc_spec hclone.tables.heap with
          hnull | ⟨u, c, m₁, halloc, hptr, hne, hsize, hnew, hheap, hkept, hzero⟩
        · simp only [hnull, if_true]
          exact Advances.skip_entry hclone (by simp)
        simp only [halloc, if_neg hne]
        obtain ⟨hclone₁, hu, hempty, hkeeps₁⟩ := hclone.addTable htn' hlevel (hbase.private hi)
          habsent' hptr hsize hnew hheap hkept hzero rfl
        have hchild : k.tableAt m₀ ptTopLevel s (p ++ [i]) =
            some (k.childTable (ptEntry m₀ ts i)) := by
          rw [tableAt, Radix.tableAt_append _ hts, hlevel, Radix.tableAt_cons]
          simp [child, hnone, hleaf]
        obtain ⟨live'', copies'', array'', hclone', hpre, hkeeps, hcover⟩ :=
          ih hclone₁ (hbase.entry hi) hu hchild fun j _ => hempty j
        refine ⟨live'', copies'', array'', hclone', hpre, (hkeeps₁.trans hkeeps).mono ?_,
          hcover⟩
        rintro q j (⟨rfl, rfl⟩ | hq)
        · exact ⟨List.prefix_refl _, fun _ => rfl⟩
        · refine ⟨(List.prefix_append p [i]).trans hq.1, ?_⟩
          rintro rfl
          have hlen := hq.1.length_le
          simp at hlen

/-! ### The whole address space -/

/-- A finished clone: every page of the source that is not skipped has its copy,
and the kernel entries are those of `kr`. -/
structure Cloned (k : Machine) (roots : Set TableAddr) (s kr n : TableAddr) (m₀ : Memory)
    (live₀ : Set Chunk) (skip : Vpn → Prop) (m : Memory) (live : Set Chunk)
    (owned : PageList) (copies : List (Vpn × Word)) (array : Set Chunk) : Prop
    extends k.Cloning roots s n m₀ live₀ skip m live owned copies array where
  complete : ∀ page : Vpn, page.User → ¬ skip page → (k.spaceOf m₀ s.addr page).isSome →
    page ∈ copies.map Prod.fst
  kernel : ∀ i, KernelIndex i → ptEntry m n i = ptEntry m kr i
  not_root : n ∉ roots
  nonnull : n.addr ≠ 0

/-- The pages between `lo` and `hi`. -/
def skipped (lo hi : Word) (page : Vpn) : Prop := lo ≤ page.addr ∧ page.addr < hi

/-- The clone that `clone_page_table` starts. -/
theorem NewSpace.cloning {kr : TableAddr} {c : Chunk} (hsource : k.CloneSource roots s m₀ live₀)
    (hkr : kr ∈ roots) (h : k.NewSpace m₀ live₀ roots kr n c m) (skip : Vpn → Prop) :
    k.Cloning roots s n m₀ live₀ skip m (insert c live₀) PageList.empty [] ∅ := by
  have hmine : insert c live₀ \ live₀ = {c} := by
    rw [Set.insert_sdiff_of_notMem _ h.fresh, Set.sdiff_self]
    exact insert_empty_eq c
  refine ⟨h.tables, Set.subset_insert c live₀, h.kept, ?_, ?_, List.nodup_nil, by simp, ?_⟩
  · rw [hmine]
    exact h.holding
  · rw [hmine]
    exact NewSpace.other hsource.tables hkr h
  · intro page huser _
    exact h.root.spaceOf_user huser

theorem cloneUserAddressSpace_spec {kr : TableAddr} (hsource : k.CloneSource roots s m₀ live₀)
    (hkr : kr ∈ roots) (hkernel : kr.addr = k.pageTableL4) (skipLo skipHi : Word) :
    (∃ m, k.cloneUserAddressSpace m₀ s.addr skipLo skipHi PageList.empty =
        (0, m, PageList.empty) ∧ k.alloc.Live m live₀ ∧
        Set.EqOn m m₀ (k.alloc.kept live₀)) ∨
      ∃ n m live owned copies array,
        k.cloneUserAddressSpace m₀ s.addr skipLo skipHi PageList.empty = (n.addr, m, owned) ∧
        k.Cloned roots s kr n m₀ live₀ (skipped skipLo skipHi) m live owned copies array := by
  rw [cloneUserAddressSpace]
  rcases hsource.tables.clonePageTable_spec hkr hkernel with hnull | ⟨n, c, m₁, hnew, hspace⟩
  · left
    simp only [hnull, if_true]
    exact ⟨m₀, rfl, hsource.tables.heap, Set.eqOn_refl _ _⟩
  simp only [hnew, if_neg hspace.nonnull]
  have hstart := hspace.cloning hsource hkr (skipped skipLo skipHi)
  have hn : k.tableAt m₁ ptTopLevel n [] = some n := Radix.tableAt_nil _ _
  obtain ⟨live, copies, array, hclone, -, hkeeps, hcover⟩ :=
    hstart.cloneUserLevel_spec hsource (fun _ => Iff.rfl) pathBase_top hn
      (Radix.tableAt_nil _ _) fun i hi => by
        rw [levelEntries, if_pos rfl, mem_userEntries] at hi
        rw [hspace.root.user i hi]
        exact Arch.ptePresent_zero
  generalize k.cloneUserLevel skipLo skipHi ptTopLevel s.addr n.addr 0 (m₁, PageList.empty) =
    result at hclone hkeeps hcover ⊢
  obtain ⟨status, m, owned⟩ := result
  by_cases hstatus : status = 0
  · right
    simp only [hstatus, ne_eq, not_true_eq_false, if_false]
    refine ⟨n, m, live, owned, copies, array, rfl, hclone, ?_, ?_, hspace.not_root,
      hspace.nonnull⟩
    · intro page huser hskip hsome
      refine hcover hstatus page huser ?_ hskip hsome
      have hlt := huser.addr_lt
      change page.addr.toNat / 2 ^ 48 = 0
      omega
    · intro i hi
      have hsame := (hkeeps [] n hn).2 i fun hchanged => by
        have hmem := hchanged.2 rfl
        rw [levelEntries, if_pos rfl, mem_userEntries] at hmem
        exact hmem hi
      have hkrSame : ∀ m', Set.EqOn m' m₀ (k.alloc.kept live₀) →
          ptEntry m' kr i = ptEntry m₀ kr i := fun m' heq =>
        congrFun (ptEntry_congr (heq.mono
          (hsource.tables.kept kr ⟨kr, hkr, [], Radix.tableAt_nil _ _⟩))) i
      change ptEntry m n i = ptEntry m kr i
      rw [hsame, hspace.root.kernel i hi, hkrSame m₁ hspace.kept, hkrSame m hclone.kept]
  · left
    simp only [ne_eq, hstatus, not_false_eq_true, if_true]
    obtain ⟨hempty, hlive, hkept⟩ := hclone.holding.free_all hclone.tables
      (Set.mem_insert n roots) hclone.mine_sub
    rw [hclone.rest_eq] at hlive hkept
    refine ⟨_, ?_, hlive, hkept.trans hclone.kept⟩
    rw [← hempty]

/-- The pages below `n` duplicate those below `s` as they were in `m₀`, in new
frames that `owned` records. -/
structure IsDuplicate (k : Machine) (s kr n : TableAddr) (m₀ : Memory) (live₀ : Set Chunk)
    (skip : Vpn → Prop) (m : Memory) (live : Set Chunk) (owned : PageList)
    (frames : List Word) : Prop where
  copied : ∀ page : Vpn, page.User → ¬ skip page → ∀ old, k.spaceOf m₀ s.addr page = some old →
    ∃ frame ∈ frames, k.spaceOf m n.addr page = some ⟨k.hhdmVirtToPhys frame, old.flags⟩ ∧
      ∀ i < 4096, m (frame + BitVec.ofNat 64 i) =
        m₀ (k.physToVirt old.phys + BitVec.ofNat 64 i)
  unmapped : ∀ page : Vpn, page.User → skip page ∨ k.spaceOf m₀ s.addr page = none →
    k.spaceOf m n.addr page = none
  fresh : ∀ frame ∈ frames, ∃ c ∈ live, c ∉ live₀ ∧ c.ptr = frame ∧ 4096 ≤ c.size
  unshared : ∀ page page' : Vpn, page.User → page'.User → ∀ x y,
    k.spaceOf m n.addr page = some x → k.spaceOf m n.addr page' = some y →
    x.phys = y.phys → page = page'
  kernel : ∀ i, KernelIndex i → ptEntry m n i = ptEntry m kr i
  owned : frames.Nodup ∧ ∃ array, owned.Holds m frames array
  exact : ∀ frame ∈ frames, ∃ page : Vpn, page.User ∧
    ∃ x, k.spaceOf m n.addr page = some x ∧ x.phys = k.hhdmVirtToPhys frame
  source : k.spaceOf m s.addr = k.spaceOf m₀ s.addr
  contents : ∀ page : Vpn, page.User → ∀ old, k.spaceOf m₀ s.addr page = some old →
    ∀ i < 4096, m (k.physToVirt old.phys + BitVec.ofNat 64 i) =
      m₀ (k.physToVirt old.phys + BitVec.ofNat 64 i)

theorem Cloned.isDuplicate {kr : TableAddr} (hsource : k.CloneSource roots s m₀ live₀)
    (h : k.Cloned roots s kr n m₀ live₀ skip m live owned copies array) :
    k.IsDuplicate s kr n m₀ live₀ skip m live owned (copies.map Prod.snd) := by
  -- a mapped page is the page of a copy
  have hmapped : ∀ page : Vpn, page.User → ∀ x, k.spaceOf m n.addr page = some x →
      ∃ frame, (page, frame) ∈ copies ∧ x.phys = k.hhdmVirtToPhys frame := by
    intro page huser x hx
    have hmem : page ∈ copies.map Prod.fst := by
      by_contra hout
      rw [h.unmapped page huser hout] at hx
      cases hx
    obtain ⟨⟨page', frame⟩, hcopy, rfl⟩ := List.mem_map.mp hmem
    obtain ⟨-, -, old, -, hnew, -⟩ := h.copied _ hcopy
    rw [hx, Option.some.injEq] at hnew
    exact ⟨frame, hcopy, by rw [hnew]⟩
  refine ⟨?_, ?_, ?_, ?_, h.kernel, ⟨h.holding.nodup, array, h.holding.list⟩, ?_, ?_, ?_⟩
  · intro page huser hskip old hold
    obtain ⟨⟨page', frame⟩, hcopy, rfl⟩ := List.mem_map.mp
      (h.complete page huser hskip (by rw [hold]; rfl))
    obtain ⟨-, -, old', hold', hnew, hcontent⟩ := h.copied _ hcopy
    rw [hold, Option.some.injEq] at hold'
    subst hold'
    exact ⟨frame, List.mem_map_of_mem hcopy, hnew, hcontent⟩
  · intro page huser hnot
    refine h.unmapped page huser fun hmem => ?_
    obtain ⟨⟨page', frame⟩, hcopy, rfl⟩ := List.mem_map.mp hmem
    obtain ⟨-, hskip, old, hold, -⟩ := h.copied _ hcopy
    rcases hnot with hnot | hnot
    · exact hskip hnot
    · rw [hnot] at hold
      cases hold
  · intro frame hframe
    obtain ⟨c, hc, hptr, hsize⟩ := h.holding.frames frame hframe
    exact ⟨c, hc.1, hc.2, hptr, hsize⟩
  · intro page page' huser huser' x y hx hy hphys
    obtain ⟨frame, hcopy, hxphys⟩ := hmapped page huser x hx
    obtain ⟨frame', hcopy', hyphys⟩ := hmapped page' huser' y hy
    rw [hxphys, hyphys, hhdmVirtToPhys, hhdmVirtToPhys] at hphys
    have hframe : frame = frame' := by
      rw [← BitVec.sub_add_cancel frame k.hhdmOffset, hphys, BitVec.sub_add_cancel]
    have hsame := List.inj_on_of_nodup_map h.holding.nodup hcopy hcopy' hframe
    exact congrArg Prod.fst hsame
  · intro frame hframe
    obtain ⟨⟨page, frame'⟩, hcopy, rfl⟩ := List.mem_map.mp hframe
    obtain ⟨huser, -, old, -, hnew, -⟩ := h.copied _ hcopy
    exact ⟨page, huser, _, hnew, rfl⟩
  · funext page
    exact PageTables.translate_congr hsource.source
      (fun t ht => h.kept.mono (hsource.tables.kept t ht)) page.addr
  · intro page huser old hold i hi
    exact h.kept (hsource.frames page huser old hold i hi)

/-- `clone_user_address_space` returns the root of a duplicate of the user half
without the pages of the skip range, or null with the same blocks allocated as
before. -/
theorem cloneUserAddressSpace_duplicates {kr : TableAddr}
    (hsource : k.CloneSource roots s m₀ live₀) (hkr : kr ∈ roots)
    (hkernel : kr.addr = k.pageTableL4) (skipLo skipHi : Word) :
    ((k.cloneUserAddressSpace m₀ s.addr skipLo skipHi PageList.empty).1 = 0 →
        k.alloc.Live (k.cloneUserAddressSpace m₀ s.addr skipLo skipHi PageList.empty).2.1
          live₀) ∧
      ((k.cloneUserAddressSpace m₀ s.addr skipLo skipHi PageList.empty).1 ≠ 0 →
        ∃ n live frames,
          n.addr = (k.cloneUserAddressSpace m₀ s.addr skipLo skipHi PageList.empty).1 ∧
          k.PageTables (k.cloneUserAddressSpace m₀ s.addr skipLo skipHi PageList.empty).2.1
            live (insert n roots) ∧
          k.IsDuplicate s kr n m₀ live₀ (skipped skipLo skipHi)
            (k.cloneUserAddressSpace m₀ s.addr skipLo skipHi PageList.empty).2.1 live
            (k.cloneUserAddressSpace m₀ s.addr skipLo skipHi PageList.empty).2.2 frames) := by
  rcases cloneUserAddressSpace_spec hsource hkr hkernel skipLo skipHi with
    ⟨m, hrun, hlive, -⟩ | ⟨n, m, live, owned, copies, array, hrun, hcloned⟩
  · rw [hrun]
    exact ⟨fun _ => hlive, fun hne => absurd rfl hne⟩
  · rw [hrun]
    exact ⟨fun hnull => absurd hnull hcloned.nonnull,
      fun _ => ⟨n, live, _, rfl, hcloned.tables, hcloned.isDuplicate hsource⟩⟩

end Machine

/-! ### One mapped page of the sample machine -/

theorem spaceOf_sampleMemory :
    (sampleMachine .x86_64).spaceOf sampleMemory sampleRoot.addr = fun _ => none := by
  funext page
  have hzero : ∀ i, ptEntry sampleMemory sampleRoot i = 0 := sampleRoot_empty
  have hends : (sampleMachine .x86_64).child 3 (ptEntry sampleMemory sampleRoot
      (ptIndex page.addr 3)) = none := by
    rw [hzero]
    exact Machine.child_eq_none_iff.mpr (Or.inl Arch.ptePresent_zero)
  rw [Machine.spaceOf, Machine.translate_eq, ptPath_top, ptTopLevel,
    Radix.stopAt_cons_of_child_eq_none _ hends, Option.bind_some, hzero]
  exact Machine.mappingOf_of_not_present Arch.ptePresent_zero _

/-- The sample memory with the page at 0x400000 mapped to the frame 0x5000. -/
def sampleMapped : Memory :=
  ((sampleMachine .x86_64).mapPage4k sampleMemory sampleRoot.addr 0x400000 0x5000 userData).2

theorem spaceOf_sampleMapped : ∃ live,
    (sampleMachine .x86_64).PageTables sampleMapped live {sampleRoot} ∧
      (sampleMachine .x86_64).spaceOf sampleMapped sampleRoot.addr =
        Function.update (fun _ => none) (vpn 0x400000) (some ⟨0x5000, userData⟩) := by
  have hstatus : ((sampleMachine .x86_64).mapPage4k sampleMemory sampleRoot.addr 0x400000 0x5000
      userData).1 = 0 := by decide
  obtain ⟨live, hextends, hreturns⟩ := (sampleTables .x86_64).mapPage4k_spec
    (Set.mem_singleton sampleRoot) (show ptIndex 0x400000 ptTopLevel ∈ Set.univ from trivial)
    0x5000 userData
  rcases hreturns with ⟨-, hspace, -⟩ | ⟨hfail, -⟩
  · refine ⟨live, hextends.tables, ?_⟩
    rw [sampleMapped, hspace, spaceOf_sampleMemory, Machine.pageMapping_pteLeaf ⟨by decide, by decide⟩]
  · rw [hstatus] at hfail
    cases hfail

def sampleClone : Word × Memory × PageList :=
  (sampleMachine .x86_64).cloneUserAddressSpace sampleMapped sampleRoot.addr 0x7ff000 0x800000
    PageList.empty

/-- Cloning the address space with that page. -/
theorem cloneUserAddressSpace_duplicates_sample : ∃ live₀,
    (sampleClone.1 = 0 → (sampleMachine .x86_64).alloc.Live sampleClone.2.1 live₀) ∧
      (sampleClone.1 ≠ 0 → ∃ n live frames, n.addr = sampleClone.1 ∧
        (sampleMachine .x86_64).PageTables sampleClone.2.1 live (insert n {sampleRoot}) ∧
        (sampleMachine .x86_64).IsDuplicate sampleRoot sampleRoot n sampleMapped live₀
          (Machine.skipped 0x7ff000 0x800000) sampleClone.2.1 live sampleClone.2.2 frames) := by
  obtain ⟨live, htables, hspace⟩ := spaceOf_sampleMapped
  have hsource : (sampleMachine .x86_64).CloneSource {sampleRoot} sampleRoot sampleMapped live := by
    refine ⟨htables, rfl, ?_⟩
    intro page _ old hold i hi
    left
    have hphys : old.phys = 0x5000 := by
      rw [hspace] at hold
      by_cases hpage : page = vpn 0x400000
      · rw [hpage, Function.update_self, Option.some.injEq] at hold
        rw [← hold]
      · rw [Function.update_of_ne hpage] at hold
        cases hold
    rw [hphys]
    rintro ⟨hlow, -⟩
    have hhead : 0xffff800000100000 ≤
        ((0xffff800000000000 : Word) + 0x5000 + BitVec.ofNat 64 i).toNat := hlow
    bv_omega
  refine ⟨live, ?_⟩
  rw [sampleClone]
  exact Machine.cloneUserAddressSpace_duplicates hsource rfl rfl 0x7ff000 0x800000

end Utopia
