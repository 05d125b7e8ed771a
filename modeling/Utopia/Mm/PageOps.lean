/-
Mapping, protecting and unmapping one page refine the same steps on a partial
map from pages to frames and permissions.
-/
import Utopia.Mm.PageWalk

namespace Utopia

namespace AddressSpace

def map (s : AddressSpace) (page : Vpn) (phys : Word) (flags : VmFlags) : AddressSpace :=
  Function.update s page (some ⟨phys, flags⟩)

/-- New permissions for a mapped page; its frame stays. -/
def protect (s : AddressSpace) (page : Vpn) (flags : VmFlags) : AddressSpace :=
  Function.update s page ((s page).map fun x => { x with flags := flags })

def unmap (s : AddressSpace) (page : Vpn) : AddressSpace :=
  Function.update s page none

end AddressSpace

/-! ### Pages and paths -/

theorem vpn_toNat (va : Word) : (vpn va).toNat = va.toNat / 4096 % 2 ^ 36 := by
  rw [vpn, BitVec.toNat_setWidth, BitVec.toNat_ushiftRight, Nat.shiftRight_eq_div_pow]

theorem ptPath_top (va : Word) : ptPath va ptTopLevel =
    [ptIndex va 3, ptIndex va 2, ptIndex va 1, ptIndex va 0] :=
  rfl

/-- The four indices of an address are its page number. -/
theorem ptPath_eq_iff {va vb : Word} :
    ptPath va ptTopLevel = ptPath vb ptTopLevel ↔ vpn va = vpn vb := by
  have hpath : ptPath va ptTopLevel = ptPath vb ptTopLevel ↔
      ∀ level ≤ 3, (ptIndex va level).val = (ptIndex vb level).val := by
    rw [ptPath_top, ptPath_top]
    simp only [List.cons.injEq, and_true, Fin.ext_iff]
    constructor
    · rintro ⟨h₃, h₂, h₁, h₀⟩ level hlevel
      interval_cases level <;> assumption
    · exact fun h => ⟨h 3 (by omega), h 2 (by omega), h 1 (by omega), h 0 (by omega)⟩
  rw [hpath, ← BitVec.toNat_inj, vpn_toNat, vpn_toNat]
  simp only [ptIndex_val]
  constructor
  · intro h
    have h₃ := h 3 (by omega)
    have h₂ := h 2 (by omega)
    have h₁ := h 1 (by omega)
    have h₀ := h 0 (by omega)
    norm_num at h₃ h₂ h₁ h₀
    omega
  · intro h level hlevel
    interval_cases level <;> norm_num <;> omega

theorem Vpn.addr_toNat (page : Vpn) : page.addr.toNat = page.toNat * 4096 := by
  have hlt := page.isLt
  rw [Vpn.addr, BitVec.toNat_shiftLeft, BitVec.toNat_setWidth, Nat.shiftLeft_eq]
  omega

theorem vpn_addr (page : Vpn) : vpn page.addr = page := by
  have hlt := page.isLt
  apply BitVec.eq_of_toNat_eq
  rw [vpn_toNat, Vpn.addr_toNat]
  omega

/-- An address in the user half leads through the user half of the top level. -/
theorem not_kernelIndex_of_lt {virt : Word} (hvirt : virt.toNat < 2 ^ 47) :
    ¬ Machine.KernelIndex (ptIndex virt ptTopLevel) := by
  rw [Machine.KernelIndex, ptIndex_val]
  norm_num [ptTopLevel]
  omega

/-- The page lies in the user half. -/
def Vpn.User (page : Vpn) : Prop := ¬ Machine.KernelIndex (ptIndex page.addr ptTopLevel)

theorem Vpn.addr_mod (page : Vpn) : page.addr.toNat % 4096 = 0 := by
  rw [Vpn.addr_toNat]
  exact Nat.mul_mod_left _ _

theorem Vpn.User.addr_lt {page : Vpn} (h : page.User) : page.addr.toNat < 2 ^ 47 := by
  have hlt := page.isLt
  rw [Vpn.User, Machine.KernelIndex, ptIndex_val, Vpn.addr_toNat] at h
  norm_num [ptTopLevel] at h
  rw [Vpn.addr_toNat]
  omega

theorem Vpn.user_iff {page : Vpn} : page.User ↔ page.addr.toNat < 2 ^ 47 :=
  ⟨fun h => h.addr_lt, fun h => not_kernelIndex_of_lt h⟩

theorem ptIndex_top_congr {a b : Word} (h : vpn a = vpn b) :
    ptIndex a ptTopLevel = ptIndex b ptTopLevel := by
  have hpath := ptPath_eq_iff.mpr h
  rw [ptPath_top, ptPath_top, List.cons.injEq] at hpath
  exact hpath.1

theorem user_vpn {virt : Word} :
    (vpn virt).User ↔ ¬ Machine.KernelIndex (ptIndex virt ptTopLevel) := by
  rw [Vpn.User, ptIndex_top_congr (vpn_addr (vpn virt))]

namespace Machine

variable {k : Machine} {m m' : Memory} {live live' : Set Chunk} {roots : Set TableAddr}
  {r t : TableAddr} {e virt : Word} {p : List (Fin 512)} {tops : Set (Fin 512)}

theorem mappingOf_eq_page {level : Nat} (hlevel : level ≤ 3) (e va : Word) :
    k.mappingOf level e va = (k.mappingOf level e (vpn va).addr).map
      fun x => { x with phys := x.phys + (va &&& 4095) } := by
  have hoffset : va &&& (levelSpan level - 1) =
      ((vpn va).addr &&& (levelSpan level - 1)) + (va &&& 4095) := by
    have hva := va.isLt
    apply BitVec.eq_of_toNat_eq
    have hlow : (va &&& 4095).toNat = va.toNat % 4096 :=
      toNat_and_span va (Nat.zero_le 3)
    have hpage : (vpn va).addr.toNat = va.toNat / 4096 % 2 ^ 36 * 4096 := by
      rw [Vpn.addr_toNat, vpn_toNat]
    rw [BitVec.toNat_add, toNat_and_span _ hlevel, toNat_and_span _ hlevel, hlow, hpage]
    interval_cases level <;> norm_num <;> omega
  rw [mappingOf, mappingOf, hoffset]
  split_ifs
  · rw [Option.map_some, BitVec.add_assoc]
  · rfl

theorem stopAt_level_le {fetch : TableAddr → Fin 512 → Word} {level : Nat}
    {path : List (Fin 512)} {stop : ℕ × Word}
    (h : Radix.stopAt k.child fetch level t path = some stop) : stop.1 ≤ level := by
  induction path generalizing level t with
  | nil => cases level <;> cases h
  | cons i path ih =>
      cases level with
      | zero =>
          cases h
          rfl
      | succ level =>
          rw [Radix.stopAt] at h
          cases hc : k.child (level + 1) (fetch t i) with
          | none =>
              simp only [hc] at h
              cases h
              rfl
          | some c =>
              simp only [hc] at h
              exact (ih h).trans (Nat.le_succ _)

/-- A translation is the mapping of the page and the offset within it. -/
theorem translate_eq_spaceOf (m : Memory) (l4 : TableAddr) (va : Word) :
    k.translate m l4.addr va = (k.spaceOf m l4.addr (vpn va)).map
      fun x => { x with phys := x.phys + (va &&& 4095) } := by
  rw [spaceOf, translate_eq, translate_eq, ptPath_eq_iff.mpr (vpn_addr (vpn va))]
  cases hstop : Radix.stopAt k.child (ptEntry m) ptTopLevel l4 (ptPath va ptTopLevel) with
  | none => rfl
  | some stop => exact mappingOf_eq_page (stopAt_level_le hstop) _ _

theorem SameSpaces.spaceOf_eq (h : k.SameSpaces roots m m') (hr : r ∈ roots) :
    k.spaceOf m' r.addr = k.spaceOf m r.addr :=
  funext fun page => h r hr page.addr

/-! ### The last entry -/

/-- The other address spaces map what they mapped before, but for the page of `virt`
if they share it. -/
def OthersKeep (k : Machine) (roots : Set TableAddr) (r : TableAddr) (virt : Word)
    (m m' : Memory) : Prop :=
  ∀ r' ∈ roots, r' ≠ r → ∀ page, (KernelIndex (ptIndex virt ptTopLevel) → page ≠ vpn virt) →
    k.spaceOf m' r'.addr page = k.spaceOf m r'.addr page

/-- The address space below `r` got the mapping `new` for the page of `virt`;
nothing else changed anywhere. -/
def Remaps (k : Machine) (roots : Set TableAddr) (r : TableAddr) (virt : Word)
    (new : Option Mapping) (m m' : Memory) : Prop :=
  k.spaceOf m' r.addr = Function.update (k.spaceOf m r.addr) (vpn virt) new ∧
    k.OthersKeep roots r virt m m'

theorem Remaps.of_same {m'' : Memory} {new : Option Mapping} (h : k.SameSpaces roots m m')
    (hr : r ∈ roots) (h' : k.Remaps roots r virt new m' m'') :
    k.Remaps roots r virt new m m'' := by
  obtain ⟨hself, hother⟩ := h'
  rw [h.spaceOf_eq hr] at hself
  refine ⟨hself, fun r' hr' hne page hpage => ?_⟩
  rw [hother r' hr' hne page hpage, h.spaceOf_eq hr']

/-- The frame and permissions that an entry of level 0 gives its page. -/
def pageMapping (k : Machine) (e : Word) : Option Mapping :=
  if k.arch.ptePresent e then some ⟨k.arch.ptePhys e, k.arch.pteFlags e⟩ else none

theorem mappingOf_addr (e : Word) (page : Vpn) :
    k.mappingOf 0 e page.addr = k.pageMapping e := by
  have hlow : page.addr &&& (levelSpan 0 - 1) = 0 := by
    apply BitVec.eq_of_toNat_eq
    rw [toNat_and_span _ (by omega), Vpn.addr_toNat]
    exact Nat.mul_mod_left _ _
  rw [mappingOf, hlow, pageMapping]
  simp only [BitVec.ofNat_eq_ofNat, BitVec.add_zero]

/-- The level-0 entry on the path of an address decides its page. -/
theorem spaceOf_eq_pageMapping (ht : k.tableAt m ptTopLevel r p = some t)
    (hpath : ptPath virt ptTopLevel = p ++ [ptIndex virt 0]) :
    k.spaceOf m r.addr (vpn virt) = k.pageMapping (ptEntry m t (ptIndex virt 0)) := by
  have hlevel : ptTopLevel - p.length = 0 := by
    have hlen := congrArg List.length hpath
    simp only [ptPath_length, List.length_append, List.length_singleton] at hlen
    omega
  rw [spaceOf, translate_eq, ptPath_eq_iff.mpr (vpn_addr (vpn virt)), hpath,
    Radix.stopAt_append _ ht, hlevel, Radix.stopAt_cons_of_child_eq_none _ child_zero_level]
  exact mappingOf_addr _ _

theorem PageTables.storeLeaf (tops : Set (Fin 512)) (h : k.PageTables m live roots) (hr : r ∈ roots)
    (ht : k.tableAt m ptTopLevel r p = some t)
    (hpath : ptPath virt ptTopLevel = p ++ [ptIndex virt 0]) (e : Word) :
    k.Extends tops roots r m live (m.write64 (entryAddr t.addr (ptIndex virt 0)) e) live ∧
      k.Remaps roots r virt (k.pageMapping e) m
        (m.write64 (entryAddr t.addr (ptIndex virt 0)) e) := by
  have hlen : p.length = ptTopLevel := by
    have hlen := congrArg List.length hpath
    simp only [ptPath_length, List.length_append, List.length_singleton] at hlen
    omega
  have hlevel : ptTopLevel - p.length = 0 := by omega
  have hends : Radix.EndsOrFresh k.child (ptEntry m) ptTopLevel roots
      (ptTopLevel - p.length) e := by
    intro c hc
    rw [hlevel, child_zero_level] at hc
    cases hc
  have htables : k.PageTables (m.write64 (entryAddr t.addr (ptIndex virt 0)) e) live roots := by
    apply h.store hr ht hends
    · rw [hlevel]
      exact leafFits_zero_level
    · intro c hc
      rw [hlevel, child_zero_level] at hc
      cases hc
  have hlast : k.tableAt (m.write64 (entryAddr t.addr (ptIndex virt 0)) e) ptTopLevel r p =
      some t := by
    rw [tableAt, ptEntry_write64]
    exact Radix.tableAt_setEntry_self h.separated hr ht
  -- a path through the entry is the path of the page itself
  have hunique : ∀ page : Vpn, p ++ [ptIndex virt 0] <+: ptPath page.addr ptTopLevel →
      page = vpn virt := by
    intro page hpre
    rw [← vpn_addr page, ← ptPath_eq_iff, hpath]
    refine (hpre.eq_of_length ?_).symm
    rw [ptPath_length, List.length_append, List.length_singleton, hlen]
  refine ⟨⟨htables, subset_rfl, ?_, ?_, fun _ hc hnew => absurd hc hnew, ?_⟩, ?_, ?_⟩
  · intro r' hr' q u hq
    rw [tableAt, ptEntry_write64, Radix.tableAt_setEntry_off_path h.separated hr ht hr']
    · exact hq
    rintro - hpre
    have hlt := hpre.length_le
    have hle := Radix.tableAt_length_le hq
    simp only [List.length_append, List.length_singleton] at hlt
    omega
  · intro r' hr' q u hq
    rw [tableAt, ptEntry_write64] at hq
    rcases Radix.tableAt_setEntry_cases h.separated hr ht hends hr' hq with
      hq | ⟨-, -, hu⟩
    · exact Or.inl hq
    · rw [hlevel, child_zero_level] at hu
      cases hu
  · intro x _ hout
    have haddr := entryAddr_toNat t (ptIndex virt 0)
    have hfits := t.fits
    have hi := (ptIndex virt 0).isLt
    apply Memory.write64_eqOn _ _ (by omega)
    exact fun hspan => hout t ⟨r, hr, p, ht⟩ (entry_subset t _ hspan)
  · funext page
    by_cases hpage : page = vpn virt
    · subst hpage
      rw [Function.update_self, spaceOf_eq_pageMapping hlast hpath, ptEntry_write64]
      simp [Radix.setEntry]
    · rw [Function.update_of_ne hpage, spaceOf, spaceOf, translate_eq, translate_eq,
        ptEntry_write64, Radix.stopAt_setEntry_off_path h.separated hr ht hr
          fun _ hpre => hpage (hunique page hpre)]
  · intro r' hr' hne page hpage
    rw [spaceOf, spaceOf, translate_eq, translate_eq, ptEntry_write64,
      Radix.stopAt_setEntry_off_path h.separated hr ht hr']
    intro hthrough hpre
    rcases h.separated.through hr ht hr' hthrough (ptIndex virt 0) with hsame | ⟨j, hj, hshared⟩
    · exact hne hsame
    · refine hpage ?_ (hunique page hpre)
      have htop := head_path (show _ ∈ {i | i = ptIndex virt ptTopLevel} from rfl) hpath j hj
      rwa [← show j = ptIndex virt ptTopLevel from htop]

/-! ### The three operations -/

/-- The call returned 0 and the address space below `r` is now `next`, or it
returned -1 and no address space changed. -/
def Returns (k : Machine) (roots : Set TableAddr) (r : TableAddr) (m : Memory)
    (result : Int × Memory) (next : AddressSpace) : Prop :=
  (result.1 = 0 ∧ k.spaceOf result.2 r.addr = next ∧
      ∀ r' ∈ roots, r' ≠ r → k.spaceOf result.2 r'.addr = k.spaceOf m r'.addr) ∨
    (result.1 = -1 ∧ ∀ r' ∈ roots, k.spaceOf result.2 r'.addr = k.spaceOf m r'.addr)

theorem Returns.of_status {result : Int × Memory} {next : AddressSpace}
    (h : k.Returns roots r m result next) (hstatus : result.1 = 0) :
    k.spaceOf result.2 r.addr = next := by
  rcases h with ⟨-, hspace, -⟩ | ⟨hfail, -⟩
  · exact hspace
  · rw [hstatus] at hfail
    cases hfail

/-- The same of a page that other address spaces may share. -/
def Answers (k : Machine) (roots : Set TableAddr) (r : TableAddr) (virt : Word) (m : Memory)
    (result : Int × Memory) (next : AddressSpace) : Prop :=
  (result.1 = 0 ∧ k.spaceOf result.2 r.addr = next ∧ k.OthersKeep roots r virt m result.2) ∨
    (result.1 = -1 ∧ ∀ r' ∈ roots, k.spaceOf result.2 r'.addr = k.spaceOf m r'.addr)

theorem Answers.returns {result : Int × Memory} {next : AddressSpace}
    (h : k.Answers roots r virt m result next)
    (hvirt : ¬ KernelIndex (ptIndex virt ptTopLevel)) : k.Returns roots r m result next := by
  rcases h with ⟨hstatus, hspace, hother⟩ | hfail
  · refine Or.inl ⟨hstatus, hspace, fun r' hr' hne => funext fun page => ?_⟩
    exact hother r' hr' hne page fun hkernel => absurd hkernel hvirt
  · exact Or.inr hfail

theorem PageTables.mapPage4k_spec (h : k.PageTables m live roots) (hr : r ∈ roots)
    (hvirt : ptIndex virt ptTopLevel ∈ tops) (phys : Word) (flags : VmFlags) :
    ∃ live', k.Extends tops roots r m live (k.mapPage4k m r.addr virt phys flags).2 live' ∧
      k.Answers roots r virt m (k.mapPage4k m r.addr virt phys flags)
        (Function.update (k.spaceOf m r.addr) (vpn virt)
          (k.pageMapping (k.arch.pteLeaf phys flags false))) := by
  obtain ⟨live', hgrows, hfound⟩ := walkDown_spec (p := []) true hr hvirt ptTopLevel h
    (Radix.tableAt_nil _ _) rfl
  simp only [mapPage4k, if_neg (h.nonnull r hr)]
  generalize k.walkDown true virt ptTopLevel m r.addr = walk at hgrows hfound ⊢
  obtain ⟨descent, m'⟩ := walk
  cases descent with
  | table addr =>
      obtain ⟨t, p, rfl, ht, hpath⟩ := hfound
      obtain ⟨hextends, hremaps⟩ := hgrows.tables.storeLeaf tops hr ht hpath
        (k.arch.pteLeaf phys flags false)
      obtain ⟨hself, hother⟩ := hremaps.of_same hgrows.same hr
      exact ⟨live', hgrows.toExtends.trans hextends, Or.inl ⟨rfl, hself, hother⟩⟩
  | missing =>
      exact ⟨live', hgrows.toExtends, Or.inr ⟨rfl, fun _ hr' => hgrows.same.spaceOf_eq hr'⟩⟩
  | noMemory =>
      exact ⟨live', hgrows.toExtends, Or.inr ⟨rfl, fun _ hr' => hgrows.same.spaceOf_eq hr'⟩⟩

theorem pageMapping_pteLeaf {phys : Word} (hphys : k.arch.IsFrame phys) (flags : VmFlags) :
    k.pageMapping (k.arch.pteLeaf phys flags false) = some ⟨phys, flags⟩ := by
  simp [pageMapping, Arch.ptePhys_pteLeaf hphys]

theorem PageTables.protectPage4k_spec (h : k.PageTables m live roots) (hr : r ∈ roots)
    (hvirt : ptIndex virt ptTopLevel ∈ tops) (flags : VmFlags) :
    ∃ live', k.Extends tops roots r m live (k.protectPage4k m r.addr virt flags).2 live' ∧
      k.Answers roots r virt m (k.protectPage4k m r.addr virt flags)
        ((k.spaceOf m r.addr).protect (vpn virt) flags) ∧
      ((k.protectPage4k m r.addr virt flags).1 = 0 →
        (k.spaceOf m r.addr (vpn virt)).isSome) := by
  obtain ⟨live', hgrows, hfound⟩ := walkDown_spec (p := []) false hr hvirt ptTopLevel h
    (Radix.tableAt_nil _ _) rfl
  simp only [protectPage4k, if_neg (h.nonnull r hr)]
  generalize k.walkDown false virt ptTopLevel m r.addr = walk at hgrows hfound ⊢
  obtain ⟨descent, m'⟩ := walk
  have hsame : ∀ r' ∈ roots, k.spaceOf m' r'.addr = k.spaceOf m r'.addr :=
    fun _ hr' => hgrows.same.spaceOf_eq hr'
  cases descent with
  | table addr =>
      obtain ⟨t, p, rfl, ht, hpath⟩ := hfound
      have hpage := spaceOf_eq_pageMapping ht hpath
      have hslot : m'.read64 (entryAddr t.addr (ptIndex virt 0)) =
          ptEntry m' t (ptIndex virt 0) := rfl
      simp only [hslot]
      split_ifs with habsent
      · exact ⟨live', hgrows.toExtends, Or.inr ⟨rfl, hsame⟩, by simp⟩
      · obtain ⟨hextends, hremaps⟩ := hgrows.tables.storeLeaf tops hr ht hpath
          (k.arch.pteLeaf (k.arch.ptePhys (ptEntry m' t (ptIndex virt 0))) flags false)
        obtain ⟨hself, hother⟩ := hremaps.of_same hgrows.same hr
        rw [hsame r hr, pageMapping, if_pos (by simpa using habsent)] at hpage
        rw [pageMapping_pteLeaf (Arch.isFrame_ptePhys _)] at hself
        refine ⟨live', hgrows.toExtends.trans hextends, Or.inl ⟨rfl, ?_, hother⟩, ?_⟩
        · rw [hself, AddressSpace.protect, hpage]
          rfl
        · rw [hpage]
          exact fun _ => rfl
  | missing => exact ⟨live', hgrows.toExtends, Or.inr ⟨rfl, hsame⟩, by simp⟩
  | noMemory => exact ⟨live', hgrows.toExtends, Or.inr ⟨rfl, hsame⟩, by simp⟩

theorem PageTables.unmapPage4k_spec (h : k.PageTables m live roots) (hr : r ∈ roots)
    (hvirt : ptIndex virt ptTopLevel ∈ tops) :
    ∃ live', k.Extends tops roots r m live (k.unmapPage4k m r.addr virt).2 live' ∧
      k.Answers roots r virt m (k.unmapPage4k m r.addr virt)
        ((k.spaceOf m r.addr).unmap (vpn virt)) := by
  obtain ⟨live', hgrows, hfound⟩ := walkDown_spec (p := []) false hr hvirt ptTopLevel h
    (Radix.tableAt_nil _ _) rfl
  simp only [unmapPage4k, if_neg (h.nonnull r hr)]
  generalize k.walkDown false virt ptTopLevel m r.addr = walk at hgrows hfound ⊢
  obtain ⟨descent, m'⟩ := walk
  have hsame : ∀ r' ∈ roots, k.spaceOf m' r'.addr = k.spaceOf m r'.addr :=
    fun _ hr' => hgrows.same.spaceOf_eq hr'
  cases descent with
  | table addr =>
      obtain ⟨t, p, rfl, ht, hpath⟩ := hfound
      obtain ⟨hextends, hremaps⟩ := hgrows.tables.storeLeaf tops hr ht hpath 0
      obtain ⟨hself, hother⟩ := hremaps.of_same hgrows.same hr
      refine ⟨live', hgrows.toExtends.trans hextends, Or.inl ⟨rfl, ?_, hother⟩⟩
      rw [hself, AddressSpace.unmap, pageMapping, Arch.ptePresent_zero]
      rfl
  | missing =>
      refine ⟨live', hgrows.toExtends, Or.inl ⟨rfl, ?_, fun r' hr' _ page _ => congrFun (hsame r' hr') page⟩⟩
      have hnone := hfound.2 (vpn virt).addr (ptPath_eq_iff.mpr (vpn_addr (vpn virt)))
      rw [hsame r hr, AddressSpace.unmap, eq_comm, Function.update_eq_self_iff,
        ← hsame r hr]
      exact hnone.symm
  | noMemory => exact ⟨live', hgrows.toExtends, Or.inr ⟨rfl, hsame⟩⟩

end Machine

end Utopia
