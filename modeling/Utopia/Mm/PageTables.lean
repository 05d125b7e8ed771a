/-
The page tables in memory as radix tables: what it takes for them to be well
formed, and what linking a table and storing an entry do to every address space.
-/
import Utopia.Lib.Radix
import Utopia.Mm.Vmm
import Mathlib.Tactic.Ring

namespace Utopia

/-- A page-aligned address. -/
@[ext]
structure TableAddr where
  addr : Word
  aligned : addr.toNat % 4096 = 0
deriving DecidableEq

theorem TableAddr.fits (t : TableAddr) : t.addr.toNat + 4096 ≤ 2 ^ 64 := by
  have haligned := t.aligned
  have hlt := t.addr.isLt
  omega

def TableAddr.bytes (t : TableAddr) : Set Word := span t.addr 4096

theorem entryAddr_toNat (t : TableAddr) (i : Fin 512) :
    (entryAddr t.addr i).toNat = t.addr.toNat + 8 * i := by
  have hfits := t.fits
  have hi := i.isLt
  have hnat : (8 * BitVec.ofNat 64 i : Word).toNat = 8 * i := by
    rw [BitVec.toNat_mul, BitVec.toNat_ofNat]
    change 8 * (i % 2 ^ 64) % 2 ^ 64 = 8 * i.val
    omega
  rw [entryAddr, toNat_add_of_lt (by omega), hnat]

theorem entry_subset (t : TableAddr) (i : Fin 512) :
    span (entryAddr t.addr i) 8 ⊆ t.bytes := by
  have haddr := entryAddr_toNat t i
  have hi := i.isLt
  exact span_subset_span (by omega) (by omega)

/-- Different tables do not overlap. -/
theorem TableAddr.bytes_disjoint {t u : TableAddr} (hne : t ≠ u) :
    Disjoint t.bytes u.bytes := by
  have hnat : t.addr.toNat ≠ u.addr.toNat := by
    intro heq
    apply hne
    obtain ⟨addr, haligned⟩ := t
    obtain rfl : addr = u.addr := BitVec.eq_of_toNat_eq heq
    rfl
  have ht := t.aligned
  have hu := u.aligned
  rw [Set.disjoint_left]
  intro x hx hxu
  rw [TableAddr.bytes, mem_span] at hx hxu
  omega

theorem levelSpan_toNat {level : Nat} (hlevel : level ≤ 3) :
    (levelSpan level).toNat = 2 ^ (12 + level * 9) := by
  interval_cases level <;> rfl

theorem toNat_and_span (va : Word) {level : Nat} (hlevel : level ≤ 3) :
    (va &&& (levelSpan level - 1)).toNat = va.toNat % 2 ^ (12 + level * 9) := by
  rw [← Nat.and_two_pow_sub_one_eq_mod, BitVec.toNat_and]
  interval_cases level <;> rfl

theorem ptIndex_val (va : Word) (level : Nat) :
    (ptIndex va level).val = va.toNat / 2 ^ (12 + level * 9) % 512 := by
  simp only [ptIndex, BitVec.toNat_ushiftRight, Nat.shiftRight_eq_div_pow]

/-- `table[idx]`. -/
def ptEntry (m : Memory) (t : TableAddr) (i : Fin 512) : Word :=
  m.read64 (entryAddr t.addr i)

/-- The table indices of `va` from `level` down to 0. -/
def ptPath (va : Word) : Nat → List (Fin 512)
  | 0 => [ptIndex va 0]
  | level + 1 => ptIndex va (level + 1) :: ptPath va level

namespace Machine

variable (k : Machine)

theorem physToVirt_aligned {phys : Word} (hphys : phys.toNat % 4096 = 0) :
    (k.physToVirt phys).toNat % 4096 = 0 := by
  have hoffset := k.hhdm_aligned
  rw [physToVirt, BitVec.toNat_add]
  omega

/-- The table that a table entry points to. -/
def childTable (entry : Word) : TableAddr :=
  ⟨k.physToVirt (k.arch.ptePhys entry),
    k.physToVirt_aligned (Arch.isFrame_ptePhys entry).1⟩

/-- An entry leads on when it is present and no leaf. -/
def child (level : Nat) (entry : Word) : Option TableAddr :=
  if k.arch.ptePresent entry ∧ ¬ k.arch.pteIsLeaf entry level then
    some (k.childTable entry)
  else none

/-- What an entry that ends the walk at `level` makes of `va`. -/
def mappingOf (level : Nat) (entry va : Word) : Option Mapping :=
  if k.arch.ptePresent entry then
    some ⟨k.arch.ptePhys entry + (va &&& (levelSpan level - 1)), k.arch.pteFlags entry⟩
  else none

/-- The frames of a leaf are frames the architecture can address. -/
def LeafFits (level : Nat) (entry : Word) : Prop :=
  k.arch.ptePresent entry = true → k.arch.pteIsLeaf entry level = true →
    (k.arch.ptePhys entry).toNat + 2 ^ (12 + level * 9) ≤ k.arch.physBound

abbrev tableAt (m : Memory) : Nat → TableAddr → List (Fin 512) → Option TableAddr :=
  Radix.tableAt k.child (ptEntry m)

abbrev Reached (m : Memory) (roots : Set TableAddr) (t : TableAddr) : Prop :=
  Radix.Reached k.child (ptEntry m) ptTopLevel roots t

/-- The top-level indices of the kernel half, whose tables all address spaces
share. -/
def KernelIndex (i : Fin 512) : Prop := 256 ≤ i.val

/-- The top-level indices of the user half. -/
def userTops : Set (Fin 512) := { i | ¬ KernelIndex i }

/-- The address spaces below `roots` are well formed: no table is used twice
outside the kernel half, no table lies in free heap memory, and every leaf names
existing frames. -/
structure PageTables (m : Memory) (live : Set Chunk) (roots : Set TableAddr) : Prop where
  heap : k.alloc.Live m live
  nonnull : ∀ r ∈ roots, r.addr ≠ 0
  separated : Radix.Separated k.child (ptEntry m) ptTopLevel roots KernelIndex
  kept : ∀ t, k.Reached m roots t → t.bytes ⊆ k.alloc.kept live
  leaves : ∀ r ∈ roots, ∀ p t i, k.tableAt m ptTopLevel r p = some t →
    k.LeafFits (ptTopLevel - p.length) (ptEntry m t i)

variable {k} {m m' : Memory} {live live' : Set Chunk} {roots : Set TableAddr}
  {r t u c : TableAddr} {i : Fin 512} {e : Word} {p : List (Fin 512)}

theorem child_eq_none_iff {level : Nat} :
    k.child level e = none ↔
      k.arch.ptePresent e = false ∨ k.arch.pteIsLeaf e level = true := by
  cases hpresent : k.arch.ptePresent e <;> cases hleaf : k.arch.pteIsLeaf e level <;>
    simp [child, hpresent, hleaf]

@[simp]
theorem child_zero_level : k.child 0 e = none := by
  simp [child_eq_none_iff]

/-- At level 0 every entry names one existing frame. -/
theorem leafFits_zero_level : k.LeafFits 0 e := by
  intro _ _
  have hframe : k.arch.IsFrame (k.arch.ptePhys e) := Arch.isFrame_ptePhys e
  obtain ⟨haligned, hbound⟩ := hframe
  have hmul : k.arch.physBound % 4096 = 0 := by
    cases k.arch <;> rfl
  simp only [Nat.zero_mul, Nat.add_zero]
  omega

/-! ### Entries in memory -/

theorem ptEntry_write64 (m : Memory) (t : TableAddr) (i : Fin 512) (e : Word) :
    ptEntry (m.write64 (entryAddr t.addr i) e) = Radix.setEntry (ptEntry m) t i e := by
  funext u j
  have hslot := entryAddr_toNat t i
  have hentry := entryAddr_toNat u j
  have ht := t.fits
  have hu := u.fits
  have hi := i.isLt
  have hj := j.isLt
  by_cases heq : u = t ∧ j = i
  · obtain ⟨rfl, rfl⟩ := heq
    simp [ptEntry, Radix.setEntry]
  · rw [Radix.setEntry, if_neg heq, ptEntry, ptEntry]
    apply Memory.read64_write64_of_disjoint _ _ (by omega) (by omega)
    by_cases htable : u = t
    · subst htable
      have hindex : j.val ≠ i.val := fun h => heq ⟨rfl, Fin.ext h⟩
      omega
    · have hne : t.addr.toNat ≠ u.addr.toNat := by
        intro hnat
        apply htable
        obtain ⟨addr, haligned⟩ := t
        obtain rfl : u.addr = addr := (BitVec.eq_of_toNat_eq hnat).symm
        rfl
      have htaligned := t.aligned
      have hualigned := u.aligned
      omega

theorem ptEntry_congr (heq : Set.EqOn m' m t.bytes) : ptEntry m' t = ptEntry m t := by
  funext i
  have haddr := entryAddr_toNat t i
  have hfits := t.fits
  have hi := i.isLt
  exact Memory.read64_congr (by omega) (heq.mono (entry_subset t i))

theorem ptEntry_eq_zero (hzero : ∀ x ∈ t.bytes, m x = 0) (i : Fin 512) :
    ptEntry m t i = 0 := by
  have haddr := entryAddr_toNat t i
  have hfits := t.fits
  have hi := i.isLt
  exact Memory.read64_eq_zero (by omega) fun x hx => hzero x (entry_subset t i hx)

theorem ptEntry_fillWords (m : Memory) (t : TableAddr) (f : Nat → Memory → Word)
    (i : Fin 512) :
    ptEntry (m.fillWords t.addr 512 f) t i = f i (m.fillWords t.addr i f) :=
  Memory.read64_fillWords m f t.fits i.isLt

/-! ### Walks -/

theorem translateFrom_eq (m : Memory) (va : Word) (level : Nat) (t : TableAddr) :
    k.translateFrom m va level t.addr =
      (Radix.stopAt k.child (ptEntry m) level t (ptPath va level)).bind
        fun stop => k.mappingOf stop.1 stop.2 va := by
  induction level generalizing t with
  | zero =>
      simp only [translateFrom, ptPath, Radix.stopAt, Option.bind_some, mappingOf, ptEntry]
      cases k.arch.ptePresent (m.read64 (entryAddr t.addr (ptIndex va 0))) <;> simp
  | succ level ih =>
      have hentry : m.read64 (entryAddr t.addr (ptIndex va (level + 1))) =
          ptEntry m t (ptIndex va (level + 1)) := rfl
      simp only [translateFrom, ptPath, Radix.stopAt, hentry]
      cases hpresent : k.arch.ptePresent (ptEntry m t (ptIndex va (level + 1))) with
      | false => simp [child, mappingOf, hpresent]
      | true =>
          cases hleaf : k.arch.pteIsLeaf (ptEntry m t (ptIndex va (level + 1)))
              (level + 1) with
          | true => simp [child, mappingOf, hpresent, hleaf]
          | false =>
              simp only [child, hpresent, hleaf, Bool.true_eq_false, if_false,
                Bool.false_eq_true, not_false_eq_true, and_self, if_true]
              exact ih (k.childTable _)

/-- The mapping of `va` in the address space below `l4` is decided by the entry
where the walk ends. -/
theorem translate_eq (m : Memory) (l4 : TableAddr) (va : Word) :
    k.translate m l4.addr va =
      (Radix.stopAt k.child (ptEntry m) ptTopLevel l4 (ptPath va ptTopLevel)).bind
        fun stop => k.mappingOf stop.1 stop.2 va :=
  translateFrom_eq m va ptTopLevel l4

/-- `vm_user_to_kernel` is the direct-map alias of the translation. -/
theorem userToKernelFrom_eq (m : Memory) (va : Word) (level : Nat) (table : Word) :
    k.userToKernelFrom m va level table =
      ((k.translateFrom m va level table).map fun x => k.physToVirt x.phys).getD 0 := by
  induction level generalizing table with
  | zero =>
      simp only [userToKernelFrom, translateFrom]
      split_ifs
      · rfl
      · simp [physToVirt, BitVec.add_assoc]
  | succ level ih =>
      simp only [userToKernelFrom, translateFrom]
      split_ifs
      · rfl
      · simp [physToVirt, BitVec.add_assoc]
      · exact ih _

theorem vmUserToKernel_eq (m : Memory) (l4 va : Word) :
    k.vmUserToKernel m l4 va =
      ((k.translate m l4 va).map fun x => k.physToVirt x.phys).getD 0 :=
  userToKernelFrom_eq m va ptTopLevel l4

/-! ### Memory changes that no table sees -/

theorem PageTables.fetch_eq (h : k.PageTables m live roots)
    (heq : Set.EqOn m' m (k.alloc.kept live)) (t : TableAddr) (i : Fin 512)
    (ht : k.Reached m roots t) : ptEntry m' t i = ptEntry m t i :=
  congrFun (ptEntry_congr (heq.mono (h.kept t ht))) i

/-- Page tables only depend on the tables that are reached. -/
theorem PageTables.transport (h : k.PageTables m live roots) (hheap : k.alloc.Live m' live')
    (hkept : ∀ t, k.Reached m roots t → t.bytes ⊆ k.alloc.kept live')
    (heq : ∀ t, k.Reached m roots t → Set.EqOn m' m t.bytes) :
    k.PageTables m' live' roots := by
  have hfetch : ∀ t i, k.Reached m roots t → ptEntry m' t i = ptEntry m t i :=
    fun t i ht => congrFun (ptEntry_congr (heq t ht)) i
  refine ⟨hheap, h.nonnull, h.separated.congr hfetch, ?_, ?_⟩
  · intro t ht
    rw [Reached, Radix.reached_congr hfetch] at ht
    exact hkept t ht
  · intro r hr p t i ht
    rw [tableAt, Radix.tableAt_congr_reached hfetch hr] at ht
    rw [hfetch t i ⟨r, hr, p, ht⟩]
    exact h.leaves r hr p t i ht

theorem PageTables.congr (h : k.PageTables m live roots) (hheap : k.alloc.Live m' live')
    (hsub : live ⊆ live')
    (heq : ∀ t, k.Reached m roots t → Set.EqOn m' m t.bytes) :
    k.PageTables m' live' roots :=
  h.transport hheap (fun t ht => (h.kept t ht).trans (Allocator.kept_mono hsub)) heq

theorem PageTables.mono {roots' : Set TableAddr} (h : k.PageTables m live roots)
    (hsub : roots' ⊆ roots) : k.PageTables m live roots' := by
  refine ⟨h.heap, fun r hr => h.nonnull r (hsub hr), h.separated.mono hsub, ?_,
    fun r hr => h.leaves r (hsub hr)⟩
  rintro t ⟨r, hr, p, hp⟩
  exact h.kept t ⟨r, hsub hr, p, hp⟩

theorem PageTables.translate_congr (hr : r ∈ roots)
    (heq : ∀ t, k.Reached m roots t → Set.EqOn m' m t.bytes) (va : Word) :
    k.translate m' r.addr va = k.translate m r.addr va := by
  have hfetch : ∀ t i, k.Reached m roots t → ptEntry m' t i = ptEntry m t i :=
    fun t i ht => congrFun (ptEntry_congr (heq t ht)) i
  rw [translate_eq, translate_eq, Radix.stopAt_congr_reached hfetch hr]

end Machine

end Utopia
