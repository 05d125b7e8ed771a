/-
The addresses below an entry of a page table: the walks over the user half name
them by a base address, the tables by the path of indices that leads to them.
-/
import Utopia.Mm.FreshSpace

namespace Utopia

open Machine

/-- The addresses that share their upper part with `va` are those below the
table of `level` that the path `p` leads to. -/
structure PathBase (va : Word) (level : Nat) (p : List (Fin 512)) : Prop where
  aligned : va.toNat % 2 ^ (12 + (level + 1) * 9) = 0
  user : va.toNat < 2 ^ 47
  len : p.length + level = ptTopLevel
  head : ∀ j ∈ p.head?, ¬ KernelIndex j
  path : ∀ a : Word, a.toNat / 2 ^ (12 + (level + 1) * 9) =
    va.toNat / 2 ^ (12 + (level + 1) * 9) → ptPath a ptTopLevel = p ++ ptPath a level

/-- The address lies below entry `i` of a table of `level` at `va`. -/
def BelowEntryVa (va : Word) (level : Nat) (i : Fin 512) (a : Word) : Prop :=
  a.toNat / 2 ^ (12 + level * 9) = (entryVa va level i).toNat / 2 ^ (12 + level * 9)

variable {va a : Word} {level : Nat} {p : List (Fin 512)} {i : Fin 512}

theorem pathBase_top : PathBase 0 ptTopLevel [] := by
  refine ⟨by decide, by decide, rfl, by simp, fun a _ => rfl⟩

theorem PathBase.level_le (h : PathBase va level p) : level ≤ 3 := by
  have hlen := h.len
  simp only [ptTopLevel] at hlen
  omega

theorem PathBase.index_lt (h : PathBase va level p) (hi : i ∈ levelEntries level) :
    va.toNat + i * 2 ^ (12 + level * 9) + 2 ^ (12 + level * 9) ≤ 2 ^ 47 := by
  have hlevel := h.level_le
  have haligned := h.aligned
  have huser := h.user
  have hlt := i.isLt
  have hsmall : level = 3 → i.val < 256 := by
    intro htop
    rw [levelEntries, if_pos (by rw [htop]; rfl)] at hi
    exact Nat.lt_of_not_le (mem_userEntries.mp hi)
  interval_cases level <;> norm_num at haligned ⊢ <;> omega

theorem PathBase.entryVa_toNat (h : PathBase va level p) (i : Fin 512) :
    (entryVa va level i).toNat = va.toNat + i * 2 ^ (12 + level * 9) := by
  have hlevel := h.level_le
  have haligned := h.aligned
  have huser := h.user
  have hlt := i.isLt
  have hshift : (BitVec.ofNat 64 i <<< (12 + level * 9) : Word).toNat =
      i * 2 ^ (12 + level * 9) := by
    rw [BitVec.toNat_shiftLeft, BitVec.toNat_ofNat, Nat.shiftLeft_eq]
    interval_cases level <;> norm_num <;> omega
  have hsmall : i.val * 2 ^ (12 + level * 9) < 2 ^ (12 + (level + 1) * 9) := by
    have hsplit : 2 ^ (12 + (level + 1) * 9) = 512 * 2 ^ (12 + level * 9) := by
      rw [show 12 + (level + 1) * 9 = 9 + (12 + level * 9) by omega, Nat.pow_add 2 9]
    rw [hsplit]
    exact Nat.mul_lt_mul_of_pos_right hlt (Nat.two_pow_pos _)
  have hva : va.toNat = 2 ^ (12 + (level + 1) * 9) * (va.toNat / 2 ^ (12 + (level + 1) * 9)) :=
    (Nat.mul_div_cancel' (Nat.dvd_of_mod_eq_zero haligned)).symm
  rw [entryVa, BitVec.toNat_or, hshift, hva, Nat.two_pow_add_eq_or_of_lt hsmall]

/-- Entry `i` lies at index `i` below `va`. -/
theorem PathBase.index_eq (h : PathBase va level p) (hbelow : BelowEntryVa va level i a) :
    ptIndex a level = i ∧ a.toNat / 2 ^ (12 + (level + 1) * 9) =
      va.toNat / 2 ^ (12 + (level + 1) * 9) := by
  have hlevel := h.level_le
  have haligned := h.aligned
  have hlt := i.isLt
  rw [BelowEntryVa, h.entryVa_toNat] at hbelow
  rw [Fin.ext_iff, ptIndex_val]
  interval_cases level <;> norm_num at haligned hbelow ⊢ <;> omega

theorem PathBase.below_of_index (h : PathBase va level p)
    (hsame : a.toNat / 2 ^ (12 + (level + 1) * 9) = va.toNat / 2 ^ (12 + (level + 1) * 9)) :
    BelowEntryVa va level (ptIndex a level) a := by
  have hlevel := h.level_le
  have haligned := h.aligned
  rw [BelowEntryVa, h.entryVa_toNat, ptIndex_val]
  interval_cases level <;> norm_num at haligned hsame ⊢ <;> omega

theorem PathBase.private (h : PathBase va level p) (hi : i ∈ levelEntries level) :
    ∀ j ∈ (p ++ [i]).head?, ¬ KernelIndex j := by
  intro j hj
  cases p with
  | nil =>
      have htop : level = ptTopLevel := by simpa using h.len
      rw [levelEntries, if_pos htop, mem_userEntries] at hi
      obtain rfl : i = j := by simpa using hj
      exact hi
  | cons b p => exact h.head j hj

/-- The tables below entry `i`. -/
theorem PathBase.entry (h : PathBase va (level + 1) p) (hi : i ∈ levelEntries (level + 1)) :
    PathBase (entryVa va (level + 1) i) level (p ++ [i]) := by
  have hbound := h.index_lt hi
  have hlevel := h.level_le
  refine ⟨?_, ?_, ?_, h.private hi, ?_⟩
  · have haligned := h.aligned
    rw [h.entryVa_toNat]
    obtain ⟨q, hq⟩ := Nat.dvd_of_mod_eq_zero haligned
    rw [hq]
    have hsplit : 12 + (level + 1 + 1) * 9 = (12 + (level + 1) * 9) + 9 := by omega
    rw [hsplit, Nat.pow_add, Nat.mul_assoc, Nat.mul_comm i.val, ← Nat.mul_add]
    exact Nat.mul_mod_right _ _
  · rw [h.entryVa_toNat]
    have hpos := Nat.two_pow_pos (12 + (level + 1) * 9)
    omega
  · rw [List.length_append, List.length_singleton]
    have hlen := h.len
    omega
  · intro a ha
    obtain ⟨hindex, hsame⟩ := h.index_eq (i := i) ha
    rw [h.path a hsame, ptPath, hindex, List.append_assoc, List.singleton_append]

/-- Entry `i` of a level-0 table is the page at `entryVa va 0 i`. -/
theorem PathBase.page (h : PathBase va 0 p) (hi : i ∈ levelEntries 0) :
    (vpn (entryVa va 0 i)).addr = entryVa va 0 i ∧
      ptPath (entryVa va 0 i) ptTopLevel = p ++ [i] ∧ ptIndex (entryVa va 0 i) 0 = i ∧
      ∀ page : Vpn, BelowEntryVa va 0 i page.addr → page = vpn (entryVa va 0 i) := by
  have hbound := h.index_lt hi
  have hva := h.entryVa_toNat i
  have haligned := h.aligned
  norm_num at hbound hva haligned
  have haddr : (vpn (entryVa va 0 i)).addr = entryVa va 0 i := by
    apply BitVec.eq_of_toNat_eq
    rw [Vpn.addr_toNat, vpn_toNat]
    omega
  obtain ⟨hindex, hsame⟩ := h.index_eq (a := entryVa va 0 i) (i := i) rfl
  refine ⟨haddr, ?_, hindex, ?_⟩
  · rw [h.path _ hsame, ptPath, hindex]
  · intro page hpage
    rw [← vpn_addr page]
    apply BitVec.eq_of_toNat_eq
    rw [BelowEntryVa] at hpage
    norm_num at hpage
    rw [vpn_toNat, vpn_toNat, hpage]

/-- A page below a skipped subtree is skipped. -/
theorem PathBase.skipped (h : PathBase va level p) (hi : i ∈ levelEntries level)
    {skipLo skipHi : Word} (hlo : skipLo ≤ entryVa va level i)
    (hhi : entryVa va level i + levelSpan level ≤ skipHi) {page : Vpn}
    (hbelow : BelowEntryVa va level i page.addr) :
    skipLo ≤ page.addr ∧ page.addr < skipHi := by
  have hbound := h.index_lt hi
  have hva := h.entryVa_toNat i
  have hlevel := h.level_le
  have hspan := levelSpan_toNat hlevel
  have hadd : (entryVa va level i + levelSpan level).toNat =
      (entryVa va level i).toNat + 2 ^ (12 + level * 9) := by
    rw [toNat_add_of_lt, hspan]
    rw [hspan, hva]
    omega
  rw [BitVec.le_def] at hlo hhi
  rw [hadd] at hhi
  rw [BelowEntryVa] at hbelow
  have haligned := h.aligned
  rw [BitVec.le_def, BitVec.lt_def]
  have hentry : (entryVa va level i).toNat % 2 ^ (12 + level * 9) = 0 := by
    rw [hva]
    interval_cases level <;> norm_num at haligned ⊢ <;> omega
  have hpos := Nat.two_pow_pos (12 + level * 9)
  have hdiv := Nat.div_add_mod page.addr.toNat (2 ^ (12 + level * 9))
  have hmod := Nat.mod_lt page.addr.toNat hpos
  have hdiv' := Nat.div_add_mod (entryVa va level i).toNat (2 ^ (12 + level * 9))
  rw [hbelow] at hdiv
  constructor <;> omega

end Utopia
