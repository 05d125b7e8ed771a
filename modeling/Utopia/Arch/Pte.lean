/-
Page table entries of the two architectures: the encoders and tests of
`arch/x86_64/mm/paging.c` and `arch/riscv64/mm/paging.c`, and what each test
says about each encoder.
-/
import Utopia.Lib.Memory

namespace Utopia

inductive Arch where
  | x86_64
  | riscv64
deriving DecidableEq, Repr

/-- `vm_flags_t`, one field for each bit. -/
structure VmFlags where
  write : Bool
  user : Bool
  exec : Bool
  global : Bool
deriving DecidableEq, Repr

/-- `if (cond) pte |= bits`. -/
def orIf (pte : Word) (cond : Bool) (bits : Word) : Word :=
  if cond then pte ||| bits else pte

/-- `pte & bits`, read as a condition. -/
def hasBits (pte bits : Word) : Bool := pte &&& bits ≠ 0

namespace X86

def pagePresent : Word := 0x1
def pageRw : Word := 0x2
def pageUser : Word := 0x4
def pageHuge : Word := 0x80
def pageGlobal : Word := 0x100
def pageNx : Word := 0x8000000000000000
def pagePhysMask : Word := 0x000FFFFFFFFFF000

def pteTable (childPhys : Word) : Word :=
  (childPhys &&& pagePhysMask) ||| pagePresent ||| pageRw ||| pageUser

/-- The flag part shared by `arch_pte_leaf` and `arch_pte_with_flags`. -/
def orFlags (pte : Word) (flags : VmFlags) : Word :=
  let pte := orIf pte flags.write pageRw
  let pte := orIf pte flags.user pageUser
  let pte := orIf pte (!flags.exec) pageNx
  orIf pte flags.global pageGlobal

def pteLeaf (phys : Word) (flags : VmFlags) (huge : Bool) : Word :=
  orIf (orFlags ((phys &&& pagePhysMask) ||| pagePresent) flags) huge pageHuge

def pteWithFlags (existing : Word) (flags : VmFlags) : Word :=
  orFlags (existing &&& (pagePhysMask ||| pageHuge ||| pagePresent)) flags

def pteChildLeaf (parent childPhys : Word) (childLevel : Nat) : Word :=
  let flagBits := parent &&& (0xFFF ||| pageNx)
  let pte := (childPhys &&& pagePhysMask) ||| flagBits
  if 0 < childLevel then pte ||| pageHuge else pte &&& ~~~pageHuge

def pteWithPhys (existing phys : Word) : Word :=
  (existing &&& ~~~pagePhysMask) ||| (phys &&& pagePhysMask)

def ptePresent (pte : Word) : Bool := hasBits pte pagePresent

def pteIsLeaf (pte : Word) (level : Nat) : Bool :=
  level = 0 || hasBits pte pageHuge

def ptePhys (pte : Word) : Word := pte &&& pagePhysMask

/-- What the processor grants through a leaf entry. -/
def pteFlags (pte : Word) : VmFlags where
  write := hasBits pte pageRw
  user := hasBits pte pageUser
  exec := !hasBits pte pageNx
  global := hasBits pte pageGlobal

end X86

namespace Riscv

def pteV : Word := 0x1
def pteR : Word := 0x2
def pteW : Word := 0x4
def pteX : Word := 0x8
def pteU : Word := 0x10
def pteG : Word := 0x20
def pteA : Word := 0x40
def pteD : Word := 0x80

def physToPpn (phys : Word) : Word := (phys >>> 12) <<< 10

def ppnToPhys (pte : Word) : Word := (pte >>> 10) <<< 12

def pteTable (childPhys : Word) : Word := physToPpn childPhys ||| pteV

/-- The flag part shared by `arch_pte_leaf` and `arch_pte_with_flags`. -/
def orFlags (pte : Word) (flags : VmFlags) : Word :=
  let pte := orIf pte flags.write pteW
  let pte := orIf pte flags.exec pteX
  let pte := orIf pte flags.user pteU
  orIf pte flags.global pteG

def pteLeaf (phys : Word) (flags : VmFlags) (_huge : Bool) : Word :=
  orFlags (physToPpn phys ||| pteV ||| pteA ||| pteD ||| pteR) flags

def pteWithFlags (existing : Word) (flags : VmFlags) : Word :=
  orFlags ((existing &&& ~~~(pteR ||| pteW ||| pteX ||| pteU ||| pteG)) |||
    pteV ||| pteA ||| pteD ||| pteR) flags

def pteChildLeaf (parent childPhys : Word) (_childLevel : Nat) : Word :=
  let flagBits := parent &&& 0x3FF
  physToPpn childPhys ||| flagBits

def pteWithPhys (existing phys : Word) : Word :=
  (existing &&& ((1 <<< 10) - 1)) ||| physToPpn phys

def ptePresent (pte : Word) : Bool := hasBits pte pteV

def pteIsLeaf (pte : Word) (level : Nat) : Bool :=
  level = 0 || hasBits pte (pteR ||| pteW ||| pteX)

def ptePhys (pte : Word) : Word := ppnToPhys pte

/-- What the processor grants through a leaf entry. -/
def pteFlags (pte : Word) : VmFlags where
  write := hasBits pte pteW
  user := hasBits pte pteU
  exec := hasBits pte pteX
  global := hasBits pte pteG

end Riscv

namespace Arch

def pteTable : Arch → Word → Word
  | x86_64 => X86.pteTable
  | riscv64 => Riscv.pteTable

def pteLeaf : Arch → Word → VmFlags → Bool → Word
  | x86_64 => X86.pteLeaf
  | riscv64 => Riscv.pteLeaf

def pteWithFlags : Arch → Word → VmFlags → Word
  | x86_64 => X86.pteWithFlags
  | riscv64 => Riscv.pteWithFlags

def pteChildLeaf : Arch → Word → Word → Nat → Word
  | x86_64 => X86.pteChildLeaf
  | riscv64 => Riscv.pteChildLeaf

def pteWithPhys : Arch → Word → Word → Word
  | x86_64 => X86.pteWithPhys
  | riscv64 => Riscv.pteWithPhys

def ptePresent : Arch → Word → Bool
  | x86_64 => X86.ptePresent
  | riscv64 => Riscv.ptePresent

def pteIsLeaf : Arch → Word → Nat → Bool
  | x86_64 => X86.pteIsLeaf
  | riscv64 => Riscv.pteIsLeaf

def ptePhys : Arch → Word → Word
  | x86_64 => X86.ptePhys
  | riscv64 => Riscv.ptePhys

def pteFlags : Arch → Word → VmFlags
  | x86_64 => X86.pteFlags
  | riscv64 => Riscv.pteFlags

end Arch

/-! ### Bit tests -/

@[simp]
theorem hasBits_or (a b mask : Word) :
    hasBits (a ||| b) mask = (hasBits a mask || hasBits b mask) := by
  have hsplit : (a ||| b) &&& mask = (a &&& mask) ||| (b &&& mask) := by
    apply BitVec.eq_of_getLsbD_eq
    intro i _
    simp [Bool.and_or_distrib_right]
  rw [hasBits, hsplit, hasBits, hasBits]
  by_cases ha : a &&& mask = 0 <;> by_cases hb : b &&& mask = 0 <;>
    simp [BitVec.or_eq_zero_iff, ha, hb]

theorem hasBits_orIf (a b mask : Word) (cond : Bool) :
    hasBits (orIf a cond b) mask =
      (hasBits a mask || (cond && hasBits b mask)) := by
  cases cond <;> simp [orIf]

theorem hasBits_and (a b mask : Word) (hsub : b &&& mask = mask) :
    hasBits (a &&& b) mask = hasBits a mask := by
  rw [hasBits, BitVec.and_assoc, hsub, hasBits]

theorem hasBits_and_of_disjoint (a b mask : Word) (hdis : b &&& mask = 0) :
    hasBits (a &&& b) mask = false := by
  rw [hasBits, BitVec.and_assoc, hdis]
  simp

theorem or_and_of_disjoint {a b mask : Word} (hdis : b &&& mask = 0) :
    (a ||| b) &&& mask = a &&& mask := by
  have hsplit : (a ||| b) &&& mask = (a &&& mask) ||| (b &&& mask) := by
    apply BitVec.eq_of_getLsbD_eq
    intro i _
    simp [Bool.and_or_distrib_right]
  rw [hsplit, hdis]
  simp

theorem orIf_and_of_disjoint {a b mask : Word} {cond : Bool}
    (hdis : b &&& mask = 0) : orIf a cond b &&& mask = a &&& mask := by
  cases cond
  · rfl
  · exact or_and_of_disjoint hdis

/-- A page-aligned address is its own physical part on x86-64 as long as it has
at most 52 bits. -/
theorem and_pagePhysMask_eq {phys : Word} (halign : phys.toNat % 4096 = 0)
    (hwidth : phys.toNat < 2 ^ 52) : phys &&& X86.pagePhysMask = phys := by
  have hmask : ∀ i < 64, X86.pagePhysMask.getLsbD i = decide (12 ≤ i ∧ i < 52) := by
    decide
  apply BitVec.eq_of_getLsbD_eq
  intro i hi
  rw [BitVec.getLsbD_and, hmask i hi]
  by_cases hlow : i < 12
  · have hbit : phys.getLsbD i = false := by
      rw [← BitVec.testBit_toNat]
      have hmod : (phys.toNat % 2 ^ 12).testBit i = false := by
        rw [show phys.toNat % 2 ^ 12 = 0 from halign]
        simp
      rw [Nat.testBit_mod_two_pow] at hmod
      simpa [hlow] using hmod
    simp [hbit]
  · by_cases hhigh : i < 52
    · simp [hhigh, Nat.le_of_not_lt hlow]
    · have hbit : phys.getLsbD i = false := by
        rw [← BitVec.testBit_toNat]
        exact Nat.testBit_lt_two_pow
          (hwidth.trans_le (Nat.pow_le_pow_right (by decide) (by omega)))
      simp [hbit]

/-- The page number field of a Sv48 entry holds any page-aligned address. -/
theorem ppnToPhys_physToPpn_or {phys flags : Word}
    (halign : phys.toNat % 4096 = 0) (hflags : flags.toNat < 2 ^ 10) :
    Riscv.ppnToPhys (Riscv.physToPpn phys ||| flags) = phys := by
  have hphys := phys.isLt
  have hzero : flags >>> 10 = 0#64 := by
    apply BitVec.eq_of_toNat_eq
    rw [BitVec.toNat_ushiftRight, Nat.shiftRight_eq_div_pow]
    simpa using Nat.div_eq_of_lt hflags
  have hppn : (phys >>> 12).toNat = phys.toNat / 4096 := by
    rw [BitVec.toNat_ushiftRight, Nat.shiftRight_eq_div_pow]
  have hshift : ((phys >>> 12) <<< 10).toNat = phys.toNat / 4096 * 1024 := by
    rw [BitVec.toNat_shiftLeft, hppn, Nat.shiftLeft_eq]
    omega
  rw [Riscv.ppnToPhys, Riscv.physToPpn, BitVec.ushiftRight_or_distrib, hzero,
    BitVec.or_zero]
  apply BitVec.eq_of_toNat_eq
  rw [BitVec.toNat_shiftLeft, BitVec.toNat_ushiftRight, hshift,
    Nat.shiftLeft_eq, Nat.shiftRight_eq_div_pow]
  omega

theorem hasBits_physToPpn (phys : Word) {mask : Word}
    (hmask : mask.toNat < 2 ^ 10) : hasBits (Riscv.physToPpn phys) mask = false := by
  have hzero : Riscv.physToPpn phys &&& mask = 0 := by
    apply BitVec.eq_of_getLsbD_eq
    intro i hi
    rw [Riscv.physToPpn, BitVec.getLsbD_and, BitVec.getLsbD_shiftLeft]
    by_cases hlow : i < 10
    · simp [hlow]
    · have hbit : mask.getLsbD i = false := by
        rw [← BitVec.testBit_toNat]
        exact Nat.testBit_lt_two_pow
          (hmask.trans_le (Nat.pow_le_pow_right (by decide) (by omega)))
      simp [hbit]
  simp [hasBits, hzero]

/-! ### What the tests say about the encoders -/

namespace Arch

/-- Physical addresses an entry of the architecture can hold. -/
def physBound : Arch → Nat
  | x86_64 => 2 ^ 52
  | riscv64 => 2 ^ 64

/-- A page-aligned physical address within the width of an entry. -/
def IsFrame (arch : Arch) (phys : Word) : Prop :=
  phys.toNat % 4096 = 0 ∧ phys.toNat < arch.physBound

variable {arch : Arch}

/-- The physical part of any entry is a frame. -/
theorem isFrame_ptePhys (pte : Word) : arch.IsFrame (arch.ptePhys pte) := by
  cases arch
  · have hlow : X86.ptePhys pte &&& 4095 = 0#64 := by
      rw [X86.ptePhys, BitVec.and_assoc, show X86.pagePhysMask &&& 4095 = 0#64 by
        decide, BitVec.and_zero]
    constructor
    · have hmod := Nat.and_two_pow_sub_one_eq_mod (X86.ptePhys pte).toNat 12
      have hand := congrArg BitVec.toNat hlow
      rw [BitVec.toNat_and] at hand
      exact hmod.symm.trans hand
    · simp only [ptePhys, X86.ptePhys, BitVec.toNat_and]
      exact Nat.lt_of_le_of_lt Nat.and_le_right (by decide)
  · constructor
    · simp only [ptePhys, Riscv.ptePhys, Riscv.ppnToPhys, BitVec.toNat_shiftLeft,
        BitVec.toNat_ushiftRight, Nat.shiftLeft_eq]
      omega
    · exact BitVec.isLt _

@[simp]
theorem ptePresent_zero : arch.ptePresent 0 = false := by
  cases arch <;> decide

@[simp]
theorem ptePresent_pteTable (phys : Word) :
    arch.ptePresent (arch.pteTable phys) = true := by
  cases arch
  · simp +decide [ptePresent, pteTable, X86.ptePresent, X86.pteTable]
  · simp +decide [ptePresent, pteTable, Riscv.ptePresent, Riscv.pteTable]

@[simp]
theorem pteIsLeaf_zero_level (pte : Word) : arch.pteIsLeaf pte 0 = true := by
  cases arch <;> simp [pteIsLeaf, X86.pteIsLeaf, Riscv.pteIsLeaf]

@[simp]
theorem pteIsLeaf_pteTable (phys : Word) (level : Nat) :
    arch.pteIsLeaf (arch.pteTable phys) (level + 1) = false := by
  cases arch
  · simp +decide [pteIsLeaf, pteTable, X86.pteIsLeaf, X86.pteTable,
      hasBits_and_of_disjoint]
  · simp +decide [pteIsLeaf, pteTable, Riscv.pteIsLeaf, Riscv.pteTable,
      hasBits_physToPpn]

theorem ptePhys_pteTable {phys : Word} (hphys : arch.IsFrame phys) :
    arch.ptePhys (arch.pteTable phys) = phys := by
  cases arch
  · simp only [ptePhys, pteTable, X86.ptePhys, X86.pteTable]
    rw [or_and_of_disjoint (by decide), or_and_of_disjoint (by decide),
      or_and_of_disjoint (by decide), BitVec.and_assoc, BitVec.and_self,
      and_pagePhysMask_eq hphys.1 hphys.2]
  · exact ppnToPhys_physToPpn_or hphys.1 (by decide)

@[simp]
theorem ptePresent_pteLeaf (phys : Word) (flags : VmFlags) (huge : Bool) :
    arch.ptePresent (arch.pteLeaf phys flags huge) = true := by
  cases arch
  · simp +decide [ptePresent, pteLeaf, X86.ptePresent, X86.pteLeaf, X86.orFlags,
      hasBits_orIf]
  · simp +decide [ptePresent, pteLeaf, Riscv.ptePresent, Riscv.pteLeaf,
      Riscv.orFlags, hasBits_orIf]

@[simp]
theorem pteFlags_pteLeaf (phys : Word) (flags : VmFlags) (huge : Bool) :
    arch.pteFlags (arch.pteLeaf phys flags huge) = flags := by
  obtain ⟨write, user, exec, global⟩ := flags
  cases arch
  · simp (disch := decide) only [pteFlags, pteLeaf, X86.pteFlags, X86.pteLeaf,
      X86.orFlags, hasBits_orIf, hasBits_or, hasBits_and_of_disjoint]
    decide +revert
  · simp (disch := decide) only [pteFlags, pteLeaf, Riscv.pteFlags, Riscv.pteLeaf,
      Riscv.orFlags, hasBits_orIf, hasBits_or, hasBits_physToPpn]
    clear huge
    decide +revert

theorem ptePhys_pteLeaf {phys : Word} (hphys : arch.IsFrame phys)
    (flags : VmFlags) (huge : Bool) :
    arch.ptePhys (arch.pteLeaf phys flags huge) = phys := by
  cases arch
  · simp only [ptePhys, pteLeaf, X86.ptePhys, X86.pteLeaf, X86.orFlags]
    rw [orIf_and_of_disjoint (by decide), orIf_and_of_disjoint (by decide),
      orIf_and_of_disjoint (by decide), orIf_and_of_disjoint (by decide),
      orIf_and_of_disjoint (by decide), or_and_of_disjoint (by decide),
      BitVec.and_assoc, BitVec.and_self, and_pagePhysMask_eq hphys.1 hphys.2]
  · have hor : ∀ (a b : Word) (cond : Bool), orIf a cond b = a ||| (if cond then b else 0) := by
      intro a b cond
      cases cond <;> simp [orIf]
    simp only [ptePhys, pteLeaf, Riscv.ptePhys, Riscv.pteLeaf, Riscv.orFlags,
      hor, BitVec.or_assoc]
    apply ppnToPhys_physToPpn_or hphys.1
    cases flags.write <;> cases flags.exec <;> cases flags.user <;>
      cases flags.global <;> decide

theorem ptePresent_pteChildLeaf {parent : Word} (phys : Word) (level : Nat)
    (hpresent : arch.ptePresent parent = true) :
    arch.ptePresent (arch.pteChildLeaf parent phys level) = true := by
  cases arch
  · simp only [ptePresent, X86.ptePresent, pteChildLeaf, X86.pteChildLeaf] at *
    split_ifs <;>
      simp (disch := decide) only [hasBits_or, hasBits_and, hpresent, Bool.or_true,
        Bool.true_or]
  · simp only [ptePresent, Riscv.ptePresent, pteChildLeaf, Riscv.pteChildLeaf] at *
    rw [hasBits_or, hasBits_and _ _ _ (by decide), hpresent, Bool.or_true]

/-- A child of a leaf is a leaf of the next level down. -/
theorem pteIsLeaf_pteChildLeaf {parent : Word} (phys : Word) {level : Nat}
    (hleaf : arch.pteIsLeaf parent (level + 1) = true) :
    arch.pteIsLeaf (arch.pteChildLeaf parent phys level) level = true := by
  cases arch
  · simp only [pteIsLeaf, X86.pteIsLeaf, pteChildLeaf, X86.pteChildLeaf]
    rcases Nat.eq_zero_or_pos level with rfl | hpos
    · simp
    · simp +decide [hpos]
  · simp only [pteIsLeaf, Riscv.pteIsLeaf, pteChildLeaf, Riscv.pteChildLeaf] at *
    simp only [Nat.add_one_ne_zero, decide_false, Bool.false_or] at hleaf
    rw [hasBits_or, hasBits_and _ _ _ (by decide), hleaf]
    simp

@[simp]
theorem pteFlags_pteChildLeaf (parent phys : Word) (level : Nat) :
    arch.pteFlags (arch.pteChildLeaf parent phys level) = arch.pteFlags parent := by
  cases arch
  · have hhuge : hasBits X86.pageHuge X86.pageRw = false ∧
        hasBits X86.pageHuge X86.pageUser = false ∧
        hasBits X86.pageHuge X86.pageNx = false ∧
        hasBits X86.pageHuge X86.pageGlobal = false := by decide
    simp only [pteFlags, X86.pteFlags, pteChildLeaf, X86.pteChildLeaf]
    split_ifs <;>
      simp (disch := decide) only [hasBits_or, hasBits_and, hasBits_and_of_disjoint,
        hhuge, Bool.or_false, Bool.false_or]
  · simp (disch := decide) only [pteFlags, Riscv.pteFlags, pteChildLeaf,
      Riscv.pteChildLeaf, hasBits_or, hasBits_and, hasBits_physToPpn, Bool.false_or]

theorem ptePhys_pteChildLeaf {phys : Word} (hphys : arch.IsFrame phys)
    (parent : Word) (level : Nat) :
    arch.ptePhys (arch.pteChildLeaf parent phys level) = phys := by
  cases arch
  · have hbits : parent &&& (0xFFF ||| X86.pageNx) &&& X86.pagePhysMask = 0 := by
      rw [BitVec.and_assoc, show (0xFFF ||| X86.pageNx) &&& X86.pagePhysMask = 0#64 by
        decide, BitVec.and_zero]
      rfl
    have hcore : (phys &&& X86.pagePhysMask ||| parent &&& (0xFFF ||| X86.pageNx)) &&&
        X86.pagePhysMask = phys := by
      rw [or_and_of_disjoint hbits, BitVec.and_assoc, BitVec.and_self,
        and_pagePhysMask_eq hphys.1 hphys.2]
    simp only [ptePhys, X86.ptePhys, pteChildLeaf, X86.pteChildLeaf]
    split_ifs
    · rw [or_and_of_disjoint (by decide), hcore]
    · rw [BitVec.and_assoc, show ~~~X86.pageHuge &&& X86.pagePhysMask =
        X86.pagePhysMask by decide, hcore]
  · apply ppnToPhys_physToPpn_or hphys.1
    rw [BitVec.toNat_and]
    exact Nat.lt_of_le_of_lt Nat.and_le_right (by decide)

/-! An entry with another frame and the same flags. -/

@[simp]
theorem ptePresent_pteWithPhys (existing phys : Word) :
    arch.ptePresent (arch.pteWithPhys existing phys) = arch.ptePresent existing := by
  cases arch
  · simp (disch := decide) only [ptePresent, X86.ptePresent, pteWithPhys, X86.pteWithPhys,
      hasBits_or, hasBits_and, hasBits_and_of_disjoint, Bool.or_false]
  · simp (disch := decide) only [ptePresent, Riscv.ptePresent, pteWithPhys, Riscv.pteWithPhys,
      hasBits_or, hasBits_and, hasBits_physToPpn, Bool.or_false]

@[simp]
theorem pteFlags_pteWithPhys (existing phys : Word) :
    arch.pteFlags (arch.pteWithPhys existing phys) = arch.pteFlags existing := by
  cases arch
  · simp (disch := decide) only [pteFlags, X86.pteFlags, pteWithPhys, X86.pteWithPhys,
      hasBits_or, hasBits_and, hasBits_and_of_disjoint, Bool.or_false]
  · simp (disch := decide) only [pteFlags, Riscv.pteFlags, pteWithPhys, Riscv.pteWithPhys,
      hasBits_or, hasBits_and, hasBits_physToPpn, Bool.or_false]

theorem ptePhys_pteWithPhys {phys : Word} (hphys : arch.IsFrame phys) (existing : Word) :
    arch.ptePhys (arch.pteWithPhys existing phys) = phys := by
  cases arch
  · have hrest : existing &&& ~~~X86.pagePhysMask &&& X86.pagePhysMask = 0 := by
      rw [BitVec.and_assoc, show ~~~X86.pagePhysMask &&& X86.pagePhysMask = 0#64 by decide,
        BitVec.and_zero]
      rfl
    simp only [ptePhys, pteWithPhys, X86.ptePhys, X86.pteWithPhys]
    rw [BitVec.or_comm, or_and_of_disjoint hrest, BitVec.and_assoc, BitVec.and_self,
      and_pagePhysMask_eq hphys.1 hphys.2]
  · simp only [ptePhys, pteWithPhys, Riscv.ptePhys, Riscv.pteWithPhys]
    rw [BitVec.or_comm]
    apply ppnToPhys_physToPpn_or hphys.1
    rw [BitVec.toNat_and]
    exact Nat.lt_of_le_of_lt Nat.and_le_right (by decide)

end Arch

end Utopia
