/-
The search of `drivers/acpi/acpi.c` for a table of the RSDT or the XSDT.
-/
import Mathlib.Data.BitVec
import Mathlib.Tactic.Ring
import Utopia.Lib.Memory

namespace Utopia

/-- The fields of the RSDP that lead to the root table. -/
structure Rsdp where
  revision : Byte
  rsdtAddress : BitVec 32
  xsdtAddress : Word
deriving DecidableEq, Repr

/-- A little-endian 32-bit load. -/
def Memory.read32 (m : Memory) (a : Word) : BitVec 32 := m (a + 3) ++ m (a + 2) ++ m (a + 1) ++ m a

section Code

variable (m : Memory) (hhdmOffset : Word)

/-- `acpi_checksum`. -/
def acpiChecksum (table : Word) (length : ℕ) : Bool :=
  ((List.range length).map fun i => m (table + BitVec.ofNat 64 i)).sum = 0

/-- `acpi_get_sdt_root`, where NULL is 0. -/
def acpiGetSdtRoot : Option Rsdp → Word
  | none => 0
  | some rsdp =>
      if 2 ≤ rsdp.revision ∧ rsdp.xsdtAddress ≠ 0 then hhdmOffset + rsdp.xsdtAddress
      else hhdmOffset + rsdp.rsdtAddress.setWidth 64

/-- `entries[i]`. -/
def acpiEntry (entries : Word) (entrySize i : ℕ) : Word :=
  if entrySize = 8 then m.read64 (entries + BitVec.ofNat 64 (8 * i))
  else (m.read32 (entries + BitVec.ofNat 64 (4 * i))).setWidth 64

/-- The table at a physical address has the signature and a valid checksum. -/
def acpiMatches (signature : BitVec 32) (addr : Word) : Bool :=
  addr ≠ 0 && (m.read32 (hhdmOffset + addr) == signature &&
    acpiChecksum m (hhdmOffset + addr) (m.read32 (hhdmOffset + addr + 4)).toNat)

/-- The loop of `acpi_find_table` over `left` entries from `i` on: the table, if it is found, and
the indices of the entries that are read. -/
def acpiFindLoop (entries : Word) (entrySize : ℕ) (signature : BitVec 32) :
    (left : ℕ) → (i : ℕ) → (reads : List ℕ) → Option Word × List ℕ
  | 0, _, reads => (none, reads)
  | left + 1, i, reads =>
      let addr := acpiEntry m entries entrySize i
      if acpiMatches m hhdmOffset signature addr then (some (hhdmOffset + addr), reads ++ [i])
      else acpiFindLoop entries entrySize signature left (i + 1) (reads ++ [i])

/-- `count`. -/
def acpiCount (length : BitVec 32) (entrySize : ℕ) : ℤ :=
  (((length.setWidth 64 - 36) / BitVec.ofNat 64 entrySize : Word).setWidth 32).toInt

/-- `entry_size`. -/
def acpiEntrySize (rsdp : Rsdp) : ℕ := if 2 ≤ rsdp.revision then 8 else 4

/-- `acpi_find_table`: the pointer it returns, and the indices of the entries it reads. -/
def acpiFindTable (rsdp : Option Rsdp) (signature : BitVec 32) : Option Word × List ℕ :=
  let root := acpiGetSdtRoot hhdmOffset rsdp
  match rsdp with
  | none => (none, [])
  | some rsdp =>
      if root = 0 then (none, [])
      else
        let entrySize := acpiEntrySize rsdp
        let count := acpiCount (m.read32 (root + 4)) entrySize
        acpiFindLoop m hhdmOffset (root + 36) entrySize signature count.toNat 0 []

end Code

/-! ### The tables that a root lists -/

/-- A root table: the XSDT has entries of 8 bytes, the RSDT of 4. -/
structure AcpiRoot where
  base : Word
  width : ℕ

/-- The root that an RSDP selects, unless its pointer is NULL. -/
def Rsdp.root (hhdmOffset : Word) (rsdp : Rsdp) : Option AcpiRoot :=
  let root : AcpiRoot :=
    if 2 ≤ rsdp.revision ∧ rsdp.xsdtAddress ≠ 0 then ⟨hhdmOffset + rsdp.xsdtAddress, 8⟩
    else ⟨hhdmOffset + rsdp.rsdtAddress.setWidth 64, 4⟩
  if root.base = 0 then none else some root

namespace AcpiRoot

variable (root : AcpiRoot) (m : Memory)

/-- The length in the header. -/
def length : ℕ := (m.read32 (root.base + 4)).toNat

/-- The addresses behind the header. -/
def listed : List Word :=
  (List.range ((root.length m - 36) / root.width)).map (acpiEntry m (root.base + 36) root.width)

end AcpiRoot

/-- The search gives the first matching table that the root lists, and stays in the root. -/
structure FindsListed (m : Memory) (hhdmOffset : Word) (root : AcpiRoot) (signature : BitVec 32)
    (entrySize : ℕ) (result : Option Word × List ℕ) : Prop where
  found : result.1 = ((root.listed m).find? (acpiMatches m hhdmOffset signature)).map (hhdmOffset + ·)
  inside : ∀ i ∈ result.2, 36 + entrySize * (i + 1) ≤ root.length m

/-- `acpi_find_table` is right for the contents of memory and the signature. -/
def AcpiFindsTable (m : Memory) (hhdmOffset : Word) (rsdp : Rsdp) (signature : BitVec 32) : Prop :=
  match rsdp.root hhdmOffset with
  | none => acpiFindTable m hhdmOffset (some rsdp) signature = (none, [])
  | some root => 36 ≤ root.length m →
      FindsListed m hhdmOffset root signature (acpiEntrySize rsdp)
        (acpiFindTable m hhdmOffset (some rsdp) signature)

variable {m : Memory} {hhdmOffset : Word} {rsdp : Rsdp} {signature : BitVec 32}

theorem acpiFindLoop_found (entries : Word) (entrySize left i : ℕ) (reads : List ℕ) :
    (acpiFindLoop m hhdmOffset entries entrySize signature left i reads).1 =
      (((List.range' i left).map (acpiEntry m entries entrySize)).find?
        (acpiMatches m hhdmOffset signature)).map (hhdmOffset + ·) := by
  induction left generalizing i reads with
  | zero => rfl
  | succ left ih =>
      rw [acpiFindLoop, List.range'_succ, List.map_cons, List.find?_cons]
      cases hmatch : acpiMatches m hhdmOffset signature (acpiEntry m entries entrySize i) with
      | true => simp
      | false => simpa [hmatch] using ih (i + 1) (reads ++ [i])

theorem acpiFindLoop_reads {entries : Word} {entrySize left i j : ℕ} {reads : List ℕ}
    (h : j ∈ (acpiFindLoop m hhdmOffset entries entrySize signature left i reads).2) :
    j ∈ reads ∨ j < i + left := by
  induction left generalizing i reads with
  | zero => exact Or.inl h
  | succ left ih =>
      have hread : j ∈ reads ++ [i] → j ∈ reads ∨ j < i + (left + 1) := by
        intro hmem
        rcases List.mem_append.mp hmem with hold | hnew
        · exact Or.inl hold
        · have heq := List.mem_singleton.mp hnew
          omega
      rw [acpiFindLoop] at h
      split_ifs at h
      · exact hread h
      · rcases ih h with hmem | hlt
        · exact hread hmem
        · omega

/-- The division of the length by the size of an entry. -/
theorem acpiCount_eq {length : BitVec 32} {entrySize : ℕ} (hsize : entrySize = 8 ∨ entrySize = 4)
    (hlength : 36 ≤ length.toNat) :
    (acpiCount length entrySize).toNat = (length.toNat - 36) / entrySize := by
  have hlt := length.isLt
  have hheader : (36 : Word).toNat = 36 := rfl
  have hquotient : ((length.setWidth 64 - 36) / BitVec.ofNat 64 entrySize : Word).toNat =
      (length.toNat - 36) / entrySize := by
    have hsize64 : (BitVec.ofNat 64 entrySize).toNat = entrySize := by
      rcases hsize with rfl | rfl <;> rfl
    have hsub : (2 ^ 64 - 36 + length.toNat) % 2 ^ 64 = length.toNat - 36 := by omega
    rw [BitVec.toNat_udiv, BitVec.toNat_sub, BitVec.toNat_setWidth, hsize64, hheader,
      Nat.mod_eq_of_lt (by omega : length.toNat < 2 ^ 64), hsub]
  have hsmall : (length.toNat - 36) / entrySize < 2 ^ 30 := by
    rcases hsize with rfl | rfl <;> omega
  have hcount : (((length.setWidth 64 - 36) / BitVec.ofNat 64 entrySize : Word).setWidth 32).toNat =
      (length.toNat - 36) / entrySize := by
    rw [BitVec.toNat_setWidth, hquotient]
    omega
  rw [acpiCount, BitVec.toInt_eq_toNat_of_lt (by omega), hcount, Int.toNat_natCast]

/-- With the size that belongs to the root, the loop searches what the root lists. -/
theorem findsListed_loop {root : AcpiRoot} {entrySize : ℕ} (hwidth : root.width = entrySize)
    (hsize : entrySize = 8 ∨ entrySize = 4) (hlength : 36 ≤ root.length m) :
    FindsListed m hhdmOffset root signature entrySize
      (acpiFindLoop m hhdmOffset (root.base + 36) entrySize signature
        (acpiCount (m.read32 (root.base + 4)) entrySize).toNat 0 []) where
  found := by
    rw [acpiFindLoop_found, acpiCount_eq hsize hlength, AcpiRoot.listed, hwidth, AcpiRoot.length,
      List.range_eq_range']
  inside i hi := by
    rcases acpiFindLoop_reads hi with hmem | hlt
    · cases hmem
    · rw [acpiCount_eq hsize hlength] at hlt
      rw [AcpiRoot.length] at hlength ⊢
      rcases hsize with rfl | rfl <;> omega

/-- If the size of the entries belongs to the root, the search is right. -/
theorem acpiFindsTable_of_root (h : rsdp.revision < 2 ∨ rsdp.xsdtAddress ≠ 0) :
    AcpiFindsTable m hhdmOffset rsdp signature := by
  have hrevision : ¬ 2 ≤ rsdp.revision ↔ rsdp.revision < 2 := BitVec.not_le
  by_cases hnew : 2 ≤ rsdp.revision
  · have hxsdt : rsdp.xsdtAddress ≠ 0 := h.resolve_left fun hold => (hrevision.mpr hold) hnew
    by_cases hnull : hhdmOffset + rsdp.xsdtAddress = 0
    · simp only [AcpiFindsTable, Rsdp.root, acpiFindTable, acpiGetSdtRoot, hnew, hxsdt, hnull, ne_eq,
        not_false_eq_true, and_self, if_true]
    · simp only [AcpiFindsTable, Rsdp.root, acpiFindTable, acpiGetSdtRoot, acpiEntrySize, hnew, hxsdt,
        hnull, ne_eq, not_false_eq_true, and_self, if_true, if_false]
      exact findsListed_loop rfl (Or.inl rfl)
  · by_cases hnull : hhdmOffset + rsdp.rsdtAddress.setWidth 64 = 0
    · simp only [AcpiFindsTable, Rsdp.root, acpiFindTable, acpiGetSdtRoot, hnew, hnull, false_and,
        if_true, if_false]
    · simp only [AcpiFindsTable, Rsdp.root, acpiFindTable, acpiGetSdtRoot, acpiEntrySize, hnew,
        hnull, false_and, if_false]
      exact findsListed_loop rfl (Or.inr rfl)

/-! ### An RSDT behind a new RSDP -/

/-- A little-endian 32-bit store. -/
def Memory.write32 (m : Memory) (a : Word) (v : BitVec 32) : Memory := fun x =>
  if (x - a).toNat < 4 then (v >>> (8 * (x - a).toNat)).setWidth 8 else m x

theorem write32_byte (m : Memory) (a : Word) (v : BitVec 32) {i : ℕ} (hi : i < 4) :
    m.write32 a v (a + BitVec.ofNat 64 i) = (v >>> (8 * i)).setWidth 8 := by
  have hsub : (a + BitVec.ofNat 64 i - a).toNat = i := by
    rw [BitVec.add_comm, BitVec.add_sub_cancel, BitVec.toNat_ofNat]
    omega
  rw [Memory.write32, hsub, if_pos hi]

theorem read32_write32 (m : Memory) (a : Word) (v : BitVec 32) :
    (m.write32 a v).read32 a = v := by
  have h0 : m.write32 a v a = (v >>> 0).setWidth 8 := by
    have hzero : a + BitVec.ofNat 64 0 = a := BitVec.add_zero a
    simpa only [hzero] using write32_byte m a v (i := 0) (by decide)
  have h1 : m.write32 a v (a + 1) = (v >>> 8).setWidth 8 := write32_byte m a v (i := 1) (by decide)
  have h2 : m.write32 a v (a + 2) = (v >>> 16).setWidth 8 := write32_byte m a v (i := 2) (by decide)
  have h3 : m.write32 a v (a + 3) = (v >>> 24).setWidth 8 := write32_byte m a v (i := 3) (by decide)
  rw [Memory.read32, h0, h1, h2, h3]
  apply BitVec.eq_of_getElem_eq
  intro i hi
  simp only [← BitVec.getLsbD_eq_getElem, BitVec.getLsbD_append, BitVec.getLsbD_setWidth,
    BitVec.getLsbD_ushiftRight]
  grind

/-- A load from elsewhere does not see the store. -/
theorem read32_write32_of_far (m : Memory) {a b : Word} (v : BitVec 32)
    (hlow : 4 ≤ (b - a).toNat) (hhigh : (b - a).toNat ≤ 2 ^ 64 - 4) :
    (m.write32 a v).read32 b = m.read32 b := by
  have hbyte (i : ℕ) (hi : i < 4) :
      m.write32 a v (b + BitVec.ofNat 64 i) = m (b + BitVec.ofNat 64 i) := by
    have hsub : (b + BitVec.ofNat 64 i - a).toNat = (b - a).toNat + i := by
      rw [show b + BitVec.ofNat 64 i - a = (b - a) + BitVec.ofNat 64 i by ring,
        BitVec.toNat_add, BitVec.toNat_ofNat]
      omega
    rw [Memory.write32, hsub, if_neg (by omega)]
  have h0 : m.write32 a v b = m b := by
    have hzero : b + BitVec.ofNat 64 0 = b := BitVec.add_zero b
    simpa only [hzero] using hbyte 0 (by decide)
  have h1 : m.write32 a v (b + 1) = m (b + 1) := hbyte 1 (by decide)
  have h2 : m.write32 a v (b + 2) = m (b + 2) := hbyte 2 (by decide)
  have h3 : m.write32 a v (b + 3) = m (b + 3) := hbyte 3 (by decide)
  rw [Memory.read32, Memory.read32, h0, h1, h2, h3]

/-- An RSDT with one entry, for a table that is a signature alone. -/
def lostTable (root table : Word) (entry signature : BitVec 32) : Memory :=
  ((Memory.write32 (fun _ => 0) table signature).write32 (root + 4) 40).write32 (root + 36) entry

section Lost

variable (root table : Word) (entry signature : BitVec 32)

theorem lostTable_length : (lostTable root table entry signature).read32 (root + 4) = 40 := by
  have hfar : root + 4 - (root + 36) = -32 := by ring
  rw [lostTable, read32_write32_of_far _ _ (by rw [hfar]; decide) (by rw [hfar]; decide),
    read32_write32]

theorem lostTable_entry :
    acpiEntry (lostTable root table entry signature) (root + 36) 4 0 = entry.setWidth 64 := by
  have hzero : root + 36 + BitVec.ofNat 64 (4 * 0) = root + 36 := BitVec.add_zero _
  rw [acpiEntry, if_neg (by decide), hzero, lostTable, read32_write32]

theorem lostTable_listed :
    AcpiRoot.listed ⟨root, 4⟩ (lostTable root table entry signature) = [entry.setWidth 64] := by
  have hone : List.range (((40 : BitVec 32).toNat - 36) / 4) = [0] := by decide
  rw [AcpiRoot.listed, AcpiRoot.length, lostTable_length, hone, List.map_singleton,
    lostTable_entry]

variable {root table entry}
variable (hlow : 40 ≤ (table - root).toNat) (hhigh : (table - root).toNat ≤ 2 ^ 64 - 8)
include hlow hhigh

theorem lostTable_far (entry : BitVec 32) {off : Word} (hoff : off = 0 ∨ off = 4) :
    (lostTable root table entry signature).read32 (table + off) =
      (Memory.write32 (fun _ => 0) table signature).read32 (table + off) := by
  have hdiff (field : Word) (hfield : field = 4 ∨ field = 36) :
      (table + off - (root + field)).toNat = (table - root).toNat + off.toNat - field.toNat := by
    rw [show table + off - (root + field) = (table - root) + off - field by ring,
      BitVec.toNat_sub, BitVec.toNat_add]
    rcases hoff with rfl | rfl <;> rcases hfield with rfl | rfl <;>
      simp only [BitVec.reduceToNat] <;> omega
  have h4 := hdiff 4 (Or.inl rfl)
  have h36 := hdiff 36 (Or.inr rfl)
  rw [lostTable, read32_write32_of_far, read32_write32_of_far]
  all_goals
    rcases hoff with rfl | rfl <;> simp only [BitVec.reduceToNat] at h4 h36 <;> omega

/-- The table that the RSDT lists matches. -/
theorem lostTable_matches (htable : table = hhdmOffset + entry.setWidth 64) (hentry : entry ≠ 0) :
    acpiMatches (lostTable root table entry signature) hhdmOffset signature
      (entry.setWidth 64) = true := by
  have hsignature : (lostTable root table entry signature).read32 table = signature := by
    have hzero : table + 0 = table := BitVec.add_zero table
    have h := lostTable_far signature hlow hhigh entry (Or.inl rfl)
    rw [hzero] at h
    rw [h, read32_write32]
  have hlength : (lostTable root table entry signature).read32 (table + 4) = 0 := by
    have hfar : table + 4 - table = 4 := by ring
    rw [lostTable_far signature hlow hhigh entry (Or.inr rfl),
      read32_write32_of_far _ _ (by rw [hfar]; decide) (by rw [hfar]; decide), Memory.read32]
    decide
  have hlisted : entry.setWidth 64 ≠ 0 := by
    intro hzero
    apply hentry
    have h := congrArg (BitVec.setWidth 32) hzero
    simpa using h
  rw [acpiMatches, ← htable, hsignature, hlength, decide_eq_true hlisted, beq_self_eq_true]
  rfl

end Lost

/-- A new RSDP without an XSDT: the only entry of the RSDT is half an entry of 8 bytes, and the
table that it lists is lost. -/
theorem acpiFindTable_lost (hhdmOffset : Word) (rsdp : Rsdp) (entry signature : BitVec 32)
    (hnew : 2 ≤ rsdp.revision) (hxsdt : rsdp.xsdtAddress = 0)
    (hroot : hhdmOffset + rsdp.rsdtAddress.setWidth 64 ≠ 0)
    (hentry : entry ≠ 0)
    (hlow : 40 ≤ (entry.setWidth 64 - rsdp.rsdtAddress.setWidth 64 : Word).toNat)
    (hhigh : (entry.setWidth 64 - rsdp.rsdtAddress.setWidth 64 : Word).toNat ≤ 2 ^ 64 - 8) :
    ¬ AcpiFindsTable
      (lostTable (hhdmOffset + rsdp.rsdtAddress.setWidth 64) (hhdmOffset + entry.setWidth 64)
        entry signature) hhdmOffset rsdp signature := by
  have hdiff : hhdmOffset + entry.setWidth 64 - (hhdmOffset + rsdp.rsdtAddress.setWidth 64) =
      entry.setWidth 64 - rsdp.rsdtAddress.setWidth 64 := by ring
  rw [← hdiff] at hlow hhigh
  have hmatches := lostTable_matches signature hlow hhigh rfl hentry
  have hlength := lostTable_length (hhdmOffset + rsdp.rsdtAddress.setWidth 64)
    (hhdmOffset + entry.setWidth 64) entry signature
  have hcount : (acpiCount 40 8).toNat = 0 := by decide
  intro hfinds
  simp only [AcpiFindsTable, Rsdp.root, hxsdt, hroot, ne_eq, not_true_eq_false, and_false,
    if_false] at hfinds
  have hfound := (hfinds (by rw [AcpiRoot.length, hlength]; decide)).found
  rw [lostTable_listed, List.find?_cons, hmatches] at hfound
  simp only [acpiFindTable, acpiGetSdtRoot, acpiEntrySize, hxsdt, hroot, hnew, hlength, hcount,
    acpiFindLoop, ne_eq, not_true_eq_false, and_false, if_false, if_true] at hfound
  cases hfound

/-- A place for the table away from the RSDT. -/
theorem exists_lost_entry (rsdt : BitVec 32) :
    ∃ entry : BitVec 32, entry ≠ 0 ∧
      40 ≤ (entry.setWidth 64 - rsdt.setWidth 64 : Word).toNat ∧
      (entry.setWidth 64 - rsdt.setWidth 64 : Word).toNat ≤ 2 ^ 64 - 8 := by
  have hrsdt := rsdt.isLt
  have hsub (entry : BitVec 32) : (entry.setWidth 64 - rsdt.setWidth 64 : Word).toNat =
      (2 ^ 64 - rsdt.toNat + entry.toNat) % 2 ^ 64 := by
    have hentry := entry.isLt
    rw [BitVec.toNat_sub, BitVec.toNat_setWidth, BitVec.toNat_setWidth,
      Nat.mod_eq_of_lt (by omega : rsdt.toNat < 2 ^ 64),
      Nat.mod_eq_of_lt (by omega : entry.toNat < 2 ^ 64)]
  by_cases hlow : rsdt.toNat < 2 ^ 31
  · refine ⟨0xffffffff, by decide, ?_⟩
    rw [hsub, show (0xffffffff : BitVec 32).toNat = 0xffffffff from rfl]
    omega
  · refine ⟨1, by decide, ?_⟩
    rw [hsub, show (1 : BitVec 32).toNat = 1 from rfl]
    omega

/-- An RSDP is searched right, whatever its root contains, unless it is new and has no XSDT. -/
theorem acpi_find_table_iff (signature : BitVec 32) :
    (∀ m, AcpiFindsTable m hhdmOffset rsdp signature) ↔
      rsdp.revision < 2 ∨ rsdp.xsdtAddress ≠ 0 ∨
        hhdmOffset + rsdp.rsdtAddress.setWidth 64 = 0 := by
  constructor
  · intro hfinds
    by_contra hnone
    simp only [not_or, BitVec.not_lt, not_not] at hnone
    obtain ⟨hnew, hxsdt, hroot⟩ := hnone
    obtain ⟨entry, hentry, hlow, hhigh⟩ := exists_lost_entry rsdp.rsdtAddress
    exact acpiFindTable_lost _ _ entry signature hnew hxsdt hroot hentry hlow hhigh (hfinds _)
  · rintro (hold | hxsdt | hnull) m
    · exact acpiFindsTable_of_root (Or.inl hold)
    · exact acpiFindsTable_of_root (Or.inr hxsdt)
    · by_cases hxsdt : rsdp.xsdtAddress = 0
      · simp only [AcpiFindsTable, Rsdp.root, acpiFindTable, acpiGetSdtRoot, hxsdt, hnull, ne_eq,
          not_true_eq_false, and_false, if_true, if_false]
      · exact acpiFindsTable_of_root (Or.inr hxsdt)

/-- Firmware of revision 2 that has an RSDT alone: the MADT that it lists is not found. -/
theorem acpi_find_table_loses :
    ¬ AcpiFindsTable (lostTable 0xffff800000001000 0xffff800000002000 0x2000 0x43495041)
      0xffff800000000000 ⟨2, 0x1000, 0⟩ 0x43495041 := by
  have hroot : (0xffff800000000000 + (0x1000 : BitVec 32).setWidth 64 : Word) =
      0xffff800000001000 := by decide
  have htable : (0xffff800000000000 + (0x2000 : BitVec 32).setWidth 64 : Word) =
      0xffff800000002000 := by decide
  have hlost := acpiFindTable_lost 0xffff800000000000 ⟨2, 0x1000, 0⟩ 0x2000 0x43495041 (by decide)
    rfl (by decide) (by decide) (by decide) (by decide)
  rw [hroot, htable] at hlost
  exact hlost

end Utopia
