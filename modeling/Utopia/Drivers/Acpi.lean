/-
The loop of `drivers/acpi/acpi.c` over the entries of the MADT, with the places it reads.
-/
import Mathlib.Data.BitVec
import Utopia.Lib.Memory

namespace Utopia

/-- The memory from the start of the table on, also behind its end. -/
structure Madt where
  byte : ℕ → Byte

namespace Madt

variable (t : Madt)

/-- `header.length`. -/
def length : ℕ :=
  (t.byte 4).toNat + 256 * ((t.byte 5).toNat + 256 * ((t.byte 6).toNat + 256 * (t.byte 7).toNat))

/-- The offset of `entries`. -/
def entriesStart : ℕ := 44

/-- `e->length`. -/
def entryLength (ptr : ℕ) : ℕ := (t.byte (ptr + 1)).toNat

/-- `cpu->apic_id`. -/
def apicId (ptr : ℕ) : Byte := t.byte (ptr + 3)

/-- `cpu->flags & 1`; the other bytes of `flags` are read with it. -/
def flagEnabled (ptr : ℕ) : Bool := t.byte (ptr + 4) &&& 1 ≠ 0

/-- An enabled processor. -/
def IsCpu (ptr : ℕ) : Prop := t.byte ptr = 0 ∧ t.flagEnabled ptr = true

instance (ptr : ℕ) : Decidable (t.IsCpu ptr) := inferInstanceAs (Decidable (_ ∧ _))

/-- `acpi_checksum`. -/
def checksum : Byte := ((List.range t.length).map t.byte).sum

end Madt

/-- The variables of the loop, and the offsets read so far. -/
structure CpuScan where
  ptr : ℕ
  apicIds : List Byte
  reads : List ℕ
deriving DecidableEq, Repr

section Loop

variable (t : Madt) (maxCpus : ℤ)

/-- The entry is an enabled processor, and there is room for it. -/
def StoresCpu (s : CpuScan) : Prop := t.IsCpu s.ptr ∧ (s.apicIds.length : ℤ) < maxCpus

instance (s : CpuScan) : Decidable (StoresCpu t maxCpus s) := inferInstanceAs (Decidable (_ ∧ _))

/-- A round of the loop of `acpi_get_cpus`. -/
def acpiRound (s : CpuScan) : CpuScan where
  ptr := s.ptr + t.entryLength s.ptr
  apicIds := if StoresCpu t maxCpus s then s.apicIds ++ [t.apicId s.ptr] else s.apicIds
  reads := s.reads ++ [s.ptr] ++
    (if t.byte s.ptr = 0 then [s.ptr + 4, s.ptr + 5, s.ptr + 6, s.ptr + 7] else []) ++
    (if StoresCpu t maxCpus s then [s.ptr + 3] else []) ++ [s.ptr + 1]

/-- The loop, `none` when the fuel is spent before it ends. -/
def acpiLoop : (fuel : ℕ) → CpuScan → Option CpuScan
  | 0, _ => none
  | fuel + 1, s => if s.ptr < t.length then acpiLoop fuel (acpiRound t maxCpus s) else some s

/-- `acpi_get_cpus`, which returns how many ids it has stored. -/
def acpiGetCpus (fuel : ℕ) : Option CpuScan :=
  acpiLoop t maxCpus fuel ⟨Madt.entriesStart, [], [4, 5, 6, 7]⟩

end Loop

namespace Madt

/-- The entries of the table from an offset on. -/
inductive Entries (t : Madt) : ℕ → List ℕ → Prop
  | done {off} : t.length ≤ off → Entries t off []
  | entry {off rest} : off < t.length → Entries t (off + t.entryLength off) rest →
      Entries t off (off :: rest)

/-- The lengths of the entries lead from one offset to another. -/
inductive LeadsTo (t : Madt) : ℕ → ℕ → Prop
  | here {off} : LeadsTo t off off
  | next {off off'} : off < t.length → LeadsTo t (off + t.entryLength off) off' →
      LeadsTo t off off'

/-- The ids of the enabled processors. -/
def cpuIds (t : Madt) (offs : List ℕ) : List Byte := (offs.filter (t.IsCpu ·)).map t.apicId

/-- `acpi_get_cpus` ends with the ids of the first enabled processors and has not left the
table. -/
def EnumeratesCpus (t : Madt) (maxCpus : ℤ) : Prop :=
  ∃ fuel s offs, acpiGetCpus t maxCpus fuel = some s ∧ t.Entries entriesStart offs ∧
    s.apicIds = (t.cpuIds offs).take maxCpus.toNat ∧ (s.apicIds.length : ℤ) ≤ maxCpus ∧
    ∀ off ∈ s.reads, off < t.length

/-- The entry moves the loop on, and what is read of it is in the table. -/
structure Sound (t : Madt) (off : ℕ) : Prop where
  progress : t.entryLength off ≠ 0
  header : off + 2 ≤ t.length
  cpu : t.byte off = 0 → off + 8 ≤ t.length

end Madt

/-! ### The rounds -/

variable {t : Madt} {maxCpus : ℤ} {s s' : CpuScan} {fuel off : ℕ}

theorem acpiRound_ptr : (acpiRound t maxCpus s).ptr = s.ptr + t.entryLength s.ptr := rfl

theorem acpiRound_reads {off : ℕ} : off ∈ (acpiRound t maxCpus s).reads ↔
    off ∈ s.reads ∨ off = s.ptr ∨ off = s.ptr + 1 ∨
      (t.byte s.ptr = 0 ∧ s.ptr + 4 ≤ off ∧ off < s.ptr + 8) ∨
      (StoresCpu t maxCpus s ∧ off = s.ptr + 3) := by
  have hflags : (off = s.ptr + 4 ∨ off = s.ptr + 5 ∨ off = s.ptr + 6 ∨ off = s.ptr + 7) ↔
      s.ptr + 4 ≤ off ∧ off < s.ptr + 8 := by
    omega
  simp only [acpiRound, List.mem_append, List.mem_ite_nil_right, List.mem_cons, List.not_mem_nil,
    or_false, hflags]
  tauto

/-- A sound entry is read inside the table. -/
theorem Madt.Sound.reads (h : t.Sound s.ptr) (hoff : off ∈ (acpiRound t maxCpus s).reads) :
    off ∈ s.reads ∨ off < t.length := by
  have hheader := h.header
  rcases acpiRound_reads.mp hoff with hold | rfl | rfl | ⟨hcpu, -, hlt⟩ | ⟨hstores, rfl⟩
  · exact Or.inl hold
  · omega
  · omega
  · have hcpu' := h.cpu hcpu
    omega
  · have hcpu' := h.cpu hstores.1.1
    omega

theorem acpiLoop_reads (h : acpiLoop t maxCpus fuel s = some s') (hoff : off ∈ s.reads) :
    off ∈ s'.reads := by
  induction fuel generalizing s with
  | zero => cases h
  | succ fuel ih =>
      rw [acpiLoop] at h
      split_ifs at h
      · exact ih h (acpiRound_reads.mpr (Or.inl hoff))
      · obtain rfl := Option.some.inj h
        exact hoff

/-- At an entry of length 0 the loop stays for ever. -/
theorem acpiLoop_stuck (hptr : s.ptr < t.length) (hzero : t.entryLength s.ptr = 0) :
    acpiLoop t maxCpus fuel s = none := by
  induction fuel generalizing s with
  | zero => rfl
  | succ fuel ih =>
      have hsame : (acpiRound t maxCpus s).ptr = s.ptr := by
        rw [acpiRound_ptr, hzero, Nat.add_zero]
      rw [acpiLoop, if_pos hptr]
      exact ih (by rw [hsame]; exact hptr) (by rw [hsame]; exact hzero)

/-- A loop that ends without leaving the table has met sound entries only. -/
theorem sound_of_acpiLoop (h : acpiLoop t maxCpus fuel s = some s')
    (hreads : ∀ off ∈ s'.reads, off < t.length) (hleads : t.LeadsTo s.ptr off)
    (hoff : off < t.length) : t.Sound off := by
  induction fuel generalizing s with
  | zero => cases h
  | succ fuel ih =>
      cases hleads with
      | here =>
          have hrest := h
          rw [acpiLoop, if_pos hoff] at hrest
          have hread : ∀ off ∈ (acpiRound t maxCpus s).reads, off < t.length :=
            fun off hoff => hreads off (acpiLoop_reads hrest hoff)
          refine ⟨fun hzero => ?_, ?_, fun hcpu => ?_⟩
          · rw [acpiLoop_stuck hoff hzero] at h
            cases h
          · exact hread (s.ptr + 1) (acpiRound_reads.mpr (by omega))
          · exact hread (s.ptr + 7) (acpiRound_reads.mpr (by simp [hcpu]))
      | next hptr hleads =>
          rw [acpiLoop, if_pos hptr] at h
          exact ih h hleads

/-- The ids that one entry adds. -/
theorem take_cpuIds_cons (hroom : (s.apicIds.length : ℤ) ≤ maxCpus) (offs : List ℕ) :
    s.apicIds ++ (t.cpuIds (s.ptr :: offs)).take (maxCpus.toNat - s.apicIds.length) =
      (acpiRound t maxCpus s).apicIds ++
        (t.cpuIds offs).take (maxCpus.toNat - (acpiRound t maxCpus s).apicIds.length) := by
  rw [Madt.cpuIds, Madt.cpuIds, List.filter_cons]
  by_cases hcpu : t.IsCpu s.ptr
  · rw [if_pos (by simpa using hcpu), List.map_cons]
    by_cases hlt : (s.apicIds.length : ℤ) < maxCpus
    · have hstores : StoresCpu t maxCpus s := ⟨hcpu, hlt⟩
      obtain ⟨n, hn⟩ : ∃ n, maxCpus.toNat - s.apicIds.length = n + 1 :=
        ⟨maxCpus.toNat - s.apicIds.length - 1, by omega⟩
      have hn' : maxCpus.toNat - (s.apicIds ++ [t.apicId s.ptr]).length = n := by
        rw [List.length_append, List.length_singleton]
        omega
      simp only [acpiRound, if_pos hstores, hn, hn', List.take_succ_cons, List.append_assoc,
        List.singleton_append]
    · have hstores : ¬ StoresCpu t maxCpus s := fun h => hlt h.2
      have hzero : maxCpus.toNat - s.apicIds.length = 0 := by
        omega
      simp only [acpiRound, if_neg hstores, hzero, List.take_zero]
  · have hstores : ¬ StoresCpu t maxCpus s := fun h => hcpu h.1
    rw [if_neg (by simpa using hcpu)]
    simp only [acpiRound, if_neg hstores]

theorem acpiRound_room (hroom : (s.apicIds.length : ℤ) ≤ maxCpus) :
    ((acpiRound t maxCpus s).apicIds.length : ℤ) ≤ maxCpus := by
  by_cases hstores : StoresCpu t maxCpus s
  · have hlt := hstores.2
    simp only [acpiRound, if_pos hstores, List.length_append, List.length_singleton]
    omega
  · simp only [acpiRound, if_neg hstores]
    exact hroom

/-- Over sound entries the loop comes to the end of the table and stores the ids in their
order. -/
theorem acpiLoop_of_sound (hroom : (s.apicIds.length : ℤ) ≤ maxCpus)
    (hsound : ∀ off, t.LeadsTo s.ptr off → off < t.length → t.Sound off) :
    ∃ fuel s' offs, acpiLoop t maxCpus fuel s = some s' ∧ t.Entries s.ptr offs ∧
      s'.apicIds = s.apicIds ++ (t.cpuIds offs).take (maxCpus.toNat - s.apicIds.length) ∧
      ∀ off ∈ s'.reads, off ∈ s.reads ∨ off < t.length := by
  -- Every round leaves less of the table.
  induction hleft : t.length - s.ptr using Nat.strong_induction_on generalizing s with
  | _ left ih =>
      by_cases hptr : s.ptr < t.length
      · have hentry := hsound s.ptr .here hptr
        have hprogress := hentry.progress
        have hnext : t.length - (acpiRound t maxCpus s).ptr < left := by
          rw [acpiRound_ptr]
          omega
        obtain ⟨fuel, s', offs, hloop, hoffs, hids, hreads⟩ := ih _ hnext (acpiRound_room hroom)
          (fun off hleads => hsound off (.next hptr hleads)) rfl
        refine ⟨fuel + 1, s', s.ptr :: offs, ?_, .entry hptr hoffs, ?_, fun off hoff => ?_⟩
        · rw [acpiLoop, if_pos hptr]
          exact hloop
        · rw [take_cpuIds_cons hroom]
          exact hids
        · rcases hreads off hoff with hread | hlt
          · exact hentry.reads hread
          · exact Or.inr hlt
      · refine ⟨1, s, [], ?_, .done (by omega), ?_, fun off hoff => Or.inl hoff⟩
        · rw [acpiLoop, if_neg hptr]
        · simp [Madt.cpuIds]

namespace Madt

/-- The enumeration is right exactly for tables with a whole length field whose entries all move
the loop on and lie in the table as far as they are read. -/
theorem enumeratesCpus_iff : t.EnumeratesCpus maxCpus ↔ 0 ≤ maxCpus ∧ 8 ≤ t.length ∧
    ∀ off, t.LeadsTo entriesStart off → off < t.length → t.Sound off := by
  constructor
  · rintro ⟨fuel, s, offs, hloop, -, -, hroom, hreads⟩
    refine ⟨by omega, ?_, fun off => sound_of_acpiLoop hloop hreads⟩
    have hfield := hreads 7 (acpiLoop_reads hloop (by simp))
    omega
  · rintro ⟨hroom, hfield, hsound⟩
    obtain ⟨fuel, s, offs, hloop, hoffs, hids, hreads⟩ :=
      @acpiLoop_of_sound t maxCpus ⟨entriesStart, [], [4, 5, 6, 7]⟩ hroom hsound
    rw [List.nil_append, List.length_nil, Nat.sub_zero] at hids
    refine ⟨fuel, s, offs, hloop, hoffs, hids, ?_, fun off hoff => ?_⟩
    · rw [hids, List.length_take]
      omega
    · rcases hreads off hoff with hread | hlt
      · simp only [List.mem_cons, List.not_mem_nil, or_false] at hread
        omega
      · exact hlt

/-- A table of 46 bytes whose only entry has length 0; its checksum is right. -/
def zeroLengthMadt : Madt := ⟨fun off => if off = 4 then 46 else if off = 44 then 210 else 0⟩

/-- The enumeration of this table hangs. -/
theorem not_enumeratesCpus : ∃ t : Madt, t.checksum = 0 ∧ ¬ t.EnumeratesCpus 256 := by
  refine ⟨zeroLengthMadt, by decide, ?_⟩
  rintro ⟨fuel, s, -, hloop, -⟩
  have hstuck : acpiGetCpus zeroLengthMadt 256 fuel = none :=
    acpiLoop_stuck (by decide) (by decide)
  rw [hstuck] at hloop
  cases hloop

end Madt

end Utopia
