/-
When `mmap` is all or nothing.
-/
import Utopia.Exec.MmapCall
import Utopia.Mm.FreshSpace
import Utopia.Mm.PageRefine

namespace Utopia

/-- `length` rounded up to pages, without overflow. -/
def roundUp (length : Word) : Nat := (length.toNat + 4095) / 4096 * 4096

/-- Every page of the `length` bytes from `start` on is mapped for the user with the
permissions of `prot`. -/
def Provides (s : AddressSpace) (prot start length : Word) : Prop :=
  ∀ v : Nat, v % 4096 = 0 → start.toNat ≤ v → v < start.toNat + roundUp length →
    v < 2 ^ 64 ∧ ∃ x, s (vpn (BitVec.ofNat 64 v)) = some x ∧ x.flags.user = true ∧
      x.flags.write = hasBits prot 0x2 ∧ x.flags.exec = hasBits prot 0x4

theorem roundUp_eq {length : Word} (h : pageAlignUp length ≠ 0) :
    roundUp length = (pageAlignUp length).toNat := by
  have hlt := length.isLt
  have hnat := pageAlignUp_toNat length
  have hne : (pageAlignUp length).toNat ≠ 0 := fun hzero => h (BitVec.eq_of_toNat_eq hzero)
  rw [roundUp]
  omega

theorem mmapTarget_aligned (process : ProcessSpace) (addr : Word) :
    (process.mmapTarget addr).toNat % 4096 = 0 := by
  rw [ProcessSpace.mmapTarget]
  split_ifs
  · exact process.mmap_aligned
  · exact pageAlignUp_aligned addr

/-- A page-aligned value is no error code. -/
theorem not_error_of_aligned {ret : Word} (h : ret.toNat % 4096 = 0) :
    ¬ (-4095 ≤ ret.toInt ∧ ret.toInt ≤ -1) := by
  rw [BitVec.toInt_eq_toNat_cond]
  have hlt := ret.isLt
  split_ifs <;> omega

/-- Page `i` of a run that does not wrap. -/
theorem run_toNat {target : Word} {n i : Nat} (hfits : target.toNat + 4096 * n ≤ 2 ^ 64)
    (hi : i < n) : (target + BitVec.ofNat 64 i * 0x1000).toNat = target.toNat + 4096 * i := by
  have hmul : (BitVec.ofNat 64 i * 0x1000 : Word).toNat = 4096 * i := by
    rw [BitVec.toNat_mul, BitVec.toNat_ofNat]
    change i % 2 ^ 64 * 4096 % 2 ^ 64 = 4096 * i
    omega
  rw [toNat_add_of_lt, hmul]
  rw [hmul]
  omega

namespace Machine

variable {k : Machine} {m : Memory} {live mine array : Set Chunk} {roots : Set TableAddr}
  {r : TableAddr} {ps : List Word} {process : ProcessSpace}
  {addr length prot flags fd offset : Word}

/-- The pages that `mmap` mapped are what was asked for, if the range does not wrap and
the permission bits agree. -/
theorem provides_mapRun {s : AddressSpace} {target phys : Word}
    (hpages : pageAlignUp length ≠ 0) (haligned : target.toNat % 4096 = 0) :
    Provides (s.mapRun target phys (mmapFlags prot) (mmapPages length)) prot target length ↔
      target.toNat + (pageAlignUp length).toNat ≤ 2 ^ 64 ∧
        hasBits prot 0x1 = hasBits prot 0x4 := by
  have hround := roundUp_eq hpages
  have hmul := mmapPages_mul length
  have hne : (pageAlignUp length).toNat ≠ 0 := fun hzero => hpages (BitVec.eq_of_toNat_eq hzero)
  have hmod := pageAlignUp_aligned length
  constructor
  · intro h
    refine ⟨?_, ?_⟩
    · have hlast := (h (target.toNat + roundUp length - 4096) (by omega) (by omega) (by omega)).1
      omega
    · obtain ⟨-, x, hx, -, -, hexec⟩ := h target.toNat haligned le_rfl (by omega)
      rw [BitVec.ofNat_toNat, BitVec.setWidth_eq] at hx
      have hfirst : vpn target ∈ runPages target (mmapPages length) :=
        ⟨0, by omega, by simp⟩
      obtain ⟨i, -, hi⟩ := AddressSpace.mapRun_of_mem s phys (mmapFlags prot) hfirst
      rw [hi, Option.some.injEq] at hx
      rw [← hexec, ← hx]
      rfl
  · rintro ⟨hfits, hbits⟩ v hv hlow hhigh
    obtain ⟨i, rfl⟩ : ∃ i, v = target.toNat + 4096 * i := ⟨(v - target.toNat) / 4096, by omega⟩
    have hi : i < mmapPages length := by omega
    have hnat := run_toNat (show target.toNat + 4096 * mmapPages length ≤ 2 ^ 64 by omega) hi
    have hword : BitVec.ofNat 64 (target.toNat + 4096 * i) =
        target + BitVec.ofNat 64 i * 0x1000 := by
      rw [← hnat, BitVec.ofNat_toNat, BitVec.setWidth_eq]
    obtain ⟨j, -, hj⟩ := AddressSpace.mapRun_of_mem s phys (mmapFlags prot)
      (show vpn (target + BitVec.ofNat 64 i * 0x1000) ∈ runPages target (mmapPages length) from
        ⟨i, hi, rfl⟩)
    refine ⟨by omega, _, hword ▸ hj, rfl, rfl, hbits⟩

/-- The call returned pages with the permissions asked for, or an error code and changed
nothing. -/
def AllOrNothing (k : Machine) (roots : Set TableAddr) (r : TableAddr) (m : Memory)
    (live : Set Chunk) (process : ProcessSpace) (prot length : Word)
    (result : Option (Word × Memory × ProcessSpace)) : Prop :=
  ∃ ret m' process', result = some (ret, m', process') ∧
    (ret.toNat % 4096 = 0 ∧ Provides (k.spaceOf m' r.addr) prot ret length ∨
      (-4095 ≤ ret.toInt ∧ ret.toInt ≤ -1) ∧
        (∀ r' ∈ roots, k.spaceOf m' r'.addr = k.spaceOf m r'.addr) ∧
        process'.mmapCurrent = process.mmapCurrent ∧ k.alloc.Live m' live)

/-- An exit that returns no error code, or no mapping of the whole range, and still
finds what was asked for mapped by chance. -/
def MmapByChance (k : Machine) (m : Memory) (r : TableAddr) (process : ProcessSpace)
    (addr length prot flags fd offset : Word) : Prop :=
  process.mmapNode flags fd ≠ none ∧
      (k.alloc.pageAlloc m (pageAlignUp length / 0x1000)).1 = 0 ∧
      Provides (k.spaceOf m r.addr) prot 0 length ∨
    (∃ block status m', k.MmapRuns m process addr length prot flags fd offset block (status, m') ∧
      status ≠ 0 ∧ Provides (k.spaceOf m' r.addr) prot 0 length) ∨
    (∃ block m', k.MmapRuns m process addr length prot flags fd offset block (0, m') ∧
      pageAlignUp length = 0 ∧
      Provides (k.spaceOf m r.addr) prot (process.mmapTarget addr) length)

/-- Nothing is asked for; or the descriptor is bad and the cursor stays; or the block is
there, all its pages are mapped, the range neither wraps nor is empty, and the permission
that `mmap` takes for execution is the one asked for. -/
def MmapGood (k : Machine) (m : Memory) (r : TableAddr) (process : ProcessSpace)
    (addr length prot flags fd offset : Word) : Prop :=
  length = 0 ∨
    process.mmapNode flags fd = none ∧ (addr ≠ 0 ∨ pageAlignUp length = 0) ∨
    (∃ block m', k.MmapRuns m process addr length prot flags fd offset block (0, m') ∧
      pageAlignUp length ≠ 0 ∧
      (process.mmapTarget addr).toNat + (pageAlignUp length).toNat ≤ 2 ^ 64 ∧
      hasBits prot 0x1 = hasBits prot 0x4) ∨
    k.MmapByChance m r process addr length prot flags fd offset

/-- Only a mapping, or an error code that left everything alone, will do. -/
theorem allOrNothing_iff_of_aligned {ret : Word} {m' : Memory} {process' : ProcessSpace}
    (haligned : ret.toNat % 4096 = 0) :
    k.AllOrNothing roots r m live process prot length (some (ret, m', process')) ↔
      Provides (k.spaceOf m' r.addr) prot ret length := by
  constructor
  · rintro ⟨ret', m'', process'', hresult, h⟩
    obtain ⟨rfl, rfl, rfl⟩ : ret = ret' ∧ m' = m'' ∧ process' = process'' := by
      simpa using hresult
    rcases h with ⟨-, h⟩ | ⟨herror, -⟩
    · exact h
    · exact absurd herror (not_error_of_aligned haligned)
  · exact fun h => ⟨ret, m', process', rfl, Or.inl ⟨haligned, h⟩⟩

theorem provides_zero_length {s : AddressSpace} {start : Word} : Provides s prot start 0 := by
  intro v _ hlow hhigh
  have hzero : roundUp 0 = 0 := rfl
  omega

theorem allOrNothing_badDescriptor (h : k.alloc.Live m live) :
    k.AllOrNothing roots r m live process prot length (some (ebadf, m,
        process.mmapAdvance addr (pageAlignUp length) (pageAlignUp_aligned length))) ↔
      addr ≠ 0 ∨ pageAlignUp length = 0 := by
  constructor
  · rintro ⟨ret, m', process', hresult, hcase⟩
    obtain ⟨rfl, rfl, rfl⟩ : ebadf = ret ∧ m = m' ∧
        process.mmapAdvance addr (pageAlignUp length) (pageAlignUp_aligned length) = process' := by
      simpa using hresult
    rcases hcase with ⟨haligned, -⟩ | ⟨-, -, hcursor, -⟩
    · exact absurd haligned (by decide)
    · rw [ProcessSpace.mmapCurrent_mmapAdvance] at hcursor
      by_cases haddr : addr = 0
      · rw [if_pos haddr] at hcursor
        right
        simpa using hcursor
      · exact Or.inl haddr
  · intro hkeep
    refine ⟨ebadf, m, _, rfl, Or.inr ⟨by decide, fun _ _ => rfl, ?_, h⟩⟩
    rw [ProcessSpace.mmapCurrent_mmapAdvance]
    rcases hkeep with haddr | hsize
    · rw [if_neg haddr]
    · split_ifs
      · rw [hsize, BitVec.ofNat_eq_ofNat, BitVec.add_zero]
      · rfl

/-- `mmap` is all or nothing exactly when `MmapGood` holds. -/
theorem mmap_allOrNothing_iff (h : k.PageTables m live roots) (hr : r ∈ roots)
    (htable : process.pageTable = r.addr)
    (ht : k.Tenant roots r m live process.ownedPages ps array mine)
    (addr length prot flags fd offset : Word) :
    k.AllOrNothing roots r m live process prot length
        (k.syscallMmap m process addr length prot flags fd offset) ↔
      k.MmapGood m r process addr length prot flags fd offset := by
  have hends := syscallMmap_ends Set.univ addr length h hr htable ht prot flags
    fd offset fun _ _ => trivial
  generalize k.syscallMmap m process addr length prot flags fd offset = result at hends ⊢
  cases hends with
  | nothing hlength =>
      subst hlength
      rw [allOrNothing_iff_of_aligned (by decide)]
      exact ⟨fun _ => Or.inl rfl, fun _ => provides_zero_length⟩
  | badDescriptor hlength hnode =>
      rw [allOrNothing_badDescriptor h.heap]
      constructor
      · exact fun hkeep => Or.inr (Or.inl ⟨hnode, hkeep⟩)
      · rintro (hzero | ⟨-, hkeep⟩ | ⟨_, _, hruns, -⟩ | ⟨hgood, -⟩ | ⟨_, _, _, hruns, -⟩ |
          ⟨_, _, hruns, -⟩)
        · exact absurd hzero hlength
        · exact hkeep
        · exact absurd hnode hruns.node_ne_none
        · exact absurd hnode hgood
        · exact absurd hnode hruns.node_ne_none
        · exact absurd hnode hruns.node_ne_none
  | noMemory hlength hnode hnull =>
      rw [allOrNothing_iff_of_aligned (by decide)]
      constructor
      · exact fun hprovides => Or.inr (Or.inr (Or.inr (Or.inl ⟨hnode, hnull, hprovides⟩)))
      · rintro (hzero | ⟨hbad, -⟩ | ⟨_, _, hruns, -⟩ | ⟨-, -, hprovides⟩ | ⟨_, _, _, hruns, -⟩ |
          ⟨_, _, hruns, -⟩)
        · exact absurd hzero hlength
        · exact absurd hbad hnode
        · exact absurd hnull hruns.granted
        · exact hprovides
        · exact absurd hnull hruns.granted
        · exact absurd hnull hruns.granted
  | faults hlength hnode hblock hbig =>
      constructor
      · rintro ⟨ret, m', process', hresult, -⟩
        cases hresult
      · rintro (hzero | ⟨hbad, -⟩ | ⟨_, _, hruns, -⟩ | ⟨-, hnull, -⟩ | ⟨_, _, _, hruns, -⟩ |
          ⟨_, _, hruns, -⟩)
        · exact absurd hzero hlength
        · exact absurd hbad hnode
        · exact absurd hbig (Nat.not_le.mpr hruns.size_lt)
        · exact absurd hnull hblock
        · exact absurd hbig (Nat.not_le.mpr hruns.size_lt)
        · exact absurd hbig (Nat.not_le.mpr hruns.size_lt)
  | mapped hlength hruns haligned hsize hcustody hspace =>
      rw [allOrNothing_iff_of_aligned (mmapTarget_aligned process addr), hspace]
      by_cases hpages : pageAlignUp length = 0
      · have hnone : mmapPages length = 0 := by
          have hmul := mmapPages_mul length
          rw [hpages] at hmul
          exact (Nat.mul_eq_zero.mp hmul).resolve_left (by decide)
        rw [hnone, AddressSpace.mapRun]
        constructor
        · exact fun hprovides =>
            Or.inr (Or.inr (Or.inr (Or.inr (Or.inr ⟨_, _, hruns, hpages, hprovides⟩))))
        · rintro (hzero | ⟨hbad, -⟩ | ⟨_, _, -, hsome, -⟩ | ⟨-, hnull, -⟩ |
            ⟨_, _, _, hruns', hstatus, -⟩ | ⟨_, _, -, -, hprovides⟩)
          · exact absurd hzero hlength
          · exact absurd hbad hruns.node_ne_none
          · exact absurd hpages hsome
          · exact absurd hnull hruns.granted
          · exact absurd (congrArg Prod.fst (hruns'.unique hruns)) hstatus
          · exact hprovides
      · rw [provides_mapRun hpages (mmapTarget_aligned process addr)]
        constructor
        · rintro ⟨hfits, hbits⟩
          exact Or.inr (Or.inr (Or.inl ⟨_, _, hruns, hpages, hfits, hbits⟩))
        · rintro (hzero | ⟨hbad, -⟩ | ⟨_, _, -, -, hfits, hbits⟩ | ⟨-, hnull, -⟩ |
            ⟨_, _, _, hruns', hstatus, -⟩ | ⟨_, _, -, hsome, -⟩)
          · exact absurd hzero hlength
          · exact absurd hbad hruns.node_ne_none
          · exact ⟨hfits, hbits⟩
          · exact absurd hnull hruns.granted
          · exact absurd (congrArg Prod.fst (hruns'.unique hruns)) hstatus
          · exact absurd hsome hpages
  | undone hlength hstatus hruns haligned hsize hless hcustody hspace =>
      rw [allOrNothing_iff_of_aligned (by decide), (hcustody.giveBack hr rfl).2]
      constructor
      · exact fun hprovides =>
          Or.inr (Or.inr (Or.inr (Or.inr (Or.inl ⟨_, _, _, hruns, hstatus, hprovides⟩))))
      · rintro (hzero | ⟨hbad, -⟩ | ⟨_, _, hruns', -⟩ | ⟨-, hnull, -⟩ |
          ⟨_, _, _, hruns', -, hprovides⟩ | ⟨_, _, hruns', -⟩)
        · exact absurd hzero hlength
        · exact absurd hbad hruns.node_ne_none
        · exact absurd (congrArg Prod.fst (hruns.unique hruns')) hstatus
        · exact absurd hnull hruns.granted
        · obtain rfl := congrArg Prod.snd (hruns.unique hruns')
          exact hprovides
        · exact absurd (congrArg Prod.fst (hruns.unique hruns')) hstatus

end Machine

/-- One anonymous page of the sample machine. -/
theorem mmap_allOrNothing_iff_sample : ∃ live,
    (sampleMachine .x86_64).AllOrNothing {sampleTable, sampleRoot} sampleTable sampleSpace.2 live
        sampleProcess 6 4096 ((sampleMachine .x86_64).syscallMmap sampleSpace.2 sampleProcess 0
          4096 6 0x22 (-1) 0) ↔
      (sampleMachine .x86_64).MmapGood sampleSpace.2 sampleTable sampleProcess 0 4096 6 0x22
        (-1) 0 := by
  obtain ⟨c, htables, htenant⟩ := sampleTenant
  exact ⟨_, Machine.mmap_allOrNothing_iff htables (Set.mem_insert _ _) rfl htenant 0 4096 6 0x22
    (-1) 0⟩

/-- Out of memory, `mmap` returns 0, which is no error code, and maps nothing there. -/
theorem mmap_noMemory_returns_zero : ∃ live,
    (sampleMachine .x86_64).PageTables sampleSpace.2 live {sampleTable, sampleRoot} ∧
      ¬ (sampleMachine .x86_64).AllOrNothing {sampleTable, sampleRoot} sampleTable sampleSpace.2
        live sampleProcess 6 0x100000 ((sampleMachine .x86_64).syscallMmap sampleSpace.2
          sampleProcess 0 0x100000 6 0x22 (-1) 0) := by
  obtain ⟨c, htables, -⟩ := sampleTenant
  have hresult : ((sampleMachine .x86_64).syscallMmap sampleSpace.2 sampleProcess 0 0x100000 6
      0x22 (-1) 0).map (fun x => (x.1, (sampleMachine .x86_64).spaceOf x.2.1 sampleTable.addr 0)) =
      some (0, none) := by decide
  refine ⟨_, htables, ?_⟩
  obtain ⟨⟨ret, m', process'⟩, hsome, hpair⟩ := Option.map_eq_some_iff.mp hresult
  obtain ⟨rfl, hnone⟩ := Prod.mk.inj hpair
  rw [hsome, Machine.allOrNothing_iff_of_aligned (by decide)]
  intro hprovides
  obtain ⟨-, x, hx, -⟩ := hprovides 0 rfl (Nat.zero_le _) (by decide)
  exact absurd (hnone.symm.trans hx) (by simp)

end Utopia
