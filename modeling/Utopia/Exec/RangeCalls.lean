/-
What a successful `mprotect` or `munmap` says about the range it was given, with the
range taken in true integer arithmetic.
-/
import Utopia.Exec.MmapAtomic

namespace Utopia

/-- The pages of the addresses that the processor accepts, by their number: bits 47 to 63
of an address agree. -/
def CanonicalPage (p : Nat) : Prop := p < 2 ^ 35 ∨ 2 ^ 52 - 2 ^ 35 ≤ p ∧ p < 2 ^ 52

instance (p : Nat) : Decidable (CanonicalPage p) := inferInstanceAs (Decidable (_ ∨ _ ∧ _))

/-- The mapping of page `p`; there is none at the addresses that the processor refuses. -/
def AddressSpace.pageAt (s : AddressSpace) (p : Nat) : Option Mapping :=
  if CanonicalPage p then s (BitVec.ofNat 36 p) else none

/-- Page `p` holds an address of `[addr, addr + length)`. -/
def InRange (addr length : Word) (p : Nat) : Prop :=
  addr.toNat < 4096 * (p + 1) ∧ 4096 * p < addr.toNat + length.toNat

/-- Every page of the range has the permissions, and the others are as they were. -/
def ProtectsRange (s s' : AddressSpace) (addr length : Word) (flags : VmFlags) : Prop :=
  (∀ p, InRange addr length p → ∃ x, s'.pageAt p = some x ∧ x.flags = flags) ∧
    ∀ p, ¬ InRange addr length p → s'.pageAt p = s.pageAt p

/-- No page of the range is mapped, and the others are as they were. -/
def UnmapsRange (s s' : AddressSpace) (addr length : Word) : Prop :=
  (∀ p, InRange addr length p → s'.pageAt p = none) ∧
    ∀ p, ¬ InRange addr length p → s'.pageAt p = s.pageAt p

/-- The end of the range, rounded up to pages, is an address. -/
def EndsInside (addr length : Word) : Prop := addr.toNat + roundUp length < 2 ^ 64

/-- The range ends inside the addresses and all its pages are canonical; or it reaches their
end, and has the permissions already. -/
def ProtectFits (s : AddressSpace) (addr length : Word) (flags : VmFlags) : Prop :=
  EndsInside addr length ∧ (∀ p, InRange addr length p → CanonicalPage p) ∨
    ¬ EndsInside addr length ∧
      ∀ p, InRange addr length p → ∃ x, s.pageAt p = some x ∧ x.flags = flags

/-- The range ends inside the addresses, and no page outside it that shares the low 48 bits
with one of its pages is mapped; or it reaches their end, and nothing in it is mapped. -/
def UnmapFits (s : AddressSpace) (addr length : Word) : Prop :=
  EndsInside addr length ∧ (∀ p q, InRange addr length p → ¬ InRange addr length q →
      q % 2 ^ 36 = p % 2 ^ 36 → s.pageAt q = none) ∨
    ¬ EndsInside addr length ∧ ∀ p, InRange addr length p → s.pageAt p = none

/-! ### The pages of the loop -/

section Range

variable {addr length : Word}

theorem pageAlignUp_roundUp (length : Word) :
    (pageAlignUp length).toNat = roundUp length % 2 ^ 64 := by
  have hlt := length.isLt
  rw [pageAlignUp_toNat, roundUp]
  omega

theorem toNat_mod_of_and {addr : Word} (haligned : addr &&& 0xFFF = 0) : addr.toNat % 4096 = 0 := by
  have hnat := congrArg BitVec.toNat haligned
  have hmask : levelSpan 0 - 1 = 0xFFF := by decide
  rw [← hmask, toNat_and_span addr (by omega)] at hnat
  exact hnat

/-- Past the end of the addresses the loop has no round. -/
theorem pagesBetween_of_wraps (h : ¬ EndsInside addr length) :
    pagesBetween addr (addr + pageAlignUp length) = [] := by
  have hlt := addr.isLt
  have hlength := length.isLt
  have hsize := pageAlignUp_roundUp length
  have hround : roundUp length ≤ 2 ^ 64 := by
    rw [roundUp]
    omega
  have hsum : (addr + pageAlignUp length).toNat ≤ addr.toNat := by
    rw [BitVec.toNat_add]
    rw [EndsInside] at h
    omega
  rw [pagesBetween, Nat.sub_eq_zero_of_le hsum]
  rfl

theorem pagesOf_of_wraps (h : ¬ EndsInside addr length) :
    pagesOf addr (addr + pageAlignUp length) = ∅ := by
  rw [pagesOf, pagesBetween_of_wraps h]
  simp

/-- Otherwise it visits the pages of the range. -/
theorem mem_pagesOf_iff (haligned : addr.toNat % 4096 = 0) (h : EndsInside addr length)
    {page : Vpn} : page ∈ pagesOf addr (addr + pageAlignUp length) ↔
      ∃ p, InRange addr length p ∧ BitVec.ofNat 36 p = page := by
  rw [EndsInside] at h
  have hsize := pageAlignUp_roundUp length
  have hround : roundUp length % 4096 = 0 := Nat.mul_mod_left _ _
  have hlength : length.toNat ≤ roundUp length ∧ roundUp length < length.toNat + 4096 := by
    rw [roundUp]
    omega
  have hstop : (addr + pageAlignUp length).toNat = addr.toNat + roundUp length := by
    rw [toNat_add_of_lt] <;> omega
  constructor
  · rintro ⟨va, hva, rfl⟩
    obtain ⟨i, hi, hnat⟩ := mem_pagesBetween_toNat hva
    refine ⟨va.toNat / 4096, ⟨by omega, by omega⟩, BitVec.eq_of_toNat_eq ?_⟩
    rw [vpn_toNat, BitVec.toNat_ofNat]
  · rintro ⟨p, ⟨hlow, hhigh⟩, rfl⟩
    have hi : p - addr.toNat / 4096 < ((addr + pageAlignUp length).toNat - addr.toNat) / 4096 := by
      omega
    refine ⟨_, List.mem_map.mpr ⟨_, List.mem_range.mpr hi, rfl⟩, BitVec.eq_of_toNat_eq ?_⟩
    have hmul : (4096 * BitVec.ofNat 64 (p - addr.toNat / 4096) : Word).toNat =
        4096 * (p - addr.toNat / 4096) := by
      rw [BitVec.toNat_mul, BitVec.toNat_ofNat]
      change 4096 * (_ % 2 ^ 64) % 2 ^ 64 = _
      omega
    rw [vpn_toNat, toNat_add_of_lt (by omega), hmul, BitVec.toNat_ofNat]
    omega

end Range

namespace AddressSpace

variable {s s' : AddressSpace} {p : Nat}

theorem pageAt_of_canonical (h : CanonicalPage p) : s.pageAt p = s (BitVec.ofNat 36 p) := if_pos h

theorem pageAt_of_not_canonical (h : ¬ CanonicalPage p) : s.pageAt p = none := if_neg h

theorem canonical_of_pageAt {x : Mapping} (h : s.pageAt p = some x) : CanonicalPage p := by
  by_contra hp
  rw [pageAt_of_not_canonical hp] at h
  cases h

end AddressSpace

namespace Machine

variable {k : Machine} {m m' : Memory} {live : Set Chunk} {roots : Set TableAddr} {r : TableAddr}

/-- A walker that succeeded: the page of `va` has what `new` makes of its mapping, which was
good for it, and nothing else changed. -/
def Sets (k : Machine) (roots : Set TableAddr) (r : TableAddr) (new : Option Mapping → Option Mapping)
    (good : Option Mapping → Prop) (va : Word) (m m' : Memory) : Prop :=
  good (k.spaceOf m r.addr (vpn va)) ∧
    k.spaceOf m' r.addr = Function.update (k.spaceOf m r.addr) (vpn va)
      (new (k.spaceOf m r.addr (vpn va))) ∧
    k.OthersKeep roots r va m m'

/-- The user pages of the other address spaces are as they were. -/
def OthersUserKeep (k : Machine) (roots : Set TableAddr) (r : TableAddr) (m m' : Memory) : Prop :=
  ∀ r' ∈ roots, r' ≠ r → ∀ page : Vpn, page.User →
    k.spaceOf m' r'.addr page = k.spaceOf m r'.addr page

theorem OthersKeep.user {va : Word} (h : k.OthersKeep roots r va m m') :
    k.OthersUserKeep roots r m m' := by
  intro r' hr' hne page huser
  refine h r' hr' hne page fun hkernel heq => ?_
  rw [heq, user_vpn] at huser
  exact huser hkernel

/-- A loop of such walkers over a range. -/
theorem rangeLoop_spec {op : Word → Memory → Int × Memory} {new : Option Mapping → Option Mapping}
    {good : Option Mapping → Prop} (h : k.PageTables m live roots)
    (hop : ∀ va m live, k.PageTables m live roots → ∃ live', k.PageTables (op va m).2 live' roots ∧
      ((op va m).1 = 0 → k.Sets roots r new good va m (op va m).2)) {vas : List Word}
    (hzero : (forEach op vas m).1 = 0) :
    (∀ va ∈ vas, ∃ o, good o ∧ k.spaceOf (forEach op vas m).2 r.addr (vpn va) = new o) ∧
      (∀ page, (∀ va ∈ vas, vpn va ≠ page) →
        k.spaceOf (forEach op vas m).2 r.addr page = k.spaceOf m r.addr page) ∧
      k.OthersUserKeep roots r m (forEach op vas m).2 := by
  have hloop := forEach_rule op vas
    (fun done m' => (∃ live', k.PageTables m' live' roots) ∧
      (∀ va ∈ done, ∃ o, good o ∧ k.spaceOf m' r.addr (vpn va) = new o) ∧
      (∀ page, (∀ va ∈ done, vpn va ≠ page) →
        k.spaceOf m' r.addr page = k.spaceOf m r.addr page) ∧
      k.OthersUserKeep roots r m m')
    (fun _ => True) (s := m) ⟨⟨live, h⟩, by simp, fun _ _ => rfl, fun _ _ _ _ _ => rfl⟩ ?_
  · rcases hloop with ⟨-, -, hinv⟩ | ⟨hne, -⟩
    · exact hinv
    · exact absurd hzero hne
  · rintro done va rest m₁ - ⟨⟨live₁, h₁⟩, hdone, hrest, hothers⟩
    obtain ⟨live₂, h₂, hsets⟩ := hop va m₁ live₁ h₁
    by_cases hstatus : (op va m₁).1 = 0
    · obtain ⟨hgood, hspace, hkeep⟩ := hsets hstatus
      refine Or.inl ⟨hstatus, ⟨live₂, h₂⟩, ?_, ?_, ?_⟩
      · intro va' hva'
        by_cases hsame : vpn va' = vpn va
        · exact ⟨_, hgood, by rw [hspace, hsame, Function.update_self]⟩
        · rw [hspace, Function.update_of_ne hsame]
          rcases List.mem_append.mp hva' with hold | hlast
          · exact hdone va' hold
          · exact absurd (congrArg vpn (List.mem_singleton.mp hlast)) hsame
      · intro page hpage
        have hne : page ≠ vpn va := (hpage va (by simp)).symm
        rw [hspace, Function.update_of_ne hne]
        exact hrest page fun va' hva' => hpage va' (List.mem_append_left _ hva')
      · intro r' hr' hne page huser
        rw [hkeep.user r' hr' hne page huser]
        exact hothers r' hr' hne page huser
    · exact Or.inr ⟨hstatus, trivial⟩

variable {process : ProcessSpace} {addr length : Word}

/-- What `mprotect` makes of a mapping. -/
def setFlags (flags : VmFlags) : Option Mapping → Option Mapping :=
  Option.map fun x => { x with flags := flags }

theorem protectPage4k_sets (hr : r ∈ roots) (flags : VmFlags) (va : Word) (m : Memory)
    (live : Set Chunk) (h : k.PageTables m live roots) :
    ∃ live', k.PageTables (k.protectPage4k m r.addr va flags).2 live' roots ∧
      ((k.protectPage4k m r.addr va flags).1 = 0 →
        k.Sets roots r (setFlags flags) (fun o => o.isSome = true) va m
          (k.protectPage4k m r.addr va flags).2) := by
  obtain ⟨live', hx, hanswers, hsome⟩ := h.protectPage4k_spec hr
    (Set.mem_univ (ptIndex va ptTopLevel)) flags
  refine ⟨live', hx.tables, fun hzero => ?_⟩
  rcases hanswers with ⟨-, hspace, hkeep⟩ | ⟨hfail, -⟩
  · exact ⟨hsome hzero, hspace, hkeep⟩
  · exact absurd (hfail.symm.trans hzero) (by decide)

theorem unmapPage4k_sets (hr : r ∈ roots) (va : Word) (m : Memory) (live : Set Chunk)
    (h : k.PageTables m live roots) :
    ∃ live', k.PageTables (k.unmapPage4k m r.addr va).2 live' roots ∧
      ((k.unmapPage4k m r.addr va).1 = 0 →
        k.Sets roots r (fun _ => none) (fun _ => True) va m (k.unmapPage4k m r.addr va).2) := by
  obtain ⟨live', hx, hanswers⟩ := h.unmapPage4k_spec hr
    (Set.mem_univ (ptIndex va ptTopLevel))
  refine ⟨live', hx.tables, fun hzero => ?_⟩
  rcases hanswers with ⟨-, hspace, hkeep⟩ | ⟨hfail, -⟩
  · exact ⟨trivial, hspace, hkeep⟩
  · exact absurd (hfail.symm.trans hzero) (by decide)

variable {process : ProcessSpace} {addr length : Word}

/-- `mprotect` that returned 0. -/
theorem mprotect_zero (h : k.PageTables m live roots) (hr : r ∈ roots)
    (htable : process.pageTable = r.addr) (hlength : length ≠ 0) {prot : Word}
    (hzero : (k.syscallMprotect m process addr length prot).1 = 0) :
    addr.toNat % 4096 = 0 ∧
      (∀ page ∈ pagesOf addr (addr + pageAlignUp length), ∃ x,
        k.spaceOf (k.syscallMprotect m process addr length prot).2 r.addr page = some x ∧
          x.flags = ⟨hasBits prot 0x2, true, hasBits prot 0x4, false⟩) ∧
      (∀ page ∉ pagesOf addr (addr + pageAlignUp length),
        k.spaceOf (k.syscallMprotect m process addr length prot).2 r.addr page =
          k.spaceOf m r.addr page) ∧
      k.OthersUserKeep roots r m (k.syscallMprotect m process addr length prot).2 := by
  rw [syscallMprotect, if_neg hlength] at hzero ⊢
  by_cases haligned : addr &&& 0xFFF = 0
  · rw [if_neg (not_not.mpr haligned), htable] at hzero ⊢
    dsimp only at hzero ⊢
    by_cases hstatus : (forEach (fun va m => k.protectPage4k m r.addr va
        ⟨hasBits prot 0x2, true, hasBits prot 0x4, false⟩)
        (pagesBetween addr (addr + pageAlignUp length)) m).1 = 0
    · rw [if_neg (not_not.mpr hstatus)]
      obtain ⟨hdone, hrest, hothers⟩ := rangeLoop_spec h (protectPage4k_sets hr _) hstatus
      refine ⟨toNat_mod_of_and haligned, ?_, ?_, hothers⟩
      · rintro page ⟨va, hva, rfl⟩
        obtain ⟨o, hsome, ho⟩ := hdone va hva
        obtain ⟨x, rfl⟩ := Option.isSome_iff_exists.mp hsome
        exact ⟨_, ho, rfl⟩
      · exact fun page hpage => hrest page fun va hva heq => hpage ⟨va, hva, heq⟩
    · rw [if_pos hstatus] at hzero
      cases hzero
  · rw [if_pos haligned] at hzero
    cases hzero

/-- `munmap` that returned 0. -/
theorem munmap_zero (h : k.PageTables m live roots) (hr : r ∈ roots)
    (htable : process.pageTable = r.addr)
    (hzero : (k.syscallMunmap m process addr length).1 = 0) :
    addr.toNat % 4096 = 0 ∧
      (∀ page ∈ pagesOf addr (addr + pageAlignUp length),
        k.spaceOf (k.syscallMunmap m process addr length).2 r.addr page = none) ∧
      (∀ page ∉ pagesOf addr (addr + pageAlignUp length),
        k.spaceOf (k.syscallMunmap m process addr length).2 r.addr page =
          k.spaceOf m r.addr page) ∧
      k.OthersUserKeep roots r m (k.syscallMunmap m process addr length).2 := by
  rw [syscallMunmap] at hzero ⊢
  by_cases hlength : length = 0
  · rw [if_pos hlength] at hzero
    cases hzero
  rw [if_neg hlength] at hzero ⊢
  by_cases haligned : addr &&& 0xFFF = 0
  · rw [if_neg (not_not.mpr haligned), htable] at hzero ⊢
    dsimp only at hzero ⊢
    by_cases hstatus : (forEach (fun va m => k.unmapPage4k m r.addr va)
        (pagesBetween addr (addr + pageAlignUp length)) m).1 = 0
    · rw [if_neg (not_not.mpr hstatus)]
      obtain ⟨hdone, hrest, hothers⟩ := rangeLoop_spec h (unmapPage4k_sets hr) hstatus
      refine ⟨toNat_mod_of_and haligned, ?_, ?_, hothers⟩
      · rintro page ⟨va, hva, rfl⟩
        obtain ⟨o, -, ho⟩ := hdone va hva
        exact ho
      · exact fun page hpage => hrest page fun va hva heq => hpage ⟨va, hva, heq⟩
    · rw [if_pos hstatus] at hzero
      cases hzero
  · rw [if_pos haligned] at hzero
    cases hzero

/-! ### The whole range -/

/-- What a successful `mprotect` or `munmap` changes, if it changes the pages `pages`. -/
theorem pageAt_keep {s s' : AddressSpace} {pages : Set Vpn}
    (hpages : ∀ page, page ∈ pages ↔ ∃ p, InRange addr length p ∧ BitVec.ofNat 36 p = page)
    (hkeep : ∀ page ∉ pages, s' page = s page) {q : Nat}
    (hq : ∀ p, InRange addr length p → q % 2 ^ 36 ≠ p % 2 ^ 36) : s'.pageAt q = s.pageAt q := by
  have hout : BitVec.ofNat 36 q ∉ pages := by
    intro hmem
    obtain ⟨p, hp, heq⟩ := (hpages _).mp hmem
    have hnat := congrArg BitVec.toNat heq
    rw [BitVec.toNat_ofNat, BitVec.toNat_ofNat] at hnat
    exact hq p hp hnat.symm
  rw [AddressSpace.pageAt, AddressSpace.pageAt, hkeep _ hout]

/-- Nothing changes when the end of the range wraps. -/
theorem eq_of_wraps {s s' : AddressSpace} (hends : ¬ EndsInside addr length)
    (hkeep : ∀ page ∉ pagesOf addr (addr + pageAlignUp length), s' page = s page) : s' = s := by
  funext page
  apply hkeep page
  rw [pagesOf_of_wraps hends]
  exact Set.notMem_empty page

/-- A page that shares its table entry with an unmapped page is unmapped. -/
theorem pageAt_unmapped {s' : AddressSpace} {pages : Set Vpn}
    (hpages : ∀ page, page ∈ pages ↔ ∃ p, InRange addr length p ∧ BitVec.ofNat 36 p = page)
    (hset : ∀ page ∈ pages, s' page = none) {p q : Nat} (hp : InRange addr length p)
    (heq : q % 2 ^ 36 = p % 2 ^ 36) : s'.pageAt q = none := by
  by_cases hcanon : CanonicalPage q
  · rw [AddressSpace.pageAt_of_canonical hcanon]
    refine hset _ ((hpages _).mpr ⟨p, hp, ?_⟩)
    apply BitVec.eq_of_toNat_eq
    rw [BitVec.toNat_ofNat, BitVec.toNat_ofNat]
    exact heq.symm
  · exact AddressSpace.pageAt_of_not_canonical hcanon

theorem mprotect_range_iff (h : k.PageTables m live roots) (hr : r ∈ roots)
    (htable : process.pageTable = r.addr) (hlength : length ≠ 0) {prot : Word}
    (hzero : (k.syscallMprotect m process addr length prot).1 = 0) :
    ProtectsRange (k.spaceOf m r.addr)
        (k.spaceOf (k.syscallMprotect m process addr length prot).2 r.addr) addr length
        ⟨hasBits prot 0x2, true, hasBits prot 0x4, false⟩ ↔
      ProtectFits (k.spaceOf m r.addr) addr length
        ⟨hasBits prot 0x2, true, hasBits prot 0x4, false⟩ := by
  obtain ⟨haligned, hset, hkeep, -⟩ := mprotect_zero h hr htable hlength hzero
  rw [ProtectsRange, ProtectFits]
  by_cases hends : EndsInside addr length
  · have hpages := fun page : Vpn => @mem_pagesOf_iff _ _ haligned hends page
    constructor
    · rintro ⟨hall, -⟩
      refine Or.inl ⟨hends, fun p hp => ?_⟩
      obtain ⟨x, hx, -⟩ := hall p hp
      exact AddressSpace.canonical_of_pageAt hx
    · rintro (⟨-, hcanonical⟩ | ⟨hnot, -⟩)
      · refine ⟨fun p hp => ?_, fun q hq => ?_⟩
        · rw [AddressSpace.pageAt_of_canonical (hcanonical p hp)]
          exact hset _ ((hpages _).mpr ⟨p, hp, rfl⟩)
        · by_cases hcanon : CanonicalPage q
          · refine pageAt_keep hpages hkeep fun p hp heq => hq ?_
            have hpq : q = p := by
              have hp' := hcanonical p hp
              rw [CanonicalPage] at hcanon hp'
              omega
            rwa [hpq]
          · rw [AddressSpace.pageAt_of_not_canonical hcanon,
              AddressSpace.pageAt_of_not_canonical hcanon]
      · exact absurd hends hnot
  · rw [eq_of_wraps hends hkeep]
    constructor
    · exact fun hall => Or.inr ⟨hends, hall.1⟩
    · rintro (⟨hin, -⟩ | ⟨-, hall⟩)
      · exact absurd hin hends
      · exact ⟨hall, fun _ _ => rfl⟩

theorem munmap_range_iff (h : k.PageTables m live roots) (hr : r ∈ roots)
    (htable : process.pageTable = r.addr)
    (hzero : (k.syscallMunmap m process addr length).1 = 0) :
    UnmapsRange (k.spaceOf m r.addr)
        (k.spaceOf (k.syscallMunmap m process addr length).2 r.addr) addr length ↔
      UnmapFits (k.spaceOf m r.addr) addr length := by
  obtain ⟨haligned, hset, hkeep, -⟩ := munmap_zero h hr htable hzero
  rw [UnmapsRange, UnmapFits]
  by_cases hends : EndsInside addr length
  · have hpages := fun page : Vpn => @mem_pagesOf_iff _ _ haligned hends page
    constructor
    · rintro ⟨-, hout⟩
      refine Or.inl ⟨hends, fun p q hp hq heq => ?_⟩
      rw [← hout q hq]
      exact pageAt_unmapped hpages hset hp heq
    · rintro (⟨-, halias⟩ | ⟨hnot, -⟩)
      · refine ⟨fun p hp => pageAt_unmapped hpages hset hp rfl, fun q hq => ?_⟩
        by_cases hshared : ∃ p, InRange addr length p ∧ q % 2 ^ 36 = p % 2 ^ 36
        · obtain ⟨p, hp, heq⟩ := hshared
          rw [halias p q hp hq heq]
          exact pageAt_unmapped hpages hset hp heq
        · exact pageAt_keep hpages hkeep fun p hp heq => hshared ⟨p, hp, heq⟩
      · exact absurd hends hnot
  · rw [eq_of_wraps hends hkeep]
    constructor
    · exact fun hall => Or.inr ⟨hends, hall.1⟩
    · rintro (⟨hin, -⟩ | ⟨-, hall⟩)
      · exact absurd hin hends
      · exact ⟨hall, fun _ _ => rfl⟩

/-- When the success of `mprotect` and `munmap` is about the whole range. -/
theorem rangeCalls_whole_iff (h : k.PageTables m live roots) (hr : r ∈ roots)
    (htable : process.pageTable = r.addr) (addr length : Word) :
    (∀ prot, length ≠ 0 → (k.syscallMprotect m process addr length prot).1 = 0 →
      (ProtectsRange (k.spaceOf m r.addr)
          (k.spaceOf (k.syscallMprotect m process addr length prot).2 r.addr) addr length
          ⟨hasBits prot 0x2, true, hasBits prot 0x4, false⟩ ∧
        k.OthersUserKeep roots r m (k.syscallMprotect m process addr length prot).2 ↔
        ProtectFits (k.spaceOf m r.addr) addr length
          ⟨hasBits prot 0x2, true, hasBits prot 0x4, false⟩)) ∧
    ((k.syscallMunmap m process addr length).1 = 0 →
      (UnmapsRange (k.spaceOf m r.addr)
          (k.spaceOf (k.syscallMunmap m process addr length).2 r.addr) addr length ∧
        k.OthersUserKeep roots r m (k.syscallMunmap m process addr length).2 ↔
        UnmapFits (k.spaceOf m r.addr) addr length)) := by
  constructor
  · intro prot hlength hzero
    have hothers := (mprotect_zero h hr htable hlength hzero).2.2.2
    rw [and_iff_left hothers]
    exact mprotect_range_iff h hr htable hlength hzero
  · intro hzero
    have hothers := (munmap_zero h hr htable hzero).2.2.2
    rw [and_iff_left hothers]
    exact munmap_range_iff h hr htable hzero

end Machine

/-- Both calls on all addresses from 0x600000 on. -/
theorem rangeCalls_whole_iff_sample :
    (ProtectsRange ((sampleMachine .x86_64).spaceOf sampleSpace.2 sampleTable.addr)
        ((sampleMachine .x86_64).spaceOf ((sampleMachine .x86_64).syscallMprotect sampleSpace.2
          sampleProcess 0x600000 (-1) 3).2 sampleTable.addr) 0x600000 (-1)
        ⟨hasBits 3 0x2, true, hasBits 3 0x4, false⟩ ∧
      (sampleMachine .x86_64).OthersUserKeep {sampleTable, sampleRoot} sampleTable sampleSpace.2
        ((sampleMachine .x86_64).syscallMprotect sampleSpace.2 sampleProcess 0x600000 (-1) 3).2 ↔
      ProtectFits ((sampleMachine .x86_64).spaceOf sampleSpace.2 sampleTable.addr) 0x600000 (-1)
        ⟨hasBits 3 0x2, true, hasBits 3 0x4, false⟩) ∧
    (UnmapsRange ((sampleMachine .x86_64).spaceOf sampleSpace.2 sampleTable.addr)
        ((sampleMachine .x86_64).spaceOf ((sampleMachine .x86_64).syscallMunmap sampleSpace.2
          sampleProcess 0x600000 (-1)).2 sampleTable.addr) 0x600000 (-1) ∧
      (sampleMachine .x86_64).OthersUserKeep {sampleTable, sampleRoot} sampleTable sampleSpace.2
        ((sampleMachine .x86_64).syscallMunmap sampleSpace.2 sampleProcess 0x600000 (-1)).2 ↔
      UnmapFits ((sampleMachine .x86_64).spaceOf sampleSpace.2 sampleTable.addr) 0x600000 (-1)) := by
  obtain ⟨c, htables, -⟩ := sampleTenant
  have hwhole := Machine.rangeCalls_whole_iff htables (Set.mem_insert _ _)
    (show sampleProcess.pageTable = sampleTable.addr from rfl) 0x600000 (-1)
  exact ⟨hwhole.1 3 (by decide) (by decide), hwhole.2 (by decide)⟩

/-- The rounded length is 0, so that `mprotect` returns 0 without a look at the range. -/
theorem mprotect_wraps :
    ((sampleMachine .x86_64).syscallMprotect sampleSpace.2 sampleProcess 0x600000 (-1) 3).1 = 0 ∧
      ¬ ProtectsRange ((sampleMachine .x86_64).spaceOf sampleSpace.2 sampleTable.addr)
        ((sampleMachine .x86_64).spaceOf ((sampleMachine .x86_64).syscallMprotect sampleSpace.2
          sampleProcess 0x600000 (-1) 3).2 sampleTable.addr) 0x600000 (-1)
        ⟨hasBits 3 0x2, true, hasBits 3 0x4, false⟩ := by
  refine ⟨by decide, fun hrange => ?_⟩
  have hpast : InRange 0x600000 (-1) (2 ^ 52) := by
    constructor
    · decide
    · decide
  obtain ⟨x, hx, -⟩ := hrange.1 _ hpast
  rw [AddressSpace.pageAt_of_not_canonical (by decide)] at hx
  cases hx

end Utopia
