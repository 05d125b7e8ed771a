/-
The relative relocations of `exec/loaders/elf.c` that a RELR table encodes:
`elf_apply_relr_table` adds the bias to each word as often as the table names it.
-/
import Utopia.Exec.ElfRights

namespace Utopia

/-- `entries[i]` for each `i` below `count`. -/
def ElfFile.relrEntries (file : ElfFile) (table count : Word) : List Word :=
  (List.range count.toNat).map fun i => file.u64 (table + BitVec.ofNat 64 i * 8)

namespace Machine

section Code

variable (k : Machine)

/-- Add the bias to the word at `addr` of the image. -/
def relrAdd (l4 bias addr : Word) (m : Memory) : Int × Memory :=
  let dst := k.elfUv2kv m l4 (bias + addr)
  if dst = 0 then (-2, m) else (0, m.write64 dst (bias + m.read64 dst))

/-- The `while` loop over the bits of a bitmap. -/
def relrBitmap (l4 bias bits addr : Word) (m : Memory) : Int × Memory :=
  if _ : bits = 0 then (0, m)
  else
    let (status, m) := if bits &&& 1 ≠ 0 then k.relrAdd l4 bias addr m else (0, m)
    if status = 0 then relrBitmap l4 bias (bits >>> 1) (addr + 8) m else (status, m)
termination_by bits.toNat
decreasing_by
  have hpos : bits.toNat ≠ 0 := fun hzero => ‹¬ bits = 0› (BitVec.eq_of_toNat_eq hzero)
  rw [BitVec.toNat_ushiftRight, Nat.shiftRight_eq_div_pow]
  omega

/-- A round of the loop over the entries, with `base`. -/
def relrEntry (l4 bias entry : Word) (s : Memory × Word) : Int × (Memory × Word) :=
  let (m, base) := s
  if entry &&& 1 = 0 then
    let (status, m) := k.relrAdd l4 bias entry m
    (status, m, entry + 8)
  else
    let (status, m) := k.relrBitmap l4 bias (entry >>> 1) base m
    (status, m, base + 63 * 8)

/-- `elf_apply_relr_table`. -/
def elfApplyRelrTable (file : ElfFile) (l4 bias tableVaddr tableSize entsize : Word)
    (m : Memory) : Int × Memory :=
  let entsize := if entsize = 0 then 8 else entsize
  let count := tableSize / entsize
  match file.vaddrToFileptr tableVaddr tableSize with
  | none => (-1, m)
  | some table =>
      let (status, m, _) :=
        forEach (k.relrEntry l4 bias) (file.relrEntries table count) (m, 0)
      (status, m)

end Code

end Machine

/-! ### What a table names -/

/-- The words that follow an address: the bits of an odd entry above its lowest. -/
def relrBits (entry : Word) : List ℕ := (List.range 63).filter fun i => entry.getLsbD (i + 1)

/-- The words that one entry names: an even entry is the address of one, an odd entry is a map
of the 63 words from `base` on. -/
def relrNamed (base entry : Word) : List Word :=
  if entry.getLsbD 0 then (relrBits entry).map fun i => base + 8 * BitVec.ofNat 64 i
  else [entry]

/-- Where the words of a map that follows the entry start. -/
def relrNext (base entry : Word) : Word :=
  if entry.getLsbD 0 then base + 63 * 8 else entry + 8

/-- The words that a table names, one after the other. -/
def relrTargets : (base : Word) → List Word → List Word
  | _, [] => []
  | base, entry :: entries => relrNamed base entry ++ relrTargets (relrNext base entry) entries

/-- Where a table starts with an address, nothing depends on the first base. -/
theorem relrTargets_base (base base' : Word) {entries : List Word}
    (hstart : ∀ entry ∈ entries.head?, entry.getLsbD 0 = false) :
    relrTargets base entries = relrTargets base' entries := by
  cases entries with
  | nil => rfl
  | cons entry entries =>
      have heven : entry.getLsbD 0 = false := hstart entry rfl
      simp only [relrTargets, relrNamed, relrNext, heven, Bool.false_eq_true, if_false]

/-! ### The loops as one walk over the named words -/

namespace Machine

variable {k : Machine} {m m' : Memory} {live : Set Chunk} {roots : Set TableAddr} {r : TableAddr}
  {pages : Vpn → Option LoadedPage} {file : ElfFile} {l4 bias : Word}

theorem and_one_eq_zero_iff (x : Word) : x &&& 1 = 0 ↔ x.getLsbD 0 = false := by
  have hbit : x &&& 1 = (BitVec.ofBool (x.getLsbD 0)).setWidth 64 :=
    BitVec.and_one_eq_setWidth_ofBool_getLsbD
  rw [hbit]
  cases x.getLsbD 0 <;> decide

/-- The bitmap loop visits the words of the bits that are set. -/
theorem relrBitmap_eq {n : ℕ} {bits : Word} (addr : Word) (m : Memory)
    (hbits : bits.toNat < 2 ^ n) :
    k.relrBitmap l4 bias bits addr m = forEach (k.relrAdd l4 bias)
      (((List.range n).filter fun i => bits.getLsbD i).map
        fun i => addr + 8 * BitVec.ofNat 64 i) m := by
  induction n generalizing bits addr m with
  | zero =>
      have hzero : bits = 0 := BitVec.eq_of_toNat_eq (Nat.lt_one_iff.mp hbits)
      rw [relrBitmap, dif_pos hzero]
      rfl
  | succ n ih =>
      by_cases hzero : bits = 0
      · subst hzero
        rw [relrBitmap, dif_pos rfl, List.filter_eq_nil_iff.mpr (by simp)]
        rfl
      have hshift : (bits >>> 1).toNat < 2 ^ n := by
        rw [BitVec.toNat_ushiftRight, Nat.shiftRight_eq_div_pow]
        omega
      have hlow : bits &&& 1 ≠ 0 ↔ bits.getLsbD 0 = true := by
        rw [Ne, and_one_eq_zero_iff, Bool.not_eq_false]
      have hzeroth : addr + 8 * BitVec.ofNat 64 0 = addr := BitVec.add_zero addr
      have hrest : (((List.range n).map Nat.succ).filter fun i => bits.getLsbD i).map
            (fun i => addr + 8 * BitVec.ofNat 64 i) =
          ((List.range n).filter fun i => (bits >>> 1).getLsbD i).map
            fun i => addr + 8 + 8 * BitVec.ofNat 64 i := by
        rw [List.filter_map, List.map_map]
        congr 1
        · funext i
          have hnext : BitVec.ofNat 64 i.succ = BitVec.ofNat 64 i + 1 := BitVec.ofNat_add i 1
          rw [Function.comp_apply, hnext, BitVec.mul_add, BitVec.add_assoc,
            BitVec.add_comm (8 * BitVec.ofNat 64 i)]
          rfl
        · congr 1
          funext i
          simp only [Function.comp_apply, BitVec.getLsbD_ushiftRight, Nat.succ_eq_add_one,
            Nat.add_comm]
      rw [relrBitmap, dif_neg hzero, List.range_succ_eq_map, List.filter_cons]
      cases hbit : bits.getLsbD 0 with
      | false =>
          rw [hbit] at hlow
          simp only [if_neg (mt hlow.mp Bool.false_ne_true), if_true, Bool.false_eq_true, if_false, hrest]
          exact ih _ _ hshift
      | true =>
          simp only [if_pos (hlow.mpr hbit), if_true, List.map_cons, hrest, forEach, hzeroth,
            ih (addr + 8) _ hshift]

theorem relrEntry_eq (base entry : Word) (m : Memory) :
    k.relrEntry l4 bias entry (m, base) =
      ((forEach (k.relrAdd l4 bias) (relrNamed base entry) m).1,
        (forEach (k.relrAdd l4 bias) (relrNamed base entry) m).2, relrNext base entry) := by
  cases hbit : entry.getLsbD 0 with
  | false =>
      simp only [relrEntry, if_pos ((and_one_eq_zero_iff entry).mpr hbit), relrNamed, relrNext,
        hbit, Bool.false_eq_true, if_false, forEach]
      split_ifs with hzero
      · rw [hzero]
      · rfl
  | true =>
      have hodd : ¬ entry &&& 1 = 0 := by
        rw [and_one_eq_zero_iff, hbit]
        exact Bool.noConfusion
      have hbits : (entry >>> 1).toNat < 2 ^ 63 := by
        have hlt := entry.isLt
        rw [BitVec.toNat_ushiftRight, Nat.shiftRight_eq_div_pow]
        omega
      simp only [relrEntry, if_neg hodd, relrBitmap_eq base m hbits, relrNamed, relrNext, hbit,
        if_true, relrBits, BitVec.getLsbD_ushiftRight, Nat.add_comm 1]

/-- The loop over the entries visits the words that they name, in their order. -/
theorem relrEntries_eq (base : Word) (entries : List Word) (m : Memory) :
    ((forEach (k.relrEntry l4 bias) entries (m, base)).1,
        (forEach (k.relrEntry l4 bias) entries (m, base)).2.1) =
      forEach (k.relrAdd l4 bias) (relrTargets base entries) m := by
  induction entries generalizing base m with
  | nil => rfl
  | cons entry entries ih =>
      rw [relrTargets, forEach_append, forEach, relrEntry_eq]
      split_ifs
      · exact ih _ _
      · rfl

end Machine

/-! ### Words with a bias added -/

namespace Memory

/-- Add `bias` to the words at `slots`, one after the other. -/
def addEach (bias : Word) (slots : List Word) (m : Memory) : Memory :=
  slots.foldl (fun m slot => m.write64 slot (bias + m.read64 slot)) m

variable {bias : Word} {slots : List Word}

/-- An aligned word has gained the bias as often as it stands in the list. -/
theorem read64_addEach (m : Memory) (halign : ∀ slot ∈ slots, slot.toNat % 8 = 0) {slot : Word}
    (hslot : slot.toNat % 8 = 0) :
    (m.addEach bias slots).read64 slot =
      m.read64 slot + BitVec.ofNat 64 (slots.count slot) * bias := by
  induction slots generalizing m with
  | nil =>
      have hzero : BitVec.ofNat 64 0 * bias = 0 := BitVec.zero_mul
      rw [addEach, List.foldl_nil, List.count_nil, hzero]
      exact (BitVec.add_zero _).symm
  | cons first slots ih =>
      have hfirst := halign first List.mem_cons_self
      have hrest := ih (m.write64 first (bias + m.read64 first))
        fun slot hmem => halign slot (List.mem_cons_of_mem _ hmem)
      rw [addEach, List.foldl_cons]
      refine hrest.trans ?_
      by_cases heq : first = slot
      · subst heq
        have hsucc : BitVec.ofNat 64 (slots.count first + 1) * bias =
            bias + BitVec.ofNat 64 (slots.count first) * bias := by
          rw [BitVec.ofNat_add, BitVec.add_mul, BitVec.add_comm]
          exact congrArg (· + _) (BitVec.one_mul bias)
        rw [read64_write64, List.count_cons_self, hsucc, BitVec.add_comm bias, BitVec.add_assoc]
      · have hne : first.toNat ≠ slot.toNat := fun h => heq (BitVec.eq_of_toNat_eq h)
        have hfirstlt := first.isLt
        have hslotlt := slot.isLt
        rw [read64_write64_of_disjoint _ _ (by omega) (by omega) (by omega),
          List.count_cons_of_ne heq]

theorem addEach_eqOn (m : Memory) (halign : ∀ slot ∈ slots, slot.toNat % 8 = 0) {x : Word}
    (hx : ∀ slot ∈ slots, x ∉ span slot 8) : m.addEach bias slots x = m x := by
  induction slots generalizing m with
  | nil => rfl
  | cons first slots ih =>
      have hfirst := halign first List.mem_cons_self
      have hlt := first.isLt
      rw [addEach, List.foldl_cons]
      refine (ih _ (fun slot hmem => halign slot (List.mem_cons_of_mem _ hmem))
        fun slot hmem => hx slot (List.mem_cons_of_mem _ hmem)).trans ?_
      exact write64_eqOn m _ (by omega) (hx first List.mem_cons_self)

end Memory

namespace Machine

/-- An aligned word of the user half that is mapped. -/
structure WordMapped (k : Machine) (m : Memory) (l4 va : Word) : Prop where
  aligned : va.toNat % 8 = 0
  user : va.toNat < 2 ^ 47
  mapped : k.elfUv2kv m l4 va ≠ 0

/-- Where the kernel finds the byte at `va` of a loaded space. -/
def loadedByte (pages : Vpn → Option LoadedPage) (va : Word) : Word :=
  ((pages (vpn va)).map fun p => p.chunk.ptr + (va &&& 4095)).getD 0

variable {k : Machine} {m m' : Memory} {live : Set Chunk} {roots : Set TableAddr} {r : TableAddr}
  {pages : Vpn → Option LoadedPage} {file : ElfFile} {bias va vb : Word}

namespace LoadedPages

theorem elfUv2kv_byte (h : k.LoadedPages roots r pages m live) (huser : va.toNat < 2 ^ 47) :
    k.elfUv2kv m r.addr va = loadedByte pages va := by
  rw [elfUv2kv, vmUserToKernel_eq, translate_eq_spaceOf,
    h.space (vpn va) (user_vpn.mpr (not_kernelIndex_of_lt huser)), loadedByte]
  cases pages (vpn va) with
  | none => rfl
  | some p =>
      simp only [Option.map_some, Option.getD_some, physToVirt, hhdmVirtToPhys]
      rw [← BitVec.add_assoc, BitVec.add_comm k.hhdmOffset, BitVec.sub_add_cancel]

/-- A mapped word lies in the page of a chunk. -/
theorem exists_slot (h : k.LoadedPages roots r pages m live) (hva : k.WordMapped m r.addr va) :
    ∃ p, pages (vpn va) = some p ∧
      (loadedByte pages va).toNat = p.chunk.ptr.toNat + va.toNat % 4096 ∧
      span (loadedByte pages va) 8 ⊆ p.chunk.bytes := by
  have hne := hva.mapped
  rw [h.elfUv2kv_byte hva.user, loadedByte] at hne
  cases hp : pages (vpn va) with
  | none =>
      rw [hp] at hne
      exact absurd rfl hne
  | some p =>
      have hfits := (h.page _ _ hp).fits
      have hlow : (va &&& 4095).toNat = va.toNat % 4096 := toNat_and_span va (Nat.zero_le 3)
      have hslot : loadedByte pages va = p.chunk.ptr + (va &&& 4095) := by
        rw [loadedByte, hp, Option.map_some, Option.getD_some]
      have hnat : (loadedByte pages va).toNat = p.chunk.ptr.toNat + va.toNat % 4096 := by
        rw [hslot, toNat_add_of_lt (by omega), hlow]
      have hsize := (h.page _ _ hp).size
      have hword := hva.aligned
      exact ⟨p, rfl, hnat, span_subset_span (by omega) (by omega)⟩

theorem slot_aligned (h : k.LoadedPages roots r pages m live) (hva : k.WordMapped m r.addr va) :
    (loadedByte pages va).toNat % 8 = 0 := by
  obtain ⟨p, hp, hnat, -⟩ := h.exists_slot hva
  have haligned := (h.page _ _ hp).aligned
  have hword := hva.aligned
  omega

/-- Different words lie at different places. -/
theorem slot_injective (h : k.LoadedPages roots r pages m live) (hva : k.WordMapped m r.addr va)
    (hvb : k.WordMapped m r.addr vb) (heq : loadedByte pages va = loadedByte pages vb) :
    va = vb := by
  obtain ⟨p, hp, hnat, hspan⟩ := h.exists_slot hva
  obtain ⟨q, hq, hnat', hspan'⟩ := h.exists_slot hvb
  have hpage := h.page _ _ hp
  have hpage' := h.page _ _ hq
  have hchunk : p.chunk = q.chunk := by
    by_contra hne
    have hdis := k.alloc.bytes_disjoint h.tables.heap hpage.live hpage'.live hne
    have hmem : loadedByte pages va ∈ span (loadedByte pages va) 8 := by
      rw [mem_span]
      omega
    exact Set.disjoint_left.mp hdis (hspan hmem) (hspan' (heq ▸ hmem))
  have hvpn := congrArg BitVec.toNat (h.own _ _ _ _ hp hq hchunk)
  have huser := hva.user
  have huser' := hvb.user
  rw [vpn_toNat, vpn_toNat] at hvpn
  rw [heq, hnat', hchunk] at hnat
  apply BitVec.eq_of_toNat_eq
  omega

/-- One addition: the word is stored, and the space stays as it is. -/
theorem relrAdd_eq (h : k.LoadedPages roots r pages m live) {addr : Word}
    (haddr : k.WordMapped m r.addr (bias + addr)) :
    k.relrAdd r.addr bias addr m =
        (0, m.addEach bias [loadedByte pages (bias + addr)]) ∧
      k.LoadedPages roots r pages (m.addEach bias [loadedByte pages (bias + addr)]) live ∧
      k.spaceOf (m.addEach bias [loadedByte pages (bias + addr)]) r.addr = k.spaceOf m r.addr := by
  obtain ⟨p, hp, hnat, hspan⟩ := h.exists_slot haddr
  have hpage := h.page _ _ hp
  have hne := haddr.mapped
  have haligned := h.slot_aligned haddr
  have hlt := (loadedByte pages (bias + addr)).isLt
  have heq : Set.EqOn (m.addEach bias [loadedByte pages (bias + addr)]) m p.chunk.bytesᶜ :=
    (Memory.write64_eqOn m _ (by omega)).mono (Set.compl_subset_compl.mpr hspan)
  rw [h.elfUv2kv_byte haddr.user] at hne
  refine ⟨?_, h.write hpage heq, ?_⟩
  · rw [relrAdd, h.elfUv2kv_byte haddr.user, if_neg hne]
    rfl
  · funext page
    exact PageTables.translate_congr h.root (fun t ht => heq.mono fun x hx hxc =>
      Set.disjoint_left.mp (hpage.outside t ht) hx hxc) page.addr

/-- Words stay mapped where the space stays the same. -/
theorem wordMapped_congr (h : k.LoadedPages roots r pages m live)
    (h' : k.LoadedPages roots r pages m' live) (hva : k.WordMapped m r.addr va) :
    k.WordMapped m' r.addr va := by
  refine ⟨hva.aligned, hva.user, ?_⟩
  rw [h'.elfUv2kv_byte hva.user, ← h.elfUv2kv_byte hva.user]
  exact hva.mapped

/-- The walk over the named words. -/
theorem forEach_relrAdd (h : k.LoadedPages roots r pages m live) {targets : List Word}
    (htargets : ∀ addr ∈ targets, k.WordMapped m r.addr (bias + addr)) :
    ∃ m', m' = m.addEach bias (targets.map fun addr => loadedByte pages (bias + addr)) ∧
      forEach (k.relrAdd r.addr bias) targets m = (0, m') ∧
      k.LoadedPages roots r pages m' live ∧ k.spaceOf m' r.addr = k.spaceOf m r.addr := by
  induction targets generalizing m with
  | nil => exact ⟨m, rfl, rfl, h, rfl⟩
  | cons addr targets ih =>
      obtain ⟨hadd, h₁, hspace₁⟩ := h.relrAdd_eq (htargets addr List.mem_cons_self)
      obtain ⟨m', hm', hrun, h', hspace'⟩ := ih h₁ fun addr' hmem =>
        h.wordMapped_congr h₁ (htargets addr' (List.mem_cons_of_mem _ hmem))
      refine ⟨m', hm', ?_, h', hspace'.trans hspace₁⟩
      rw [forEach, hadd, if_pos rfl, hrun]

/-- A word stands among the places of the named words as often as it is named. -/
theorem count_slots (h : k.LoadedPages roots r pages m live) {targets : List Word}
    (htargets : ∀ addr ∈ targets, k.WordMapped m r.addr (bias + addr)) {addr : Word}
    (haddr : k.WordMapped m r.addr (bias + addr)) :
    (targets.map fun addr => loadedByte pages (bias + addr)).count (loadedByte pages (bias + addr)) =
      targets.count addr := by
  rw [List.count, List.countP_map, List.count]
  apply List.countP_congr
  intro other hmem
  simp only [Function.comp_apply, beq_iff_eq]
  constructor
  · intro heq
    have hsame := h.slot_injective (htargets other hmem) haddr heq
    exact (BitVec.add_right_inj bias).mp hsame
  · rintro rfl
    rfl

end LoadedPages

/-- Each named word has gained the bias as often as it is named; everything else is the same. -/
structure RelrApplied (k : Machine) (l4 bias : Word) (targets : List Word) (m m' : Memory) :
    Prop where
  space : k.spaceOf m' l4 = k.spaceOf m l4
  words : ∀ addr, k.WordMapped m l4 (bias + addr) →
    m'.read64 (k.elfUv2kv m' l4 (bias + addr)) =
      m.read64 (k.elfUv2kv m l4 (bias + addr)) + BitVec.ofNat 64 (targets.count addr) * bias
  others : ∀ x, (∀ addr ∈ targets, x ∉ span (k.elfUv2kv m l4 (bias + addr)) 8) → m' x = m x

/-- `elf_apply_relr_table` of a loaded image, for a table in a file-backed segment that starts
with an address and whose words are mapped and aligned. -/
theorem elf_apply_relr_table_applies {tableVaddr tableSize entsize table base : Word}
    {entries : List Word} (h : k.LoadedPages roots r pages m live)
    (hentsize : entsize = 0 ∨ entsize = 8)
    (htable : file.vaddrToFileptr tableVaddr tableSize = some table)
    (hentries : file.relrEntries table (tableSize / 8) = entries)
    (hstart : ∀ entry ∈ entries.head?, entry.getLsbD 0 = false)
    (htargets : ∀ addr ∈ relrTargets base entries, k.WordMapped m r.addr (bias + addr)) :
    (k.elfApplyRelrTable file r.addr bias tableVaddr tableSize entsize m).1 = 0 ∧
      k.RelrApplied r.addr bias (relrTargets base entries) m
        (k.elfApplyRelrTable file r.addr bias tableVaddr tableSize entsize m).2 := by
  rw [relrTargets_base base 0 hstart] at htargets ⊢
  obtain ⟨m', hm', hrun, h', hspace⟩ := h.forEach_relrAdd htargets
  have hsize : (if entsize = 0 then 8 else entsize) = 8 := by
    rcases hentsize with rfl | rfl <;> decide
  have hwalk : ((forEach (k.relrEntry r.addr bias) entries (m, 0)).1,
      (forEach (k.relrEntry r.addr bias) entries (m, 0)).2.1) =
        forEach (k.relrAdd r.addr bias) (relrTargets 0 entries) m := relrEntries_eq 0 entries m
  have hresult : k.elfApplyRelrTable file r.addr bias tableVaddr tableSize entsize m = (0, m') := by
    rw [elfApplyRelrTable]
    simp only [hsize, htable, hentries]
    exact hwalk.trans hrun
  rw [hresult]
  have halign : ∀ slot ∈ (relrTargets 0 entries).map fun addr => loadedByte pages (bias + addr),
      slot.toNat % 8 = 0 := by
    intro slot hslot
    obtain ⟨addr, haddr, rfl⟩ := List.mem_map.mp hslot
    exact h.slot_aligned (htargets addr haddr)
  refine ⟨rfl, hspace, fun addr haddr => ?_, fun x hx => ?_⟩
  · rw [h'.elfUv2kv_byte haddr.user, h.elfUv2kv_byte haddr.user, hm',
      Memory.read64_addEach m halign (h.slot_aligned haddr), h.count_slots htargets haddr]
  · rw [hm']
    refine Memory.addEach_eqOn m halign fun slot hslot => ?_
    obtain ⟨addr, haddr, rfl⟩ := List.mem_map.mp hslot
    rw [← h.elfUv2kv_byte (htargets addr haddr).user]
    exact hx addr haddr

end Machine

/-! ### An image with a table behind its headers -/

/-- A position-independent image: the table names the words at 8, 24 and 32. -/
def sampleRelr : ElfFile :=
  let file := ElfFile.ofList (sampleEhdr 1 ++ samplePhdr 6 0 136 ++ littleEndian 8 8 ++
    littleEndian 0b1101 8)
  ⟨fun a => if a = 16 then 3 else file.byte a, file.size⟩

/-- The words that the table names are mapped after a load that succeeds. -/
def Machine.relrMapped (k : Machine) (file : ElfFile) (l4 bias : Word) (m : Memory)
    (targets : List Word) : Bool :=
  (k.elfLoad file l4 bias m).toOption.any fun out => targets.all fun addr =>
    (bias + addr).toNat % 8 = 0 ∧ (bias + addr).toNat < 2 ^ 47 ∧
      k.elfUv2kv out.2 l4 (bias + addr) ≠ 0

theorem Machine.relrMapped_elim {k : Machine} {file : ElfFile} {l4 bias : Word} {m : Memory}
    {targets : List Word} (h : k.relrMapped file l4 bias m targets = true) : ∃ result m',
      k.elfLoad file l4 bias m = .ok (result, m') ∧
        ∀ addr ∈ targets, k.WordMapped m' l4 (bias + addr) := by
  rw [relrMapped] at h
  generalize k.elfLoad file l4 bias m = loaded at *
  cases loaded with
  | error e => cases h
  | ok out =>
      refine ⟨out.1, out.2, rfl, fun addr haddr => ?_⟩
      have hword := of_decide_eq_true (List.all_eq_true.mp h addr haddr)
      exact ⟨hword.1, hword.2.1, hword.2.2⟩

theorem sampleRelr_mapped : (sampleMachine .x86_64).relrMapped sampleRelr sampleTable.addr 0x400000
    sampleSpace.2 [8, 24, 32] = true := by
  decide +kernel

theorem sampleRelr_confined : sampleRelr.Confined (sampleRelr.biasFor 0x400000) := by
  decide +kernel

theorem sampleRelr_granted :
    (sampleMachine .x86_64).LoadGranted sampleRelr sampleTable.addr 0x400000 sampleSpace.2 := by
  decide +kernel

theorem sampleRelr_table : sampleRelr.vaddrToFileptr 120 16 = some 120 := by
  decide +kernel

theorem sampleRelr_entries : sampleRelr.relrEntries 120 (16 / 8) = [8, 0b1101] := by
  decide +kernel

theorem sampleRelr_starts :
    ∀ entry ∈ (sampleRelr.relrEntries 120 (16 / 8)).head?, entry.getLsbD 0 = false := by
  rw [sampleRelr_entries]
  intro entry hentry
  obtain rfl := Option.some.inj hentry
  rfl

theorem sampleRelr_targets :
    relrTargets 0 (sampleRelr.relrEntries 120 (16 / 8)) = [8, 24, 32] := by
  rw [sampleRelr_entries]
  decide

/-- The three words of the sample. -/
theorem Machine.elf_apply_relr_table_applies_sample : ∃ result m',
    (sampleMachine .x86_64).elfLoad sampleRelr sampleTable.addr 0x400000 sampleSpace.2 =
      .ok (result, m') ∧
    ((sampleMachine .x86_64).elfApplyRelrTable sampleRelr sampleTable.addr 0x400000 120 16 8
      m').1 = 0 ∧
    (sampleMachine .x86_64).RelrApplied sampleTable.addr 0x400000
      (relrTargets 0 (sampleRelr.relrEntries 120 (16 / 8))) m'
      ((sampleMachine .x86_64).elfApplyRelrTable sampleRelr sampleTable.addr 0x400000 120 16 8
        m').2 := by
  obtain ⟨c, hspace⟩ := sampleNewSpace
  obtain ⟨result, m', hload, hmapped⟩ := relrMapped_elim sampleRelr_mapped
  obtain ⟨live', pages, hpages, -⟩ := elfLoad_shows
    (LoadedPages.of_empty hspace.tables (Set.mem_insert _ _) sampleTable_empty)
    sampleRelr_confined sampleRelr_granted hload
  rw [← sampleRelr_targets] at hmapped
  exact ⟨result, m', hload, elf_apply_relr_table_applies hpages (Or.inr rfl) sampleRelr_table rfl
    sampleRelr_starts hmapped⟩

end Utopia
