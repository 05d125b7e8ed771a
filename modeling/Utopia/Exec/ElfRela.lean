/-
The relocations with addends of `exec/loaders/elf.c`: `elf_apply_rela_table` binds each word that
the table names to its value, which may be a symbol of another module.
-/
import Mathlib.Data.List.TakeWhile
import Utopia.Exec.ElfRelr
import Utopia.Exec.ElfSymbols
import Utopia.Lib.WordStores

namespace Utopia

/-! ### The code -/

/-- `elf64_rela_t`. -/
structure ElfRela where
  offset : Word
  info : Word
  addend : Word
deriving DecidableEq, Repr

namespace ElfRela

variable (rel : ElfRela)

/-- `ELF64_R_TYPE`. -/
def type : BitVec 32 := rel.info.setWidth 32

/-- `ELF64_R_SYM`. -/
def sym : Word := rel.info >>> 32

end ElfRela

/-- The relocation at an offset of the image. -/
def ElfFile.relaAt (file : ElfFile) (off : Word) : ElfRela where
  offset := file.u64 off
  info := file.u64 (off + 8)
  addend := file.u64 (off + 16)

/-- The relocations of a table. -/
def ElfFile.relaEntries (file : ElfFile) (table count entsize : Word) : List ElfRela :=
  (List.range count.toNat).map fun i => file.relaAt (table + BitVec.ofNat 64 i * entsize)

/-- What `elf_apply_rela_table` is told about the image and the other modules. -/
structure RelaContext where
  file : ElfFile
  bias : Word
  symtabVaddr : Word
  strtabVaddr : Word
  strtabSize : Word
  modules : List ElfObject

namespace RelaContext

variable (c : RelaContext)

/-- The value of a symbol that another module is to define. -/
def external (sym : ElfSym) : Option Word :=
  match c.file.symbolNameRaw c.strtabVaddr c.strtabSize sym.name with
  | none => none
  | some name => elfResolveExternalSymbol c.modules c.file name

/-- The `switch` over the type: what is stored, if anything is. -/
def value (rel : ElfRela) : Option Word :=
  if rel.type = 8 then some (c.bias + rel.addend)
  else if rel.type = 1 ∨ rel.type = 6 ∨ rel.type = 7 then
    if c.symtabVaddr = 0 then none
    else
      match c.file.symbol c.symtabVaddr rel.sym with
      | none => none
      | some sym =>
          let value := if sym.shndx = 0 then c.external sym else some (c.bias + sym.value)
          value.map fun value => if rel.type = 1 then value + rel.addend else value
  else none

/-- Where a relocation stores its value. -/
def target (rel : ElfRela) : Word := c.bias + rel.offset

end RelaContext

namespace Machine

section Code

variable (k : Machine)

/-- A round of the loop over the relocations. -/
def relaEntry (l4 : Word) (c : RelaContext) (rel : ElfRela) (m : Memory) : Int × Memory :=
  let dst := k.elfUv2kv m l4 (c.target rel)
  if dst = 0 then (-2, m)
  else
    match c.value rel with
    | none => (0, m)
    | some value => (0, m.write64 dst value)

/-- `elf_apply_rela_table`. -/
def elfApplyRelaTable (l4 : Word) (c : RelaContext) (tableVaddr tableSize entsize : Word)
    (m : Memory) : Int × Memory :=
  let entsize := if entsize = 0 then 24 else entsize
  let count := tableSize / entsize
  match c.file.vaddrToFileptr tableVaddr tableSize with
  | none => (-1, m)
  | some table => forEach (k.relaEntry l4 c) (c.file.relaEntries table count entsize) m

end Code

end Machine

/-! ### What a table binds -/

namespace RelaContext

variable (c : RelaContext)

/-- The words that relocations bind, with their values. -/
def bindings (entries : List ElfRela) : List (Word × Word) :=
  entries.filterMap fun rel => (c.value rel).map fun value => (c.target rel, value)

/-- The value that the last of the relocations for a word gives it. -/
def boundTo (entries : List ElfRela) (va : Word) : Option Word :=
  (c.bindings entries).reverse.lookup va

end RelaContext

/-- The relocations name aligned words of the user half. -/
def RelaContext.InUserHalf (c : RelaContext) (entries : List ElfRela) : Prop :=
  ∀ rel ∈ entries, (c.target rel).toNat % 8 = 0 ∧ (c.target rel).toNat < 2 ^ 47

instance (c : RelaContext) (entries : List ElfRela) : Decidable (c.InUserHalf entries) :=
  inferInstanceAs (Decidable (∀ rel ∈ entries, _ ∧ _))

namespace Machine

variable {k : Machine} {m m' : Memory} {live : Set Chunk} {roots : Set TableAddr} {r : TableAddr}
  {pages : Vpn → Option LoadedPage} {c : RelaContext} {va : Word} {entries : List ElfRela}

/-- The relocations in front of the first whose word is not mapped. -/
def relaApplied (k : Machine) (m : Memory) (l4 : Word) (c : RelaContext)
    (entries : List ElfRela) : List ElfRela :=
  entries.takeWhile fun rel => k.elfUv2kv m l4 (c.target rel) ≠ 0

/-- The words are bound as the relocations say; everything else is the same. -/
structure RelaBound (k : Machine) (l4 : Word) (c : RelaContext) (entries : List ElfRela)
    (m m' : Memory) : Prop where
  space : k.spaceOf m' l4 = k.spaceOf m l4
  words : ∀ va, k.WordMapped m l4 va → m'.read64 (k.elfUv2kv m' l4 va) =
    (c.boundTo entries va).getD (m.read64 (k.elfUv2kv m l4 va))
  others : ∀ x, (∀ rel ∈ entries, x ∉ span (k.elfUv2kv m l4 (c.target rel)) 8) → m' x = m x

namespace LoadedPages

/-- A store to a mapped word leaves the space as it is. -/
theorem write_word (h : k.LoadedPages roots r pages m live) (hva : k.WordMapped m r.addr va)
    (value : Word) : k.LoadedPages roots r pages (m.write64 (loadedByte pages va) value) live ∧
      k.spaceOf (m.write64 (loadedByte pages va) value) r.addr = k.spaceOf m r.addr := by
  obtain ⟨p, hp, hnat, hspan⟩ := h.exists_slot hva
  have hpage := h.page _ _ hp
  have haligned := h.slot_aligned hva
  have hlt := (loadedByte pages va).isLt
  have heq : Set.EqOn (m.write64 (loadedByte pages va) value) m p.chunk.bytesᶜ :=
    (Memory.write64_eqOn m _ (by omega)).mono (Set.compl_subset_compl.mpr hspan)
  refine ⟨h.write hpage heq, ?_⟩
  funext page
  exact PageTables.translate_congr h.root (fun t ht => heq.mono fun x hx hxc =>
    Set.disjoint_left.mp (hpage.outside t ht) hx hxc) page.addr

/-- The places of the words that relocations bind, with their values. -/
def relaStores (pages : Vpn → Option LoadedPage) (c : RelaContext) (entries : List ElfRela) :
    List (Word × Word) :=
  (c.bindings entries).map fun w => (loadedByte pages w.1, w.2)

theorem relaStores_cons (rel : ElfRela) (entries : List ElfRela) :
    relaStores pages c (rel :: entries) =
      ((c.value rel).map fun value => (loadedByte pages (c.target rel), value)).toList ++
        relaStores pages c entries := by
  rw [relaStores, relaStores, RelaContext.bindings, RelaContext.bindings, List.filterMap_cons]
  cases c.value rel <;> rfl

/-- The relocations in front of the first whose word has no place. -/
def relaPlaced (pages : Vpn → Option LoadedPage) (c : RelaContext) (entries : List ElfRela) :
    List ElfRela :=
  entries.takeWhile fun rel => loadedByte pages (c.target rel) ≠ 0

theorem relaApplied_eq (h : k.LoadedPages roots r pages m live) (huser : c.InUserHalf entries) :
    k.relaApplied m r.addr c entries = relaPlaced pages c entries := by
  induction entries with
  | nil => rfl
  | cons rel entries ih =>
      rw [RelaContext.InUserHalf, List.forall_mem_cons] at huser
      rw [relaApplied, relaPlaced, List.takeWhile_cons, List.takeWhile_cons,
        h.elfUv2kv_byte huser.1.2]
      rw [relaApplied, relaPlaced] at ih
      rw [ih huser.2]

/-- The loop over the relocations. -/
theorem forEach_relaEntry (h : k.LoadedPages roots r pages m live)
    (huser : c.InUserHalf entries) :
    ∃ m', m' = m.storeWords (relaStores pages c (relaPlaced pages c entries)) ∧
      forEach (k.relaEntry r.addr c) entries m =
        (if relaPlaced pages c entries = entries then 0 else -2, m') ∧
      k.LoadedPages roots r pages m' live ∧ k.spaceOf m' r.addr = k.spaceOf m r.addr := by
  induction entries generalizing m with
  | nil => exact ⟨m, rfl, rfl, h, rfl⟩
  | cons rel entries ih =>
      rw [RelaContext.InUserHalf, List.forall_mem_cons] at huser
      obtain ⟨⟨haligned, hlow⟩, hrest⟩ := huser
      rw [forEach, relaEntry, h.elfUv2kv_byte hlow]
      by_cases hzero : loadedByte pages (c.target rel) = 0
      · have hnone : relaPlaced pages c (rel :: entries) = [] :=
          List.takeWhile_cons_of_neg (by simpa using hzero)
        rw [hnone]
        refine ⟨m, rfl, ?_, h, rfl⟩
        simp only [if_pos hzero, if_neg (List.cons_ne_nil rel entries).symm]
        rfl
      · have hcons : relaPlaced pages c (rel :: entries) = rel :: relaPlaced pages c entries :=
          List.takeWhile_cons_of_pos (by simpa using hzero)
        have hmapped : k.WordMapped m r.addr (c.target rel) :=
          ⟨haligned, hlow, by rw [h.elfUv2kv_byte hlow]; exact hzero⟩
        rw [hcons, relaStores_cons]
        simp only [if_neg hzero, List.cons.injEq, true_and]
        cases hvalue : c.value rel with
        | none => exact ih h hrest
        | some value =>
            obtain ⟨h₁, hspace₁⟩ := h.write_word hmapped value
            obtain ⟨m', hm', hrun, h', hspace'⟩ := ih h₁ hrest
            exact ⟨m', hm', hrun, h', hspace'.trans hspace₁⟩

/-- The words that are bound are mapped. -/
theorem placed_mapped (h : k.LoadedPages roots r pages m live) (huser : c.InUserHalf entries)
    {rel : ElfRela} (hrel : rel ∈ relaPlaced pages c entries) :
    k.WordMapped m r.addr (c.target rel) := by
  obtain ⟨haligned, hlow⟩ := huser rel (List.takeWhile_subset _ hrel)
  refine ⟨haligned, hlow, ?_⟩
  rw [relaPlaced] at hrel
  rw [h.elfUv2kv_byte hlow]
  simpa using List.mem_takeWhile_imp hrel

theorem mem_bindings {w : Word × Word} (hw : w ∈ c.bindings entries) :
    ∃ rel ∈ entries, c.target rel = w.1 := by
  obtain ⟨rel, hrel, hvalue⟩ := List.mem_filterMap.mp hw
  obtain ⟨value, -, rfl⟩ := Option.map_eq_some_iff.mp hvalue
  exact ⟨rel, hrel, rfl⟩

/-- A word is the value that it is bound to. -/
theorem lookup_relaStores (h : k.LoadedPages roots r pages m live)
    (hmapped : ∀ rel ∈ entries, k.WordMapped m r.addr (c.target rel))
    (hva : k.WordMapped m r.addr va) :
    (relaStores pages c entries).reverse.lookup (loadedByte pages va) = c.boundTo entries va := by
  rw [relaStores, ← List.map_reverse, RelaContext.boundTo]
  refine lookup_map_key fun w hw heq => ?_
  obtain ⟨rel, hrel, htarget⟩ := mem_bindings (List.mem_reverse.mp hw)
  have hword := hmapped rel hrel
  rw [htarget] at hword
  exact h.slot_injective hva hword heq

end LoadedPages

/-- `elf_apply_rela_table` of a loaded image, for a table in a file-backed segment: the relocations
in front of the first whose word is not mapped have bound their words, and the result says whether
these are all. -/
theorem elf_apply_rela_table_binds (h : k.LoadedPages roots r pages m live)
    {tableVaddr tableSize entsize table : Word}
    (htable : c.file.vaddrToFileptr tableVaddr tableSize = some table)
    (hentries : c.file.relaEntries table (tableSize / if entsize = 0 then 24 else entsize)
      (if entsize = 0 then 24 else entsize) = entries) (huser : c.InUserHalf entries) :
    (k.elfApplyRelaTable r.addr c tableVaddr tableSize entsize m).1 =
        (if k.relaApplied m r.addr c entries = entries then 0 else -2) ∧
      k.RelaBound r.addr c (k.relaApplied m r.addr c entries) m
        (k.elfApplyRelaTable r.addr c tableVaddr tableSize entsize m).2 := by
  obtain ⟨m', hm', hrun, h', hspace⟩ := h.forEach_relaEntry huser
  have hresult : k.elfApplyRelaTable r.addr c tableVaddr tableSize entsize m =
      (if LoadedPages.relaPlaced pages c entries = entries then 0 else -2, m') := by
    rw [elfApplyRelaTable]
    simp only [htable, hentries]
    exact hrun
  have hmapped (rel : ElfRela) (hrel : rel ∈ LoadedPages.relaPlaced pages c entries) :=
    h.placed_mapped huser hrel
  have halign : ∀ w ∈ LoadedPages.relaStores pages c (LoadedPages.relaPlaced pages c entries),
      w.1.toNat % 8 = 0 := by
    intro w hw
    obtain ⟨b, hb, rfl⟩ := List.mem_map.mp hw
    obtain ⟨rel, hrel, htarget⟩ := LoadedPages.mem_bindings hb
    rw [← htarget]
    exact h.slot_aligned (hmapped rel hrel)
  rw [hresult, h.relaApplied_eq huser]
  refine ⟨rfl, hspace, fun va hva => ?_, fun x hx => ?_⟩
  · rw [h'.elfUv2kv_byte hva.user, h.elfUv2kv_byte hva.user, hm',
      Memory.read64_storeWords halign (h.slot_aligned hva), h.lookup_relaStores hmapped hva]
  · rw [hm']
    refine Memory.storeWords_of_notMem fun w hw hreach => ?_
    obtain ⟨b, hb, rfl⟩ := List.mem_map.mp hw
    obtain ⟨rel, hrel, htarget⟩ := LoadedPages.mem_bindings hb
    have hnot := hx rel hrel
    have hslot := h.slot_aligned (hmapped rel hrel)
    have hlt := (loadedByte pages (c.target rel)).isLt
    rw [h.elfUv2kv_byte (hmapped rel hrel).user] at hnot
    rw [← htarget] at hreach
    exact hnot ((sub_toNat_lt_iff_mem_span (by omega)).mp hreach)

/-- To apply a table once more changes nothing, however the first time ended. -/
theorem elf_apply_rela_table_idem (h : k.LoadedPages roots r pages m live)
    (tableVaddr tableSize entsize : Word)
    (huser : ∀ table, c.file.vaddrToFileptr tableVaddr tableSize = some table →
      c.InUserHalf (c.file.relaEntries table (tableSize / if entsize = 0 then 24 else entsize)
        (if entsize = 0 then 24 else entsize))) :
    k.elfApplyRelaTable r.addr c tableVaddr tableSize entsize
        (k.elfApplyRelaTable r.addr c tableVaddr tableSize entsize m).2 =
      k.elfApplyRelaTable r.addr c tableVaddr tableSize entsize m := by
  rw [elfApplyRelaTable, elfApplyRelaTable]
  cases htable : c.file.vaddrToFileptr tableVaddr tableSize with
  | none => rfl
  | some table =>
      have hrelas := huser table htable
      simp only
      generalize c.file.relaEntries table _ _ = entries at hrelas ⊢
      obtain ⟨m', hm', hrun, h', -⟩ := h.forEach_relaEntry hrelas
      obtain ⟨m'', hm'', hrun', -, -⟩ := h'.forEach_relaEntry hrelas
      have hsame : m'' = m' := by
        rw [hm'', hm', Memory.storeWords_idem]
      rw [hrun, hrun', hsame]

/-! ### Symbols of other modules -/

/-- The last relocation for a word counts. -/
theorem boundTo_eq_some {before after : List ElfRela} {rel : ElfRela} {value : Word}
    (hvalue : c.value rel = some value) (hlast : ∀ rel' ∈ after, c.target rel' ≠ c.target rel) :
    c.boundTo (before ++ rel :: after) (c.target rel) = some value := by
  have hafter : (c.bindings after).reverse.lookup (c.target rel) = none := by
    rw [List.lookup_eq_none_iff]
    intro w hw
    obtain ⟨rel', hrel', htarget⟩ := LoadedPages.mem_bindings (List.mem_reverse.mp hw)
    rw [← htarget]
    exact bne_iff_ne.mpr (hlast rel' hrel').symm
  have hbindings : c.bindings (before ++ rel :: after) =
      c.bindings before ++ (c.target rel, value) :: c.bindings after := by
    rw [RelaContext.bindings, List.filterMap_append, List.filterMap_cons, hvalue]
    rfl
  rw [RelaContext.boundTo, hbindings, List.reverse_append, List.reverse_cons, List.append_assoc,
    List.lookup_append, hafter, Option.none_or, List.singleton_append, List.lookup_cons,
    beq_self_eq_true]

end Machine

/-- The relocation is for a word that is to hold the address of a symbol with the name `s` from
another module. -/
structure RelaContext.Imports (c : RelaContext) (rel : ElfRela) (s : List Byte) : Prop where
  type : rel.type = 6 ∨ rel.type = 7
  symtab : c.symtabVaddr ≠ 0
  symbol : ∃ sym name, c.file.symbol c.symtabVaddr rel.sym = some sym ∧ sym.shndx = 0 ∧
    c.file.symbolNameRaw c.strtabVaddr c.strtabSize sym.name = some name ∧
    Memory.HoldsText c.file.byte name s

theorem RelaContext.Imports.value_eq {c : RelaContext} {rel : ElfRela} {s : List Byte}
    (h : c.Imports rel s) {value : Word} : c.value rel = some value ↔ s.length < 512 ∧
      ∃ before mod after i, c.modules = before ++ mod :: after ∧ mod.Exports s i value ∧
        ∀ mod' ∈ before, ∀ j value', ¬ mod'.Exports s j value' := by
  obtain ⟨sym, name, hsym, hundef, hname, htext⟩ := h.symbol
  have hnot : rel.type ≠ 8 ∧ rel.type ≠ 1 := by
    rcases h.type with htype | htype <;> rw [htype] <;> decide
  rw [RelaContext.value, if_neg hnot.1, if_pos (Or.inr h.type), if_neg h.symtab, hsym,
    ← elfResolveExternalSymbol_eq_some c.modules htext]
  simp only [if_pos hundef, if_neg hnot.2, RelaContext.external, hname, Option.map_id']

namespace Machine

variable {k : Machine} {m : Memory} {live : Set Chunk} {roots : Set TableAddr} {r : TableAddr}
  {pages : Vpn → Option LoadedPage} {c : RelaContext}

/-- A word that is to hold the address of a symbol holds that of the first definition in the first
module that exports the name, where no later relocation names the word. -/
theorem elf_apply_rela_table_links (h : k.LoadedPages roots r pages m live)
    {tableVaddr tableSize entsize table : Word} (before : List ElfRela) (rel : ElfRela)
    (after : List ElfRela) {s : List Byte} {value : Word}
    (htable : c.file.vaddrToFileptr tableVaddr tableSize = some table)
    (hentries : c.file.relaEntries table (tableSize / if entsize = 0 then 24 else entsize)
      (if entsize = 0 then 24 else entsize) = before ++ rel :: after)
    (huser : c.InUserHalf (before ++ rel :: after))
    (hmapped : ∀ rel' ∈ before ++ [rel], k.elfUv2kv m r.addr (c.target rel') ≠ 0)
    (hlast : ∀ rel' ∈ after, c.target rel' ≠ c.target rel) (himports : c.Imports rel s)
    (hs : s.length < 512) (others : List ElfObject) {mod : ElfObject} {others' : List ElfObject}
    {i : ℕ} (hmodules : c.modules = others ++ mod :: others') (hexports : mod.Exports s i value)
    (hfirst : ∀ mod' ∈ others, ∀ j value', ¬ mod'.Exports s j value') :
    let m' := (k.elfApplyRelaTable r.addr c tableVaddr tableSize entsize m).2
    m'.read64 (k.elfUv2kv m' r.addr (c.target rel)) = value := by
  intro m'
  obtain ⟨-, hbound⟩ := elf_apply_rela_table_binds h htable hentries huser
  have hvalue : c.value rel = some value :=
    himports.value_eq.mpr ⟨hs, others, mod, others', i, hmodules, hexports, hfirst⟩
  have hrel := huser rel (List.mem_append_right _ List.mem_cons_self)
  have hword : k.WordMapped m r.addr (c.target rel) :=
    ⟨hrel.1, hrel.2, hmapped rel (List.mem_append_right _ List.mem_cons_self)⟩
  obtain ⟨rest, hsplit, hrest⟩ : ∃ rest,
      k.relaApplied m r.addr c (before ++ rel :: after) = before ++ rel :: rest ∧
        ∀ rel' ∈ rest, rel' ∈ after := by
    rw [List.forall_mem_append, List.forall_mem_singleton] at hmapped
    refine ⟨k.relaApplied m r.addr c after, ?_, fun rel' hrel' => List.takeWhile_subset _ hrel'⟩
    rw [relaApplied, List.takeWhile_append_of_pos fun rel' hrel' =>
      decide_eq_true (hmapped.1 rel' hrel')]
    exact congrArg (before ++ ·) (List.takeWhile_cons_of_pos (decide_eq_true hmapped.2))
  rw [hbound.words _ hword, hsplit,
    boundTo_eq_some hvalue fun rel' hrel' => hlast rel' (hrest rel' hrel'), Option.getD_some]

end Machine

/-- A position-independent image that asks for its own start and for the symbol `g`. -/
def sampleRela : ElfFile :=
  let file := ElfFile.ofList (sampleEhdr 1 ++ samplePhdr 6 0 240 ++ [0, 0x67, 0, 0, 0, 0, 0, 0] ++
    littleEndian 0 24 ++ littleEndian 1 24 ++
    littleEndian 224 8 ++ littleEndian 8 8 ++ littleEndian 0 8 ++
    littleEndian 232 8 ++ littleEndian 0x100000007 8 ++ littleEndian 0 8 ++ littleEndian 0 16)
  ⟨fun a => if a = 16 then 3 else file.byte a, file.size⟩

def sampleContext : RelaContext := ⟨sampleRela, 0x400000, 128, 120, 8, [sampleObject]⟩

def sampleRelas : List ElfRela := [⟨224, 8, 0⟩, ⟨232, 0x100000007, 0⟩]

theorem sampleRela_mapped : (sampleMachine .x86_64).relrMapped sampleRela sampleTable.addr 0x400000
    sampleSpace.2 [224, 232] = true := by
  decide +kernel

theorem sampleRela_confined : sampleRela.Confined (sampleRela.biasFor 0x400000) := by
  decide +kernel

theorem sampleRela_granted :
    (sampleMachine .x86_64).LoadGranted sampleRela sampleTable.addr 0x400000 sampleSpace.2 := by
  decide +kernel

theorem sampleRela_table : sampleContext.file.vaddrToFileptr 176 48 = some 176 := by
  decide +kernel

theorem sampleRela_entries : sampleContext.file.relaEntries 176
    (48 / if (24 : Word) = 0 then 24 else 24) (if (24 : Word) = 0 then 24 else 24) =
      sampleRelas := by
  decide +kernel

theorem sampleRelas_inUserHalf : sampleContext.InUserHalf sampleRelas := by
  decide

theorem sampleRela_imports : sampleContext.Imports ⟨232, 0x100000007, 0⟩ [0x67] where
  type := by decide
  symtab := by decide
  symbol := ⟨⟨1, 0, 0⟩, 121, by decide +kernel, rfl, by decide +kernel, by decide,
    by decide +kernel, (by decide +kernel : sampleRela.byte 122 = 0)⟩

/-- The image of the sample after a load that succeeds. -/
theorem Machine.sampleRela_loaded : ∃ result m' live roots pages,
    (sampleMachine .x86_64).elfLoad sampleRela sampleTable.addr 0x400000 sampleSpace.2 =
      .ok (result, m') ∧
    (sampleMachine .x86_64).LoadedPages roots sampleTable pages m' live ∧
    ∀ addr ∈ [224, 232],
      (sampleMachine .x86_64).WordMapped m' sampleTable.addr (0x400000 + addr) := by
  obtain ⟨c, hspace⟩ := sampleNewSpace
  obtain ⟨result, m', hload, hmapped⟩ := relrMapped_elim sampleRela_mapped
  obtain ⟨live', pages, hpages, -⟩ := elfLoad_shows
    (LoadedPages.of_empty hspace.tables (Set.mem_insert _ _) sampleTable_empty)
    sampleRela_confined sampleRela_granted hload
  exact ⟨result, m', live', _, pages, hload, hpages, hmapped⟩

/-- The table binds both words of the sample. -/
theorem Machine.elf_apply_rela_table_binds_sample : ∃ result m',
    (sampleMachine .x86_64).elfLoad sampleRela sampleTable.addr 0x400000 sampleSpace.2 =
      .ok (result, m') ∧
    (sampleMachine .x86_64).RelaBound sampleTable.addr sampleContext
      ((sampleMachine .x86_64).relaApplied m' sampleTable.addr sampleContext sampleRelas) m'
      ((sampleMachine .x86_64).elfApplyRelaTable sampleTable.addr sampleContext 176 48 24
        m').2 := by
  obtain ⟨result, m', live, roots, pages, hload, hpages, -⟩ := sampleRela_loaded
  exact ⟨result, m', hload,
    (elf_apply_rela_table_binds hpages sampleRela_table sampleRela_entries
      sampleRelas_inUserHalf).2⟩

/-- So does a second time. -/
theorem Machine.elf_apply_rela_table_idem_sample : ∃ result m',
    (sampleMachine .x86_64).elfLoad sampleRela sampleTable.addr 0x400000 sampleSpace.2 =
      .ok (result, m') ∧
    (sampleMachine .x86_64).elfApplyRelaTable sampleTable.addr sampleContext 176 48 24
        ((sampleMachine .x86_64).elfApplyRelaTable sampleTable.addr sampleContext 176 48 24 m').2 =
      (sampleMachine .x86_64).elfApplyRelaTable sampleTable.addr sampleContext 176 48 24 m' := by
  obtain ⟨result, m', live, roots, pages, hload, hpages, -⟩ := sampleRela_loaded
  refine ⟨result, m', hload, elf_apply_rela_table_idem hpages 176 48 24 fun table htable => ?_⟩
  obtain rfl := Option.some.inj (sampleRela_table.symm.trans htable)
  rw [sampleRela_entries]
  exact sampleRelas_inUserHalf

theorem Machine.elf_apply_rela_table_links_sample : ∃ result m',
    (sampleMachine .x86_64).elfLoad sampleRela sampleTable.addr 0x400000 sampleSpace.2 =
      .ok (result, m') ∧
    let m'' := ((sampleMachine .x86_64).elfApplyRelaTable sampleTable.addr sampleContext 176 48 24
      m').2
    m''.read64 ((sampleMachine .x86_64).elfUv2kv m'' sampleTable.addr 0x4000e8) = 0x400020 := by
  obtain ⟨result, m', live, roots, pages, hload, hpages, hmapped⟩ := sampleRela_loaded
  refine ⟨result, m', hload, elf_apply_rela_table_links hpages [⟨224, 8, 0⟩]
    ⟨232, 0x100000007, 0⟩ [] sampleRela_table sampleRela_entries sampleRelas_inUserHalf ?_
    (fun _ hmem => absurd hmem List.not_mem_nil) sampleRela_imports (by decide) [] rfl
    sampleObject_exports fun _ hmem => absurd hmem List.not_mem_nil⟩
  rw [List.forall_mem_append, List.forall_mem_singleton, List.forall_mem_singleton]
  exact ⟨(hmapped 224 List.mem_cons_self).mapped,
    (hmapped 232 (List.mem_cons_of_mem _ List.mem_cons_self)).mapped⟩

end Utopia
