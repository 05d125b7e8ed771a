/-
The lookup of symbols by name in `exec/loaders/elf.c`: through the symbol table of a module, and
through the modules in their order.
-/
import Utopia.Exec.GnuHash
import Utopia.Lib.Texts

namespace Utopia

/-! ### The code -/

/-- The loop of `elf_streq`. -/
def elfStreqFrom (a b : ℕ → Byte) : (rounds : ℕ) → (i : ℕ) → Bool
  | 0, _ => false
  | rounds + 1, i =>
      if a i ≠ b i then false
      else if a i = 0 then true
      else elfStreqFrom a b rounds (i + 1)

/-- `elf_streq` of a text in one image and a text in another. -/
def elfStreq (file : ElfFile) (a : Word) (other : ElfFile) (b : Word) : Bool :=
  elfStreqFrom (fun i => file.byte (a + BitVec.ofNat 64 i))
    (fun i => other.byte (b + BitVec.ofNat 64 i)) 512 0

/-- `elf_symbol_name_raw`: the place of the name in the image. -/
def ElfFile.symbolNameRaw (file : ElfFile) (strtabVaddr strtabSize : Word) (stName : BitVec 32) :
    Option Word :=
  if strtabVaddr = 0 ∨ strtabSize ≤ stName.setWidth 64 then none
  else file.vaddrToFileptr (strtabVaddr + stName.setWidth 64) 1

/-- The fields of `elf64_sym_t` that the loader reads. -/
structure ElfSym where
  name : BitVec 32
  shndx : BitVec 16
  value : Word
deriving DecidableEq, Repr

/-- The symbol at an offset of the image. -/
def ElfFile.symAt (file : ElfFile) (off : Word) : ElfSym where
  name := file.u32 off
  shndx := file.u16 (off + 6)
  value := file.u64 (off + 8)

/-- The symbol with an index in the table at `symtabVaddr`. -/
def ElfFile.symbol (file : ElfFile) (symtabVaddr idx : Word) : Option ElfSym :=
  (file.vaddrToFileptr (symtabVaddr + idx * 24) 24).map file.symAt

/-- `elf_object_t`. -/
structure ElfObject where
  image : ElfFile
  loadBias : Word
  symtabVaddr : Word
  strtabVaddr : Word
  strtabSize : Word
  symCount : Word

namespace ElfObject

variable (mod : ElfObject)

/-- The loop of `elf_module_find_symbol`, for the name at `name` of another image. -/
def findSymbolFrom (other : ElfFile) (name : Word) : (rounds : ℕ) → (i : Word) → Option Word
  | 0, _ => none
  | rounds + 1, i =>
      match mod.image.symbol mod.symtabVaddr i with
      | none => none
      | some sym =>
          if sym.name = 0 ∨ sym.shndx = 0 then findSymbolFrom other name rounds (i + 1)
          else
            match mod.image.symbolNameRaw mod.strtabVaddr mod.strtabSize sym.name with
            | none => findSymbolFrom other name rounds (i + 1)
            | some cand =>
                if elfStreq mod.image cand other name then some (mod.loadBias + sym.value)
                else findSymbolFrom other name rounds (i + 1)

/-- `elf_module_find_symbol`. -/
def findSymbol (other : ElfFile) (name : Word) : Option Word :=
  if mod.symtabVaddr = 0 ∨ mod.strtabVaddr = 0 ∨ mod.symCount = 0 then none
  else mod.findSymbolFrom other name (mod.symCount.toNat - 1) 1

end ElfObject

/-- `elf_resolve_external_symbol`. -/
def elfResolveExternalSymbol (modules : List ElfObject) (other : ElfFile) (name : Word) :
    Option Word :=
  modules.findSome? fun mod => mod.findSymbol other name

/-! ### What a module exports -/

/-- The symbol `i` of the module is defined there, and has the name. -/
def ElfObject.Defines (mod : ElfObject) (i : ℕ) (s : List Byte) (value : Word) : Prop :=
  ∃ sym cand, mod.image.symbol mod.symtabVaddr (BitVec.ofNat 64 i) = some sym ∧ sym.name ≠ 0 ∧
    sym.shndx ≠ 0 ∧
    mod.image.symbolNameRaw mod.strtabVaddr mod.strtabSize sym.name = some cand ∧
    Memory.HoldsText mod.image.byte cand s ∧ mod.loadBias + sym.value = value

/-- The first symbol with the name that a module defines, among those in front of the first that
its image does not have. -/
structure ElfObject.Exports (mod : ElfObject) (s : List Byte) (i : ℕ) (value : Word) : Prop where
  tables : mod.symtabVaddr ≠ 0 ∧ mod.strtabVaddr ≠ 0
  pos : 0 < i
  lt : i < mod.symCount.toNat
  there : ∀ j, 0 < j → j < i → mod.image.symbol mod.symtabVaddr (BitVec.ofNat 64 j) ≠ none
  defines : mod.Defines i s value
  first : ∀ j, 0 < j → j < i → ∀ value', ¬ mod.Defines j s value'

/-! ### The comparison -/

section Compare

variable {a b : ℕ → Byte} {file other : ElfFile} {p q : Word} {s t : List Byte}

/-- The loop finds the same bytes up to a NUL. -/
theorem elfStreqFrom_iff {rounds i : ℕ} : elfStreqFrom a b rounds i = true ↔
    ∃ n < rounds, a (i + n) = 0 ∧ (∀ j < n, a (i + j) ≠ 0) ∧ ∀ j ≤ n, a (i + j) = b (i + j) := by
  induction rounds generalizing i with
  | zero =>
      rw [elfStreqFrom]
      refine iff_of_false Bool.false_ne_true ?_
      rintro ⟨n, hn, -⟩
      exact Nat.not_lt_zero n hn
  | succ rounds ih =>
      have hnext (n : ℕ) : i + 1 + n = i + (n + 1) := by omega
      rw [elfStreqFrom]
      split_ifs with hne hzero
      · refine iff_of_false not_false ?_
        rintro ⟨n, -, -, -, hsame⟩
        exact hne (hsame 0 (Nat.zero_le n))
      · refine iff_of_true rfl ⟨0, Nat.succ_pos _, hzero, fun j hj => absurd hj (Nat.not_lt_zero j),
          fun j hj => ?_⟩
        rw [Nat.le_zero.mp hj]
        exact not_not.mp hne
      · rw [ih]
        constructor
        · rintro ⟨n, hn, hend, hbefore, hsame⟩
          refine ⟨n + 1, Nat.succ_lt_succ hn, hnext n ▸ hend, fun j hj => ?_, fun j hj => ?_⟩
          · cases j with
            | zero => exact hzero
            | succ j => exact hnext j ▸ hbefore j (Nat.lt_of_succ_lt_succ hj)
          · cases j with
            | zero => exact not_not.mp hne
            | succ j => exact hnext j ▸ hsame j (Nat.le_of_succ_le_succ hj)
        · rintro ⟨n, hn, hend, hbefore, hsame⟩
          cases n with
          | zero => exact absurd hend hzero
          | succ n =>
              refine ⟨n, Nat.lt_of_succ_lt_succ hn, ?_, fun j hj => ?_, fun j hj => ?_⟩
              · rw [hnext]
                exact hend
              · rw [hnext]
                exact hbefore (j + 1) (Nat.succ_lt_succ hj)
              · rw [hnext]
                exact hsame (j + 1) (Nat.succ_le_succ hj)

/-- `elf_streq` compares texts; one that is too long equals none. -/
theorem elfStreq_iff (hq : Memory.HoldsText other.byte q t) :
    elfStreq file p other q = true ↔ t.length < 512 ∧ Memory.HoldsText file.byte p t := by
  have hbytes := Memory.holdsText_iff.mp hq
  have hinside (j : ℕ) (hj : j < t.length) : t.getD j 0 ≠ 0 := by
    intro hzero
    rw [List.getD_eq_getElem _ _ hj] at hzero
    exact hbytes.1 (hzero ▸ List.getElem_mem hj)
  have hend : t.getD t.length 0 = 0 := by
    rw [List.getD_eq_default _ _ le_rfl]
  rw [elfStreq, elfStreqFrom_iff, Memory.holdsText_iff]
  simp only [Nat.zero_add]
  constructor
  · rintro ⟨n, hn, hzero, hbefore, hsame⟩
    have hlength : n = t.length := by
      by_contra hne
      rcases Nat.lt_or_gt_of_ne hne with hless | hmore
      · have hbyte := hsame n le_rfl
        rw [hzero, hbytes.2 n hless.le] at hbyte
        exact hinside n hless hbyte.symm
      · have hbyte := hsame t.length hmore.le
        rw [hbytes.2 t.length le_rfl, hend] at hbyte
        exact hbefore t.length hmore hbyte
    subst hlength
    exact ⟨hn, hbytes.1, fun j hj => (hsame j hj).trans (hbytes.2 j hj)⟩
  · rintro ⟨hn, -, hfile⟩
    refine ⟨t.length, hn, (hfile t.length le_rfl).trans hend, fun j hj => ?_, fun j hj => ?_⟩
    · rw [hfile j hj.le]
      exact hinside j hj
    · rw [hfile j hj, hbytes.2 j hj]

end Compare

/-! ### The lookup -/

namespace ElfObject

variable {mod : ElfObject} {other : ElfFile} {name : Word} {s : List Byte} {value : Word}

/-- One round of the loop. -/
theorem findSymbolFrom_succ (mod : ElfObject) (hname : Memory.HoldsText other.byte name s)
    (hs : s.length < 512) (rounds i : ℕ) :
    (mod.image.symbol mod.symtabVaddr (BitVec.ofNat 64 i) = none ∧
        mod.findSymbolFrom other name (rounds + 1) (BitVec.ofNat 64 i) = none) ∨
      (∃ value, mod.Defines i s value ∧
        mod.findSymbolFrom other name (rounds + 1) (BitVec.ofNat 64 i) = some value) ∨
      (mod.image.symbol mod.symtabVaddr (BitVec.ofNat 64 i) ≠ none ∧
        (∀ value, ¬ mod.Defines i s value) ∧
        mod.findSymbolFrom other name (rounds + 1) (BitVec.ofNat 64 i) =
          mod.findSymbolFrom other name rounds (BitVec.ofNat 64 (i + 1))) := by
  rw [findSymbolFrom, BitVec.ofNat_add i 1]
  cases hsym : mod.image.symbol mod.symtabVaddr (BitVec.ofNat 64 i) with
  | none => exact Or.inl ⟨rfl, rfl⟩
  | some sym =>
      refine Or.inr ?_
      simp only
      split_ifs with hundef
      · refine Or.inr ⟨Option.some_ne_none _, ?_, rfl⟩
        rintro value ⟨sym', cand, hsym', hnamed, hdefined, -⟩
        obtain rfl := Option.some.inj (hsym.symm.trans hsym')
        exact hundef.elim hnamed hdefined
      · obtain ⟨hnamed, hdefined⟩ := not_or.mp hundef
        cases hcand : mod.image.symbolNameRaw mod.strtabVaddr mod.strtabSize sym.name with
        | none =>
            refine Or.inr ⟨Option.some_ne_none _, ?_, rfl⟩
            rintro value ⟨sym', cand, hsym', -, -, hcand', -⟩
            obtain rfl := Option.some.inj (hsym.symm.trans hsym')
            exact Option.some_ne_none _ (hcand'.symm.trans hcand)
        | some cand =>
            simp only
            split_ifs with hsame
            · have htext := ((elfStreq_iff hname).mp hsame).2
              exact Or.inl ⟨_, ⟨sym, cand, hsym, hnamed, hdefined, hcand, htext, rfl⟩, rfl⟩
            · refine Or.inr ⟨Option.some_ne_none _, ?_, rfl⟩
              rintro value ⟨sym', cand', hsym', -, -, hcand', htext, -⟩
              obtain rfl := Option.some.inj (hsym.symm.trans hsym')
              obtain rfl := Option.some.inj (hcand.symm.trans hcand')
              exact hsame ((elfStreq_iff hname).mpr ⟨hs, htext⟩)

theorem Defines.value_unique {i : ℕ} {value' : Word} (h : mod.Defines i s value)
    (h' : mod.Defines i s value') : value = value' := by
  obtain ⟨sym, -, hsym, -, -, -, -, rfl⟩ := h
  obtain ⟨sym', -, hsym', -, -, -, -, rfl⟩ := h'
  obtain rfl := Option.some.inj (hsym.symm.trans hsym')
  rfl

/-- The rest of the loop, from a symbol on. -/
theorem findSymbolFrom_eq_some (mod : ElfObject) (hname : Memory.HoldsText other.byte name s)
    (hs : s.length < 512) (value : Word) (rounds i : ℕ) :
    mod.findSymbolFrom other name rounds (BitVec.ofNat 64 i) = some value ↔
      ∃ n < rounds, mod.Defines (i + n) s value ∧ ∀ j < n,
        mod.image.symbol mod.symtabVaddr (BitVec.ofNat 64 (i + j)) ≠ none ∧
          ∀ value', ¬ mod.Defines (i + j) s value' := by
  induction rounds generalizing i with
  | zero =>
      refine iff_of_false (Option.some_ne_none _).symm ?_
      rintro ⟨n, hn, -⟩
      exact Nat.not_lt_zero n hn
  | succ rounds ih =>
      have hnext (n : ℕ) : i + 1 + n = i + (n + 1) := by omega
      have hround := findSymbolFrom_succ mod hname hs rounds i
      rcases hround with ⟨hsym, hfind⟩ | ⟨value', hdefines, hfind⟩ | ⟨hsym, hother, hfind⟩
      · rw [hfind]
        refine iff_of_false (Option.some_ne_none _).symm ?_
        rintro ⟨n, -, hdefines, hbefore⟩
        cases n with
        | zero =>
            obtain ⟨sym, -, hsome, -⟩ := hdefines
            exact Option.some_ne_none _ (hsome.symm.trans hsym)
        | succ n => exact (hbefore 0 (Nat.succ_pos n)).1 hsym
      · rw [hfind]
        constructor
        · rintro heq
          obtain rfl := Option.some.inj heq
          exact ⟨0, Nat.succ_pos _, hdefines, fun j hj => absurd hj (Nat.not_lt_zero j)⟩
        · rintro ⟨n, -, hdefines', hbefore⟩
          cases n with
          | zero => exact congrArg some (hdefines.value_unique hdefines')
          | succ n => exact absurd hdefines ((hbefore 0 (Nat.succ_pos n)).2 value')
      · rw [hfind, ih]
        constructor
        · rintro ⟨n, hn, hdefines, hbefore⟩
          refine ⟨n + 1, Nat.succ_lt_succ hn, hnext n ▸ hdefines, fun j hj => ?_⟩
          cases j with
          | zero => exact ⟨hsym, hother⟩
          | succ j => exact hnext j ▸ hbefore j (Nat.lt_of_succ_lt_succ hj)
        · rintro ⟨n, hn, hdefines, hbefore⟩
          cases n with
          | zero => exact absurd hdefines (hother value)
          | succ n =>
              refine ⟨n, Nat.lt_of_succ_lt_succ hn, (hnext n).symm ▸ hdefines, fun j hj => ?_⟩
              rw [hnext]
              exact hbefore (j + 1) (Nat.succ_lt_succ hj)

/-- A name that is too long is never found. -/
theorem findSymbolFrom_of_long (hname : Memory.HoldsText other.byte name s) (hs : 512 ≤ s.length)
    (rounds : ℕ) (i : Word) : mod.findSymbolFrom other name rounds i = none := by
  have hdiffers (cand : Word) : ¬ elfStreq mod.image cand other name = true := by
    rw [elfStreq_iff hname]
    exact fun h => absurd h.1 (not_lt.mpr hs)
  induction rounds generalizing i with
  | zero => rfl
  | succ rounds ih =>
      rw [findSymbolFrom]
      cases mod.image.symbol mod.symtabVaddr i with
      | none => rfl
      | some sym =>
          simp only [ih]
          split_ifs
          · rfl
          · cases mod.image.symbolNameRaw mod.strtabVaddr mod.strtabSize sym.name with
            | none => rfl
            | some cand => exact if_neg (hdiffers cand)

/-- `elf_module_find_symbol` finds what the module exports under the name. -/
theorem findSymbol_eq_some (mod : ElfObject) (hname : Memory.HoldsText other.byte name s)
    (value : Word) :
    mod.findSymbol other name = some value ↔ s.length < 512 ∧ ∃ i, mod.Exports s i value := by
  rw [findSymbol]
  by_cases htables : mod.symtabVaddr = 0 ∨ mod.strtabVaddr = 0 ∨ mod.symCount = 0
  · rw [if_pos htables]
    refine iff_of_false (Option.some_ne_none value).symm ?_
    rintro ⟨-, i, htables', -, hlt, -⟩
    rcases htables with hsymtab | hstrtab | hcount
    · exact htables'.1 hsymtab
    · exact htables'.2 hstrtab
    · rw [hcount] at hlt
      exact Nat.not_lt_zero i hlt
  · rw [if_neg htables]
    rw [not_or, not_or] at htables
    by_cases hs : s.length < 512
    · rw [show (1 : Word) = BitVec.ofNat 64 1 from rfl,
        findSymbolFrom_eq_some mod hname hs value (mod.symCount.toNat - 1) 1, and_iff_right hs]
      constructor
      · rintro ⟨n, hn, hdefines, hbefore⟩
        refine ⟨1 + n, ⟨htables.1, htables.2.1⟩, by omega, by omega, fun j hpos hlt => ?_, hdefines,
          fun j hpos hlt => ?_⟩
        · obtain ⟨j, rfl⟩ := Nat.exists_eq_add_of_le hpos
          exact (hbefore j (by omega)).1
        · obtain ⟨j, rfl⟩ := Nat.exists_eq_add_of_le hpos
          exact (hbefore j (by omega)).2
      · rintro ⟨i, -, hpos, hlt, hthere, hdefines, hfirst⟩
        obtain ⟨n, rfl⟩ := Nat.exists_eq_add_of_le hpos
        refine ⟨n, by omega, hdefines, fun j hj => ⟨hthere _ (by omega) (by omega), ?_⟩⟩
        exact hfirst _ (by omega) (by omega)
    · rw [findSymbolFrom_of_long hname (not_lt.mp hs)]
      exact iff_of_false (Option.some_ne_none value).symm fun h => hs h.1

end ElfObject

/-- `elf_resolve_external_symbol` finds the first symbol with the name in the first module that
exports one. -/
theorem elfResolveExternalSymbol_eq_some (modules : List ElfObject) {other : ElfFile}
    {name : Word} {s : List Byte} (hname : Memory.HoldsText other.byte name s) (value : Word) :
    elfResolveExternalSymbol modules other name = some value ↔ s.length < 512 ∧
      ∃ before mod after i, modules = before ++ mod :: after ∧ mod.Exports s i value ∧
        ∀ mod' ∈ before, ∀ j value', ¬ mod'.Exports s j value' := by
  have hfind (mod : ElfObject) := ElfObject.findSymbol_eq_some mod hname
  rw [elfResolveExternalSymbol, List.findSome?_eq_some_iff]
  constructor
  · rintro ⟨before, mod, after, hsplit, hfound, hbefore⟩
    obtain ⟨hs, i, hexports⟩ := (hfind mod value).mp hfound
    refine ⟨hs, before, mod, after, i, hsplit, hexports, fun mod' hmem j value' hexports' => ?_⟩
    have hfound' := (hfind mod' value').mpr ⟨hs, j, hexports'⟩
    exact Option.some_ne_none _ (hfound'.symm.trans (hbefore mod' hmem))
  · rintro ⟨hs, before, mod, after, i, hsplit, hexports, hbefore⟩
    refine ⟨before, mod, after, hsplit, (hfind mod value).mpr ⟨hs, i, hexports⟩, ?_⟩
    intro mod' hmem
    refine Option.eq_none_iff_forall_ne_some.mpr fun value' hfound' => ?_
    obtain ⟨-, j, hexports'⟩ := (hfind mod' value').mp hfound'
    exact hbefore mod' hmem j value' hexports'

/-- An image with the texts `f` and `g`, and a symbol for each, of which only `g` is defined. -/
def sampleSymbolFile : ElfFile :=
  ElfFile.ofList (sampleEhdr 1 ++ samplePhdr 4 0 200 ++ [0, 0x66, 0, 0x67, 0, 0, 0, 0] ++
    littleEndian 0 24 ++
    littleEndian 1 4 ++ littleEndian 0 4 ++ littleEndian 0 8 ++ littleEndian 0 8 ++
    littleEndian 3 4 ++ littleEndian 0x10000 4 ++ littleEndian 0x20 8 ++ littleEndian 0 8)

def sampleObject : ElfObject := ⟨sampleSymbolFile, 0x400000, 128, 120, 8, 3⟩

theorem sampleSymbolFile_holds : Memory.HoldsText sampleSymbolFile.byte 123 [0x67] :=
  ⟨by decide, by decide +kernel, (by decide +kernel : sampleSymbolFile.byte 124 = 0)⟩

theorem sampleObject_exports : sampleObject.Exports [0x67] 2 0x400020 where
  tables := by decide
  pos := by decide
  lt := by decide
  there j hpos hlt := by
    obtain rfl : j = 1 := by omega
    decide +kernel
  defines := ⟨⟨3, 1, 0x20⟩, 123, by decide +kernel, by decide, by decide, by decide +kernel,
    sampleSymbolFile_holds, by decide⟩
  first j hpos hlt value' := by
    obtain rfl : j = 1 := by omega
    rintro ⟨sym, cand, hsym, -, hdefined, -⟩
    have hundef : sampleSymbolFile.symbol 128 1 = some ⟨1, 0, 0⟩ := by decide +kernel
    obtain rfl := Option.some.inj (hundef.symm.trans hsym)
    exact hdefined rfl

theorem elfResolveExternalSymbol_eq_some_sample :
    elfResolveExternalSymbol [sampleObject] sampleSymbolFile 123 = some 0x400020 :=
  (elfResolveExternalSymbol_eq_some [sampleObject] sampleSymbolFile_holds 0x400020).mpr
    ⟨by decide, [], sampleObject, [], 2, rfl, sampleObject_exports,
      fun _ hmem => absurd hmem List.not_mem_nil⟩

end Utopia
