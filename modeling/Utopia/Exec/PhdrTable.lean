/-
Where `elf_load` says the program headers lie in the memory of the process: `phdr_vaddr`, which
becomes `AT_PHDR`.
-/
import Utopia.Exec.ElfImage

namespace Utopia

namespace ElfFile

variable (file : ElfFile) (bias : Word)

/-- The bytes of the program header table. -/
def phdrTableSize : ℕ := file.ePhnum.toNat * file.ePhentsize.toNat

/-- The address of the table if `ph` holds it. -/
def phdrAddr (ph : ElfPhdr) : Word := bias + ph.vaddr + (file.ePhoff - ph.offset)

/-- The test of `elf_load` whether `ph` holds the table. -/
def SeemsToHold (ph : ElfPhdr) : Prop :=
  ph.offset ≤ file.ePhoff ∧ file.ePhoff - ph.offset ≤ ph.filesz

instance (ph : ElfPhdr) : Decidable (file.SeemsToHold ph) :=
  inferInstanceAs (Decidable (_ ∧ _))

/-- The `PT_LOAD` that `phdr_vaddr` is taken from. -/
def phdrSegment : Option ElfPhdr :=
  file.loads.find? fun ph => file.SeemsToHold ph ∧ file.phdrAddr bias ph ≠ 0

/-- The segments put the byte of the file at `off` at the user address `va`. -/
def PutsAt (va off : Word) : Prop :=
  va.toNat < 2 ^ 47 ∧ file.describedByte bias file.loads va = some (file.byte off)

/-- Each byte of the table lies in the file part and in the memory of the segment that
`phdr_vaddr` is taken from, or the segments happen to put the same byte at its address. -/
def PhdrTableLoaded : Prop :=
  ∀ ph ∈ file.phdrSegment bias, ∀ i < file.phdrTableSize,
    (file.ePhoff - ph.offset).toNat + i < min ph.filesz.toNat ph.memsz.toNat ∨
      file.PutsAt bias (file.phdrAddr bias ph + BitVec.ofNat 64 i)
        (file.ePhoff + BitVec.ofNat 64 i)

end ElfFile

/-- If there is an address of the program headers, the user finds them there. -/
def Machine.ShowsPhdrs (k : Machine) (m : Memory) (l4 : Word) (file : ElfFile)
    (phdrVaddr : Word) : Prop :=
  phdrVaddr ≠ 0 → ∀ i < file.phdrTableSize,
    (phdrVaddr + BitVec.ofNat 64 i).toNat < 2 ^ 47 ∧
      k.userByte m l4 (phdrVaddr + BitVec.ofNat 64 i) =
        some (file.byte (file.ePhoff + BitVec.ofNat 64 i))

variable {file : ElfFile} {bias va : Word} {ph : ElfPhdr}

/-- `phdr_vaddr` after a header that is no `PT_PHDR`. -/
def ElfFile.nextPhdrVaddr (file : ElfFile) (bias phdrVaddr : Word) (ph : ElfPhdr) : Word :=
  if phdrVaddr = 0 ∧ file.SeemsToHold ph then file.phdrAddr bias ph else phdrVaddr

/-- The loop takes the first address that is not 0. -/
theorem foldl_nextPhdrVaddr (loads : List ElfPhdr) (phdrVaddr : Word) :
    loads.foldl (file.nextPhdrVaddr bias) phdrVaddr =
      if phdrVaddr = 0 then
        ((loads.find? fun ph => file.SeemsToHold ph ∧ file.phdrAddr bias ph ≠ 0).map
          (file.phdrAddr bias)).getD 0
      else phdrVaddr := by
  induction loads generalizing phdrVaddr with
  | nil =>
      split_ifs with hzero
      · exact hzero
      · rfl
  | cons ph loads ih =>
      rw [List.foldl_cons, ih, ElfFile.nextPhdrVaddr, List.find?_cons]
      by_cases hzero : phdrVaddr = 0
      · by_cases hholds : file.SeemsToHold ph <;>
          by_cases haddr : file.phdrAddr bias ph = 0 <;>
            simp only [hzero, hholds, haddr, ne_eq, not_true_eq_false, not_false_eq_true, and_self,
              and_true, and_false, decide_true, decide_false, if_true, if_false, Option.map_some,
              Option.getD_some]
      · simp only [hzero, false_and, if_false]

namespace Machine

variable {k : Machine} {m m' : Memory} {live : Set Chunk} {roots : Set TableAddr} {r : TableAddr}
  {loadBias : Word} {result : ElfLoadResult} {s s' : ElfLoadState} {l4 : Word}

theorem loadHeader_phdrVaddr (hphdr : ph.type ≠ ptPhdr)
    (hok : k.loadHeader file l4 bias s ph = .ok s') :
    s'.phdrVaddr =
      if ph.type = ptLoad then file.nextPhdrVaddr bias s.phdrVaddr ph else s.phdrVaddr := by
  rw [loadHeader, if_neg hphdr] at hok
  by_cases hload : ph.type = ptLoad
  · obtain ⟨-, hdynamic, hinterp⟩ := ptLoad_only hload
    rw [if_neg hdynamic, if_neg hinterp, if_neg (not_not.mpr hload)] at hok
    rw [if_pos hload]
    split at hok
    · cases hok
    obtain ⟨m₁, -, hreturn⟩ := bind_eq_ok.mp hok
    obtain rfl := Except.ok.inj hreturn
    rfl
  · rw [if_neg hload]
    simp only [ne_eq, hload, not_false_eq_true, if_true] at hok
    split_ifs at hok <;>
      · obtain rfl := Except.ok.inj hok
        rfl

/-- `phdr_vaddr` of a load that succeeds. -/
theorem elfLoad_phdrVaddr (hphdr : ∀ ph ∈ file.phdrs, ph.type ≠ ptPhdr)
    (hok : k.elfLoad file l4 loadBias m = .ok (result, m')) :
    result.phdrVaddr =
      ((file.phdrSegment (file.biasFor loadBias)).map (file.phdrAddr (file.biasFor loadBias))).getD
        0 := by
  obtain ⟨s, hloop, -, hresult⟩ := elfLoad_ok hok
  have hfold := (foldAlways_of_forall (fun _ _ => trivial) file.phdrs _).refines
    (R := fun s phdrVaddr => s.phdrVaddr = phdrVaddr)
    (g := fun phdrVaddr ph => if ph.type = ptLoad then
      file.nextPhdrVaddr (file.biasFor loadBias) phdrVaddr ph else phdrVaddr)
    (fun s phdrVaddr ph s' hmem hs _ hround => by
      rw [loadHeader_phdrVaddr (hphdr ph hmem) hround, hs]) rfl hloop
  have hloads := @foldl_nextPhdrVaddr file (file.biasFor loadBias) file.loads 0
  rw [if_pos rfl, ElfFile.loads, List.foldl_filter] at hloads
  simp only [decide_eq_true_eq] at hloads
  rw [hresult, hfold]
  exact hloads

end Machine

/-- The segments put a byte of the table at its place when it lies in the file part and in the
memory of the segment that holds the table. -/
theorem ElfFile.putsAt_phdrAddr (hconfined : file.Confined bias)
    (hfits : ∀ ph ∈ file.loads, ph.Fits bias) (hdisjoint : SegmentsDisjoint bias file.loads)
    (hph : ph ∈ file.loads) {i : ℕ}
    (hi : (file.ePhoff - ph.offset).toNat + i < min ph.filesz.toNat ph.memsz.toNat) :
    file.PutsAt bias (file.phdrAddr bias ph + BitVec.ofNat 64 i)
      (file.ePhoff + BitVec.ofNat 64 i) := by
  have hseg := hfits ph hph
  have hstart := hseg.start_toNat
  have hsum := hseg
  rw [ElfPhdr.Fits] at hsum
  have hoff : (BitVec.ofNat 64 i).toNat = i := by
    rw [BitVec.toNat_ofNat]
    omega
  have haddr : (file.phdrAddr bias ph).toNat =
      (bias + ph.vaddr).toNat + (file.ePhoff - ph.offset).toNat := toNat_add_of_lt (by omega)
  have hva : (file.phdrAddr bias ph + BitVec.ofNat 64 i).toNat =
      (bias + ph.vaddr).toNat + ((file.ePhoff - ph.offset).toNat + i) := by
    rw [toNat_add_of_lt (by omega), haddr, hoff]
    omega
  have hbelow : (file.phdrAddr bias ph + BitVec.ofNat 64 i).toNat < 2 ^ 47 :=
    hseg.byte_below (hconfined ph hph) (by omega) (by omega)
  have hbyte : ph.HasByte bias (file.phdrAddr bias ph + BitVec.ofNat 64 i) :=
    hseg.hasByte_iff.mpr (by omega)
  have hcovers := hseg.covers_vpn hbelow (by omega) (by omega)
  have hsource : ph.fileOffset bias (file.phdrAddr bias ph + BitVec.ofNat 64 i) =
      file.ePhoff + BitVec.ofNat 64 i := by
    rw [ElfPhdr.fileOffset, ElfFile.phdrAddr]
    grind
  refine ⟨hbelow, ?_⟩
  rw [describedByte_file hdisjoint hfits hph hcovers hbyte, hsource]

namespace Machine

variable {k : Machine} {m m' : Memory} {live : Set Chunk} {roots : Set TableAddr} {r : TableAddr}
  {loadBias : Word} {result : ElfLoadResult}

/-- `AT_PHDR` points at the program headers exactly when the segments put the whole table where
`phdr_vaddr` looks for it. -/
theorem elfLoad_showsPhdrs_iff (htables : k.PageTables m live roots) (hr : r ∈ roots)
    (hempty : ∀ page : Vpn, page.User → k.spaceOf m r.addr page = none)
    (hconfined : file.Confined (file.biasFor loadBias))
    (hgranted : k.LoadGranted file r.addr loadBias m)
    (hok : k.elfLoad file r.addr loadBias m = .ok (result, m'))
    (hphdr : ∀ ph ∈ file.phdrs, ph.type ≠ ptPhdr)
    (hfits : ∀ ph ∈ file.loads, ph.Fits (file.biasFor loadBias))
    (hdisjoint : SegmentsDisjoint (file.biasFor loadBias) file.loads) :
    k.ShowsPhdrs m' r.addr file result.phdrVaddr ↔
      file.PhdrTableLoaded (file.biasFor loadBias) := by
  have hputs (va off : Word) : file.PutsAt (file.biasFor loadBias) va off ↔
      va.toNat < 2 ^ 47 ∧ k.userByte m' r.addr va = some (file.byte off) :=
    and_congr_right fun hva => by
      rw [elfLoad_userByte htables hr hempty hconfined hgranted hok hva]
  rw [ShowsPhdrs, ElfFile.PhdrTableLoaded, elfLoad_phdrVaddr hphdr hok]
  cases hseg : file.phdrSegment (file.biasFor loadBias) with
  | none => simp
  | some ph =>
      have hph := List.mem_of_find?_eq_some hseg
      obtain ⟨-, hne⟩ : file.SeemsToHold ph ∧ file.phdrAddr (file.biasFor loadBias) ph ≠ 0 := by
        simpa using List.find?_some hseg
      rw [Option.map_some, Option.getD_some]
      constructor
      · intro hshown ph' hph' i hi
        obtain rfl := Option.some.inj hph'
        exact Or.inr ((hputs _ _).mpr (hshown hne i hi))
      · intro hloaded _ i hi
        rw [← hputs]
        rcases hloaded ph rfl i hi with hinside | hsame
        · exact ElfFile.putsAt_phdrAddr hconfined hfits hdisjoint hph hinside
        · exact hsame

end Machine

/-! ### Images with one segment -/

/-- An image whose segment has the first `size` bytes of the file. -/
def sampleOneLoad (size : ℕ) : ElfFile := ElfFile.ofList (sampleEhdr 1 ++ samplePhdr 5 0x400000 size)

theorem segmentsDisjoint_single (bias : Word) (ph : ElfPhdr) : SegmentsDisjoint bias [ph] :=
  List.pairwise_singleton _ _

/-- The byte that the user finds at `phdr_vaddr` after a load that succeeds. -/
def Machine.phdrByteAfter (k : Machine) (file : ElfFile) (l4 loadBias : Word) (m : Memory) :
    Option (Word × Option Byte) :=
  (k.elfLoad file l4 loadBias m).toOption.map fun out =>
    (out.1.phdrVaddr, k.userByte out.2 l4 out.1.phdrVaddr)

theorem Machine.phdrByteAfter_eq_some {k : Machine} {l4 loadBias phdrVaddr : Word} {m : Memory}
    {b : Option Byte} (h : k.phdrByteAfter file l4 loadBias m = some (phdrVaddr, b)) :
    ∃ result m', k.elfLoad file l4 loadBias m = .ok (result, m') ∧
      result.phdrVaddr = phdrVaddr ∧ k.userByte m' l4 phdrVaddr = b := by
  rw [phdrByteAfter] at h
  generalize k.elfLoad file l4 loadBias m = loaded at *
  cases loaded with
  | error e => cases h
  | ok out =>
      have hpair := Option.some.inj h
      obtain rfl := congrArg Prod.fst hpair
      exact ⟨out.1, out.2, rfl, rfl, congrArg Prod.snd hpair⟩

/-- The file part ends where the table starts, and `phdr_vaddr` points behind it. -/
theorem sampleEdge_phdrByte : (sampleMachine .x86_64).phdrByteAfter (sampleOneLoad 64)
    sampleTable.addr 0 sampleSpace.2 = some (0x400040, some 0) := by
  decide +kernel

theorem sampleEdge_phdrs : (sampleOneLoad 64).phdrs = [⟨1, 5, 0, 0x400000, 64, 64⟩] := by
  decide +kernel

theorem sampleHeld_phdrByte : (sampleMachine .x86_64).phdrByteAfter (sampleOneLoad 120)
    sampleTable.addr 0 sampleSpace.2 = some (0x400040, some 1) := by
  decide +kernel

theorem sampleHeld_phdrs : (sampleOneLoad 120).phdrs = [⟨1, 5, 0, 0x400000, 120, 120⟩] := by
  decide +kernel

theorem sampleHeld_loaded :
    (sampleOneLoad 120).PhdrTableLoaded ((sampleOneLoad 120).biasFor 0) := by
  have hsegment : (sampleOneLoad 120).phdrSegment ((sampleOneLoad 120).biasFor 0) =
      some ⟨1, 5, 0, 0x400000, 120, 120⟩ := by decide +kernel
  have hsize : (sampleOneLoad 120).phdrTableSize = 56 := by decide +kernel
  have hoff : (sampleOneLoad 120).ePhoff - 0 = 64 := by decide +kernel
  intro ph hph i hi
  rw [hsegment] at hph
  obtain rfl := Option.some.inj hph
  rw [hsize] at hi
  left
  rw [hoff]
  simp only [BitVec.reduceToNat, Nat.min_self]
  omega

namespace Machine

/-- A segment that ends in front of the table. -/
theorem elfLoad_misses_phdrs : ∃ result m',
    (sampleMachine .x86_64).elfLoad (sampleOneLoad 64) sampleTable.addr 0 sampleSpace.2 =
      .ok (result, m') ∧
    (∀ ph ∈ (sampleOneLoad 64).phdrs, ph.type ≠ ptPhdr ∧ ph.Fits 0) ∧
    SegmentsDisjoint 0 (sampleOneLoad 64).loads ∧
    ¬ (sampleMachine .x86_64).ShowsPhdrs m' sampleTable.addr (sampleOneLoad 64)
      result.phdrVaddr := by
  obtain ⟨result, m', hok, haddr, hbyte⟩ := phdrByteAfter_eq_some sampleEdge_phdrByte
  refine ⟨result, m', hok, ?_, ?_, fun hshown => ?_⟩
  · rw [sampleEdge_phdrs]
    intro ph hph
    obtain rfl := List.mem_singleton.mp hph
    exact ⟨by decide, by decide⟩
  · rw [ElfFile.loads, sampleEdge_phdrs]
    exact segmentsDisjoint_single 0 _
  · rw [haddr] at hshown
    have hfirst := (hshown (by decide) 0 (by decide +kernel)).2
    have hplace : (0x400040 : Word) + BitVec.ofNat 64 0 = 0x400040 := by decide
    have htable : (sampleOneLoad 64).byte ((sampleOneLoad 64).ePhoff + BitVec.ofNat 64 0) = 1 := by
      decide +kernel
    rw [hplace, hbyte, htable] at hfirst
    cases hfirst

/-- A segment with the headers in it. -/
theorem elfLoad_showsPhdrs_iff_sample : ∃ result m',
    (sampleMachine .x86_64).elfLoad (sampleOneLoad 120) sampleTable.addr 0 sampleSpace.2 =
      .ok (result, m') ∧
    (sampleMachine .x86_64).ShowsPhdrs m' sampleTable.addr (sampleOneLoad 120)
      result.phdrVaddr := by
  obtain ⟨c, hspace⟩ := sampleNewSpace
  obtain ⟨result, m', hok, -, -⟩ := phdrByteAfter_eq_some sampleHeld_phdrByte
  have hbias : (sampleOneLoad 120).biasFor 0 = 0 := by decide +kernel
  have hconfined : (sampleOneLoad 120).Confined ((sampleOneLoad 120).biasFor 0) := by
    decide +kernel
  have hgranted : (sampleMachine .x86_64).LoadGranted (sampleOneLoad 120) sampleTable.addr 0
      sampleSpace.2 := by
    decide +kernel
  refine ⟨result, m', hok, (elfLoad_showsPhdrs_iff hspace.tables (Set.mem_insert _ _)
    sampleTable_empty hconfined hgranted hok ?_ ?_ ?_).mpr sampleHeld_loaded⟩
  · rw [sampleHeld_phdrs]
    intro ph hph
    obtain rfl := List.mem_singleton.mp hph
    decide
  · rw [hbias, ElfFile.loads, sampleHeld_phdrs]
    intro ph hph
    obtain rfl := List.mem_singleton.mp hph
    decide
  · rw [ElfFile.loads, sampleHeld_phdrs]
    exact segmentsDisjoint_single _ _

end Machine

end Utopia
