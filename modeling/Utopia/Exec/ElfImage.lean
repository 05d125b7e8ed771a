/-
The bytes of a loaded image, address by address, as the `PT_LOAD` headers describe them.
-/
import Mathlib.Data.List.Pairwise
import Utopia.Exec.BrkRun
import Utopia.Exec.ElfRights

namespace Utopia

/-- The last of the segments that has a byte of the file for the address and comes to its page. -/
def lastWriter (bias : Word) (loads : List ElfPhdr) (va : Word) : Option ElfPhdr :=
  loads.reverse.find? fun ph => ph.Covers bias (vpn va) ∧ ph.HasByte bias va

/-- What the segments put at a user address: nothing where none of them comes to the page, and
zero where the page has no byte of the file. -/
def ElfFile.describedByte (file : ElfFile) (bias : Word) (loads : List ElfPhdr) (va : Word) :
    Option Byte :=
  if ∃ ph ∈ loads, ph.Covers bias (vpn va) then
    some (((lastWriter bias loads va).map fun ph => file.byte (ph.fileOffset bias va)).getD 0)
  else none

variable {file : ElfFile} {bias va : Word} {loads : List ElfPhdr} {ph : ElfPhdr}

theorem lastWriter_concat (loads : List ElfPhdr) (ph : ElfPhdr) :
    lastWriter bias (loads ++ [ph]) va =
      if ph.Covers bias (vpn va) ∧ ph.HasByte bias va then some ph
      else lastWriter bias loads va := by
  rw [lastWriter, List.reverse_concat, List.find?_cons]
  split_ifs with h
  · simp [h]
  · simp [h, lastWriter]

/-- An address of the lower half is its page and its offset. -/
theorem vpn_addr_add (hva : va.toNat < 2 ^ 48) :
    (vpn va).addr + (va.setWidth 12).setWidth 64 = va := by
  apply BitVec.eq_of_toNat_eq
  rw [Vpn.addr_add_toNat, Vpn.addr_toNat, vpn_toNat, BitVec.toNat_setWidth]
  omega

theorem lastWriter_mem (h : lastWriter bias loads va = some ph) :
    ph ∈ loads ∧ ph.Covers bias (vpn va) ∧ ph.HasByte bias va := by
  have hmem := List.mem_reverse.mp (List.mem_of_find?_eq_some h)
  have hwrites := List.find?_some h
  exact ⟨hmem, by simpa using hwrites⟩

theorem ElfFile.describedByte_getD : (file.describedByte bias loads va).getD 0 =
    ((lastWriter bias loads va).map fun ph => file.byte (ph.fileOffset bias va)).getD 0 := by
  rw [describedByte]
  split_ifs with hcovered
  · rfl
  · cases hlast : lastWriter bias loads va with
    | none => rfl
    | some ph =>
        obtain ⟨hmem, hcovers, -⟩ := lastWriter_mem hlast
        exact absurd ⟨ph, hmem, hcovers⟩ hcovered

/-- The image of the loads, read at an address. -/
theorem UserImage.ofLoads_byte (hva : va.toNat < 2 ^ 48)
    (hconfined : ∀ ph ∈ loads, ∀ pageVa ∈ ph.pages bias, pageVa.toNat < 2 ^ 47) :
    ((ofLoads file bias loads).1 (vpn va)).map (fun p => p.bytes (va.setWidth 12)) =
      file.describedByte bias loads va := by
  induction loads using List.reverseRecOn with
  | nil => rfl
  | append_singleton loads ph ih =>
      have hph := hconfined ph (by simp)
      have hrest := ih fun ph' hph' => hconfined ph' (List.mem_append_left [ph] hph')
      have hsome := @ofLoads_isSome file bias (vpn va) loads
        fun ph' hph' => hconfined ph' (List.mem_append_left [ph] hph')
      rw [ofLoads_concat_apply hph, ElfFile.describedByte, lastWriter_concat]
      by_cases hcovers : ph.Covers bias (vpn va)
      · rw [if_pos hcovers, if_pos ⟨ph, by simp, hcovers⟩, Option.map_some, nextPage]
        simp only [vpn_addr_add hva, hcovers, true_and]
        split_ifs with hbyte
        · rfl
        · rw [← ElfFile.describedByte_getD, ← hrest]
          cases (ofLoads file bias loads).1 (vpn va) <;> rfl
      · rw [if_neg hcovers, hrest, ElfFile.describedByte]
        simp [hcovers]

namespace Machine

variable {k : Machine} {m m' : Memory} {live : Set Chunk} {roots : Set TableAddr} {r : TableAddr}
  {loadBias : Word} {result : ElfLoadResult}

/-- A byte of the user half, read as a byte of its page. -/
theorem userByte_eq_image (m : Memory) (l4 : TableAddr) (va : Word) : k.userByte m l4.addr va =
    (k.userImage m l4.addr (vpn va)).map fun p => p.bytes (va.setWidth 12) := by
  have hoffset : va &&& 4095 = (va.setWidth 12).setWidth 64 := by
    apply BitVec.eq_of_toNat_eq
    have hlow : (va &&& 4095).toNat = va.toNat % 4096 := toNat_and_span va (Nat.zero_le 3)
    rw [hlow, BitVec.toNat_setWidth, BitVec.toNat_setWidth]
    omega
  rw [userByte, translate_eq_spaceOf, userImage]
  cases k.spaceOf m l4.addr (vpn va) with
  | none => rfl
  | some x => simp only [Option.map_some, physToVirt, ← BitVec.add_assoc, hoffset]

/-- A load that succeeds puts the described bytes into an empty user half. -/
theorem elfLoad_userByte (htables : k.PageTables m live roots) (hr : r ∈ roots)
    (hempty : ∀ page : Vpn, page.User → k.spaceOf m r.addr page = none)
    (hconfined : file.Confined (file.biasFor loadBias))
    (hgranted : k.LoadGranted file r.addr loadBias m)
    (hok : k.elfLoad file r.addr loadBias m = .ok (result, m')) (hva : va.toNat < 2 ^ 47) :
    k.userByte m' r.addr va = file.describedByte (file.biasFor loadBias) file.loads va := by
  obtain ⟨live', pages, hpages, himage⟩ :=
    elfLoad_shows (LoadedPages.of_empty htables hr hempty) hconfined hgranted hok
  rw [userByte_eq_image, himage (vpn va) (user_vpn.mpr (not_kernelIndex_of_lt hva)),
    UserImage.ofLoads_byte (by omega) hconfined]

end Machine

/-! ### Segments that do not overlap -/

namespace ElfPhdr

/-- The addresses that a segment takes up in memory. -/
def extent (ph : ElfPhdr) (bias : Word) : Set Word :=
  { va | (bias + ph.vaddr).toNat ≤ va.toNat ∧
    va.toNat < (bias + ph.vaddr).toNat + max ph.memsz.toNat ph.filesz.toNat }

/-- No sum of the loader wraps around. -/
def Fits (ph : ElfPhdr) (bias : Word) : Prop :=
  bias.toNat + ph.vaddr.toNat + max ph.memsz.toNat ph.filesz.toNat + 4095 < 2 ^ 64

instance (ph : ElfPhdr) (bias : Word) : Decidable (ph.Fits bias) :=
  inferInstanceAs (Decidable (_ < _))

variable {page : Vpn} (hfits : ph.Fits bias)
include hfits

theorem Fits.start_toNat : (bias + ph.vaddr).toNat = bias.toNat + ph.vaddr.toNat := by
  rw [Fits] at hfits
  exact toNat_add_of_lt (by omega)

theorem Fits.hasByte_iff : ph.HasByte bias va ↔ (bias + ph.vaddr).toNat ≤ va.toNat ∧
    va.toNat < (bias + ph.vaddr).toNat + ph.filesz.toNat := by
  have hstart := hfits.start_toNat
  rw [Fits] at hfits
  rw [HasByte, BitVec.le_def, BitVec.lt_def,
    toNat_add_of_lt (a := bias + ph.vaddr) (b := ph.filesz) (by omega)]

theorem Fits.segEnd_eq : (ph.segEnd bias).toNat =
    ((bias + ph.vaddr).toNat + ph.memsz.toNat + 4095) / 4096 * 4096 := by
  have hstart := hfits.start_toNat
  rw [Fits] at hfits
  have hpad : (0xFFF : Word).toNat = 4095 := rfl
  have hmem : (bias + ph.vaddr + ph.memsz).toNat = (bias + ph.vaddr).toNat + ph.memsz.toNat :=
    toNat_add_of_lt (by omega)
  rw [segEnd_toNat, toNat_add_of_lt (by omega), hmem, hpad]
  rfl

theorem Fits.covers_iff : ph.Covers bias page ↔ (bias + ph.vaddr).toNat / 4096 ≤ page.toNat ∧
    page.toNat < ((bias + ph.vaddr).toNat + ph.memsz.toNat + 4095) / 4096 := by
  rw [Covers, BitVec.le_def, BitVec.lt_def, segStart_toNat, hfits.segEnd_eq, Vpn.addr_toNat]
  omega

/-- If no page of the segment lies above the user half, no byte does. -/
theorem Fits.byte_below (hconfined : ∀ pageVa ∈ ph.pages bias, pageVa.toNat < 2 ^ 47)
    (hlow : (bias + ph.vaddr).toNat ≤ va.toNat)
    (hhigh : va.toNat < (bias + ph.vaddr).toNat + ph.memsz.toNat) : va.toNat < 2 ^ 47 := by
  have hlt := va.isLt
  have hpage : (BitVec.ofNat 64 (va.toNat / 4096 * 4096)).toNat = va.toNat / 4096 * 4096 := by
    rw [BitVec.toNat_ofNat]
    omega
  have hmem : BitVec.ofNat 64 (va.toNat / 4096 * 4096) ∈ ph.pages bias := by
    rw [mem_pages, BitVec.le_def, BitVec.lt_def, segStart_toNat, hfits.segEnd_eq, hpage]
    omega
  have hbelow := hconfined _ hmem
  rw [hpage] at hbelow
  omega

/-- The loader comes to the page of each byte in memory. -/
theorem Fits.covers_vpn (hva : va.toNat < 2 ^ 47) (hlow : (bias + ph.vaddr).toNat ≤ va.toNat)
    (hhigh : va.toNat < (bias + ph.vaddr).toNat + ph.memsz.toNat) : ph.Covers bias (vpn va) := by
  rw [hfits.covers_iff, vpn_toNat]
  omega

end ElfPhdr

/-- No two segments take up the same address. -/
def SegmentsDisjoint (bias : Word) (loads : List ElfPhdr) : Prop :=
  loads.Pairwise fun a b => Disjoint (a.extent bias) (b.extent bias)

theorem SegmentsDisjoint.eq (h : SegmentsDisjoint bias loads) {a b : ElfPhdr} (ha : a ∈ loads)
    (hb : b ∈ loads) (hva : va ∈ a.extent bias) (hvb : va ∈ b.extent bias) : a = b := by
  by_contra hne
  have : Std.Symm fun a b : ElfPhdr => Disjoint (a.extent bias) (b.extent bias) :=
    ⟨fun _ _ hdisjoint => hdisjoint.symm⟩
  have hdisjoint := List.Pairwise.forall h ha hb hne
  exact Set.disjoint_left.mp hdisjoint hva hvb

/-- Where no other segment interferes, a byte of the file part comes from the file. -/
theorem describedByte_file (h : SegmentsDisjoint bias loads) (hfits : ∀ ph ∈ loads, ph.Fits bias)
    (hph : ph ∈ loads) (hcovers : ph.Covers bias (vpn va)) (hbyte : ph.HasByte bias va) :
    file.describedByte bias loads va = some (file.byte (ph.fileOffset bias va)) := by
  have hlast : lastWriter bias loads va = some ph := by
    cases hfound : lastWriter bias loads va with
    | none =>
        have hnone := List.find?_eq_none.mp hfound ph (List.mem_reverse.mpr hph)
        have hnot : ¬ (ph.Covers bias (vpn va) ∧ ph.HasByte bias va) := by simpa using hnone
        exact absurd ⟨hcovers, hbyte⟩ hnot
    | some other =>
        obtain ⟨hmem, -, hbyte'⟩ := lastWriter_mem hfound
        rw [(hfits ph hph).hasByte_iff] at hbyte
        rw [(hfits other hmem).hasByte_iff] at hbyte'
        exact congrArg some (h.eq hmem hph ⟨hbyte'.1, by omega⟩ ⟨hbyte.1, by omega⟩)
  rw [ElfFile.describedByte, if_pos ⟨ph, hph, hcovers⟩, hlast]
  rfl

/-- Behind its file part a segment is zero. -/
theorem describedByte_zero (h : SegmentsDisjoint bias loads) (hfits : ∀ ph ∈ loads, ph.Fits bias)
    (hph : ph ∈ loads) (hcovers : ph.Covers bias (vpn va)) (hva : va ∈ ph.extent bias)
    (hbyte : ¬ ph.HasByte bias va) : file.describedByte bias loads va = some 0 := by
  have hlast : lastWriter bias loads va = none := by
    cases hfound : lastWriter bias loads va with
    | none => rfl
    | some other =>
        obtain ⟨hmem, -, hbyte'⟩ := lastWriter_mem hfound
        have hother := (hfits other hmem).hasByte_iff.mp hbyte'
        obtain rfl := h.eq hmem hph ⟨hother.1, by omega⟩ hva
        exact absurd hbyte' hbyte
  rw [ElfFile.describedByte, if_pos ⟨ph, hph, hcovers⟩, hlast]
  rfl

/-- Segments one behind the other. -/
theorem segmentsDisjoint_of_ordered (h : loads.Pairwise fun a b =>
    (bias + a.vaddr).toNat + max a.memsz.toNat a.filesz.toNat ≤ (bias + b.vaddr).toNat) :
    SegmentsDisjoint bias loads := by
  refine h.imp fun {a b} hle => Set.disjoint_left.mpr fun va hva hvb => ?_
  have hend := hva.2
  have hstart := hvb.1
  omega

/-! ### The image that the headers describe -/

/-- The segments lie in the user half, one beside the other, with their file parts inside. -/
structure ElfFile.WellLaid (file : ElfFile) (bias : Word) : Prop where
  sizes : ∀ ph ∈ file.loads, ph.filesz.toNat ≤ ph.memsz.toNat
  below : ∀ ph ∈ file.loads, bias.toNat + ph.vaddr.toNat + ph.memsz.toNat ≤ 2 ^ 47
  disjoint : SegmentsDisjoint bias file.loads

/-- The user half is the image: data, zeros behind the data, and no other page. -/
structure Machine.BuildsImage (k : Machine) (m : Memory) (l4 : Word) (file : ElfFile)
    (bias : Word) : Prop where
  data : ∀ ph ∈ file.loads, ∀ i < ph.filesz.toNat,
    k.userByte m l4 (bias + ph.vaddr + BitVec.ofNat 64 i) =
      some (file.byte (ph.offset + BitVec.ofNat 64 i))
  zeros : ∀ ph ∈ file.loads, ∀ i, ph.filesz.toNat ≤ i → i < ph.memsz.toNat →
    k.userByte m l4 (bias + ph.vaddr + BitVec.ofNat 64 i) = some 0
  pages : ∀ page : Vpn, page.User → ((k.spaceOf m l4 page).isSome ↔
    ∃ ph ∈ file.loads, (bias.toNat + ph.vaddr.toNat) / 4096 ≤ page.toNat ∧
      page.toNat < (bias.toNat + ph.vaddr.toNat + ph.memsz.toNat + 4095) / 4096)

namespace ElfFile.WellLaid

theorem fits (h : file.WellLaid bias) (hph : ph ∈ file.loads) : ph.Fits bias := by
  have hsize := h.sizes ph hph
  have hbelow := h.below ph hph
  rw [ElfPhdr.Fits]
  omega

theorem confined (h : file.WellLaid bias) : file.Confined bias := by
  intro ph hph pageVa hpage
  have hfits := h.fits hph
  have hstart := hfits.start_toNat
  have hbelow := h.below ph hph
  obtain ⟨-, -, hlt⟩ := ElfPhdr.mem_pages.mp hpage
  rw [BitVec.lt_def, hfits.segEnd_eq] at hlt
  omega

/-- Byte `i` of a segment, at its address. -/
theorem describedByte_eq (h : file.WellLaid bias) (hph : ph ∈ file.loads) {i : ℕ}
    (hi : i < ph.memsz.toNat) : (bias + ph.vaddr + BitVec.ofNat 64 i).toNat < 2 ^ 47 ∧
      file.describedByte bias file.loads (bias + ph.vaddr + BitVec.ofNat 64 i) =
        some (if i < ph.filesz.toNat then file.byte (ph.offset + BitVec.ofNat 64 i) else 0) := by
  have hseg := h.fits hph
  have hstart := hseg.start_toNat
  have hbelow := h.below ph hph
  have hoff : (BitVec.ofNat 64 i).toNat = i := by
    rw [BitVec.toNat_ofNat]
    omega
  have hsource : ph.fileOffset bias (bias + ph.vaddr + BitVec.ofNat 64 i) =
      ph.offset + BitVec.ofNat 64 i := by
    rw [ElfPhdr.fileOffset]
    grind
  have hva : (bias + ph.vaddr + BitVec.ofNat 64 i).toNat = (bias + ph.vaddr).toNat + i := by
    rw [toNat_add_of_lt (by omega), hoff]
  generalize bias + ph.vaddr + BitVec.ofNat 64 i = va at *
  have hcovers : ph.Covers bias (vpn va) := hseg.covers_vpn (by omega) (by omega) (by omega)
  refine ⟨by omega, ?_⟩
  split_ifs with hfile
  · have hbyte : ph.HasByte bias va := hseg.hasByte_iff.mpr (by omega)
    rw [describedByte_file h.disjoint (fun ph hph => h.fits hph) hph hcovers hbyte, hsource]
  · have hbyte : ¬ ph.HasByte bias va := by
      rw [hseg.hasByte_iff]
      omega
    exact describedByte_zero h.disjoint (fun ph hph => h.fits hph) hph hcovers
      ⟨by omega, by omega⟩ hbyte

end ElfFile.WellLaid

namespace Machine

variable {k : Machine} {m m' : Memory} {live : Set Chunk} {roots : Set TableAddr} {r : TableAddr}
  {loadBias : Word} {result : ElfLoadResult}

/-- A load that is granted its pages builds the image. -/
theorem elfLoad_builds (htables : k.PageTables m live roots) (hr : r ∈ roots)
    (hempty : ∀ page : Vpn, page.User → k.spaceOf m r.addr page = none)
    (hlaid : file.WellLaid (file.biasFor loadBias))
    (hgranted : k.LoadGranted file r.addr loadBias m)
    (hok : k.elfLoad file r.addr loadBias m = .ok (result, m')) :
    k.BuildsImage m' r.addr file (file.biasFor loadBias) := by
  have hbyte {va : Word} (hva : va.toNat < 2 ^ 47) :=
    elfLoad_userByte htables hr hempty hlaid.confined hgranted hok hva
  refine ⟨fun ph hph i hi => ?_, fun ph hph i hlow hi => ?_, fun page huser => ?_⟩
  · have hsize := hlaid.sizes ph hph
    obtain ⟨hbelow, hdescribed⟩ := hlaid.describedByte_eq hph (show i < ph.memsz.toNat by omega)
    rw [hbyte hbelow, hdescribed, if_pos hi]
  · obtain ⟨hbelow, hdescribed⟩ := hlaid.describedByte_eq hph hi
    rw [hbyte hbelow, hdescribed, if_neg (by omega)]
  · obtain ⟨live', pages, hpages, himage⟩ := elfLoad_shows
      (LoadedPages.of_empty htables hr hempty) hlaid.confined hgranted hok
    have hsome : (k.userImage m' r.addr page).isSome = (k.spaceOf m' r.addr page).isSome :=
      Option.isSome_map
    rw [← hsome, himage page huser, UserImage.ofLoads_isSome hlaid.confined]
    refine exists_congr fun ph => and_congr_right fun hph => ?_
    rw [(hlaid.fits hph).covers_iff, (hlaid.fits hph).start_toNat]

end Machine

/-! ### More segments than the heap has pages for -/

/-- Three segments, each on a page of its own. -/
def sampleSpread : ElfFile :=
  ElfFile.ofList (sampleEhdr 3 ++ samplePhdr 6 0x400000 16 ++ samplePhdr 6 0x401000 16 ++
    samplePhdr 6 0x402100 16)

theorem sampleSpread_loads : sampleSpread.loads = [⟨1, 6, 0, 0x400000, 16, 16⟩,
    ⟨1, 6, 0, 0x401000, 16, 16⟩, ⟨1, 6, 0, 0x402100, 16, 16⟩] := by
  decide +kernel

theorem sampleSpread_wellLaid : sampleSpread.WellLaid (sampleSpread.biasFor 0) := by
  have hbias : sampleSpread.biasFor 0 = 0 := by decide +kernel
  rw [hbias]
  refine ⟨?_, ?_, segmentsDisjoint_of_ordered ?_⟩ <;> rw [sampleSpread_loads] <;> decide

/-- The fresh space of the sample, with room for one page and its tables in the heap. -/
def sampleTight : Memory := ((sampleMachine .x86_64).alloc.malloc sampleSpace.2 0x6800).2

theorem sampleTight_empty (page : Vpn) (huser : page.User) :
    (sampleMachine .x86_64).spaceOf sampleTight sampleTable.addr page = none := by
  obtain ⟨c, hspace⟩ := sampleNewSpace
  have hkept : Set.EqOn sampleTight sampleSpace.2
      ((sampleMachine .x86_64).alloc.kept (insert c ∅)) := by
    rcases (sampleMachine .x86_64).alloc.malloc_spec (n := 0x6800) hspace.tables.heap (by decide)
      with hnull | ⟨d, m', hresult, -, -, -, hkept⟩
    · rw [sampleTight, hnull]
      exact Set.eqOn_refl _ _
    · rw [sampleTight, hresult]
      exact hkept
  rw [← sampleTable_empty page huser]
  exact Machine.PageTables.translate_congr (Set.mem_insert _ _)
    (fun t ht => hkept.mono (hspace.tables.kept t ht)) page.addr

/-- The user byte at an address after a load that succeeds. -/
def Machine.byteAfter (k : Machine) (file : ElfFile) (l4 loadBias : Word) (m : Memory)
    (va : Word) : Option (Option Byte) :=
  (k.elfLoad file l4 loadBias m).toOption.map fun out => k.userByte out.2 l4 va

theorem Machine.byteAfter_eq_some {k : Machine} {l4 loadBias : Word} {m : Memory}
    {b : Option Byte} (h : k.byteAfter file l4 loadBias m va = some b) :
    ∃ result m', k.elfLoad file l4 loadBias m = .ok (result, m') ∧ k.userByte m' l4 va = b := by
  rw [byteAfter] at h
  generalize k.elfLoad file l4 loadBias m = loaded at *
  cases loaded with
  | error e => cases h
  | ok out => exact ⟨out.1, out.2, rfl, Option.some.inj h⟩

/-- The last segment takes the frame of the one before it. -/
theorem sampleSpread_byte : (sampleMachine .x86_64).byteAfter sampleSpread sampleTable.addr 0
    sampleTight 0x401000 = some (some 0) := by
  decide +kernel

namespace Machine

/-- Without pages for its last two segments, the image is accepted, and one of them is lost. -/
theorem elfLoad_loses_segment : ∃ result m',
    (sampleMachine .x86_64).elfLoad sampleSpread sampleTable.addr 0 sampleTight =
      .ok (result, m') ∧
    sampleSpread.WellLaid (sampleSpread.biasFor 0) ∧
    (∀ page : Vpn, page.User →
      (sampleMachine .x86_64).spaceOf sampleTight sampleTable.addr page = none) ∧
    ¬ (sampleMachine .x86_64).BuildsImage m' sampleTable.addr sampleSpread
      (sampleSpread.biasFor 0) := by
  obtain ⟨result, m', hok, hbyte⟩ := byteAfter_eq_some sampleSpread_byte
  refine ⟨result, m', hok, sampleSpread_wellLaid, sampleTight_empty, fun hbuilds => ?_⟩
  have hbias : sampleSpread.biasFor 0 = 0 := by decide +kernel
  rw [hbias] at hbuilds
  have hmem : (⟨1, 6, 0, 0x401000, 16, 16⟩ : ElfPhdr) ∈ sampleSpread.loads := by
    rw [sampleSpread_loads]
    decide
  have hdata := hbuilds.data _ hmem 0 (by decide)
  have hplace : (0 : Word) + 0x401000 + BitVec.ofNat 64 0 = 0x401000 := by decide
  have hfirst : sampleSpread.byte (0 + BitVec.ofNat 64 0) = 0x7f := by decide +kernel
  rw [hplace, hfirst, hbyte] at hdata
  cases hdata

/-- Three segments on one page. -/
theorem elfLoad_builds_sample : ∃ result m',
    (sampleMachine .x86_64).elfLoad sampleElf sampleTable.addr 0 sampleSpace.2 =
      .ok (result, m') ∧
    (sampleMachine .x86_64).BuildsImage m' sampleTable.addr sampleElf (sampleElf.biasFor 0) := by
  obtain ⟨c, hspace⟩ := sampleNewSpace
  obtain ⟨result, m', x, hok, -, -⟩ := rightsAfter_eq_some sampleElf_rights
  have hbias : sampleElf.biasFor 0 = 0 := by decide +kernel
  have hloads : sampleElf.loads = [⟨1, 6, 0, 0x400000, 16, 16⟩, ⟨1, 5, 0, 0x400100, 16, 16⟩,
      ⟨1, 4, 0, 0x400200, 16, 16⟩] := by
    decide +kernel
  have hlaid : sampleElf.WellLaid (sampleElf.biasFor 0) := by
    rw [hbias]
    refine ⟨?_, ?_, segmentsDisjoint_of_ordered ?_⟩ <;> rw [hloads] <;> decide
  exact ⟨result, m', hok, elfLoad_builds hspace.tables (Set.mem_insert _ _) sampleTable_empty
    hlaid sampleElf_granted hok⟩

end Machine

end Utopia
