/-
What `elf_load` reads: when no offset of the headers wraps around, only bytes of the image, so
that what lies behind the image in its buffer comes into no process.
-/
import Utopia.Exec.ElfImage

namespace Utopia

/-- Two buffers with the same image. -/
structure SameImage (file file' : ElfFile) : Prop where
  size_eq : file.size = file'.size
  byte_eq : ∀ off : Word, off.toNat < file.size.toNat → file.byte off = file'.byte off

namespace ElfFile

/-- `n` bytes at the offset lie in the image. -/
def Inside (file : ElfFile) (off : Word) (n : ℕ) : Prop := off.toNat + n ≤ file.size.toNat

/-- The header is whole, and the place that a program header of a read type names has an end. -/
structure NoWrap (file : ElfFile) : Prop where
  table : file.ePhoff.toNat + file.ePhnum.toNat * file.ePhentsize.toNat < 2 ^ 64
  entries : file.ePhnum ≠ 0 → 48 ≤ file.ePhentsize.toNat
  places : ∀ ph ∈ file.phdrs, ph.type = ptLoad ∨ ph.type = ptDynamic ∨ ph.type = ptInterp →
    ph.offset.toNat + ph.filesz.toNat < 2 ^ 64

end ElfFile

variable {file file' : ElfFile} {ph : ElfPhdr} {off : Word} {n : ℕ}

namespace ElfFile.Inside

theorem shift {i : ℕ} (h : file.Inside off n) (hi : i ≤ n) :
    file.Inside (off + BitVec.ofNat 64 i) (n - i) := by
  have hsize := file.size.isLt
  rw [Inside] at h ⊢
  have hoff : (BitVec.ofNat 64 i).toNat = i := by
    rw [BitVec.toNat_ofNat]
    omega
  by_cases hlt : off.toNat + i < 2 ^ 64
  · rw [toNat_add_of_lt (by omega), hoff]
    omega
  · omega

theorem mono {k : ℕ} (h : file.Inside off n) (hk : k ≤ n) : file.Inside off k := by
  rw [Inside] at h ⊢
  omega

/-- An addition that does not wrap compares as the numbers do. -/
theorem of_not_lt {size : Word} (hsum : off.toNat + size.toNat < 2 ^ 64)
    (h : ¬ file.size < off + size) : file.Inside off size.toNat := by
  rw [BitVec.not_lt, BitVec.le_def, toNat_add_of_lt hsum] at h
  exact h

end ElfFile.Inside

/-- The place that `elf_vaddr_to_fileptr` finds lies in the image. -/
theorem ElfFile.NoWrap.inside_fileptr (hwrap : file.NoWrap) {vaddr need : Word}
    (hfound : file.vaddrToFileptr vaddr need = some off) : file.Inside off need.toNat := by
  rw [ElfFile.vaddrToFileptr] at hfound
  obtain ⟨ph, hph, hplace⟩ := List.exists_of_findSome?_eq_some hfound
  simp only [ne_eq, ite_not, Option.ite_none_right_eq_some, Option.some.injEq] at hplace
  obtain ⟨hload, ⟨hlow, hhigh⟩, hneed, hfits, rfl⟩ := hplace
  have hends := hwrap.places ph hph (Or.inl hload)
  have hbelow : (vaddr - ph.vaddr).toNat < ph.filesz.toNat := by bv_omega
  have hroom : (vaddr - ph.vaddr).toNat + need.toNat ≤ ph.filesz.toNat := by bv_omega
  have hoff : (ph.offset + (vaddr - ph.vaddr)).toNat = ph.offset.toNat + (vaddr - ph.vaddr).toNat :=
    toNat_add_of_lt (by omega)
  exact ElfFile.Inside.of_not_lt (by omega) (BitVec.not_lt.mpr hfits)

namespace SameImage

variable (hsame : SameImage file file')
include hsame

/-! ### Numbers and headers -/

theorem byte_of_inside (h : file.Inside off n) (hn : 0 < n) : file.byte off = file'.byte off :=
  hsame.byte_eq off (by rw [ElfFile.Inside] at h; omega)

theorem number_eq (h : file.Inside off n) : file.number off n = file'.number off n := by
  induction n generalizing off with
  | zero => rfl
  | succ n ih =>
      have hrest : file.Inside (off + 1) n := by
        have hshift := h.shift (i := 1) (by omega)
        rwa [Nat.add_sub_cancel] at hshift
      rw [ElfFile.number, ElfFile.number, hsame.byte_of_inside h (by omega), ih hrest]

theorem u16_eq (h : file.Inside off 2) : file.u16 off = file'.u16 off := by
  rw [ElfFile.u16, ElfFile.u16, hsame.number_eq h]

theorem u32_eq (h : file.Inside off 4) : file.u32 off = file'.u32 off := by
  rw [ElfFile.u32, ElfFile.u32, hsame.number_eq h]

theorem u64_eq (h : file.Inside off 8) : file.u64 off = file'.u64 off := by
  rw [ElfFile.u64, ElfFile.u64, hsame.number_eq h]

/-- A program header that lies in the image. -/
theorem phdrAt_eq (h : file.Inside off 48) : file.phdrAt off = file'.phdrAt off := by
  have hword (i : ℕ) (hi : i + 4 ≤ 48) :
      file.u32 (off + BitVec.ofNat 64 i) = file'.u32 (off + BitVec.ofNat 64 i) :=
    hsame.u32_eq ((h.shift (by omega)).mono (by omega))
  have hquad (i : ℕ) (hi : i + 8 ≤ 48) :
      file.u64 (off + BitVec.ofNat 64 i) = file'.u64 (off + BitVec.ofNat 64 i) :=
    hsame.u64_eq ((h.shift (by omega)).mono (by omega))
  rw [ElfFile.phdrAt, ElfFile.phdrAt, ElfPhdr.mk.injEq]
  exact ⟨hsame.u32_eq (h.mono (by omega)), hword 4 (by omega), hquad 8 (by omega),
    hquad 16 (by omega), hquad 32 (by omega), hquad 40 (by omega)⟩

/-- The fields of the header that the loader reads. -/
structure SameHeader (file file' : ElfFile) : Prop where
  eType : file.eType = file'.eType
  eMachine : file.eMachine = file'.eMachine
  eEntry : file.eEntry = file'.eEntry
  ePhoff : file.ePhoff = file'.ePhoff
  ePhentsize : file.ePhentsize = file'.ePhentsize
  ePhnum : file.ePhnum = file'.ePhnum

theorem header (hsize : ¬ file.size < 64) : SameHeader file file' := by
  have hlow : 64 ≤ file.size.toNat := by
    rw [BitVec.not_lt, BitVec.le_def] at hsize
    exact hsize
  have hpart {i : ℕ} (k : ℕ) (hi : i < 64) (h : i + k ≤ 64) :
      file.Inside (BitVec.ofNat 64 i) k := by
    rw [ElfFile.Inside, BitVec.toNat_ofNat]
    omega
  exact ⟨hsame.u16_eq (hpart (i := 16) 2 (by omega) (by omega)),
    hsame.u16_eq (hpart (i := 18) 2 (by omega) (by omega)),
    hsame.u64_eq (hpart (i := 24) 8 (by omega) (by omega)),
    hsame.u64_eq (hpart (i := 32) 8 (by omega) (by omega)),
    hsame.u16_eq (hpart (i := 54) 2 (by omega) (by omega)),
    hsame.u16_eq (hpart (i := 56) 2 (by omega) (by omega))⟩

/-- The checks on the header read nothing behind the image. -/
theorem checkHeader_eq (arch : Arch) : file.checkHeader arch = file'.checkHeader arch := by
  rw [ElfFile.checkHeader, ElfFile.checkHeader, ← hsame.size_eq]
  by_cases hsize : file.size < 64
  · rw [if_pos hsize, if_pos hsize]
  · have hheader := hsame.header hsize
    have hlow : 64 ≤ file.size.toNat := by
      rw [BitVec.not_lt, BitVec.le_def] at hsize
      exact hsize
    have hbyte (i : Word) (hi : i.toNat < 64) : file.byte i = file'.byte i :=
      hsame.byte_eq i (by omega)
    rw [if_neg hsize, if_neg hsize, hbyte 0 (by decide), hbyte 1 (by decide),
      hbyte 2 (by decide), hbyte 3 (by decide), hbyte 4 (by decide), hbyte 5 (by decide),
      hheader.eMachine, hheader.eType, hheader.ePhoff, hheader.ePhnum, hheader.ePhentsize]

/-! ### The program headers -/

theorem phdrs_eq (hwrap : file.NoWrap) {arch : Arch} (hchecked : file.checkHeader arch = none) :
    file.phdrs = file'.phdrs := by
  rw [ElfFile.checkHeader] at hchecked
  by_cases hsize : file.size < 64
  · rw [if_pos hsize] at hchecked
    cases hchecked
  · have hheader := hsame.header hsize
    have htable : file.Inside file.ePhoff (file.ePhnum.toNat * file.ePhentsize.toNat) := by
      have hentries := file.ePhnum.isLt
      have hentry := file.ePhentsize.isLt
      have hmul : file.ePhnum.toNat * file.ePhentsize.toNat < 2 ^ 64 :=
        calc file.ePhnum.toNat * file.ePhentsize.toNat
            ≤ 2 ^ 16 * 2 ^ 16 := Nat.mul_le_mul hentries.le hentry.le
          _ < 2 ^ 64 := by norm_num
      have hbytes : (file.ePhnum.setWidth 64 * file.ePhentsize.setWidth 64 : Word).toNat =
          file.ePhnum.toNat * file.ePhentsize.toNat := by
        rw [BitVec.toNat_mul, BitVec.toNat_setWidth, BitVec.toNat_setWidth, ← Nat.mul_mod,
          Nat.mod_eq_of_lt hmul]
      have hfits : ¬ file.size <
          file.ePhoff + file.ePhnum.setWidth 64 * file.ePhentsize.setWidth 64 := by
        intro hlong
        rw [if_pos hlong] at hchecked
        split_ifs at hchecked
      have hinside := ElfFile.Inside.of_not_lt (by rw [hbytes]; exact hwrap.table) hfits
      rwa [hbytes] at hinside
    rw [ElfFile.phdrs, ElfFile.phdrs, ← hheader.ePhnum, ← hheader.ePhoff, ← hheader.ePhentsize]
    refine List.map_congr_left fun i hi => hsame.phdrAt_eq ?_
    have hi : i < file.ePhnum.toNat := List.mem_range.mp hi
    have hentry : 48 ≤ file.ePhentsize.toNat := hwrap.entries (by bv_omega)
    have hreach : i * file.ePhentsize.toNat + file.ePhentsize.toNat ≤
        file.ePhnum.toNat * file.ePhentsize.toNat := by
      rw [← Nat.succ_mul]
      exact Nat.mul_le_mul_right _ hi
    have hplace : (BitVec.ofNat 64 i * file.ePhentsize.setWidth 64 : Word) =
        BitVec.ofNat 64 (i * file.ePhentsize.toNat) := by
      apply BitVec.eq_of_toNat_eq
      rw [BitVec.toNat_mul, BitVec.toNat_setWidth, BitVec.toNat_ofNat, BitVec.toNat_ofNat,
        ← Nat.mul_mod]
    rw [hplace]
    exact (htable.shift (by omega)).mono (by omega)

/-! ### The pages of a segment -/

variable {k : Machine} {bias l4 pageVa dst : Word} {prev : VmFlags} {m : Memory}

/-- The part of a page that comes from the file lies in the file part of the segment. -/
theorem copyPage_eq (hplace : file.Inside ph.offset ph.filesz.toNat) :
    file.copyPage bias ph pageVa dst m = file'.copyPage bias ph pageVa dst m := by
  rw [ElfFile.copyPage, ElfFile.copyPage]
  dsimp only
  generalize hlo : bias + ph.vaddr = fileLo
  generalize hcopyLo : (if fileLo < pageVa then pageVa else fileLo) = copyLo
  generalize hcopyHi : (if pageVa + 0x1000 < fileLo + ph.filesz then pageVa + 0x1000
    else fileLo + ph.filesz) = copyHi
  split_ifs with hcopy
  · congr 1
    refine List.map_congr_left fun b hb => ?_
    have hb : b < (copyHi - copyLo).toNat := List.mem_range.mp hb
    have hlow : fileLo ≤ copyLo := by
      rw [← hcopyLo]
      split_ifs with h
      · exact BitVec.le_of_lt h
      · exact BitVec.le_refl _
    have hhigh : copyHi ≤ fileLo + ph.filesz := by
      rw [← hcopyHi]
      split_ifs with h
      · exact BitVec.le_of_lt h
      · exact BitVec.le_refl _
    -- the copy ends at or below `fileLo + filesz`, which therefore has not wrapped
    have hbelow : (copyLo - fileLo).toNat + b < ph.filesz.toNat := by bv_omega
    have hoff : copyLo - fileLo + BitVec.ofNat 64 b =
        BitVec.ofNat 64 ((copyLo - fileLo).toNat + b) := by
      apply BitVec.eq_of_toNat_eq
      rw [BitVec.toNat_add, BitVec.toNat_ofNat, BitVec.toNat_ofNat, Nat.add_mod_mod]
    rw [BitVec.add_assoc, hoff]
    exact hsame.byte_of_inside (hplace.shift hbelow.le) (by omega)
  · rfl

theorem loadPage_eq (hplace : file.Inside ph.offset ph.filesz.toNat) :
    k.loadPage file l4 bias ph prev m pageVa = k.loadPage file' l4 bias ph prev m pageVa := by
  rw [Machine.loadPage, Machine.loadPage]
  simp only [hsame.copyPage_eq hplace]

theorem loadHeader_eq (hphoff : file.ePhoff = file'.ePhoff)
    (hplace : ph.type = ptLoad → ph.offset.toNat + ph.filesz.toNat < 2 ^ 64) (s : ElfLoadState) :
    k.loadHeader file l4 bias s ph = k.loadHeader file' l4 bias s ph := by
  rw [Machine.loadHeader, Machine.loadHeader, ← hsame.size_eq, ← hphoff]
  by_cases hload : ph.type = ptLoad
  · by_cases hfits : file.size < ph.offset + ph.filesz
    · rw [if_pos hfits, if_pos hfits]
    · have hinside := ElfFile.Inside.of_not_lt (hplace hload) hfits
      have hpage : k.loadPage file l4 bias ph s.prevSegFlags =
          k.loadPage file' l4 bias ph s.prevSegFlags := by
        funext m pageVa
        exact hsame.loadPage_eq hinside
      rw [hpage]
  · simp only [ne_eq, hload, not_false_eq_true, if_true]

/-! ### The dynamic section -/

theorem vaddrToFileptr_eq (hphdrs : file.phdrs = file'.phdrs) (vaddr need : Word) :
    file.vaddrToFileptr vaddr need = file'.vaddrToFileptr vaddr need := by
  rw [ElfFile.vaddrToFileptr, ElfFile.vaddrToFileptr, ← hphdrs, ← hsame.size_eq]

/-- The chain is read one word at a time, each from a place that was found for it. -/
theorem hashChain_eq (hwrap : file.NoWrap) (hphdrs : file.phdrs = file'.phdrs)
    (chainVaddr : Word) (guard : ℕ) (chainIdx count : Word) :
    file.hashChain chainVaddr guard chainIdx count =
      file'.hashChain chainVaddr guard chainIdx count := by
  induction guard generalizing chainIdx count with
  | zero => rfl
  | succ guard ih =>
      rw [ElfFile.hashChain, ElfFile.hashChain, ← hsame.vaddrToFileptr_eq hphdrs]
      refine Option.bind_congr fun cp hcp => ?_
      have hword : file.u32 cp = file'.u32 cp := hsame.u32_eq (hwrap.inside_fileptr hcp)
      simp only [hword, ih]

theorem gnuHashSymcount_eq (hwrap : file.NoWrap) (hphdrs : file.phdrs = file'.phdrs)
    (gnuHashVaddr : Word) : file.gnuHashSymcount gnuHashVaddr =
      file'.gnuHashSymcount gnuHashVaddr := by
  rw [ElfFile.gnuHashSymcount, ElfFile.gnuHashSymcount, ← hsame.vaddrToFileptr_eq hphdrs]
  refine Option.bind_congr fun header hheader => ?_
  have hinside : file.Inside header 16 := hwrap.inside_fileptr hheader
  have hbuckets : file.u32 header = file'.u32 header := hsame.u32_eq (hinside.mono (by omega))
  have hoffset : file.u32 (header + 4) = file'.u32 (header + 4) :=
    hsame.u32_eq ((hinside.shift (i := 4) (by omega)).mono (by omega))
  have hbloom : file.u32 (header + 8) = file'.u32 (header + 8) :=
    hsame.u32_eq ((hinside.shift (i := 8) (by omega)).mono (by omega))
  dsimp only
  rw [← hbuckets, ← hoffset, ← hbloom, ← hsame.vaddrToFileptr_eq hphdrs]
  generalize file.u32 header = nbucket
  split_ifs with hzero
  · rfl
  · refine Option.bind_congr fun buckets hfound => ?_
    have hwords : file.Inside buckets (nbucket.toNat * 4) := by
      have hbytes : (nbucket.setWidth 64 * 4 : Word).toNat = nbucket.toNat * 4 := by bv_omega
      rw [← hbytes]
      exact hwrap.inside_fileptr hfound
    have hmax : (List.range nbucket.toNat).foldl (fun maxIdx i =>
          let bucket := file.u32 (buckets + BitVec.ofNat 64 i * 4)
          if maxIdx < bucket then bucket else maxIdx) 0 =
        (List.range nbucket.toNat).foldl (fun maxIdx i =>
          let bucket := file'.u32 (buckets + BitVec.ofNat 64 i * 4)
          if maxIdx < bucket then bucket else maxIdx) 0 := by
      refine List.foldl_ext _ _ _ fun maxIdx i hi => ?_
      have hi : i < nbucket.toNat := List.mem_range.mp hi
      have hplace : (BitVec.ofNat 64 i * 4 : Word) = BitVec.ofNat 64 (i * 4) := by
        rw [BitVec.ofNat_mul]
        rfl
      have hword : file.u32 (buckets + BitVec.ofNat 64 i * 4) =
          file'.u32 (buckets + BitVec.ofNat 64 i * 4) := by
        rw [hplace]
        exact hsame.u32_eq ((hwords.shift (by omega)).mono (by omega))
      rw [hword]
    simp only [hmax, hsame.hashChain_eq hwrap hphdrs]

theorem dynamicEntries_eq {dynPh : ElfPhdr}
    (hplace : file.Inside dynPh.offset dynPh.filesz.toNat) :
    file.dynamicEntries dynPh = file'.dynamicEntries dynPh := by
  have hentries : (List.range (dynPh.filesz.toNat / 16)).map (fun i =>
        let entry := dynPh.offset + BitVec.ofNat 64 i * 16
        (file.u64 entry, file.u64 (entry + 8))) =
      (List.range (dynPh.filesz.toNat / 16)).map fun i =>
        let entry := dynPh.offset + BitVec.ofNat 64 i * 16
        (file'.u64 entry, file'.u64 (entry + 8)) := by
    refine List.map_congr_left fun i hi => ?_
    have hi : i < dynPh.filesz.toNat / 16 := List.mem_range.mp hi
    have hstart : (BitVec.ofNat 64 i * 16 : Word) = BitVec.ofNat 64 (i * 16) := by
      rw [BitVec.ofNat_mul]
      rfl
    have hentry : file.Inside (dynPh.offset + BitVec.ofNat 64 i * 16) 16 := by
      rw [hstart]
      exact (hplace.shift (by omega)).mono (by omega)
    generalize dynPh.offset + BitVec.ofNat 64 i * 16 = entry at hentry ⊢
    have htag : file.u64 entry = file'.u64 entry := hsame.u64_eq (hentry.mono (by omega))
    have hvalue : file.u64 (entry + 8) = file'.u64 (entry + 8) :=
      hsame.u64_eq ((hentry.shift (i := 8) (by omega)).mono (by omega))
    dsimp only
    rw [htag, hvalue]
  rw [ElfFile.dynamicEntries, ElfFile.dynamicEntries, hentries]

theorem processDynamic_eq (hwrap : file.NoWrap) (hphdrs : file.phdrs = file'.phdrs)
    {dynPh : ElfPhdr} (hmem : dynPh ∈ file.phdrs) (htype : dynPh.type = ptDynamic) :
    file.processDynamic dynPh = file'.processDynamic dynPh := by
  rw [ElfFile.processDynamic, ElfFile.processDynamic, ← hsame.size_eq]
  by_cases hfits : file.size < dynPh.offset + dynPh.filesz
  · rw [if_pos hfits, if_pos hfits]
  · have hinside := ElfFile.Inside.of_not_lt
      (hwrap.places dynPh hmem (Or.inr (Or.inl htype))) hfits
    rw [if_neg hfits, if_neg hfits, ← hsame.dynamicEntries_eq hinside]
    generalize (file.dynamicEntries dynPh).foldl ElfFile.DynamicTags.scan {} = tags
    have hhash : (file.vaddrToFileptr tags.hashOff 8).map
          (fun hp => (file.u32 (hp + 4)).setWidth 64 : Word → Word) =
        (file'.vaddrToFileptr tags.hashOff 8).map
          (fun hp => (file'.u32 (hp + 4)).setWidth 64 : Word → Word) := by
      rw [← hsame.vaddrToFileptr_eq hphdrs]
      refine Option.map_congr fun hp hfound => ?_
      have hinside : file.Inside hp 8 := hwrap.inside_fileptr hfound
      have hcount : file.u32 (hp + 4) = file'.u32 (hp + 4) :=
        hsame.u32_eq ((hinside.shift (i := 4) (by omega)).mono (by omega))
      rw [hcount]
    simp only [hhash, hsame.gnuHashSymcount_eq hwrap hphdrs]

theorem interpPath_eq (hwrap : file.NoWrap) {interpPh : ElfPhdr} (hmem : interpPh ∈ file.phdrs)
    (htype : interpPh.type = ptInterp) : file.interpPath interpPh = file'.interpPath interpPh := by
  rw [ElfFile.interpPath, ElfFile.interpPath, ← hsame.size_eq]
  by_cases hfits : file.size < interpPh.offset + interpPh.filesz
  · rw [if_pos hfits, if_pos hfits]
  · have hinside := ElfFile.Inside.of_not_lt
      (hwrap.places interpPh hmem (Or.inr (Or.inr htype))) hfits
    have hpath : (List.range interpPh.filesz.toNat).map
          (fun b => file.byte (interpPh.offset + BitVec.ofNat 64 b)) =
        (List.range interpPh.filesz.toNat).map
          (fun b => file'.byte (interpPh.offset + BitVec.ofNat 64 b)) := by
      refine List.map_congr_left fun b hb => ?_
      have hb : b < interpPh.filesz.toNat := List.mem_range.mp hb
      exact hsame.byte_of_inside (hinside.shift hb.le) (by omega)
    rw [hpath]

end SameImage

/-! ### The whole load -/

/-- The headers that the loop has noted are headers of the image, of the types it looks for. -/
def ElfLoadState.Noted (phdrs : List ElfPhdr) (s : ElfLoadState) : Prop :=
  (∀ ph, s.dynPh = some ph → ph ∈ phdrs ∧ ph.type = ptDynamic) ∧
    ∀ ph, s.interpPh = some ph → ph ∈ phdrs ∧ ph.type = ptInterp

theorem loadHeader_noted {k : Machine} {l4 bias : Word} {phdrs : List ElfPhdr} {s s' : ElfLoadState}
    (hmem : ph ∈ phdrs) (hs : s.Noted phdrs) (hok : k.loadHeader file l4 bias s ph = .ok s') :
    s'.Noted phdrs := by
  rw [Machine.loadHeader] at hok
  split_ifs at hok with hphdr hdynamic hinterp hload hfits
  · obtain rfl := Except.ok.inj hok
    exact hs
  · obtain rfl := Except.ok.inj hok
    exact ⟨fun ph' hph' => Option.some.inj hph' ▸ ⟨hmem, hdynamic⟩, hs.2⟩
  · obtain rfl := Except.ok.inj hok
    exact ⟨hs.1, fun ph' hph' => Option.some.inj hph' ▸ ⟨hmem, hinterp⟩⟩
  · obtain rfl := Except.ok.inj hok
    exact hs
  all_goals
    obtain ⟨m, -, hreturn⟩ := bind_eq_ok.mp hok
    obtain rfl := Except.ok.inj hreturn
    exact hs

theorem foldlM_congr {σ ε α : Type} {f g : σ → α → Except ε σ} {as : List α}
    (h : ∀ s, ∀ a ∈ as, f s a = g s a) (s : σ) : as.foldlM f s = as.foldlM g s := by
  induction as generalizing s with
  | nil => rfl
  | cons a as ih =>
      rw [List.foldlM_cons, List.foldlM_cons, h s a List.mem_cons_self]
      exact bind_congr fun s' => ih (fun s b hb => h s b (List.mem_cons_of_mem a hb)) s'

/-- Two buffers with the same image are loaded alike: the status, what the result says and
every byte of memory. -/
theorem elfLoad_eq_of_sameImage {file file' : ElfFile} (hsame : SameImage file file')
    (hwrap : file.NoWrap) (k : Machine) (l4 loadBias : Word) (m : Memory) :
    k.elfLoad file l4 loadBias m = k.elfLoad file' l4 loadBias m := by
  rw [Machine.elfLoad, Machine.elfLoad, ← hsame.checkHeader_eq]
  cases hchecked : file.checkHeader k.arch with
  | some status => rfl
  | none =>
      have hsize : ¬ file.size < 64 := by
        intro hshort
        rw [ElfFile.checkHeader, if_pos hshort] at hchecked
        cases hchecked
      have hheader := hsame.header hsize
      have hphdrs := hsame.phdrs_eq hwrap hchecked
      have hbias : file.biasFor loadBias = file'.biasFor loadBias := by
        rw [ElfFile.biasFor, ElfFile.biasFor, hheader.eType]
      dsimp only
      rw [← hbias, ← hphdrs]
      generalize file.biasFor loadBias = bias
      have hloop (s : ElfLoadState) : file.phdrs.foldlM (k.loadHeader file l4 bias) s =
          file.phdrs.foldlM (k.loadHeader file' l4 bias) s :=
        foldlM_congr (fun s ph hph => hsame.loadHeader_eq hheader.ePhoff
          (fun hload => hwrap.places ph hph (Or.inl hload)) s) s
      rw [← hloop]
      have hnoted := (foldAlways_of_forall (f := k.loadHeader file l4 bias)
          (fun _ _ => trivial) file.phdrs ⟨m, 0, VmFlags.none, ~~~0, 0, none, none⟩).outcome
        (I := ElfLoadState.Noted file.phdrs) (E := fun _ => True)
        (fun s ph hph hs _ => by
          cases hround : k.loadHeader file l4 bias s ph with
          | error e => trivial
          | ok s' => exact loadHeader_noted hph hs hround)
        ⟨fun _ h => absurd h.symm (Option.some_ne_none _),
          fun _ h => absurd h.symm (Option.some_ne_none _)⟩
      cases hresult : file.phdrs.foldlM (k.loadHeader file l4 bias)
          ⟨m, 0, VmFlags.none, ~~~0, 0, none, none⟩ with
      | error e => rfl
      | ok s =>
          obtain ⟨hdynamic, hinterp⟩ := hnoted.of_ok hresult
          have hinterpOf : file.interpOf s.interpPh = file'.interpOf s.interpPh := by
            cases hph : s.interpPh with
            | none => rfl
            | some ph =>
                obtain ⟨hmem, htype⟩ := hinterp ph hph
                rw [ElfFile.interpOf, ElfFile.interpOf, hsame.interpPath_eq hwrap hmem htype]
          have hdynamicOf : file.dynamicOf s.dynPh = file'.dynamicOf s.dynPh := by
            cases hph : s.dynPh with
            | none => rfl
            | some ph =>
                obtain ⟨hmem, htype⟩ := hdynamic ph hph
                exact hsame.processDynamic_eq hwrap hphdrs hmem htype
          change (pure s >>= _) = (pure s >>= _)
          rw [pure_bind, pure_bind, hinterpOf, hdynamicOf, hheader.eEntry, hheader.ePhnum,
            hheader.ePhentsize, hheader.eType]

/-- The same image, with a byte repeated behind it in the buffer. -/
def ElfFile.followedBy (file : ElfFile) (b : Byte) : ElfFile where
  byte off := if off < file.size then file.byte off else b
  size := file.size

theorem ElfFile.followedBy_sameImage (file : ElfFile) (b : Byte) :
    SameImage file (file.followedBy b) :=
  ⟨rfl, fun _ hoff => (if_pos (BitVec.lt_def.mpr hoff)).symm⟩

theorem SameImage.trans_symm {file₁ file₂ : ElfFile} (h₁ : SameImage file file₁)
    (h₂ : SameImage file file₂) : SameImage file₁ file₂ :=
  ⟨h₁.size_eq.symm.trans h₂.size_eq, fun off hoff =>
    (h₁.byte_eq off (h₁.size_eq ▸ hoff)).symm.trans (h₂.byte_eq off (h₁.size_eq ▸ hoff))⟩

theorem sampleElf_noWrap : sampleElf.NoWrap :=
  ⟨by decide +kernel, by decide +kernel, by decide +kernel⟩

/-- The two buffers differ, and the loads do not. -/
theorem elfLoad_eq_of_sameImage_sample :
    sampleElf.byte sampleElf.size ≠ (sampleElf.followedBy 0xcc).byte sampleElf.size ∧
      (sampleMachine .x86_64).elfLoad sampleElf sampleTable.addr 0 sampleSpace.2 =
        (sampleMachine .x86_64).elfLoad (sampleElf.followedBy 0xcc) sampleTable.addr 0
          sampleSpace.2 :=
  ⟨by decide +kernel,
    elfLoad_eq_of_sameImage (sampleElf.followedBy_sameImage 0xcc) sampleElf_noWrap _ _ _ _⟩

/-! ### An offset that wraps around -/

/-- A segment that starts 16 bytes in front of the image, by an offset close to 2^64. -/
def sampleWrapping : ElfFile :=
  ElfFile.ofList (sampleEhdr 1 ++ littleEndian 1 4 ++ littleEndian 4 4 ++
    littleEndian (2 ^ 64 - 16) 8 ++ littleEndian 0x400000 8 ++ littleEndian 0 8 ++
    littleEndian 32 8 ++ littleEndian 32 8 ++ littleEndian 0 8)

theorem sampleWrapping_byte :
    (sampleMachine .x86_64).byteAfter (sampleWrapping.followedBy 1) sampleTable.addr 0
        sampleSpace.2 0x400000 = some (some 1) ∧
      (sampleMachine .x86_64).byteAfter (sampleWrapping.followedBy 2) sampleTable.addr 0
        sampleSpace.2 0x400000 = some (some 2) := by
  decide +kernel

/-- Without the condition, what lies around the image reaches the process. -/
theorem not_elfLoad_eq_of_sameImage : ¬ ∀ (file file' : ElfFile), SameImage file file' →
    ∀ (k : Machine) (l4 loadBias : Word) (m : Memory),
      k.elfLoad file l4 loadBias m = k.elfLoad file' l4 loadBias m := by
  intro h
  have hloads := h _ _ ((sampleWrapping.followedBy_sameImage 1).trans_symm
    (sampleWrapping.followedBy_sameImage 2)) (sampleMachine .x86_64) sampleTable.addr 0
    sampleSpace.2
  have hbytes := sampleWrapping_byte
  rw [Machine.byteAfter, Machine.byteAfter, hloads] at hbytes
  exact absurd (hbytes.1.symm.trans hbytes.2) (by decide)

end Utopia
