/-
The user half as a process sees it, and what the segments of an image make of it when every
page that is needed is granted.
-/
import Utopia.Exec.ElfLoad
import Utopia.Mm.PageOps

namespace Utopia

/-- A page of the user half with its permissions and its bytes. -/
structure UserPage where
  flags : VmFlags
  bytes : BitVec 12 → Byte

abbrev UserImage := Vpn → Option UserPage

/-- The user half below `l4`, read through the page tables. -/
def Machine.userImage (k : Machine) (m : Memory) (l4 : Word) : UserImage := fun page =>
  (k.spaceOf m l4 page).map fun x =>
    ⟨x.flags, fun i => m (k.physToVirt x.phys + i.setWidth 64)⟩

namespace ElfPhdr

/-- The file has a byte for the user address. -/
def HasByte (ph : ElfPhdr) (bias va : Word) : Prop :=
  bias + ph.vaddr ≤ va ∧ va < bias + ph.vaddr + ph.filesz

instance (ph : ElfPhdr) (bias va : Word) : Decidable (ph.HasByte bias va) :=
  inferInstanceAs (Decidable (_ ∧ _))

/-- The offset of that byte in the file. -/
def fileOffset (ph : ElfPhdr) (bias va : Word) : Word := ph.offset + (va - (bias + ph.vaddr))

/-- The pages of the loop over `page_va`. -/
def vpns (ph : ElfPhdr) (bias : Word) : List Vpn := (ph.pages bias).map vpn

/-- The page lies between `seg_start` and `seg_end`. -/
def Covers (ph : ElfPhdr) (bias : Word) (page : Vpn) : Prop :=
  ph.segStart bias ≤ page.addr ∧ page.addr < ph.segEnd bias

instance (ph : ElfPhdr) (bias : Word) (page : Vpn) : Decidable (ph.Covers bias page) :=
  inferInstanceAs (Decidable (_ ∧ _))

end ElfPhdr

/-- The `PT_LOAD` headers in their order. -/
def ElfFile.loads (file : ElfFile) : List ElfPhdr := file.phdrs.filter fun ph => ph.type = ptLoad

namespace UserImage

variable (file : ElfFile) (bias : Word)

/-- What a segment makes of a page that it comes to. -/
def nextPage (ph : ElfPhdr) (prev : VmFlags) (page : Vpn) (old : Option UserPage) : UserPage where
  flags := old.elim ph.pageFlags fun _ => ph.pageFlags.or prev
  bytes i :=
    let va := page.addr + i.setWidth 64
    if ph.HasByte bias va then file.byte (ph.fileOffset bias va) else old.elim 0 fun p => p.bytes i

def addPage (ph : ElfPhdr) (prev : VmFlags) (image : UserImage) (page : Vpn) : UserImage :=
  Function.update image page (some (nextPage file bias ph prev page (image page)))

def addSegment (ph : ElfPhdr) (prev : VmFlags) (image : UserImage) : UserImage :=
  (ph.vpns bias).foldl (addPage file bias ph prev) image

/-- A round of the loop over the headers, with `prev_seg_flags`. -/
def addLoad (s : UserImage × VmFlags) (ph : ElfPhdr) : UserImage × VmFlags :=
  (addSegment file bias ph s.2 s.1, ph.pageFlags)

/-- What the segments make of an empty user half. -/
def ofLoads (loads : List ElfPhdr) : UserImage × VmFlags :=
  loads.foldl (addLoad file bias) (fun _ => none, VmFlags.none)

end UserImage

/-- Every page that the loader comes to lies in the user half. -/
def ElfFile.Confined (file : ElfFile) (bias : Word) : Prop :=
  ∀ ph ∈ file.loads, ∀ pageVa ∈ ph.pages bias, pageVa.toNat < 2 ^ 47

instance (file : ElfFile) (bias : Word) : Decidable (file.Confined bias) :=
  have (ph : ElfPhdr) : Decidable (∀ pageVa ∈ ph.pages bias, pageVa.toNat < 2 ^ 47) :=
    List.decidableBAll _ _
  List.decidableBAll _ file.loads

/-! ### The pages of a segment -/

namespace ElfPhdr

variable {ph : ElfPhdr} {bias va : Word} {page : Vpn}

theorem segStart_toNat : (ph.segStart bias).toNat = (bias + ph.vaddr).toNat / 2 ^ 12 * 2 ^ 12 :=
  toNat_and_not_mask rfl

theorem segEnd_toNat : (ph.segEnd bias).toNat =
    (bias + ph.vaddr + ph.memsz + 0xFFF).toNat / 2 ^ 12 * 2 ^ 12 :=
  toNat_and_not_mask rfl

/-- The page of a round. -/
theorem page_toNat {i : ℕ}
    (hi : i < ((ph.segEnd bias).toNat - (ph.segStart bias).toNat) / 4096) :
    (ph.segStart bias + BitVec.ofNat 64 i * 0x1000).toNat =
      (ph.segStart bias).toNat + i * 4096 := by
  have hend := (ph.segEnd bias).isLt
  have hstep : (BitVec.ofNat 64 i * 0x1000).toNat = i % 2 ^ 64 * 4096 % 2 ^ 64 := by
    rw [BitVec.toNat_mul, BitVec.toNat_ofNat]
    rfl
  rw [BitVec.toNat_add, hstep]
  omega

theorem mem_pages : va ∈ ph.pages bias ↔
    va.toNat % 4096 = 0 ∧ ph.segStart bias ≤ va ∧ va < ph.segEnd bias := by
  have hstart := @segStart_toNat ph bias
  have hend := @segEnd_toNat ph bias
  rw [pages, List.mem_map, BitVec.le_def, BitVec.lt_def]
  constructor
  · rintro ⟨i, hi, rfl⟩
    rw [List.mem_range] at hi
    rw [page_toNat hi]
    omega
  · rintro ⟨haligned, hge, hlt⟩
    have hi : (va.toNat - (ph.segStart bias).toNat) / 4096 <
        ((ph.segEnd bias).toNat - (ph.segStart bias).toNat) / 4096 := by
      omega
    refine ⟨_, List.mem_range.mpr hi, ?_⟩
    apply BitVec.eq_of_toNat_eq
    rw [page_toNat hi]
    omega

/-- A page of the loop in the user half is the page that its address names. -/
theorem page_addr (hva : va ∈ ph.pages bias) (huser : va.toNat < 2 ^ 47) :
    (vpn va).User ∧ (vpn va).addr = va := by
  obtain ⟨haligned, -, -⟩ := mem_pages.mp hva
  have haddr : (vpn va).addr = va := by
    apply BitVec.eq_of_toNat_eq
    rw [Vpn.addr_toNat, vpn_toNat]
    omega
  refine ⟨Vpn.user_iff.mpr ?_, haddr⟩
  rw [haddr]
  exact huser

variable (hconfined : ∀ pageVa ∈ ph.pages bias, pageVa.toNat < 2 ^ 47)
include hconfined

theorem mem_vpns : page ∈ ph.vpns bias ↔ ph.Covers bias page := by
  rw [vpns, List.mem_map]
  constructor
  · rintro ⟨va, hva, rfl⟩
    rw [Covers, (page_addr hva (hconfined va hva)).2]
    exact (mem_pages.mp hva).2
  · intro h
    exact ⟨page.addr, mem_pages.mpr ⟨page.addr_mod, h⟩, vpn_addr page⟩

/-- No page comes twice. -/
theorem vpns_nodup : (ph.vpns bias).Nodup := by
  have haddr : (ph.vpns bias).map Vpn.addr = ph.pages bias := by
    rw [vpns, List.map_map]
    exact (List.map_congr_left fun va hva => (page_addr hva (hconfined va hva)).2).trans
      (List.map_id _)
  refine List.Nodup.of_map Vpn.addr ?_
  rw [haddr, pages]
  refine List.Nodup.map_on (fun i hi j hj hij => ?_) List.nodup_range
  rw [List.mem_range] at hi hj
  have hnat := congrArg BitVec.toNat hij
  rw [page_toNat hi, page_toNat hj] at hnat
  omega

end ElfPhdr

namespace UserImage

variable {file : ElfFile} {bias : Word} {ph : ElfPhdr} {prev : VmFlags} {image : UserImage}
  {page : Vpn} {loads before : List ElfPhdr}

private theorem foldl_addPage_of_not_mem {vpns : List Vpn} (h : page ∉ vpns) :
    vpns.foldl (addPage file bias ph prev) image page = image page := by
  induction vpns generalizing image with
  | nil => rfl
  | cons head vpns ih =>
      rw [List.mem_cons, not_or] at h
      rw [List.foldl_cons, ih h.2, addPage, Function.update_of_ne h.1]

private theorem foldl_addPage_of_mem {vpns : List Vpn} (hnodup : vpns.Nodup) (h : page ∈ vpns) :
    vpns.foldl (addPage file bias ph prev) image page =
      some (nextPage file bias ph prev page (image page)) := by
  induction vpns generalizing image with
  | nil => cases h
  | cons head vpns ih =>
      rw [List.nodup_cons] at hnodup
      rw [List.foldl_cons]
      by_cases heq : page = head
      · subst heq
        rw [foldl_addPage_of_not_mem hnodup.1, addPage, Function.update_self]
      · have hmem := (List.mem_cons.mp h).resolve_left heq
        rw [ih hnodup.2 hmem, addPage, Function.update_of_ne heq]

variable (hconfined : ∀ pageVa ∈ ph.pages bias, pageVa.toNat < 2 ^ 47)
include hconfined

/-- What a segment makes of the image, page by page. -/
theorem addSegment_apply : image.addSegment file bias ph prev page =
    if ph.Covers bias page then some (nextPage file bias ph prev page (image page))
    else image page := by
  rw [addSegment]
  split_ifs with hcovers
  · exact foldl_addPage_of_mem (ElfPhdr.vpns_nodup hconfined)
      ((ElfPhdr.mem_vpns hconfined).mpr hcovers)
  · exact foldl_addPage_of_not_mem fun hmem => hcovers ((ElfPhdr.mem_vpns hconfined).mp hmem)

end UserImage

namespace UserImage

variable {file : ElfFile} {bias : Word} {ph : ElfPhdr} {page : Vpn} {loads : List ElfPhdr}

theorem ofLoads_concat : ofLoads file bias (loads ++ [ph]) =
    ((ofLoads file bias loads).1.addSegment file bias ph (ofLoads file bias loads).2,
      ph.pageFlags) := by
  rw [ofLoads, List.foldl_append]
  rfl

/-- The image after one more segment, page by page. -/
theorem ofLoads_concat_apply (hconfined : ∀ pageVa ∈ ph.pages bias, pageVa.toNat < 2 ^ 47) :
    (ofLoads file bias (loads ++ [ph])).1 page =
      if ph.Covers bias page then
        some (nextPage file bias ph (ofLoads file bias loads).2 page
          ((ofLoads file bias loads).1 page))
      else (ofLoads file bias loads).1 page := by
  rw [ofLoads_concat]
  exact addSegment_apply hconfined

/-- `prev_seg_flags` after the loop. -/
theorem ofLoads_prev :
    (ofLoads file bias loads).2 = (loads.getLast?.map ElfPhdr.pageFlags).getD VmFlags.none := by
  induction loads using List.reverseRecOn with
  | nil => rfl
  | append_singleton loads ph ih =>
      rw [ofLoads_concat, List.getLast?_concat]
      rfl

/-- The pages that are there after the loop. -/
theorem ofLoads_isSome
    (hconfined : ∀ ph ∈ loads, ∀ pageVa ∈ ph.pages bias, pageVa.toNat < 2 ^ 47) :
    ((ofLoads file bias loads).1 page).isSome ↔ ∃ ph ∈ loads, ph.Covers bias page := by
  induction loads using List.reverseRecOn with
  | nil => simp [ofLoads]
  | append_singleton loads ph ih =>
      have hph := hconfined ph (by simp)
      have hloads := ih fun ph' hph' => hconfined ph' (List.mem_append_left [ph] hph')
      rw [ofLoads_concat_apply hph]
      simp only [List.mem_append, List.mem_singleton, or_and_right, exists_or, exists_eq_left]
      split_ifs with hcovers
      · simp [hcovers]
      · rw [hloads]
        simp [hcovers]

/-- The last segment that covers a page decides what becomes of it. -/
theorem ofLoads_last {before after : List ElfPhdr} (hph : ∀ pageVa ∈ ph.pages bias,
    pageVa.toNat < 2 ^ 47) (hcovers : ph.Covers bias page)
    (hafter : ∀ ph' ∈ after, (∀ pageVa ∈ ph'.pages bias, pageVa.toNat < 2 ^ 47) ∧
      ¬ ph'.Covers bias page) :
    (ofLoads file bias (before ++ ph :: after)).1 page =
      some (nextPage file bias ph (ofLoads file bias before).2 page
        ((ofLoads file bias before).1 page)) := by
  induction after using List.reverseRecOn with
  | nil => rw [ofLoads_concat_apply hph, if_pos hcovers]
  | append_singleton after ph' ih =>
      obtain ⟨hph', hout⟩ := hafter ph' (by simp)
      rw [← List.cons_append, ← List.append_assoc, ofLoads_concat_apply hph', if_neg hout]
      exact ih fun ph'' hmem => hafter ph'' (List.mem_append_left [ph'] hmem)

end UserImage

/-- Of the segments that cover a page, the last one. -/
theorem exists_last_covering {bias : Word} {page : Vpn} {loads : List ElfPhdr}
    (h : ∃ ph ∈ loads, ph.Covers bias page) : ∃ before last after,
      loads = before ++ last :: after ∧ last.Covers bias page ∧
        ∀ ph ∈ after, ¬ ph.Covers bias page := by
  induction loads with
  | nil =>
      obtain ⟨ph, hph, -⟩ := h
      cases hph
  | cons head loads ih =>
      by_cases hrest : ∃ ph ∈ loads, ph.Covers bias page
      · obtain ⟨before, last, after, rfl, hlast, hafter⟩ := ih hrest
        exact ⟨head :: before, last, after, rfl, hlast, hafter⟩
      · obtain ⟨ph, hph, hcovers⟩ := h
        refine ⟨[], head, loads, rfl, ?_, fun ph' hph' hcovers' => hrest ⟨ph', hph', hcovers'⟩⟩
        rcases List.mem_cons.mp hph with rfl | hph
        · exact hcovers
        · exact absurd ⟨ph, hph, hcovers⟩ hrest

/-! ### The bytes of a page -/

/-- A byte of a page, at its offset. -/
theorem Vpn.addr_add_toNat (page : Vpn) (i : BitVec 12) :
    (page.addr + i.setWidth 64).toNat = page.addr.toNat + i.toNat := by
  have hlt := page.isLt
  have hi := i.isLt
  have hpage := page.addr_toNat
  have hwide : (i.setWidth 64).toNat = i.toNat := by
    rw [BitVec.toNat_setWidth]
    omega
  rw [toNat_add_of_lt (by omega), hwide]

theorem offset_toNat {dst : Word} (hfit : dst.toNat + 4096 ≤ 2 ^ 64) (i : BitVec 12) :
    (dst + i.setWidth 64).toNat = dst.toNat + i.toNat := by
  have hi := i.isLt
  have hwide : (i.setWidth 64).toNat = i.toNat := by
    rw [BitVec.toNat_setWidth]
    omega
  rw [toNat_add_of_lt (by omega), hwide]

theorem offset_mem_span {dst : Word} (hfit : dst.toNat + 4096 ≤ 2 ^ 64) (i : BitVec 12) :
    dst + i.setWidth 64 ∈ span dst 4096 := by
  have hi := i.isLt
  rw [mem_span, offset_toNat hfit]
  omega

namespace ElfFile

variable {file : ElfFile} {bias dst pageVa : Word} {ph : ElfPhdr} {page : Vpn} {m : Memory}

/-- `copy_lo`. -/
def copyLo (bias : Word) (ph : ElfPhdr) (pageVa : Word) : Word :=
  if bias + ph.vaddr < pageVa then pageVa else bias + ph.vaddr

/-- `copy_hi`. -/
def copyHi (bias : Word) (ph : ElfPhdr) (pageVa : Word) : Word :=
  if pageVa + 0x1000 < bias + ph.vaddr + ph.filesz then pageVa + 0x1000
  else bias + ph.vaddr + ph.filesz

theorem page_end (huser : page.User) :
    (page.addr + 0x1000).toNat = page.addr.toNat + 4096 := by
  have hlt := huser.addr_lt
  exact toNat_add_of_lt (by rw [show (0x1000 : Word).toNat = 4096 from rfl]; omega)

/-- The copied range is what the file has of the page. -/
theorem copy_range (huser : page.User) (i : BitVec 12) :
    (copyLo bias ph page.addr ≤ page.addr + i.setWidth 64 ∧
      page.addr + i.setWidth 64 < copyHi bias ph page.addr) ↔
      ph.HasByte bias (page.addr + i.setWidth 64) := by
  have hi := i.isLt
  have hend := page_end huser
  have hva := page.addr_add_toNat i
  rw [ElfPhdr.HasByte, copyLo, copyHi]
  split_ifs with hlo hhi hhi <;> simp only [BitVec.le_def, BitVec.lt_def, hend, hva] at * <;>
    omega

/-- The bounds of the copied range in a page. -/
theorem copy_bounds (haligned : pageVa.toNat % 4096 = 0)
    (hlt : copyLo bias ph pageVa < copyHi bias ph pageVa) :
    pageVa.toNat ≤ (copyLo bias ph pageVa).toNat ∧
      (copyHi bias ph pageVa).toNat ≤ pageVa.toNat + 4096 := by
  have hend : (pageVa + 0x1000).toNat = (pageVa.toNat + 4096) % 2 ^ 64 := by
    rw [BitVec.toNat_add]
    rfl
  have hbound := pageVa.isLt
  rw [copyLo, copyHi] at hlt ⊢
  split_ifs at hlt ⊢ with hlo hhi hhi <;> simp only [BitVec.lt_def, hend, not_lt] at * <;> omega

theorem copyPage_of_lt (hlt : copyLo bias ph pageVa < copyHi bias ph pageVa) :
    file.copyPage bias ph pageVa dst m =
      m.store (dst + (copyLo bias ph pageVa - pageVa))
        ((List.range (copyHi bias ph pageVa - copyLo bias ph pageVa).toNat).map fun b =>
          file.byte (ph.offset + (copyLo bias ph pageVa - (bias + ph.vaddr)) +
            BitVec.ofNat 64 b)) :=
  if_pos hlt

theorem copyPage_of_not_lt (hlt : ¬ copyLo bias ph pageVa < copyHi bias ph pageVa) :
    file.copyPage bias ph pageVa dst m = m :=
  if_neg hlt

/-- The part of the page that is copied from the file. -/
theorem copyPage_eq (huser : page.User) (i : BitVec 12) :
    file.copyPage bias ph page.addr dst m (dst + i.setWidth 64) =
      if ph.HasByte bias (page.addr + i.setWidth 64) then
        file.byte (ph.fileOffset bias (page.addr + i.setWidth 64))
      else m (dst + i.setWidth 64) := by
  have hrange := @copy_range bias ph _ huser i
  by_cases hlt : copyLo bias ph page.addr < copyHi bias ph page.addr
  · obtain ⟨hlo, hhi⟩ := copy_bounds page.addr_mod hlt
    have hpage := huser.addr_lt
    have hva := page.addr_add_toNat i
    have hi := i.isLt
    rw [copyPage_of_lt hlt, ElfPhdr.fileOffset]
    generalize copyLo bias ph page.addr = lo at *
    generalize copyHi bias ph page.addr = hi' at *
    generalize hw : page.addr + i.setWidth 64 = va at *
    have hindex : dst + i.setWidth 64 - (dst + (lo - page.addr)) = va - lo := by
      rw [← hw]
      grind
    have hlen : (hi' - lo).toNat = hi'.toNat - lo.toNat := BitVec.toNat_sub_of_le (BitVec.le_of_lt hlt)
    rw [Memory.store, hindex, hlen, List.getD_eq_getElem?_getD, List.getElem?_map]
    by_cases hbyte : ph.HasByte bias va
    · obtain ⟨hge, hle⟩ := hrange.mpr hbyte
      have hsub : (va - lo).toNat = va.toNat - lo.toNat := BitVec.toNat_sub_of_le hge
      have hin : va.toNat - lo.toNat < hi'.toNat - lo.toNat := by
        rw [BitVec.lt_def] at hle
        rw [BitVec.le_def] at hge
        omega
      have hcast : BitVec.ofNat 64 (va.toNat - lo.toNat) = va - lo := by
        rw [← hsub, BitVec.ofNat_toNat, BitVec.setWidth_eq]
      rw [if_pos hbyte, hsub, List.getElem?_range hin, Option.map_some, Option.getD_some, hcast]
      congr 1
      grind
    · have hout : ¬ (va - lo).toNat < hi'.toNat - lo.toNat := by
        intro hlt'
        refine hbyte (hrange.mp ?_)
        rw [BitVec.toNat_sub] at hlt'
        rw [BitVec.le_def, BitVec.lt_def]
        omega
      rw [if_neg hbyte, List.getElem?_eq_none (by rw [List.length_range]; omega)]
      rfl
  · have hbyte : ¬ ph.HasByte bias (page.addr + i.setWidth 64) := by
      intro h
      obtain ⟨hge, hle⟩ := hrange.mpr h
      rw [BitVec.le_def] at hge
      rw [BitVec.lt_def] at hle hlt
      exact hlt (hge.trans_lt hle)
    rw [copyPage_of_not_lt hlt, if_neg hbyte]

theorem copyPage_eqOn (haligned : pageVa.toNat % 4096 = 0) (hfit : dst.toNat + 4096 ≤ 2 ^ 64) :
    Set.EqOn (file.copyPage bias ph pageVa dst m) m (span dst 4096)ᶜ := by
  by_cases hlt : copyLo bias ph pageVa < copyHi bias ph pageVa
  · obtain ⟨hlo, hhi⟩ := copy_bounds haligned hlt
    rw [copyPage_of_lt hlt]
    have hlen : (copyHi bias ph pageVa - copyLo bias ph pageVa).toNat =
        (copyHi bias ph pageVa).toNat - (copyLo bias ph pageVa).toNat :=
      BitVec.toNat_sub_of_le (BitVec.le_of_lt hlt)
    have hsub : (copyLo bias ph pageVa - pageVa).toNat =
        (copyLo bias ph pageVa).toNat - pageVa.toNat := BitVec.toNat_sub_of_le hlo
    rw [BitVec.lt_def] at hlt
    have hstart : (dst + (copyLo bias ph pageVa - pageVa)).toNat =
        dst.toNat + ((copyLo bias ph pageVa).toNat - pageVa.toNat) := by
      rw [toNat_add_of_lt (by omega), hsub]
    refine (Memory.store_eqOn m ?_).mono (Set.compl_subset_compl.mpr (span_subset_span ?_ ?_)) <;>
      simp only [List.length_map, List.length_range, hlen, hstart] <;> omega
  · rw [copyPage_of_not_lt hlt]
    exact Set.eqOn_refl m _

end ElfFile

end Utopia
