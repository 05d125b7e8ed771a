/-
The rights of the pages that `elf_load` maps: a page that several segments share has the union
of their rights only when the last of them and the header before it have them all.
-/
import Utopia.Exec.ElfSpace
import Utopia.Mm.Tenant

namespace Utopia

/-- What a process may do with a page beside reading it. -/
inductive Right
  | write
  | exec
deriving DecidableEq, Repr

def VmFlags.has (flags : VmFlags) : Right → Bool
  | .write => flags.write
  | .exec => flags.exec

namespace ElfPhdr

/-- `PF_W` or `PF_X` is set. -/
def has (ph : ElfPhdr) : Right → Bool
  | .write => ph.isWritable
  | .exec => ph.isExecutable

/-- The bytes of the segment in memory reach into the page. -/
def Intersects (ph : ElfPhdr) (bias : Word) (page : Vpn) : Prop :=
  0 < ph.memsz.toNat ∧ (bias + ph.vaddr).toNat < page.addr.toNat + 4096 ∧
    page.addr.toNat < (bias + ph.vaddr).toNat + ph.memsz.toNat

instance (ph : ElfPhdr) (bias : Word) (page : Vpn) : Decidable (ph.Intersects bias page) :=
  inferInstanceAs (Decidable (_ ∧ _ ∧ _))

theorem pageFlags_has (ph : ElfPhdr) (right : Right) : ph.pageFlags.has right = ph.has right := by
  cases right <;> rfl

end ElfPhdr

theorem VmFlags.or_has (a b : VmFlags) (right : Right) :
    (a.or b).has right = (a.has right || b.has right) := by
  cases right <;> rfl

theorem VmFlags.none_has (right : Right) : VmFlags.none.has right = false := by
  cases right <;> rfl

namespace ElfFile

variable (file : ElfFile) (bias : Word)

/-- Each user page has the union of the rights of the segments that reach into it. -/
def UnionRights (space : AddressSpace) : Prop :=
  ∀ page : Vpn, page.User → ∀ x, space page = some x → x.flags.user = true ∧
    ∀ right, x.flags.has right = true ↔
      ∃ ph ∈ file.loads, ph.Intersects bias page ∧ ph.has right = true

/-- For each page, the last `PT_LOAD` that covers it and, when an earlier one covers it too, the
`PT_LOAD` in front of the last have between them the rights of those that reach into it. -/
def TwoHeadersSuffice : Prop :=
  ∀ page : Vpn, ∀ before last after, file.loads = before ++ last :: after →
    last.Covers bias page → (∀ ph ∈ after, ¬ ph.Covers bias page) → ∀ right,
      ((last.has right = true ∨ (∃ ph ∈ before, ph.Covers bias page) ∧
        ∃ ph ∈ before.getLast?, ph.has right = true) ↔
          ∃ ph ∈ file.loads, ph.Intersects bias page ∧ ph.has right = true)

end ElfFile

namespace UserImage

variable {file : ElfFile} {bias : Word} {last : ElfPhdr} {page : Vpn} {before : List ElfPhdr}

theorem nextPage_user (old : Option UserPage) (prev : VmFlags) :
    (nextPage file bias last prev page old).flags.user = true := by
  cases old <;> rfl

/-- The rights that the last segment leaves to a page. -/
theorem nextPage_has
    (hconfined : ∀ ph ∈ before, ∀ pageVa ∈ ph.pages bias, pageVa.toNat < 2 ^ 47) (right : Right) :
    (nextPage file bias last (ofLoads file bias before).2 page
        ((ofLoads file bias before).1 page)).flags.has right = true ↔
      last.has right = true ∨ (∃ ph ∈ before, ph.Covers bias page) ∧
        ∃ ph ∈ before.getLast?, ph.has right = true := by
  have hsome := @ofLoads_isSome file _ page _ hconfined
  have hprev : ((ofLoads file bias before).2).has right = true ↔
      ∃ ph ∈ before.getLast?, ph.has right = true := by
    rw [ofLoads_prev]
    cases before.getLast? with
    | none => simp [VmFlags.none_has]
    | some ph => simp [ph.pageFlags_has right]
  cases hold : (ofLoads file bias before).1 page with
  | none =>
      have hnone : ¬ ∃ ph ∈ before, ph.Covers bias page := by
        rw [← hsome, hold]
        exact Bool.false_ne_true
      simp only [nextPage, Option.elim_none, last.pageFlags_has right, hnone, false_and, or_false]
  | some p =>
      have hcovered : ∃ ph ∈ before, ph.Covers bias page := by
        rw [← hsome, hold]
        rfl
      simp only [nextPage, Option.elim_some, VmFlags.or_has, last.pageFlags_has right,
        Bool.or_eq_true, hprev, hcovered, true_and]

end UserImage

namespace Machine

variable {k : Machine} {m m' : Memory} {live : Set Chunk} {roots : Set TableAddr} {r : TableAddr}
  {file : ElfFile} {loadBias : Word} {result : ElfLoadResult} {page : Vpn} {last : ElfPhdr}
  {before after : List ElfPhdr}

/-- The page that a load leaves below its last segment. -/
theorem elfLoad_last (htables : k.PageTables m live roots) (hr : r ∈ roots)
    (hempty : ∀ page : Vpn, page.User → k.spaceOf m r.addr page = none)
    (hconfined : file.Confined (file.biasFor loadBias))
    (hgranted : k.LoadGranted file r.addr loadBias m)
    (hok : k.elfLoad file r.addr loadBias m = .ok (result, m'))
    (hsplit : file.loads = before ++ last :: after)
    (hcovers : last.Covers (file.biasFor loadBias) page)
    (hafter : ∀ ph ∈ after, ¬ ph.Covers (file.biasFor loadBias) page) :
    page.User ∧ ∃ x, k.spaceOf m' r.addr page = some x ∧ x.flags.user = true ∧
      ∀ right, x.flags.has right = true ↔
        last.has right = true ∨ (∃ ph ∈ before, ph.Covers (file.biasFor loadBias) page) ∧
          ∃ ph ∈ before.getLast?, ph.has right = true := by
  obtain ⟨live', pages, hpages, himage⟩ :=
    elfLoad_shows (LoadedPages.of_empty htables hr hempty) hconfined hgranted hok
  rw [ElfFile.Confined, hsplit] at hconfined
  have hlast := hconfined last (by simp)
  have huser : page.User := Vpn.user_iff.mpr
    (hlast page.addr (ElfPhdr.mem_pages.mpr ⟨page.addr_mod, hcovers⟩))
  have hpage := himage page huser
  rw [hsplit, UserImage.ofLoads_last hlast hcovers fun ph hph =>
    ⟨hconfined ph (by simp [hph]), hafter ph hph⟩, userImage, Option.map_eq_some_iff] at hpage
  obtain ⟨x, hx, heq⟩ := hpage
  have hflags := congrArg UserPage.flags heq
  refine ⟨huser, x, hx, ?_, fun right => ?_⟩
  · exact (congrArg VmFlags.user hflags).trans (UserImage.nextPage_user _ _)
  · rw [← @UserImage.nextPage_has file _ _ page _ (fun ph hph => hconfined ph (by simp [hph])) right]
    exact Eq.congr_left (congrArg (VmFlags.has · right) hflags)

/-- The pages of a load have the union of their segments' rights exactly when two headers tell
it for each page. -/
theorem elfLoad_unionRights_iff (htables : k.PageTables m live roots) (hr : r ∈ roots)
    (hempty : ∀ page : Vpn, page.User → k.spaceOf m r.addr page = none)
    (hconfined : file.Confined (file.biasFor loadBias))
    (hgranted : k.LoadGranted file r.addr loadBias m)
    (hok : k.elfLoad file r.addr loadBias m = .ok (result, m')) :
    file.UnionRights (file.biasFor loadBias) (k.spaceOf m' r.addr) ↔
      file.TwoHeadersSuffice (file.biasFor loadBias) := by
  constructor
  · intro hunion page before last after hsplit hcovers hafter right
    obtain ⟨huser, x, hx, -, hrights⟩ :=
      elfLoad_last htables hr hempty hconfined hgranted hok hsplit hcovers hafter
    rw [← hrights right]
    exact (hunion page huser x hx).2 right
  · intro hheaders page huser x hx
    have hcovered : ∃ ph ∈ file.loads, ph.Covers (file.biasFor loadBias) page := by
      obtain ⟨live', pages, hpages, himage⟩ :=
        elfLoad_shows (LoadedPages.of_empty htables hr hempty) hconfined hgranted hok
      rw [← @UserImage.ofLoads_isSome file _ _ _ hconfined, ← himage page huser, userImage, hx]
      rfl
    obtain ⟨before, last, after, hsplit, hcovers, hafter⟩ := exists_last_covering hcovered
    obtain ⟨-, x', hx', huser', hrights⟩ :=
      elfLoad_last htables hr hempty hconfined hgranted hok hsplit hcovers hafter
    obtain rfl := Option.some.inj (hx.symm.trans hx')
    refine ⟨huser', fun right => ?_⟩
    rw [hrights right]
    exact hheaders page before last after hsplit hcovers hafter right

end Machine

/-! ### An image with three segments on one page -/

/-- The `n` low bytes of a number, in the order of memory. -/
def littleEndian (x : ℕ) : ℕ → List Byte
  | 0 => []
  | n + 1 => BitVec.ofNat 8 x :: littleEndian (x / 256) n

/-- The header of an `ET_EXEC` image for x86_64, whose program headers follow it. -/
def sampleEhdr (phnum : ℕ) : List Byte :=
  [0x7f, 0x45, 0x4C, 0x46, 2, 1, 1, 0] ++ littleEndian 0 8 ++ littleEndian 2 2 ++
    littleEndian 0x3e 2 ++ littleEndian 1 4 ++ littleEndian 0x400000 8 ++ littleEndian 64 8 ++
    littleEndian 0 8 ++ littleEndian 0 4 ++ littleEndian 64 2 ++ littleEndian 56 2 ++
    littleEndian phnum 2 ++ littleEndian 0 6

/-- A `PT_LOAD` header for the start of the file. -/
def samplePhdr (flags vaddr size : ℕ) : List Byte :=
  littleEndian 1 4 ++ littleEndian flags 4 ++ littleEndian 0 8 ++ littleEndian vaddr 8 ++
    littleEndian 0 8 ++ littleEndian size 8 ++ littleEndian size 8 ++ littleEndian 0 8

/-- The image with the bytes of a list. -/
def ElfFile.ofList (bytes : List Byte) : ElfFile :=
  ⟨fun a => bytes.getD a.toNat 0, BitVec.ofNat 64 bytes.length⟩

/-- Data at the start of a page, code behind it, constants at the end. -/
def sampleElf : ElfFile :=
  ElfFile.ofList (sampleEhdr 3 ++ samplePhdr 6 0x400000 16 ++ samplePhdr 5 0x400100 16 ++
    samplePhdr 4 0x400200 16)

/-- The rights of a page after a load that succeeds. -/
def Machine.rightsAfter (k : Machine) (file : ElfFile) (l4 loadBias : Word) (m : Memory)
    (page : Vpn) : Option VmFlags :=
  (k.elfLoad file l4 loadBias m).toOption.bind fun out =>
    (k.spaceOf out.2 l4 page).map Mapping.flags

theorem Machine.rightsAfter_eq_some {k : Machine} {file : ElfFile} {l4 loadBias : Word}
    {m : Memory} {page : Vpn} {flags : VmFlags}
    (h : k.rightsAfter file l4 loadBias m page = some flags) : ∃ result m' x,
      k.elfLoad file l4 loadBias m = .ok (result, m') ∧ k.spaceOf m' l4 page = some x ∧
        x.flags = flags := by
  rw [rightsAfter] at h
  generalize k.elfLoad file l4 loadBias m = loaded at *
  cases loaded with
  | error e => cases h
  | ok out =>
      obtain ⟨x, hx, hflags⟩ := Option.map_eq_some_iff.mp h
      exact ⟨out.1, out.2, x, rfl, hx, hflags⟩

/-- The page of the sample can be executed, but not written. -/
theorem sampleElf_rights : (sampleMachine .x86_64).rightsAfter sampleElf sampleTable.addr 0
    sampleSpace.2 0x400 = some ⟨false, true, true, false⟩ := by
  decide +kernel

theorem sampleElf_confined : sampleElf.Confined (sampleElf.biasFor 0) := by
  decide +kernel

theorem sampleElf_granted :
    (sampleMachine .x86_64).LoadGranted sampleElf sampleTable.addr 0 sampleSpace.2 := by
  decide +kernel

/-- The fresh space of the sample has no user page. -/
theorem sampleTable_empty (page : Vpn) (huser : page.User) :
    (sampleMachine .x86_64).spaceOf sampleSpace.2 sampleTable.addr page = none := by
  obtain ⟨c, hspace⟩ := sampleNewSpace
  exact hspace.root.spaceOf_user huser

namespace Machine

/-- Data that a later segment shares its page with can no longer be written. -/
theorem elfLoad_loses_write : ∃ (k : Machine) (m : Memory) (live : Set Chunk)
    (roots : Set TableAddr) (r : TableAddr) (file : ElfFile) (result : ElfLoadResult)
    (m' : Memory), k.PageTables m live roots ∧ r ∈ roots ∧
      (∀ page : Vpn, page.User → k.spaceOf m r.addr page = none) ∧
      k.elfLoad file r.addr 0 m = .ok (result, m') ∧
      ¬ file.UnionRights (file.biasFor 0) (k.spaceOf m' r.addr) := by
  obtain ⟨c, hspace⟩ := sampleNewSpace
  obtain ⟨result, m', x, hok, hx, hflags⟩ := rightsAfter_eq_some sampleElf_rights
  refine ⟨sampleMachine .x86_64, sampleSpace.2, _, _, sampleTable, sampleElf, result, m',
    hspace.tables, Set.mem_insert _ _, sampleTable_empty, hok, fun hunion => ?_⟩
  have huser : Vpn.User 0x400 := Vpn.user_iff.mpr (by decide)
  have hwrite : x.flags.has .write = true :=
    ((hunion 0x400 huser x hx).2 .write).mpr (by decide +kernel)
  rw [hflags] at hwrite
  cases hwrite

/-- The image with three segments on one page. -/
theorem elfLoad_unionRights_iff_sample : ∃ result m',
    (sampleMachine .x86_64).elfLoad sampleElf sampleTable.addr 0 sampleSpace.2 =
      .ok (result, m') ∧
    (sampleElf.UnionRights (sampleElf.biasFor 0)
        ((sampleMachine .x86_64).spaceOf m' sampleTable.addr) ↔
      sampleElf.TwoHeadersSuffice (sampleElf.biasFor 0)) := by
  obtain ⟨c, hspace⟩ := sampleNewSpace
  obtain ⟨result, m', x, hok, -, -⟩ := rightsAfter_eq_some sampleElf_rights
  exact ⟨result, m', hok, elfLoad_unionRights_iff hspace.tables (Set.mem_insert _ _)
    sampleTable_empty sampleElf_confined sampleElf_granted hok⟩

end Machine

end Utopia
