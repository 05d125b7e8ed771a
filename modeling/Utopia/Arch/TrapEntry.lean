/-
The entry code of x86_64: the stubs and `isr_common` of `idt/load.asm`, and `syscall_entry` of
`syscall/entry.asm`, instruction by instruction.
-/
import Mathlib.Data.List.GetD
import Mathlib.Tactic.FinCases
import Utopia.Exec.ProcessClone
import Utopia.Lib.Processor

namespace Utopia

open Processor (Reg Instr Env)

/-- The registers of `POP_GPRS` in their order. -/
def gprs : List Reg :=
  [.rax, .rbx, .rcx, .rdx, .rsi, .rdi, .rbp, .r8, .r9, .r10, .r11, .r12, .r13, .r14, .r15]

inductive IsrLabel where
  | noSwapgsEntry
  | exitSameFrame
  | noSwapgsExit
deriving DecidableEq, Repr

/-- `isr_common` from `.exit_same_frame` on. -/
def exitSameFrame : List (Instr IsrLabel) :=
  [.testMem .rsp 144 3, .jz .noSwapgsExit, .swapgs, .label .noSwapgsExit] ++
    (gprs.map .pop ++ [.addImm .rsp 16, .iretq])

/-- The part for a frame of another thread of the kernel: the three words of `iretq` go below
the words that its interrupt left on its stack. -/
def exitKernelFrame : List (Instr IsrLabel) :=
  [.load .rdx .rsp 160, .subImm .rdx 24, .load .rcx .rsp 136, .store .rdx 0 .rcx,
    .load .rcx .rsp 144, .store .rdx 8 .rcx, .load .rcx .rsp 152, .store .rdx 16 .rcx,
    .store .rsp 160 .rdx] ++
    (gprs.map .pop ++ [.addImm .rsp 16, .load .rsp .rsp 24, .iretq])

/-- `isr_common` behind the call of `isr_handler`. -/
def isrReturn : List (Instr IsrLabel) :=
  [.cmp .rax .rbx, .mov .rsp .rax, .jz .exitSameFrame, .testMem .rsp 144 3,
    .jnz .exitSameFrame] ++
    (exitKernelFrame ++ .label .exitSameFrame :: exitSameFrame)

/-- `isr_common`. -/
def isrCommon : List (Instr IsrLabel) :=
  gprs.reverse.map .push ++
    ([.testMem .rsp 144 3, .jz .noSwapgsEntry, .swapgs, .label .noSwapgsEntry, .mov .rdi .rsp,
      .mov .rbx .rdi, .subImm .rsp 8, .call] ++ isrReturn)

/-- The vectors of `ISR_ERR`, for which the processor pushes an error code. -/
def isrErr (vector : Word) : Bool :=
  vector = 8 ∨ 10 ≤ vector ∧ vector ≤ 14 ∨ vector = 17 ∨ vector = 30

/-- `ISR_NOERR`, `ISR_ERR` and `IRQ`, each with the jump to the instruction behind it. -/
def isrStub (vector : Word) : List (Instr IsrLabel) :=
  (if isrErr vector then [.pushImm vector] else [.pushImm 0, .pushImm vector]) ++ isrCommon

/-! ### Frames -/

/-- The `registers_t` at an address. -/
def Memory.frame (m : Memory) (a : Word) : X86Registers where
  rax := m.read64 a
  general i := m.read64 (a + BitVec.ofNat 64 (8 * (i + 1)))
  intNo := m.read64 (a + 120)
  errCode := m.read64 (a + 128)
  rip := m.read64 (a + 136)
  cs := m.read64 (a + 144)
  rflags := m.read64 (a + 152)
  rsp := m.read64 (a + 160)
  ss := m.read64 (a + 168)

/-- A frame is its 22 words. -/
theorem frame_eq {m m' : Memory} {a b : Word}
    (h : ∀ off : Word, off.toNat + 8 ≤ 176 → m'.read64 (b + off) = m.read64 (a + off)) :
    m'.frame b = m.frame a := by
  have hzero (x : Word) : x + 0 = x := BitVec.add_zero x
  have hfirst := h 0 (by decide)
  rw [hzero, hzero] at hfirst
  rw [Memory.frame, Memory.frame, X86Registers.mk.injEq]
  refine ⟨hfirst, funext fun i => h _ ?_, ?_, ?_, ?_, ?_, ?_, ?_, ?_⟩
  · rw [BitVec.toNat_ofNat]
    omega
  all_goals exact h _ (by decide)

namespace Processor

/-- What the processor runs with, with the two words of the stub. -/
def registers (s : Processor) (intNo errCode : Word) : X86Registers where
  rax := s.reg .rax
  general i := s.reg (gprs.getD (i + 1) .rax)
  intNo := intNo
  errCode := errCode
  rip := s.rip
  cs := s.cs
  rflags := s.rflags
  rsp := s.sp
  ss := s.ss

/-- The processor runs with the registers of a frame. -/
def Shows (s : Processor) (regs : X86Registers) : Prop :=
  s.registers regs.intNo regs.errCode = regs

/-- `swapgs`, if it is executed. -/
def swapgsIf (s : Processor) (b : Bool) : Processor := if b then s.swapgs else s

variable {s : Processor} {env : Env} {m : Memory} {a : Word}

@[simp] theorem swapgsIf_reg (b : Bool) : (s.swapgsIf b).reg = s.reg := by
  cases b <;> rfl

@[simp] theorem swapgsIf_mem (b : Bool) : (s.swapgsIf b).mem = s.mem := by
  cases b <;> rfl

@[simp] theorem swapgsIf_cs (b : Bool) : (s.swapgsIf b).cs = s.cs := by
  cases b <;> rfl

theorem swapgsIf_bases {u : Processor} (hgs : u.gsBase = s.gsBase)
    (hkernel : u.kernelGsBase = s.kernelGsBase) (b : Bool) :
    (u.swapgsIf b).gsBase = (s.swapgsIf b).gsBase ∧
      (u.swapgsIf b).kernelGsBase = (s.swapgsIf b).kernelGsBase := by
  cases b
  · exact ⟨hgs, hkernel⟩
  · exact ⟨hkernel, hgs⟩

/-! ### The way out -/

/-- The registers of the frame popped, up to `iretq`. -/
def popFrame (s : Processor) : Processor :=
  exec (.addImm .rsp 16 : Instr IsrLabel) (s.popRegs gprs)

theorem gprs_nodup : gprs.Nodup := by decide

theorem rsp_notMem_gprs : .rsp ∉ gprs := by decide

theorem popFrame_onlyRegs (s : Processor) : OnlyRegs s s.popFrame :=
  (popRegs_onlyRegs s gprs).trans (addImm_onlyRegs _ _ _)

/-- `iretq` finds its words behind the registers. -/
theorem popFrame_sp (s : Processor) : s.popFrame.sp = s.sp + 136 := by
  have hsp : (s.popRegs gprs).sp = s.sp + 120 := popRegs_sp rsp_notMem_gprs
  rw [popFrame]
  generalize s.popRegs gprs = u at hsp
  change (u.setReg .rsp (u.sp + 16)).reg .rsp = s.sp + 136
  rw [setReg_self, hsp]
  grind

theorem popFrame_reg {i : ℕ} (hi : i < gprs.length) :
    s.popFrame.reg gprs[i] = s.mem.read64 (s.sp + BitVec.ofNat 64 (8 * i)) := by
  have hne : gprs[i] ≠ .rsp := fun heq => rsp_notMem_gprs (heq ▸ List.getElem_mem hi)
  rw [← popRegs_reg rsp_notMem_gprs gprs_nodup hi, popFrame]
  generalize s.popRegs gprs = u
  change (u.setReg .rsp (u.sp + 16)).reg gprs[i] = u.reg gprs[i]
  exact setReg_of_ne hne

theorem leaves_popFrame {rest : List (Instr IsrLabel)} {t : Processor}
    (h : Leaves env isrCommon rest s.popFrame t) :
    Leaves env isrCommon (gprs.map .pop ++ .addImm .rsp 16 :: rest) s t := by
  refine leaves_append (isStraight_pop gprs) (leaves_exec rfl ?_)
  rw [foldl_pop]
  exact h

theorem iretq_reg {r : Reg} (hr : r ≠ .rsp) : s.iretq.reg r = s.reg r := setReg_of_ne hr

theorem iretq_sp (s : Processor) : s.iretq.sp = s.mem.read64 (s.sp + 24) := by
  change (s.setReg .rsp (s.mem.read64 (s.sp + 24))).reg .rsp = s.mem.read64 (s.sp + 24)
  exact setReg_self

/-- `iretq` with the general registers of a frame, and its other words at the stack pointer. -/
theorem iretq_shows (hreg : ∀ i (hi : i < gprs.length),
    s.reg gprs[i] = m.read64 (a + BitVec.ofNat 64 (8 * i))) :
    s.iretq.Shows { m.frame a with
      rip := s.mem.read64 s.sp
      cs := s.mem.read64 (s.sp + 8)
      rflags := s.mem.read64 (s.sp + 16)
      rsp := s.mem.read64 (s.sp + 24)
      ss := s.mem.read64 (s.sp + 32) } := by
  rw [Shows, registers, Memory.frame, X86Registers.mk.injEq]
  refine ⟨?_, funext fun i => ?_, rfl, rfl, rfl, rfl, rfl, s.iretq_sp, rfl⟩
  · have hzero : a + BitVec.ofNat 64 (8 * 0) = a := by simp
    have hrax := hreg 0 (by decide)
    rw [hzero] at hrax
    exact (iretq_reg (by decide)).trans hrax
  · have hi : i.val + 1 < gprs.length := by
      change i.val + 1 < 15
      omega
    have hne : gprs[i.val + 1] ≠ .rsp := fun heq => rsp_notMem_gprs (heq ▸ List.getElem_mem hi)
    rw [List.getD_eq_getElem _ _ hi]
    exact (iretq_reg hne).trans (hreg _ hi)

/-- `iretq` behind the registers of a frame. -/
theorem iretq_popFrame_shows (s : Processor) : s.popFrame.iretq.Shows (s.mem.frame s.sp) := by
  have hshows := iretq_shows (s := s.popFrame) fun i hi => popFrame_reg hi
  have hword (off : Word) :
      s.popFrame.mem.read64 (s.popFrame.sp + off) = s.mem.read64 (s.sp + (136 + off)) := by
    rw [s.popFrame_onlyRegs.mem, popFrame_sp, BitVec.add_assoc]
  have hfirst : s.popFrame.mem.read64 s.popFrame.sp = s.mem.read64 (s.sp + 136) := by
    rw [s.popFrame_onlyRegs.mem, popFrame_sp]
  rw [hfirst, hword, hword, hword, hword] at hshows
  exact hshows

/-- `.exit_same_frame` loads the frame at the stack pointer, and swaps the bases of `gs` for a
frame of user code. -/
theorem exitSameFrame_leaves (env : Env) (s : Processor) :
    ∃ t, Leaves env isrCommon exitSameFrame s t ∧ t.Shows (s.mem.frame s.sp) ∧
      OnlyRegs (s.swapgsIf ((s.mem.frame s.sp).cs &&& 3 ≠ 0)) t := by
  have hexit : after isrCommon .noSwapgsExit = gprs.map .pop ++ [.addImm .rsp 16, .iretq] := by
    decide
  by_cases huser : s.mem.read64 (s.reg .rsp + 144) &&& 3 = 0
  · have hcs : (decide ((s.mem.frame s.sp).cs &&& 3 ≠ 0)) = false :=
      decide_eq_false (not_not.mpr huser)
    rw [hcs]
    have hsame : OnlyRegs s (s.setZero true) := ⟨rfl, rfl, rfl⟩
    refine ⟨(s.setZero true).popFrame.iretq, ?_, iretq_popFrame_shows (s.setZero true),
      hsame.trans ((popFrame_onlyRegs _).trans (iretq_onlyRegs _))⟩
    refine leaves_exec rfl (leaves_jz ?_)
    rw [exec, decide_eq_true huser, zeroFlag_setZero, if_pos rfl, hexit]
    exact leaves_popFrame leaves_iretq
  · have hcs : (decide ((s.mem.frame s.sp).cs &&& 3 ≠ 0)) = true := decide_eq_true huser
    rw [hcs]
    have hsame : OnlyRegs s.swapgs (s.setZero false).swapgs := ⟨rfl, rfl, rfl⟩
    refine ⟨(s.setZero false).swapgs.popFrame.iretq, ?_,
      iretq_popFrame_shows (s.setZero false).swapgs,
      hsame.trans ((popFrame_onlyRegs _).trans (iretq_onlyRegs _))⟩
    refine leaves_exec rfl (leaves_jz ?_)
    rw [exec, decide_eq_false huser, zeroFlag_setZero, if_neg Bool.false_ne_true]
    exact leaves_exec rfl (leaves_exec rfl (leaves_popFrame leaves_iretq))

/-- Behind `isr_handler`: the frame it left on, or one of user code. -/
theorem isrReturn_leaves (env : Env)
    (hback : s.reg .rax = s.reg .rbx ∨ (s.mem.frame (s.reg .rax)).cs &&& 3 ≠ 0) :
    ∃ t, Leaves env isrCommon isrReturn s t ∧ t.Shows (s.mem.frame (s.reg .rax)) ∧
      OnlyRegs (s.swapgsIf ((s.mem.frame (s.reg .rax)).cs &&& 3 ≠ 0)) t := by
  have hexit : after isrCommon .exitSameFrame = exitSameFrame := by decide
  have hswap (u : Processor) (b : Bool) (hu : OnlyRegs s u) :
      OnlyRegs (s.swapgsIf b) (u.swapgsIf b) := by
    cases b
    · exact hu
    · exact ⟨hu.mem, hu.kernelGsBase, hu.gsBase⟩
  by_cases hsame : s.reg .rax = s.reg .rbx
  · let u := (s.setZero true).setReg .rsp (s.reg .rax)
    have hsp : u.sp = s.reg .rax := setReg_self
    obtain ⟨t, hleaves, hshows, honly⟩ := exitSameFrame_leaves env u
    rw [hsp] at hshows honly
    refine ⟨t, ?_, hshows, (hswap u _ ⟨rfl, rfl, rfl⟩).trans honly⟩
    refine leaves_exec rfl (leaves_exec rfl (leaves_jz ?_))
    rw [exec, exec, decide_eq_true hsame, setReg_zeroFlag, zeroFlag_setZero, if_pos rfl, hexit]
    exact hleaves
  · have huser := hback.resolve_left hsame
    let u := ((s.setZero false).setReg .rsp (s.reg .rax)).setZero false
    have hsp : u.sp = s.reg .rax := by
      change ((s.setZero false).setReg .rsp (s.reg .rax)).reg .rsp = s.reg .rax
      exact setReg_self
    obtain ⟨t, hleaves, hshows, honly⟩ := exitSameFrame_leaves env u
    rw [hsp] at hshows honly
    refine ⟨t, ?_, hshows, (hswap u _ ⟨rfl, rfl, rfl⟩).trans honly⟩
    refine leaves_exec rfl (leaves_exec rfl (leaves_jz ?_))
    rw [exec, exec, decide_eq_false hsame, setReg_zeroFlag, zeroFlag_setZero,
      if_neg Bool.false_ne_true]
    refine leaves_exec rfl (leaves_jnz ?_)
    have hcs : ¬ ((s.setZero false).setReg .rsp (s.reg .rax)).mem.read64
        (((s.setZero false).setReg .rsp (s.reg .rax)).reg .rsp + 144) &&& 3 = 0 := by
      rw [setReg_self]
      exact huser
    rw [setZero_reg, exec, decide_eq_false hcs, zeroFlag_setZero, if_neg Bool.false_ne_true, hexit]
    exact hleaves

/-! ### The way back to a thread of the kernel -/

/-- The stores of `isr_common` for the frame `a` of a thread of the kernel. -/
def storeKernelFrame (m : Memory) (a : Word) : Memory :=
  let below := m.read64 (a + 160) - 24
  let m := m.write64 (below + 0) (m.read64 (a + 136))
  let m := m.write64 (below + 8) (m.read64 (a + 144))
  let m := m.write64 (below + 16) (m.read64 (a + 152))
  m.write64 (a + 160) below

/-- The frame and the words that `iretq` takes from the stack of the thread. -/
structure KernelFrame (m : Memory) (a : Word) : Prop where
  fits : a.toNat + 176 ≤ 2 ^ 64
  low : 24 ≤ (m.frame a).rsp.toNat
  high : (m.frame a).rsp.toNat + 16 ≤ 2 ^ 64
  apart : a.toNat + 176 ≤ (m.frame a).rsp.toNat - 24 ∨ (m.frame a).rsp.toNat + 16 ≤ a.toNat

/-- Each store of `isr_common` and what is left beside them. -/
theorem KernelFrame.stored (h : KernelFrame m a) :
    (storeKernelFrame m a).read64 ((m.frame a).rsp - 24) = (m.frame a).rip ∧
    (storeKernelFrame m a).read64 ((m.frame a).rsp - 24 + 8) = (m.frame a).cs ∧
    (storeKernelFrame m a).read64 ((m.frame a).rsp - 24 + 16) = (m.frame a).rflags ∧
    (storeKernelFrame m a).read64 (a + 160) = (m.frame a).rsp - 24 ∧
    Set.EqOn (storeKernelFrame m a) m (span ((m.frame a).rsp - 24) 24 ∪ span (a + 160) 8)ᶜ := by
  obtain ⟨hfits, hlow, hhigh, hapart⟩ := h
  simp only [Memory.frame] at hlow hhigh hapart ⊢
  rw [storeKernelFrame]
  have hlt := a.isLt
  generalize hrsp : m.read64 (a + 160) = rsp at *
  have hbelow : (rsp - 24).toNat = rsp.toNat - 24 := by bv_omega
  have hzero : rsp - 24 + 0 = rsp - 24 := BitVec.add_zero _
  rw [hzero]
  generalize rsp - 24 = below at hbelow ⊢
  have h8 : (below + 8).toNat = below.toNat + 8 := by bv_omega
  have h16 : (below + 16).toNat = below.toNat + 16 := by bv_omega
  have hrip : (a + 136).toNat = a.toNat + 136 := by bv_omega
  have hcs : (a + 144).toNat = a.toNat + 144 := by bv_omega
  have hflags : (a + 152).toNat = a.toNat + 152 := by bv_omega
  have hslot : (a + 160).toNat = a.toNat + 160 := by bv_omega
  have hread₁ : (m.write64 below (m.read64 (a + 136))).read64 (a + 144) = m.read64 (a + 144) :=
    Memory.read64_write64_of_disjoint _ _ (by omega) (by omega) (by omega)
  rw [hread₁]
  have hread₂ : ((m.write64 below (m.read64 (a + 136))).write64 (below + 8)
      (m.read64 (a + 144))).read64 (a + 152) = m.read64 (a + 152) := by
    rw [Memory.read64_write64_of_disjoint _ _ (by omega) (by omega) (by omega),
      Memory.read64_write64_of_disjoint _ _ (by omega) (by omega) (by omega)]
  rw [hread₂]
  refine ⟨?_, ?_, ?_, Memory.read64_write64 .., ?_⟩
  · rw [Memory.read64_write64_of_disjoint _ _ (by omega) (by omega) (by omega),
      Memory.read64_write64_of_disjoint _ _ (by omega) (by omega) (by omega),
      Memory.read64_write64_of_disjoint _ _ (by omega) (by omega) (by omega), Memory.read64_write64]
  · rw [Memory.read64_write64_of_disjoint _ _ (by omega) (by omega) (by omega),
      Memory.read64_write64_of_disjoint _ _ (by omega) (by omega) (by omega), Memory.read64_write64]
  · rw [Memory.read64_write64_of_disjoint _ _ (by omega) (by omega) (by omega),
      Memory.read64_write64]
  · have hsub (b : Word) (hb : below.toNat ≤ b.toNat) (hb' : b.toNat + 8 ≤ below.toNat + 24) :
        (span below 24 ∪ span (a + 160) 8)ᶜ ⊆ (span b 8)ᶜ :=
      Set.compl_subset_compl.mpr ((span_subset_span hb hb').trans Set.subset_union_left)
    have hone := (Memory.write64_eqOn m (m.read64 (a + 136)) (a := below) (by omega)).mono
      (hsub below le_rfl (by omega))
    have htwo := (Memory.write64_eqOn (m.write64 below (m.read64 (a + 136))) (m.read64 (a + 144))
      (a := below + 8) (by omega)).mono (hsub _ (by omega) (by omega))
    have hthree := (Memory.write64_eqOn ((m.write64 below (m.read64 (a + 136))).write64
      (below + 8) (m.read64 (a + 144))) (m.read64 (a + 152)) (a := below + 16) (by omega)).mono
      (hsub _ (by omega) (by omega))
    have hlast : (span below 24 ∪ span (a + 160) 8)ᶜ ⊆ (span (a + 160) 8)ᶜ :=
      Set.compl_subset_compl.mpr Set.subset_union_right
    have hfour := (Memory.write64_eqOn (((m.write64 below (m.read64 (a + 136))).write64
      (below + 8) (m.read64 (a + 144))).write64 (below + 16) (m.read64 (a + 152))) below
      (a := a + 160) (by omega)).mono hlast
    exact ((hfour.trans hthree).trans htwo).trans hone

/-- The loads and stores in front of the pops. -/
def kernelStores : List (Instr IsrLabel) :=
  [.load .rdx .rsp 160, .subImm .rdx 24, .load .rcx .rsp 136, .store .rdx 0 .rcx,
    .load .rcx .rsp 144, .store .rdx 8 .rcx, .load .rcx .rsp 152, .store .rdx 16 .rcx,
    .store .rsp 160 .rdx]

theorem foldl_kernelStores (s : Processor) :
    (kernelStores.foldl (fun s i => exec i s) s).mem = storeKernelFrame s.mem s.sp ∧
      (kernelStores.foldl (fun s i => exec i s) s).sp = s.sp ∧
      (kernelStores.foldl (fun s i => exec i s) s).gsBase = s.gsBase ∧
      (kernelStores.foldl (fun s i => exec i s) s).kernelGsBase = s.kernelGsBase :=
  ⟨rfl, rfl, rfl, rfl⟩

/-- The pops, and `rsp` from the slot that was stored. -/
def popKernelFrame (s : Processor) : Processor :=
  exec (.load .rsp .rsp 24 : Instr IsrLabel) s.popFrame

theorem leaves_exitKernelFrame (env : Env) (rest : List (Instr IsrLabel)) (s : Processor) :
    Leaves env isrCommon (exitKernelFrame ++ rest) s
      (kernelStores.foldl (fun s i => exec i s) s).popKernelFrame.iretq := by
  have hstraight : ∀ i ∈ kernelStores, isStraight i = true := by decide
  have hcode : exitKernelFrame ++ rest =
      kernelStores ++ (gprs.map .pop ++ .addImm .rsp 16 :: .load .rsp .rsp 24 :: .iretq :: rest) :=
    rfl
  rw [hcode]
  apply leaves_append hstraight
  apply leaves_popFrame
  exact leaves_exec rfl leaves_iretq

theorem popKernelFrame_sp (s : Processor) :
    s.popKernelFrame.sp = s.mem.read64 (s.sp + 160) := by
  have hmem := s.popFrame_onlyRegs.mem
  have hsp := s.popFrame_sp
  rw [popKernelFrame]
  generalize s.popFrame = u at hmem hsp
  have hslot : s.sp + 160 = u.sp + 24 := by
    rw [hsp]
    grind
  rw [hslot, ← hmem]
  exact setReg_self

theorem popKernelFrame_reg {r : Reg} (hr : r ≠ .rsp) :
    s.popKernelFrame.reg r = s.popFrame.reg r := setReg_of_ne hr

theorem popKernelFrame_onlyRegs (s : Processor) : OnlyRegs s s.popKernelFrame :=
  s.popFrame_onlyRegs.trans ⟨rfl, rfl, rfl⟩

/-- The registers come from the frame, `rsp` and `ss` from the stack that the frame names. -/
theorem exitKernelFrame_leaves (env : Env) (rest : List (Instr IsrLabel))
    (h : KernelFrame s.mem s.sp) : ∃ t, Leaves env isrCommon (exitKernelFrame ++ rest) s t ∧
      t.Shows { s.mem.frame s.sp with
        rsp := s.mem.read64 (s.mem.frame s.sp).rsp
        ss := s.mem.read64 ((s.mem.frame s.sp).rsp + 8) } ∧
      t.gsBase = s.gsBase ∧ t.kernelGsBase = s.kernelGsBase ∧
      Set.EqOn t.mem s.mem (span ((s.mem.frame s.sp).rsp - 24) 24 ∪ span (s.sp + 160) 8)ᶜ := by
  have hleaves := leaves_exitKernelFrame env rest s
  obtain ⟨hmem, hsp, hgs, hkernel⟩ := foldl_kernelStores s
  obtain ⟨hrip, hcs, hflags, hslot, hkept⟩ := h.stored
  obtain ⟨hfits, hlow, hhigh, hapart⟩ := h
  rw [← hmem] at hrip hcs hflags hslot hkept
  generalize kernelStores.foldl (fun s i => exec i s) s = w at *
  have honly := w.popKernelFrame_onlyRegs
  have hleft := honly.trans w.popKernelFrame.iretq_onlyRegs
  refine ⟨w.popKernelFrame.iretq, hleaves, ?_, ?_, ?_, ?_⟩
  · have hbelow : ((s.mem.frame s.sp).rsp - 24).toNat = (s.mem.frame s.sp).rsp.toNat - 24 := by
      bv_omega
    have hslot' : (s.sp + 160).toNat = s.sp.toNat + 160 := by bv_omega
    have hbeside {b : Word} (hb : b.toNat + 8 ≤ s.sp.toNat + 160 ∧ s.sp.toNat ≤ b.toNat ∨
        (s.mem.frame s.sp).rsp.toNat ≤ b.toNat ∧ b.toNat + 8 ≤ (s.mem.frame s.sp).rsp.toNat + 16) :
        w.mem.read64 b = s.mem.read64 b := by
      apply Memory.read64_congr (by omega)
      apply hkept.mono
      intro x hx hx'
      rw [Set.mem_union, mem_span, mem_span] at hx'
      rw [mem_span] at hx
      omega
    have hreg (i : ℕ) (hi : i < gprs.length) : w.popKernelFrame.reg gprs[i] =
        s.mem.read64 (s.sp + BitVec.ofNat 64 (8 * i)) := by
      have hne : gprs[i] ≠ .rsp := fun heq => rsp_notMem_gprs (heq ▸ List.getElem_mem hi)
      have hoff : (s.sp + BitVec.ofNat 64 (8 * i)).toNat = s.sp.toNat + 8 * i := by
        have hi' : i < 15 := hi
        rw [BitVec.toNat_add, BitVec.toNat_ofNat]
        omega
      have hi' : i < 15 := hi
      rw [popKernelFrame_reg hne, popFrame_reg hi, hsp]
      exact hbeside (by omega)
    have hsp' : w.popKernelFrame.sp = (s.mem.frame s.sp).rsp - 24 := by
      rw [popKernelFrame_sp, hsp, hslot]
    have hshows := iretq_shows hreg
    have htop : (s.mem.frame s.sp).rsp - 24 + 24 = (s.mem.frame s.sp).rsp := by grind
    have htop' : (s.mem.frame s.sp).rsp - 24 + 32 = (s.mem.frame s.sp).rsp + 8 := by grind
    rw [honly.mem, hsp', hrip, hcs, hflags, htop, htop', hbeside (by omega),
      hbeside (by bv_omega)] at hshows
    exact hshows
  · rw [hleft.gsBase, hgs]
  · rw [hleft.kernelGsBase, hkernel]
  · rw [hleft.mem]
    exact hkept

/-- Behind `isr_handler`: the frame of another thread of the kernel. -/
theorem isrReturn_kernel (env : Env) (h : KernelFrame s.mem (s.reg .rax))
    (hother : s.reg .rax ≠ s.reg .rbx)
    (hcs : (s.mem.frame (s.reg .rax)).cs &&& 3 = 0) :
    ∃ t, Leaves env isrCommon isrReturn s t ∧
      t.Shows { s.mem.frame (s.reg .rax) with
        rsp := s.mem.read64 (s.mem.frame (s.reg .rax)).rsp
        ss := s.mem.read64 ((s.mem.frame (s.reg .rax)).rsp + 8) } ∧
      t.gsBase = s.gsBase ∧ t.kernelGsBase = s.kernelGsBase ∧
      Set.EqOn t.mem s.mem
        (span ((s.mem.frame (s.reg .rax)).rsp - 24) 24 ∪ span (s.reg .rax + 160) 8)ᶜ := by
  let v := (s.setZero false).setReg .rsp (s.reg .rax)
  have hsp : v.sp = s.reg .rax := setReg_self
  have hframe : KernelFrame (v.setZero true).mem (v.setZero true).sp := by
    change KernelFrame s.mem v.sp
    rw [hsp]
    exact h
  obtain ⟨t, hleaves, hshows, hgs, hkernel, hkept⟩ := exitKernelFrame_leaves env
    (.label .exitSameFrame :: exitSameFrame) hframe
  have hsp' : (v.setZero true).sp = s.reg .rax := hsp
  rw [hsp'] at hshows hkept
  refine ⟨t, ?_, hshows, hgs, hkernel, hkept⟩
  refine leaves_exec rfl (leaves_exec rfl (leaves_jz ?_))
  rw [exec, exec, decide_eq_false hother, setReg_zeroFlag, zeroFlag_setZero,
    if_neg Bool.false_ne_true]
  refine leaves_exec rfl (leaves_jnz ?_)
  have hzero : v.mem.read64 (v.reg .rsp + 144) &&& 3 = 0 := by
    have hreg : v.reg .rsp = s.reg .rax := hsp
    rw [hreg]
    exact hcs
  rw [setZero_reg, exec, decide_eq_true hzero, zeroFlag_setZero, if_pos rfl]
  exact hleaves

/-! ### The way in -/

theorem pushWords_append (s : Processor) (ws vs : List Word) :
    s.pushWords (ws ++ vs) = (s.pushWords ws).pushWords vs := List.foldl_append

/-- The words of a frame, from the first to the last that is pushed. -/
def frameWords (s : Processor) (intNo errCode : Word) : List Word :=
  [s.ss, s.sp, s.rflags, s.cs, s.rip, errCode, intNo] ++ gprs.reverse.map s.reg

theorem length_frameWords (intNo errCode : Word) : (s.frameWords intNo errCode).length = 22 := rfl

/-- The words at their offsets. -/
theorem read64_frameWords {u : Processor} (intNo errCode : Word) (hroom : 176 ≤ u.sp.toNat)
    {j : ℕ} (hj : j < 22) :
    (u.pushWords (s.frameWords intNo errCode)).mem.read64 (u.sp - 176 + BitVec.ofNat 64 (8 * j)) =
      (s.frameWords intNo errCode).getD (21 - j) 0 := by
  have hlength := s.length_frameWords intNo errCode
  have hi : 21 - j < (s.frameWords intNo errCode).length := by omega
  rw [List.getD_eq_getElem _ _ hi, ← read64_pushWords (s := u) (by omega) hi]
  congr 1
  apply BitVec.eq_of_toNat_eq
  have hlt := u.sp.isLt
  have hbase : (u.sp - 176).toNat = u.sp.toNat - 176 := by bv_omega
  rw [BitVec.toNat_add, hbase, BitVec.toNat_sub, BitVec.toNat_ofNat, BitVec.toNat_ofNat]
  omega

/-- What was pushed is the frame. -/
theorem frame_pushWords (s : Processor) {u : Processor} (intNo errCode : Word)
    (hroom : 176 ≤ u.sp.toNat) :
    (u.pushWords (s.frameWords intNo errCode)).mem.frame (u.sp - 176) =
      s.registers intNo errCode := by
  have hword {j : ℕ} (hj : j < 22) :=
    read64_frameWords (s := s) intNo errCode hroom hj
  have hzero : u.sp - 176 + BitVec.ofNat 64 (8 * 0) = u.sp - 176 := by simp
  have hfirst := hword (j := 0) (by omega)
  rw [hzero] at hfirst
  rw [Memory.frame, registers, X86Registers.mk.injEq]
  refine ⟨hfirst, funext fun i => ?_, hword (j := 15) (by omega), hword (j := 16) (by omega),
    hword (j := 17) (by omega), hword (j := 18) (by omega), hword (j := 19) (by omega),
    hword (j := 20) (by omega), hword (j := 21) (by omega)⟩
  rw [hword (j := i.val + 1) (by omega)]
  fin_cases i <;> rfl

/-- The pushes of a stub and of `isr_common`. -/
def stubPushes (vector : Word) : List (Instr IsrLabel) :=
  (if isrErr vector then [.pushImm vector] else [.pushImm 0, .pushImm vector]) ++
    gprs.reverse.map .push

theorem isStraight_stubPushes {vector : Word} :
    ∀ i ∈ stubPushes vector, isStraight i = true := by
  intro i hi
  rcases List.mem_append.mp hi with himm | hreg
  · split at himm
    · rw [List.mem_singleton.mp himm]
      rfl
    · rw [List.mem_cons, List.mem_singleton] at himm
      rcases himm with rfl | rfl <;> rfl
  · exact isStraight_push _ i hreg

/-- What the stub has pushed is a frame. -/
theorem stubPushes_eq (s : Processor) (rsp0 gateCs vector error : Word) :
    (stubPushes vector).foldl (fun s i => exec i s)
        (s.interrupt rsp0 gateCs (if isrErr vector then some error else none)) =
      (s.atGate rsp0 gateCs).pushWords
        (s.frameWords vector (if isrErr vector then error else 0)) := by
  have hbeside (ws : List Word) (r : Reg) (hr : r ∈ gprs.reverse) :
      ((s.atGate rsp0 gateCs).pushWords ws).reg r = s.reg r := by
    have hne : r ≠ .rsp := fun heq => rsp_notMem_gprs (heq ▸ List.mem_reverse.mp hr)
    rw [(pushWords_sameBeside _ ws).reg r hne]
    exact setReg_of_ne hne
  have hrsp : .rsp ∉ gprs.reverse := by decide
  have hgprs (ws : List Word) : (gprs.reverse.map .push : List (Instr IsrLabel)).foldl
      (fun s i => exec i s) ((s.atGate rsp0 gateCs).pushWords ws) =
      (s.atGate rsp0 gateCs).pushWords (ws ++ gprs.reverse.map s.reg) := by
    rw [foldl_push hrsp, pushWords_append]
    congr 1
    exact List.map_congr_left fun r hr => hbeside ws r hr
  rw [stubPushes, List.foldl_append, frameWords, ← hgprs]
  by_cases h : isrErr vector = true
  · rw [h]
    rfl
  · rw [Bool.not_eq_true] at h
    rw [h]
    rfl

/-- From `.no_swapgs_entry` to the call. -/
def passFrame (s : Processor) : Processor :=
  ([.mov .rdi .rsp, .mov .rbx .rdi, .subImm .rsp 8] : List (Instr IsrLabel)).foldl
    (fun s i => exec i s) s

theorem passFrame_rdi (s : Processor) : s.passFrame.reg .rdi = s.sp := rfl

theorem passFrame_rbx (s : Processor) : s.passFrame.reg .rbx = s.sp := rfl

/-- The code of `isr_common` between its pushes and what stands behind the call. -/
def isrEnter : List (Instr IsrLabel) :=
  [.testMem .rsp 144 3, .jz .noSwapgsEntry, .swapgs, .label .noSwapgsEntry, .mov .rdi .rsp,
    .mov .rbx .rdi, .subImm .rsp 8, .call]

theorem isrStub_eq (vector : Word) :
    isrStub vector = stubPushes vector ++ (isrEnter ++ isrReturn) := by
  rw [isrStub, isrCommon, stubPushes, List.append_assoc, isrEnter]

/-- `swapgs` is executed for a frame of user code. -/
theorem leaves_isrEnter {t : Processor}
    (h : Leaves env isrCommon isrReturn (env.callee
      ((s.setZero (s.mem.read64 (s.sp + 144) &&& 3 = 0)).swapgsIf
        (s.mem.read64 (s.sp + 144) &&& 3 ≠ 0)).passFrame) t) :
    Leaves env isrCommon (isrEnter ++ isrReturn) s t := by
  have hafter : after isrCommon .noSwapgsEntry =
      [.mov .rdi .rsp, .mov .rbx .rdi, .subImm .rsp 8, .call] ++ isrReturn := by decide
  have hpass {u t : Processor} (h : Leaves env isrCommon isrReturn (env.callee u.passFrame) t) :
      Leaves env isrCommon
        ([.mov .rdi .rsp, .mov .rbx .rdi, .subImm .rsp 8, .call] ++ isrReturn) u t :=
    leaves_exec rfl (leaves_exec rfl (leaves_exec rfl (leaves_call h)))
  refine leaves_exec rfl (leaves_jz ?_)
  by_cases huser : s.mem.read64 (s.sp + 144) &&& 3 = 0
  · rw [decide_eq_true huser, decide_eq_false (not_not.mpr huser)] at h
    have hzero : exec (.testMem .rsp 144 3 : Instr IsrLabel) s = s.setZero true :=
      congrArg s.setZero (decide_eq_true huser)
    rw [hzero, zeroFlag_setZero, if_pos rfl, hafter]
    exact hpass h
  · have hset : decide (s.mem.read64 (s.sp + 144) &&& 3 ≠ 0) = true := decide_eq_true huser
    rw [decide_eq_false huser, hset] at h
    have hzero : exec (.testMem .rsp 144 3 : Instr IsrLabel) s = s.setZero false :=
      congrArg s.setZero (decide_eq_false huser)
    rw [hzero, zeroFlag_setZero, if_neg Bool.false_ne_true]
    exact leaves_exec rfl (leaves_exec rfl (hpass h))

/-- The call of `isr_handler` for an interrupt of `s`. -/
structure HandlerCalled (s : Processor) (rsp0 gateCs intNo errCode : Word) (c : Processor) :
    Prop where
  arg : c.reg .rdi = s.gateStack rsp0 - 176
  saved : c.reg .rbx = s.gateStack rsp0 - 176
  cs : c.cs = gateCs
  frame : c.mem.frame (s.gateStack rsp0 - 176) = s.registers intNo errCode
  gsBase : c.gsBase = (s.swapgsIf s.fromUser).gsBase
  kernelGsBase : c.kernelGsBase = (s.swapgsIf s.fromUser).kernelGsBase
  mem : Set.EqOn c.mem s.mem
    (between ((s.gateStack rsp0).toNat - 176) (s.gateStack rsp0).toNat)ᶜ

/-- The stub calls `isr_handler` with the frame of the interrupted code, and goes on behind it. -/
theorem isrStub_leaves (env : Env) (s : Processor) {rsp0 : Word} (gateCs vector error : Word)
    (hroom : 176 ≤ (s.gateStack rsp0).toNat) :
    ∃ c, HandlerCalled s rsp0 gateCs vector (if isrErr vector then error else 0) c ∧
      ∀ t, Leaves env isrCommon isrReturn (env.callee c) t →
        Leaves env isrCommon (isrStub vector)
          (s.interrupt rsp0 gateCs (if isrErr vector then some error else none)) t := by
  have hpushed := stubPushes_eq s rsp0 gateCs vector error
  generalize (if isrErr vector then error else 0) = errCode at *
  have htop : (s.atGate rsp0 gateCs).sp = s.gateStack rsp0 := by
    change (s.setReg .rsp (s.gateStack rsp0)).reg .rsp = s.gateStack rsp0
    exact setReg_self
  have hroom' : 8 * (s.frameWords vector errCode).length ≤ (s.atGate rsp0 gateCs).sp.toNat := by
    rw [length_frameWords, htop]
    exact hroom
  have hframe := frame_pushWords s (u := s.atGate rsp0 gateCs) vector errCode
    (by rw [htop]; exact hroom)
  have hmem := pushWords_eqOn hroom'
  have hsp := pushWords_sp hroom'
  obtain ⟨-, -, hcs, -, hgs, hkernel⟩ :=
    pushWords_sameBeside (s.atGate rsp0 gateCs) (s.frameWords vector errCode)
  generalize (s.atGate rsp0 gateCs).pushWords (s.frameWords vector errCode) = p at *
  rw [htop, length_frameWords] at hmem hsp
  rw [htop] at hframe
  have hsp' : p.sp = s.gateStack rsp0 - 176 := by
    apply BitVec.eq_of_toNat_eq
    rw [hsp]
    bv_omega
  have htest : p.mem.read64 (p.sp + 144) = s.cs := by
    have hword := congrArg X86Registers.cs hframe
    rw [← hsp'] at hword
    exact hword
  let q := (p.setZero (s.cs &&& 3 = 0)).swapgsIf (s.cs &&& 3 ≠ 0)
  have hq : q.sp = s.gateStack rsp0 - 176 := by
    rw [sp, swapgsIf_reg, setZero_reg]
    exact hsp'
  have hqmem : q.mem = p.mem := by
    rw [swapgsIf_mem, setZero_mem]
  have hbases := swapgsIf_bases (s := s) (u := p.setZero (s.cs &&& 3 = 0)) hgs hkernel s.fromUser
  refine ⟨q.passFrame, ⟨?_, ?_, ?_, ?_, ?_, ?_, ?_⟩, fun t ht => ?_⟩
  · rw [passFrame_rdi, hq]
  · rw [passFrame_rbx, hq]
  · change q.cs = gateCs
    rw [swapgsIf_cs]
    exact hcs
  · change q.mem.frame _ = _
    rw [hqmem, hframe]
  · exact hbases.1
  · exact hbases.2
  · change Set.EqOn q.mem s.mem _
    rw [hqmem]
    exact hmem
  · rw [isrStub_eq]
    apply leaves_append isStraight_stubPushes
    rw [hpushed]
    apply leaves_isrEnter
    rw [htest]
    exact ht

/-! ### An interrupt that comes back -/

/-- The code that ran in `s` goes on in `t`. -/
structure Resumes (s t : Processor) : Prop where
  reg : ∀ r, t.reg r = s.reg r
  rip : t.rip = s.rip
  cs : t.cs = s.cs
  rflags : t.rflags = s.rflags
  ss : t.ss = s.ss

theorem mem_gprs {r : Reg} (hr : r ≠ .rsp) : ∃ i, ∃ hi : i < gprs.length, gprs[i] = r := by
  apply List.mem_iff_getElem.mp
  cases r <;> first | decide | exact absurd rfl hr

/-- The frame holds every register. -/
theorem Shows.resumes {t : Processor} {intNo errCode : Word}
    (h : t.Shows (s.registers intNo errCode)) : Resumes s t := by
  rw [Shows] at h
  obtain ⟨hrax, hgeneral, -, -, hrip, hcs, hrflags, hrsp, hss⟩ := X86Registers.mk.inj h
  refine ⟨fun r => ?_, hrip, hcs, hrflags, hss⟩
  by_cases hr : r = .rsp
  · rw [hr]
    exact hrsp
  · obtain ⟨i, hi, rfl⟩ := mem_gprs hr
    cases i with
    | zero => exact hrax
    | succ i =>
        have hi' : i < 14 := Nat.lt_of_succ_lt_succ hi
        have hreg := congrFun hgeneral ⟨i, hi'⟩
        change t.reg (gprs.getD (i + 1) .rax) = s.reg (gprs.getD (i + 1) .rax) at hreg
        rw [List.getD_eq_getElem _ _ hi] at hreg
        exact hreg

/-- `isr_handler` comes back with the frame it was given: it returns its argument, as a C
function it restores `rbx`, and it leaves the frame as it is. -/
structure ReturnsSame (c d : Processor) : Prop where
  rax : d.reg .rax = c.reg .rdi
  rbx : d.reg .rbx = c.reg .rbx
  frame : d.mem.frame (c.reg .rdi) = c.mem.frame (c.reg .rdi)
  gsBase : d.gsBase = c.gsBase
  kernelGsBase : d.kernelGsBase = c.kernelGsBase

end Processor

open Processor

/-- An interrupt whose handler stays on its frame cannot be seen by the code it interrupts: of
the kernel or of a user, with or without an error code. -/
theorem isrStub_transparent {env : Env} {s : Processor} {rsp0 gateCs vector error : Word}
    (hroom : 176 ≤ (s.gateStack rsp0).toNat)
    (hhandler : ∀ c, HandlerCalled s rsp0 gateCs vector (if isrErr vector then error else 0) c →
      ReturnsSame c (env.callee c)) :
    ∃ t, Leaves env isrCommon (isrStub vector)
        (s.interrupt rsp0 gateCs (if isrErr vector then some error else none)) t ∧
      Resumes s t ∧ t.gsBase = s.gsBase ∧ t.kernelGsBase = s.kernelGsBase := by
  obtain ⟨c, hc, hgo⟩ := isrStub_leaves env s gateCs vector error hroom
  obtain ⟨hrax, hrbx, hframe, hgs, hkernel⟩ := hhandler c hc
  rw [hc.arg] at hrax hframe
  rw [hc.saved] at hrbx
  rw [hc.frame] at hframe
  have hcs : ((env.callee c).mem.frame ((env.callee c).reg .rax)).cs = s.cs := by
    rw [hrax, hframe]
    rfl
  obtain ⟨t, hleaves, hshows, honly⟩ :=
    isrReturn_leaves env (s := env.callee c) (Or.inl (hrax.trans hrbx.symm))
  rw [hcs] at honly
  rw [hrax, hframe] at hshows
  -- the frame that the way out tests is the one that the way in tested
  have hback := swapgsIf_bases (hgs.trans hc.gsBase) (hkernel.trans hc.kernelGsBase) s.fromUser
  have htwice : (s.swapgsIf s.fromUser).swapgsIf s.fromUser = s := by
    cases s.fromUser <;> rfl
  rw [htwice] at hback
  exact ⟨t, hgo t hleaves, hshows.resumes, honly.gsBase.trans hback.1,
    honly.kernelGsBase.trans hback.2⟩

/-- User code at its stack, on the first processor. -/
def userSample : Processor where
  reg := Function.update (fun _ => 7) .rsp 0x7FFFFF000
  rip := 0x401000
  cs := 0x2B
  ss := 0x23
  rflags := 0x202
  gsBase := 0
  kernelGsBase := 0xFFFF800000100000
  mem := fun _ => 0

/-- A handler that only returns its argument. -/
def returnsArgument (c : Processor) : Processor := c.setReg .rax (c.reg .rdi)

/-- A page fault, behind which the instruction is tried again. -/
theorem isrStub_transparent_pageFault :
    ∃ t, Processor.Leaves ⟨returnsArgument, 0x2B, 0x23⟩ isrCommon (isrStub 14)
        (userSample.interrupt 0xFFFF800000204000 0x08 (if isrErr 14 then some 4 else none)) t ∧
      Processor.Resumes userSample t ∧ t.gsBase = userSample.gsBase ∧
      t.kernelGsBase = userSample.kernelGsBase :=
  isrStub_transparent (by decide) fun _ _ =>
    ⟨Processor.setReg_self, Processor.setReg_of_ne (by decide), rfl, rfl, rfl⟩

end Utopia
