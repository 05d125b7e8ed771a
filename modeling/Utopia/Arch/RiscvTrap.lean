/-
The trap entry of RISC-V: `arch_interrupt_handler_asm` of `cpu/interrupts_handler.S`, instruction
by instruction, up to the call of `arch_interrupt_handler` and behind it.
-/
import Mathlib.Tactic.FinCases
import Utopia.Exec.ProcessClone
import Utopia.Lib.Hart

namespace Utopia

open Assembly Hart

inductive TrapLabel where
  | fromKernel
  | fromUser
  | trapSave
  | returnToUser
  | returnToKernel
  | restoreGprs
deriving DecidableEq, Repr

/-- `TF_ZERO` to `TF_T6`: the registers lie in the frame in the order of their numbers. -/
def tf (r : Fin 32) : Word := BitVec.ofNat 64 (8 * r)

/-- `TF_SIZE`. -/
def tfSize : Word := 288

/-- The registers that `.trap_save` stores. -/
def savedRegs : List (Fin 32) :=
  [zero, ra, gp, t1, t2, s0, s1, a0, a1, a2, a3, a4, a5, a6, a7, s2, s3, s4, s5, s6, s7, s8, s9,
    s10, s11, t3, t4, t5, t6]

/-- The registers that `.restore_gprs` loads. -/
def restoredRegs : List (Fin 32) :=
  [ra, gp, t0, t1, t2, s0, s1, a0, a1, a2, a3, a4, a5, a6, a7, s2, s3, s4, s5, s6, s7, s8, s9,
    s10, s11, t3, t4, t5, t6]

/-- `.from_kernel`, for frames of this size. -/
def trapFromKernel (size : Word) : List (Instr TrapLabel) :=
  [.csrrw tp .sscratch tp, .addi sp sp (-size), .sd t0 sp (tf t0), .addi t0 sp size,
    .sd t0 sp (tf sp), .sd tp sp (tf tp)]

/-- `.from_user`. -/
def trapFromUser (size : Word) : List (Instr TrapLabel) :=
  [.sd sp tp 16, .ld sp tp 8, .addi sp sp (-size), .sd t0 sp (tf t0), .ld t0 tp 16,
    .sd t0 sp (tf sp), .csrrw t0 .sscratch zero, .sd t0 sp (tf tp)]

/-- The control registers in the frame: `TF_SCAUSE` to `TF_SSTATUS`. -/
def savedCsrs : List (Csr × ℕ) := [(.scause, 32), (.stval, 33), (.sepc, 34), (.sstatus, 35)]

/-- `.trap_save` up to the call. -/
def trapSave : List (Instr TrapLabel) :=
  storeRegs sp savedRegs ++ (storeCsrs t0 sp savedCsrs ++ [.mv a0 sp])

/-- The loads of `.restore_gprs`. -/
def trapLoads : List (Instr TrapLabel) := loadRegs sp restoredRegs ++ [.ld sp sp (tf sp)]

/-- `.restore_gprs`, with the label in front. -/
def restoreGprs : List (Line (Instr TrapLabel) TrapLabel) :=
  .label .restoreGprs :: (trapLoads.map .instr ++ [.instr .sret])

/-- Behind the call, up to the test of the mode: the offsets in the frame and the bit. -/
def trapStatusBack (sepc sstatus spp : Word) : List (Instr TrapLabel) :=
  [.mv sp a0, .ld t0 sp sepc, .csrw .sepc t0, .ld t0 sp sstatus, .csrw .sstatus t0,
    .andi t0 t0 spp]

/-- `.return_to_user`. -/
def trapUserBack : List (Instr TrapLabel) := [.csrw .sscratch tp, .ld tp sp (tf tp)]

/-- What stands behind the call. -/
def trapReturn : List (Line (Instr TrapLabel) TrapLabel) :=
  (trapStatusBack 272 280 0x100).map .instr ++
    (.instr (.bnez t0 .returnToKernel) :: .label .returnToUser ::
      (trapUserBack.map .instr ++
        (.instr (.j .restoreGprs) :: .label .returnToKernel :: restoreGprs)))

/-- `arch_interrupt_handler_asm`. -/
def archInterruptHandlerAsm : List (Line (Instr TrapLabel) TrapLabel) :=
  .instr (.csrrw tp .sscratch tp) :: .instr (.bnez tp .fromUser) :: .label .fromKernel ::
    ((trapFromKernel tfSize).map .instr ++ (.instr (.j .trapSave) :: .label .fromUser ::
      ((trapFromUser tfSize).map .instr ++ (.label .trapSave :: (trapSave.map .instr ++
        (.instr .call :: trapReturn))))))

/-! ### Frames -/

/-- The `registers_t` at an address. -/
def Memory.riscvFrame (m : Memory) (a : Word) : RiscvRegisters where
  x i := m.read64 (a + BitVec.ofNat 64 (8 * i))
  scause := m.read64 (a + 256)
  stval := m.read64 (a + 264)
  sepc := m.read64 (a + 272)
  sstatus := m.read64 (a + 280)

namespace Hart

/-- What the trap handler is entered with. -/
def registers (s : Hart) : RiscvRegisters where
  x := s.reg
  scause := s.csr .scause
  stval := s.csr .stval
  sepc := s.csr .sepc
  sstatus := s.csr .sstatus

/-- `kernel_stack_top` of the `cpu_t` that `sscratch` holds. -/
def kernelStackTop (s : Hart) : Word := s.mem.read64 (s.csr .sscratch + 8)

/-- Where a trap puts its frame: below the stack of the kernel, or the one in use. -/
def trapStack (s : Hart) : Word := if s.supervisor then s.reg sp else s.kernelStackTop

/-- `cpu_t` of the hart: user code runs with it in `sscratch`, the kernel in `tp`. -/
def cpu (s : Hart) : Word := if s.supervisor then s.reg tp else s.csr .sscratch

/-- There is room for a frame beside `cpu_t`. -/
structure FrameRoom (s : Hart) : Prop where
  room : 288 ≤ s.trapStack.toNat
  cpu : ¬ s.supervisor → (s.csr .sscratch).toNat + 24 ≤ 2 ^ 64 ∧
    ((s.csr .sscratch).toNat + 24 ≤ s.trapStack.toNat - 288 ∨
      s.trapStack.toNat ≤ (s.csr .sscratch).toNat)

/-- `sscratch` says which code runs. -/
structure TrapReady (s : Hart) : Prop extends FrameRoom s where
  scratch : s.csr .sscratch = 0 ↔ s.supervisor

/-- The call of `arch_interrupt_handler` with the frame `base` for a trap of `s`. -/
structure TrapCalled (s : Hart) (cause tval base : Word) (c : Hart) : Prop where
  arg : c.reg a0 = base
  stack : c.reg sp = base
  cpu : c.reg tp = s.cpu
  sscratch : c.csr .sscratch = 0
  supervisor : c.supervisor
  frame : c.mem.riscvFrame base = (s.trap cause tval).registers
  mem : Set.EqOn c.mem s.mem
    ((if s.supervisor then ∅ else span (s.csr .sscratch + 16) 8) ∪ span base 288)ᶜ

/-! ### The way in -/

/-- What stands in front of `.trap_save` leaves: three words of the frame are stored. -/
structure Entered (s : Hart) (cause tval base : Word) (b : Hart) : Prop where
  stack : b.reg sp = base
  cpu : b.reg tp = s.cpu
  sscratch : b.csr .sscratch = 0
  supervisor : b.supervisor
  csr : ∀ c, c ≠ .sscratch → b.csr c = (s.trap cause tval).csr c
  regs : ∀ r, r ≠ sp → r ≠ tp → r ≠ t0 → b.reg r = s.reg r
  stored : ∃ m : Memory,
    b.mem = m.storeSlots base [(5, s.reg t0), (2, s.reg sp), (4, s.reg tp)] ∧
      Set.EqOn m s.mem (if s.supervisor then ∅ else span (s.csr .sscratch + 16) 8)ᶜ

variable {s : Hart} {size : Word}

theorem entered_kernel (cause tval : Word) (hready : s.csr .sscratch = 0) (hs : s.supervisor) :
    Entered s cause tval (s.trapStack - size) ((trapFromKernel size).foldl (fun s i => exec i s)
      (exec (.csrrw tp .sscratch tp : Instr TrapLabel) (s.trap cause tval))) := by
  have hcpu : s.cpu = s.reg tp := if_pos hs
  have hstack : s.trapStack = s.reg sp := if_pos hs
  rw [trapFromKernel]
  refine ⟨?_, ?_, ?_, ?_, ?_, ?_, ?_⟩
  · simp [exec, sp, tp, t0, hstack, BitVec.sub_eq_add_neg]
  · simp [exec, sp, tp, t0, hcpu]
  · simp [exec, hready]
  · simp [exec]
  · intro c hc
    simp [exec, hc]
  · intro r hsp htp ht0
    simp [exec, -setReg_reg, setReg_of_ne, hsp, htp, ht0]
  · refine ⟨s.mem, ?_, Set.eqOn_refl _ _⟩
    have hback : s.reg 2 + -size + size = s.reg 2 := by
      rw [← BitVec.sub_eq_add_neg, BitVec.sub_add_cancel]
    simp [hback, exec, Memory.storeSlots, tf, sp, tp, t0, hstack, BitVec.sub_eq_add_neg]

theorem entered_user (cause tval : Word) (hs : ¬ s.supervisor)
    (htop : (s.mem.write64 (s.csr .sscratch + 16) (s.reg sp)).read64 (s.csr .sscratch + 8) =
      s.trapStack)
    (huser : ((s.mem.write64 (s.csr .sscratch + 16) (s.reg sp)).write64
      (s.trapStack - size + 40) (s.reg t0)).read64 (s.csr .sscratch + 16) = s.reg sp)
    (hfits : (s.csr .sscratch).toNat + 24 ≤ 2 ^ 64) :
    Entered s cause tval (s.trapStack - size) ((trapFromUser size).foldl (fun s i => exec i s)
      (exec (.csrrw tp .sscratch tp : Instr TrapLabel) (s.trap cause tval))) := by
  have hcpu : s.cpu = s.csr .sscratch := if_neg hs
  rw [BitVec.sub_eq_add_neg] at huser
  rw [trapFromUser]
  refine ⟨?_, ?_, ?_, ?_, ?_, ?_, ?_⟩
  · simp [exec, sp, tp, t0, BitVec.sub_eq_add_neg]
    simpa [sp] using htop
  · simp [exec, sp, tp, t0, hcpu]
  · simp [exec, sp, tp, t0]
  · simp [exec]
  · intro c hc
    simp [exec, hc]
  · intro r hsp htp ht0
    simp [exec, -setReg_reg, setReg_of_ne, hsp, htp, ht0]
  · refine ⟨s.mem.write64 (s.csr .sscratch + 16) (s.reg sp), ?_, ?_⟩
    · simp only [sp, t0, BitVec.ofNat_eq_ofNat] at htop huser
      simp [exec, Memory.storeSlots, tf, sp, tp, t0, BitVec.sub_eq_add_neg, htop, huser]
    · rw [if_neg hs]
      exact Memory.write64_eqOn _ _ (by bv_omega)

theorem savedRegs_apart : ∀ r ∈ savedRegs, r ≠ sp ∧ r ≠ tp ∧ r ≠ t0 := by decide

/-- The slots of a frame, in the order in which they are stored. -/
def frameSlots (s : Hart) (csr : Csr → Word) : List (ℕ × Word) :=
  [(5, s.reg t0), (2, s.reg sp), (4, s.reg tp)] ++ savedRegs.map (fun r => (r.val, s.reg r)) ++
    savedCsrs.map fun v => (v.2, csr v.1)

theorem frameSlots_lt (s : Hart) (csr : Csr → Word) : ∀ v ∈ s.frameSlots csr, v.1 < 36 := by
  intro v hv
  simp only [frameSlots, List.mem_append, List.mem_map, List.mem_cons, List.not_mem_nil,
    or_false, savedCsrs] at hv
  rcases hv with (hfirst | ⟨r, -, rfl⟩) | ⟨w, hw, rfl⟩
  · rcases hfirst with rfl | rfl | rfl <;> simp
  · exact Nat.lt_of_lt_of_le r.isLt (by decide)
  · rcases hw with rfl | rfl | rfl | rfl <;> simp

/-- A frame read back from its slots. -/
theorem riscvFrame_storeSlots {m : Memory} {base : Word} {us : List (ℕ × Word)}
    {f : RiscvRegisters} (hfit : base.toNat + 288 ≤ 2 ^ 64) (hus : ∀ v ∈ us, v.1 < 36)
    (hx : ∀ i : Fin 32, (us.reverse.lookup i.val).getD ((m.riscvFrame base).x i) = f.x i)
    (hscause : (us.reverse.lookup 32).getD (m.riscvFrame base).scause = f.scause)
    (hstval : (us.reverse.lookup 33).getD (m.riscvFrame base).stval = f.stval)
    (hsepc : (us.reverse.lookup 34).getD (m.riscvFrame base).sepc = f.sepc)
    (hsstatus : (us.reverse.lookup 35).getD (m.riscvFrame base).sstatus = f.sstatus) :
    (m.storeSlots base us).riscvFrame base = f := by
  have hword {k : ℕ} (hk : k < 36) := Memory.read64_storeSlots (m := m) (n := 36) hfit hus hk
  rw [Memory.riscvFrame, RiscvRegisters.mk.injEq]
  exact ⟨funext fun i => (hword (Nat.lt_of_lt_of_le i.isLt (by decide))).trans (hx i),
    (hword (k := 32) (by decide)).trans hscause, (hword (k := 33) (by decide)).trans hstval,
    (hword (k := 34) (by decide)).trans hsepc, (hword (k := 35) (by decide)).trans hsstatus⟩

/-- What the slots hold is a frame. -/
theorem riscvFrame_frameSlots (s : Hart) (csr : Csr → Word) {m : Memory} {base : Word}
    (hfit : base.toNat + 288 ≤ 2 ^ 64) :
    (m.storeSlots base (s.frameSlots csr)).riscvFrame base =
      ⟨s.reg, csr .scause, csr .stval, csr .sepc, csr .sstatus⟩ := by
  refine riscvFrame_storeSlots hfit (s.frameSlots_lt csr) (fun i => ?_) rfl rfl rfl rfl
  fin_cases i <;> rfl

/-- `.trap_save` calls the handler with the whole frame. -/
theorem Entered.called {cause tval base : Word} {b : Hart} (h : Entered s cause tval base b)
    (hfit : base.toNat + 288 ≤ 2 ^ 64) (link : Word) :
    TrapCalled s cause tval base
      ((trapSave.foldl (fun s i => exec i s) b).setReg ra link) := by
  obtain ⟨hstack, hcpu, hscratch, hmode, hcsr, hregs, m, hmem, hkept⟩ := h
  have hsaved : savedRegs.map (fun r => (r.val, b.reg r)) =
      savedRegs.map fun r => (r.val, s.reg r) := by
    refine List.map_congr_left fun r hr => ?_
    obtain ⟨hsp, htp, ht0⟩ := savedRegs_apart r hr
    rw [hregs r hsp htp ht0]
  obtain ⟨v, hv⟩ := foldl_storeCsrs (L := TrapLabel)
    (b.setMem (b.mem.storeSlots base (savedRegs.map fun r => (r.val, s.reg r)))) t0 sp savedCsrs
    (by decide) (by decide)
  rw [trapSave, List.foldl_append, List.foldl_append, foldl_storeRegs, hstack, hsaved, hv]
  have hslots : (b.mem.storeSlots base (savedRegs.map fun r => (r.val, s.reg r))).storeSlots
      (b.reg sp) (savedCsrs.map fun v => (v.2, b.csr v.1)) =
      m.storeSlots base (s.frameSlots (s.trap cause tval).csr) := by
    have hcsrs : savedCsrs.map (fun v => (v.2, b.csr v.1)) =
        savedCsrs.map fun v => (v.2, (s.trap cause tval).csr v.1) := by
      refine List.map_congr_left fun v hv => ?_
      rw [hcsr v.1 ((by decide : ∀ v ∈ savedCsrs, v.1 ≠ .sscratch) v hv)]
    rw [hmem, hstack, hcsrs, frameSlots, Memory.storeSlots_append, Memory.storeSlots_append]
  generalize hd : ({ b.setMem (b.mem.storeSlots base _) with
    x := _, mem := _ } : Hart) = d
  have hreg (r : Fin 32) (hr : r ≠ t0) : d.reg r = b.reg r := by
    rw [← hd]
    exact setReg_of_ne (s := b) hr
  have hdmem : d.mem = m.storeSlots base (s.frameSlots (s.trap cause tval).csr) := by
    rw [← hslots, ← hd]
    rfl
  have hdcsr : d.csr = b.csr := by rw [← hd]; rfl
  have hdmode : d.supervisor = b.supervisor := by rw [← hd]; rfl
  refine ⟨?_, ?_, ?_, ?_, ?_, ?_, ?_⟩
  · simpa [exec, sp, ra, a0] using (hreg sp (by decide)).trans hstack
  · simpa [exec, sp, ra, a0] using (hreg sp (by decide)).trans hstack
  · simpa [exec, tp, ra, a0] using (hreg tp (by decide)).trans hcpu
  · simpa [exec, hdcsr] using hscratch
  · simpa [exec, hdmode] using hmode
  · change d.mem.riscvFrame base = _
    rw [hdmem]
    exact riscvFrame_frameSlots s _ hfit
  · change Set.EqOn d.mem s.mem _
    rw [hdmem]
    have hrow := Memory.storeSlots_eqOn (m := m) (n := 36) hfit
      (s.frameSlots_lt (s.trap cause tval).csr)
    exact (hrow.mono (Set.compl_subset_compl.mpr Set.subset_union_right)).trans
      (hkept.mono (Set.compl_subset_compl.mpr Set.subset_union_left))

theorem TrapReady.base_toNat (h : TrapReady s) :
    (s.trapStack - tfSize).toNat = s.trapStack.toNat - 288 := by
  have hroom := h.room
  have hsize : tfSize.toNat = 288 := rfl
  rw [BitVec.toNat_sub, hsize]
  omega

/-- User code finds its hart, and its stack pointer again behind the first store of the frame. -/
theorem TrapReady.entered_user (h : TrapReady s) (cause tval : Word) (hs : ¬ s.supervisor) :
    Entered s cause tval (s.trapStack - tfSize) ((trapFromUser tfSize).foldl (fun s i => exec i s)
      (exec (.csrrw tp .sscratch tp : Instr TrapLabel) (s.trap cause tval))) := by
  obtain ⟨hfits, hapart⟩ := h.cpu hs
  have hroom := h.room
  have hbase := h.base_toNat
  have hstack : s.trapStack = s.mem.read64 (s.csr .sscratch + 8) := if_neg hs
  have hslot : (s.csr .sscratch + 16).toNat = (s.csr .sscratch).toNat + 16 := by bv_omega
  have hslot' : (s.csr .sscratch + 8).toNat = (s.csr .sscratch).toNat + 8 := by bv_omega
  have htop := s.trapStack.isLt
  have hfirst : (s.trapStack - tfSize + 40).toNat = s.trapStack.toNat - 288 + 40 := by
    rw [BitVec.toNat_add, hbase]
    change (_ + 40) % _ = _
    omega
  refine Hart.entered_user cause tval hs ?_ ?_ hfits
  · rw [Memory.read64_write64_of_disjoint _ _ (by omega) (by omega) (by omega), hstack]
  · rw [Memory.read64_write64_of_disjoint _ _ (by omega) (by omega) (by omega),
      Memory.read64_write64]

theorem behind_fromUser : behind archInterruptHandlerAsm (.label .fromUser) =
    (trapFromUser tfSize).map .instr ++ (.label .trapSave :: (trapSave.map .instr ++
      (.instr .call :: trapReturn))) := rfl

theorem behind_trapSave : behind archInterruptHandlerAsm (.label .trapSave) =
    trapSave.map .instr ++ (.instr .call :: trapReturn) := rfl

/-- From its first instruction the trap handler comes to call `arch_interrupt_handler`. -/
theorem trapEntry_leaves (link cause tval : Word) (h : TrapReady s) :
    ∃ c, TrapCalled s cause tval (s.trapStack - tfSize) c ∧
      Leaves (step link) archInterruptHandlerAsm archInterruptHandlerAsm (s.trap cause tval) c := by
  have hfit : (s.trapStack - tfSize).toNat + 288 ≤ 2 ^ 64 := by
    have hbase := h.base_toNat
    have hroom := h.room
    omega
  have hcall {b : Hart} : Leaves (step link) archInterruptHandlerAsm
      (trapSave.map .instr ++ (.instr .call :: trapReturn)) b
      ((trapSave.foldl (fun s i => exec i s) b).setReg ra link) :=
    leaves_straight (by decide) (leaves_leave rfl)
  by_cases hs : s.supervisor = true
  · have hscratch : s.csr .sscratch = 0 := h.scratch.mpr hs
    have hzero : (exec (.csrrw tp .sscratch tp : Instr TrapLabel) (s.trap cause tval)).reg tp =
        0 := hscratch
    refine ⟨_, (entered_kernel cause tval hscratch hs).called hfit link, ?_⟩
    refine leaves_next rfl (leaves_next (if_pos hzero) (leaves_label ?_))
    refine leaves_straight (by decide) (leaves_jump rfl ?_)
    rw [behind_trapSave]
    exact hcall
  · have hscratch : s.csr .sscratch ≠ 0 := fun h' => hs (h.scratch.mp h')
    have hne : (exec (.csrrw tp .sscratch tp : Instr TrapLabel) (s.trap cause tval)).reg tp ≠
        0 := hscratch
    refine ⟨_, (h.entered_user cause tval hs).called hfit link, ?_⟩
    refine leaves_next rfl (leaves_jump (if_neg hne) ?_)
    rw [behind_fromUser]
    exact leaves_straight (by decide) (leaves_label hcall)

/-! ### The way out -/

/-- The hart behind `sret` with a frame, when `arch_interrupt_handler` returned in `d`.  The
kernel keeps its `tp`, which is not loaded. -/
structure TrapReturned (d : Hart) (f : RiscvRegisters) (t : Hart) : Prop where
  regs : ∀ r, r ≠ zero → r ≠ tp → t.reg r = f.x r
  threadPointer : t.reg tp = if f.sstatus.getLsbD 8 then d.reg tp else f.x tp
  pc : t.pc = f.sepc
  supervisor : t.supervisor = f.sstatus.getLsbD 8
  sstatus : t.csr .sstatus = sretStatus f.sstatus
  sscratch : t.csr .sscratch = if f.sstatus.getLsbD 8 then d.csr .sscratch else d.reg tp
  mem : t.mem = d.mem

variable {d : Hart}

theorem mem_restoredRegs : ∀ r : Fin 32, r ≠ zero → r ≠ tp → r ≠ sp → r ∈ restoredRegs := by
  decide

/-- `.restore_gprs` loads every register of the frame but `tp`. -/
theorem foldl_trapLoads (g : Hart) :
    (∀ r, r ≠ zero → r ≠ tp → (trapLoads.foldl (fun s i => exec i s) g).reg r =
        (g.mem.riscvFrame (g.reg sp)).x r) ∧
      (trapLoads.foldl (fun s i => exec i s) g).reg tp = g.reg tp ∧
      (trapLoads.foldl (fun s i => exec i s) g).csr = g.csr ∧
      (trapLoads.foldl (fun s i => exec i s) g).mem = g.mem := by
  obtain ⟨x, hx, hin, hout⟩ :=
    foldl_loadRegs (L := TrapLabel) g (by decide : sp ∉ restoredRegs)
  rw [trapLoads, List.foldl_append, hx]
  generalize hk : ({ g with x := x } : Hart) = k
  have hmem : k.mem = g.mem := by rw [← hk]
  have hcsr : k.csr = g.csr := by rw [← hk]
  have hloaded (r : Fin 32) (hr : r ≠ zero) (hr' : r ∈ restoredRegs) :
      k.reg r = (g.mem.riscvFrame (g.reg sp)).x r := by
    rw [← hk, reg_eq hr]
    exact hin r hr'
  have hkept (r : Fin 32) (hr : r ≠ zero) (hr' : r ∉ restoredRegs) : k.reg r = g.reg r := by
    rw [← hk, reg_eq hr, reg_eq hr]
    exact hout r hr'
  have hsp : k.reg sp = g.reg sp := hkept sp (by decide) (by decide)
  have htp : k.reg tp = g.reg tp := hkept tp (by decide) (by decide)
  refine ⟨fun r hr hr' => ?_, ?_, hcsr, hmem⟩
  · by_cases heq : r = sp
    · rw [heq]
      change (k.setReg sp (k.mem.read64 (k.reg sp + tf sp))).reg sp = _
      rw [setReg_reg, if_neg (by decide), if_pos rfl, hsp, hmem]
      rfl
    · exact (setReg_of_ne heq).trans (hloaded r hr (mem_restoredRegs r hr hr' heq))
  · exact (setReg_of_ne (by decide)).trans htp

theorem behind_restoreGprs : behind archInterruptHandlerAsm (.label .restoreGprs) =
    trapLoads.map .instr ++ [.instr .sret] := rfl

theorem behind_returnToKernel : behind archInterruptHandlerAsm (.label .returnToKernel) =
    restoreGprs := rfl

/-- The state in front of the test of the mode. -/
structure StatusBack (d : Hart) (sepc sstatus spp : Word) (e : Hart) : Prop where
  stack : e.reg sp = d.reg a0
  status : e.reg t0 = sstatus &&& spp
  threadPointer : e.reg tp = d.reg tp
  sepc : e.csr .sepc = sepc
  sstatus : e.csr .sstatus = sstatus
  sscratch : e.csr .sscratch = d.csr .sscratch
  mem : e.mem = d.mem

theorem foldl_trapStatusBack (d : Hart) (o o' spp : Word) :
    StatusBack d (d.mem.read64 (d.reg a0 + o)) (d.mem.read64 (d.reg a0 + o')) spp
      ((trapStatusBack o o' spp).foldl (fun s i => exec i s) d) := by
  rw [trapStatusBack]
  refine ⟨?_, ?_, ?_, ?_, ?_, ?_, ?_⟩ <;> simp [exec, sp, tp, t0, a0]

/-- `sret` behind the loads. -/
theorem TrapReturned.of_loads {f : RiscvRegisters} {g k : Hart}
    (hregs : ∀ r, r ≠ zero → r ≠ tp → k.reg r = f.x r) (hthread : k.reg tp = g.reg tp)
    (hcsr : k.csr = g.csr) (hkept : k.mem = g.mem) (hsepc : g.csr .sepc = f.sepc)
    (hsstatus : g.csr .sstatus = f.sstatus)
    (htp : g.reg tp = if f.sstatus.getLsbD 8 then d.reg tp else f.x tp)
    (hscratch : g.csr .sscratch = if f.sstatus.getLsbD 8 then d.csr .sscratch else d.reg tp)
    (hmem : g.mem = d.mem) : TrapReturned d f k.sret := by
  refine ⟨hregs, hthread.trans htp, ?_, ?_, ?_, ?_, hkept.trans hmem⟩
  · change k.csr .sepc = _
    rw [hcsr, hsepc]
  · change (k.csr .sstatus).getLsbD 8 = _
    rw [hcsr, hsstatus]
  · change (k.setCsr .sstatus (sretStatus (k.csr .sstatus))).csr .sstatus = _
    rw [setCsr_csr, if_pos rfl, hcsr, hsstatus]
  · change (k.setCsr .sstatus (sretStatus (k.csr .sstatus))).csr .sscratch = _
    rw [setCsr_csr, if_neg (by decide), hcsr, hscratch]

/-- `.restore_gprs` and `sret`, from either side. -/
theorem restoreGprs_leaves (link : Word) {f : RiscvRegisters} {g : Hart}
    (hframe : g.mem.riscvFrame (g.reg sp) = f) (hsepc : g.csr .sepc = f.sepc)
    (hsstatus : g.csr .sstatus = f.sstatus)
    (htp : g.reg tp = if f.sstatus.getLsbD 8 then d.reg tp else f.x tp)
    (hscratch : g.csr .sscratch = if f.sstatus.getLsbD 8 then d.csr .sscratch else d.reg tp)
    (hmem : g.mem = d.mem) :
    ∃ t, TrapReturned d f t ∧
      Leaves (step link) archInterruptHandlerAsm (trapLoads.map .instr ++ [.instr .sret]) g t := by
  obtain ⟨hregs, hthread, hcsr, hkept⟩ := foldl_trapLoads g
  rw [hframe] at hregs
  exact ⟨_, .of_loads hregs hthread hcsr hkept hsepc hsstatus htp hscratch hmem,
    leaves_straight (by decide) (leaves_leave rfl)⟩

/-- `.return_to_user`: the hart leaves its `tp` in `sscratch`. -/
theorem foldl_trapUserBack (e : Hart) :
    (trapUserBack.foldl (fun s i => exec i s) e).reg sp = e.reg sp ∧
      (trapUserBack.foldl (fun s i => exec i s) e).reg tp =
        (e.mem.riscvFrame (e.reg sp)).x tp ∧
      (∀ c, (trapUserBack.foldl (fun s i => exec i s) e).csr c =
        if c = .sscratch then e.reg tp else e.csr c) ∧
      (trapUserBack.foldl (fun s i => exec i s) e).mem = e.mem := by
  refine ⟨setReg_of_ne (by decide), ?_, fun c => setCsr_csr, rfl⟩
  change ((e.setCsr .sscratch (e.reg tp)).setReg tp (e.mem.read64 (e.reg sp + tf tp))).reg tp = _
  rw [setReg_reg, if_neg (by decide), if_pos rfl]
  rfl

/-- From the test of the mode on. -/
theorem StatusBack.leaves {f : RiscvRegisters} {e : Hart}
    (h : StatusBack d f.sepc f.sstatus (BitVec.twoPow 64 8) e)
    (hf : d.mem.riscvFrame (d.reg a0) = f) (link : Word) :
    ∃ t, TrapReturned d f t ∧ Leaves (step link) archInterruptHandlerAsm
      (.instr (.bnez t0 .returnToKernel) :: .label .returnToUser :: (trapUserBack.map .instr ++
        (.instr (.j .restoreGprs) :: .label .returnToKernel :: restoreGprs))) e t := by
  obtain ⟨hstack, hstatus, htp, hsepc, hsstatus, hscratch, hmem⟩ := h
  have hbit := and_twoPow_eq_zero_iff f.sstatus (i := 8) (by decide)
  rw [← hstatus] at hbit
  have hframe : e.mem.riscvFrame (e.reg sp) = f := by rw [hstack, hmem, hf]
  by_cases hmode : f.sstatus.getLsbD 8 = true
  · have hne : e.reg t0 ≠ 0 := by
      intro h
      rw [hbit.mp h] at hmode
      cases hmode
    obtain ⟨t, ht, hleaves⟩ := restoreGprs_leaves link hframe hsepc hsstatus
      (htp.trans (if_pos hmode).symm) (hscratch.trans (if_pos hmode).symm) hmem
    refine ⟨t, ht, leaves_jump (if_neg hne) ?_⟩
    rw [behind_returnToKernel]
    exact leaves_label hleaves
  · have hzero : e.reg t0 = 0 := hbit.mpr (Bool.eq_false_iff.mpr hmode)
    obtain ⟨hgsp, hgtp, hgcsr, hgmem⟩ := foldl_trapUserBack e
    rw [hframe] at hgtp
    obtain ⟨t, ht, hleaves⟩ := restoreGprs_leaves link (d := d) (f := f)
      (g := trapUserBack.foldl (fun s i => exec i s) e) (by rw [hgsp, hgmem, hframe])
      (((hgcsr .sepc).trans (if_neg (by decide))).trans hsepc)
      (((hgcsr .sstatus).trans (if_neg (by decide))).trans hsstatus)
      (hgtp.trans (if_neg hmode).symm)
      (((hgcsr .sscratch).trans (if_pos rfl)).trans (htp.trans (if_neg hmode).symm))
      (hgmem.trans hmem)
    refine ⟨t, ht, leaves_next (if_pos hzero) (leaves_label ?_)⟩
    refine leaves_straight (by decide) (leaves_jump rfl ?_)
    rw [behind_restoreGprs]
    exact hleaves

/-- Behind `arch_interrupt_handler` the hart runs with the frame that it returned. -/
theorem trapReturn_leaves (link : Word) (d : Hart) :
    ∃ t, TrapReturned d (d.mem.riscvFrame (d.reg a0)) t ∧
      Leaves (step link) archInterruptHandlerAsm trapReturn d t := by
  have hmask : (0x100 : Word) = BitVec.twoPow 64 8 := by decide
  have hback := foldl_trapStatusBack d 272 280 (BitVec.twoPow 64 8)
  obtain ⟨t, ht, hleaves⟩ :=
    StatusBack.leaves (f := d.mem.riscvFrame (d.reg a0)) hback rfl link
  refine ⟨t, ht, ?_⟩
  rw [trapReturn, hmask]
  exact leaves_straight (by rfl) hleaves

/-! ### A trap that comes back -/

/-- The code that ran in `s` goes on in `t`: `SPIE` and `SPP` are all that it may find changed. -/
structure Resumes (s t : Hart) : Prop where
  regs : ∀ r, t.reg r = s.reg r
  pc : t.pc = s.pc
  supervisor : t.supervisor = s.supervisor
  sscratch : t.csr .sscratch = s.csr .sscratch
  status : ∀ i, i ≠ 5 → i ≠ 8 → (t.csr .sstatus).getLsbD i = (s.csr .sstatus).getLsbD i

/-- `arch_interrupt_handler` comes back with the frame that it was given, and as C code it keeps
`tp`. -/
structure ReturnsFrame (c d : Hart) : Prop where
  ret : d.reg a0 = c.reg a0
  frame : d.mem.riscvFrame (c.reg a0) = c.mem.riscvFrame (c.reg a0)
  threadPointer : d.reg tp = c.reg tp
  sscratch : d.csr .sscratch = c.csr .sscratch

variable {c t : Hart} {cause tval base : Word}

theorem TrapCalled.returned (hc : TrapCalled s cause tval base c) (hd : ReturnsFrame c d)
    (h : TrapReturned d (d.mem.riscvFrame (d.reg a0)) t) :
    TrapReturned d (s.trap cause tval).registers t := by
  rw [hd.ret, hd.frame, hc.arg, hc.frame] at h
  exact h

theorem TrapReturned.resumes (h : TrapReturned d (s.trap cause tval).registers t)
    (hready : s.csr .sscratch = 0 ↔ s.supervisor) (htp : d.reg tp = s.cpu)
    (hscratch : d.csr .sscratch = 0) : Resumes s t := by
  obtain ⟨hregs, hthread, hpc, hmode, hstatus, hsscratch, -⟩ := h
  have hspp : (s.trap cause tval).registers.sstatus.getLsbD 8 = s.supervisor :=
    trapStatus_spp _ _
  rw [hspp] at hthread hmode hsscratch
  refine ⟨fun r => ?_, hpc, hmode, ?_, fun i hi hi' => ?_⟩
  · by_cases hzero : r = zero
    · rw [hzero]
      rfl
    by_cases heq : r = tp
    · rw [heq, hthread]
      by_cases hs : s.supervisor = true
      · rw [if_pos hs, htp, Hart.cpu, if_pos hs]
      · rw [if_neg hs]
        rfl
    · exact hregs r hzero heq
  · rw [hsscratch]
    by_cases hs : s.supervisor = true
    · rw [if_pos hs, hscratch, hready.mpr hs]
    · rw [if_neg hs, htp, Hart.cpu, if_neg hs]
  · rw [hstatus]
    exact sretStatus_trapStatus _ _ hi hi'

end Hart

/-- A trap whose handler stays on its frame cannot be seen by the code that it interrupts, of the
kernel or of a user. -/
theorem riscvTrap_transparent (link cause tval : Word) {s : Hart} (h : TrapReady s) :
    ∃ c, TrapCalled s cause tval (s.trapStack - tfSize) c ∧
      Leaves (step link) archInterruptHandlerAsm archInterruptHandlerAsm (s.trap cause tval) c ∧
      ∀ d, ReturnsFrame c d → ∃ t, Leaves (step link) archInterruptHandlerAsm trapReturn d t ∧
        Resumes s t := by
  obtain ⟨c, hc, henter⟩ := trapEntry_leaves link cause tval h
  refine ⟨c, hc, henter, fun d hd => ?_⟩
  obtain ⟨t, ht, hleaves⟩ := trapReturn_leaves link d
  have hback := hc.returned hd ht
  exact ⟨t, hleaves, hback.resumes h.scratch (hd.threadPointer.trans hc.cpu)
    (hd.sscratch.trans hc.sscratch)⟩

/-- User code that keeps a number of its own in `tp`. -/
def userHart : Hart where
  x := Function.update (fun _ => 7) sp 0x7FFFFF000
  pc := 0x401000
  csr := Function.update (fun _ => 0) .sscratch 0xFFFF800000100000
  supervisor := false
  mem := Memory.write64 (fun _ => 0) 0xFFFF800000100008 0xFFFF800000204000

theorem trapStack_userHart : userHart.trapStack = 0xFFFF800000204000 :=
  Memory.read64_write64 _ _ _

theorem trapReady_userHart : TrapReady userHart := by
  refine ⟨⟨?_, fun _ => ⟨by decide, ?_⟩⟩, by decide⟩
  · rw [trapStack_userHart]
    decide
  · rw [trapStack_userHart]
    exact Or.inl (by decide)

/-- A timer interrupt in it, behind which it goes on. -/
theorem riscvTrap_transparent_timer : ∃ c t,
    Leaves (step 0) archInterruptHandlerAsm archInterruptHandlerAsm
      (userHart.trap 0x8000000000000005 0) c ∧
      Leaves (step 0) archInterruptHandlerAsm trapReturn c t ∧ Resumes userHart t := by
  obtain ⟨c, -, henter, hback⟩ := riscvTrap_transparent 0 0x8000000000000005 0 trapReady_userHart
  obtain ⟨t, hleaves, hresumes⟩ := hback c ⟨rfl, rfl, rfl, rfl⟩
  exact ⟨c, t, henter, hleaves, hresumes⟩

end Utopia
