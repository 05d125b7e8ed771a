/-
RISC-V traps over whole runs of a hart: system calls through `arch_interrupt_handler` of
`cpu/interrupts.c`, a fork that returns twice, and the `cpu_t` that the kernel finds.
-/
import Utopia.Arch.RiscvTrap

namespace Utopia

open Assembly Hart

/-- `fault_signal`. -/
def faultSignal (cause : Word) : ℕ :=
  if cause = 2 then 4
  else if cause = 3 then 5
  else if cause = 0 ∨ cause = 4 ∨ cause = 6 then 7
  else 11

/-- What is done about a trap. -/
inductive TrapAction where
  | syscall
  | fatal (sig : ℕ)
  | panic
  | timer
  | ignore
deriving DecidableEq, Repr

/-- `arch_interrupt_handler` up to the calls that it makes. -/
def archInterruptHandler (regs : RiscvRegisters) : TrapAction :=
  let cause := regs.scause &&& ~~~((1 : Word) <<< 63)
  if (regs.scause >>> 63) &&& 1 = 0 then
    if cause = 8 then .syscall
    else if regs.sstatus &&& ((1 : Word) <<< 8) = 0 then .fatal (faultSignal cause)
    else .panic
  else if cause = 5 then .timer
  else .ignore

variable {s c d t : Hart} {cause tval : Word}

/-- Only an exception of the kernel itself ends in a panic. -/
theorem supervisor_of_panic
    (h : archInterruptHandler (s.trap cause tval).registers = .panic) : s.supervisor := by
  have hmask : (1 : Word) <<< 8 = BitVec.twoPow 64 8 := by decide
  have hspp : (s.trap cause tval).registers.sstatus.getLsbD 8 = s.supervisor :=
    trapStatus_spp _ _
  rw [archInterruptHandler, hmask] at h
  simp only [and_twoPow_eq_zero_iff _ (by decide : 8 < 64), hspp] at h
  split_ifs at h with h₁ h₂ h₃
  exact Bool.eq_true_of_not_eq_false h₃

theorem archInterruptHandler_ecall {regs : RiscvRegisters} (h : regs.scause = 8) :
    archInterruptHandler regs = .syscall := by
  rw [archInterruptHandler, h, if_pos (by decide), if_pos (by decide)]

/-! ### System calls -/

/-- `syscall_set_return_val` and, behind `syscall_handler`, `regs->sepc += 4`. -/
def ecallStores (m : Memory) (regs ret : Word) : Memory :=
  m.storeSlots regs [(10, ret), (34, (m.riscvFrame regs).sepc + 4)]

/-- The frame behind a system call that only returns a value. -/
def ecallFrame (f : RiscvRegisters) (ret : Word) : RiscvRegisters :=
  { f with x := Function.update f.x a0 ret, sepc := f.sepc + 4 }

/-- The frame of a child is that of a system call that returns 0. -/
theorem forChild_riscv (f : RiscvRegisters) :
    Registers.forChild (.riscv64 f) = .riscv64 (ecallFrame f 0) := rfl

theorem riscvFrame_ecallStores {m : Memory} {regs : Word} (ret : Word)
    (hfit : regs.toNat + 288 ≤ 2 ^ 64) :
    (ecallStores m regs ret).riscvFrame regs = ecallFrame (m.riscvFrame regs) ret := by
  refine riscvFrame_storeSlots hfit (by simp) (fun i => ?_) rfl rfl rfl rfl
  fin_cases i <;> rfl

/-- A frame is its 288 bytes. -/
theorem riscvFrame_congr {m m' : Memory} {a : Word} (hfit : a.toNat + 288 ≤ 2 ^ 64)
    (h : Set.EqOn m' m (span a 288)) : m'.riscvFrame a = m.riscvFrame a := by
  have hword {k : ℕ} (hk : k < 36) : m'.read64 (a + BitVec.ofNat 64 (8 * k)) =
      m.read64 (a + BitVec.ofNat 64 (8 * k)) := by
    have hslot := Memory.slot_toNat (n := 36) hfit hk
    exact Memory.read64_congr (by omega) (h.mono (span_subset_span (by omega) (by omega)))
  rw [Memory.riscvFrame, Memory.riscvFrame, RiscvRegisters.mk.injEq]
  exact ⟨funext fun i => hword (Nat.lt_of_lt_of_le i.isLt (by decide)),
    hword (k := 32) (by decide), hword (k := 33) (by decide), hword (k := 34) (by decide),
    hword (k := 35) (by decide)⟩

namespace Hart

/-- `arch_interrupt_handler` comes back from a system call that returns `ret`. -/
structure HandledEcall (ret : Word) (c d : Hart) : Prop where
  arg : d.reg a0 = c.reg a0
  frame : Set.EqOn d.mem (ecallStores c.mem (c.reg a0) ret) (span (c.reg a0) 288)

/-- The user code of `s` goes on behind its `ecall` with `ret` as its result. -/
structure EcallReturned (s : Hart) (ret : Word) (t : Hart) : Prop where
  result : t.reg a0 = ret
  regs : ∀ r, r ≠ a0 → t.reg r = s.reg r
  pc : t.pc = s.pc + 4
  user : ¬ t.supervisor
  status : ∀ i, i ≠ 5 → i ≠ 8 → (t.csr .sstatus).getLsbD i = (s.csr .sstatus).getLsbD i

theorem TrapReturned.ecall {ret : Word} (hs : ¬ s.supervisor)
    (h : TrapReturned d (ecallFrame (s.trap cause tval).registers ret) t) :
    EcallReturned s ret t := by
  obtain ⟨hregs, hthread, hpc, hmode, hstatus, -, -⟩ := h
  have hspp : (ecallFrame (s.trap cause tval).registers ret).sstatus.getLsbD 8 = s.supervisor :=
    trapStatus_spp _ _
  rw [hspp] at hthread hmode
  refine ⟨?_, fun r hr => ?_, hpc, ?_, fun i hi hi' => ?_⟩
  · rw [hregs a0 (by decide) (by decide)]
    exact Function.update_self a0 ret s.reg
  · by_cases hzero : r = zero
    · rw [hzero]
      rfl
    by_cases heq : r = tp
    · rw [heq, hthread, if_neg hs]
      exact Function.update_of_ne (by decide : tp ≠ a0) ret s.reg
    · rw [hregs r hzero heq]
      exact Function.update_of_ne hr ret s.reg
  · rw [hmode]
    exact hs
  · rw [hstatus]
    exact sretStatus_trapStatus _ _ hi hi'

end Hart

/-- A fork returns twice: behind the same `ecall`, and with the same registers but for the result,
the parent goes on from its trap, and the child, on any hart, from the frame that
`thread_clone_user` prepared of the parent's. -/
theorem riscvFork_returns_twice (link tval ret : Word) {s : Hart} (h : TrapReady s)
    (hs : ¬ s.supervisor) :
    ∃ c, TrapCalled s 8 tval (s.trapStack - tfSize) c ∧
      archInterruptHandler (c.mem.riscvFrame (c.reg a0)) = .syscall ∧
      Leaves (step link) archInterruptHandlerAsm archInterruptHandlerAsm (s.trap 8 tval) c ∧
      (∀ d, HandledEcall ret c d → ∃ t,
        Leaves (step link) archInterruptHandlerAsm trapReturn d t ∧ EcallReturned s ret t) ∧
      ∀ d, .riscv64 (d.mem.riscvFrame (d.reg a0)) =
          Registers.forChild (.riscv64 (c.mem.riscvFrame (c.reg a0))) →
        ∃ u, Leaves (step link) archInterruptHandlerAsm trapReturn d u ∧ EcallReturned s 0 u := by
  obtain ⟨c, hc, henter⟩ := trapEntry_leaves link 8 tval h
  have hframe := hc.frame
  rw [← hc.arg] at hframe
  have hfit : (c.reg a0).toNat + 288 ≤ 2 ^ 64 := by
    have hbase := h.base_toNat
    have hroom := h.room
    rw [hc.arg]
    omega
  refine ⟨c, hc, ?_, henter, fun d hd => ?_, fun d hd => ?_⟩
  · rw [hframe]
    exact archInterruptHandler_ecall rfl
  · obtain ⟨t, ht, hleaves⟩ := trapReturn_leaves link d
    have hback := riscvFrame_congr hfit hd.frame
    rw [riscvFrame_ecallStores ret hfit, hframe] at hback
    rw [hd.arg, hback] at ht
    exact ⟨t, hleaves, ht.ecall hs⟩
  · obtain ⟨u, hu, hleaves⟩ := trapReturn_leaves link d
    rw [forChild_riscv, Registers.riscv64.injEq, hframe] at hd
    rw [hd] at hu
    exact ⟨u, hleaves, hu.ecall hs⟩

/-- A child with the number 5, that starts on the hart of its parent. -/
theorem riscvFork_returns_twice_sample : ∃ t u,
    EcallReturned userHart 5 t ∧ EcallReturned userHart 0 u := by
  obtain ⟨c, hc, -, -, hparent, hchild⟩ :=
    riscvFork_returns_twice 0 0 5 trapReady_userHart (by decide)
  have hfit : (c.reg a0).toNat + 288 ≤ 2 ^ 64 := by
    rw [hc.arg, trapStack_userHart]
    decide
  obtain ⟨t, -, ht⟩ := hparent (c.setMem (ecallStores c.mem (c.reg a0) 5)) ⟨rfl, Set.eqOn_refl _ _⟩
  obtain ⟨u, -, hu⟩ := hchild (c.setMem (ecallStores c.mem (c.reg a0) 0)) (by
    rw [forChild_riscv]
    exact congrArg Registers.riscv64 (riscvFrame_ecallStores 0 hfit))
  exact ⟨t, u, ht, hu⟩

/-! ### Runs of a hart -/

/-- One hart: code of a user or of the kernel runs, a trap comes to `arch_interrupt_handler`, and
behind it the hart goes on with a frame.  Code of a user cannot write `sscratch`, and code of the
kernel keeps `tp`. -/
inductive HartStep : Hart → Hart → Prop
  | user {s s' : Hart} (hs : ¬ s.supervisor) (hs' : ¬ s'.supervisor)
      (hscratch : s'.csr .sscratch = s.csr .sscratch) : HartStep s s'
  | kernel {s s' : Hart} (hs : s.supervisor) (hs' : s'.supervisor) (htp : s'.reg tp = s.reg tp)
      (hscratch : s'.csr .sscratch = s.csr .sscratch) : HartStep s s'
  | trap {s c : Hart} (link cause tval : Word) (hroom : FrameRoom s)
      (hleaves : Leaves (step link) archInterruptHandlerAsm archInterruptHandlerAsm
        (s.trap cause tval) c) : HartStep s c
  | trapReturn {d t : Hart} (link : Word) (hd : d.supervisor)
      (hleaves : Leaves (step link) archInterruptHandlerAsm trapReturn d t) : HartStep d t

inductive HartRuns (s : Hart) : Hart → Prop
  | start : HartRuns s s
  | step {t u : Hart} (hrun : HartRuns s t) (hstep : HartStep t u) : HartRuns s u

namespace Hart

/-- As `arch_early_init` and `smp_startup` leave a hart with its `cpu_t`. -/
structure Started (s : Hart) (cpu : Word) : Prop where
  supervisor : s.supervisor
  threadPointer : s.reg tp = cpu
  sscratch : s.csr .sscratch = 0

/-- The kernel finds its `cpu_t` in `tp`, and takes it from `sscratch` when a user traps. -/
structure OfCpu (s : Hart) (cpu : Word) : Prop where
  kernel : s.supervisor → s.reg tp = cpu ∧ s.csr .sscratch = 0
  user : ¬ s.supervisor → s.csr .sscratch = cpu

variable {cpu : Word}

theorem Started.ofCpu (h : Started s cpu) : OfCpu s cpu :=
  ⟨fun _ => ⟨h.threadPointer, h.sscratch⟩, fun hs => absurd h.supervisor hs⟩

theorem OfCpu.cpu_eq (h : OfCpu s cpu) : s.cpu = cpu := by
  by_cases hs : s.supervisor = true
  · rw [Hart.cpu, if_pos hs]
    exact (h.kernel hs).1
  · rw [Hart.cpu, if_neg hs]
    exact h.user hs

/-- Wherever a trap comes, the entry code sees which code it interrupts. -/
theorem OfCpu.trapReady (h : OfCpu s cpu) (hcpu : cpu ≠ 0) (hroom : FrameRoom s) :
    TrapReady s := by
  refine ⟨hroom, fun hzero => ?_, fun hs => (h.kernel hs).2⟩
  by_contra hs
  exact hcpu ((h.user hs).symm.trans hzero)

/-- The only way into the handler is with the frame of what was interrupted. -/
theorem OfCpu.called (h : OfCpu s cpu) (hcpu : cpu ≠ 0) (hroom : FrameRoom s) {link : Word}
    (hleaves : Leaves (Hart.step link) archInterruptHandlerAsm archInterruptHandlerAsm
      (s.trap cause tval) c) : TrapCalled s cause tval (s.trapStack - tfSize) c := by
  obtain ⟨c', hc, henter⟩ := trapEntry_leaves link cause tval (h.trapReady hcpu hroom)
  rw [hleaves.unique henter]
  exact hc

theorem OfCpu.step (h : OfCpu s cpu) (hcpu : cpu ≠ 0) (hstep : HartStep s t) : OfCpu t cpu := by
  cases hstep with
  | user hs hs' hscratch =>
      exact ⟨fun h' => absurd h' hs', fun _ => hscratch.trans (h.user hs)⟩
  | kernel hs hs' htp hscratch =>
      obtain ⟨hkept, hzero⟩ := h.kernel hs
      exact ⟨fun _ => ⟨htp.trans hkept, hscratch.trans hzero⟩, fun h' => absurd hs' h'⟩
  | trap link cause tval hroom hleaves =>
      have hc := h.called hcpu hroom hleaves
      exact ⟨fun _ => ⟨hc.cpu.trans h.cpu_eq, hc.sscratch⟩, fun h' => absurd hc.supervisor h'⟩
  | trapReturn link hd hleaves =>
      obtain ⟨hkept, hzero⟩ := h.kernel hd
      obtain ⟨t', ht, hleaves'⟩ := trapReturn_leaves link s
      obtain rfl := hleaves.unique hleaves'
      refine ⟨fun hs => ?_, fun hs => ?_⟩
      · rw [ht.supervisor] at hs
        rw [ht.threadPointer, ht.sscratch, if_pos hs, if_pos hs]
        exact ⟨hkept, hzero⟩
      · rw [ht.supervisor] at hs
        rw [ht.sscratch, if_neg hs]
        exact hkept

end Hart

/-- In every run of a hart the kernel runs with the hart's own `cpu_t` in `tp`, whatever users
write to theirs: a trap of user code takes its stack from there, and one of the kernel stays on
the stack in use. -/
theorem hartRuns_cpu {s t : Hart} {cpu : Word} (hs : Started s cpu) (hcpu : cpu ≠ 0)
    (h : HartRuns s t) :
    (t.supervisor → t.reg tp = cpu) ∧
      ∀ link cause tval c, FrameRoom t →
        Leaves (step link) archInterruptHandlerAsm archInterruptHandlerAsm (t.trap cause tval) c →
        c.reg tp = cpu ∧ c.mem.riscvFrame (c.reg a0) = (t.trap cause tval).registers ∧
          c.reg a0 = (if t.supervisor then t.reg sp else t.mem.read64 (cpu + 8)) - tfSize := by
  have hinv : OfCpu t cpu := by
    induction h with
    | start => exact hs.ofCpu
    | step hrun hstep ih => exact ih.step hcpu hstep
  refine ⟨fun h' => (hinv.kernel h').1, fun link cause tval c hroom hleaves => ?_⟩
  have hc := hinv.called hcpu hroom hleaves
  have hframe := hc.frame
  rw [← hc.arg] at hframe
  refine ⟨hc.cpu.trans hinv.cpu_eq, hframe, hc.arg.trans ?_⟩
  rw [trapStack, kernelStackTop]
  by_cases hmode : t.supervisor = true
  · rw [if_pos hmode, if_pos hmode]
  · rw [if_neg hmode, if_neg hmode, hinv.user hmode]

/-- The first hart, with nothing in memory. -/
def startedHart : Hart where
  x := Function.update (fun _ => 0) tp 0xFFFF800000100000
  pc := 0
  csr := fun _ => 0
  supervisor := true
  mem := fun _ => 0

/-- User code that has written its `tp`. -/
def foreignTp : Hart := userHart.setReg tp 3

theorem frameRoom_foreignTp : FrameRoom foreignTp :=
  ⟨trapReady_userHart.room, trapReady_userHart.cpu⟩

/-- It goes to user code, which writes its `tp`, and in the next trap the kernel has its own. -/
theorem hartRuns_cpu_user : HartRuns startedHart foreignTp ∧ foreignTp.reg tp = 3 ∧
    ∃ c, Leaves (step 0) archInterruptHandlerAsm archInterruptHandlerAsm (foreignTp.trap 8 0) c ∧
      c.reg tp = 0xFFFF800000100000 := by
  obtain ⟨t, ht, hleaves⟩ := trapReturn_leaves 0 startedHart
  have hstatus : (startedHart.mem.riscvFrame (startedHart.reg a0)).sstatus = 0 :=
    Memory.read64_eq_zero (by decide) fun _ _ => rfl
  have huser := ht.supervisor
  have hscratch := ht.sscratch
  rw [hstatus] at huser hscratch
  have hrun : HartRuns startedHart foreignTp :=
    (HartRuns.start.step (.trapReturn 0 rfl hleaves)).step
      (.user (by rw [huser]; decide) (by decide) hscratch.symm)
  have hready : TrapReady foreignTp := ⟨frameRoom_foreignTp, by decide⟩
  obtain ⟨c, -, henter⟩ := trapEntry_leaves 0 8 0 hready
  have hstarted : Started startedHart 0xFFFF800000100000 := ⟨rfl, rfl, rfl⟩
  obtain ⟨-, hcalled⟩ := hartRuns_cpu hstarted (by decide) hrun
  exact ⟨hrun, rfl, c, henter, (hcalled 0 8 0 c frameRoom_foreignTp henter).1⟩

end Utopia
