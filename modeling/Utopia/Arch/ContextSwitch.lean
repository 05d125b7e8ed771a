/-
A context switch of x86_64: what `scheduler_schedule` saves of the code that was interrupted, and
how `isr_common` goes on with it later, on any processor.
-/
import Utopia.Arch.SyscallEntry

namespace Utopia

open Processor

/-- `scheduler_schedule` saves the frame `regs` to `curr->regs`.  Code of the kernel goes on from
the stack it was interrupted on, where its interrupt left `rsp` and `ss`. -/
def saveRegs (m : Memory) (saved regs : Word) : Memory :=
  let interruptedKernel := (m.frame regs).cs &&& 3 = 0
  let m := m.copy saved regs (sizeofRegisters .x86_64).toNat
  if interruptedKernel then (m.write64 (saved + 160) (regs + 160)).write64 (saved + 168) 0x10
  else m

variable {m m' : Memory} {saved regs : Word}

theorem frame_copy (m : Memory) (saved regs : Word) :
    (m.copy saved regs 176).frame saved = m.frame regs :=
  frame_eq fun _ hoff => Memory.read64_copy m saved regs hoff (by decide)

/-- A frame is its 176 bytes. -/
theorem frame_congr (hfits : saved.toNat + 176 ≤ 2 ^ 64) (h : Set.EqOn m' m (span saved 176)) :
    m'.frame saved = m.frame saved := by
  refine frame_eq fun off hoff => ?_
  have hadd : (saved + off).toNat = saved.toNat + off.toNat := by
    rw [BitVec.toNat_add]
    omega
  exact Memory.read64_congr (by omega) (h.mono (span_subset_span (by omega) (by omega)))

/-- The two stores of `scheduler_schedule` behind its copy. -/
theorem frame_stores (hfits : saved.toNat + 176 ≤ 2 ^ 64) (rsp ss : Word) :
    ((m.write64 (saved + 160) rsp).write64 (saved + 168) ss).frame saved =
      { m.frame saved with rsp := rsp, ss := ss } := by
  have hslot : (saved + 160).toNat = saved.toNat + 160 := by bv_omega
  have hslot' : (saved + 168).toNat = saved.toNat + 168 := by bv_omega
  have hword {off : Word} (hoff : off.toNat + 8 ≤ 160) :
      ((m.write64 (saved + 160) rsp).write64 (saved + 168) ss).read64 (saved + off) =
        m.read64 (saved + off) := by
    have hadd : (saved + off).toNat = saved.toNat + off.toNat := by
      rw [BitVec.toNat_add]
      omega
    rw [Memory.read64_write64_of_disjoint _ _ (by omega) (by omega) (by omega),
      Memory.read64_write64_of_disjoint _ _ (by omega) (by omega) (by omega)]
  have hzero (x : Word) : x + 0 = x := BitVec.add_zero x
  have hfirst : ((m.write64 (saved + 160) rsp).write64 (saved + 168) ss).read64 (saved + 0) =
      m.read64 (saved + 0) := hword (by decide)
  rw [hzero] at hfirst
  rw [Memory.frame, Memory.frame, X86Registers.mk.injEq]
  refine ⟨hfirst, funext fun i => hword ?_, hword (by decide), hword (by decide),
    hword (by decide), hword (by decide), hword (by decide), ?_, Memory.read64_write64 ..⟩
  · rw [BitVec.toNat_ofNat]
    omega
  · rw [Memory.read64_write64_of_disjoint _ _ (by omega) (by omega) (by omega),
      Memory.read64_write64]

/-- What is saved of the code that the frame `regs` belongs to. -/
theorem frame_saveRegs (m : Memory) (regs : Word) (hfits : saved.toNat + 176 ≤ 2 ^ 64) :
    (saveRegs m saved regs).frame saved =
      if (m.frame regs).cs &&& 3 = 0 then { m.frame regs with rsp := regs + 160, ss := 0x10 }
      else m.frame regs := by
  have hsize : (sizeofRegisters .x86_64).toNat = 176 := rfl
  rw [saveRegs, hsize]
  by_cases hcs : (m.frame regs).cs &&& 3 = 0
  · rw [if_pos hcs, if_pos hcs, frame_stores hfits, frame_copy]
  · rw [if_neg hcs, if_neg hcs, frame_copy]

/-- Nothing else is written. -/
theorem saveRegs_eqOn (m : Memory) (regs : Word) (hfits : saved.toNat + 176 ≤ 2 ^ 64) :
    Set.EqOn (saveRegs m saved regs) m (span saved 176)ᶜ := by
  have hsize : (sizeofRegisters .x86_64).toNat = 176 := rfl
  have hcopy : Set.EqOn (m.copy saved regs 176) m (span saved 176)ᶜ :=
    Memory.copy_eqOn m regs (by omega)
  have hslot : (saved + 160).toNat = saved.toNat + 160 := by bv_omega
  have hslot' : (saved + 168).toNat = saved.toNat + 168 := by bv_omega
  have hstore {m : Memory} {a v : Word} (ha : saved.toNat ≤ a.toNat)
      (ha' : a.toNat + 8 ≤ saved.toNat + 176) :
      Set.EqOn (m.write64 a v) m (span saved 176)ᶜ :=
    (Memory.write64_eqOn m v (by omega)).mono
      (Set.compl_subset_compl.mpr (span_subset_span ha ha'))
  rw [saveRegs, hsize]
  split
  · exact ((hstore (by omega) (by omega)).trans (hstore (by omega) (by omega))).trans hcopy
  · exact hcopy

/-- The bytes from which suspended code goes on: what was saved, and for code of the kernel the
two words of its interrupt on its stack. -/
def resumeBytes (s : Processor) (saved regs : Word) : Set Word :=
  span saved 176 ∪ if s.fromUser then ∅ else span (regs + 160) 16

/-- Memory from which the code that ran in `s` can go on. -/
structure Suspended (s : Processor) (saved regs intNo errCode : Word) (m : Memory) : Prop where
  fits : saved.toNat + 176 ≤ 2 ^ 64
  room : regs.toNat + 176 ≤ 2 ^ 64
  apart : saved.toNat + 176 ≤ regs.toNat ∨ regs.toNat + 176 ≤ saved.toNat
  frame : m.frame saved =
    if s.cs &&& 3 = 0 then { s.registers intNo errCode with rsp := regs + 160, ss := 0x10 }
    else s.registers intNo errCode
  stack : s.cs &&& 3 = 0 → m.read64 (regs + 160) = s.sp ∧ m.read64 (regs + 168) = s.ss

variable {s c u : Processor} {env : Env} {rsp0 gateCs intNo errCode : Word}

theorem fromUser_eq_false (h : s.cs &&& 3 = 0) : s.fromUser = false :=
  decide_eq_false (not_not.mpr h)

/-- As long as nobody writes its bytes, the code stays suspended. -/
theorem Suspended.congr (h : Suspended s saved regs intNo errCode m)
    (heq : Set.EqOn m' m (resumeBytes s saved regs)) :
    Suspended s saved regs intNo errCode m' := by
  have hframe := frame_congr h.fits (heq.mono Set.subset_union_left)
  refine ⟨h.fits, h.room, h.apart, hframe.trans h.frame, fun hcs => ?_⟩
  have hroom := h.room
  have hslot : (regs + 160).toNat = regs.toNat + 160 := by bv_omega
  have hslot' : (regs + 168).toNat = regs.toNat + 168 := by bv_omega
  have hstack : Set.EqOn m' m (span (regs + 160) 16) := by
    apply heq.mono
    rw [resumeBytes, fromUser_eq_false hcs, if_neg Bool.false_ne_true]
    exact Set.subset_union_right
  have hword {b : Word} (hb : (regs + 160).toNat ≤ b.toNat)
      (hb' : b.toNat + 8 ≤ (regs + 160).toNat + 16) : m'.read64 b = m.read64 b :=
    Memory.read64_congr (by omega) (hstack.mono (span_subset_span hb hb'))
  rw [hword (by omega) (by omega), hword (by omega) (by omega)]
  exact h.stack hcs

/-- `scheduler_schedule` suspends the code whose frame it is given. -/
theorem Processor.HandlerCalled.suspended (h : HandlerCalled s rsp0 gateCs intNo errCode c)
    (hroom : 176 ≤ (s.gateStack rsp0).toNat) (hfits : saved.toNat + 176 ≤ 2 ^ 64)
    (hapart : saved.toNat + 176 ≤ (c.reg .rdi).toNat ∨ (c.reg .rdi).toNat + 176 ≤ saved.toNat)
    (hsame : Set.EqOn m c.mem (span (c.reg .rdi) 176)) :
    Suspended s saved (c.reg .rdi) intNo errCode (saveRegs m saved (c.reg .rdi)) := by
  have hframe := h.frame
  rw [← h.arg] at hframe
  have hbase : (c.reg .rdi).toNat + 176 ≤ 2 ^ 64 := by
    have hlt := (s.gateStack rsp0).isLt
    rw [h.arg]
    bv_omega
  generalize c.reg .rdi = regs at *
  have hregs := (frame_congr hbase hsame).trans hframe
  have hsaved := frame_saveRegs m regs hfits
  rw [hregs] at hsaved
  refine ⟨hfits, hbase, hapart, hsaved, fun _ => ?_⟩
  have hslot : (regs + 160).toNat = regs.toNat + 160 := by bv_omega
  have hslot' : (regs + 168).toNat = regs.toNat + 168 := by bv_omega
  have hword {b : Word} (hb : regs.toNat ≤ b.toNat) (hb' : b.toNat + 8 ≤ regs.toNat + 176) :
      (saveRegs m saved regs).read64 b = m.read64 b := by
    apply Memory.read64_congr (by omega)
    apply (saveRegs_eqOn m regs hfits).mono
    intro x hx hx'
    rw [mem_span] at hx hx'
    omega
  rw [hword (by omega) (by omega), hword (by omega) (by omega)]
  exact ⟨congrArg X86Registers.rsp hregs, congrArg X86Registers.ss hregs⟩

/-- `isr_common` with a saved frame goes on with the code it was saved of. -/
theorem Suspended.resumes (h : Suspended s saved regs intNo errCode u.mem)
    (hrax : u.reg .rax = saved) (hother : saved ≠ u.reg .rbx) :
    ∃ t, Leaves env isrCommon isrReturn u t ∧ Resumes s t ∧
      t.gsBase = (u.swapgsIf s.fromUser).gsBase ∧
      t.kernelGsBase = (u.swapgsIf s.fromUser).kernelGsBase := by
  obtain ⟨hfits, hroom, hapart, hframe, hstack⟩ := h
  subst hrax
  by_cases hcs : s.cs &&& 3 = 0
  · rw [if_pos hcs] at hframe
    have hslot : (regs + 160).toNat = regs.toNat + 160 := by bv_omega
    have hrsp : (u.mem.frame (u.reg .rax)).rsp = regs + 160 := by rw [hframe]
    have hkernel : KernelFrame u.mem (u.reg .rax) := by
      refine ⟨hfits, ?_, ?_, ?_⟩ <;> rw [hrsp] <;> omega
    have hcs' : (u.mem.frame (u.reg .rax)).cs &&& 3 = 0 := by
      rw [hframe]
      exact hcs
    obtain ⟨t, hleaves, hshows, hgs, hkernelGs, -⟩ :=
      isrReturn_kernel env hkernel hother hcs'
    obtain ⟨hsp, hss⟩ := hstack hcs
    have hnext : regs + 160 + 8 = regs + 168 := by grind
    rw [hrsp, hnext, hsp, hss, hframe] at hshows
    rw [fromUser_eq_false hcs]
    have hshown : t.Shows (s.registers intNo errCode) := hshows
    exact ⟨t, hleaves, hshown.resumes, hgs, hkernelGs⟩
  · rw [if_neg hcs] at hframe
    have hcs' : (u.mem.frame (u.reg .rax)).cs = s.cs := by
      rw [hframe]
      rfl
    obtain ⟨t, hleaves, hshows, honly⟩ := isrReturn_leaves env (s := u)
      (Or.inr (by rw [hcs']; exact hcs))
    rw [hframe] at hshows
    rw [hcs'] at honly
    exact ⟨t, hleaves, hshows.resumes, honly.gsBase, honly.kernelGsBase⟩

/-- Code that an interrupt takes off its processor goes on as if nothing had been: the stub hands
its registers to `isr_handler`, `scheduler_schedule` saves them, and `isr_common` loads them again
when it is given what was saved, on whichever processor, once the bytes have been left alone. -/
theorem contextSwitch_resumes (env : Env) (s : Processor) (rsp0 gateCs vector error saved : Word)
    (hroom : 176 ≤ (s.gateStack rsp0).toNat) (hfits : saved.toNat + 176 ≤ 2 ^ 64)
    (hapart : saved.toNat + 352 ≤ (s.gateStack rsp0).toNat ∨
      (s.gateStack rsp0).toNat ≤ saved.toNat) :
    ∃ c : Processor, HandlerCalled s rsp0 gateCs vector (if isrErr vector then error else 0) c ∧
      (∀ t, Leaves env isrCommon isrReturn (env.callee c) t → Leaves env isrCommon (isrStub vector)
        (s.interrupt rsp0 gateCs (if isrErr vector then some error else none)) t) ∧
      ∀ m u env', Set.EqOn m c.mem (span (c.reg .rdi) 176) →
        Set.EqOn u.mem (saveRegs m saved (c.reg .rdi)) (resumeBytes s saved (c.reg .rdi)) →
        u.reg .rax = saved → saved ≠ u.reg .rbx →
        ∃ t, Leaves env' isrCommon isrReturn u t ∧ Resumes s t ∧
          t.gsBase = (u.swapgsIf s.fromUser).gsBase ∧
          t.kernelGsBase = (u.swapgsIf s.fromUser).kernelGsBase := by
  obtain ⟨c, hc, hgo⟩ := isrStub_leaves env s gateCs vector error hroom
  have harg : (c.reg .rdi).toNat = (s.gateStack rsp0).toNat - 176 := by
    rw [hc.arg]
    bv_omega
  refine ⟨c, hc, hgo, ?_⟩
  intro m u env' hm hu hrax hother
  have hsaved := hc.suspended hroom hfits (by omega) hm
  exact (hsaved.congr hu).resumes hrax hother

/-- A thread of the kernel, interrupted on its own stack. -/
def kernelSample : Processor :=
  { userSample with
    reg := Function.update (fun _ => 9) .rsp 0xFFFF800000208010
    cs := 0x08
    ss := 0x10
    gsBase := 0xFFFF800000100000 }

/-- It is switched from, and another processor switches to it at once. -/
theorem contextSwitch_resumes_kernel : ∃ c u t : Processor,
    HandlerCalled kernelSample 0 0x08 0x41 0 c ∧
      u.mem = saveRegs c.mem 0xFFFF800000300000 (c.reg .rdi) ∧
      Leaves (starEnv id) isrCommon isrReturn u t ∧ Resumes kernelSample t := by
  obtain ⟨c, hc, -, hgo⟩ := contextSwitch_resumes (starEnv id) kernelSample 0 0x08 0x41 0
    0xFFFF800000300000 (by decide) (by decide) (by decide)
  let u : Processor :=
    { userSample.setReg .rax 0xFFFF800000300000 with
      mem := saveRegs c.mem 0xFFFF800000300000 (c.reg .rdi) }
  have hother : (0xFFFF800000300000 : Word) ≠ u.reg .rbx := by
    change (0xFFFF800000300000 : Word) ≠ 7
    decide
  obtain ⟨t, hleaves, hresumes, -, -⟩ := hgo c.mem u (starEnv id) (Set.eqOn_refl _ _)
    (Set.eqOn_refl _ _) rfl hother
  exact ⟨c, u, t, hc, rfl, hleaves, hresumes⟩

/-! ### The base of the kernel -/

namespace Processor

/-- Where `gs` leads when the kernel runs next. -/
def kernelBase (s : Processor) : Word := if s.fromUser then s.kernelGsBase else s.gsBase

end Processor

/-- One processor between the calls from its entry code: code of a user or of the kernel runs,
`arch_prctl` is called with `ARCH_SET_GS`, and the entry code is passed one way or the other. -/
inductive CoreStep : Processor → Option Word → Processor → Prop
  | user {s s' : Processor} (hs : s.fromUser) (hs' : s'.fromUser)
      (hbase : s'.kernelGsBase = s.kernelGsBase) : CoreStep s none s'
  | kernel {s s' : Processor} (hs : ¬ s.fromUser) (hs' : ¬ s'.fromUser)
      (hbase : s'.gsBase = s.gsBase) : CoreStep s none s'
  | archSetGs {s : Processor} (addr : Word) (hs : ¬ s.fromUser) :
      CoreStep s (some addr) { s with gsBase := addr }
  | interrupt {s c : Processor} {rsp0 intNo errCode : Word}
      (hcalled : HandlerCalled s rsp0 0x08 intNo errCode c) : CoreStep s none c
  | isrReturn {env : Env} {u t : Processor} (hu : ¬ u.fromUser)
      (hframe : u.reg .rax = u.reg .rbx ∨ (u.mem.frame (u.reg .rax)).cs &&& 3 ≠ 0 ∨
        KernelFrame u.mem (u.reg .rax))
      (hleaves : Leaves env isrCommon isrReturn u t) : CoreStep u none t
  | syscall {s c : Processor} (hs : s.fromUser) (hcalled : SyscallCalled s c) : CoreStep s none c
  | sysret {callee : Processor → Processor} {d t : Processor} (hd : ¬ d.fromUser)
      (hleaves : Leaves (starEnv callee) syscallEntry syscallReturn d t) : CoreStep d none t

/-- The addresses that were given to `ARCH_SET_GS`, in their order. -/
inductive CoreRuns (s : Processor) : List Word → Processor → Prop
  | start : CoreRuns s [] s
  | step {addrs : List Word} {t u : Processor} {addr : Option Word} (hrun : CoreRuns s addrs t)
      (hstep : CoreStep t addr u) : CoreRuns s (addrs ++ addr.toList) u

namespace Processor

variable {t : Processor}

theorem kernelBase_of_user (h : s.fromUser) : s.kernelBase = s.kernelGsBase := if_pos h

theorem kernelBase_of_kernel (h : ¬ s.fromUser) : s.kernelBase = s.gsBase := if_neg h

theorem Shows.fromUser {regs : X86Registers} (h : t.Shows regs) :
    t.fromUser = decide (regs.cs &&& 3 ≠ 0) := by
  have hcs : t.cs = regs.cs := congrArg X86Registers.cs h
  rw [Processor.fromUser, hcs]

theorem HandlerCalled.kernelBase (h : HandlerCalled s rsp0 0x08 intNo errCode c) :
    c.kernelBase = s.kernelBase := by
  have hc : ¬ c.fromUser := by
    rw [Processor.fromUser, h.cs]
    decide
  rw [kernelBase_of_kernel hc, h.gsBase, Processor.kernelBase]
  cases s.fromUser <;> rfl

/-- Leaving to a user puts the base of the kernel aside. -/
theorem kernelBase_of_swapgs (hu : ¬ u.fromUser)
    (h : OnlyRegs (u.swapgsIf t.fromUser) t) : t.kernelBase = u.kernelBase := by
  rw [kernelBase_of_kernel hu, Processor.kernelBase]
  by_cases ht : t.fromUser = true
  · rw [if_pos ht, h.kernelGsBase, ht]
    rfl
  · rw [if_neg ht, h.gsBase]
    rw [Bool.not_eq_true] at ht
    rw [ht]
    rfl

end Processor

/-- A step moves the base of the kernel only if `ARCH_SET_GS` does. -/
theorem CoreStep.kernelBase {s t : Processor} {addr : Option Word} (h : CoreStep s addr t) :
    t.kernelBase = addr.getD s.kernelBase := by
  cases h with
  | user hs hs' hbase =>
      exact ((kernelBase_of_user hs').trans hbase).trans (kernelBase_of_user hs).symm
  | kernel hs hs' hbase =>
      exact ((kernelBase_of_kernel hs').trans hbase).trans (kernelBase_of_kernel hs).symm
  | archSetGs addr hs => exact kernelBase_of_kernel hs
  | interrupt hcalled => exact hcalled.kernelBase
  | isrReturn hu hframe hleaves =>
      rename_i env
      by_cases hback : s.reg .rax = s.reg .rbx ∨ (s.mem.frame (s.reg .rax)).cs &&& 3 ≠ 0
      · obtain ⟨t', hleaves', hshows, honly⟩ := isrReturn_leaves env hback
        obtain rfl := hleaves.unique hleaves'
        rw [← hshows.fromUser] at honly
        exact kernelBase_of_swapgs hu honly
      · obtain ⟨hother, hcs⟩ := not_or.mp hback
        have hkernel := (hframe.resolve_left hother).resolve_left hcs
        obtain ⟨t', hleaves', hshows, hgs, -, -⟩ :=
          isrReturn_kernel env hkernel hother (not_not.mp hcs)
        obtain rfl := hleaves.unique hleaves'
        have ht : ¬ t.fromUser := by
          rw [hshows.fromUser]
          exact fun h => hcs (of_decide_eq_true h)
        exact ((kernelBase_of_kernel ht).trans hgs).trans (kernelBase_of_kernel hu).symm
  | syscall hs hcalled =>
      have hc : ¬ t.fromUser := by
        rw [Processor.fromUser, hcalled.cs]
        decide
      exact ((kernelBase_of_kernel hc).trans hcalled.gsBase).trans (kernelBase_of_user hs).symm
  | sysret hd hleaves =>
      rename_i callee
      obtain ⟨t', hleaves', hshows, honly⟩ := syscallReturn_shows callee s
      obtain rfl := hleaves.unique hleaves'
      have hcs : (0x2B : Word) &&& 3 ≠ 0 := by decide
      have ht : t.fromUser = true := hshows.fromUser.trans (decide_eq_true hcs)
      exact ((kernelBase_of_user ht).trans honly.kernelGsBase).trans (kernelBase_of_kernel hd).symm

/-- In every run of a processor the base of the kernel is the one that `gdt_init` set, until a
process asks for `ARCH_SET_GS`: from then on it is the address that was asked for last, and the
next system call takes its stack pointer from there. -/
theorem coreRuns_kernelBase {s t : Processor} {addrs : List Word} (h : CoreRuns s addrs t) :
    t.kernelBase = addrs.getLastD s.kernelBase ∧
      (t.fromUser → ∀ c, SyscallCalled t c →
        c.sp = t.mem.read64 (addrs.getLastD s.kernelBase) - 184) := by
  have hbase : t.kernelBase = addrs.getLastD s.kernelBase := by
    induction h with
    | start => rfl
    | step hrun hstep ih =>
        rename_i addr
        rw [hstep.kernelBase, ih]
        cases addr with
        | none => rw [Option.toList_none, List.append_nil, Option.getD_none]
        | some addr => simp
  refine ⟨hbase, fun huser c hc => ?_⟩
  rw [hc.sp, kernelStack, ← kernelBase_of_user huser, hbase]

/-- A process that sets its `gs` to `0x5000`. -/
theorem coreRuns_kernelBase_archSetGs :
    ∃ t, CoreRuns syscallSample [0x5000] t ∧ t.kernelBase = 0x5000 := by
  obtain ⟨c, hc, -⟩ := syscallEntry_leaves id 0x30 syscallStack_sample
  have hkernel : ¬ c.fromUser := by
    rw [Processor.fromUser, hc.cs]
    decide
  have hkernel' : ¬ ({ c with gsBase := 0x5000 } : Processor).fromUser := hkernel
  obtain ⟨t, hleaves, -, -⟩ := syscallReturn_shows id ({ c with gsBase := 0x5000 } : Processor)
  have hrun : CoreRuns syscallSample [0x5000] t :=
    ((CoreRuns.start.step (.syscall (by decide) hc)).step (.archSetGs 0x5000 hkernel)).step
      (.sysret hkernel' hleaves)
  exact ⟨t, hrun, (coreRuns_kernelBase hrun).1⟩

end Utopia
