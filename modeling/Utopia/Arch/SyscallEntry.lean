/-
System calls of x86_64: `syscall_entry` of `syscall/entry.asm` with the registers that
`init_syscall` sets up.
-/
import Utopia.Arch.TrapEntry
import Utopia.Exec.Execve

namespace Utopia

open Processor

/-- `syscall_entry` up to the call of `syscall_handler`. -/
def syscallEnter : List (Instr Unit) :=
  [.swapgs, .storeGs 0x10 .rsp, .loadGs .rsp 0, .pushImm 0x23, .pushGs 0x10, .push .r11,
    .pushImm 0x1B, .push .rcx, .pushImm 0, .pushImm 0] ++
    (gprs.reverse.map .push ++ [.mov .rdi .rsp, .subImm .rsp 8])

/-- `syscall_entry` behind the call. -/
def syscallReturn : List (Instr Unit) :=
  .addImm .rsp 8 :: (gprs.map .pop ++
    [.addImm .rsp 16, .pop .rcx, .addImm .rsp 8, .pop .r11, .pop .rsp, .swapgs, .sysret])

/-- `syscall_entry`. -/
def syscallEntry : List (Instr Unit) := syscallEnter ++ .call :: syscallReturn

/-- What `init_syscall` writes to `IA32_STAR`. -/
def star : Word := (0x08 <<< 32) ||| (0x1B <<< 48)

/-- What `init_syscall` writes to `IA32_FMASK`. -/
def fmask : Word := (1 <<< 9) ||| (1 <<< 10)

/-- The selectors that `sysret` takes from `IA32_STAR`. -/
def starEnv (callee : Processor → Processor) : Env where
  callee := callee
  userCs := ((star >>> 48) + 16) ||| 3
  userSs := ((star >>> 48) + 8) ||| 3

namespace Processor

/-- The `syscall` instruction: `rip` is the address behind it. -/
def syscall (s : Processor) (lstar : Word) : Processor :=
  { (s.setReg .rcx s.rip).setReg .r11 s.rflags with
    rip := lstar
    rflags := s.rflags &&& ~~~fmask
    cs := (star >>> 32) &&& 0xFFFC
    ss := ((star >>> 32) + 8) &&& 0xFFFF }

/-- The two instructions load the selectors of `gdt_init`: code and data of the kernel on the way
in, 64-bit code and data of the user on the way out. -/
theorem syscall_selectors (s : Processor) (lstar : Word) (callee : Processor → Processor) :
    (s.syscall lstar).cs = 0x08 ∧ (s.syscall lstar).ss = 0x10 ∧
      (starEnv callee).userCs = 0x28 ||| 3 ∧ (starEnv callee).userSs = 0x20 ||| 3 := by
  refine ⟨?_, ?_, ?_, ?_⟩ <;> rfl

/-- The code of the user as the frame of a system call has it. -/
def inSyscall (s : Processor) : Processor :=
  { (s.setReg .rcx s.rip).setReg .r11 s.rflags with cs := 0x1B, ss := 0x23 }

/-- `kernel_stack` of `cpu_local_t`, to which `gs` leads. -/
def kernelStack (s : Processor) : Word := s.mem.read64 s.kernelGsBase

/-- The call of `syscall_handler` for a system call of `s`. -/
structure SyscallCalled (s c : Processor) : Prop where
  arg : c.reg .rdi = s.kernelStack - 176
  sp : c.sp = s.kernelStack - 184
  cs : c.cs = 0x08
  frame : c.mem.frame (s.kernelStack - 176) = s.inSyscall.registers 0 0
  gsBase : c.gsBase = s.kernelGsBase
  kernelGsBase : c.kernelGsBase = s.gsBase
  mem : Set.EqOn c.mem s.mem
    (span (s.kernelGsBase + 0x10) 8 ∪ between (s.kernelStack.toNat - 176) s.kernelStack.toNat)ᶜ

/-- `cpu_local_t` and the stack for system calls lie apart. -/
structure SyscallStack (s : Processor) : Prop where
  fits : s.kernelGsBase.toNat + 24 ≤ 2 ^ 64
  room : 184 ≤ s.kernelStack.toNat
  apart : s.kernelGsBase.toNat + 24 ≤ s.kernelStack.toNat - 176 ∨
    s.kernelStack.toNat ≤ s.kernelGsBase.toNat

/-- On the kernel's stack, with the stack pointer of the user stored. -/
def onKernelStack (s : Processor) : Processor :=
  ([.swapgs, .storeGs 0x10 .rsp, .loadGs .rsp 0] : List (Instr Unit)).foldl
    (fun s i => exec i s) s

theorem onKernelStack_mem (s : Processor) (lstar : Word) :
    (s.syscall lstar).onKernelStack.mem = s.mem.write64 (s.kernelGsBase + 0x10) s.sp := rfl

theorem onKernelStack_reg (s : Processor) (lstar : Word) {r : Reg} (hr : r ≠ .rsp) :
    (s.syscall lstar).onKernelStack.reg r = s.inSyscall.reg r := setReg_of_ne hr

theorem onKernelStack_sp {s : Processor} (lstar : Word) (h : SyscallStack s) :
    (s.syscall lstar).onKernelStack.sp = s.kernelStack := by
  have hfits := h.fits
  have hslot : (s.kernelGsBase + 0x10).toNat = s.kernelGsBase.toNat + 16 := by bv_omega
  have hzero : s.kernelGsBase + 0 = s.kernelGsBase := BitVec.add_zero _
  have hload : (s.syscall lstar).onKernelStack.sp =
      (s.mem.write64 (s.kernelGsBase + 0x10) s.sp).read64 (s.kernelGsBase + 0) := setReg_self
  rw [hload, hzero, Memory.read64_write64_of_disjoint _ _ (by omega) (by omega) (by omega),
    kernelStack]

/-- The pushes of `syscall_entry`. -/
def syscallPushes : List (Instr Unit) :=
  [.pushImm 0x23, .pushGs 0x10, .push .r11, .pushImm 0x1B, .push .rcx, .pushImm 0, .pushImm 0] ++
    gprs.reverse.map .push

/-- What `syscall_entry` pushes is a frame. -/
theorem foldl_syscallPushes {b u : Processor} (hreg : ∀ r, r ≠ .rsp → b.reg r = u.reg r)
    (hsp : (b.pushWord 0x23).mem.read64 (b.gsBase + 0x10) = u.sp) (hss : u.ss = 0x23)
    (hcs : u.cs = 0x1B) (hrip : u.rip = u.reg .rcx) (hrflags : u.rflags = u.reg .r11) :
    syscallPushes.foldl (fun s i => exec i s) b = b.pushWords (u.frameWords 0 0) := by
  have hfirst : ([.pushImm 0x23, .pushGs 0x10, .push .r11, .pushImm 0x1B, .push .rcx, .pushImm 0,
      .pushImm 0] : List (Instr Unit)).foldl (fun s i => exec i s) b =
      b.pushWords [0x23, (b.pushWord 0x23).mem.read64 (b.gsBase + 0x10), b.reg .r11, 0x1B,
        b.reg .rcx, 0, 0] := rfl
  have hrsp : .rsp ∉ gprs.reverse := by decide
  rw [syscallPushes, List.foldl_append, hfirst, hsp, hreg _ (by decide), hreg _ (by decide),
    frameWords, hss, hcs, hrip, hrflags, pushWords_append, foldl_push hrsp]
  congr 1
  refine List.map_congr_left fun r hr => ?_
  have hne : r ≠ .rsp := fun heq => rsp_notMem_gprs (heq ▸ List.mem_reverse.mp hr)
  rw [(pushWords_sameBeside b _).reg r hne, hreg r hne]

theorem syscallEnter_called {s : Processor} (lstar : Word) (h : SyscallStack s) :
    SyscallCalled s (syscallEnter.foldl (fun s i => exec i s) (s.syscall lstar)) := by
  have htop := onKernelStack_sp lstar h
  obtain ⟨hfits, hroom, hapart⟩ := h
  have hmem := onKernelStack_mem s lstar
  have hreg {r : Reg} (hr : r ≠ .rsp) := onKernelStack_reg s lstar hr
  have hgs : (s.syscall lstar).onKernelStack.gsBase = s.kernelGsBase := rfl
  have hkernel : (s.syscall lstar).onKernelStack.kernelGsBase = s.gsBase := rfl
  have hcs : (s.syscall lstar).onKernelStack.cs = 0x08 := rfl
  have hcode : syscallEnter.foldl (fun s i => exec i s) (s.syscall lstar) =
      ([.mov .rdi .rsp, .subImm .rsp 8] : List (Instr Unit)).foldl (fun s i => exec i s)
        (syscallPushes.foldl (fun s i => exec i s) (s.syscall lstar).onKernelStack) := rfl
  rw [hcode]
  generalize (s.syscall lstar).onKernelStack = b at *
  have hslot : (s.kernelGsBase + 0x10).toNat = s.kernelGsBase.toNat + 16 := by bv_omega
  have huser : (b.pushWord 0x23).mem.read64 (b.gsBase + 0x10) = s.sp := by
    have hpushed : (b.pushWord 0x23).mem = b.mem.write64 (b.sp - 8) 0x23 := rfl
    have hbelow : (s.kernelStack - 8).toNat = s.kernelStack.toNat - 8 := by bv_omega
    rw [hpushed, htop, hgs, Memory.read64_write64_of_disjoint _ _ (by omega) (by omega) (by omega),
      hmem, Memory.read64_write64]
  have hpushes := foldl_syscallPushes (fun r hr => hreg hr) huser rfl rfl rfl rfl
  have hroom' : 8 * (s.inSyscall.frameWords 0 0).length ≤ b.sp.toNat := by
    rw [length_frameWords, htop]
    omega
  have hframe := frame_pushWords s.inSyscall (u := b) 0 0 (by rw [htop]; omega)
  have hkept := pushWords_eqOn hroom'
  have hsp := pushWords_sp hroom'
  have hbeside := pushWords_sameBeside b (s.inSyscall.frameWords 0 0)
  rw [hpushes]
  generalize b.pushWords (s.inSyscall.frameWords 0 0) = p at *
  rw [htop, length_frameWords] at hkept hsp
  rw [htop] at hframe
  have hsp' : p.sp = s.kernelStack - 176 := by
    apply BitVec.eq_of_toNat_eq
    rw [hsp]
    bv_omega
  have hdown : p.sp - 8 = s.kernelStack - 184 := by
    rw [hsp']
    grind
  have hstore : Set.EqOn b.mem s.mem (span (s.kernelGsBase + 0x10) 8)ᶜ := by
    rw [hmem]
    exact Memory.write64_eqOn s.mem s.sp (by omega)
  exact ⟨hsp', hdown, hbeside.cs.trans hcs, hframe, hbeside.gsBase.trans hgs,
    hbeside.kernelGsBase.trans hkernel,
    (hkept.mono (Set.compl_subset_compl.mpr Set.subset_union_right)).trans
      (hstore.mono (Set.compl_subset_compl.mpr Set.subset_union_left))⟩

/-! ### The way back -/

/-- The registers with which `sysret` goes on behind a frame. -/
def sysretRegisters (regs : X86Registers) : X86Registers :=
  { regs with
    general := Function.update (Function.update regs.general 1 regs.rip) 9 regs.rflags
    cs := 0x2B
    ss := 0x23
    rflags := (regs.rflags &&& 0x3C7FD7) ||| 2 }

/-- `rcx`, `r11` and `rsp` from the frame, behind the other registers. -/
def popUser (s : Processor) : Processor :=
  ([.addImm .rsp 16, .pop .rcx, .addImm .rsp 8, .pop .r11, .pop .rsp, .swapgs] :
    List (Instr Unit)).foldl (fun s i => exec i s) s

theorem popUser_regs (s : Processor) :
    s.popUser.reg .rcx = s.mem.read64 (s.sp + 16) ∧
      s.popUser.reg .r11 = s.mem.read64 (s.sp + 16 + 8 + 8) ∧
      s.popUser.sp = s.mem.read64 (s.sp + 16 + 8 + 8 + 8) ∧
      ∀ r, r ≠ .rcx → r ≠ .r11 → r ≠ .rsp → s.popUser.reg r = s.reg r := by
  refine ⟨rfl, rfl, rfl, fun r hrcx hr11 hrsp => ?_⟩
  cases r <;> first | rfl | contradiction

theorem popUser_same (s : Processor) : s.popUser.mem = s.mem ∧
    s.popUser.gsBase = s.kernelGsBase ∧ s.popUser.kernelGsBase = s.gsBase := ⟨rfl, rfl, rfl⟩

theorem leaves_syscallReturn (env : Env) (s : Processor) :
    Leaves env syscallEntry syscallReturn s
      (((exec (.addImm .rsp 8 : Instr Unit) s).popRegs gprs).popUser.sysret
        env.userCs env.userSs) := by
  have hcode : syscallReturn = .addImm .rsp 8 :: (gprs.map .pop ++
      ([.addImm .rsp 16, .pop .rcx, .addImm .rsp 8, .pop .r11, .pop .rsp, .swapgs] ++
        [.sysret])) := rfl
  have hstraight : ∀ i ∈ ([.addImm .rsp 16, .pop .rcx, .addImm .rsp 8, .pop .r11, .pop .rsp,
      .swapgs] : List (Instr Unit)), isStraight i = true := by decide
  rw [hcode]
  apply leaves_exec rfl
  apply leaves_append (isStraight_pop gprs)
  apply leaves_append hstraight
  rw [foldl_pop]
  exact leaves_sysret

theorem generalReg_ne : ∀ i : Fin 14, (i ≠ 1 → gprs.getD (i + 1) .rax ≠ .rcx) ∧
    (i ≠ 9 → gprs.getD (i + 1) .rax ≠ .r11) ∧ gprs.getD (i + 1) .rax ≠ .rsp := by decide

/-- `syscall_entry` goes on with the registers of its frame, whatever the handler made of it. -/
theorem syscallReturn_shows (callee : Processor → Processor) (s : Processor) :
    ∃ t, Leaves (starEnv callee) syscallEntry syscallReturn s t ∧
      t.Shows (sysretRegisters (s.mem.frame (s.sp + 8))) ∧ OnlyRegs s.swapgs t := by
  have hup : (exec (.addImm .rsp 8 : Instr Unit) s).sp = s.sp + 8 := rfl
  have honly : OnlyRegs s (exec (.addImm .rsp 8 : Instr Unit) s) := addImm_onlyRegs s _ _
  have hleaves := leaves_syscallReturn (starEnv callee) s
  generalize exec (.addImm .rsp 8 : Instr Unit) s = u at hup honly hleaves
  have hreg {i : ℕ} (hi : i < gprs.length) :=
    popRegs_reg (s := u) rsp_notMem_gprs gprs_nodup hi
  have hsp : (u.popRegs gprs).sp = u.sp + 120 := popRegs_sp rsp_notMem_gprs
  have honly' := honly.trans (popRegs_onlyRegs u gprs)
  rw [honly.mem, hup] at hreg
  rw [hup] at hsp
  generalize u.popRegs gprs = v at hleaves hreg hsp honly'
  obtain ⟨hrcx, hr11, hrsp, hrest⟩ := popUser_regs v
  obtain ⟨hmem, hgs, hkernel⟩ := popUser_same v
  generalize v.popUser = w at hleaves hrcx hr11 hrsp hrest hmem hgs hkernel
  have hword₁ : v.sp + 16 = s.sp + 8 + 136 := by rw [hsp]; grind
  have hword₂ : v.sp + 16 + 8 + 8 = s.sp + 8 + 152 := by rw [hsp]; grind
  have hword₃ : v.sp + 16 + 8 + 8 + 8 = s.sp + 8 + 160 := by rw [hsp]; grind
  rw [honly'.mem, hword₁] at hrcx
  rw [honly'.mem, hword₂] at hr11
  rw [honly'.mem, hword₃] at hrsp
  refine ⟨_, hleaves, ?_, hmem.trans honly'.mem, hgs.trans honly'.kernelGsBase,
    hkernel.trans honly'.gsBase⟩
  rw [Shows, registers, sysretRegisters, Memory.frame, X86Registers.mk.injEq]
  have hzero : s.sp + 8 + BitVec.ofNat 64 (8 * 0) = s.sp + 8 := by simp
  have hrax := hreg (i := 0) (by decide)
  rw [hzero] at hrax
  refine ⟨?_, funext fun i => ?_, rfl, rfl, hrcx, rfl, ?_, hrsp, rfl⟩
  · exact (hrest .rax (by decide) (by decide) (by decide)).trans hrax
  · by_cases hone : i = 1
    · rw [hone]
      exact hrcx
    · by_cases hnine : i = 9
      · rw [hnine]
        exact hr11
      · obtain ⟨hne₁, hne₂, hne₃⟩ := generalReg_ne i
        have hi : i.val + 1 < gprs.length := Nat.succ_lt_succ i.isLt
        rw [Function.update_of_ne hnine, Function.update_of_ne hone]
        refine (hrest _ (hne₁ hone) (hne₂ hnine) hne₃).trans ?_
        rw [List.getD_eq_getElem _ _ hi]
        exact hreg hi
  · change (w.reg .r11 &&& 0x3C7FD7) ||| 2 = _
    rw [hr11]

/-- From the `syscall` instruction to the call, and from there back to the user. -/
theorem syscallEntry_leaves (callee : Processor → Processor) {s : Processor} (lstar : Word)
    (h : SyscallStack s) : ∃ c, SyscallCalled s c ∧ ((callee c).sp = c.sp →
      ∃ t, Leaves (starEnv callee) syscallEntry syscallEntry (s.syscall lstar) t ∧
        t.Shows (sysretRegisters ((callee c).mem.frame (c.reg .rdi))) ∧
        OnlyRegs (callee c).swapgs t) := by
  have hcalled := syscallEnter_called lstar h
  have hstraight : ∀ i ∈ syscallEnter, isStraight i = true := by decide
  have henter {t : Processor} (h : Leaves (starEnv callee) syscallEntry (.call :: syscallReturn)
      (syscallEnter.foldl (fun s i => exec i s) (s.syscall lstar)) t) :
      Leaves (starEnv callee) syscallEntry syscallEntry (s.syscall lstar) t :=
    leaves_append hstraight h
  generalize syscallEnter.foldl (fun s i => exec i s) (s.syscall lstar) = c at hcalled henter
  refine ⟨c, hcalled, fun hsp => ?_⟩
  obtain ⟨t, hleaves, hshows, honly⟩ := syscallReturn_shows callee (callee c)
  have hframe : (callee c).sp + 8 = c.reg .rdi := by
    rw [hsp, hcalled.sp, hcalled.arg]
    grind
  rw [hframe] at hshows
  exact ⟨t, henter (leaves_call hleaves), hshows, honly⟩

/-- `syscall_set_return_val`, and `syscall_own_set_return_val` too. -/
def syscallSetReturnVal (m : Memory) (val regs : Word) : Memory := m.write64 regs val

theorem frame_syscallSetReturnVal {m : Memory} {val a : Word} (ha : a.toNat + 176 ≤ 2 ^ 64) :
    (syscallSetReturnVal m val a).frame a = { m.frame a with rax := val } := by
  have hword {off : Word} (hoff : 8 ≤ off.toNat) (hoff' : off.toNat + 8 ≤ 176) :
      (m.write64 a val).read64 (a + off) = m.read64 (a + off) := by
    have hadd : (a + off).toNat = a.toNat + off.toNat := by
      rw [BitVec.toNat_add]
      omega
    exact Memory.read64_write64_of_disjoint _ _ (by omega) (by omega) (by omega)
  rw [syscallSetReturnVal, Memory.frame, Memory.frame, X86Registers.mk.injEq]
  refine ⟨Memory.read64_write64 .., funext fun i => ?_, ?_, ?_, ?_, ?_, ?_, ?_, ?_⟩
  · have hoff : (BitVec.ofNat 64 (8 * (i.val + 1))).toNat = 8 * (i.val + 1) := by
      rw [BitVec.toNat_ofNat]
      omega
    apply hword <;> omega
  all_goals exact hword (by decide) (by decide)

/-- `syscall_handler` stores its result in `rax` of the frame and leaves the rest of it. -/
structure ReturnsValue (ret : Word) (c d : Processor) : Prop where
  sp : d.sp = c.sp
  frame : d.mem.frame (c.reg .rdi) = { c.mem.frame (c.reg .rdi) with rax := ret }
  gsBase : d.gsBase = c.gsBase
  kernelGsBase : d.kernelGsBase = c.kernelGsBase

/-- The code of the user behind a system call with this result. -/
structure Returned (s : Processor) (ret : Word) (t : Processor) : Prop where
  rax : t.reg .rax = ret
  rcx : t.reg .rcx = s.rip
  r11 : t.reg .r11 = s.rflags
  reg : ∀ r, r ≠ .rax → r ≠ .rcx → r ≠ .r11 → t.reg r = s.reg r
  rip : t.rip = s.rip
  rflags : t.rflags = (s.rflags &&& 0x3C7FD7) ||| 2
  cs : t.cs = 0x28 ||| 3
  ss : t.ss = 0x20 ||| 3

/-- A register that the frame of a system call takes from the user. -/
theorem inSyscall_general (s : Processor) (i : Fin 14) :
    (s.inSyscall.registers 0 0).general i = s.inSyscall.reg (gprs.getD (i + 1) .rax) := rfl

theorem Shows.returned {s t : Processor} {ret : Word}
    (h : t.Shows (sysretRegisters { s.inSyscall.registers 0 0 with rax := ret })) :
    Returned s ret t := by
  rw [Shows] at h
  obtain ⟨hrax, hgeneral, -, -, hrip, hcs, hrflags, hrsp, hss⟩ := X86Registers.mk.inj h
  refine ⟨hrax, congrFun hgeneral 1, congrFun hgeneral 9, fun r hr₁ hr₂ hr₃ => ?_, hrip, hrflags,
    hcs, hss⟩
  by_cases hr : r = .rsp
  · rw [hr]
    exact hrsp
  · obtain ⟨i, hi, rfl⟩ := mem_gprs hr
    cases i with
    | zero => exact absurd rfl hr₁
    | succ i =>
        have hi' : i < 14 := Nat.lt_of_succ_lt_succ hi
        have hone : (⟨i, hi'⟩ : Fin 14) ≠ 1 := by
          rintro heq
          have hval : i = 1 := congrArg Fin.val heq
          subst hval
          exact hr₂ rfl
        have hnine : (⟨i, hi'⟩ : Fin 14) ≠ 9 := by
          rintro heq
          have hval : i = 9 := congrArg Fin.val heq
          subst hval
          exact hr₃ rfl
        have hreg := congrFun hgeneral ⟨i, hi'⟩
        have hgetD : gprs.getD (i + 1) .rax = gprs[i + 1] := List.getD_eq_getElem _ _ hi
        change t.reg (gprs.getD (i + 1) .rax) = Function.update (Function.update
          (s.inSyscall.registers 0 0).general 1 s.rip) 9 s.rflags ⟨i, hi'⟩ at hreg
        rw [Function.update_of_ne hnine, Function.update_of_ne hone, inSyscall_general,
          hgetD] at hreg
        have hkept : s.inSyscall.reg gprs[i + 1] = s.reg gprs[i + 1] := by
          change ((s.setReg .rcx s.rip).setReg .r11 s.rflags).reg gprs[i + 1] = _
          rw [setReg_of_ne hr₃, setReg_of_ne hr₂]
        exact hreg.trans hkept

end Processor

/-- A system call changes `rax`, `rcx` and `r11` of the user, and nothing else it can see. -/
theorem syscallEntry_returns {callee : Processor → Processor} {s : Processor} {lstar ret : Word}
    (hstack : SyscallStack s)
    (hhandler : ∀ c, SyscallCalled s c → ReturnsValue ret c (callee c)) :
    ∃ t, Leaves (starEnv callee) syscallEntry syscallEntry (s.syscall lstar) t ∧
      Returned s ret t ∧ t.gsBase = s.gsBase ∧ t.kernelGsBase = s.kernelGsBase := by
  obtain ⟨c, hcalled, hgo⟩ := syscallEntry_leaves callee lstar hstack
  obtain ⟨hsp, hframe, hgs, hkernel⟩ := hhandler c hcalled
  obtain ⟨t, hleaves, hshows, honly⟩ := hgo hsp
  rw [hframe, hcalled.arg, hcalled.frame] at hshows
  exact ⟨t, hleaves, hshows.returned, honly.gsBase.trans (hkernel.trans hcalled.kernelGsBase),
    honly.kernelGsBase.trans (hgs.trans hcalled.gsBase)⟩

/-- The same user code with a stack in `cpu_local_t`. -/
def syscallSample : Processor :=
  { userSample with
    mem := userSample.mem.write64 userSample.kernelGsBase 0xFFFF800000204000 }

/-- A handler that does no more than to set its result. -/
def returnsFive (c : Processor) : Processor :=
  { c with mem := syscallSetReturnVal c.mem 5 (c.reg .rdi) }

theorem kernelStack_syscallSample : syscallSample.kernelStack = 0xFFFF800000204000 :=
  Memory.read64_write64 ..

theorem syscallStack_sample : SyscallStack syscallSample := by
  refine ⟨by decide, ?_, ?_⟩ <;> rw [kernelStack_syscallSample] <;> decide

theorem syscallEntry_returns_five : ∃ t,
    Leaves (starEnv returnsFive) syscallEntry syscallEntry (syscallSample.syscall 0x30) t ∧
      Returned syscallSample 5 t ∧ t.gsBase = syscallSample.gsBase ∧
      t.kernelGsBase = syscallSample.kernelGsBase :=
  syscallEntry_returns syscallStack_sample fun c hc =>
    ⟨rfl, frame_syscallSetReturnVal (by rw [hc.arg, kernelStack_syscallSample]; decide), rfl, rfl⟩

/-! ### The two returns of a fork -/

/-- The frame of the child that `process_clone` leaves in `t->regs`. -/
def childFrame (childStack : Word) (frame : X86Registers) : Registers :=
  let regs := (Registers.x86_64 frame).forChild
  if childStack ≠ 0 then regs.setSp childStack else regs

/-- Parent and child behind one system call. -/
structure ForkReturns (childStack : Word) (t u : Processor) : Prop where
  rax : u.reg .rax = 0
  reg : ∀ r, r ≠ .rax → r ≠ .rsp → u.reg r = t.reg r
  sp : u.sp = if childStack ≠ 0 then childStack else t.sp
  rip : u.rip = t.rip
  cs : u.cs = t.cs
  ss : u.ss = t.ss

/-- The child as its frame has it. -/
def childCode (s : Processor) (childStack : Word) : Processor :=
  { (s.inSyscall.setReg .rax 0).setReg .rsp (if childStack ≠ 0 then childStack else s.sp) with
    rflags := s.rflags ||| 0x202
    cs := 0x28 ||| 3
    ss := 0x20 ||| 3 }

theorem childCode_sp (s : Processor) (childStack : Word) :
    (childCode s childStack).sp = if childStack ≠ 0 then childStack else s.sp := rfl

theorem childFrame_eq (s : Processor) (childStack : Word) :
    childFrame childStack (s.inSyscall.registers 0 0) =
      .x86_64 ((childCode s childStack).registers 0 0) := by
  have hne : ∀ i : Fin 14, gprs.getD (i + 1) .rax ≠ .rax := by decide
  have hgeneral : ((childCode s childStack).registers 0 0).general =
      (s.inSyscall.registers 0 0).general := by
    funext i
    exact (setReg_of_ne (generalReg_ne i).2.2).trans (setReg_of_ne (hne i))
  have hfields : (childCode s childStack).registers 0 0 =
      { s.inSyscall.registers 0 0 with
        rax := 0
        cs := 0x28 ||| 3
        ss := 0x20 ||| 3
        rflags := s.rflags ||| 0x202
        rsp := if childStack ≠ 0 then childStack else s.sp } := by
    rw [X86Registers.mk.injEq]
    exact ⟨rfl, hgeneral, rfl, rfl, rfl, rfl, rfl, childCode_sp s childStack, rfl⟩
  rw [hfields, childFrame]
  by_cases hstack : childStack = 0
  · rw [if_neg (not_not.mpr hstack), if_neg (not_not.mpr hstack)]
    rfl
  · rw [if_pos hstack, if_pos hstack]
    rfl

/-- The parent leaves the system call by `sysret`, the child at some time on some processor by
`iretq`: both go on behind the `syscall` instruction, with the same registers but for `rax`. -/
theorem fork_returns_twice {callee : Processor → Processor} {env : Env} {s v : Processor}
    {lstar ret childStack : Word} (hstack : SyscallStack s)
    (hhandler : ∀ c, SyscallCalled s c → ReturnsValue ret c (callee c))
    (hchild : childFrame childStack (s.inSyscall.registers 0 0) =
      .x86_64 (v.mem.frame (v.reg .rax))) :
    ∃ t u, Leaves (starEnv callee) syscallEntry syscallEntry (s.syscall lstar) t ∧
      Leaves env isrCommon isrReturn v u ∧ t.reg .rax = ret ∧ t.rip = s.rip ∧
      ForkReturns childStack t u ∧ t.rflags = (s.rflags &&& 0x3C7FD7) ||| 2 ∧
      u.rflags = s.rflags ||| 0x202 ∧ OnlyRegs v.swapgs u := by
  obtain ⟨c, hcalled, hgo⟩ := syscallEntry_leaves callee lstar hstack
  obtain ⟨hsp, hframe, -, -⟩ := hhandler c hcalled
  obtain ⟨t, hparent, hshows, -⟩ := hgo hsp
  rw [hframe, hcalled.arg, hcalled.frame] at hshows
  obtain ⟨hrax, hrcx, hr11, hreg, hrip, hrflags, hcs, hss⟩ := hshows.returned
  rw [childFrame_eq, Registers.x86_64.injEq] at hchild
  have huser : (v.mem.frame (v.reg .rax)).cs &&& 3 ≠ 0 := by
    rw [← hchild]
    change (0x28 ||| 3 : Word) &&& 3 ≠ 0
    decide
  obtain ⟨u, hleaves, hshown, honly⟩ := isrReturn_leaves env (Or.inr huser)
  rw [decide_eq_true huser] at honly
  rw [← hchild] at hshown
  obtain ⟨hreg', hrip', hcs', hrflags', hss'⟩ := hshown.resumes
  refine ⟨t, u, hparent, hleaves, hrax, hrip, ⟨hreg' .rax, fun r hr hr' => ?_, ?_,
    hrip'.trans hrip.symm, hcs'.trans hcs.symm, hss'.trans hss.symm⟩, hrflags, hrflags', honly⟩
  · have hchild' : (childCode s childStack).reg r = s.inSyscall.reg r :=
      (setReg_of_ne hr').trans (setReg_of_ne hr)
    rw [hreg', hchild']
    by_cases hr₁ : r = .rcx
    · rw [hr₁, hrcx]
      rfl
    · by_cases hr₂ : r = .r11
      · rw [hr₂, hr11]
        rfl
      · rw [hreg r hr hr₁ hr₂]
        exact (setReg_of_ne hr₂).trans (setReg_of_ne hr₁)
  · have hparent' : t.sp = s.sp := hreg .rsp (by decide) (by decide) (by decide)
    rw [hparent']
    exact (hreg' .rsp).trans (childCode_sp s childStack)

/-- A processor in the kernel, behind `isr_handler`, with the frame of the child. -/
def childSample : Processor :=
  { userSample with
    reg := Function.update userSample.reg .rax (userSample.sp - 176)
    mem := (userSample.pushWords ((childCode syscallSample 0).frameWords 0 0)).mem }

theorem fork_returns_twice_sample : ∃ t u,
    Leaves (starEnv returnsFive) syscallEntry syscallEntry (syscallSample.syscall 0x30) t ∧
      Leaves (starEnv id) isrCommon isrReturn childSample u ∧ t.reg .rax = 5 ∧
      t.rip = syscallSample.rip ∧ ForkReturns 0 t u ∧
      t.rflags = (syscallSample.rflags &&& 0x3C7FD7) ||| 2 ∧
      u.rflags = syscallSample.rflags ||| 0x202 ∧ OnlyRegs childSample.swapgs u :=
  fork_returns_twice syscallStack_sample
    (fun c hc =>
      ⟨rfl, frame_syscallSetReturnVal (by rw [hc.arg, kernelStack_syscallSample]; decide), rfl,
        rfl⟩)
    (by
      have hframe := frame_pushWords (childCode syscallSample 0) (u := userSample) 0 0 (by decide)
      rw [childFrame_eq, Registers.x86_64.injEq]
      exact hframe.symm)

end Utopia
