/-
A 64-bit x86 processor, as far as the entry code of a kernel uses it: words are pushed and
popped, the bases of `gs` are swapped, a callee runs, and `iretq` or `sysret` leaves.
-/
import Mathlib.Data.List.Nodup
import Utopia.Lib.Memory

namespace Utopia

namespace Processor

inductive Reg where
  | rax | rbx | rcx | rdx | rsi | rdi | rbp | rsp | r8 | r9 | r10 | r11 | r12 | r13 | r14 | r15
deriving DecidableEq, Repr

end Processor

open Processor (Reg)

/-- The registers, the two bases of `gs` and the memory. -/
structure Processor where
  reg : Reg → Word
  rip : Word
  cs : Word
  ss : Word
  rflags : Word
  gsBase : Word
  kernelGsBase : Word
  mem : Memory

namespace Processor

variable (s : Processor)

/-- What stands in front of the entry code does not matter to it: `L` are its labels. -/
inductive Instr (L : Type) where
  | push (r : Reg)
  | pushImm (v : Word)
  | pushGs (off : Word)
  | pop (r : Reg)
  | mov (dst src : Reg)
  | load (dst base : Reg) (off : Word)
  | store (base : Reg) (off : Word) (src : Reg)
  | loadGs (dst : Reg) (off : Word)
  | storeGs (off : Word) (src : Reg)
  | addImm (r : Reg) (v : Word)
  | subImm (r : Reg) (v : Word)
  | testMem (base : Reg) (off v : Word)
  | cmp (a b : Reg)
  | swapgs
  | call
  | label (l : L)
  | jz (l : L)
  | jnz (l : L)
  | iretq
  | sysret
deriving DecidableEq, Repr

def setReg (r : Reg) (v : Word) : Processor := { s with reg := Function.update s.reg r v }

def sp : Word := s.reg .rsp

def pushWord (v : Word) : Processor :=
  { s.setReg .rsp (s.sp - 8) with mem := s.mem.write64 (s.sp - 8) v }

def popReg (r : Reg) : Processor := (s.setReg .rsp (s.sp + 8)).setReg r (s.mem.read64 s.sp)

def zeroFlag : Bool := s.rflags.getLsbD 6

/-- The comparison result.  Nothing reads the other flags before they are loaded again. -/
def setZero (b : Bool) : Processor :=
  { s with rflags := (s.rflags &&& ~~~0x40) ||| (if b then 0x40 else 0) }

def swapgs : Processor := { s with gsBase := s.kernelGsBase, kernelGsBase := s.gsBase }

/-- Pop `rip`, `cs`, `rflags`, `rsp` and `ss`. -/
def iretq : Processor :=
  { s.setReg .rsp (s.mem.read64 (s.sp + 24)) with
    rip := s.mem.read64 s.sp
    cs := s.mem.read64 (s.sp + 8)
    rflags := s.mem.read64 (s.sp + 16)
    ss := s.mem.read64 (s.sp + 32) }

/-- Back from a system call, with the selectors that the processor was set up for. -/
def sysret (cs ss : Word) : Processor :=
  { s with
    rip := s.reg .rcx
    rflags := (s.reg .r11 &&& 0x3C7FD7) ||| 2
    cs := cs
    ss := ss }

variable {L : Type}

/-- An instruction that neither jumps nor leaves. -/
def exec : Instr L → Processor → Processor
  | .push r, s => s.pushWord (s.reg r)
  | .pushImm v, s => s.pushWord v
  | .pushGs off, s => s.pushWord (s.mem.read64 (s.gsBase + off))
  | .pop r, s => s.popReg r
  | .mov dst src, s => s.setReg dst (s.reg src)
  | .load dst base off, s => s.setReg dst (s.mem.read64 (s.reg base + off))
  | .store base off src, s => { s with mem := s.mem.write64 (s.reg base + off) (s.reg src) }
  | .loadGs dst off, s => s.setReg dst (s.mem.read64 (s.gsBase + off))
  | .storeGs off src, s => { s with mem := s.mem.write64 (s.gsBase + off) (s.reg src) }
  | .addImm r v, s => (s.setReg r (s.reg r + v)).setZero (s.reg r + v = 0)
  | .subImm r v, s => (s.setReg r (s.reg r - v)).setZero (s.reg r - v = 0)
  | .testMem base off v, s => s.setZero (s.mem.read64 (s.reg base + off) &&& v = 0)
  | .cmp a b, s => s.setZero (s.reg a = s.reg b)
  | .swapgs, s => s.swapgs
  | _, s => s

def isStraight : Instr L → Bool
  | .call | .jz _ | .jnz _ | .iretq | .sysret => false
  | _ => true

/-- What follows a label. -/
def after [DecidableEq L] (code : List (Instr L)) (l : L) : List (Instr L) :=
  (code.dropWhile (· ≠ .label l)).tail

/-- What the code calls, and the selectors for `sysret`. -/
structure Env where
  callee : Processor → Processor
  userCs : Word
  userSs : Word

/-- The processor when the code leaves, within so many instructions. -/
def run [DecidableEq L] (env : Env) (code : List (Instr L)) :
    ℕ → List (Instr L) → Processor → Option Processor
  | 0, _, _ => none
  | _ + 1, [], _ => none
  | fuel + 1, i :: rest, s =>
      match i with
      | .call => run env code fuel rest (env.callee s)
      | .jz l => run env code fuel (if s.zeroFlag then after code l else rest) s
      | .jnz l => run env code fuel (if s.zeroFlag then rest else after code l) s
      | .iretq => some s.iretq
      | .sysret => some (s.sysret env.userCs env.userSs)
      | i => run env code fuel rest (exec i s)

/-- The code leaves with this state. -/
def Leaves [DecidableEq L] (env : Env) (code is : List (Instr L)) (s t : Processor) : Prop :=
  ∃ fuel, run env code fuel is s = some t

/-! ### Registers and flags -/

variable {s} {r r' : Reg} {v : Word}

@[simp] theorem setReg_self : (s.setReg r v).reg r = v := Function.update_self ..

theorem setReg_of_ne (h : r' ≠ r) : (s.setReg r v).reg r' = s.reg r' :=
  Function.update_of_ne h ..

@[simp] theorem setReg_mem : (s.setReg r v).mem = s.mem := rfl

@[simp] theorem setReg_gsBase : (s.setReg r v).gsBase = s.gsBase := rfl

@[simp] theorem setReg_kernelGsBase : (s.setReg r v).kernelGsBase = s.kernelGsBase := rfl

@[simp] theorem setZero_reg (b : Bool) : (s.setZero b).reg = s.reg := rfl

@[simp] theorem setZero_mem (b : Bool) : (s.setZero b).mem = s.mem := rfl

@[simp] theorem setZero_gsBase (b : Bool) : (s.setZero b).gsBase = s.gsBase := rfl

@[simp] theorem setZero_kernelGsBase (b : Bool) : (s.setZero b).kernelGsBase = s.kernelGsBase := rfl

@[simp] theorem setReg_zeroFlag : (s.setReg r v).zeroFlag = s.zeroFlag := rfl

@[simp] theorem zeroFlag_setZero (b : Bool) : (s.setZero b).zeroFlag = b := by
  rw [zeroFlag, setZero]
  cases b <;> simp

@[simp] theorem swapgs_reg : s.swapgs.reg = s.reg := rfl

@[simp] theorem swapgs_mem : s.swapgs.mem = s.mem := rfl

theorem swapgs_swapgs : s.swapgs.swapgs = s := rfl

/-- What loads registers only keeps. -/
structure OnlyRegs (s t : Processor) : Prop where
  mem : t.mem = s.mem
  gsBase : t.gsBase = s.gsBase
  kernelGsBase : t.kernelGsBase = s.kernelGsBase

theorem OnlyRegs.trans {s t u : Processor} (h : OnlyRegs s t) (h' : OnlyRegs t u) :
    OnlyRegs s u :=
  ⟨h'.mem.trans h.mem, h'.gsBase.trans h.gsBase, h'.kernelGsBase.trans h.kernelGsBase⟩

theorem iretq_onlyRegs (s : Processor) : OnlyRegs s s.iretq := ⟨rfl, rfl, rfl⟩

theorem addImm_onlyRegs (s : Processor) (r : Reg) (v : Word) :
    OnlyRegs s (exec (.addImm r v : Instr L) s) := ⟨rfl, rfl, rfl⟩

/-! ### One instruction after the other -/

section

variable [DecidableEq L] {env : Env} {code is rest : List (Instr L)} {t : Processor} {l : L}

theorem leaves_exec {i : Instr L} (hi : isStraight i = true)
    (h : Leaves env code rest (exec i s) t) : Leaves env code (i :: rest) s t := by
  obtain ⟨fuel, hrun⟩ := h
  refine ⟨fuel + 1, ?_⟩
  rw [← hrun]
  cases i <;> first | rfl | cases hi

/-- Straight code runs from its first to its last instruction. -/
theorem leaves_append (his : ∀ i ∈ is, isStraight i = true)
    (h : Leaves env code rest (is.foldl (fun s i => exec i s) s) t) :
    Leaves env code (is ++ rest) s t := by
  induction is generalizing s with
  | nil => exact h
  | cons i is ih =>
      exact leaves_exec (his i List.mem_cons_self)
        (ih (fun j hj => his j (List.mem_cons_of_mem i hj)) h)

theorem leaves_jz (h : Leaves env code (if s.zeroFlag then after code l else rest) s t) :
    Leaves env code (.jz l :: rest) s t := by
  obtain ⟨fuel, hrun⟩ := h
  exact ⟨fuel + 1, hrun⟩

theorem leaves_jnz (h : Leaves env code (if s.zeroFlag then rest else after code l) s t) :
    Leaves env code (.jnz l :: rest) s t := by
  obtain ⟨fuel, hrun⟩ := h
  exact ⟨fuel + 1, hrun⟩

theorem leaves_call (h : Leaves env code rest (env.callee s) t) :
    Leaves env code (.call :: rest) s t := by
  obtain ⟨fuel, hrun⟩ := h
  exact ⟨fuel + 1, hrun⟩

theorem leaves_iretq : Leaves env code (.iretq :: rest) s s.iretq := ⟨1, rfl⟩

theorem leaves_sysret :
    Leaves env code (.sysret :: rest) s (s.sysret env.userCs env.userSs) := ⟨1, rfl⟩

end

/-- More fuel changes nothing. -/
theorem run_mono [DecidableEq L] {env : Env} {code is : List (Instr L)} {t : Processor}
    {fuel fuel' : ℕ} (hle : fuel ≤ fuel') (h : run env code fuel is s = some t) :
    run env code fuel' is s = some t := by
  induction fuel generalizing s is fuel' with
  | zero => cases h
  | succ fuel ih =>
      cases fuel' with
      | zero => cases hle
      | succ fuel' =>
          have hle' : fuel ≤ fuel' := Nat.le_of_succ_le_succ hle
          cases is with
          | nil => cases h
          | cons i rest =>
              cases i <;> simp only [run] at h ⊢ <;> first | exact ih hle' h | exact h

theorem Leaves.unique [DecidableEq L] {env : Env} {code is : List (Instr L)} {t t' : Processor}
    (h : Leaves env code is s t) (h' : Leaves env code is s t') : t = t' := by
  obtain ⟨fuel, hrun⟩ := h
  obtain ⟨fuel', hrun'⟩ := h'
  have hmax := run_mono (Nat.le_max_left fuel fuel') hrun
  rw [run_mono (Nat.le_max_right fuel fuel') hrun'] at hmax
  exact (Option.some.inj hmax).symm

/-! ### Rows of pushes -/

/-- Words pushed one after the other. -/
def pushWords (s : Processor) (ws : List Word) : Processor := ws.foldl pushWord s

/-- What pushing keeps: everything but the stack pointer and the memory. -/
structure SameBeside (s t : Processor) : Prop where
  reg : ∀ r, r ≠ .rsp → t.reg r = s.reg r
  rip : t.rip = s.rip
  cs : t.cs = s.cs
  ss : t.ss = s.ss
  gsBase : t.gsBase = s.gsBase
  kernelGsBase : t.kernelGsBase = s.kernelGsBase

theorem SameBeside.refl (s : Processor) : SameBeside s s :=
  ⟨fun _ _ => rfl, rfl, rfl, rfl, rfl, rfl⟩

theorem SameBeside.trans {s t u : Processor} (h : SameBeside s t) (h' : SameBeside t u) :
    SameBeside s u :=
  ⟨fun r hr => (h'.reg r hr).trans (h.reg r hr), h'.rip.trans h.rip, h'.cs.trans h.cs,
    h'.ss.trans h.ss, h'.gsBase.trans h.gsBase, h'.kernelGsBase.trans h.kernelGsBase⟩

theorem pushWord_sameBeside (s : Processor) (v : Word) : SameBeside s (s.pushWord v) :=
  ⟨fun _ hr => setReg_of_ne hr, rfl, rfl, rfl, rfl, rfl⟩

theorem pushWord_sp (s : Processor) (v : Word) : (s.pushWord v).sp = s.sp - 8 := by
  change (s.setReg .rsp (s.sp - 8)).reg .rsp = s.sp - 8
  exact setReg_self

variable {ws : List Word} {rs : List Reg}

theorem pushWords_sameBeside (s : Processor) (ws : List Word) :
    SameBeside s (s.pushWords ws) := by
  induction ws generalizing s with
  | nil => exact SameBeside.refl s
  | cons v ws ih => exact (s.pushWord_sameBeside v).trans (ih (s.pushWord v))

theorem pushWords_rflags (s : Processor) (ws : List Word) :
    (s.pushWords ws).rflags = s.rflags := by
  induction ws generalizing s with
  | nil => rfl
  | cons v ws ih => exact ih (s.pushWord v)

theorem pushWords_sp (hroom : 8 * ws.length ≤ s.sp.toNat) :
    (s.pushWords ws).sp.toNat = s.sp.toNat - 8 * ws.length := by
  induction ws generalizing s with
  | nil => rfl
  | cons v ws ih =>
      rw [List.length_cons] at hroom ⊢
      have hsp := s.pushWord_sp v
      have hnat : (s.pushWord v).sp.toNat = s.sp.toNat - 8 := by
        rw [hsp]
        bv_omega
      have hrest := ih (s := s.pushWord v) (by omega)
      rw [pushWords, List.foldl_cons]
      rw [pushWords] at hrest
      omega

/-- Pushes write below the stack pointer, as far as they move it. -/
theorem pushWords_eqOn (hroom : 8 * ws.length ≤ s.sp.toNat) :
    Set.EqOn (s.pushWords ws).mem s.mem
      (between (s.sp.toNat - 8 * ws.length) s.sp.toNat)ᶜ := by
  induction ws generalizing s with
  | nil => exact Set.eqOn_refl _ _
  | cons v ws ih =>
      rw [List.length_cons] at hroom ⊢
      have hnat : (s.sp - 8).toNat = s.sp.toNat - 8 := by bv_omega
      have hsp : (s.pushWord v).sp.toNat = s.sp.toNat - 8 := by
        rw [pushWord_sp, hnat]
      have hone : Set.EqOn (s.pushWord v).mem s.mem (span (s.sp - 8) 8)ᶜ :=
        Memory.write64_eqOn s.mem v (by omega)
      have hrest := ih (s := s.pushWord v) (by omega)
      refine (hrest.mono ?_).trans (hone.mono ?_)
      · intro x hx hx'
        rw [mem_between] at hx'
        exact hx ⟨by omega, by omega⟩
      · intro x hx hx'
        rw [mem_span] at hx'
        exact hx ⟨by omega, by omega⟩

/-- Each word lies where it was pushed. -/
theorem read64_pushWords (hroom : 8 * ws.length ≤ s.sp.toNat) {i : ℕ} (hi : i < ws.length) :
    (s.pushWords ws).mem.read64 (s.sp - BitVec.ofNat 64 (8 * (i + 1))) = ws[i] := by
  induction ws generalizing s i with
  | nil => cases hi
  | cons v ws ih =>
      rw [List.length_cons] at hroom hi
      have hlt := s.sp.isLt
      have hnat : (s.sp - 8).toNat = s.sp.toNat - 8 := by bv_omega
      have hsp : (s.pushWord v).sp = s.sp - 8 := s.pushWord_sp v
      cases i with
      | zero =>
          have hword : (s.pushWord v).mem.read64 (s.sp - 8) = v := Memory.read64_write64 ..
          have hroom' : 8 * ws.length ≤ (s.pushWord v).sp.toNat := by
            rw [hsp]
            omega
          have hkept := pushWords_eqOn hroom'
          rw [hsp, hnat] at hkept
          have hsame : ((s.pushWord v).pushWords ws).mem.read64 (s.sp - 8) =
              (s.pushWord v).mem.read64 (s.sp - 8) := by
            apply Memory.read64_congr (by omega)
            apply hkept.mono
            intro x hx hx'
            rw [mem_span] at hx
            rw [mem_between] at hx'
            omega
          exact hsame.trans hword
      | succ i =>
          have hrest := ih (s := s.pushWord v) (by rw [hsp]; omega) (i := i) (by omega)
          have haddr : s.sp - BitVec.ofNat 64 (8 * (i + 1 + 1)) =
              (s.pushWord v).sp - BitVec.ofNat 64 (8 * (i + 1)) := by
            rw [hsp]
            apply BitVec.eq_of_toNat_eq
            rw [BitVec.toNat_sub, BitVec.toNat_sub, BitVec.toNat_ofNat, BitVec.toNat_ofNat, hnat]
            omega
          rw [haddr]
          exact hrest

/-! ### Rows of pops -/

/-- Registers popped one after the other. -/
def popRegs (s : Processor) (rs : List Reg) : Processor := rs.foldl popReg s

theorem popReg_sp {r : Reg} (hr : r ≠ .rsp) : (s.popReg r).sp = s.sp + 8 := by
  rw [sp, popReg, setReg_of_ne hr.symm, setReg_self]

theorem popReg_of_ne {r r' : Reg} (hr : r' ≠ r) (hsp : r' ≠ .rsp) :
    (s.popReg r).reg r' = s.reg r' := by
  rw [popReg, setReg_of_ne hr, setReg_of_ne hsp]

theorem popRegs_onlyRegs (s : Processor) (rs : List Reg) : OnlyRegs s (s.popRegs rs) := by
  induction rs generalizing s with
  | nil => exact ⟨rfl, rfl, rfl⟩
  | cons r rs ih =>
      obtain ⟨hmem, hgs, hkernel⟩ := ih (s.popReg r)
      exact ⟨hmem, hgs, hkernel⟩

theorem popRegs_sp (hrs : .rsp ∉ rs) :
    (s.popRegs rs).sp = s.sp + BitVec.ofNat 64 (8 * rs.length) := by
  induction rs generalizing s with
  | nil => exact (BitVec.add_zero s.sp).symm
  | cons r rs ih =>
      rw [List.mem_cons, not_or] at hrs
      have hrest := ih (s := s.popReg r) hrs.2
      rw [popReg_sp (Ne.symm hrs.1)] at hrest
      rw [popRegs, List.foldl_cons]
      rw [popRegs] at hrest
      rw [hrest, List.length_cons, Nat.mul_succ, BitVec.ofNat_add]
      grind

theorem popRegs_of_notMem {r : Reg} (hr : r ∉ rs) (hsp : r ≠ .rsp) :
    (s.popRegs rs).reg r = s.reg r := by
  induction rs generalizing s with
  | nil => rfl
  | cons r' rs ih =>
      rw [List.mem_cons, not_or] at hr
      exact (ih (s := s.popReg r') hr.2).trans (popReg_of_ne hr.1 hsp)

/-- Each register has the word at its place. -/
theorem popRegs_reg (hrs : .rsp ∉ rs) (hnodup : rs.Nodup) {i : ℕ} (hi : i < rs.length) :
    (s.popRegs rs).reg rs[i] = s.mem.read64 (s.sp + BitVec.ofNat 64 (8 * i)) := by
  induction rs generalizing s i with
  | nil => cases hi
  | cons r rs ih =>
      rw [List.mem_cons, not_or] at hrs
      rw [List.nodup_cons] at hnodup
      cases i with
      | zero =>
          have hkept := popRegs_of_notMem (s := s.popReg r) hnodup.1 (Ne.symm hrs.1)
          have haddr : s.sp + BitVec.ofNat 64 (8 * 0) = s.sp := BitVec.add_zero s.sp
          rw [haddr]
          exact hkept.trans setReg_self
      | succ i =>
          have hrest := ih (s := s.popReg r) hrs.2 hnodup.2 (i := i)
            (by simpa using hi)
          rw [popReg_sp (Ne.symm hrs.1)] at hrest
          have haddr : s.sp + BitVec.ofNat 64 (8 * (i + 1)) =
              s.sp + 8 + BitVec.ofNat 64 (8 * i) := by
            rw [Nat.mul_succ, BitVec.ofNat_add]
            grind
          rw [haddr]
          exact hrest

/-! ### Pushes and pops as code -/

theorem foldl_push (hrs : .rsp ∉ rs) :
    (rs.map Instr.push).foldl (fun s i => exec (i : Instr L) s) s = s.pushWords (rs.map s.reg) := by
  induction rs generalizing s with
  | nil => rfl
  | cons r rs ih =>
      rw [List.mem_cons, not_or] at hrs
      have hregs : rs.map (s.pushWord (s.reg r)).reg = rs.map s.reg := by
        refine List.map_congr_left fun r' hr' => ?_
        exact setReg_of_ne fun heq => hrs.2 (heq ▸ hr')
      rw [List.map_cons, List.foldl_cons, List.map_cons, pushWords, List.foldl_cons, ← hregs]
      exact ih hrs.2

theorem foldl_pop (s : Processor) (rs : List Reg) :
    (rs.map Instr.pop).foldl (fun s i => exec (i : Instr L) s) s = s.popRegs rs := by
  rw [List.foldl_map]
  rfl

theorem isStraight_push (rs : List Reg) :
    ∀ i ∈ (rs.map Instr.push : List (Instr L)), isStraight i = true := by
  intro i hi
  obtain ⟨r, -, rfl⟩ := List.mem_map.mp hi
  rfl

theorem isStraight_pop (rs : List Reg) :
    ∀ i ∈ (rs.map Instr.pop : List (Instr L)), isStraight i = true := by
  intro i hi
  obtain ⟨r, -, rfl⟩ := List.mem_map.mp hi
  rfl

/-! ### Interrupts -/

/-- The bits of `rflags` that an interrupt gate clears. -/
def gateMask : Word := 0x34300

/-- The code that runs has not the rights of the kernel. -/
def fromUser (s : Processor) : Bool := s.cs &&& 3 ≠ 0

/-- Where an interrupt puts its words: on the stack for this change of rights, or on the one in
use, from a multiple of 16 down. -/
def gateStack (s : Processor) (rsp0 : Word) : Word :=
  (if s.fromUser then rsp0 else s.sp) &&& ~~~0xF

/-- The processor that runs behind a gate, with nothing pushed yet. -/
def atGate (s : Processor) (rsp0 gateCs : Word) : Processor :=
  { s.setReg .rsp (s.gateStack rsp0) with
    rflags := s.rflags &&& ~~~gateMask
    cs := gateCs
    ss := if s.fromUser then 0 else s.ss }

/-- An interrupt, with the error code that the processor gives for some of them. -/
def interrupt (s : Processor) (rsp0 gateCs : Word) (error : Option Word) : Processor :=
  (s.atGate rsp0 gateCs).pushWords ([s.ss, s.sp, s.rflags, s.cs, s.rip] ++ error.toList)

end Processor

end Utopia
