/-
A 64-bit RISC-V hart with its supervisor mode, as far as the entry code of a kernel uses it:
words are loaded and stored, the control registers are moved, and `sret` leaves.
-/
import Utopia.Lib.Assembly
import Utopia.Lib.WordStores

namespace Utopia

namespace Hart

inductive Csr where
  | sepc
  | scause
  | stval
  | sstatus
  | sscratch
deriving DecidableEq, Repr

/-! ### The names of the registers -/

theorem neZero_registers : NeZero 32 := ⟨by decide⟩

attribute [local instance] neZero_registers

abbrev zero : Fin 32 := 0
abbrev ra : Fin 32 := 1
abbrev sp : Fin 32 := 2
abbrev gp : Fin 32 := 3
abbrev tp : Fin 32 := 4
abbrev t0 : Fin 32 := 5
abbrev t1 : Fin 32 := 6
abbrev t2 : Fin 32 := 7
abbrev s0 : Fin 32 := 8
abbrev s1 : Fin 32 := 9
abbrev a0 : Fin 32 := 10
abbrev a1 : Fin 32 := 11
abbrev a2 : Fin 32 := 12
abbrev a3 : Fin 32 := 13
abbrev a4 : Fin 32 := 14
abbrev a5 : Fin 32 := 15
abbrev a6 : Fin 32 := 16
abbrev a7 : Fin 32 := 17
abbrev s2 : Fin 32 := 18
abbrev s3 : Fin 32 := 19
abbrev s4 : Fin 32 := 20
abbrev s5 : Fin 32 := 21
abbrev s6 : Fin 32 := 22
abbrev s7 : Fin 32 := 23
abbrev s8 : Fin 32 := 24
abbrev s9 : Fin 32 := 25
abbrev s10 : Fin 32 := 26
abbrev s11 : Fin 32 := 27
abbrev t3 : Fin 32 := 28
abbrev t4 : Fin 32 := 29
abbrev t5 : Fin 32 := 30
abbrev t6 : Fin 32 := 31

end Hart

/-- Nothing reads `x 0`: as an operand it is zero. -/
structure Hart where
  x : Fin 32 → Word
  pc : Word
  csr : Hart.Csr → Word
  supervisor : Bool
  mem : Memory

namespace Hart

open Assembly

attribute [local instance] neZero_registers

/-- `L` are the labels of the code. -/
inductive Instr (L : Type) where
  | sd (src base : Fin 32) (off : Word)
  | ld (dst base : Fin 32) (off : Word)
  | addi (dst src : Fin 32) (imm : Word)
  | andi (dst src : Fin 32) (imm : Word)
  | mv (dst src : Fin 32)
  | csrr (dst : Fin 32) (csr : Csr)
  | csrw (csr : Csr) (src : Fin 32)
  | csrrw (dst : Fin 32) (csr : Csr) (src : Fin 32)
  | bnez (src : Fin 32) (l : L)
  | j (l : L)
  | call
  | sret
deriving DecidableEq, Repr

variable (s : Hart)

def reg (r : Fin 32) : Word := if r = 0 then 0 else s.x r

def setReg (r : Fin 32) (v : Word) : Hart := { s with x := Function.update s.x r v }

def setCsr (c : Csr) (v : Word) : Hart := { s with csr := Function.update s.csr c v }

def setMem (m : Memory) : Hart := { s with mem := m }

/-! ### The status -/

def withBit (v : Word) (i : ℕ) (b : Bool) : Word :=
  if b then v ||| BitVec.twoPow 64 i else v &&& ~~~BitVec.twoPow 64 i

/-- A trap moves `SIE` to `SPIE`, clears it, and keeps the mode in `SPP`. -/
def trapStatus (status : Word) (supervisor : Bool) : Word :=
  withBit (withBit (withBit status 5 (status.getLsbD 1)) 1 false) 8 supervisor

/-- `sret` moves `SPIE` back to `SIE`, sets it, and clears `SPP`. -/
def sretStatus (status : Word) : Word :=
  withBit (withBit (withBit status 1 (status.getLsbD 5)) 5 true) 8 false

def trapCsr (cause tval : Word) : Csr → Word
  | .sepc => s.pc
  | .scause => cause
  | .stval => tval
  | .sstatus => trapStatus (s.csr .sstatus) s.supervisor
  | .sscratch => s.csr .sscratch

/-- The hart at the first instruction of its trap handler. -/
def trap (cause tval : Word) : Hart := { s with csr := s.trapCsr cause tval, supervisor := true }

def sret : Hart :=
  { s.setCsr .sstatus (sretStatus (s.csr .sstatus)) with
    pc := s.csr .sepc
    supervisor := (s.csr .sstatus).getLsbD 8 }

variable {L : Type}

/-- An instruction that neither jumps nor leaves. -/
def exec : Instr L → Hart → Hart
  | .sd src base off, s => s.setMem (s.mem.write64 (s.reg base + off) (s.reg src))
  | .ld dst base off, s => s.setReg dst (s.mem.read64 (s.reg base + off))
  | .addi dst src imm, s => s.setReg dst (s.reg src + imm)
  | .andi dst src imm, s => s.setReg dst (s.reg src &&& imm)
  | .mv dst src, s => s.setReg dst (s.reg src)
  | .csrr dst c, s => s.setReg dst (s.csr c)
  | .csrw c src, s => s.setCsr c (s.reg src)
  | .csrrw dst c src, s => (s.setCsr c (s.reg src)).setReg dst (s.csr c)
  | _, s => s

def isStraight : Instr L → Bool
  | .bnez _ _ | .j _ | .call | .sret => false
  | _ => true

/-- `link` is the address behind a call, which leaves the code for the callee. -/
def step (link : Word) : Instr L → Hart → Flow L Hart
  | .bnez src l, s => if s.reg src = 0 then .next s else .jump l s
  | .j l, s => .jump l s
  | .call, s => .leave (s.setReg ra link)
  | .sret, s => .leave s.sret
  | i, s => .next (exec i s)

theorem step_eq_next {i : Instr L} (hi : isStraight i = true) (link : Word) (s : Hart) :
    step link i s = .next (exec i s) := by
  cases i <;> first | rfl | cases hi

/-- Straight code runs from its first to its last instruction. -/
theorem leaves_straight [DecidableEq L] {link : Word} {code rest : List (Line (Instr L) L)}
    {is : List (Instr L)} {s t : Hart} (his : is.all isStraight = true)
    (h : Leaves (step link) code rest (is.foldl (fun s i => exec i s) s) t) :
    Leaves (step link) code (is.map .instr ++ rest) s t :=
  leaves_block (fun _ hi s => step_eq_next (List.all_eq_true.mp his _ hi) link s) h

variable {s} {r r' : Fin 32} {v : Word} {c c' : Csr} {m : Memory}

@[simp] theorem reg_zero : s.reg 0 = 0 := rfl

theorem reg_eq (hr : r ≠ 0) : s.reg r = s.x r := if_neg hr

@[simp] theorem setReg_reg :
    (s.setReg r v).reg r' = if r' = 0 then 0 else if r' = r then v else s.reg r' := by
  by_cases hr : r' = 0
  · rw [if_pos hr, reg, if_pos hr]
  · rw [if_neg hr, reg_eq hr, reg_eq hr]
    exact Function.update_apply ..

theorem setReg_of_ne (h : r' ≠ r) : (s.setReg r v).reg r' = s.reg r' := by
  rw [setReg_reg, if_neg h, reg]
  split <;> rfl

@[simp] theorem setReg_csr : (s.setReg r v).csr = s.csr := rfl

@[simp] theorem setReg_mem : (s.setReg r v).mem = s.mem := rfl

@[simp] theorem setReg_supervisor : (s.setReg r v).supervisor = s.supervisor := rfl

@[simp] theorem setCsr_csr : (s.setCsr c v).csr c' = if c' = c then v else s.csr c' :=
  Function.update_apply ..

@[simp] theorem setCsr_reg : (s.setCsr c v).reg = s.reg := rfl

@[simp] theorem setCsr_mem : (s.setCsr c v).mem = s.mem := rfl

@[simp] theorem setCsr_supervisor : (s.setCsr c v).supervisor = s.supervisor := rfl

@[simp] theorem setMem_reg : (s.setMem m).reg = s.reg := rfl

@[simp] theorem setMem_csr : (s.setMem m).csr = s.csr := rfl

@[simp] theorem setMem_mem : (s.setMem m).mem = m := rfl

@[simp] theorem setMem_supervisor : (s.setMem m).supervisor = s.supervisor := rfl

@[simp] theorem trap_reg (cause tval : Word) : (s.trap cause tval).reg = s.reg := rfl

@[simp] theorem trap_mem (cause tval : Word) : (s.trap cause tval).mem = s.mem := rfl

@[simp] theorem trap_supervisor (cause tval : Word) : (s.trap cause tval).supervisor = true := rfl

@[simp] theorem trap_sscratch (cause tval : Word) :
    (s.trap cause tval).csr .sscratch = s.csr .sscratch := rfl

/-! ### Bits -/

theorem getLsbD_withBit (v : Word) (b : Bool) {i j : ℕ} (hi : i < 64) :
    (withBit v i b).getLsbD j = if j = i then b else v.getLsbD j := by
  rw [withBit]
  by_cases heq : j = i
  · subst heq
    cases b <;> simp [hi]
  · have hne : i ≠ j := Ne.symm heq
    rw [if_neg heq]
    cases b
    · by_cases hj : j < 64
      · simp only [Bool.false_eq_true, if_false, BitVec.getLsbD_and, BitVec.getLsbD_not,
          BitVec.getLsbD_twoPow, hne, hj, decide_true, decide_false, Bool.and_false,
          Bool.not_false, Bool.and_true]
      · have hout : v.getLsbD j = false := BitVec.getLsbD_of_ge v j (by omega)
        simp [hout]
    · simp [hne]

theorem trapStatus_spp (status : Word) (b : Bool) : (trapStatus status b).getLsbD 8 = b := by
  simp +decide only [trapStatus, getLsbD_withBit, if_true, if_false]

/-- What `sret` makes of the status that a trap left: `SPIE` and `SPP` are all that changes. -/
theorem sretStatus_trapStatus (status : Word) (b : Bool) {i : ℕ} (hspie : i ≠ 5)
    (hspp : i ≠ 8) :
    (sretStatus (trapStatus status b)).getLsbD i = status.getLsbD i := by
  by_cases hsie : i = 1
  · subst hsie
    simp +decide only [sretStatus, trapStatus, getLsbD_withBit, if_true, if_false]
  · simp +decide only [sretStatus, trapStatus, getLsbD_withBit, hspie, hspp, hsie, if_false]

theorem and_twoPow_eq_zero_iff (v : Word) {i : ℕ} (hi : i < 64) :
    v &&& BitVec.twoPow 64 i = 0 ↔ v.getLsbD i = false := by
  rw [BitVec.and_twoPow]
  cases v.getLsbD i
  · simp
  · have hne : BitVec.twoPow 64 i ≠ 0 := by
      intro h
      have hbit := congrArg (fun v => v.getLsbD i) h
      simp [hi] at hbit
    simpa using hne

/-! ### Rows of stores and loads -/

/-- Registers stored into their slots of the row of words at `base`. -/
def storeRegs (base : Fin 32) (rs : List (Fin 32)) : List (Instr L) :=
  rs.map fun r => .sd r base (BitVec.ofNat 64 (8 * r))

/-- Registers loaded from their slots. -/
def loadRegs (base : Fin 32) (rs : List (Fin 32)) : List (Instr L) :=
  rs.map fun r => .ld r base (BitVec.ofNat 64 (8 * r))

/-- Control registers stored into slots, each moved through `tmp`. -/
def storeCsrs (tmp base : Fin 32) (cs : List (Csr × ℕ)) : List (Instr L) :=
  cs.flatMap fun v => [.csrr tmp v.1, .sd tmp base (BitVec.ofNat 64 (8 * v.2))]

theorem foldl_storeRegs (s : Hart) (base : Fin 32) (rs : List (Fin 32)) :
    (storeRegs base rs : List (Instr L)).foldl (fun s i => exec i s) s =
      s.setMem (s.mem.storeSlots (s.reg base) (rs.map fun r => (r.val, s.reg r))) := by
  induction rs generalizing s with
  | nil => rfl
  | cons r rs ih =>
      rw [storeRegs, List.map_cons, List.foldl_cons]
      exact ih _

/-- What a row of control registers leaves but for `tmp`. -/
theorem foldl_storeCsrs (s : Hart) (tmp base : Fin 32) (cs : List (Csr × ℕ)) (hbase : base ≠ tmp)
    (htmp : tmp ≠ 0) :
    ∃ v, (storeCsrs tmp base cs : List (Instr L)).foldl (fun s i => exec i s) s =
      { s with
        x := Function.update s.x tmp v
        mem := s.mem.storeSlots (s.reg base) (cs.map fun v => (v.2, s.csr v.1)) } := by
  induction cs generalizing s with
  | nil => exact ⟨s.x tmp, by rw [Function.update_eq_self]; rfl⟩
  | cons w cs ih =>
      let s' := exec (.sd tmp base (BitVec.ofNat 64 (8 * w.2)) : Instr L)
        (exec (.csrr tmp w.1 : Instr L) s)
      obtain ⟨v, hv⟩ := ih s'
      have hkept : s'.reg base = s.reg base := setReg_of_ne hbase
      have hmem : s'.mem = s.mem.write64 (s.reg base + BitVec.ofNat 64 (8 * w.2))
          (s.csr w.1) := by
        change s.mem.write64 ((s.setReg tmp (s.csr w.1)).reg base + BitVec.ofNat 64 (8 * w.2))
          ((s.setReg tmp (s.csr w.1)).reg tmp) = _
        rw [setReg_of_ne hbase, setReg_reg, if_neg htmp, if_pos rfl]
      refine ⟨v, hv.trans ?_⟩
      rw [hkept, hmem]
      simp only [s', exec, setReg, setMem, Function.update_idem]
      rfl

/-- The loads of a row: no register but those changes. -/
theorem foldl_loadRegs (s : Hart) {base : Fin 32} {rs : List (Fin 32)} (hbase : base ∉ rs) :
    ∃ x, (loadRegs base rs : List (Instr L)).foldl (fun s i => exec i s) s = { s with x := x } ∧
      (∀ r, r ∈ rs → x r = s.mem.read64 (s.reg base + BitVec.ofNat 64 (8 * r))) ∧
      ∀ r, r ∉ rs → x r = s.x r := by
  induction rs generalizing s with
  | nil => exact ⟨s.x, rfl, fun _ h => absurd h List.not_mem_nil, fun _ _ => rfl⟩
  | cons r rs ih =>
      rw [List.mem_cons, not_or] at hbase
      have hkept : (exec (.ld r base (BitVec.ofNat 64 (8 * r)) : Instr L) s).reg base =
          s.reg base := setReg_of_ne hbase.1
      obtain ⟨x, hx, hin, hout⟩ :=
        ih (exec (.ld r base (BitVec.ofNat 64 (8 * r)) : Instr L) s) hbase.2
      rw [hkept] at hin
      refine ⟨x, hx, fun r' hr' => ?_, fun r' hr' => ?_⟩
      · by_cases hmem : r' ∈ rs
        · exact hin r' hmem
        · obtain rfl := (List.mem_cons.mp hr').resolve_right hmem
          exact (hout r' hmem).trans (Function.update_self ..)
      · rw [List.mem_cons, not_or] at hr'
        exact (hout r' hr'.2).trans (Function.update_of_ne hr'.1 ..)

end Hart

end Utopia
