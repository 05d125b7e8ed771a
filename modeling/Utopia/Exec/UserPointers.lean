/-
The pointers of the user that `wait4` and `clone` store through: the checks of
`exec/syscalls/linux/process.c`, and where the bytes of the stores land.
-/
import Utopia.Exec.FileSyscalls

namespace Utopia

/-- `USER_VA_LIMIT`. -/
def userVaLimit : Word := 1 <<< 47

def sizeofInt : Word := 4
def rusageStructSize : Word := 144

def wnohang : BitVec 32 := 0x00000001

def wait4ValidOptions : BitVec 32 :=
  wnohang ||| 0x00000002 ||| 0x00000008 ||| 0x20000000 ||| 0x40000000 ||| 0x80000000

def cloneSetTls : Word := 0x00080000
def cloneParentSetTid : Word := 0x00100000
def cloneChildSetTid : Word := 0x01000000

def cloneUnsupported : Word :=
  0x00000100 ||| 0x00000800 ||| 0x00008000 ||| 0x00010000 ||| 0x00020000 ||| 0x00040000

def echild : Word := -10

/-- A store through a pointer of the user. -/
structure PointerStore where
  addr : Word
  bytes : List Byte

/-- The bytes of an `int`. -/
def intBytes (v : BitVec 32) : List Byte := (List.range 4).map fun i => (v >>> (8 * i)).setWidth 8

/-! ### `wait4` -/

/-- The stores of `wait4` for a child that was found, null pointers left out. -/
def wait4Stores (regs : SyscallRegs) (status : BitVec 32) : List PointerStore :=
  (if regs.arg2 ≠ 0 then [⟨regs.arg2, intBytes status⟩] else []) ++
    if regs.arg4 ≠ 0 then [⟨regs.arg4, List.replicate 144 0⟩] else []

/-- The loop of `wait4`.  `rounds` lists what `process_wait_child` returns and stores in
`status`, round after round; no result if the thread still sleeps after the last one. -/
def wait4Loop (regs : SyscallRegs) : List (ℤ × BitVec 32) → Option (Word × List PointerStore)
  | [] => none
  | (r, status) :: rounds =>
      if r < 0 then some (echild, [])
      else if 0 < r then some (BitVec.ofInt 64 r, wait4Stores regs status)
      else if regs.arg3.setWidth 32 &&& wnohang ≠ 0 then some (0, [])
      else wait4Loop regs rounds

/-- The error of the checks. -/
def wait4Refused (regs : SyscallRegs) : Option Word :=
  if regs.arg3.setWidth 32 &&& ~~~wait4ValidOptions ≠ 0 then some einval
  else if regs.arg2 ≠ 0 ∧ userVaLimit < regs.arg2 + sizeofInt then some efault
  else if regs.arg4 ≠ 0 ∧ userVaLimit < regs.arg4 + rusageStructSize then some efault
  else none

def syscallWait4 (regs : SyscallRegs) (rounds : List (ℤ × BitVec 32)) :
    Option (Word × List PointerStore) :=
  match wait4Refused regs with
  | some error => some (error, [])
  | none => wait4Loop regs rounds

/-! ### `clone` -/

/-- `opts` of `do_clone`. -/
def cloneOpts (flags childStack ctid tls : Word) : CloneOpts where
  childStack := childStack
  setTls := hasBits flags cloneSetTls
  tls := tls
  childTidAddr := if hasBits flags cloneChildSetTid ∧ ctid < userVaLimit then ctid else 0

/-- The store of the new thread id for the parent. -/
def ptidStores (flags ptid : Word) (tid : BitVec 32) : List PointerStore :=
  if hasBits flags cloneParentSetTid ∧ ptid ≠ 0 ∧ ptid < userVaLimit then [⟨ptid, intBytes tid⟩]
  else []

namespace Machine

variable (k : Machine)

/-- `do_clone`, with the stores it makes once the child exists. -/
def doClone (s : KernelState) (parent : ProcessObject) (thread : ThreadObject)
    (frame : Registers) (msrFsBase flags childStack ptid ctid tls : Word) :
    Option (Word × KernelState × List PointerStore) :=
  if flags &&& cloneUnsupported ≠ 0 then some (einval, s, [])
  else
    (k.processClone s (some parent) (some thread) (some frame)
      (some (cloneOpts flags childStack ctid tls)) msrFsBase).map fun (child, s) =>
        if child = 0 then (enomem, s, [])
        else
          -- the child is the newest process
          match s.processes with
          | process :: _ => (process.pid.setWidth 64, s, ptidStores flags ptid process.mainTid)
          | [] => (enomem, s, [])

/-- `clone`: the two architectures order the last two arguments differently. -/
def syscallClone (s : KernelState) (parent : ProcessObject) (thread : ThreadObject)
    (frame : Registers) (msrFsBase : Word) (regs : SyscallRegs) :
    Option (Word × KernelState × List PointerStore) :=
  match k.arch with
  | .x86_64 =>
      k.doClone s parent thread frame msrFsBase regs.arg1 regs.arg2 regs.arg3 regs.arg4 regs.arg5
  | .riscv64 =>
      k.doClone s parent thread frame msrFsBase regs.arg1 regs.arg2 regs.arg3 regs.arg5 regs.arg4

/-- Where the processor stores the byte at `va` for the kernel while the address space is
`space`; nowhere if it faults.  With `wp` it minds the write permission of user pages.  The
kernel's own addresses are those of the memory. -/
def storeLocation (wp : Bool) (space : Word → Option Mapping) (va : Word) : Option Word :=
  if va < userVaLimit then
    (space va).bind fun x =>
      if wp && !x.flags.write then none else some (k.physToVirt x.phys)
  else if va.toNat < 2 ^ 64 - 2 ^ 47 then none
  else some va

/-- The store writes the bytes of the user at its address, all of them below the limit,
and nothing else. -/
def Exact (wp : Bool) (space : Word → Option Mapping) (st : PointerStore) : Prop :=
  st.addr.toNat + st.bytes.length ≤ 2 ^ 47 ∧ ∀ i < st.bytes.length, ∃ x,
    space (st.addr + BitVec.ofNat 64 i) = some x ∧
      k.storeLocation wp space (st.addr + BitVec.ofNat 64 i) = some (k.physToVirt x.phys)

/-- The four bytes from `slot` on are those of the user at `va`. -/
def ExactSlot (space : Word → Option Mapping) (va slot : Word) : Prop :=
  va.toNat + 4 ≤ 2 ^ 47 ∧ ∀ i < 4, ∃ x, space (va + BitVec.ofNat 64 i) = some x ∧
    slot + BitVec.ofNat 64 i = k.physToVirt x.phys

/-- `slot` of `process_clone`. -/
def tidSlot (m : Memory) (child : Word) (opts : CloneOpts) : Word :=
  if opts.childTidAddr ≠ 0 then k.vmUserToKernel m child opts.childTidAddr else 0

theorem applyOpts_id (m : Memory) (child : Word) (t : ThreadObject) (opts : CloneOpts) :
    (k.applyOpts m child t (some opts)).1.id = t.id := by
  have hid : (if opts.childStack ≠ 0 then { t with frame := t.frame.setSp opts.childStack }
      else t).id = t.id := by
    split_ifs <;> rfl
  rw [applyOpts]
  generalize (if opts.childStack ≠ 0 then { t with frame := t.frame.setSp opts.childStack }
    else t) = t' at hid ⊢
  split
  · split <;> exact hid
  · exact hid

/-- `process_clone` stores the four bytes from `slot` on. -/
theorem applyOpts_store (m : Memory) (child : Word) (t : ThreadObject) (opts : CloneOpts) :
    (k.applyOpts m child t (some opts)).2 =
      if k.tidSlot m child opts ≠ 0 then m.store (k.tidSlot m child opts) (intBytes t.id)
      else m := by
  rw [← k.applyOpts_id m child t opts]
  rfl

/-- `do_clone` stores the id of the new thread, or fails and stores nothing. -/
theorem doClone_stores {s s' : KernelState} {parent : ProcessObject} {thread : ThreadObject}
    {frame : Registers} {msrFsBase flags childStack ptid ctid tls code : Word}
    {stores : List PointerStore}
    (h : k.doClone s parent thread frame msrFsBase flags childStack ptid ctid tls =
      some (code, s', stores)) :
    stores = [] ∨ ∃ child rest, s'.processes = child :: rest ∧
      stores = ptidStores flags ptid child.mainTid := by
  rw [doClone] at h
  split at h
  · cases h
    exact Or.inl rfl
  · obtain ⟨⟨child, s₁⟩, -, heq⟩ := Option.map_eq_some_iff.mp h
    dsimp only at heq
    split at heq
    · cases heq
      exact Or.inl rfl
    · split at heq
      next process rest hprocesses =>
        cases heq
        exact Or.inr ⟨process, rest, hprocesses, rfl⟩
      next =>
        cases heq
        exact Or.inl rfl

/-- What `wait4` stores lands at the pointers of the user. -/
def Wait4Exact (wp : Bool) (space : Word → Option Mapping) (regs : SyscallRegs)
    (rounds : List (ℤ × BitVec 32)) : Prop :=
  ∀ code stores, syscallWait4 regs rounds = some (code, stores) →
    ∀ st ∈ stores, k.Exact wp space st

/-- What `clone` stores lands at the pointers of the user: the parent's in its own space, the
child's in the table of the child. -/
def CloneExact (wp : Bool) (space : Word → Option Mapping) (m : Memory) (child : Word)
    (flags childStack ptid ctid tls : Word) (tid : BitVec 32) : Prop :=
  (∀ st ∈ ptidStores flags ptid tid, k.Exact wp space st) ∧
  (k.tidSlot m child (cloneOpts flags childStack ctid tls) ≠ 0 →
    k.ExactSlot (k.translate m child) ctid
      (k.tidSlot m child (cloneOpts flags childStack ctid tls)))

end Machine

/-! ### When the stores are exact -/

/-- The `n` bytes from `addr` on are mapped, and may be stored to. -/
def Accessible (wp : Bool) (space : Word → Option Mapping) (addr : Word) (n : Nat) : Prop :=
  ∀ i < n, ∃ x, space (addr + BitVec.ofNat 64 i) = some x ∧ (wp = true → x.flags.write = true)

/-- The result that ends the wait. -/
def endsWait (regs : SyscallRegs) (round : ℤ × BitVec 32) : Bool :=
  round.1 ≠ 0 || regs.arg3.setWidth 32 &&& wnohang ≠ 0

/-- The call is not refused, and finds a child. -/
def Reaps (regs : SyscallRegs) (rounds : List (ℤ × BitVec 32)) : Prop :=
  wait4Refused regs = none ∧ ∃ round, rounds.find? (endsWait regs) = some round ∧ 0 < round.1

/-- A pointer that the addition in the check does not take past 2 ^ 64, to memory that the
process has. -/
def PointerFits (wp : Bool) (space : Word → Option Mapping) (addr : Word) (n : Nat) : Prop :=
  addr ≠ 0 → addr.toNat < 2 ^ 64 - n ∧ Accessible wp space addr n

def Wait4Fits (wp : Bool) (space : Word → Option Mapping) (regs : SyscallRegs)
    (rounds : List (ℤ × BitVec 32)) : Prop :=
  Reaps regs rounds → PointerFits wp space regs.arg2 4 ∧ PointerFits wp space regs.arg4 144

/-- The first address behind the page. -/
def nextPage (va : Word) : Word := pageAlignUp (va + 1)

namespace Machine

variable (k : Machine)

/-- The id of the child lies in one page, or in two with adjacent frames. -/
def TidFits (m : Memory) (child ctid : Word) : Prop :=
  ctid.toNat % 4096 ≤ 4092 ∨ ctid.toNat + 4 ≤ 2 ^ 47 ∧ ∃ x y,
    k.translate m child ctid = some x ∧ k.translate m child (nextPage ctid) = some y ∧
      y.phys = x.phys + (nextPage ctid - ctid)

def CloneFits (wp : Bool) (space : Word → Option Mapping) (m : Memory) (child : Word)
    (flags ptid ctid : Word) : Prop :=
  (hasBits flags cloneParentSetTid → ptid ≠ 0 → ptid < userVaLimit →
    ptid.toNat + 4 ≤ 2 ^ 47 ∧ Accessible wp space ptid 4) ∧
  (hasBits flags cloneChildSetTid → ctid ≠ 0 → ctid < userVaLimit →
    k.vmUserToKernel m child ctid ≠ 0 → k.TidFits m child ctid)

variable {k} {wp : Bool} {space : Word → Option Mapping}

theorem storeLocation_of_user {va : Word} (h : va.toNat < 2 ^ 47) {x : Mapping}
    (hx : space va = some x) : k.storeLocation wp space va = some (k.physToVirt x.phys) ↔
      (wp = true → x.flags.write = true) := by
  have hlt : va < userVaLimit := h
  rw [storeLocation, if_pos hlt, hx, Option.bind_some]
  cases wp <;> cases x.flags.write <;> simp

/-- Below the limit a store is exact if its bytes are accessible. -/
theorem exact_iff {st : PointerStore} (hlen : st.bytes.length ≤ 2 ^ 47) : k.Exact wp space st ↔
    st.addr.toNat + st.bytes.length ≤ 2 ^ 47 ∧
      Accessible wp space st.addr st.bytes.length := by
  rw [Exact, Accessible]
  refine and_congr_right fun hbound => forall₂_congr fun i hi => exists_congr fun x => ?_
  refine and_congr_right fun hx => storeLocation_of_user ?_ hx
  rw [toNat_add_of_lt] <;> rw [BitVec.toNat_ofNat] <;> omega

/-! ### Within a page -/

section Page

variable {va : Word} {i : Nat} {m : Memory} {child : TableAddr}

theorem vpn_add (hfit : va.toNat % 4096 + i < 4096) : vpn (va + BitVec.ofNat 64 i) = vpn va := by
  have hlt := va.isLt
  have haddr : (va + BitVec.ofNat 64 i).toNat = va.toNat + i := by
    rw [toNat_add_of_lt] <;> rw [BitVec.toNat_ofNat] <;> omega
  apply BitVec.eq_of_toNat_eq
  rw [vpn_toNat, vpn_toNat, haddr]
  omega

theorem offset_add (hfit : va.toNat % 4096 + i < 4096) :
    (va + BitVec.ofNat 64 i) &&& 4095 = (va &&& 4095) + BitVec.ofNat 64 i := by
  have hlt := va.isLt
  have haddr : (va + BitVec.ofNat 64 i).toNat = va.toNat + i := by
    rw [toNat_add_of_lt] <;> rw [BitVec.toNat_ofNat] <;> omega
  have hspan : levelSpan 0 - 1 = 4095 := by decide
  have hlow : (va &&& 4095).toNat = va.toNat % 4096 := by
    rw [← hspan, toNat_and_span va (by omega)]
    rfl
  apply BitVec.eq_of_toNat_eq
  rw [toNat_add_of_lt, hlow, ← hspan, toNat_and_span _ (by omega), haddr, BitVec.toNat_ofNat]
  · omega
  · rw [hlow, BitVec.toNat_ofNat]
    omega

/-- Within a page the translation only adds. -/
theorem translate_add (hfit : va.toNat % 4096 + i < 4096) :
    k.translate m child.addr (va + BitVec.ofNat 64 i) =
      (k.translate m child.addr va).map fun x => { x with phys := x.phys + BitVec.ofNat 64 i } := by
  rw [translate_eq_spaceOf, translate_eq_spaceOf, vpn_add hfit, offset_add hfit, Option.map_map]
  simp only [Function.comp_def, BitVec.add_assoc]

theorem physToVirt_add (phys offset : Word) :
    k.physToVirt (phys + offset) = k.physToVirt phys + offset := by
  rw [physToVirt, physToVirt, BitVec.add_assoc]

theorem physToVirt_injective {phys phys' : Word} (h : k.physToVirt phys = k.physToVirt phys') :
    phys = phys' := by
  rw [physToVirt, physToVirt] at h
  exact (BitVec.add_right_inj _).mp h

theorem nextPage_eq (hva : va.toNat < 2 ^ 47) :
    nextPage va = va + BitVec.ofNat 64 (4096 - va.toNat % 4096) := by
  have hone : (1 : Word).toNat = 1 := rfl
  have hsucc : (va + 1).toNat = va.toNat + 1 := by
    rw [toNat_add_of_lt] <;> rw [hone]
    omega
  apply BitVec.eq_of_toNat_eq
  rw [nextPage, pageAlignUp_toNat, hsucc, toNat_add_of_lt] <;> rw [BitVec.toNat_ofNat] <;> omega

/-- The id lies in the bytes at the user's address as far as the frames go on. -/
theorem exactSlot_iff {slot : Word} (hva : va.toNat < 2 ^ 47)
    (hslot : k.vmUserToKernel m child.addr va = slot) (hne : slot ≠ 0) :
    k.ExactSlot (k.translate m child.addr) va slot ↔ k.TidFits m child.addr va := by
  rw [vmUserToKernel_eq] at hslot
  cases hx : k.translate m child.addr va with
  | none =>
      rw [hx] at hslot
      exact absurd hslot.symm hne
  | some x =>
      have hsame : ∀ i, va.toNat % 4096 + i < 4096 → ∃ y,
          k.translate m child.addr (va + BitVec.ofNat 64 i) = some y ∧
            slot + BitVec.ofNat 64 i = k.physToVirt y.phys := by
        intro i hi
        rw [translate_add hi, hx]
        refine ⟨_, rfl, ?_⟩
        rw [physToVirt_add, ← hslot, hx]
        rfl
      have hphys : k.physToVirt x.phys = slot := by
        rw [← hslot, hx]
        rfl
      constructor
      · rintro ⟨hbound, hbytes⟩
        rcases Nat.lt_or_ge 4092 (va.toNat % 4096) with hoff | hoff
        · obtain ⟨y, hy, heq⟩ := hbytes (4096 - va.toNat % 4096) (by omega)
          rw [← nextPage_eq hva] at hy
          refine Or.inr ⟨hbound, x, y, hx, hy, ?_⟩
          rw [nextPage_eq hva, BitVec.add_comm va, BitVec.add_sub_cancel]
          rw [← hphys, ← physToVirt_add] at heq
          exact (physToVirt_injective heq).symm
        · exact Or.inl hoff
      · rintro (hoff | ⟨hbound, x', y, hx', hy, hnext⟩)
        · exact ⟨by omega, fun i hi => hsame i (by omega)⟩
        · refine ⟨hbound, fun i hi => ?_⟩
          rcases Nat.lt_or_ge (va.toNat % 4096 + i) 4096 with hin | hout
          · exact hsame i hin
          · have hlen : va.toNat % 4096 + i < 4096 + 4096 := by omega
            have hstart := nextPage_eq hva
            have hsplit : BitVec.ofNat 64 (4096 - va.toNat % 4096) +
                BitVec.ofNat 64 (i - (4096 - va.toNat % 4096)) = BitVec.ofNat 64 i := by
              rw [← BitVec.ofNat_add]
              congr 1
              omega
            have hinner : (nextPage va).toNat % 4096 + (i - (4096 - va.toNat % 4096)) < 4096 := by
              rw [nextPage, pageAlignUp_toNat]
              omega
            have hbyte := @translate_add k _ _ m child hinner
            rw [hstart, BitVec.add_assoc, hsplit, ← hstart, hy] at hbyte
            refine ⟨_, hbyte, ?_⟩
            rw [hx, Option.some.injEq] at hx'
            subst hx'
            rw [physToVirt_add, hnext, physToVirt_add, hphys, hstart, BitVec.add_comm va,
              BitVec.add_sub_cancel, BitVec.add_assoc, hsplit]

end Page

/-! ### `wait4` and `clone` -/

/-- A pointer that passes the check. -/
theorem exact_pointer_iff {addr : Word} {bytes : List Byte} (hlen : bytes.length ≤ 4096)
    (hcheck : ¬ userVaLimit < addr + BitVec.ofNat 64 bytes.length) :
    k.Exact wp space ⟨addr, bytes⟩ ↔ addr.toNat < 2 ^ 64 - bytes.length ∧
      Accessible wp space addr bytes.length := by
  have hroom : bytes.length ≤ 2 ^ 47 := by omega
  rw [exact_iff hroom]
  have hlimit : userVaLimit.toNat = 2 ^ 47 := by decide
  have hlt := addr.isLt
  have hsize : (BitVec.ofNat 64 bytes.length).toNat = bytes.length := by
    rw [BitVec.toNat_ofNat]
    omega
  have hsum : (addr + BitVec.ofNat 64 bytes.length).toNat ≤ 2 ^ 47 := by
    rw [← hlimit]
    exact Nat.le_of_not_lt hcheck
  refine and_congr_left fun _ => ?_
  dsimp only
  constructor
  · intro h
    omega
  · intro h
    rwa [toNat_add_of_lt (by rw [hsize]; omega), hsize] at hsum

theorem endsWait_iff {regs : SyscallRegs} {r : ℤ} {status : BitVec 32} :
    endsWait regs (r, status) = true ↔ r ≠ 0 ∨ regs.arg3.setWidth 32 &&& wnohang ≠ 0 := by
  rw [endsWait, Bool.or_eq_true, decide_eq_true_iff, decide_eq_true_iff]

theorem wait4Loop_stores (regs : SyscallRegs) (rounds : List (ℤ × BitVec 32)) :
    (∀ code stores, wait4Loop regs rounds = some (code, stores) →
      ∀ st ∈ stores, k.Exact wp space st) ↔
    ∀ round, rounds.find? (endsWait regs) = some round → 0 < round.1 →
      ∀ st ∈ wait4Stores regs round.2, k.Exact wp space st := by
  induction rounds with
  | nil => simp [wait4Loop]
  | cons round rounds ih =>
      obtain ⟨r, status⟩ := round
      rw [wait4Loop, List.find?_cons]
      by_cases hends : endsWait regs (r, status) = true
      · rw [hends]
        by_cases hpos : 0 < r
        · rw [if_neg (by omega), if_pos hpos]
          constructor
          · rintro h round heq -
            cases heq
            exact h _ _ rfl
          · rintro h code stores heq
            cases heq
            exact h _ rfl hpos
        · constructor
          · rintro - round heq hround
            cases heq
            exact absurd hround hpos
          · rintro - code stores heq st hst
            rw [if_neg hpos] at heq
            have hnone : stores = [] := by
              split at heq
              · cases heq
                rfl
              · rw [if_pos ((endsWait_iff.mp hends).resolve_left (by omega))] at heq
                cases heq
                rfl
            subst hnone
            cases hst
      · have hwaits := endsWait_iff.not.mp hends
        rw [not_or, not_not] at hwaits
        obtain ⟨rfl, hhang⟩ := hwaits
        rw [if_neg (lt_irrefl _), if_neg (lt_irrefl _), if_neg hhang, Bool.not_eq_true _ |>.mp hends]
        exact ih

theorem wait4Stores_exact {regs : SyscallRegs} (hpass : wait4Refused regs = none)
    (status : BitVec 32) : (∀ st ∈ wait4Stores regs status, k.Exact wp space st) ↔
      PointerFits wp space regs.arg2 4 ∧ PointerFits wp space regs.arg4 144 := by
  rw [wait4Refused] at hpass
  split_ifs at hpass with hvalid hstatus hrusage
  have hint : (intBytes status).length = 4 := by simp [intBytes]
  have hzeros : (List.replicate 144 (0 : Byte)).length = 144 := List.length_replicate
  have hfirst : (∀ st ∈ if regs.arg2 ≠ 0 then [⟨regs.arg2, intBytes status⟩]
      else ([] : List PointerStore), k.Exact wp space st) ↔ PointerFits wp space regs.arg2 4 := by
    rw [PointerFits]
    by_cases hne : regs.arg2 ≠ 0
    · have hcheck : ¬ userVaLimit < regs.arg2 + BitVec.ofNat 64 (intBytes status).length := by
        rw [hint]
        exact fun h => hstatus ⟨hne, h⟩
      rw [if_pos hne, List.forall_mem_singleton, exact_pointer_iff (by omega) hcheck, hint]
      exact ⟨fun h _ => h, fun h => h hne⟩
    · rw [if_neg hne]
      exact ⟨fun _ h => absurd h hne, by rintro - st ⟨⟩⟩
  have hsecond : (∀ st ∈ if regs.arg4 ≠ 0 then [⟨regs.arg4, List.replicate 144 0⟩]
      else ([] : List PointerStore), k.Exact wp space st) ↔
        PointerFits wp space regs.arg4 144 := by
    rw [PointerFits]
    by_cases hne : regs.arg4 ≠ 0
    · have hcheck : ¬ userVaLimit <
          regs.arg4 + BitVec.ofNat 64 (List.replicate 144 (0 : Byte)).length := by
        rw [hzeros]
        exact fun h => hrusage ⟨hne, h⟩
      rw [if_pos hne, List.forall_mem_singleton, exact_pointer_iff (by omega) hcheck, hzeros]
      exact ⟨fun h _ => h, fun h => h hne⟩
    · rw [if_neg hne]
      exact ⟨fun _ h => absurd h hne, by rintro - st ⟨⟩⟩
  rw [wait4Stores, List.forall_mem_append, hfirst, hsecond]

theorem wait4Exact_iff (regs : SyscallRegs) (rounds : List (ℤ × BitVec 32)) :
    k.Wait4Exact wp space regs rounds ↔ Wait4Fits wp space regs rounds := by
  rw [Wait4Exact, Wait4Fits, Reaps, syscallWait4]
  cases hpass : wait4Refused regs with
  | some error =>
      constructor
      · rintro - ⟨⟨⟩, -⟩
      · rintro - code stores heq st hst
        cases heq
        cases hst
  | none =>
      dsimp only
      rw [wait4Loop_stores]
      constructor
      · rintro h ⟨-, round, hround, hpos⟩
        exact (wait4Stores_exact hpass round.2).mp (h round hround hpos)
      · intro h round hround hpos
        exact (wait4Stores_exact hpass round.2).mpr (h ⟨rfl, round, hround, hpos⟩)

theorem ptidStores_exact (flags ptid : Word) (tid : BitVec 32) :
    (∀ st ∈ ptidStores flags ptid tid, k.Exact wp space st) ↔
      (hasBits flags cloneParentSetTid → ptid ≠ 0 → ptid < userVaLimit →
        ptid.toNat + 4 ≤ 2 ^ 47 ∧ Accessible wp space ptid 4) := by
  have hint : (intBytes tid).length = 4 := by simp [intBytes]
  rw [ptidStores]
  split_ifs with hstores
  · obtain ⟨hflag, hne, hlt⟩ := hstores
    rw [List.forall_mem_singleton, exact_iff (by simp [hint]), hint]
    exact ⟨fun h _ _ _ => h, fun h => h hflag hne hlt⟩
  · constructor
    · intro _ hflag hne hlt
      exact absurd ⟨hflag, hne, hlt⟩ hstores
    · rintro - st ⟨⟩

theorem tidSlot_exact {m : Memory} {child : TableAddr} (flags childStack ctid tls : Word) :
    (k.tidSlot m child.addr (cloneOpts flags childStack ctid tls) ≠ 0 →
      k.ExactSlot (k.translate m child.addr) ctid
        (k.tidSlot m child.addr (cloneOpts flags childStack ctid tls))) ↔
    (hasBits flags cloneChildSetTid → ctid ≠ 0 → ctid < userVaLimit →
      k.vmUserToKernel m child.addr ctid ≠ 0 → k.TidFits m child.addr ctid) := by
  by_cases hasked : (hasBits flags cloneChildSetTid ∧ ctid < userVaLimit) ∧ ctid ≠ 0
  · obtain ⟨hset, hne⟩ := hasked
    have hslot : k.tidSlot m child.addr (cloneOpts flags childStack ctid tls) =
        k.vmUserToKernel m child.addr ctid := by
      rw [tidSlot, cloneOpts]
      dsimp only
      rw [if_pos hset, if_pos hne]
    rw [hslot]
    have hlt : ctid.toNat < 2 ^ 47 := hset.2
    constructor
    · intro h _ _ _ hfound
      exact (exactSlot_iff hlt rfl hfound).mp (h hfound)
    · intro h hfound
      exact (exactSlot_iff hlt rfl hfound).mpr (h hset.1 hne hset.2 hfound)
  · have hslot : k.tidSlot m child.addr (cloneOpts flags childStack ctid tls) = 0 := by
      rw [tidSlot, cloneOpts]
      dsimp only
      by_cases hset : hasBits flags cloneChildSetTid ∧ ctid < userVaLimit
      · rw [if_pos hset, if_neg fun hne => hasked ⟨hset, hne⟩]
      · rw [if_neg hset, if_neg (not_not.mpr rfl)]
    rw [hslot]
    constructor
    · intro _ hflag hne hlt
      exact absurd ⟨⟨hflag, hlt⟩, hne⟩ hasked
    · intro _ h
      exact absurd rfl h

/-- The checks do not keep the stores at the pointers. -/
theorem userPointers_exact_iff (k : Machine) (wp : Bool) (space : Word → Option Mapping) :
    (∀ regs rounds, k.Wait4Exact wp space regs rounds ↔ Wait4Fits wp space regs rounds) ∧
    ∀ m (child : TableAddr) flags childStack ptid ctid tls tid,
      k.CloneExact wp space m child.addr flags childStack ptid ctid tls tid ↔
        k.CloneFits wp space m child.addr flags ptid ctid := by
  refine ⟨wait4Exact_iff, fun m child flags childStack ptid ctid tls tid => ?_⟩
  rw [CloneExact, CloneFits, ptidStores_exact, tidSlot_exact]

end Machine

/-- `wait4` with the last four addresses for `wstatus`. -/
def lastWstatus : SyscallRegs where
  arg1 := 0
  arg2 := 0xfffffffffffffffc
  arg3 := 0
  arg4 := 0
  arg5 := 0
  arg6 := 0
  syscallNo := 61

/-- The sum in the check is zero, so that the status of the child goes to the kernel's end of
the addresses. -/
theorem lastWstatus_accepted : wait4Refused lastWstatus = none ∧
    ¬ (sampleMachine .x86_64).Wait4Exact true
      ((sampleMachine .x86_64).translate sampleSpace.2 sampleSpace.1) lastWstatus [(7, 0)] := by
  refine ⟨by decide, fun hexact => ?_⟩
  have hstore := hexact 7 [⟨0xfffffffffffffffc, intBytes 0⟩] rfl _ (List.mem_singleton_self _)
  exact absurd hstore.1 (by decide)

end Utopia
