/-
The initial stack of a program, as `elf_prepare` of `exec/loaders/elf.c` builds it in the
block of the stack, and when the block has room for it.
-/
import Utopia.Exec.ProcessClone

namespace Utopia

/-- The strings that `elf_prepare` is asked to pass on, without their NULs.  A null vector
has none. -/
structure ExecArgs where
  argv : List (List Byte)
  envp : List (List Byte)
deriving DecidableEq, Repr

/-- `elf_auxv_info_t`. -/
structure ElfAuxvInfo where
  atEntry : Word
  atPhdr : Word
  atPhent : BitVec 16
  atPhnum : BitVec 16
  atBase : Word
  hasInterp : Bool
deriving DecidableEq, Repr

/-- A store through a kernel address. -/
inductive StackWrite where
  | bytes (addr : Word) (data : List Byte)
  | word (addr value : Word)
deriving DecidableEq, Repr

namespace StackWrite

def addr : StackWrite → Word
  | bytes addr _ => addr
  | word addr _ => addr

def size : StackWrite → ℕ
  | bytes _ data => data.length
  | word _ _ => 8

/-- The store lies in the block of the stack. -/
def Inside (base : Word) (w : StackWrite) : Prop :=
  (w.addr - base).toNat + w.size ≤ userStackSize.toNat

end StackWrite

/-- Strings on the stack: the new stack pointer, the place of each string, and the stores. -/
structure PushedStrings where
  sp : Word
  addrs : List Word
  writes : List StackWrite

/-- The loops over `envp` and `argv`, which go from the last string to the first. -/
def pushStrings (sp : Word) : List (List Byte) → PushedStrings
  | [] => ⟨sp, [], []⟩
  | s :: rest =>
      let pushed := pushStrings sp rest
      let len := s.length + 1
      let sp := pushed.sp - BitVec.ofNat 64 len
      ⟨sp, sp :: pushed.addrs, pushed.writes ++ [.bytes sp (s ++ [0])]⟩

/-- `"/init"`. -/
def defaultArgv0 : List Byte := [0x2F, 0x69, 0x6E, 0x69, 0x74]

namespace ExecArgs

variable (args : ExecArgs)

/-- The strings of `argv`, or the default where there are none. -/
def argvOrDefault : List (List Byte) := if args.argv = [] then [defaultArgv0] else args.argv

def argc : ℕ := args.argvOrDefault.length

def envc : ℕ := args.envp.length

end ExecArgs

/-- `K2U`: where the program finds what is at `kp`. -/
def stackToUser (ktop kp : Word) : Word := userStackTop - (ktop - kp)

/-- The pairs of the auxiliary vector. -/
def auxWords (auxv : ElfAuxvInfo) (randomAddr execfnAddr : Word) : List Word :=
  [3, auxv.atPhdr,
   4, auxv.atPhent.setWidth 64,
   5, auxv.atPhnum.setWidth 64,
   6, 4096,
   7, if auxv.hasInterp then auxv.atBase else 0,
   9, auxv.atEntry,
   11, 0,
   12, 0,
   13, 0,
   14, 0,
   23, 0,
   17, 100,
   25, randomAddr,
   31, execfnAddr,
   0, 0]

/-- The words above the stack pointer: `argc`, the two vectors, and the auxiliary vector. -/
def initialVector (argc : ℕ) (argvAddrs envpAddrs aux : List Word) : List Word :=
  BitVec.ofNat 64 argc :: argvAddrs ++ 0 :: envpAddrs ++ 0 :: aux

/-- What `elf_prepare` stores in the block of the stack, and the stack pointer of the
program. -/
structure InitialStack where
  sp : Word
  writes : List StackWrite

/-- The part of `elf_prepare` that builds the stack at `stackBase`. -/
def buildStack (stackBase : Word) (args : ExecArgs) (auxv : ElfAuxvInfo) : InitialStack :=
  let ktop := stackBase + userStackSize
  let envp := pushStrings ktop args.envp
  let argv := pushStrings envp.sp args.argvOrDefault
  let envpAddrs := envp.addrs.map (stackToUser ktop)
  let argvAddrs := argv.addrs.map (stackToUser ktop)
  let execfnAddr := argvAddrs.headD 0
  let sp := argv.sp &&& ~~~15
  let sp := sp - 16
  let randomAddr := stackToUser ktop sp
  let random : StackWrite := .bytes sp ((List.range 16).map fun i => BitVec.ofNat 8 (i ^^^ 0x42))
  let vec := initialVector args.argc argvAddrs envpAddrs (auxWords auxv randomAddr execfnAddr)
  let sp := sp - BitVec.ofNat 64 vec.length * 8
  let sp := sp &&& ~~~0xF
  let words := vec.zipIdx.map fun (v, i) => .word (sp + BitVec.ofNat 64 i * 8) v
  ⟨stackToUser ktop sp, envp.writes ++ argv.writes ++ random :: words⟩

/-- How the three calls of `malloc` for the temporary arrays end. -/
structure TemporariesGranted where
  envpAddrs : Bool
  argvAddrs : Bool
  vec : Bool
deriving DecidableEq, Repr

/-- The part of `elf_prepare` behind the mapping of the stack: what it returns, and the
stores that it makes in the block of the stack. -/
def prepareStack (granted : TemporariesGranted) (stackBase : Word) (args : ExecArgs)
    (auxv : ElfAuxvInfo) : Int × List StackWrite :=
  if !granted.envpAddrs || !granted.argvAddrs || !granted.vec then (-1, [])
  else (0, (buildStack stackBase args auxv).writes)

/-! ### Room in the block -/

/-- The bytes of strings with their NULs. -/
def stringBytes (strings : List (List Byte)) : ℕ := (strings.map fun s => s.length + 1).sum

/-- The strings, the random bytes and the vector fit into the block. -/
def ExecArgs.Fits (args : ExecArgs) : Prop :=
  (stringBytes args.envp + stringBytes args.argvOrDefault + 15) / 16 * 16 + 16 +
    8 * (args.argc + args.envc + 33) ≤ userStackSize.toNat

instance (args : ExecArgs) : Decidable args.Fits := inferInstanceAs (Decidable (_ ≤ _))

section Room

variable {base : Word} {o : ℕ}

theorem userStackSize_toNat : userStackSize.toNat = 8388608 := rfl

/-- A store at `o` bytes above the base, moved down by `n`. -/
theorem sub_ofNat_toNat (ho : o ≤ userStackSize.toNat) {n : ℕ} (hn : n ≤ 2 ^ 32) :
    (base + BitVec.ofNat 64 o - BitVec.ofNat 64 n - base).toNat =
      if n ≤ o then o - n else 2 ^ 64 - (n - o) := by
  rw [userStackSize_toNat] at ho
  have hsub : base + BitVec.ofNat 64 o - BitVec.ofNat 64 n - base =
      BitVec.ofNat 64 o - BitVec.ofNat 64 n := by
    rw [BitVec.sub_eq_add_neg, BitVec.sub_eq_add_neg, BitVec.sub_eq_add_neg, BitVec.add_comm base,
      BitVec.add_assoc, BitVec.add_assoc, BitVec.add_comm base, BitVec.add_assoc,
      BitVec.add_comm (-base), ← BitVec.sub_eq_add_neg base, BitVec.sub_self, BitVec.add_zero]
  have hnMod : n % 2 ^ 64 = n := Nat.mod_eq_of_lt (by omega)
  have hoMod : o % 2 ^ 64 = o := Nat.mod_eq_of_lt (by omega)
  rw [hsub, BitVec.toNat_sub, BitVec.toNat_ofNat, BitVec.toNat_ofNat, hnMod, hoMod]
  split_ifs with hle
  · rw [show 2 ^ 64 - n + o = 2 ^ 64 + (o - n) by omega, Nat.add_mod_left]
    exact Nat.mod_eq_of_lt (by omega)
  · rw [show 2 ^ 64 - n + o = 2 ^ 64 - (n - o) by omega]
    exact Nat.mod_eq_of_lt (by omega)

theorem sub_ofNat_eq (base : Word) {n : ℕ} (hn : n ≤ o) :
    base + BitVec.ofNat 64 o - BitVec.ofNat 64 n = base + BitVec.ofNat 64 (o - n) := by
  obtain ⟨d, rfl⟩ := Nat.exists_eq_add_of_le hn
  rw [Nat.add_sub_cancel_left, Nat.add_comm n d, BitVec.ofNat_add, ← BitVec.add_assoc,
    BitVec.add_sub_cancel]

theorem bytes_inside_iff (ho : o ≤ userStackSize.toNat) {data : List Byte} :
    (StackWrite.bytes (base + BitVec.ofNat 64 o - BitVec.ofNat 64 data.length) data).Inside base ↔
      data.length ≤ o := by
  change (base + BitVec.ofNat 64 o - BitVec.ofNat 64 data.length - base).toNat + data.length ≤
    userStackSize.toNat ↔ _
  by_cases hlong : userStackSize.toNat < data.length
  · omega
  · have hsize := userStackSize_toNat
    rw [sub_ofNat_toNat ho (by omega)]
    split_ifs <;> omega

/-- Strings stay in the block if and only if they fit below the stack pointer. -/
theorem pushStrings_inside_iff (ho : o ≤ userStackSize.toNat) (strings : List (List Byte)) :
    ((∀ w ∈ (pushStrings (base + BitVec.ofNat 64 o) strings).writes, w.Inside base) ↔
        stringBytes strings ≤ o) ∧
      (stringBytes strings ≤ o → (pushStrings (base + BitVec.ofNat 64 o) strings).sp =
        base + BitVec.ofNat 64 (o - stringBytes strings)) := by
  induction strings with
  | nil => exact ⟨⟨fun _ => Nat.zero_le o, fun _ w hw => absurd hw List.not_mem_nil⟩, fun _ => rfl⟩
  | cons s rest ih =>
      obtain ⟨hinside, hsp⟩ := ih
      have hbytes : stringBytes (s :: rest) = s.length + 1 + stringBytes rest := List.sum_cons
      have hwrites : (∀ w ∈ (pushStrings (base + BitVec.ofNat 64 o) (s :: rest)).writes,
          w.Inside base) ↔ (∀ w ∈ (pushStrings (base + BitVec.ofNat 64 o) rest).writes,
            w.Inside base) ∧ (StackWrite.bytes ((pushStrings (base + BitVec.ofNat 64 o) rest).sp -
              BitVec.ofNat 64 (s ++ [0]).length) (s ++ [0])).Inside base := by
        rw [pushStrings, List.forall_mem_append, List.forall_mem_singleton, List.length_append]
        rfl
      rw [hwrites, hinside, hbytes]
      by_cases hrest : stringBytes rest ≤ o
      · rw [hsp hrest, bytes_inside_iff (by omega), List.length_append, List.length_singleton]
        refine ⟨by omega, fun hle => ?_⟩
        have hdrop : o - stringBytes rest - (s.length + 1) =
            o - (s.length + 1 + stringBytes rest) := by omega
        rw [pushStrings, hsp hrest, sub_ofNat_eq _ (by omega), hdrop]
      · exact ⟨by omega, fun hle => absurd hle (by omega)⟩

theorem length_addrs (sp : Word) (strings : List (List Byte)) :
    (pushStrings sp strings).addrs.length = strings.length := by
  induction strings with
  | nil => rfl
  | cons s rest ih => rw [pushStrings, List.length_cons, List.length_cons, ih]

/-- `sp &= ~15` above a base that is so aligned. -/
theorem align_eq (hbase : base.toNat % 4096 = 0) (ho : o ≤ userStackSize.toNat) :
    (base + BitVec.ofNat 64 o) &&& ~~~15 = base + BitVec.ofNat 64 (o / 16 * 16) := by
  have hsize := userStackSize_toNat
  apply BitVec.eq_of_toNat_eq
  rw [toNat_and_not_mask (k := 4) (by decide), BitVec.toNat_add, BitVec.toNat_add,
    BitVec.toNat_ofNat, BitVec.toNat_ofNat]
  omega

/-- Behind the base, a stack pointer only comes further down. -/
theorem align_below (hbase : base.toNat % 4096 = 0) {d : ℕ} (hpos : 0 < d) (hd : d ≤ 2 ^ 32) :
    userStackSize.toNat < (((base - BitVec.ofNat 64 d) &&& ~~~15) - base).toNat := by
  have hsize := userStackSize_toNat
  have hlt := base.isLt
  have hsub : (base - BitVec.ofNat 64 d).toNat =
      if d ≤ base.toNat then base.toNat - d else 2 ^ 64 + base.toNat - d := by
    rw [BitVec.toNat_sub, BitVec.toNat_ofNat]
    split_ifs <;> omega
  rw [BitVec.toNat_sub, toNat_and_not_mask (k := 4) (by decide), hsub]
  split_ifs <;> omega

/-- The words of the vector stay in the block if and only if they fit. -/
theorem words_inside_iff (hbase : base.toNat % 4096 = 0) (ho : o ≤ userStackSize.toNat)
    (h16 : o % 16 = 0) {vec : List Word} (hne : vec ≠ []) (hlen : vec.length ≤ 2 ^ 28) :
    (∀ w ∈ vec.zipIdx.map (fun p : Word × ℕ => StackWrite.word
        (((base + BitVec.ofNat 64 o - BitVec.ofNat 64 vec.length * 8) &&& ~~~0xF) +
          BitVec.ofNat 64 p.2 * 8) p.1), w.Inside base) ↔ 8 * vec.length ≤ o := by
  have hsize := userStackSize_toNat
  have hmul : (BitVec.ofNat 64 vec.length * 8 : Word) = BitVec.ofNat 64 (8 * vec.length) := by
    rw [Nat.mul_comm, BitVec.ofNat_mul]
    rfl
  rw [hmul]
  by_cases hroom : 8 * vec.length ≤ o
  · rw [sub_ofNat_eq _ hroom, align_eq hbase (by omega)]
    refine iff_of_true (fun w hw => ?_) hroom
    obtain ⟨⟨v, i⟩, hi, rfl⟩ := List.mem_map.mp hw
    have hlt := (List.mem_zipIdx hi).2.1
    have hoffset : base + BitVec.ofNat 64 ((o - 8 * vec.length) / 16 * 16) +
        BitVec.ofNat 64 i * 8 - base =
          BitVec.ofNat 64 ((o - 8 * vec.length) / 16 * 16) + BitVec.ofNat 64 (i * 8) := by
      rw [BitVec.add_assoc, BitVec.add_comm base, BitVec.add_sub_cancel, BitVec.ofNat_mul i]
      rfl
    change (base + BitVec.ofNat 64 ((o - 8 * vec.length) / 16 * 16) +
      BitVec.ofNat 64 i * 8 - base).toNat + 8 ≤ userStackSize.toNat
    rw [hoffset, BitVec.toNat_add, BitVec.toNat_ofNat, BitVec.toNat_ofNat]
    omega
  · refine iff_of_false (fun hall => ?_) hroom
    obtain ⟨v, rest, rfl⟩ := List.exists_cons_of_ne_nil hne
    have hfirst := hall _ (List.mem_map.mpr ⟨(v, 0), by simp, rfl⟩)
    have hbelow := align_below hbase (d := 8 * (v :: rest).length - o) (by omega) (by omega)
    have hsp : base + BitVec.ofNat 64 o - BitVec.ofNat 64 (8 * (v :: rest).length) =
        base - BitVec.ofNat 64 (8 * (v :: rest).length - o) := by
      obtain ⟨d, hd⟩ := Nat.exists_eq_add_of_lt (not_le.mp hroom)
      rw [hd, Nat.add_assoc, Nat.add_sub_cancel_left, BitVec.ofNat_add o, ← BitVec.sub_sub,
        BitVec.add_sub_cancel]
    rw [hsp] at hfirst
    change (((base - BitVec.ofNat 64 (8 * (v :: rest).length - o)) &&& ~~~15) + 0#64 * 8 -
      base).toNat + 8 ≤ userStackSize.toNat at hfirst
    rw [BitVec.zero_mul, BitVec.add_zero] at hfirst
    omega

end Room

variable {base : Word} {args : ExecArgs} {auxv : ElfAuxvInfo}

theorem length_le_stringBytes (strings : List (List Byte)) :
    strings.length ≤ stringBytes strings := by
  induction strings with
  | nil => exact le_rfl
  | cons s rest ih =>
      have hcons : stringBytes (s :: rest) = s.length + 1 + stringBytes rest := List.sum_cons
      rw [hcons, List.length_cons]
      omega

theorem length_initialVector (argc : ℕ) (argvAddrs envpAddrs : List Word)
    (randomAddr execfnAddr : Word) :
    (initialVector argc argvAddrs envpAddrs (auxWords auxv randomAddr execfnAddr)).length =
      argvAddrs.length + envpAddrs.length + 33 := by
  simp [initialVector, auxWords]
  omega

/-- All stores are inside if and only if the arguments fit. -/
theorem buildStack_inside_iff (hbase : base.toNat % 4096 = 0) :
    (∀ w ∈ (buildStack base args auxv).writes, w.Inside base) ↔ args.Fits := by
  have hsize := userStackSize_toNat
  have htop : base + userStackSize = base + BitVec.ofNat 64 userStackSize.toNat := rfl
  obtain ⟨henvp, henvpSp⟩ := @pushStrings_inside_iff base _ le_rfl args.envp
  have hargc : args.argc ≤ stringBytes args.argvOrDefault := length_le_stringBytes _
  have henvc : args.envc ≤ stringBytes args.envp := length_le_stringBytes _
  rw [ExecArgs.Fits]
  simp only [buildStack, htop, List.forall_mem_append, List.forall_mem_cons]
  rw [henvp]
  by_cases hE : stringBytes args.envp ≤ userStackSize.toNat
  swap
  · exact iff_of_false (fun h => hE h.1.1) (by omega)
  obtain ⟨hargv, hargvSp⟩ := @pushStrings_inside_iff base
    (userStackSize.toNat - stringBytes args.envp) (by omega) args.argvOrDefault
  rw [henvpSp hE, hargv]
  by_cases hA : stringBytes args.argvOrDefault ≤ userStackSize.toNat - stringBytes args.envp
  swap
  · exact iff_of_false (fun h => hA h.1.2) (by omega)
  rw [hargvSp hA, align_eq hbase (by omega)]
  obtain ⟨o, ho⟩ : ∃ o, (userStackSize.toNat - stringBytes args.envp -
    stringBytes args.argvOrDefault) / 16 * 16 = o := ⟨_, rfl⟩
  rw [ho]
  have hrandom := @bytes_inside_iff base o (by omega)
    ((List.range 16).map fun i => BitVec.ofNat 8 (i ^^^ 0x42))
  rw [List.length_map, List.length_range] at hrandom
  rw [show (16 : Word) = BitVec.ofNat 64 16 from rfl, hrandom]
  by_cases h16 : 16 ≤ o
  swap
  · exact iff_of_false (fun h => h16 h.2.1) (by omega)
  rw [sub_ofNat_eq base h16]
  have hargcLen : args.argvOrDefault.length = args.argc := rfl
  have henvcLen : args.envp.length = args.envc := rfl
  rw [words_inside_iff hbase (by omega) (by omega)]
  · rw [length_initialVector, List.length_map, List.length_map, length_addrs, length_addrs]
    omega
  · exact List.cons_ne_nil _ _
  · rw [length_initialVector, List.length_map, List.length_map, length_addrs, length_addrs]
    omega

/-- `elf_prepare` keeps its stores in the block of the stack, and fails where the arguments
do not fit. -/
def StackIsSafe (base : Word) (args : ExecArgs) (auxv : ElfAuxvInfo) : Prop :=
  ∀ granted, (∀ w ∈ (prepareStack granted base args auxv).2, w.Inside base) ∧
    (¬ args.Fits → (prepareStack granted base args auxv).1 ≠ 0)

/-- It does so exactly for arguments that fit. -/
theorem stackIsSafe_iff (hbase : base.toNat % 4096 = 0) :
    StackIsSafe base args auxv ↔ args.Fits := by
  constructor
  · intro hsafe
    exact (buildStack_inside_iff hbase).mp (hsafe ⟨true, true, true⟩).1
  · intro hfits granted
    refine ⟨?_, fun hnot => absurd hfits hnot⟩
    rw [prepareStack]
    split_ifs
    · exact fun w hw => absurd hw List.not_mem_nil
    · exact (buildStack_inside_iff hbase).mpr hfits

/-- A short path. -/
theorem stackIsSafe_iff_sample :
    StackIsSafe 0xffff800000200000 ⟨[defaultArgv0], []⟩ ⟨0, 0, 0, 0, 0, false⟩ ↔
      ExecArgs.Fits ⟨[defaultArgv0], []⟩ :=
  stackIsSafe_iff (by decide)

/-- A path of 8 MiB, which leads to `/init` as well, is stored from below the block on. -/
theorem prepareStack_underflows :
    (prepareStack ⟨true, true, true⟩ 0xffff800000200000
        ⟨[List.replicate 8388608 0x2F ++ defaultArgv0], []⟩ ⟨0, 0, 0, 0, 0, false⟩).1 = 0 ∧
      ∃ w ∈ (prepareStack ⟨true, true, true⟩ 0xffff800000200000
        ⟨[List.replicate 8388608 0x2F ++ defaultArgv0], []⟩ ⟨0, 0, 0, 0, 0, false⟩).2,
        ¬ w.Inside 0xffff800000200000 := by
  refine ⟨rfl, ?_⟩
  have hnot : ¬ ExecArgs.Fits ⟨[List.replicate 8388608 0x2F ++ defaultArgv0], []⟩ := by
    simp only [ExecArgs.Fits, ExecArgs.argvOrDefault, stringBytes, List.cons_ne_nil, if_false,
      List.map_cons, List.map_nil, List.sum_cons, List.sum_nil, List.length_append,
      List.length_replicate, userStackSize_toNat]
    omega
  rw [← @buildStack_inside_iff 0xffff800000200000 _ (⟨0, 0, 0, 0, 0, false⟩) (by decide)] at hnot
  by_contra hnone
  refine hnot fun w hw => ?_
  by_contra hout
  exact hnone ⟨w, hw, hout⟩

end Utopia
