/-
The initial stack of a program read back: what the start code of a program finds there is what
`elf_prepare` was asked to pass on.
-/
import Utopia.Exec.BrkRun
import Utopia.Exec.ElfSpace
import Utopia.Exec.InitialStack
import Utopia.Exec.MmapCall
import Utopia.Lib.Fields
import Utopia.Lib.Texts

namespace Utopia

open Memory

/-! ### The stores -/

namespace StackWrite

def apply (m : Memory) : StackWrite → Memory
  | bytes addr data => m.store addr data
  | word addr value => m.write64 addr value

/-- The store lies between two addresses. -/
def Between (start stop : ℕ) (w : StackWrite) : Prop :=
  start ≤ w.addr.toNat ∧ w.addr.toNat + w.size ≤ stop

theorem apply_eqOn {start stop : ℕ} {w : StackWrite} (m : Memory) (h : w.Between start stop)
    (hfit : stop ≤ 2 ^ 64) : Set.EqOn (w.apply m) m (between start stop)ᶜ := by
  obtain ⟨hlow, hhigh⟩ := h
  have hsub : (between start stop)ᶜ ⊆ (span w.addr w.size)ᶜ := by
    intro x hx hx'
    rw [mem_span] at hx'
    exact hx ⟨by omega, by omega⟩
  cases w with
  | bytes addr data => exact (Memory.store_eqOn m (hhigh.trans hfit)).mono hsub
  | word addr value => exact (Memory.write64_eqOn m value (hhigh.trans hfit)).mono hsub

end StackWrite

/-- Stores one after the other. -/
def applyWrites (m : Memory) (ws : List StackWrite) : Memory := ws.foldl StackWrite.apply m

section Stores

variable {m m' : Memory} {ws vs : List StackWrite} {start stop : ℕ}

theorem applyWrites_append (m : Memory) (ws vs : List StackWrite) :
    applyWrites m (ws ++ vs) = applyWrites (applyWrites m ws) vs := List.foldl_append

theorem applyWrites_eqOn (m : Memory) (h : ∀ w ∈ ws, w.Between start stop)
    (hfit : stop ≤ 2 ^ 64) : Set.EqOn (applyWrites m ws) m (between start stop)ᶜ := by
  induction ws generalizing m with
  | nil => exact Set.eqOn_refl _ _
  | cons w ws ih =>
      rw [List.forall_mem_cons] at h
      exact (ih (w.apply m) h.2).trans (w.apply_eqOn m h.1 hfit)

end Stores

section Strings

variable {base : Word} {o : ℕ} {m m' : Memory} {strings : List (List Byte)}

theorem base_add_toNat (base : Word) (hfit : base.toNat + userStackSize.toNat ≤ 2 ^ 64)
    (ho : o < userStackSize.toNat) : (base + BitVec.ofNat 64 o).toNat = base.toNat + o := by
  rw [BitVec.toNat_add, BitVec.toNat_ofNat]
  omega

theorem pushStrings_sp (base : Word) (ho : o ≤ userStackSize.toNat)
    (hroom : stringBytes strings ≤ o) :
    (pushStrings (base + BitVec.ofNat 64 o) strings).sp =
      base + BitVec.ofNat 64 (o - stringBytes strings) :=
  (pushStrings_inside_iff ho strings).2 hroom

theorem stringBytes_cons (s : List Byte) (rest : List (List Byte)) :
    stringBytes (s :: rest) = s.length + 1 + stringBytes rest := List.sum_cons

/-- The place of the string in front of others. -/
theorem pushStrings_place (base : Word) (ho : o ≤ userStackSize.toNat) {s : List Byte}
    {rest : List (List Byte)} (hroom : stringBytes (s :: rest) ≤ o) :
    (pushStrings (base + BitVec.ofNat 64 o) rest).sp - BitVec.ofNat 64 (s.length + 1) =
      base + BitVec.ofNat 64 (o - stringBytes (s :: rest)) := by
  rw [stringBytes_cons] at hroom ⊢
  have hdrop : o - stringBytes rest - (s.length + 1) =
      o - (s.length + 1 + stringBytes rest) := by omega
  rw [pushStrings_sp base ho (by omega), sub_ofNat_eq _ (by omega), hdrop]

/-- Strings are stored between the two stack pointers. -/
theorem pushStrings_between (hfit : base.toNat + userStackSize.toNat ≤ 2 ^ 64)
    (ho : o ≤ userStackSize.toNat) (hroom : stringBytes strings ≤ o) :
    ∀ w ∈ (pushStrings (base + BitVec.ofNat 64 o) strings).writes,
      w.Between (base.toNat + (o - stringBytes strings)) (base.toNat + o) := by
  induction strings with
  | nil => exact fun w hw => absurd hw List.not_mem_nil
  | cons s rest ih =>
      have hplace := pushStrings_place base ho hroom
      rw [stringBytes_cons] at hroom hplace ⊢
      have hsize := userStackSize_toNat
      have haddr := base_add_toNat base (o := o - (s.length + 1 + stringBytes rest))
        hfit (by omega)
      intro w hw
      rw [pushStrings, List.mem_append, List.mem_singleton] at hw
      rcases hw with hw | rfl
      · obtain ⟨hlow, hhigh⟩ := ih (by omega) w hw
        exact ⟨by omega, hhigh⟩
      · rw [hplace]
        refine ⟨by rw [StackWrite.addr, haddr], ?_⟩
        rw [StackWrite.addr, haddr, StackWrite.size, List.length_append, List.length_singleton]
        omega

/-- A string of the caller, and where the program finds it. -/
structure Passed (m : Memory) (base : Word) (start stop : ℕ) (a : Word) (s : List Byte) :
    Prop where
  place : ∃ o, a = base + BitVec.ofNat 64 o ∧ start ≤ o ∧ o + s.length + 1 ≤ stop
  text : m.HoldsText a s

theorem Passed.mono {start' stop' : ℕ} {a : Word} {s : List Byte}
    (h : Passed m base start stop a s) (hstart : start' ≤ start) (hstop : stop ≤ stop') :
    Passed m base start' stop' a s := by
  obtain ⟨⟨o, ha, hlow, hhigh⟩, htext⟩ := h
  exact ⟨⟨o, ha, by omega, by omega⟩, htext⟩

/-- Each string stands where its address says, as long as nobody writes there. -/
theorem pushStrings_passed (m m' : Memory) (hfit : base.toNat + userStackSize.toNat ≤ 2 ^ 64)
    (ho : o ≤ userStackSize.toNat) (hroom : stringBytes strings ≤ o)
    (hnul : ∀ s ∈ strings, 0 ∉ s)
    (heq : Set.EqOn m' (applyWrites m (pushStrings (base + BitVec.ofNat 64 o) strings).writes)
      (between (base.toNat + (o - stringBytes strings)) (base.toNat + o))) :
    List.Forall₂ (Passed m' base (o - stringBytes strings) o)
      (pushStrings (base + BitVec.ofNat 64 o) strings).addrs strings := by
  induction strings generalizing m' with
  | nil => exact .nil
  | cons s rest ih =>
      have hplace := pushStrings_place base ho hroom
      have hsize := userStackSize_toNat
      rw [List.forall_mem_cons] at hnul
      rw [pushStrings, applyWrites_append] at heq
      rw [pushStrings]
      rw [stringBytes_cons] at hroom hplace heq ⊢
      rw [hplace] at heq ⊢
      have haddr := base_add_toNat base (o := o - (s.length + 1 + stringBytes rest))
        hfit (by omega)
      generalize hp : base + BitVec.ofNat 64 (o - (s.length + 1 + stringBytes rest)) = p at *
      generalize applyWrites m (pushStrings (base + BitVec.ofNat 64 o) rest).writes = m₁ at *
      have hbetween : (StackWrite.bytes p (s ++ [0])).Between
          (base.toNat + (o - (s.length + 1 + stringBytes rest)))
          (base.toNat + (o - stringBytes rest)) := by
        refine ⟨haddr.ge, ?_⟩
        rw [StackWrite.addr, StackWrite.size, List.length_append, List.length_singleton]
        omega
      have hstore := StackWrite.apply_eqOn m₁ hbetween (by omega)
      have hrest : Set.EqOn m' m₁ (between (base.toNat + (o - stringBytes rest))
          (base.toNat + o)) := by
        intro x hx
        have hx' := mem_between.mp hx
        rw [heq ⟨by omega, hx'.2⟩]
        exact hstore fun hbelow => absurd hx'.1 (not_le.mpr (mem_between.mp hbelow).2)
      refine .cons ⟨⟨_, hp.symm, le_rfl, by omega⟩, ?_⟩
        ((ih m' (by omega) hnul.2 hrest).imp fun a s h => h.mono (by omega) le_rfl)
      refine (holdsText_store (m := m₁) hnul.1 (by omega)).congr fun i hi => heq ?_
      have hbyte : (p + BitVec.ofNat 64 i).toNat = p.toNat + i := by
        rw [BitVec.toNat_add, BitVec.toNat_ofNat]
        omega
      rw [mem_between, hbyte]
      omega

end Strings

section Words

variable {m : Memory} {sp : Word} {vec : List Word}

/-- The loop over `vec` stores its words. -/
theorem applyWrites_words (m : Memory) (sp : Word) (vec : List Word) :
    applyWrites m (vec.zipIdx.map fun p => .word (sp + BitVec.ofNat 64 p.2 * 8) p.1) =
      m.fillWords sp vec.length fun i _ => vec.getD i 0 := by
  have hgeneral (vec : List Word) (f : ℕ → Memory → Word)
      (hf : ∀ i < vec.length, ∀ m, f i m = vec.getD i 0) :
      applyWrites m (vec.zipIdx.map fun p => .word (sp + BitVec.ofNat 64 p.2 * 8) p.1) =
        m.fillWords sp vec.length f := by
    induction vec using List.reverseRecOn with
    | nil => rfl
    | append_singleton vec v ih =>
        have hlast := hf vec.length (by simp)
        have hbefore (i : ℕ) (hi : i < vec.length) (m : Memory) : f i m = vec.getD i 0 := by
          rw [hf i (by rw [List.length_append]; omega), List.getD_append _ _ _ _ hi]
        rw [List.getD_append_right _ _ _ _ le_rfl, Nat.sub_self] at hlast
        rw [List.zipIdx_append, List.map_append, applyWrites_append, ih hbefore,
          List.length_append, List.length_singleton, fillWords, hlast, Nat.zero_add,
          BitVec.mul_comm 8]
        rfl
  exact hgeneral vec _ fun _ _ _ => rfl

theorem holdsWords_fillWords (hfit : sp.toNat + 8 * vec.length ≤ 2 ^ 64) :
    (m.fillWords sp vec.length fun i _ => vec.getD i 0).HoldsWords sp vec := by
  refine holdsWords_iff.mpr fun i hi => ?_
  exact read64_fillWords m _ hfit hi

end Words

/-! ### What the program sees -/

/-- The user sees the block of the stack below `userStackTop`. -/
def ViewsStack (user m : Memory) (base : Word) : Prop :=
  ∀ o < userStackSize.toNat,
    user (userStackLow + BitVec.ofNat 64 o) = m (base + BitVec.ofNat 64 o)

theorem stackToUser_eq (base : Word) (o : ℕ) :
    stackToUser (base + userStackSize) (base + BitVec.ofNat 64 o) =
      userStackLow + BitVec.ofNat 64 o := by
  rw [stackToUser, userStackLow]
  grind

theorem user_add_toNat {o : ℕ} (ho : o ≤ userStackSize.toNat) :
    (userStackLow + BitVec.ofNat 64 o).toNat = userStackLow.toNat + o := by
  have hsize := userStackSize_toNat
  have hlow : userStackLow.toNat = 140737479962624 := by decide
  rw [BitVec.toNat_add, BitVec.toNat_ofNat]
  omega

/-! ### The layout -/

namespace ExecArgs

variable (args : ExecArgs)

/-- Where the strings of `envp` begin in the block, and below them those of `argv`, the random
bytes and the vector. -/
def envpStart : ℕ := userStackSize.toNat - stringBytes args.envp

def argvStart : ℕ := args.envpStart - stringBytes args.argvOrDefault

def randomStart : ℕ := args.argvStart / 16 * 16 - 16

def vectorStart : ℕ := (args.randomStart - 8 * (args.argc + args.envc + 33)) / 16 * 16

/-- The pointers of the vectors. -/
def envpAddrs (base : Word) : List Word :=
  (pushStrings (base + BitVec.ofNat 64 userStackSize.toNat) args.envp).addrs.map
    (stackToUser (base + userStackSize))

def argvAddrs (base : Word) : List Word :=
  (pushStrings (base + BitVec.ofNat 64 args.envpStart) args.argvOrDefault).addrs.map
    (stackToUser (base + userStackSize))

/-- `vec`. -/
def vector (base : Word) (auxv : ElfAuxvInfo) : List Word :=
  initialVector args.argc (args.argvAddrs base) (args.envpAddrs base)
    (auxWords auxv (userStackLow + BitVec.ofNat 64 args.randomStart)
      ((args.argvAddrs base).headD 0))

end ExecArgs

/-- What `AT_RANDOM` leads to. -/
def randomBytes : List Byte := (List.range 16).map fun i => BitVec.ofNat 8 (i ^^^ 0x42)

section Layout

variable {base : Word} {args : ExecArgs} {auxv : ElfAuxvInfo} {m user : Memory}

theorem length_argvAddrs (base : Word) (args : ExecArgs) :
    (args.argvAddrs base).length = args.argc := by
  rw [ExecArgs.argvAddrs, List.length_map, length_addrs]
  rfl

theorem length_envpAddrs (base : Word) (args : ExecArgs) :
    (args.envpAddrs base).length = args.envc := by
  rw [ExecArgs.envpAddrs, List.length_map, length_addrs]
  rfl

theorem length_vector (base : Word) (args : ExecArgs) (auxv : ElfAuxvInfo) :
    (args.vector base auxv).length = args.argc + args.envc + 33 := by
  rw [ExecArgs.vector, length_initialVector, length_argvAddrs, length_envpAddrs]

/-- The parts of the block lie one below the other. -/
theorem ExecArgs.Fits.layout (h : args.Fits) :
    stringBytes args.envp ≤ userStackSize.toNat ∧
      stringBytes args.argvOrDefault ≤ args.envpStart ∧
      args.randomStart + 16 ≤ args.argvStart ∧ args.randomStart % 16 = 0 ∧
      args.vectorStart + 8 * (args.argc + args.envc + 33) ≤ args.randomStart ∧
      args.vectorStart % 16 = 0 := by
  rw [Fits] at h
  have hsize := userStackSize_toNat
  rw [vectorStart, randomStart, argvStart, envpStart]
  omega

theorem buildStack_eq (hbase : base.toNat % 4096 = 0) (hfits : args.Fits) :
    buildStack base args auxv =
      { sp := userStackLow + BitVec.ofNat 64 args.vectorStart
        writes := (pushStrings (base + BitVec.ofNat 64 userStackSize.toNat) args.envp).writes ++
          (pushStrings (base + BitVec.ofNat 64 args.envpStart) args.argvOrDefault).writes ++
          .bytes (base + BitVec.ofNat 64 args.randomStart) randomBytes ::
            (args.vector base auxv).zipIdx.map fun p =>
              .word (base + BitVec.ofNat 64 args.vectorStart + BitVec.ofNat 64 p.2 * 8) p.1 } := by
  have hsize := userStackSize_toNat
  obtain ⟨henvp, hargv, hrandom, -, hvector, -⟩ := hfits.layout
  have hargvStart : args.argvStart = args.envpStart - stringBytes args.argvOrDefault := rfl
  have hrandomStart : args.randomStart = args.argvStart / 16 * 16 - 16 := rfl
  have henvpStart : args.envpStart = userStackSize.toNat - stringBytes args.envp := rfl
  have hroom : 8 * (args.argc + args.envc + 33) ≤ args.randomStart :=
    (Nat.le_add_left _ _).trans hvector
  have hbelow : args.randomStart - 8 * (args.argc + args.envc + 33) ≤ userStackSize.toNat :=
    (Nat.sub_le _ _).trans (by omega)
  have htop : base + userStackSize = base + BitVec.ofNat 64 userStackSize.toNat := rfl
  have hsp₁ := pushStrings_sp base le_rfl henvp
  have hsp₂ := pushStrings_sp base (by omega) hargv
  have hrsp : ((base + BitVec.ofNat 64 args.argvStart) &&& ~~~15) - 16 =
      base + BitVec.ofNat 64 args.randomStart := by
    rw [align_eq hbase (by omega), show (16 : Word) = BitVec.ofNat 64 16 from rfl,
      sub_ofNat_eq base (by omega), hrandomStart]
  have hvsp : (base + BitVec.ofNat 64 args.randomStart -
      BitVec.ofNat 64 (args.vector base auxv).length * 8) &&& ~~~0xF =
      base + BitVec.ofNat 64 args.vectorStart := by
    have hmul : (BitVec.ofNat 64 (args.vector base auxv).length * 8 : Word) =
        BitVec.ofNat 64 (8 * (args.argc + args.envc + 33)) := by
      rw [length_vector, Nat.mul_comm, BitVec.ofNat_mul]
      rfl
    rw [hmul, sub_ofNat_eq base hroom]
    exact align_eq hbase hbelow
  rw [buildStack]
  simp only [htop, hsp₁, ← henvpStart, hsp₂, ← hargvStart, hrsp]
  rw [← stackToUser_eq base args.vectorStart, ← hvsp, ExecArgs.vector,
    ← stackToUser_eq base args.randomStart]
  rfl

/-- The block when all stores are made. -/
structure HoldsStack (m : Memory) (base : Word) (args : ExecArgs) (auxv : ElfAuxvInfo) : Prop where
  vector : m.HoldsWords (base + BitVec.ofNat 64 args.vectorStart) (args.vector base auxv)
  random : bytesFrom m (base + BitVec.ofNat 64 args.randomStart) 16 = randomBytes
  argv : List.Forall₂ (Passed m base args.argvStart args.envpStart)
    (pushStrings (base + BitVec.ofNat 64 args.envpStart) args.argvOrDefault).addrs
    args.argvOrDefault
  envp : List.Forall₂ (Passed m base args.envpStart userStackSize.toNat)
    (pushStrings (base + BitVec.ofNat 64 userStackSize.toNat) args.envp).addrs args.envp

theorem holdsStack_buildStack (m : Memory) (auxv : ElfAuxvInfo) (hbase : base.toNat % 4096 = 0)
    (hfit : base.toNat + userStackSize.toNat ≤ 2 ^ 64) (hfits : args.Fits)
    (hargvNul : ∀ s ∈ args.argvOrDefault, 0 ∉ s) (henvpNul : ∀ s ∈ args.envp, 0 ∉ s) :
    HoldsStack (applyWrites m (buildStack base args auxv).writes) base args auxv := by
  have hsize := userStackSize_toNat
  obtain ⟨henvp, hargv, hrandom, -, hvector, -⟩ := hfits.layout
  have hargvStart : args.argvStart = args.envpStart - stringBytes args.argvOrDefault := rfl
  have henvpStart : args.envpStart = userStackSize.toNat - stringBytes args.envp := rfl
  have hlength := length_vector base args auxv
  have hvaddr := base_add_toNat base (o := args.vectorStart) hfit (by omega)
  have hraddr := base_add_toNat base (o := args.randomStart) hfit (by omega)
  have henvpPassed (m' : Memory) := pushStrings_passed m m' hfit le_rfl henvp henvpNul
  rw [← henvpStart] at henvpPassed
  rw [buildStack_eq hbase hfits, applyWrites_append, applyWrites_append]
  generalize applyWrites m
    (pushStrings (base + BitVec.ofNat 64 userStackSize.toNat) args.envp).writes = m₁ at *
  have hargvPassed (m' : Memory) :=
    pushStrings_passed m₁ m' hfit (by omega) hargv hargvNul
  have heq₂ := applyWrites_eqOn m₁ (pushStrings_between hfit (by omega) hargv) (by omega)
  rw [← hargvStart] at hargvPassed heq₂
  generalize applyWrites m₁
    (pushStrings (base + BitVec.ofNat 64 args.envpStart) args.argvOrDefault).writes = m₂ at *
  have hwords : applyWrites m₂ (.bytes (base + BitVec.ofNat 64 args.randomStart) randomBytes ::
      (args.vector base auxv).zipIdx.map fun p =>
        .word (base + BitVec.ofNat 64 args.vectorStart + BitVec.ofNat 64 p.2 * 8) p.1) =
      (m₂.store (base + BitVec.ofNat 64 args.randomStart) randomBytes).fillWords
        (base + BitVec.ofNat 64 args.vectorStart) (args.vector base auxv).length
        fun i _ => (args.vector base auxv).getD i 0 :=
    applyWrites_words _ _ _
  rw [hwords]
  have hrandomLength : randomBytes.length = 16 := rfl
  have hread : bytesFrom (m₂.store (base + BitVec.ofNat 64 args.randomStart) randomBytes)
      (base + BitVec.ofNat 64 args.randomStart) 16 = randomBytes := bytesFrom_store (by decide)
  have heq₃ : Set.EqOn (m₂.store (base + BitVec.ofNat 64 args.randomStart) randomBytes) m₂
      (span (base + BitVec.ofNat 64 args.randomStart) 16)ᶜ :=
    Memory.store_eqOn m₂ (by rw [hrandomLength]; omega)
  generalize m₂.store (base + BitVec.ofNat 64 args.randomStart) randomBytes = m₃ at *
  have hroom : (base + BitVec.ofNat 64 args.vectorStart).toNat +
      8 * (args.vector base auxv).length ≤ 2 ^ 64 := by omega
  have hholds := holdsWords_fillWords (m := m₃) hroom
  have heq₄ := Memory.fillWords_eqOn m₃ (fun i _ => (args.vector base auxv).getD i 0) hroom
  generalize (m₃.fillWords (base + BitVec.ofNat 64 args.vectorStart)
    (args.vector base auxv).length fun i _ => (args.vector base auxv).getD i 0) = m₄ at *
  have hupper {x : Word} (hx : base.toNat + args.argvStart ≤ x.toNat) : m₄ x = m₂ x := by
    rw [heq₄ (fun hx' => by rw [mem_span] at hx'; omega),
      heq₃ (fun hx' => by rw [mem_span] at hx'; omega)]
  refine ⟨hholds, ?_, hargvPassed m₄ fun x hx => hupper hx.1, henvpPassed m₄ fun x hx => ?_⟩
  · rw [← hread]
    refine List.map_congr_left fun i hi => heq₄ fun hx => ?_
    have hi' := List.mem_range.mp hi
    have hbyte : (base + BitVec.ofNat 64 args.randomStart + BitVec.ofNat 64 i).toNat =
        base.toNat + args.randomStart + i := by
      rw [BitVec.toNat_add, BitVec.toNat_ofNat, hraddr]
      omega
    rw [mem_span, hbyte] at hx
    omega
  · have hx' := mem_between.mp hx
    rw [hupper (by omega)]
    exact heq₂ fun hbelow => absurd hx'.1 (not_le.mpr (mem_between.mp hbelow).2)

end Layout

/-! ### The start code of a program -/

/-- What a program is started with. -/
structure ProgramStart where
  argc : Word
  argv : List (List Byte)
  envp : List (List Byte)
  auxv : List (Word × Word)
  random : Option (List Byte)
  execfn : Option (List Byte)
deriving DecidableEq, Repr

/-- The stack pointer leads to `argc` and the vectors behind it, and these to the strings. -/
def readStart (user : Memory) (fuel : ℕ) (sp : Word) : Option ProgramStart := do
  let (argv, a) ← user.readVector fuel (sp + 8)
  let (envp, a) ← user.readVector fuel a
  let auxv ← user.readPairs fuel a
  let argv ← argv.mapM (user.readText fuel)
  let envp ← envp.mapM (user.readText fuel)
  some
    { argc := user.read64 sp
      argv := argv
      envp := envp
      auxv := auxv
      random := (auxv.lookup 25).map fun a => bytesFrom user a 16
      execfn := (auxv.lookup 31).bind (user.readText fuel) }

section View

variable {base : Word} {args : ExecArgs} {auxv : ElfAuxvInfo} {m user : Memory}

theorem ViewsStack.byte (h : ViewsStack user m base) {o i : ℕ} (hi : o + i < userStackSize.toNat) :
    user (userStackLow + BitVec.ofNat 64 o + BitVec.ofNat 64 i) =
      m (base + BitVec.ofNat 64 o + BitVec.ofNat 64 i) := by
  rw [BitVec.add_assoc, BitVec.add_assoc, ← BitVec.ofNat_add]
  exact h (o + i) hi

theorem ViewsStack.read64 (h : ViewsStack user m base) {o : ℕ}
    (ho : o + 8 ≤ userStackSize.toNat) :
    user.read64 (userStackLow + BitVec.ofNat 64 o) = m.read64 (base + BitVec.ofNat 64 o) := by
  have hbyte (i : ℕ) (hi : i < 8) : user.wordByte (userStackLow + BitVec.ofNat 64 o) i =
      m.wordByte (base + BitVec.ofNat 64 o) i := by
    rw [wordByte, wordByte, h.byte (by omega)]
  rw [Memory.read64, Memory.read64, hbyte 0 (by decide), hbyte 1 (by decide), hbyte 2 (by decide),
    hbyte 3 (by decide), hbyte 4 (by decide), hbyte 5 (by decide), hbyte 6 (by decide),
    hbyte 7 (by decide)]

theorem ViewsStack.holdsWords (h : ViewsStack user m base) {o : ℕ} {vs : List Word}
    (ho : o + 8 * vs.length ≤ userStackSize.toNat)
    (hholds : m.HoldsWords (base + BitVec.ofNat 64 o) vs) :
    user.HoldsWords (userStackLow + BitVec.ofNat 64 o) vs := by
  rw [holdsWords_iff] at hholds ⊢
  intro i hi
  have hshift (a : Word) : a + BitVec.ofNat 64 o + 8 * BitVec.ofNat 64 i =
      a + BitVec.ofNat 64 (o + 8 * i) := by
    rw [BitVec.add_assoc, BitVec.ofNat_add, BitVec.ofNat_mul]
    rfl
  rw [hshift, h.read64 (by omega), ← hshift]
  exact hholds i hi

/-- A string is read at its user address, which is not null. -/
theorem Passed.read (hview : ViewsStack user m base) {start stop : ℕ} {a : Word} {s : List Byte}
    (h : Passed m base start stop a s) (hstop : stop ≤ userStackSize.toNat) :
    user.readText userStackSize.toNat (stackToUser (base + userStackSize) a) = some s ∧
      stackToUser (base + userStackSize) a ≠ 0 := by
  obtain ⟨⟨o, rfl, hlow, hhigh⟩, htext⟩ := h
  rw [stackToUser_eq]
  refine ⟨HoldsText.readText ?_ (by omega), fun hzero => ?_⟩
  · exact htext.congr fun i hi => hview.byte (by omega)
  · have haddr := user_add_toNat (o := o) (by omega)
    have hlow : userStackLow.toNat = 140737479962624 := by decide
    rw [hzero] at haddr
    change 0 = _ at haddr
    omega

theorem Passed.reads (hview : ViewsStack user m base) {start stop : ℕ} {addrs : List Word}
    {strings : List (List Byte)} (h : List.Forall₂ (Passed m base start stop) addrs strings)
    (hstop : stop ≤ userStackSize.toNat) :
    (addrs.map (stackToUser (base + userStackSize))).mapM
        (user.readText userStackSize.toNat) = some strings ∧
      0 ∉ addrs.map (stackToUser (base + userStackSize)) := by
  induction h with
  | nil => exact ⟨rfl, List.not_mem_nil⟩
  | cons hfirst hrest ih =>
      obtain ⟨hread, hne⟩ := Passed.read hview hfirst hstop
      rw [List.map_cons, List.mapM_cons, hread, ih.1, List.mem_cons, not_or]
      exact ⟨rfl, Ne.symm hne, ih.2⟩

/-- The first pointer leads to the first string. -/
theorem Passed.readHead (hview : ViewsStack user m base) {start stop : ℕ} {addrs : List Word}
    {strings : List (List Byte)} (h : List.Forall₂ (Passed m base start stop) addrs strings)
    (hstop : stop ≤ userStackSize.toNat) (hne : strings ≠ []) :
    user.readText userStackSize.toNat
      ((addrs.map (stackToUser (base + userStackSize))).headD 0) = strings.head? := by
  cases h with
  | nil => exact absurd rfl hne
  | cons hfirst hrest => exact (Passed.read hview hfirst hstop).1

/-- The auxiliary vector in front of `AT_NULL`. -/
def auxPairs (auxv : ElfAuxvInfo) (randomAddr execfnAddr : Word) : List (Word × Word) :=
  [(3, auxv.atPhdr), (4, auxv.atPhent.setWidth 64), (5, auxv.atPhnum.setWidth 64), (6, 4096),
    (7, if auxv.hasInterp then auxv.atBase else 0), (9, auxv.atEntry), (11, 0), (12, 0), (13, 0),
    (14, 0), (23, 0), (17, 100), (25, randomAddr), (31, execfnAddr)]

theorem vector_eq : args.vector base auxv =
    BitVec.ofNat 64 args.argc :: ((args.argvAddrs base ++ [0]) ++ ((args.envpAddrs base ++ [0]) ++
      ((pairWords (auxPairs auxv (userStackLow + BitVec.ofNat 64 args.randomStart)
        ((args.argvAddrs base).headD 0)) ++ [0]) ++ [0]))) := by
  rw [ExecArgs.vector, initialVector]
  simp [auxWords, auxPairs, pairWords]

theorem argvOrDefault_ne_nil (args : ExecArgs) : args.argvOrDefault ≠ [] := by
  rw [ExecArgs.argvOrDefault]
  split_ifs with hnil
  · exact List.cons_ne_nil _ _
  · exact hnil

theorem ExecArgs.argvOrDefault_noNul (h : ∀ s ∈ args.argv, 0 ∉ s) :
    ∀ s ∈ args.argvOrDefault, 0 ∉ s := by
  rw [argvOrDefault]
  split_ifs with hnil
  · rw [List.forall_mem_singleton]
    decide
  · exact h

/-- The start code finds in the block what was to be passed on. -/
theorem HoldsStack.readStart (h : HoldsStack m base args auxv) (hfits : args.Fits)
    (hview : ViewsStack user m base) :
    readStart user userStackSize.toNat (userStackLow + BitVec.ofNat 64 args.vectorStart) =
      some
        { argc := BitVec.ofNat 64 args.argc
          argv := args.argvOrDefault
          envp := args.envp
          auxv := auxPairs auxv (userStackLow + BitVec.ofNat 64 args.randomStart)
            ((args.argvAddrs base).headD 0)
          random := some randomBytes
          execfn := args.argvOrDefault.head? } := by
  have hsize := userStackSize_toNat
  obtain ⟨henvp, hargv, hrandom, -, hvector, -⟩ := hfits.layout
  have hargvStart : args.argvStart = args.envpStart - stringBytes args.argvOrDefault := rfl
  have henvpStart : args.envpStart = userStackSize.toNat - stringBytes args.envp := rfl
  obtain ⟨hwords, hrandomBytes, hargvPassed, henvpPassed⟩ := h
  obtain ⟨hargvRead, hargvNe⟩ := Passed.reads hview hargvPassed (by omega)
  obtain ⟨henvpRead, henvpNe⟩ := Passed.reads hview henvpPassed le_rfl
  have huser := hview.holdsWords (by rw [length_vector]; omega) hwords
  rw [vector_eq] at huser
  obtain ⟨hargc, hrest⟩ := huser
  obtain ⟨hargvWords, hrest⟩ := holdsWords_append.mp hrest
  obtain ⟨henvpWords, hrest⟩ := holdsWords_append.mp hrest
  obtain ⟨hauxWords, -⟩ := holdsWords_append.mp hrest
  have hexecfn := Passed.readHead hview hargvPassed (by omega) (argvOrDefault_ne_nil args)
  rw [← ExecArgs.argvAddrs] at hargvRead hargvNe hexecfn
  rw [← ExecArgs.envpAddrs] at henvpRead henvpNe
  have hargvLength := length_argvAddrs base args
  have henvpLength := length_envpAddrs base args
  rw [List.length_append, List.length_singleton] at henvpWords hauxWords
  rw [List.length_append, List.length_singleton] at hauxWords
  have hargvVector : user.readVector userStackSize.toNat _ = _ :=
    hargvWords.readVector hargvNe (by omega)
  have henvpVector : user.readVector userStackSize.toNat _ = _ :=
    henvpWords.readVector henvpNe (by omega)
  have hrandomRead : bytesFrom user (userStackLow + BitVec.ofNat 64 args.randomStart) 16 =
      randomBytes := by
    rw [← hrandomBytes]
    refine List.map_congr_left fun i hi => hview.byte ?_
    have hi' := List.mem_range.mp hi
    omega
  generalize (args.argvAddrs base).headD 0 = execfnAddr at *
  have hfuel : (auxPairs auxv (userStackLow + BitVec.ofNat 64 args.randomStart)
      execfnAddr).length < userStackSize.toNat := by
    rw [hsize, auxPairs]
    simp only [List.length_cons, List.length_nil]
    omega
  have hpairs := hauxWords.readPairs (by simp [auxPairs]) hfuel
  have hlookup : (auxPairs auxv (userStackLow + BitVec.ofNat 64 args.randomStart)
      execfnAddr).lookup 25 = some (userStackLow + BitVec.ofNat 64 args.randomStart) := by
    simp [auxPairs, List.lookup_cons]
  have hlookup' : (auxPairs auxv (userStackLow + BitVec.ofNat 64 args.randomStart)
      execfnAddr).lookup 31 = some execfnAddr := by
    simp [auxPairs, List.lookup_cons]
  rw [Utopia.readStart, hargvVector]
  simp only [Option.bind_eq_bind, Option.bind_some]
  rw [henvpVector]
  simp only [Option.bind_some]
  rw [hpairs]
  simp only [Option.bind_some]
  rw [hargvRead, henvpRead]
  simp only [Option.bind_some]
  rw [hlookup, hlookup', Option.map_some, Option.bind_some, hrandomRead, hexecfn, hargc]

end View

/-- A program finds on its stack the arguments and the environment that it was to be given, with
the auxiliary vector of its image: its start code reads back what `elf_prepare` stored, through a
view of the block below `userStackTop`, and its stack pointer is a multiple of 16. -/
theorem initialStack_readStart (base : Word) (args : ExecArgs) (auxv : ElfAuxvInfo)
    (m : Memory) {user : Memory} (hbase : base.toNat % 4096 = 0)
    (hfit : base.toNat + userStackSize.toNat ≤ 2 ^ 64) (hfits : args.Fits)
    (hargv : ∀ s ∈ args.argv, 0 ∉ s) (henvp : ∀ s ∈ args.envp, 0 ∉ s)
    (hview : ViewsStack user (applyWrites m (buildStack base args auxv).writes) base) :
    (buildStack base args auxv).sp.toNat % 16 = 0 ∧
      readStart user userStackSize.toNat (buildStack base args auxv).sp =
        some
          { argc := BitVec.ofNat 64 args.argc
            argv := args.argvOrDefault
            envp := args.envp
            auxv := auxPairs auxv (userStackLow + BitVec.ofNat 64 args.randomStart)
              ((args.argvAddrs base).headD 0)
            random := some randomBytes
            execfn := args.argvOrDefault.head? } := by
  have hholds := holdsStack_buildStack m auxv hbase hfit hfits
    (args.argvOrDefault_noNul hargv) henvp
  have hread := hholds.readStart hfits hview
  have hsp : (buildStack base args auxv).sp = userStackLow + BitVec.ofNat 64 args.vectorStart := by
    rw [buildStack_eq hbase hfits]
  obtain ⟨-, -, hrandom, -, hvector, haligned⟩ := hfits.layout
  have hargvStart : args.argvStart = args.envpStart - stringBytes args.argvOrDefault := rfl
  have henvpStart : args.envpStart = userStackSize.toNat - stringBytes args.envp := rfl
  have hlow : userStackLow.toNat = 140737479962624 := by decide
  rw [hsp]
  refine ⟨?_, hread⟩
  rw [user_add_toNat (by omega), hlow]
  omega

/-! ### Through the page tables -/

namespace Machine

variable {k : Machine} {m : Memory} {table : TableAddr} {s : AddressSpace} {block : Word}
  {flags : VmFlags}

theorem userStackPage_toNat {i : ℕ} (hi : i < userStackPages) :
    (vpn (userStackLow + BitVec.ofNat 64 i * 0x1000)).toNat = userStackLow.toNat / 4096 + i := by
  have hpages : userStackPages = 2048 := by decide
  have hlow : userStackLow.toNat = 140737479962624 := by decide
  have hpage : userStackLow + BitVec.ofNat 64 i * 0x1000 =
      userStackLow + BitVec.ofNat 64 (i * 4096) := by
    rw [BitVec.ofNat_mul]
    rfl
  have hsize := userStackSize_toNat
  rw [vpn_toNat, hpage, user_add_toNat (by omega), hlow]
  omega

/-- The loop that maps the stack maps its page `i` to the page `i` of the block. -/
theorem mapRun_userStack {n i : ℕ} (hn : n ≤ userStackPages) (hi : i < n) (phys : Word) :
    s.mapRun userStackLow phys flags n (vpn (userStackLow + BitVec.ofNat 64 i * 0x1000)) =
      some ⟨phys + BitVec.ofNat 64 i * 0x1000, flags⟩ := by
  induction n with
  | zero => cases hi
  | succ n ih =>
      rw [AddressSpace.mapRun, AddressSpace.map]
      by_cases heq : i = n
      · subst heq
        exact Function.update_self _ _ _
      · have hne : vpn (userStackLow + BitVec.ofNat 64 i * 0x1000) ≠
            vpn (userStackLow + BitVec.ofNat 64 n * 0x1000) := by
          intro hpage
          have hnat := congrArg BitVec.toNat hpage
          rw [userStackPage_toNat (by omega), userStackPage_toNat (by omega)] at hnat
          omega
        rw [Function.update_of_ne hne]
        exact ih (by omega) (by omega)

/-- A program whose stack was mapped to the block sees the block there. -/
theorem viewsStack_of_mapRun (hspace : k.spaceOf m table.addr =
      s.mapRun userStackLow (k.hhdmVirtToPhys block) flags userStackPages) :
    ViewsStack (fun va => (k.userByte m table.addr va).getD 0) m block := by
  intro o ho
  have hpages : userStackPages = 2048 := by decide
  have hsize := userStackSize_toNat
  have hlow : userStackLow.toNat = 140737479962624 := by decide
  have hva := user_add_toNat (o := o) ho.le
  have hpage : vpn (userStackLow + BitVec.ofNat 64 o) =
      vpn (userStackLow + BitVec.ofNat 64 (o / 4096) * 0x1000) := by
    apply BitVec.eq_of_toNat_eq
    rw [userStackPage_toNat (by omega), vpn_toNat, hva]
    omega
  have hoffset : (userStackLow + BitVec.ofNat 64 o) &&& 4095 = BitVec.ofNat 64 (o % 4096) := by
    apply BitVec.eq_of_toNat_eq
    have hlow12 (va : Word) : (va &&& 4095).toNat = va.toNat % 4096 :=
      toNat_and_span va (Nat.zero_le 3)
    rw [hlow12, hva, BitVec.toNat_ofNat]
    omega
  have hsplit : BitVec.ofNat 64 (o / 4096) * 0x1000 + BitVec.ofNat 64 (o % 4096) =
      BitVec.ofNat 64 o := by
    rw [show (0x1000 : Word) = BitVec.ofNat 64 4096 from rfl, ← BitVec.ofNat_mul,
      ← BitVec.ofNat_add]
    congr 1
    omega
  have hphys : k.hhdmVirtToPhys block + BitVec.ofNat 64 (o / 4096) * 0x1000 +
      BitVec.ofNat 64 (o % 4096) = k.hhdmVirtToPhys (block + BitVec.ofNat 64 o) := by
    rw [BitVec.add_assoc, hsplit, hhdmVirtToPhys, hhdmVirtToPhys]
    grind
  change (k.userByte m table.addr (userStackLow + BitVec.ofNat 64 o)).getD 0 = _
  rw [userByte, translate_eq_spaceOf, hspace, hpage, mapRun_userStack le_rfl (by omega),
    Option.map_some, Option.map_some, Option.getD_some, hoffset, hphys]
  change m (k.physToVirt (k.hhdmVirtToPhys (block + BitVec.ofNat 64 o))) = _
  rw [physToVirt_hhdmVirtToPhys]

end Machine

/-- A block as the program sees it. -/
def viewOf (m : Memory) (base : Word) : Memory := fun u => m (base + (u - userStackLow))

theorem viewsStack_viewOf (m : Memory) (base : Word) : ViewsStack (viewOf m base) m base := by
  intro o _
  rw [viewOf, BitVec.add_comm userStackLow, BitVec.add_sub_cancel]

/-- Two arguments and a variable, for an image that is not linked dynamically. -/
def sampleExecArgs : ExecArgs := ⟨[[0x6C, 0x73], [0x2D, 0x6C]], [[0x48, 0x3D, 0x2F]]⟩

def sampleAuxv : ElfAuxvInfo := ⟨0x401000, 0x400040, 56, 2, 0, false⟩

theorem initialStack_readStart_sample :
    readStart (viewOf (applyWrites (fun _ => 0)
        (buildStack 0xffff800000200000 sampleExecArgs sampleAuxv).writes) 0xffff800000200000)
      userStackSize.toNat (buildStack 0xffff800000200000 sampleExecArgs sampleAuxv).sp =
    some
      { argc := 2
        argv := sampleExecArgs.argv
        envp := sampleExecArgs.envp
        auxv := auxPairs sampleAuxv
          (userStackLow + BitVec.ofNat 64 sampleExecArgs.randomStart)
          ((sampleExecArgs.argvAddrs 0xffff800000200000).headD 0)
        random := some randomBytes
        execfn := some [0x6C, 0x73] } :=
  (initialStack_readStart 0xffff800000200000 sampleExecArgs sampleAuxv (fun _ => 0) (by decide)
    (by decide) (by decide) (by decide) (by decide) (viewsStack_viewOf _ _)).2

end Utopia
