/-
`execve` of `exec/syscalls/linux/process.c`: the copies that it makes of its arguments, and the
single exit that frees them.
-/
import Utopia.Exec.ElfLoad
import Utopia.Exec.UserPointers
import Utopia.Lib.Ledger

namespace Utopia

def execMaxArgs : ℕ := 1024
def execMaxPath : ℕ := 4096
def execMaxArgBytes : ℕ := 256 * 1024

def enoent : Word := -2
def e2big : Word := -7
def enoexec : Word := -8
def eacces : Word := -13
def enametoolong : Word := -36

/-- What the call reads of the memory of the user: a pointer, and the text up to a NUL;
nothing if the read does not return. -/
structure UserStrings where
  pointer : Word → Option Word
  text : Word → Option (List Byte)

/-- A string in a block of the heap; without a block, a null pointer. -/
structure HeapString where
  block : Option ℕ
  text : List Byte

/-- A vector of strings, which a null pointer ends. -/
structure StringVec where
  block : ℕ
  strings : List HeapString

/-- The blocks of a vector, in the order in which they are freed. -/
def StringVec.blocks (vec : StringVec) : List ℕ :=
  vec.strings.filterMap HeapString.block ++ [vec.block]

/-- The blocks of a vector that may be null. -/
def vecBlocks (vec : Option StringVec) : List ℕ := (vec.map StringVec.blocks).getD []

/-- What the call reads of a vnode. -/
structure ExecVnode where
  handle : Word
  isDir : Bool
  hasRead : Bool
  size : Word

/-- `create_elf_process_request_t`, as far as `execve` fills it in. -/
structure ElfRequest where
  syscallConv : BitVec 32
  image : ElfFile
  argv : List (List Byte)
  envp : Option (List (List Byte))

/-- `elf_prepared_t`. -/
structure ElfPrepared where
  l4 : Word
  entry : Word
  sp : Word
  brkStart : Word
  stack : Option ThreadStack
  pages : PageList

/-- The process and the thread that call, and the frame of the call. -/
structure ExecCaller where
  process : ProcessObject
  thread : ThreadObject
  frame : Registers

/-- The kernel around the call, with its state in `σ`; a call into it that does not return
has no result. -/
structure ExecKernel (σ : Type) where
  arch : Arch
  /-- What lies in a new block. -/
  heapBytes : σ → Word → Byte
  lookup : (path : List Byte) → σ → Option (Option ExecVnode × σ)
  /-- A read of `size` bytes from `offset` on, to the same place of the image. -/
  read : (node size offset : Word) → (image : Word → Byte) → σ →
    Option ((BitVec 32 × Word × (Word → Byte)) × σ)
  elfPrepare : ElfRequest → σ → Option ((BitVec 32 × ElfPrepared) × σ)
  /-- The frees of `process_replace`. -/
  dropSpace : (pageTable : Word) → (pages : PageList) → (stack : Option ThreadStack) → σ → σ

structure ExecWorld (σ : Type) where
  files : σ
  caller : Option ExecCaller

section Execve

variable {σ : Type} (kernel : ExecKernel σ) (user : UserStrings)

/-- A call into the kernel around. -/
def callKernel {α : Type} (call : σ → Option (α × σ)) : Charging (ExecWorld σ) α :=
  unrecorded fun w => (call w.files).map fun (a, files) => (a, { w with files := files })

/-- A read of the memory of the user. -/
def readUser {α : Type} (value : Option α) : Charging (ExecWorld σ) α :=
  unrecorded fun w => value.map fun a => (a, w)

/-! ### The vectors -/

/-- `exec_free_strvec`, for as many strings as were copied. -/
def execFreeStrvec : Option StringVec → Charging (ExecWorld σ) Unit
  | none => return
  | some vec => do
      vec.strings.forM fun s => release s.block
      release (some vec.block)

/-- The loop that counts the strings; no count if there are more than `left` to come. -/
def countStrings (userVec : Word) : (left count : ℕ) → Charging (ExecWorld σ) (Option ℕ)
  | left, count => do
      let p ← readUser (user.pointer (userVec + 8 * BitVec.ofNat 64 count))
      if p = 0 then return some count
      match left with
      | 0 => return none
      | left + 1 => countStrings userVec left (count + 1)

/-- What `exec_copy_strvec` leaves: its return value, the vector, and the rest of the budget. -/
structure CopiedVec where
  err : Word
  vec : Option StringVec
  budget : ℕ

/-- The loop that copies the strings, of which `strings` are copied already. -/
def copyStrings (userVec : Word) (vec : ℕ) : (left : ℕ) → (strings : List HeapString) →
    (budget : ℕ) → Charging (ExecWorld σ) CopiedVec
  | 0, strings, budget => return ⟨0, some ⟨vec, strings⟩, budget⟩
  | left + 1, strings, budget => do
      let src ← readUser (user.pointer (userVec + 8 * BitVec.ofNat 64 strings.length))
      if userVaLimit ≤ src then
        execFreeStrvec (some ⟨vec, strings⟩)
        return ⟨efault, none, budget⟩
      let text ← readUser (user.text src)
      let len := text.length + 1
      if budget < len then
        execFreeStrvec (some ⟨vec, strings⟩)
        return ⟨e2big, none, budget⟩
      let budget := budget - len
      match ← request with
      | none =>
          execFreeStrvec (some ⟨vec, strings⟩)
          return ⟨enomem, none, budget⟩
      | some block => copyStrings userVec vec left (strings ++ [⟨some block, text⟩]) budget

/-- `exec_copy_strvec`. -/
def execCopyStrvec (userVec : Word) (budget : ℕ) : Charging (ExecWorld σ) CopiedVec := do
  if userVec = 0 then return ⟨0, none, budget⟩
  if userVaLimit ≤ userVec then return ⟨efault, none, budget⟩
  match ← countStrings user userVec execMaxArgs 0 with
  | none => return ⟨e2big, none, budget⟩
  | some count =>
      match ← request with
      | none => return ⟨enomem, none, budget⟩
      | some vec => copyStrings user userVec vec count [] budget

/-! ### The call -/

/-- `argv[0] = NULL` where it is the copy of the path. -/
def dropPath (path : ℕ) : Option StringVec → Option StringVec
  | some ⟨vec, [s]⟩ => some ⟨vec, if s.block = some path then [⟨none, []⟩] else [s]⟩
  | argv => argv

/-- From the label `out` on. -/
def execveOut (path : ℕ) (argv envp : Option StringVec) (image : Option ℕ) (err : Word) :
    Charging (ExecWorld σ) Word := do
  execFreeStrvec (dropPath path argv)
  execFreeStrvec envp
  release image
  release (some path)
  return err

/-- The loop that reads the file. -/
def readImage (node size : Word) : (fuel : ℕ) → (total : Word) → (image : Word → Byte) →
    Charging (ExecWorld σ) (Word × (Word → Byte))
  | 0, _, _ => throw ()
  | fuel + 1, total, image =>
      if total < size then do
        let (status, got, image) ← callKernel (kernel.read node (size - total) total image)
        if status ≠ 0 ∨ got = 0 then return (total, image)
        readImage node size fuel (total + got) image
      else return (total, image)

/-- The loop that looks for the last component of the path. -/
def baseFrom (base : List Byte) : List Byte → List Byte
  | [] => base
  | c :: rest => baseFrom (if c = 0x2f ∧ rest ≠ [] then rest else base) rest

/-- `proc->name` after the copy of `name`. -/
def copyName (old name : List Byte) : List Byte :=
  name.take 31 ++ 0 :: old.drop (min 31 name.length + 1)

/-- The frame in which the new program starts. -/
def Registers.entered (entry sp : Word) : Registers → Registers
  | .x86_64 _ => .x86_64 ⟨0, fun _ => 0, 0, 0, entry, 0x1b, 0x202, sp, 0x23⟩
  | .riscv64 regs =>
      .riscv64 ⟨fun i => if i.val = 2 then sp else 0, regs.scause, 0, entry - 4, regs.sstatus⟩

/-- `process_replace`. -/
def processReplace (prepared : ElfPrepared) (name : List Byte) : Charging (ExecWorld σ) Unit :=
  modify fun (l, w) => (l, match w.caller with
    | none => w
    | some caller =>
        { files := kernel.dropSpace caller.process.pageTable caller.process.ownedPages
            caller.thread.main w.files
          caller := some
            { process := { caller.process with
                pageTable := prepared.l4
                ownedPages := prepared.pages
                brkStart := prepared.brkStart
                brkCurrent := prepared.brkStart
                mmapStart := 0x400000000000
                mmapCurrent := 0x400000000000
                name := copyName caller.process.name name }
              thread := { caller.thread with main := prepared.stack, fsBase := 0 }
              frame := caller.frame.entered prepared.entry prepared.sp } })

/-- The texts of a vector. -/
def StringVec.texts (vec : StringVec) : List (List Byte) := vec.strings.map HeapString.text

/-- The call behind the copies of its arguments. -/
def execveWith (fuel : ℕ) (conv : BitVec 32) (path : ℕ) (pathText : List Byte)
    (argv envp : Option StringVec) : Charging (ExecWorld σ) Word := do
  match ← callKernel (kernel.lookup pathText) with
  | none => execveOut path argv envp none enoent
  | some node =>
      if node.isDir then execveOut path argv envp none eacces
      else if !node.hasRead then execveOut path argv envp none enoexec
      else if node.size < 4 then execveOut path argv envp none enoexec
      else
        match ← request with
        | none => execveOut path argv envp none enomem
        | some image => do
            let bytes ← callKernel fun files => some (kernel.heapBytes files, files)
            let (total, bytes) ← readImage kernel node.handle node.size fuel 0 bytes
            if total ≠ node.size then execveOut path argv envp (some image) enoexec
            else do
              let (status, prepared) ← callKernel (kernel.elfPrepare
                ⟨conv, ⟨bytes, node.size⟩, (argv.map StringVec.texts).getD [],
                  envp.map StringVec.texts⟩)
              if status ≠ 0 then execveOut path argv envp (some image) enoexec
              else do
                processReplace kernel prepared (baseFrom pathText pathText)
                execveOut path argv envp (some image) 0

/-- The call for an `argv` without strings: the path takes its place. -/
def execveDefault (fuel : ℕ) (conv : BitVec 32) (path : ℕ) (pathText : List Byte)
    (envp : Option StringVec) : Charging (ExecWorld σ) Word := do
  match ← request with
  | none => execveOut path none envp none enomem
  | some vec =>
      execveWith kernel fuel conv path pathText (some ⟨vec, [⟨some path, pathText⟩]⟩) envp

/-- The call once the path and `argv` are copied. -/
def execveEnvp (fuel : ℕ) (conv : BitVec 32) (userEnvp : Word) (path : ℕ) (pathText : List Byte)
    (argv : CopiedVec) : Charging (ExecWorld σ) Word := do
  let envp ← execCopyStrvec user userEnvp argv.budget
  if envp.err ≠ 0 then execveOut path argv.vec envp.vec none envp.err
  else if (argv.vec.map StringVec.texts).getD [] = [] then
    execveDefault kernel fuel conv path pathText envp.vec
  else execveWith kernel fuel conv path pathText argv.vec envp.vec

/-- The call once the path is copied. -/
def execveArgv (fuel : ℕ) (conv : BitVec 32) (userArgv userEnvp : Word) (path : ℕ)
    (pathText : List Byte) : Charging (ExecWorld σ) Word := do
  let argv ← execCopyStrvec user userArgv execMaxArgBytes
  if argv.err ≠ 0 then execveOut path argv.vec none none argv.err
  else execveEnvp kernel user fuel conv userEnvp path pathText argv

/-- The call behind the check of its caller. -/
def execvePath (fuel : ℕ) (conv : BitVec 32) (regs : SyscallRegs) :
    Charging (ExecWorld σ) Word := do
  if regs.arg1 = 0 ∨ userVaLimit ≤ regs.arg1 then return efault
  else do
    let text ← readUser (user.text regs.arg1)
    if execMaxPath < text.length + 1 then return enametoolong
    else
      match ← request with
      | none => return enomem
      | some path => execveArgv kernel user fuel conv regs.arg2 regs.arg3 path text

/-- `execve`. -/
def syscallExecve (fuel : ℕ) (regs : SyscallRegs) : Charging (ExecWorld σ) Word := do
  match (← get).2.caller with
  | none => return einval
  | some caller => execvePath kernel user fuel caller.process.syscallConv regs

end Execve

end Utopia
