/-
The indices at which the handlers evaluate the descriptor table.
-/
import Utopia.Exec.FileSyscalls
import Utopia.Exec.MemoryCalls

namespace Utopia

/-- The entries of the table that work on descriptors. -/
inductive FileCall where
  | read
  | pread64
  | write
  | writev
  | lseek
  | pselect6
  | fstat
  | open
  | close
  | openat
  | poll
  | getdents64
  | mmap
deriving DecidableEq, Repr

/-- `syscall_linux_table`, as far as its handlers work on descriptors. -/
def syscallLinuxTable : Arch → Nat → Option FileCall
  | .x86_64, 0 => some .read
  | .x86_64, 1 => some .write
  | .x86_64, 2 => some .open
  | .x86_64, 3 => some .close
  | .x86_64, 5 => some .fstat
  | .x86_64, 7 => some .poll
  | .x86_64, 8 => some .lseek
  | .x86_64, 9 => some .mmap
  | .x86_64, 17 => some .pread64
  | .x86_64, 20 => some .writev
  | .x86_64, 217 => some .getdents64
  | .x86_64, 257 => some .openat
  | .x86_64, 270 => some .pselect6
  | .x86_64, _ => none
  | .riscv64, 56 => some .openat
  | .riscv64, 57 => some .close
  | .riscv64, 61 => some .getdents64
  | .riscv64, 62 => some .lseek
  | .riscv64, 63 => some .read
  | .riscv64, 64 => some .write
  | .riscv64, 66 => some .writev
  | .riscv64, 67 => some .pread64
  | .riscv64, 72 => some .pselect6
  | .riscv64, 80 => some .fstat
  | .riscv64, 222 => some .mmap
  | .riscv64, _ => none

section Handlers

variable {σ : Type} (kernel : FileKernel σ)

def FileCall.handler (regs : SyscallRegs) : FileCall → Handler σ Word
  | .read => syscallRead kernel regs
  | .pread64 => syscallPread64 kernel regs
  | .write => syscallWrite kernel regs
  | .writev => syscallWritev kernel regs
  | .lseek => syscallLseek kernel regs
  | .pselect6 => syscallPselect6 kernel regs
  | .fstat => syscallFstat kernel regs
  | .open => syscallOpen kernel regs
  | .close => syscallClose regs
  | .openat => syscallOpenat kernel regs
  | .poll => syscallPoll kernel regs
  | .getdents64 => syscallGetdents64 kernel regs
  | .mmap => syscallMmapFd kernel regs

/-- The call of the table entry in `syscall_handler`. -/
def syscallHandler (regs : SyscallRegs) : Handler σ Word :=
  match syscallLinuxTable kernel.machine.arch regs.syscallNo.toNat with
  | some call => call.handler kernel regs
  | none => external (kernel.otherCall regs)

/-- The indices at which a run from `w` evaluates the table. -/
def evaluated {α : Type} (x : Handler σ α) (w : FileWorld σ) : List ℤ :=
  (finalState (x { w with touched := [] })).touched

end Handlers

/-- An index of the table. -/
def InTable (fd : ℤ) : Prop := 0 ≤ fd ∧ fd < maxFilesPerProcess

instance (fd : ℤ) : Decidable (InTable fd) := inferInstanceAs (Decidable (_ ∧ _))

/-- What has to hold of the arguments of a call for its evaluations to stay inside
the table: `read` and `getdents64` evaluate it unchecked, and `mmap` checks one end
only. -/
def FileCall.Checked (regs : SyscallRegs) : FileCall → Prop
  | .read => InTable (toInt32 regs.arg1)
  | .getdents64 => regs.arg2 = 0 ∨ regs.arg3 = 0 ∨ InTable (toInt32 regs.arg1)
  | .mmap => regs.arg2 = 0 ∨ hasBits regs.arg4 mapAnonymous = true ∨
      regs.arg5.toInt < maxFilesPerProcess
  | _ => True

/-- An invariant that depends on the evaluated indices alone and allows those of `P`. -/
structure Watches {σ : Type} (Inv : FileWorld σ → Prop) (P : ℤ → Prop) : Prop where
  same : ∀ {w w' : FileWorld σ}, w'.touched = w.touched → Inv w → Inv w'
  step : ∀ {w w' : FileWorld σ} {fd : ℤ}, P fd → w'.touched = fd :: w.touched → Inv w → Inv w'

/-- Every index so far is in `P`. -/
def TouchedIn {σ : Type} (P : ℤ → Prop) (w : FileWorld σ) : Prop := ∀ fd ∈ w.touched, P fd

/-- The index has been evaluated. -/
def Touched {σ : Type} (fd : ℤ) (w : FileWorld σ) : Prop := fd ∈ w.touched

section Watches

variable {σ : Type} {P : ℤ → Prop}

theorem touchedIn_watches : Watches (σ := σ) (TouchedIn P) P where
  same heq hw := by rwa [TouchedIn, heq]
  step hfd heq hw := by
    rw [TouchedIn, heq, List.forall_mem_cons]
    exact ⟨hfd, hw⟩

theorem touched_watches (fd : ℤ) : Watches (σ := σ) (Touched fd) P where
  same heq hw := by rwa [Touched, heq]
  step _ heq hw := by
    rw [Touched, heq]
    exact List.mem_cons_of_mem _ hw

end Watches

section Primitives

variable {σ : Type} {kernel : FileKernel σ} {Inv : FileWorld σ → Prop} {P : ℤ → Prop}
  (hinv : Watches Inv P)

include hinv

theorem desc_keeps {fd : ℤ} (hfd : P fd) : Keeps Inv (desc fd) fun _ => True :=
  Keeps.bind (Keeps.modify fun _ hw => hinv.step hfd rfl hw) fun _ _ =>
    Keeps.bind Keeps.get fun _ _ => Keeps.pure trivial

theorem setDesc_keeps {fd : ℤ} {f : FileDesc → FileDesc} (hfd : P fd) :
    Keeps Inv (setDesc fd f) fun _ => True :=
  Keeps.modify fun _ hw => hinv.step hfd rfl hw

theorem external_keeps {α : Type} (effect : Effect σ α) :
    Keeps Inv (external effect) fun _ => True := by
  refine Keeps.bind Keeps.get fun w _ => ?_
  cases effect w.mem w.files with
  | none => exact Keeps.throw
  | some result =>
      exact Keeps.bind (Keeps.modify fun w hw => hinv.same (w := w) rfl hw) fun _ _ => Keeps.pure trivial

omit hinv in
theorem load_keeps (a : Word) (n : Nat) : Keeps Inv (load kernel a n) fun _ => True := by
  refine Keeps.bind Keeps.get fun w _ => ?_
  exact Keeps.ite (fun _ => Keeps.pure trivial) fun _ => Keeps.throw

theorem change_keeps (a : Word) (n : Nat) (f : Memory → Memory) :
    Keeps Inv (change kernel a n f) fun _ => True := by
  refine Keeps.bind Keeps.get fun w _ => ?_
  exact Keeps.ite (fun _ => Keeps.modify fun w hw => hinv.same (w := w) rfl hw) fun _ => Keeps.throw

theorem store_keeps (a : Word) (n : Nat) (v : Word) :
    Keeps Inv (store kernel a n v) fun _ => True :=
  change_keeps hinv a n _

omit hinv in
theorem vnodeField_keeps {α : Type} (field : σ → Word → α) (vnode : Word) :
    Keeps Inv (vnodeField field vnode) fun _ => True :=
  Keeps.bind Keeps.get fun _ _ => Keeps.pure trivial

end Primitives

/-- The check that the handlers share. -/
theorem inTable_of_not {fd : ℤ} (h : ¬ (fd < 0 ∨ maxFilesPerProcess ≤ fd)) : InTable fd := by
  rw [InTable]
  omega

section Handlers

variable {σ : Type} {kernel : FileKernel σ} {regs : SyscallRegs} {Inv : FileWorld σ → Prop}
  (hinv : Watches Inv InTable)

include hinv

theorem doRead_keeps (fd : ℤ) (buf count offset : Word) (updateOffset : Bool) :
    Keeps Inv (doRead kernel fd buf count offset updateOffset) fun _ => True := by
  rw [doRead]
  refine Keeps.guard trivial fun hcheck => ?_
  have hfd := inTable_of_not hcheck
  refine Keeps.bind (desc_keeps hinv hfd) fun d _ => ?_
  refine Keeps.guard trivial fun _ => ?_
  refine Keeps.ite (fun _ => ?_) fun _ => ?_
  · exact Keeps.bind (external_keeps hinv _) fun _ _ => Keeps.pure trivial
  refine Keeps.bind (desc_keeps hinv hfd) fun d _ => ?_
  refine Keeps.guard trivial fun _ => ?_
  refine Keeps.bind (vnodeField_keeps _ _) fun _ _ => ?_
  refine Keeps.guard trivial fun _ => ?_
  refine Keeps.bind (vnodeField_keeps _ _) fun _ _ => ?_
  refine Keeps.guard trivial fun _ => ?_
  refine Keeps.bind (external_keeps hinv _) fun result _ => ?_
  refine Keeps.guard trivial fun _ => ?_
  refine Keeps.ite (fun _ => ?_) fun _ => Keeps.pure trivial
  exact Keeps.bind (setDesc_keeps hinv hfd) fun _ _ => Keeps.pure trivial

omit hinv in
/-- On a descriptor of the table, `do_write` evaluates it first, and what follows stays
inside the table. -/
theorem doWrite_inTable (data len : Word) {fd : ℤ} (hfd : InTable fd) :
    ∃ rest : FileDesc → Handler σ Word, doWrite kernel data len fd = desc fd >>= rest ∧
      ∀ Inv : FileWorld σ → Prop, Watches Inv InTable → ∀ d, Keeps Inv (rest d) fun _ => True := by
  have hcheck : ¬ (fd < 0 ∨ maxFilesPerProcess ≤ fd) := by
    rw [InTable] at hfd
    omega
  rw [doWrite, if_neg hcheck]
  refine ⟨_, rfl, fun Inv hinv d => ?_⟩
  refine Keeps.guard trivial fun _ => ?_
  refine Keeps.ite (fun _ => ?_) fun _ => ?_
  · exact Keeps.bind (external_keeps hinv _) fun _ _ => Keeps.pure trivial
  refine Keeps.bind (desc_keeps hinv hfd) fun d _ => ?_
  refine Keeps.guard trivial fun _ => ?_
  refine Keeps.bind (vnodeField_keeps _ _) fun _ _ => ?_
  refine Keeps.guard trivial fun _ => ?_
  refine Keeps.bind (vnodeField_keeps _ _) fun _ _ => ?_
  refine Keeps.guard trivial fun _ => ?_
  refine Keeps.bind (desc_keeps hinv hfd) fun d _ => ?_
  refine Keeps.bind (external_keeps hinv _) fun result _ => ?_
  refine Keeps.guard trivial fun _ => ?_
  exact Keeps.bind (setDesc_keeps hinv hfd) fun _ _ => Keeps.pure trivial

theorem doWrite_keeps (data len : Word) (fd : ℤ) :
    Keeps Inv (doWrite kernel data len fd) fun _ => True := by
  by_cases hcheck : fd < 0 ∨ maxFilesPerProcess ≤ fd
  · rw [doWrite, if_pos hcheck]
    exact Keeps.pure trivial
  · have hfd := inTable_of_not hcheck
    obtain ⟨rest, heq, hrest⟩ : ∃ rest : FileDesc → Handler σ Word,
        doWrite kernel data len fd = desc fd >>= rest ∧
          ∀ Inv : FileWorld σ → Prop, Watches Inv InTable →
            ∀ d, Keeps Inv (rest d) fun _ => True := doWrite_inTable data len hfd
    rw [heq]
    exact Keeps.bind (desc_keeps hinv hfd) fun d _ => hrest Inv hinv d

theorem writevLoop_keeps (fd : ℤ) (left : Nat) (iov total : Word) :
    Keeps Inv (writevLoop kernel fd left iov total) fun _ => True := by
  induction left generalizing iov total with
  | zero => exact Keeps.pure trivial
  | succ left ih =>
      rw [writevLoop]
      refine Keeps.bind (load_keeps _ _) fun base _ => ?_
      refine Keeps.bind (load_keeps _ _) fun len _ => ?_
      refine Keeps.bind (doWrite_keeps hinv _ _ _) fun ret _ => ?_
      refine Keeps.guard trivial fun _ => ?_
      refine Keeps.bind (load_keeps _ _) fun len _ => ?_
      exact Keeps.guard trivial fun _ => ih _ _

theorem syscallLseek_keeps : Keeps Inv (syscallLseek kernel regs) fun _ => True := by
  rw [syscallLseek]
  refine Keeps.guard trivial fun hcheck => ?_
  have hfd := inTable_of_not hcheck
  refine Keeps.bind (desc_keeps hinv hfd) fun d _ => ?_
  refine Keeps.guard trivial fun _ => ?_
  refine Keeps.bind (desc_keeps hinv hfd) fun d _ => ?_
  refine Keeps.guard trivial fun _ => ?_
  have hfinish : ∀ offset : Word, Keeps Inv (do
      if offset.slt 0 then return einval
      setDesc (toInt32 regs.arg1) fun d => { d with offset := offset }
      return offset : Handler σ Word) fun _ => True := fun offset =>
    Keeps.guard trivial fun _ =>
      Keeps.bind (setDesc_keeps hinv hfd) fun _ _ => Keeps.pure trivial
  split
  · exact hfinish _
  · exact Keeps.bind (desc_keeps hinv hfd) fun d _ => hfinish _
  · exact Keeps.bind (vnodeField_keeps _ _) fun size _ => hfinish _
  · exact Keeps.pure trivial

theorem pselectRound_keeps (readfds writefds : Word) (r : Ready) {fd : Nat} (hfd : InTable fd) :
    Keeps Inv (pselectRound readfds writefds r fd) fun _ => True := by
  rw [pselectRound]
  refine Keeps.bind (desc_keeps hinv hfd) fun d _ => ?_
  exact Keeps.ite (fun _ => Keeps.pure trivial) fun _ => Keeps.pure trivial

omit hinv in
theorem loadSet_keeps (p : Word) : Keeps Inv (loadSet kernel p) fun _ => True :=
  Keeps.ite (fun _ => load_keeps _ _) fun _ => Keeps.pure trivial

theorem storeSet_keeps (p v : Word) : Keeps Inv (storeSet kernel p v) fun _ => True :=
  Keeps.ite (fun _ => store_keeps hinv _ _ _) fun _ => Keeps.pure trivial

theorem syscallPselect6_keeps : Keeps Inv (syscallPselect6 kernel regs) fun _ => True := by
  rw [syscallPselect6]
  refine Keeps.guard trivial fun hcheck => ?_
  refine Keeps.bind (loadSet_keeps _) fun readfds _ => ?_
  refine Keeps.bind (loadSet_keeps _) fun writefds _ => ?_
  have hround : ∀ r : Ready, ∀ fd ∈ List.range (toInt32 regs.arg1).toNat,
      Keeps Inv (pselectRound readfds writefds r fd) fun _ => True := by
    intro r fd hfd
    apply pselectRound_keeps hinv
    rw [List.mem_range] at hfd
    rw [InTable]
    omega
  refine Keeps.bind (Keeps.foldlM trivial fun r _ => hround r) fun ready _ => ?_
  refine Keeps.bind (storeSet_keeps hinv _ _) fun _ _ => ?_
  refine Keeps.bind (storeSet_keeps hinv _ _) fun _ _ => ?_
  exact Keeps.bind (storeSet_keeps hinv _ _) fun _ _ => Keeps.pure trivial

theorem syscallFstat_keeps : Keeps Inv (syscallFstat kernel regs) fun _ => True := by
  rw [syscallFstat]
  refine Keeps.guard trivial fun _ => ?_
  refine Keeps.guard trivial fun hcheck => ?_
  have hfd := inTable_of_not hcheck
  refine Keeps.bind (desc_keeps hinv hfd) fun d _ => ?_
  refine Keeps.guard trivial fun _ => ?_
  refine Keeps.bind (change_keeps hinv _ _ _) fun _ _ => ?_
  refine Keeps.ite (fun _ => ?_) fun _ => ?_
  · refine Keeps.bind (store_keeps hinv _ _ _) fun _ _ => ?_
    exact Keeps.bind (store_keeps hinv _ _ _) fun _ _ => Keeps.pure trivial
  refine Keeps.bind (desc_keeps hinv hfd) fun d _ => ?_
  refine Keeps.guard trivial fun _ => ?_
  refine Keeps.bind (vnodeField_keeps _ _) fun size _ => ?_
  refine Keeps.bind (store_keeps hinv _ _ _) fun _ _ => ?_
  refine Keeps.bind (store_keeps hinv _ _ _) fun _ _ => ?_
  refine Keeps.bind (store_keeps hinv _ _ _) fun _ _ => ?_
  refine Keeps.bind (store_keeps hinv _ _ _) fun _ _ => ?_
  refine Keeps.bind (store_keeps hinv _ _ _) fun _ _ => ?_
  refine Keeps.bind (vnodeField_keeps _ _) fun size _ => ?_
  exact Keeps.bind (store_keeps hinv _ _ _) fun _ _ => Keeps.pure trivial

theorem freeDescriptor_keeps {left : Nat} {fd : ℤ} (hfd : 0 ≤ fd)
    (hend : fd + left ≤ maxFilesPerProcess) :
    Keeps Inv (freeDescriptor left fd) fun found => ∀ fd ∈ found, InTable fd := by
  induction left generalizing fd with
  | zero => exact Keeps.pure (by simp)
  | succ left ih =>
      have hin : InTable fd := by
        rw [InTable]
        omega
      rw [freeDescriptor]
      refine Keeps.bind (desc_keeps hinv hin) fun d _ => ?_
      refine Keeps.guard (by simpa using hin) fun _ => ?_
      exact ih (by omega) (by omega)

theorem openPath_keeps (path : Word) (flags : BitVec 32) :
    Keeps Inv (openPath kernel path flags) fun _ => True := by
  rw [openPath]
  refine Keeps.guard trivial fun _ => ?_
  refine Keeps.bind (freeDescriptor_keeps hinv (by decide) (by decide)) fun found hfound => ?_
  cases found with
  | none => exact Keeps.pure trivial
  | some fd =>
      refine Keeps.bind (external_keeps hinv _) fun result _ => ?_
      refine Keeps.guard trivial fun _ => ?_
      refine Keeps.bind (vnodeField_keeps _ _) fun size _ => ?_
      exact Keeps.bind (setDesc_keeps hinv (hfound fd rfl)) fun _ _ => Keeps.pure trivial

theorem syscallClose_keeps : Keeps Inv (syscallClose regs) fun _ => True := by
  rw [syscallClose]
  refine Keeps.guard trivial fun hcheck => ?_
  have hfd := inTable_of_not hcheck
  refine Keeps.bind (desc_keeps hinv hfd) fun d _ => ?_
  refine Keeps.guard trivial fun _ => ?_
  exact Keeps.bind (setDesc_keeps hinv hfd) fun _ _ => Keeps.pure trivial

theorem reportEvents_keeps (entry bits : Word) :
    Keeps Inv (reportEvents kernel entry bits) fun _ => True :=
  Keeps.bind (load_keeps _ _) fun _ _ => store_keeps hinv _ _ _

theorem pollReadable_keeps (entry events : Word) {fd : ℤ} (hfd : InTable fd) :
    Keeps Inv (pollReadable kernel entry events fd) fun _ => True := by
  rw [pollReadable]
  refine Keeps.guard trivial fun _ => ?_
  refine Keeps.ite (fun _ => reportEvents_keeps hinv _ _) fun _ => ?_
  refine Keeps.bind (desc_keeps hinv hfd) fun d _ => ?_
  refine Keeps.ite (fun _ => ?_) fun _ => Keeps.pure trivial
  refine Keeps.bind (desc_keeps hinv hfd) fun d _ => ?_
  refine Keeps.bind (vnodeField_keeps _ _) fun size _ => ?_
  exact Keeps.ite (fun _ => reportEvents_keeps hinv _ _) fun _ => Keeps.pure trivial

theorem pollOpen_keeps (entry : Word) {fd : ℤ} (hfd : InTable fd) (ready : BitVec 32) :
    Keeps Inv (pollOpen kernel entry fd ready) fun _ => True := by
  have hwritable : ∀ events : Word, Keeps Inv (pollWritable kernel entry events) fun _ => True :=
    fun events => Keeps.ite (fun _ => reportEvents_keeps hinv _ _) fun _ => Keeps.pure trivial
  rw [pollOpen]
  refine Keeps.bind (load_keeps _ _) fun events _ => ?_
  refine Keeps.bind (hwritable events) fun _ _ => ?_
  refine Keeps.bind (pollReadable_keeps hinv _ events hfd) fun _ _ => ?_
  refine Keeps.bind (load_keeps _ _) fun revents _ => ?_
  exact Keeps.guard trivial fun _ => Keeps.pure trivial

theorem pollRound_keeps (fds : Word) (ready : BitVec 32) (i : Nat) :
    Keeps Inv (pollRound kernel fds ready i) fun _ => True := by
  have hinvalid : ∀ entry : Word, Keeps Inv (pollInvalid kernel entry ready) fun _ => True :=
    fun entry => Keeps.bind (store_keeps hinv _ _ _) fun _ _ => Keeps.pure trivial
  rw [pollRound]
  refine Keeps.bind (store_keeps hinv _ _ _) fun _ _ => ?_
  refine Keeps.bind (load_keeps _ _) fun value _ => ?_
  refine Keeps.guard trivial fun hneg => ?_
  refine Keeps.ite (fun _ => hinvalid _) fun hlt => ?_
  have hfd := inTable_of_not (not_or.mpr ⟨hneg, hlt⟩)
  refine Keeps.bind (desc_keeps hinv hfd) fun d _ => ?_
  exact Keeps.ite (fun _ => hinvalid _) fun _ => pollOpen_keeps hinv _ hfd ready

theorem syscallPoll_keeps : Keeps Inv (syscallPoll kernel regs) fun _ => True := by
  have hloop : Keeps Inv ((List.range regs.arg2.toNat).foldlM (pollRound kernel regs.arg1) 0)
      fun _ => True :=
    Keeps.foldlM trivial fun ready _ i _ => pollRound_keeps hinv _ ready i
  exact Keeps.bind hloop fun _ _ => Keeps.pure trivial

end Handlers

section Unchecked

variable {σ : Type} {kernel : FileKernel σ} {regs : SyscallRegs} {Inv : FileWorld σ → Prop}
  {P : ℤ → Prop} (hinv : Watches Inv P)

include hinv

theorem putDirent_keeps (d index : Word) (entry : Dirent) :
    Keeps Inv (putDirent kernel d index entry) fun _ => True := by
  rw [putDirent]
  refine Keeps.bind (store_keeps hinv _ _ _) fun _ _ => ?_
  refine Keeps.bind (store_keeps hinv _ _ _) fun _ _ => ?_
  refine Keeps.bind (store_keeps hinv _ _ _) fun _ _ => ?_
  refine Keeps.bind (store_keeps hinv _ _ _) fun _ _ => ?_
  refine Keeps.bind (change_keeps hinv _ _ _) fun _ _ => ?_
  refine Keeps.bind (store_keeps hinv _ _ _) fun _ _ => ?_
  exact Keeps.ite (fun _ => change_keeps hinv _ _ _) fun _ => Keeps.pure trivial

theorem getdentsLoop_keeps (dir buf count written index : Word) :
    Keeps Inv (getdentsLoop kernel dir buf count written index) fun _ => True := by
  fun_induction getdentsLoop kernel dir buf count written index with
  | case1 written index _ ih =>
      refine Keeps.bind (external_keeps hinv _) fun result _ => ?_
      refine Keeps.guard trivial fun _ => ?_
      split
      · rename_i hfits
        exact Keeps.bind (putDirent_keeps hinv _ _ _) fun _ _ => ih result.2 hfits
      · exact Keeps.pure trivial
  | case2 written index _ => exact Keeps.pure trivial

theorem getdentsDir_keeps {fd : ℤ} (hfd : P fd) (dir : Word) :
    Keeps Inv (getdentsDir kernel regs fd dir) fun _ => True := by
  rw [getdentsDir]
  refine Keeps.guard trivial fun _ => ?_
  refine Keeps.bind (vnodeField_keeps _ _) fun _ _ => ?_
  refine Keeps.guard trivial fun _ => ?_
  refine Keeps.bind (vnodeField_keeps _ _) fun _ _ => ?_
  refine Keeps.guard trivial fun _ => ?_
  refine Keeps.bind (desc_keeps hinv hfd) fun d _ => ?_
  refine Keeps.bind (getdentsLoop_keeps hinv _ _ _ _ _) fun done _ => ?_
  exact Keeps.bind (setDesc_keeps hinv hfd) fun _ _ => Keeps.pure trivial

theorem mmapNodePages_keeps (target : Word) (node : Option Vnode) :
    Keeps Inv (mmapNodePages kernel regs target node) fun _ => True :=
  Keeps.bind Keeps.get fun _ _ => external_keeps hinv _

theorem mmapFile_keeps (target : Word) {fd : ℤ} (hfd : P fd) :
    Keeps Inv (mmapFile kernel regs target fd) fun _ => True :=
  Keeps.bind (desc_keeps hinv hfd) fun _ _ =>
    Keeps.bind (vnodeField_keeps _ _) fun _ _ => mmapNodePages_keeps hinv _ _

end Unchecked

section Calls

variable {σ : Type} {kernel : FileKernel σ} {regs : SyscallRegs} {Inv : FileWorld σ → Prop}
  (hinv : Watches Inv InTable)

include hinv

theorem syscallGetdents64_keeps (hchecked : FileCall.Checked regs .getdents64) :
    Keeps Inv (syscallGetdents64 kernel regs) fun _ => True := by
  rw [syscallGetdents64]
  refine Keeps.guard trivial fun hbuf => ?_
  refine Keeps.guard trivial fun hcount => ?_
  have hfd : InTable (toInt32 regs.arg1) := (hchecked.resolve_left hbuf).resolve_left hcount
  exact Keeps.bind (desc_keeps hinv hfd) fun d _ => getdentsDir_keeps hinv hfd _

theorem syscallMmapFd_keeps (hchecked : FileCall.Checked regs .mmap) :
    Keeps Inv (syscallMmapFd kernel regs) fun _ => True := by
  rw [syscallMmapFd]
  refine Keeps.guard trivial fun hlength => ?_
  refine Keeps.bind Keeps.get fun w _ => ?_
  refine Keeps.bind (Keeps.modify fun w hw => hinv.same (w := w) rfl hw) fun _ _ => ?_
  rw [mmapFd]
  refine Keeps.ite (fun _ => mmapNodePages_keeps hinv _ _) fun hfile => ?_
  refine Keeps.guard trivial fun hneg => ?_
  rw [Bool.or_eq_true, not_or] at hfile
  have hfd : InTable regs.arg5.toInt :=
    ⟨by omega, (hchecked.resolve_left hlength).resolve_left hfile.1⟩
  refine Keeps.bind (desc_keeps hinv hfd) fun d _ => ?_
  exact Keeps.guard trivial fun _ => mmapFile_keeps hinv _ hfd

/-- Every handler stays inside the table when its arguments are checked. -/
theorem FileCall.handler_keeps {call : FileCall} (hcall : call.Checked regs) :
    Keeps Inv (call.handler kernel regs) fun _ => True := by
  cases call with
  | read => exact Keeps.bind (desc_keeps hinv hcall) fun d _ => doRead_keeps hinv _ _ _ _ _
  | pread64 => exact doRead_keeps hinv _ _ _ _ _
  | write => exact doWrite_keeps hinv _ _ _
  | writev => exact writevLoop_keeps hinv _ _ _ _
  | lseek => exact syscallLseek_keeps hinv
  | pselect6 => exact syscallPselect6_keeps hinv
  | fstat => exact syscallFstat_keeps hinv
  | «open» => exact openPath_keeps hinv _ _
  | close => exact syscallClose_keeps hinv
  | openat => exact openPath_keeps hinv _ _
  | poll => exact syscallPoll_keeps hinv
  | getdents64 => exact syscallGetdents64_keeps hinv hcall
  | mmap => exact syscallMmapFd_keeps hinv hcall

end Calls

section Touches

variable {σ : Type} {kernel : FileKernel σ} {regs : SyscallRegs}

/-- A program that starts by evaluating an index has evaluated it at its end. -/
theorem desc_touches {α : Type} {fd : ℤ} {f : FileDesc → Handler σ α}
    (hf : ∀ d, Keeps (Touched fd) (f d) fun _ => True) (w : FileWorld σ) :
    Touched fd (finalState ((desc fd >>= f) w)) :=
  (hf (w.fds fd)).state (s := { w with touched := fd :: w.touched }) List.mem_cons_self

theorem syscallRead_touches (w : FileWorld σ) :
    Touched (toInt32 regs.arg1) (finalState (syscallRead kernel regs w)) :=
  desc_touches (fun _ => doRead_keeps (touched_watches _) _ _ _ _ _) w

theorem syscallGetdents64_touches (hbuf : regs.arg2 ≠ 0) (hcount : regs.arg3 ≠ 0)
    (w : FileWorld σ) :
    Touched (toInt32 regs.arg1) (finalState (syscallGetdents64 kernel regs w)) := by
  rw [syscallGetdents64, if_neg hbuf, if_neg hcount]
  exact desc_touches
    (fun d => getdentsDir_keeps (P := fun _ => True) (touched_watches _) trivial _) w

theorem syscallMmapFd_touches (hlength : regs.arg2 ≠ 0)
    (hfile : ¬ hasBits regs.arg4 mapAnonymous = true) (hneg : ¬ regs.arg5.toInt < 0)
    (w : FileWorld σ) :
    Touched regs.arg5.toInt (finalState (syscallMmapFd kernel regs w)) := by
  have hfd : ∀ target w, Touched regs.arg5.toInt
      (finalState (mmapFd kernel regs target w)) := by
    intro target w
    have hnamed : ¬ (hasBits regs.arg4 mapAnonymous || decide (regs.arg5.toInt < 0)) = true := by
      simp [hfile, hneg]
    rw [mmapFd, if_neg hnamed, if_neg hneg]
    refine desc_touches (fun d => ?_) w
    exact Keeps.guard trivial fun _ =>
      mmapFile_keeps (P := fun _ => True) (touched_watches _) _ trivial
  rw [syscallMmapFd, if_neg hlength]
  exact hfd _ _

/-- A call whose arguments are not checked evaluates an index outside the table. -/
theorem FileCall.handler_touches {call : FileCall} (hcall : ¬ call.Checked regs)
    (w : FileWorld σ) :
    ∃ fd, ¬ InTable fd ∧ Touched fd (finalState (call.handler kernel regs w)) := by
  cases call with
  | read => exact ⟨_, hcall, syscallRead_touches w⟩
  | getdents64 =>
      obtain ⟨hbuf, hcount, hfd⟩ : regs.arg2 ≠ 0 ∧ regs.arg3 ≠ 0 ∧
          ¬ InTable (toInt32 regs.arg1) := by
        simpa only [FileCall.Checked, not_or] using hcall
      exact ⟨_, hfd, syscallGetdents64_touches hbuf hcount w⟩
  | mmap =>
      obtain ⟨hlength, hfile, hfd⟩ : regs.arg2 ≠ 0 ∧ ¬ hasBits regs.arg4 mapAnonymous = true ∧
          ¬ regs.arg5.toInt < maxFilesPerProcess := by
        simpa only [FileCall.Checked, not_or] using hcall
      have hneg : ¬ regs.arg5.toInt < 0 := by
        rw [maxFilesPerProcess] at hfd
        omega
      exact ⟨_, fun h => hfd h.2, syscallMmapFd_touches hlength hfile hneg w⟩
  | _ => exact absurd trivial hcall

end Touches

/-- The arguments of a system call are checked if its entry asks for it. -/
def DescriptorChecked (arch : Arch) (regs : SyscallRegs) : Prop :=
  ∀ call ∈ syscallLinuxTable arch regs.syscallNo.toNat, call.Checked regs

/-- For every number and all arguments, in every state: a system call evaluates the
descriptor table at its own indices only, if and only if it is not a `read`,
`getdents64` or `mmap` that uses a descriptor it has not checked. -/
theorem evaluated_inTable_iff {σ : Type} (kernel : FileKernel σ) (regs : SyscallRegs)
    (w : FileWorld σ) :
    (∀ fd ∈ evaluated (syscallHandler kernel regs) w, InTable fd) ↔
      DescriptorChecked kernel.machine.arch regs := by
  rw [evaluated, syscallHandler, DescriptorChecked]
  have hempty : TouchedIn InTable { w with touched := [] } := List.forall_mem_nil _
  cases syscallLinuxTable kernel.machine.arch regs.syscallNo.toNat with
  | none =>
      constructor
      · rintro - call ⟨⟩
      · intro _
        exact (external_keeps touchedIn_watches _).state hempty
  | some call =>
      constructor
      · intro hin call' hcall'
        cases hcall'
        by_contra hcall
        obtain ⟨fd, hout, htouched⟩ : ∃ fd, ¬ InTable fd ∧
            Touched fd (finalState (call.handler kernel regs { w with touched := [] })) :=
          FileCall.handler_touches hcall _
        exact hout (hin fd htouched)
      · intro hchecked
        exact (FileCall.handler_keeps touchedIn_watches (hchecked call rfl)).state hempty

/-- A kernel without files: no path opens, and no key is ever pressed. -/
def bareKernel : FileKernel Unit where
  machine := sampleMachine .x86_64
  accessible _ _ _ := true
  isDir _ _ := false
  size _ _ := 0
  hasRead _ _ := false
  hasWrite _ _ := false
  hasReaddir _ _ := false
  read _ _ _ _ m files := some ((-22, 0), m, files)
  write _ _ _ _ m files := some ((-22, 0), m, files)
  readdir _ _ m files := some ((-2, ⟨0, 0, [], by decide⟩), m, files)
  file _ _ := ⟨0, fun _ _ => [], fun _ _ => Nat.zero_le _⟩
  vfsOpen _ _ m files := some ((-2, 0), m, files)
  keyboardRead _ _ _ _ := none
  userPrint _ _ m files := some ((), m, files)
  otherCall _ m files := some (-38, m, files)

/-- A process with the descriptors 0, 1 and 2 open. -/
def freshWorld : FileWorld Unit where
  mem := sampleMemory
  fds i := ⟨0, 0, 0, decide (0 ≤ i ∧ i < 3)⟩
  space := sampleProcess
  files := ()
  touched := []

/-- `read` on descriptor 32. -/
def readPastTable : SyscallRegs := ⟨32, 0x400000, 1, 0, 0, 0, 0⟩

/-- The call evaluates `fds[32].offset` before it finds the descriptor out of range. -/
theorem not_evaluated_inTable :
    ¬ ∀ fd ∈ evaluated (syscallHandler bareKernel readPastTable) freshWorld, InTable fd := by
  intro h
  have htouched : Touched (toInt32 readPastTable.arg1)
      (finalState (syscallRead bareKernel readPastTable freshWorld)) :=
    syscallRead_touches freshWorld
  exact absurd (h _ htouched) (by decide)

end Utopia
