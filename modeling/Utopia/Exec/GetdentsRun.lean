/-
`getdents64` over any sequence of calls on a descriptor: which entries of the directory the
caller reads.
-/
import Utopia.Exec.DescriptorChecks
import Utopia.Exec.Getdents
import Utopia.Fs.RamfsOpen
import Mathlib.Algebra.Order.BigOperators.Group.List

namespace Utopia

/-! ### Calls -/

/-- A call that returned. -/
structure DentsCall (σ : Type) where
  regs : SyscallRegs
  before : FileWorld σ
  code : Word
  after : FileWorld σ

namespace DentsCall

variable {σ : Type} (c : DentsCall σ)

/-- The index that the descriptor had before the call. -/
def index : Word := (c.before.fds (toInt32 c.regs.arg1)).offset

/-- The index that it has now. -/
def next : Word := (c.after.fds (toInt32 c.regs.arg1)).offset

/-- The records that the caller reads in the bytes returned. -/
def seen : Option (List DirentRecord) :=
  if c.code.toInt < 0 then none
  else readRecords readDirent c.code.toNat (bytesFrom c.after.mem c.regs.arg2 c.code.toNat)

variable (entries : List VfsDirent) (ino : NodePtr → Word)

/-- The entries that there is room for. -/
def taken : List VfsDirent :=
  fitting VfsDirent.recordLength c.regs.arg3.toNat (entries.drop c.index.toNat)

/-- Their records have fewer than `2 ^ 31` bytes. -/
def InRange : Prop := ((c.taken entries).map VfsDirent.recordLength).sum < 2 ^ 31

/-- The caller reads these records: those of the next entries, in order, and at least one
if there is one. -/
structure Delivers (records : List DirentRecord) : Prop where
  seen : c.seen = some records
  records_eq : records = recordsFrom ino c.index ((entries.drop c.index.toNat).take records.length)
  next : c.next = c.index + BitVec.ofNat 64 records.length
  aligned : ∀ r ∈ records, 8 ∣ r.reclen
  inside : (records.map DirentRecord.reclen).sum ≤ c.regs.arg3.toNat
  more : records = [] → entries.length ≤ c.index.toNat
  last : entries.length ≤ c.index.toNat → c.code = 0

end DentsCall

section Call

variable {σ : Type} {kernel : FileKernel σ} {readdir : Word → Option VfsDirent}
  {ino : NodePtr → Word} {fd : ℤ} {vnode : Word} {entries : List VfsDirent} {regs : SyscallRegs}
  {w w' : FileWorld σ} {code : Word}

/-- A call on the descriptor of a directory, with a buffer that has room for the next
record. -/
structure Suits (kernel : FileKernel σ) (readdir : Word → Option VfsDirent)
    (ino : NodePtr → Word) (fd : ℤ) (vnode : Word) (regs : SyscallRegs) (w : FileWorld σ) :
    Prop where
  descriptor : toInt32 regs.arg1 = fd
  opened : (w.fds fd).vnode = vnode
  serves : kernel.Serves vnode readdir ino w.files
  buffer : regs.arg2 ≠ 0
  writable : Writable kernel w.mem regs.arg2 regs.arg3.toNat
  room : ∀ e, readdir (w.fds fd).offset = some e → e.recordLength ≤ regs.arg3.toNat

/-- The loop from the start of the buffer. -/
theorem getdentsLoop_start (hlisted : Listed readdir entries)
    (hserves : kernel.Serves vnode readdir ino w.files)
    (hwritable : Writable kernel w.mem regs.arg2 regs.arg3.toNat) (index : Word) :
    let taken := fitting VfsDirent.recordLength regs.arg3.toNat (entries.drop index.toNat)
    getdentsLoop kernel vnode regs.arg2 regs.arg3 0 index w =
      .ok (BitVec.ofNat 64 (taken.map VfsDirent.recordLength).sum,
          index + BitVec.ofNat 64 taken.length)
        (w.stored regs.arg2 ((recordsFrom ino index taken).flatMap DirentRecord.bytes)) := by
  have hbuf : regs.arg2 + 0 = regs.arg2 := BitVec.add_zero _
  have hroom : regs.arg3.toNat - (0 : Word).toNat = regs.arg3.toNat := Nat.sub_zero _
  have hzero : ∀ x : Word, 0 + x = x := fun _ => BitVec.zero_add _
  have hwritable' : Writable kernel w.mem (regs.arg2 + 0) (regs.arg3.toNat - (0 : Word).toNat) := by
    rwa [hbuf, hroom]
  have hrun := @getdentsLoop_run _ _ _ _ _ _ _ _ _ _ index hlisted hserves _ rfl (Nat.zero_le _)
    hwritable'
  rw [hbuf, hroom] at hrun
  dsimp only at hrun ⊢
  rwa [hzero] at hrun

theorem getdentsDir_run (hlisted : Listed readdir entries)
    (hserves : kernel.Serves vnode readdir ino w.files)
    (hwritable : Writable kernel w.mem regs.arg2 regs.arg3.toNat) (fd : ℤ) :
    let taken := fitting VfsDirent.recordLength regs.arg3.toNat
      (entries.drop (w.fds fd).offset.toNat)
    ∃ w', getdentsDir kernel regs fd vnode w =
        .ok (((BitVec.ofNat 64 (taken.map VfsDirent.recordLength).sum).setWidth 32).signExtend 64) w' ∧
      w'.mem = w.mem.store regs.arg2
        ((recordsFrom ino (w.fds fd).offset taken).flatMap DirentRecord.bytes) ∧
      (w'.fds fd).offset = (w.fds fd).offset + BitVec.ofNat 64 taken.length := by
  intro taken
  have hloop := getdentsLoop_start (w := { w with touched := fd :: w.touched }) hlisted hserves
    hwritable (w.fds fd).offset
  have hdir : vnodeField kernel.isDir vnode w = .ok true w := by
    rw [← hserves.isDir]
    rfl
  have hops : vnodeField kernel.hasReaddir vnode w = .ok true w := by
    rw [← hserves.hasReaddir]
    rfl
  have hdesc : desc fd w = .ok (w.fds fd) { w with touched := fd :: w.touched } := rfl
  rw [getdentsDir, if_neg hserves.nonnull, bind_of_ok hdir, if_neg (by decide), bind_of_ok hops,
    if_neg (by decide), bind_of_ok hdesc, bind_of_ok hloop]
  refine ⟨_, rfl, rfl, ?_⟩
  dsimp only
  rw [Function.update_self]

/-- What a call returns, stores and leaves in the descriptor. -/
theorem getdents_run (hlisted : Listed readdir entries)
    (hsuits : Suits kernel readdir ino fd vnode regs w) :
    let taken := fitting VfsDirent.recordLength regs.arg3.toNat
      (entries.drop (w.fds fd).offset.toNat)
    ∃ w', syscallGetdents64 kernel regs w =
        .ok (((BitVec.ofNat 64 (taken.map VfsDirent.recordLength).sum).setWidth 32).signExtend 64) w' ∧
      w'.mem = w.mem.store regs.arg2
        ((recordsFrom ino (w.fds fd).offset taken).flatMap DirentRecord.bytes) ∧
      (w'.fds fd).offset = (w.fds fd).offset + BitVec.ofNat 64 taken.length := by
  obtain ⟨rfl, rfl, hserves, hbuffer, hwritable, -⟩ := hsuits
  intro taken
  rw [syscallGetdents64, if_neg hbuffer]
  by_cases hcount : regs.arg3 = 0
  · have htaken : taken = [] := by
      change fitting _ regs.arg3.toNat _ = []
      rw [hcount]
      exact fitting_zero _
    rw [if_pos hcount, htaken]
    refine ⟨w, rfl, rfl, ?_⟩
    exact (BitVec.add_zero _).symm
  · have hdesc : desc (toInt32 regs.arg1) w = .ok (w.fds (toInt32 regs.arg1))
        { w with touched := toInt32 regs.arg1 :: w.touched } := rfl
    rw [if_neg hcount, bind_of_ok hdesc]
    exact getdentsDir_run (w := { w with touched := toInt32 regs.arg1 :: w.touched }) hlisted
      hserves hwritable _

end Call

/-! ### The value returned -/

/-- The conversion to `int` keeps small numbers. -/
theorem intCode_of_lt {n : ℕ} (h : n < 2 ^ 31) :
    ((BitVec.ofNat 64 n).setWidth 32).signExtend 64 = BitVec.ofNat 64 n := by
  have hsmall : (BitVec.ofNat 64 n).toNat = n := by
    rw [BitVec.toNat_ofNat]
    omega
  have hword : ((BitVec.ofNat 64 n).setWidth 32).toNat = n := by
    rw [BitVec.toNat_setWidth, hsmall]
    omega
  have hmsb : ((BitVec.ofNat 64 n).setWidth 32).msb = false := by
    rw [BitVec.msb_eq_decide, hword]
    exact decide_eq_false (by omega)
  apply BitVec.eq_of_toNat_eq
  rw [BitVec.signExtend_eq_setWidth_of_msb_false hmsb, BitVec.toNat_setWidth, hword, hsmall]
  omega

/-- A value that is no error is small. -/
theorem intCode_lt {x : BitVec 32} (h : ¬ (x.signExtend 64).toInt < 0) :
    (x.signExtend 64).toNat < 2 ^ 31 := by
  have hint : (x.signExtend 64).toInt = x.toInt := BitVec.toInt_signExtend_of_le (by decide)
  have hlt : x.toInt < 2 ^ 31 := BitVec.toInt_lt
  have hcases := BitVec.toInt_eq_toNat_cond (x.signExtend 64)
  rw [hint] at h
  rw [hint] at hcases
  split_ifs at hcases
  · omega
  · have hltNat := (x.signExtend 64).isLt
    omega

/-! ### One call -/

section Delivered

variable {σ : Type} {kernel : FileKernel σ} {readdir : Word → Option VfsDirent}
  {ino : NodePtr → Word} {fd : ℤ} {vnode : Word} {entries : List VfsDirent} {c : DentsCall σ}

theorem DentsCall.length_taken_le : (c.taken entries).length ≤ (entries.drop c.index.toNat).length :=
  (fitting_starts _ _).length_le

theorem DentsCall.take_length_taken :
    (entries.drop c.index.toNat).take (c.taken entries).length = c.taken entries :=
  (List.prefix_iff_eq_take.mp (fitting_starts _ _)).symm

theorem length_le_sum (l : List VfsDirent) : l.length ≤ (l.map VfsDirent.recordLength).sum := by
  induction l with
  | nil => exact le_rfl
  | cons e l ih =>
      rw [List.map_cons, List.sum_cons, List.length_cons]
      have hpos := e.recordLength_pos
      omega

/-- If the number of bytes is in range, the caller reads the entries that there is room
for. -/
theorem DentsCall.delivers_taken (hlisted : Listed readdir entries)
    (hsuits : Suits kernel readdir ino fd vnode c.regs c.before)
    (hrun : syscallGetdents64 kernel c.regs c.before = .ok c.code c.after)
    (hrange : c.InRange entries) :
    c.Delivers entries ino (recordsFrom ino c.index (c.taken entries)) := by
  obtain rfl := hsuits.descriptor
  obtain ⟨w', hrun', hmem, hnext⟩ := getdents_run hlisted hsuits
  rw [hrun] at hrun'
  injection hrun' with hcode hafter
  subst hafter
  have hwell : ∀ r ∈ recordsFrom ino c.index (c.taken entries), r.WellSized := by
    refine recordsFrom_wellSized fun e he => hlisted.names e ?_
    exact List.mem_of_mem_drop ((fitting_starts _ _).mem he)
  have hcode' : c.code = BitVec.ofNat 64 ((c.taken entries).map VfsDirent.recordLength).sum :=
    hcode.trans (intCode_of_lt hrange)
  have hsmall : ((c.taken entries).map VfsDirent.recordLength).sum < 2 ^ 31 := hrange
  have hcodeNat : c.code.toNat = ((c.taken entries).map VfsDirent.recordLength).sum := by
    rw [hcode', BitVec.toNat_ofNat]
    omega
  have hend : entries.length ≤ c.index.toNat → c.taken entries = [] := by
    intro hle
    rw [taken, List.drop_eq_nil_of_le hle]
    rfl
  refine ⟨?_, ?_, ?_, fun r hr => ?_, ?_, fun hnil => ?_, fun hle => ?_⟩
  · have hpos : ¬ c.code.toInt < 0 := by
      rw [BitVec.toInt_eq_toNat_cond, if_pos (by omega)]
      omega
    have hlen : ((recordsFrom ino c.index (c.taken entries)).flatMap DirentRecord.bytes).length =
        c.code.toNat := (length_flatMap_bytes hwell).trans hcodeNat.symm
    have hread := bytesFrom_store (m := c.before.mem) (a := c.regs.arg2)
      (hlen.trans_le c.code.isLt.le)
    have hmem' : c.after.mem = c.before.mem.store c.regs.arg2
        ((recordsFrom ino c.index (c.taken entries)).flatMap DirentRecord.bytes) := hmem
    rw [seen, if_neg hpos, ← hlen, hmem', hread]
    refine readRecords_bytes hwell ?_
    rw [hlen, hcodeNat, length_recordsFrom]
    exact length_le_sum _
  · rw [length_recordsFrom, take_length_taken]
  · rw [length_recordsFrom]
    exact hnext
  · rw [(hwell r hr).reclen]
    exact Dvd.intro_left _ rfl
  · rw [map_reclen_recordsFrom]
    exact sum_fitting_le _ _
  · have hnone : c.taken entries = [] := by
      rw [← List.length_eq_zero_iff, ← @length_recordsFrom ino c.index, hnil]
      rfl
    by_contra hlt
    obtain ⟨e, he⟩ : ∃ e, entries[c.index.toNat]? = some e :=
      ⟨_, List.getElem?_eq_getElem (not_le.mp hlt)⟩
    have hfits := hsuits.room e ((hlisted.entry _).trans he)
    have hfull := fitting_eq_nil_iff.mp hnone e (by rw [List.head?_drop, he]; rfl)
    omega
  · rw [hcode', hend hle]
    rfl

/-- The caller reads the records of the next entries if and only if their number of bytes
is in range. -/
theorem DentsCall.delivers_iff (hlisted : Listed readdir entries)
    (hsuits : Suits kernel readdir ino fd vnode c.regs c.before)
    (hrun : syscallGetdents64 kernel c.regs c.before = .ok c.code c.after) :
    (∃ records, c.Delivers entries ino records) ↔ c.InRange entries := by
  constructor
  · rintro ⟨records, hdelivers⟩
    obtain rfl := hsuits.descriptor
    obtain ⟨w', hrun', -, hnext⟩ := getdents_run hlisted hsuits
    rw [hrun] at hrun'
    injection hrun' with hcode hafter
    subst hafter
    have hlen := hlisted.length_lt
    -- the index of the descriptor tells how many records there are
    have hle : records.length ≤ (entries.drop c.index.toNat).length := by
      have hcongr := congrArg List.length hdelivers.records_eq
      rw [length_recordsFrom, List.length_take] at hcongr
      exact hcongr.trans_le (min_le_right _ _)
    have hle' : (c.taken entries).length ≤ (entries.drop c.index.toNat).length := length_taken_le
    rw [List.length_drop] at hle hle'
    have hcount : records.length = (c.taken entries).length := by
      have hadd : c.index + BitVec.ofNat 64 records.length =
          c.index + BitVec.ofNat 64 (c.taken entries).length := hdelivers.next.symm.trans hnext
      have hword := congrArg BitVec.toNat ((BitVec.add_right_inj _).mp hadd)
      rw [BitVec.toNat_ofNat, BitVec.toNat_ofNat, Nat.mod_eq_of_lt (by omega),
        Nat.mod_eq_of_lt (by omega)] at hword
      exact hword
    have hrecords : records = recordsFrom ino c.index (c.taken entries) := by
      rw [hdelivers.records_eq, hcount, take_length_taken]
    have hseen := hdelivers.seen
    rw [DentsCall.seen] at hseen
    split_ifs at hseen with hneg
    have hbytes := length_of_readRecords (fun _ _ _ => length_of_readDirent) hseen
    rw [length_bytesFrom, hrecords, map_reclen_recordsFrom] at hbytes
    rw [InRange, ← hbytes, hcode]
    exact intCode_lt (hcode ▸ hneg)
  · exact fun hrange => ⟨_, delivers_taken hlisted hsuits hrun hrange⟩

end Delivered

/-! ### Runs -/

section Run

variable {σ : Type} {kernel : FileKernel σ} {readdir : Word → Option VfsDirent}
  {ino : NodePtr → Word} {fd : ℤ} {vnode : Word} {entries : List VfsDirent}
  {w₀ w : FileWorld σ} {calls : List (DentsCall σ)}

/-- Calls on a descriptor, with anything between them that leaves the descriptor as it is. -/
inductive DentsRun (kernel : FileKernel σ) (readdir : Word → Option VfsDirent)
    (ino : NodePtr → Word) (fd : ℤ) (vnode : Word) (w₀ : FileWorld σ) :
    List (DentsCall σ) → FileWorld σ → Prop
  | start : DentsRun kernel readdir ino fd vnode w₀ [] w₀
  | between {calls : List (DentsCall σ)} {w w' : FileWorld σ}
      (before : DentsRun kernel readdir ino fd vnode w₀ calls w) (same : w'.fds fd = w.fds fd) :
      DentsRun kernel readdir ino fd vnode w₀ calls w'
  | call {calls : List (DentsCall σ)} {c : DentsCall σ}
      (before : DentsRun kernel readdir ino fd vnode w₀ calls c.before)
      (suits : Suits kernel readdir ino fd vnode c.regs c.before)
      (returns : syscallGetdents64 kernel c.regs c.before = .ok c.code c.after) :
      DentsRun kernel readdir ino fd vnode w₀ (calls ++ [c]) c.after

/-- From the index `start` on, the calls deliver what comes before the index `stop`: every
entry once, in order. -/
structure DeliversOnce (entries : List VfsDirent) (ino : NodePtr → Word) (start stop : Word)
    (calls : List (DentsCall σ)) (batches : List (List DirentRecord)) : Prop where
  each : List.Forall₂ (fun c records => c.Delivers entries ino records) calls batches
  cursor : stop = start + BitVec.ofNat 64 batches.flatten.length
  whole : batches.flatten =
    recordsFrom ino start ((entries.drop start.toNat).take batches.flatten.length)
  full : entries.length ≤ stop.toNat →
    batches.flatten = recordsFrom ino start (entries.drop start.toNat)

theorem DentsRun.suits (h : DentsRun kernel readdir ino fd vnode w₀ calls w) :
    ∀ c ∈ calls, Suits kernel readdir ino fd vnode c.regs c.before ∧
      syscallGetdents64 kernel c.regs c.before = .ok c.code c.after := by
  induction h with
  | start =>
      intro c hc
      cases hc
  | between _ _ ih => exact ih
  | call _ suits returns ih =>
      intro c hc
      rcases List.mem_append.mp hc with hc | hc
      · exact ih c hc
      · rw [List.mem_singleton.mp hc]
        exact ⟨suits, returns⟩

/-- How much of a listing there is behind an index that calls came to. -/
theorem advance {start : Word} {k : ℕ} (hlen : entries.length < 2 ^ 63)
    (hk : k ≤ (entries.drop start.toNat).length) :
    entries.drop (start + BitVec.ofNat 64 k).toNat = (entries.drop start.toNat).drop k ∧
      (entries.length ≤ (start + BitVec.ofNat 64 k).toNat →
        (entries.drop start.toNat).length ≤ k) := by
  rw [List.length_drop] at hk ⊢
  by_cases hzero : k = 0
  · subst hzero
    have hsame : start + BitVec.ofNat 64 0 = start := BitVec.add_zero _
    rw [hsame, List.drop_zero]
    exact ⟨rfl, fun h => by omega⟩
  · have hsmall : (BitVec.ofNat 64 k).toNat = k := by
      rw [BitVec.toNat_ofNat, Nat.mod_eq_of_lt (by omega)]
    have hsum : (start + BitVec.ofNat 64 k).toNat = start.toNat + k := by
      rw [toNat_add_of_lt (by omega), hsmall]
    rw [hsum, List.drop_drop]
    exact ⟨rfl, fun h => by omega⟩

theorem DeliversOnce.length_le {start stop : Word} {batches : List (List DirentRecord)}
    (h : DeliversOnce entries ino start stop calls batches) :
    batches.flatten.length ≤ (entries.drop start.toNat).length := by
  have hcongr := congrArg List.length h.whole
  rw [length_recordsFrom, List.length_take] at hcongr
  exact hcongr.trans_le (min_le_right _ _)

/-- One more call. -/
theorem DeliversOnce.call {start : Word} {batches : List (List DirentRecord)} {c : DentsCall σ}
    {records : List DirentRecord} (hlen : entries.length < 2 ^ 63)
    (h : DeliversOnce entries ino start c.index calls batches)
    (hc : c.Delivers entries ino records) :
    DeliversOnce entries ino start c.next (calls ++ [c]) (batches ++ [records]) := by
  have hflatten : (batches ++ [records]).flatten = batches.flatten ++ records := by
    rw [List.flatten_append, List.flatten_singleton]
  have hlength : (batches.flatten ++ records).length = batches.flatten.length + records.length :=
    List.length_append
  have hstop : c.next = start + BitVec.ofNat 64 (batches.flatten.length + records.length) := by
    rw [hc.next, h.cursor, BitVec.add_assoc, ← BitVec.ofNat_add]
  have hwhole : batches.flatten ++ records = recordsFrom ino start
      ((entries.drop start.toNat).take (batches.flatten.length + records.length)) := by
    have hbefore : ((entries.drop start.toNat).take batches.flatten.length).length =
        batches.flatten.length := List.length_take_of_le h.length_le
    have hafter := hc.records_eq
    rw [h.cursor, (advance hlen h.length_le).1] at hafter
    rw [List.take_add, recordsFrom_append, hbefore, ← h.whole, ← hafter]
  refine ⟨List.rel_append h.each (List.Forall₂.cons hc .nil), ?_, ?_, fun hend => ?_⟩
  · rw [hflatten, hlength]
    exact hstop
  · rw [hflatten, hlength]
    exact hwhole
  · rw [hflatten, hwhole]
    have hle : batches.flatten.length + records.length ≤ (entries.drop start.toNat).length := by
      have hcongr := congrArg List.length hwhole
      rw [hlength, length_recordsFrom, List.length_take] at hcongr
      exact hcongr.trans_le (min_le_right _ _)
    rw [hstop] at hend
    rw [List.take_of_length_le ((advance hlen hle).2 hend)]

theorem DentsRun.delivers_iff (hlisted : Listed readdir entries)
    (h : DentsRun kernel readdir ino fd vnode w₀ calls w) :
    (∃ batches, DeliversOnce entries ino (w₀.fds fd).offset (w.fds fd).offset calls batches) ↔
      ∀ c ∈ calls, c.InRange entries := by
  constructor
  · rintro ⟨batches, hdelivers⟩ c hc
    obtain ⟨hsuits, hreturns⟩ := h.suits c hc
    obtain ⟨i, hi, rfl⟩ := List.getElem_of_mem hc
    have hlen := hdelivers.each.length_eq
    have hcall := hdelivers.each.get hi (hlen ▸ hi)
    exact (DentsCall.delivers_iff hlisted hsuits hreturns).mp ⟨_, hcall⟩
  · intro hrange
    induction h with
    | start =>
        refine ⟨[], .nil, (BitVec.add_zero _).symm, rfl, fun hend => ?_⟩
        rw [List.drop_eq_nil_of_le hend]
        rfl
    | between _ same ih =>
        rw [same]
        exact ih hrange
    | @call calls c _ suits returns ih =>
        obtain ⟨batches, hbefore⟩ := ih fun c' hc' => hrange c' (List.mem_append_left _ hc')
        obtain ⟨records, hdelivers⟩ := (DentsCall.delivers_iff hlisted suits returns).mpr
          (hrange c (List.mem_append_right _ List.mem_cons_self))
        obtain rfl := suits.descriptor
        exact ⟨_, hbefore.call hlisted.length_lt hdelivers⟩

/-- Calls of `getdents64` on a directory return, and they deliver its entries if and only if
no call comes to `2 ^ 31` bytes. -/
theorem getdents_delivers_iff (kernel : FileKernel σ) (fd : ℤ) (vnode : Word)
    (hdir : IsDirectory readdir ino) :
    ∃ entries, Listed readdir entries ∧
      ∀ w₀ w calls, DentsRun kernel readdir ino fd vnode w₀ calls w →
        (∀ regs, Suits kernel readdir ino fd vnode regs w →
          ∃ code w', syscallGetdents64 kernel regs w = .ok code w') ∧
        ((∃ batches, DeliversOnce entries ino (w₀.fds fd).offset (w.fds fd).offset calls batches) ↔
          ∀ c ∈ calls, c.InRange entries) := by
  obtain ⟨entries, hlisted⟩ := hdir.exists_listed
  refine ⟨entries, hlisted, fun w₀ w calls hrun => ⟨fun regs hsuits => ?_, ?_⟩⟩
  · obtain ⟨w', hreturns, -⟩ := getdents_run hlisted hsuits
    exact ⟨_, w', hreturns⟩
  · exact hrun.delivers_iff hlisted

end Run

/-! ### A large directory -/

theorem length_take_lt (name : List Byte) : (name.take 255).length < 2 ^ 63 :=
  Nat.lt_of_le_of_lt (List.length_take_le _ _) (by decide)

/-- An entry with a name of at most 255 bytes. -/
def namedDirent (ino : Word) (type : Byte) (name : List Byte) : Dirent :=
  ⟨ino, type, name.take 255, length_take_lt name⟩

/-- The kernel with a directory behind every vnode. -/
def FileKernel.serving {σ : Type} (kernel : FileKernel σ) (readdir : Word → Option VfsDirent)
    (ino : NodePtr → Word) : FileKernel σ :=
  { kernel with
    accessible := fun _ _ _ => true
    isDir := fun _ _ => true
    hasReaddir := fun _ _ => true
    readdir := fun _ index m files =>
      match readdir index with
      | none => some ((-1, namedDirent 0 0 []), m, files)
      | some e => some ((0, namedDirent (ino e.ino) (e.type.setWidth 8) e.name), m, files) }

theorem FileKernel.serving_serves {σ : Type} (kernel : FileKernel σ)
    {readdir : Word → Option VfsDirent} {entries : List VfsDirent} (ino : NodePtr → Word)
    (hlisted : Listed readdir entries) {vnode : Word} (hvnode : vnode ≠ 0) (files : σ) :
    (kernel.serving readdir ino).Serves vnode readdir ino files := by
  refine ⟨hvnode, rfl, rfl, fun m index e he => ?_, fun m index hnone => ?_⟩
  · have hmem : e ∈ entries := List.mem_of_getElem? ((hlisted.entry index).symm.trans he)
    refine ⟨namedDirent (ino e.ino) (e.type.setWidth 8) e.name, ?_, rfl, rfl,
      List.take_of_length_le (hlisted.names e hmem).2⟩
    dsimp only [serving]
    rw [he]
  · refine ⟨namedDirent 0 0 [], ?_⟩
    dsimp only [serving]
    rw [hnone]

/-- A name of 40 letters for each number below `2 ^ 40`. -/
def fileName (i : ℕ) : List Byte :=
  (List.range 40).map fun j => if i.testBit j then 0x62 else 0x61

theorem fileName_injOn {i k : ℕ} (hi : i < 2 ^ 40) (hk : k < 2 ^ 40)
    (h : fileName i = fileName k) : i = k := by
  apply Nat.eq_of_testBit_eq
  intro j
  by_cases hj : j < 40
  · have hget := congrArg (fun l : List Byte => l[j]?) h
    rw [fileName, fileName, List.getElem?_map, List.getElem?_map, List.getElem?_range hj] at hget
    cases hti : i.testBit j <;> cases htk : k.testBit j <;> simp_all
  · have hpow : 2 ^ 40 ≤ 2 ^ j := Nat.pow_le_pow_right (by decide) (not_lt.mp hj)
    rw [Nat.testBit_lt_two_pow (hi.trans_le hpow), Nat.testBit_lt_two_pow (hk.trans_le hpow)]

theorem zero_notMem_fileName (i : ℕ) : 0 ∉ fileName i := by
  intro h
  obtain ⟨j, -, hj⟩ := List.mem_map.mp h
  split_ifs at hj <;> exact absurd hj (by decide)

namespace Ramfs

/-- The root directory with files of `k` such names. -/
theorem exists_files (k : ℕ) (hk : k ≤ 2 ^ 40) :
    ∃ s, Reached s ∧ s.WellFormed ∧ s.count = k + 1 ∧ (s.node root).type = .dir ∧
      (s.node root).children.map (fun c => (s.node c).name) =
        (List.range k).reverse.map fileName := by
  induction k with
  | zero => exact ⟨mounted, .mounted, mounted_wellFormed, rfl, rfl, rfl⟩
  | succ k ih =>
      obtain ⟨s, hreached, hwf, hcount, hdir, hnames⟩ := ih (Nat.le_of_succ_le hk)
      have hshort : (fileName k).take 63 = fileName k := by
        apply List.take_of_length_le
        rw [fileName, List.length_map, List.length_range]
        decide
      have hnew : s.findChild root (fileName k) = none := by
        rw [findChild, List.find?_eq_none]
        intro c hc hsame
        have hmem : (s.node c).name ∈ (List.range k).reverse.map fileName :=
          hnames ▸ List.mem_map_of_mem hc
        obtain ⟨i, hi, hname⟩ := List.mem_map.mp hmem
        rw [List.mem_reverse, List.mem_range] at hi
        have heq := fileName_injOn (by omega) (by omega) (hname.trans (of_decide_eq_true hsame))
        omega
      have hmake := (@make_eq_some_iff _ .file true _ s.count _ _ hwf.root_lt).mpr
        ⟨hdir, hnew, rfl, rfl, rfl⟩
      have hname : IsName (fileName k) := by
        constructor
        · intro hnil
          exact absurd (congrArg List.length hnil) (by simp [fileName])
        · rw [fileName, List.length_map, List.length_range]
          decide
      obtain ⟨hwf', hgrows⟩ := make_keeps hwf hwf.root_lt hmake hname
      refine ⟨_, .made hreached hwf.root_lt (zero_notMem_fileName k) hmake, hwf', ?_, ?_, ?_⟩
      · rw [← hcount]
        rfl
      · rw [hgrows.type root hwf.root_lt, hdir]
      · rw [names_attach hwf hwf.root_lt hwf.root_lt, if_pos rfl, hnames, hshort,
          List.range_succ, List.reverse_append]
        rfl

end Ramfs

/-- A ramfs with `2 ^ 25` such files. -/
theorem exists_largeDirectory : ∃ s : Ramfs,
    IsDirectory (s.readdir Ramfs.root) (fun n => BitVec.ofNat 64 (512 * n)) ∧
      ∀ entries, Listed (s.readdir Ramfs.root) entries →
        2 ^ 31 ≤ (entries.map VfsDirent.recordLength).sum := by
  obtain ⟨s, hreached, hwf, hcount, hdir, hnames⟩ := Ramfs.exists_files (2 ^ 25) (by decide)
  have hplaced : Placed s.count fun n => BitVec.ofNat 64 (512 * n) := by
    have haddress : ∀ n < s.count, (BitVec.ofNat 64 (512 * n)).toNat = 512 * n := by
      intro n hn
      rw [BitVec.toNat_ofNat]
      omega
    refine ⟨fun n hn => ?_, fun n hn m hm heq => ?_⟩
    · rw [haddress n hn]
      omega
    · have hsame := congrArg BitVec.toNat heq
      rw [haddress n hn, haddress m hm] at hsame
      omega
  refine ⟨s, .ramfs hreached hwf.root_lt hdir hplaced, fun entries hlisted => ?_⟩
  have hlen : (s.node Ramfs.root).children.length = 2 ^ 25 := by
    have hmap := congrArg List.length hnames
    rwa [List.length_map, List.length_map, List.length_reverse, List.length_range] at hmap
  have hsize : ∀ c ∈ (s.node Ramfs.root).children, recordLength (s.node c).name = 64 := by
    intro c hc
    have hmem : (s.node c).name ∈ (List.range (2 ^ 25)).reverse.map fileName :=
      hnames ▸ List.mem_map_of_mem hc
    obtain ⟨i, -, hname⟩ := List.mem_map.mp hmem
    rw [← hname, recordLength, fileName, List.length_map, List.length_range]
  have hnamed := hreached.named
  have hlisting := hlisted.unique (listed_listing
    (by rw [hlen]; decide) (Ramfs.readdir_eq hdir) rfl rfl fun i c hc => by
      obtain ⟨htext, hshort⟩ := hnamed.names c (hnamed.children Ramfs.root hwf.root_lt c hc)
      exact ⟨htext, hshort.trans (by decide)⟩)
  rw [hlisting, listing, List.map_cons, List.map_cons, List.sum_cons, List.sum_cons]
  have hsum := List.card_nsmul_le_sum (((s.node Ramfs.root).children.mapIdx fun k c =>
    (⟨c, BitVec.ofNat 64 (k + 2) + 1, if (s.node c).type = .dir then 4 else 8,
      (s.node c).name⟩ : VfsDirent)).map VfsDirent.recordLength) 64 (by
    intro x hx
    obtain ⟨e, he, rfl⟩ := List.mem_map.mp hx
    obtain ⟨k, hk, rfl⟩ := List.mem_mapIdx.mp he
    exact (hsize _ (List.getElem_mem hk)).ge)
  rw [List.length_map, List.length_mapIdx, hlen] at hsum
  change 2 ^ 25 * 64 ≤ _ at hsum
  omega

/-- The descriptor of a directory. -/
def dentsWorld : FileWorld Unit :=
  { freshWorld with fds := fun _ => ⟨0x600000, 0, 0, true⟩ }

/-- `getdents64` with a buffer for a little more than `2 ^ 31` bytes. -/
def dentsLarge : SyscallRegs := ⟨3, 0x400000, 0x80001000, 0, 0, 0, 217⟩

theorem dentsWorld_suits {readdir : Word → Option VfsDirent} {entries : List VfsDirent}
    (ino : NodePtr → Word) (hlisted : Listed readdir entries) (regs : SyscallRegs)
    (hregs : regs.arg2 ≠ 0) (hroom : 512 ≤ regs.arg3.toNat) :
    Suits (bareKernel.serving readdir ino) readdir ino (toInt32 regs.arg1) 0x600000 regs
      dentsWorld := by
  refine ⟨rfl, rfl, bareKernel.serving_serves ino hlisted (by decide) (), hregs, ?_, fun e he => ?_⟩
  · intro m _ i k _
    rfl
  · have hmem : e ∈ entries := List.mem_of_getElem? ((hlisted.entry _).symm.trans he)
    have hshort := (hlisted.names e hmem).2
    rw [VfsDirent.recordLength, recordLength]
    omega

/-- A directory with `2 ^ 31` bytes of records is not delivered to such a buffer: the value
returned is negative. -/
theorem not_getdents_delivers :
    ¬ ∀ (readdir : Word → Option VfsDirent) (ino : NodePtr → Word), IsDirectory readdir ino →
      ∀ entries, Listed readdir entries → ∀ (kernel : FileKernel Unit) fd vnode w₀ w calls,
        DentsRun kernel readdir ino fd vnode w₀ calls w →
          ∃ batches, DeliversOnce entries ino (w₀.fds fd).offset (w.fds fd).offset calls batches := by
  intro h
  obtain ⟨s, hdir, hlarge⟩ := exists_largeDirectory
  obtain ⟨entries, hlisted⟩ := hdir.exists_listed
  have hsuits := dentsWorld_suits (fun n => BitVec.ofNat 64 (512 * n)) hlisted dentsLarge
    (by decide) (by decide)
  obtain ⟨w', hreturns, -⟩ := getdents_run hlisted hsuits
  have hrun := DentsRun.call (c := ⟨dentsLarge, dentsWorld, _, w'⟩) .start hsuits hreturns
  have hrange := (hrun.delivers_iff hlisted).mp (h _ _ hdir entries hlisted _ _ _ _ _ _ hrun)
    _ List.mem_cons_self
  -- either all records fit, or no record fits behind those that do
  have hfull : 2 ^ 31 ≤ ((fitting VfsDirent.recordLength dentsLarge.arg3.toNat entries).map
      VfsDirent.recordLength).sum := by
    rcases fitting_full dentsLarge.arg3.toNat entries with hall | ⟨e, he, hroom⟩
    · rw [hall]
      exact hlarge entries hlisted
    · have hshort := (hlisted.names e he).2
      rw [VfsDirent.recordLength, recordLength] at hroom
      change 0x80001000 < _ at hroom
      omega
  exact absurd hrange (not_lt.mpr hfull)

/-- The calls on a small directory. -/
theorem getdents_delivers_iff_sample :
    ∃ entries, Listed (Ramfs.mounted.readdir Ramfs.root) entries ∧
      ∀ w₀ w calls, DentsRun (bareKernel.serving (Ramfs.mounted.readdir Ramfs.root)
          (BitVec.ofNat 64)) (Ramfs.mounted.readdir Ramfs.root) (BitVec.ofNat 64) 3 0x600000 w₀
          calls w →
        (∀ regs, Suits (bareKernel.serving (Ramfs.mounted.readdir Ramfs.root) (BitVec.ofNat 64))
            (Ramfs.mounted.readdir Ramfs.root) (BitVec.ofNat 64) 3 0x600000 regs w →
          ∃ code w', syscallGetdents64 (bareKernel.serving (Ramfs.mounted.readdir Ramfs.root)
            (BitVec.ofNat 64)) regs w = .ok code w') ∧
        ((∃ batches, DeliversOnce entries (BitVec.ofNat 64) (w₀.fds 3).offset (w.fds 3).offset
          calls batches) ↔ ∀ c ∈ calls, c.InRange entries) := by
  have hplaced : Placed Ramfs.mounted.count (BitVec.ofNat 64) := by
    have hone : ∀ n < Ramfs.mounted.count, n = 0 := fun n hn => Nat.lt_one_iff.mp hn
    refine ⟨fun n hn => ?_, fun n hn m hm _ => (hone n hn).trans (hone m hm).symm⟩
    rw [hone n hn]
    exact Nat.dvd_zero 8
  exact getdents_delivers_iff _ 3 0x600000 (.ramfs .mounted Nat.one_pos rfl hplaced)

end Utopia
