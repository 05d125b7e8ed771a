/-
`getdents64` over any sequence of calls: which entries of the directory the caller reads.
-/
import Utopia.Exec.DirentRecords
import Utopia.Lib.Keeps

namespace Utopia

section Stores

variable {σ : Type} {kernel : FileKernel σ} {w : FileWorld σ} {a : Word} {n : ℕ}

/-- The `n` bytes at `a` can be accessed, whatever they are. -/
def Writable (kernel : FileKernel σ) (m : Memory) (a : Word) (n : ℕ) : Prop :=
  ∀ m', Set.EqOn m' m (reach a n)ᶜ → ∀ i k, i + k ≤ n →
    kernel.accessible m' (a + BitVec.ofNat 64 i) k = true

/-- Part of such bytes, when bytes of them were stored. -/
theorem Writable.part {m m' : Memory} {i k : ℕ} (h : Writable kernel m a n)
    (heq : Set.EqOn m' m (reach a n)ᶜ) (hle : i + k ≤ n) (hn : n ≤ 2 ^ 64) :
    Writable kernel m' (a + BitVec.ofNat 64 i) k := by
  intro m'' heq' j l hjl
  rw [BitVec.add_assoc, ← BitVec.ofNat_add]
  refine h m'' (fun x hx => ?_) (i + j) l (by omega)
  have hout : x ∈ (reach (a + BitVec.ofNat 64 i) k)ᶜ := fun hin =>
    hx (reach_subset_reach hle hn hin)
  exact (heq' hout).trans (heq hx)

/-- The front part of such bytes. -/
theorem Writable.front {m : Memory} {k : ℕ} (h : Writable kernel m a n) (hle : k ≤ n) :
    Writable kernel m a k := fun m' heq i j hij =>
  h m' (fun _ hx => heq fun hin => hx (lt_of_lt_of_le hin hle)) i j (hij.trans hle)

theorem change_run {f : Memory → Memory} (h : kernel.accessible w.mem a n = true) :
    change kernel a n f w = .ok () { w with mem := f w.mem } := by
  rw [change, get_bind_run, if_pos h]
  rfl

/-- The state behind a store of bytes at `d`. -/
def FileWorld.stored (w : FileWorld σ) (d : Word) (bytes : List Byte) : FileWorld σ :=
  { w with mem := w.mem.store d bytes }

theorem FileWorld.stored_stored {d : Word} {bytes more : List Byte}
    (h : bytes.length + more.length ≤ 2 ^ 64) :
    (w.stored d bytes).stored (d + BitVec.ofNat 64 bytes.length) more =
      w.stored d (bytes ++ more) := by
  rw [stored, stored, stored, Memory.store_store h]

/-- Bytes that are stored behind others. -/
theorem change_behind {d : Word} {i k : ℕ} {f : Memory → Memory} {bytes more : List Byte}
    (h : Writable kernel w.mem d n) (hn : n ≤ 2 ^ 64) (hi : bytes.length = i)
    (hk : more.length = k) (hle : i + k ≤ n)
    (hf : ∀ m, f m = m.store (d + BitVec.ofNat 64 i) more) :
    change kernel (d + BitVec.ofNat 64 i) k f (w.stored d bytes) =
      .ok () (w.stored d (bytes ++ more)) := by
  subst hi hk
  have hsame : Set.EqOn (w.mem.store d bytes) w.mem (reach d n)ᶜ := by
    intro x hx
    refine Memory.store_eqOn_reach w.mem d bytes fun hin => hx ?_
    exact lt_of_lt_of_le (b := bytes.length) hin (by omega)
  rw [change_run (h _ hsame _ _ hle), FileWorld.stored, FileWorld.stored, hf,
    Memory.store_store (by omega)]

theorem store_behind {d v : Word} {i k : ℕ} {bytes : List Byte}
    (h : Writable kernel w.mem d n) (hn : n ≤ 2 ^ 64) (hi : bytes.length = i) (hle : i + k ≤ n) :
    store kernel (d + BitVec.ofNat 64 i) k v (w.stored d bytes) =
      .ok () (w.stored d (bytes ++ leBytes k v)) :=
  change_behind h hn hi (length_leBytes k v) hle fun _ => rfl

end Stores

/-! ### One record -/

/-- The record of an entry of the kernel. -/
def Dirent.record (entry : Dirent) (index : Word) : DirentRecord where
  ino := entry.ino
  off := index + 1
  reclen := entry.reclen.toNat
  type := entry.type
  name := entry.name

section Record

variable {σ : Type} {kernel : FileKernel σ} {w : FileWorld σ}

/-- The record that the kernel stores. -/
theorem putDirent_run {d index : Word} {entry : Dirent}
    (hwell : (entry.record index).WellSized)
    (hwritable : Writable kernel w.mem d (entry.record index).reclen) :
    putDirent kernel d index entry w =
      .ok () { w with mem := w.mem.store d (entry.record index).bytes } := by
  obtain ⟨hused, hreclen⟩ := hwell.bounds
  have hused' : 20 + entry.name.length ≤ entry.reclen.toNat := hused
  have hreclen' : entry.reclen.toNat < 2 ^ 16 := hreclen
  have hreclenEq : (entry.record index).reclen = entry.reclen.toNat := rfl
  rw [hreclenEq] at hwritable
  have hn : entry.reclen.toNat ≤ 2 ^ 64 := by omega
  have hfit : 20 ≤ entry.reclen.toNat := by omega
  have hnameFit : 19 + entry.name.length ≤ entry.reclen.toNat := by omega
  -- each field is stored behind the ones before it
  obtain ⟨ino, hino⟩ : ∃ bytes, bytes = leBytes 8 entry.ino := ⟨_, rfl⟩
  obtain ⟨off, hoff⟩ : ∃ bytes, bytes = ino ++ leBytes 8 (index + 1) := ⟨_, rfl⟩
  obtain ⟨len, hlen⟩ : ∃ bytes, bytes = off ++ leBytes 2 entry.reclen := ⟨_, rfl⟩
  obtain ⟨type, htype⟩ : ∃ bytes, bytes = len ++ leBytes 1 (entry.type.setWidth 64) := ⟨_, rfl⟩
  obtain ⟨name, hname⟩ : ∃ bytes, bytes = type ++ entry.name := ⟨_, rfl⟩
  obtain ⟨stop, hstop⟩ : ∃ bytes, bytes = name ++ leBytes 1 0 := ⟨_, rfl⟩
  have hinoLen : ino.length = 8 := by rw [hino, length_leBytes]
  have hoffLen : off.length = 16 := by rw [hoff, List.length_append, hinoLen, length_leBytes]
  have hlenLen : len.length = 18 := by rw [hlen, List.length_append, hoffLen, length_leBytes]
  have htypeLen : type.length = 19 := by rw [htype, List.length_append, hlenLen, length_leBytes]
  have hnameLen : name.length = 19 + entry.name.length := by
    rw [hname, List.length_append, htypeLen]
  have hstopLen : stop.length = 20 + entry.name.length := by
    rw [hstop, List.length_append, hnameLen, length_leBytes]
    omega
  have hinoRun : store kernel d 8 entry.ino w = .ok () (w.stored d ino) := by
    have hacc := hwritable w.mem (Set.eqOn_refl _ _) 0 8 (by omega)
    rw [BitVec.add_zero] at hacc
    rw [store, change_run hacc, hino]
    rfl
  have hoffRun : store kernel (d + 8) 8 (index + 1) (w.stored d ino) = .ok () (w.stored d off) := by
    rw [hoff]
    exact store_behind hwritable hn hinoLen (hfit.trans' (by decide))
  have hlenRun : store kernel (d + 16) 2 entry.reclen (w.stored d off) =
      .ok () (w.stored d len) := by
    rw [hlen]
    exact store_behind hwritable hn hoffLen (hfit.trans' (by decide))
  have htypeRun : store kernel (d + 18) 1 (entry.type.setWidth 64) (w.stored d len) =
      .ok () (w.stored d type) := by
    rw [htype]
    exact store_behind hwritable hn hlenLen (hfit.trans' (by decide))
  have hnameRun : change kernel (d + 19) entry.name.length
      (fun m => m.store (d + 19) entry.name) (w.stored d type) = .ok () (w.stored d name) := by
    rw [hname]
    exact change_behind hwritable hn htypeLen rfl hnameFit fun _ => rfl
  have hstopRun : store kernel (d + 19 + BitVec.ofNat 64 entry.name.length) 1 0
      (w.stored d name) = .ok () (w.stored d stop) := by
    have hbehind : d + 19 + BitVec.ofNat 64 entry.name.length =
        d + BitVec.ofNat 64 (19 + entry.name.length) := by
      rw [BitVec.add_assoc, BitVec.ofNat_add]
      rfl
    rw [hstop, hbehind]
    exact store_behind hwritable hn hnameLen (by omega)
  have hbytes : (entry.record index).bytes =
      stop ++ List.replicate (entry.reclen.toNat - (20 + entry.name.length)) 0 := by
    have hone : leBytes 1 (entry.type.setWidth 64) = [entry.type] := by
      rw [leBytes_succ, BitVec.setWidth_setWidth_of_le _ (by decide), BitVec.setWidth_eq]
      rfl
    have hreclenWord : BitVec.ofNat 64 entry.reclen.toNat = entry.reclen := by
      rw [BitVec.ofNat_toNat, BitVec.setWidth_eq]
    rw [hstop, hname, htype, hlen, hoff, hino, hone, ← hreclenWord]
    rw [DirentRecord.bytes, Dirent.record, hreclenWord]
    rfl
  rw [putDirent, bind_of_ok hinoRun, bind_of_ok hoffRun, bind_of_ok hlenRun, bind_of_ok htypeRun,
    bind_of_ok hnameRun, bind_of_ok hstopRun, hbytes]
  split_ifs with hpad
  · exact change_behind hwritable hn hstopLen (List.length_replicate ..) (by omega) fun m =>
      Memory.fill_eq_store m _ _ 0
  · rw [Nat.eq_zero_of_not_pos hpad, List.replicate_zero, List.append_nil]
    rfl

end Record

/-! ### The loop -/

section Loop

variable {σ : Type} {kernel : FileKernel σ} {readdir : Word → Option VfsDirent}
  {ino : NodePtr → Word} {vnode : Word} {entries : List VfsDirent} {w : FileWorld σ}

/-- At `vnode` there is a directory with these entries. -/
structure FileKernel.Serves (kernel : FileKernel σ) (vnode : Word)
    (readdir : Word → Option VfsDirent) (ino : NodePtr → Word) (files : σ) : Prop where
  nonnull : vnode ≠ 0
  isDir : kernel.isDir files vnode = true
  hasReaddir : kernel.hasReaddir files vnode = true
  found : ∀ m index e, readdir index = some e → ∃ entry : Dirent,
    kernel.readdir vnode index m files = some ((0, entry), m, files) ∧ entry.ino = ino e.ino ∧
      entry.type = e.type.setWidth 8 ∧ entry.name = e.name
  ended : ∀ m index, readdir index = none → ∃ entry : Dirent,
    kernel.readdir vnode index m files = some ((-1, entry), m, files)

theorem VfsDirent.recordLength_pos (e : VfsDirent) : 24 ≤ e.recordLength := by
  rw [recordLength, Utopia.recordLength]
  omega

theorem fitting_zero (l : List VfsDirent) : fitting VfsDirent.recordLength 0 l = [] := by
  rw [fitting_eq_nil_iff]
  intro e _
  have hpos := e.recordLength_pos
  omega

/-- The index of an entry that there is does not wrap. -/
theorem drop_succ {index : Word} {e : VfsDirent} {l : List VfsDirent}
    (hlen : entries.length < 2 ^ 63) (h : entries.drop index.toNat = e :: l) :
    entries.drop (index + 1).toNat = l := by
  have hlt : index.toNat < entries.length := by
    rw [← List.drop_eq_nil_iff.not.trans not_le, h]
    exact List.cons_ne_nil _ _
  have hsucc : (index + 1).toNat = index.toNat + 1 := by bv_omega
  rw [hsucc, ← List.drop_drop, h]
  rfl

theorem getdentsLoop_stop {buf count written index : Word} (h : ¬ written < count) :
    getdentsLoop kernel vnode buf count written index w = .ok (written, index) w := by
  rw [getdentsLoop, dif_neg h]
  rfl

/-- The round for an entry that there is. -/
theorem getdentsLoop_entry {buf count written index : Word} {entry : Dirent}
    (hlt : written < count)
    (hread : kernel.readdir vnode index w.mem w.files = some ((0, entry), w.mem, w.files)) :
    getdentsLoop kernel vnode buf count written index w =
      (if entry.reclen ≤ count - written then do
        putDirent kernel (buf + written) index entry
        getdentsLoop kernel vnode buf count (written + entry.reclen) (index + 1)
      else return (written, index) : Handler σ (Word × Word)) w := by
  have hexternal : external (kernel.readdir vnode index) w = .ok (0, entry) w := by
    rw [external_run, hread]
  rw [getdentsLoop, dif_pos hlt, bind_of_ok hexternal]
  rfl

/-- The round behind the last entry. -/
theorem getdentsLoop_end {buf count written index : Word} {entry : Dirent}
    (hread : kernel.readdir vnode index w.mem w.files = some ((-1, entry), w.mem, w.files)) :
    getdentsLoop kernel vnode buf count written index w = .ok (written, index) w := by
  by_cases hlt : written < count
  · have hexternal : external (kernel.readdir vnode index) w = .ok (-1, entry) w := by
      rw [external_run, hread]
    rw [getdentsLoop, dif_pos hlt, bind_of_ok hexternal]
    rfl
  · exact getdentsLoop_stop hlt

/-- What the loop returns and stores: the records of the entries that there is room for. -/
theorem getdentsLoop_run {buf count written index : Word} (hlisted : Listed readdir entries)
    (hserves : kernel.Serves vnode readdir ino w.files) (l : List VfsDirent)
    (hl : entries.drop index.toNat = l) (hle : written.toNat ≤ count.toNat)
    (hwritable : Writable kernel w.mem (buf + written) (count.toNat - written.toNat)) :
    getdentsLoop kernel vnode buf count written index w =
      let taken := fitting VfsDirent.recordLength (count.toNat - written.toNat) l
      .ok (written + BitVec.ofNat 64 (taken.map VfsDirent.recordLength).sum,
          index + BitVec.ofNat 64 taken.length)
        (w.stored (buf + written) ((recordsFrom ino index taken).flatMap DirentRecord.bytes)) := by
  induction l generalizing written index w with
  | nil =>
      have hnone : readdir index = none := by
        rw [hlisted.entry, List.getElem?_eq_none]
        exact List.drop_eq_nil_iff.mp hl
      obtain ⟨entry, hread⟩ := hserves.ended w.mem index hnone
      rw [getdentsLoop_end hread]
      simp [fitting, recordsFrom, FileWorld.stored]
  | cons e l ih =>
      by_cases hlt : written < count
      · have hsome : readdir index = some e := by
          rw [hlisted.entry, ← List.head?_drop, hl]
          rfl
        have hmem : e ∈ entries := List.mem_of_mem_drop (hl ▸ List.mem_cons_self)
        obtain ⟨entry, hread, hino, htype, hname⟩ := hserves.found w.mem index e hsome
        have hreclen : entry.reclen.toNat = e.recordLength := by
          rw [entry.toNat_reclen, hname]
          rfl
        have hrecord : entry.record index = e.record ino index := by
          rw [Dirent.record, VfsDirent.record, hreclen, hino, htype, hname]
          rfl
        have hroom : (count - written).toNat = count.toNat - written.toNat :=
          BitVec.toNat_sub_of_le (BitVec.le_def.mpr hle)
        have hfits : entry.reclen ≤ count - written ↔
            e.recordLength ≤ count.toNat - written.toNat := by
          rw [BitVec.le_def, hreclen, hroom]
        rw [getdentsLoop_entry hlt hread, fitting]
        by_cases hfit : e.recordLength ≤ count.toNat - written.toNat
        · have hcount := count.isLt
          have hwell : (e.record ino index).WellSized :=
            ⟨rfl, (hlisted.names e hmem).1, (hlisted.names e hmem).2⟩
          have hput : putDirent kernel (buf + written) index entry w =
              .ok () (w.stored (buf + written) (e.record ino index).bytes) := by
            rw [← hrecord] at hwell ⊢
            refine putDirent_run hwell ?_
            rw [hrecord]
            exact hwritable.front hfit
          have hsum : (written + entry.reclen).toNat = written.toNat + e.recordLength := by
            rw [toNat_add_of_lt (by omega), hreclen]
          have hreclenWord : entry.reclen = BitVec.ofNat 64 e.recordLength := by
            rw [← hreclen, BitVec.ofNat_toNat, BitVec.setWidth_eq]
          have hbehind : buf + (written + entry.reclen) =
              buf + written + BitVec.ofNat 64 e.recordLength := by
            rw [← BitVec.add_assoc, hreclenWord]
          have hlength : (e.record ino index).bytes.length = e.recordLength := hwell.length_bytes
          have hsame : Set.EqOn (w.stored (buf + written) (e.record ino index).bytes).mem w.mem
              (reach (buf + written) (count.toNat - written.toNat))ᶜ := fun x hx =>
            Memory.store_eqOn_reach _ _ _ fun hin => hx (lt_of_lt_of_le hin (hlength ▸ hfit))
          have hrest : count.toNat - (written + entry.reclen).toNat =
              count.toNat - written.toNat - e.recordLength := by omega
          have hwritable' : Writable kernel
              (w.stored (buf + written) (e.record ino index).bytes).mem
              (buf + (written + entry.reclen))
              (count.toNat - (written + entry.reclen).toNat) := by
            rw [hbehind, hrest]
            exact hwritable.part hsame (by omega) (by omega)
          have hrun := @ih (w.stored (buf + written) (e.record ino index).bytes) _ (index + 1)
            hserves (drop_succ hlisted.length_lt hl) (by omega) hwritable'
          obtain ⟨taken, htaken⟩ : ∃ taken, taken =
              fitting VfsDirent.recordLength (count.toNat - written.toNat - e.recordLength) l :=
            ⟨_, rfl⟩
          have hbytes : ((recordsFrom ino (index + 1) taken).flatMap DirentRecord.bytes).length ≤
              count.toNat - written.toNat - e.recordLength := by
            rw [length_flatMap_bytes, htaken]
            · exact sum_fitting_le _ _
            · refine recordsFrom_wellSized fun e' he' => hlisted.names e' ?_
              have hin := (fitting_starts _ _).mem (htaken ▸ he')
              exact List.mem_of_mem_drop (hl ▸ List.mem_cons_of_mem _ hin)
          rw [if_pos (hfits.mpr hfit), if_pos hfit, bind_of_ok hput, hrun, hrest, ← htaken]
          dsimp only
          rw [List.map_cons, List.sum_cons, List.length_cons, recordsFrom, List.flatMap_cons,
            hbehind, hreclenWord, ← hlength, FileWorld.stored_stored (by omega),
            Nat.add_comm taken.length, BitVec.ofNat_add, BitVec.ofNat_add, BitVec.add_assoc,
            BitVec.add_assoc]
          rfl
        · rw [if_neg (hfits.not.mpr hfit), if_neg hfit]
          simp [recordsFrom, FileWorld.stored]
          rfl
      · have hfull : count.toNat - written.toNat = 0 := by
          rw [BitVec.lt_def] at hlt
          omega
        rw [getdentsLoop_stop hlt, hfull, fitting_zero]
        simp [recordsFrom, FileWorld.stored]

end Loop

end Utopia
