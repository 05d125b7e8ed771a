/-
The records of `getdents64`: their bytes, and what a caller reads in them.
-/
import Utopia.Exec.FileSyscalls
import Utopia.Fs.RamfsReaddir
import Utopia.Lib.Records

namespace Utopia

/-- What a caller reads in a `struct linux_dirent64`. -/
structure DirentRecord where
  ino : Word
  off : Word
  reclen : ℕ
  type : Byte
  name : List Byte
deriving DecidableEq, Repr

/-- The length of a record with such a name. -/
def recordLength (name : List Byte) : ℕ := (name.length + 27) / 8 * 8

/-- The record at the start of some bytes, and the bytes behind it. -/
def readDirent (bytes : List Byte) : Option (DirentRecord × List Byte) :=
  let reclen := leValue ((bytes.drop 16).take 2)
  if 20 ≤ reclen ∧ reclen ≤ bytes.length then
    some (⟨BitVec.ofNat 64 (leValue (bytes.take 8)),
      BitVec.ofNat 64 (leValue ((bytes.drop 8).take 8)), reclen, bytes.getD 18 0,
      cString ((bytes.take reclen).drop 19)⟩, bytes.drop reclen)
  else none

namespace DirentRecord

/-- The bytes of a record. -/
def bytes (r : DirentRecord) : List Byte :=
  leBytes 8 r.ino ++ leBytes 8 r.off ++ leBytes 2 (BitVec.ofNat 64 r.reclen) ++ [r.type] ++
    r.name ++ [0] ++ List.replicate (r.reclen - (20 + r.name.length)) 0

/-- The name is a string of a file system, and the length fits it. -/
structure WellSized (r : DirentRecord) : Prop where
  reclen : r.reclen = recordLength r.name
  text : 0 ∉ r.name
  short : r.name.length ≤ 255

variable {r : DirentRecord}

theorem WellSized.bounds (h : r.WellSized) : 20 + r.name.length ≤ r.reclen ∧ r.reclen < 2 ^ 16 := by
  have hlen := h.reclen
  have hshort := h.short
  rw [recordLength] at hlen
  omega

theorem WellSized.length_bytes (h : r.WellSized) : r.bytes.length = r.reclen := by
  have hbounds := h.bounds
  simp only [bytes, List.length_append, length_leBytes, List.length_replicate, List.length_cons,
    List.length_nil]
  omega

end DirentRecord

/-- A record is read back. -/
theorem readDirent_bytes {r : DirentRecord} (h : r.WellSized) (rest : List Byte) :
    readDirent (r.bytes ++ rest) = some (r, rest) := by
  obtain ⟨hused, hreclen⟩ := h.bounds
  have hlen := h.length_bytes
  have hword : ∀ v : Word, BitVec.ofNat 64 (leValue (leBytes 8 v)) = v := by
    intro v
    have hlt : v.toNat < 256 ^ 8 := v.isLt
    rw [leValue_leBytes, Nat.mod_eq_of_lt hlt, BitVec.ofNat_toNat, BitVec.setWidth_eq]
  have hcount : leValue (leBytes 2 (BitVec.ofNat 64 r.reclen)) = r.reclen := by
    rw [leValue_leBytes, BitVec.toNat_ofNat]
    omega
  -- the fields of fixed size, one behind the other
  obtain ⟨pad, hpad⟩ : ∃ pad, pad = List.replicate (r.reclen - (20 + r.name.length)) (0 : Byte) :=
    ⟨_, rfl⟩
  have hbytes : r.bytes = leBytes 8 r.ino ++ (leBytes 8 r.off ++
      (leBytes 2 (BitVec.ofNat 64 r.reclen) ++ ([r.type] ++ (r.name ++ 0 :: pad)))) := by
    simp only [DirentRecord.bytes, List.append_assoc, List.cons_append, List.nil_append, hpad]
  have hdrop8 : (r.bytes ++ rest).drop 8 = leBytes 8 r.off ++
      (leBytes 2 (BitVec.ofNat 64 r.reclen) ++ ([r.type] ++ (r.name ++ 0 :: pad))) ++ rest := by
    rw [hbytes, List.append_assoc]
    exact List.drop_left' (length_leBytes _ _)
  have hdrop16 : (r.bytes ++ rest).drop 16 = leBytes 2 (BitVec.ofNat 64 r.reclen) ++
      ([r.type] ++ (r.name ++ 0 :: pad)) ++ rest := by
    rw [← List.drop_drop (i := 8) (j := 8), hdrop8, List.append_assoc]
    exact List.drop_left' (length_leBytes _ _)
  have hdrop18 : (r.bytes ++ rest).drop 18 = r.type :: (r.name ++ 0 :: pad ++ rest) := by
    rw [← List.drop_drop (i := 2) (j := 16), hdrop16, List.append_assoc]
    exact List.drop_left' (length_leBytes _ _)
  have hname : (r.bytes.drop 19) = r.name ++ 0 :: pad := by
    have happend : r.bytes.drop 19 ++ rest = (r.name ++ 0 :: pad) ++ rest := by
      rw [← List.drop_append_of_le_length (by omega), ← List.drop_drop (i := 1) (j := 18), hdrop18]
      rfl
    exact List.append_cancel_right happend
  have htake : (r.bytes ++ rest).take r.reclen = r.bytes := List.take_left' hlen
  have htype : (r.bytes ++ rest).getD 18 0 = r.type := by
    rw [List.getD_eq_getElem?_getD, ← List.head?_drop, hdrop18]
    rfl
  have hino : (r.bytes ++ rest).take 8 = leBytes 8 r.ino := by
    rw [hbytes, List.append_assoc]
    exact List.take_left' (length_leBytes _ _)
  have hoff : ((r.bytes ++ rest).drop 8).take 8 = leBytes 8 r.off := by
    rw [hdrop8, List.append_assoc]
    exact List.take_left' (length_leBytes _ _)
  have hsize : leValue (((r.bytes ++ rest).drop 16).take 2) = r.reclen := by
    rw [hdrop16, List.append_assoc, List.take_left' (length_leBytes _ _), hcount]
  have hfits : 20 ≤ r.reclen ∧ r.reclen ≤ (r.bytes ++ rest).length := by
    rw [List.length_append]
    omega
  rw [readDirent, hsize, if_pos hfits, hino, hoff, htype, htake, hname,
    Tarfs.cString_append_zero, Tarfs.cString_eq_self h.text, hword, hword, List.drop_left' hlen]

/-- A record that is read is as long as it says. -/
theorem length_of_readDirent {bytes rest : List Byte} {r : DirentRecord}
    (h : readDirent bytes = some (r, rest)) : bytes.length = r.reclen + rest.length := by
  rw [readDirent] at h
  split_ifs at h with hfits
  cases h
  rw [List.length_drop]
  exact (Nat.add_sub_cancel' hfits.2).symm

/-- Records one behind the other are read back. -/
theorem readRecords_bytes {l : List DirentRecord} (h : ∀ r ∈ l, r.WellSized) {fuel : ℕ}
    (hfuel : l.length ≤ fuel) :
    readRecords readDirent fuel (l.flatMap DirentRecord.bytes) = some l := by
  induction l generalizing fuel with
  | nil => cases fuel <;> rfl
  | cons r l ih =>
      obtain ⟨fuel, rfl⟩ := Nat.exists_eq_succ_of_ne_zero (Nat.ne_zero_of_lt hfuel)
      have hr := h r List.mem_cons_self
      have hne : (r :: l).flatMap DirentRecord.bytes ≠ [] := by
        intro hnil
        have hlen := congrArg List.length hnil
        rw [List.flatMap_cons, List.length_append, hr.length_bytes, List.length_nil] at hlen
        have hbounds := hr.bounds
        omega
      rw [readRecords_of_read hne (List.flatMap_cons ▸ readDirent_bytes hr _),
        ih (fun s hs => h s (List.mem_cons_of_mem r hs)) (Nat.le_of_succ_le_succ hfuel)]
      rfl

/-! ### The records of a listing -/

/-- The record of an entry with this index. -/
def VfsDirent.record (ino : NodePtr → Word) (index : Word) (e : VfsDirent) : DirentRecord where
  ino := ino e.ino
  off := index + 1
  reclen := recordLength e.name
  type := e.type.setWidth 8
  name := e.name

/-- The records of entries from an index on. -/
def recordsFrom (ino : NodePtr → Word) : Word → List VfsDirent → List DirentRecord
  | _, [] => []
  | index, e :: l => e.record ino index :: recordsFrom ino (index + 1) l

/-- The number of bytes that an entry takes. -/
def VfsDirent.recordLength (e : VfsDirent) : ℕ := Utopia.recordLength e.name

section Records

variable {ino : NodePtr → Word} {index : Word} {l : List VfsDirent}

@[simp]
theorem length_recordsFrom : (recordsFrom ino index l).length = l.length := by
  induction l generalizing index with
  | nil => rfl
  | cons e l ih => rw [recordsFrom, List.length_cons, List.length_cons, ih]

theorem map_reclen_recordsFrom :
    (recordsFrom ino index l).map DirentRecord.reclen = l.map VfsDirent.recordLength := by
  induction l generalizing index with
  | nil => rfl
  | cons e l ih =>
      rw [recordsFrom, List.map_cons, List.map_cons, ih]
      rfl

theorem recordsFrom_wellSized (h : ∀ e ∈ l, 0 ∉ e.name ∧ e.name.length ≤ 255) :
    ∀ r ∈ recordsFrom ino index l, r.WellSized := by
  induction l generalizing index with
  | nil =>
      intro r hr
      cases hr
  | cons e l ih =>
      intro r hr
      rcases List.mem_cons.mp hr with rfl | hr
      · obtain ⟨htext, hshort⟩ := h e List.mem_cons_self
        exact ⟨rfl, htext, hshort⟩
      · exact ih (fun e he => h e (List.mem_cons_of_mem _ he)) r hr

theorem recordsFrom_append (l' : List VfsDirent) : recordsFrom ino index (l ++ l') =
    recordsFrom ino index l ++ recordsFrom ino (index + BitVec.ofNat 64 l.length) l' := by
  induction l generalizing index with
  | nil => simp [recordsFrom]
  | cons e l ih =>
      rw [List.cons_append, recordsFrom, recordsFrom, ih, List.cons_append, List.length_cons,
        Nat.add_comm, BitVec.ofNat_add, BitVec.add_assoc]
      rfl

theorem length_flatMap_bytes (h : ∀ r ∈ recordsFrom ino index l, r.WellSized) :
    ((recordsFrom ino index l).flatMap DirentRecord.bytes).length =
      (l.map VfsDirent.recordLength).sum := by
  rw [List.length_flatMap, ← @map_reclen_recordsFrom ino index]
  exact congrArg List.sum (List.map_congr_left fun r hr => (h r hr).length_bytes)

end Records

end Utopia
