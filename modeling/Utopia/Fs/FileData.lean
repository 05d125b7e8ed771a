/-
Reading and writing the bytes of a file: `tarfs_read`, `ramfs_read` and `ramfs_write`.
-/
import Utopia.Fs.TarfsTree
import Utopia.Mm.HeapSizes

namespace Utopia

/-- A run of indices that `memcpy` or `memset` touches in an array of `length` bytes. -/
structure Access where
  start : ℕ
  count : ℕ
  length : ℕ
deriving DecidableEq, Repr

/-- Every index touched is one of the array. -/
def Access.Inside (a : Access) : Prop := ∀ i, a.start ≤ i → i < a.start + a.count → i < a.length

/-- What a read returns and stores, and the indices of the node's data it touches. -/
structure ReadResult where
  status : ℤ
  bytesRead : Option Word
  memory : Memory
  touched : List Access

/-- The body that `tarfs_read` and `ramfs_read` share, for a node with `fileSize` bytes at
`data`; a null pointer is none. -/
def readFile (m : Memory) (type : VnodeType) (data : Option Word)
    (fileSize buffer size offset : Word) : ReadResult :=
  if buffer = 0 ∨ type ≠ .file then ⟨-1, none, m, []⟩
  else
    match data with
    | none => ⟨0, some 0, m, []⟩
    | some data =>
        if fileSize ≤ offset then ⟨0, some 0, m, []⟩
        else
          let size := if fileSize < offset + size then fileSize - offset else size
          ⟨0, some size, m.copy buffer (data + offset) size.toNat,
            [⟨offset.toNat, size.toNat, fileSize.toNat⟩]⟩

/-- Where the bytes of a node of the archive at `image` are. -/
def TarfsNode.dataAt (image : Word) (n : TarfsNode) : Option Word :=
  n.data.map fun d => image + BitVec.ofNat 64 d

/-- `tarfs_read`, for the archive at `image`. -/
def tarfsRead (m : Memory) (image : Word) (n : TarfsNode) (buffer size offset : Word) :
    ReadResult :=
  readFile m n.type (n.dataAt image) n.size buffer size offset

/-- The fields of `ramfs_node_t` that reading and writing use. -/
structure RamfsNode where
  type : VnodeType
  size : Word
  data : Word
deriving DecidableEq, Repr

def RamfsNode.dataAt (n : RamfsNode) : Option Word := if n.data = 0 then none else some n.data

/-- `ramfs_read` -/
def ramfsRead (m : Memory) (n : RamfsNode) (buffer size offset : Word) : ReadResult :=
  readFile m n.type n.dataAt n.size buffer size offset

/-- What a write returns, stores and touches; `status` is none where the call does not return. -/
structure WriteResult where
  status : Option ℤ
  written : Option Word
  node : RamfsNode
  memory : Memory
  touched : List Access

/-- The length of the block at `data`, which is a pointer from `malloc` or null. -/
def dataLength (m : Memory) (data : Word) : ℕ :=
  if data = 0 then 0 else (blockSize m (data - sizeofHeapBlock)).toNat

/-- The last `memcpy` of `ramfs_write`, into an array of `length` bytes. -/
def ramfsStore (m : Memory) (n : RamfsNode) (length : ℕ) (touched : List Access)
    (buffer size offset : Word) : WriteResult :=
  ⟨some 0, some size, n, m.copy (n.data + offset) buffer size.toNat,
    touched ++ [⟨offset.toNat, size.toNat, length⟩]⟩

/-- `ramfs_write` with its new array: it is cleared, takes over the old bytes, and the old
array is freed. -/
def ramfsGrow (head : Word) (m : Memory) (n : RamfsNode) (oldLength : ℕ) (newData : Word)
    (buffer size offset : Word) : WriteResult :=
  let needed := offset + size
  let length := dataLength m newData
  let node := { n with data := newData, size := needed }
  let cleared := [⟨0, needed.toNat, length⟩]
  let m := m.fill newData needed.toNat 0
  if n.data = 0 then ramfsStore m node length cleared buffer size offset
  else
    let m := m.copy newData n.data n.size.toNat
    let moved := cleared ++ [⟨0, n.size.toNat, oldLength⟩, ⟨0, n.size.toNat, length⟩]
    match free? head m n.data with
    | none => ⟨none, none, n, m, moved⟩
    | some m => ramfsStore m node length moved buffer size offset

/-- `ramfs_write` -/
def ramfsWrite (head : Word) (m : Memory) (n : RamfsNode) (buffer size offset : Word) :
    WriteResult :=
  if buffer = 0 ∨ n.type ≠ .file then ⟨some (-1), none, n, m, []⟩
  else if n.size < offset + size then
    match malloc? head m (offset + size) with
    | none => ⟨none, none, n, m, []⟩
    | some (newData, m') =>
        if newData = 0 then ⟨some (-1), none, n, m', []⟩
        else ramfsGrow head m' n (dataLength m n.data) newData buffer size offset
  else ramfsStore m n (dataLength m n.data) [] buffer size offset

/-! ### Reads -/

/-- The bytes that a read of `size` bytes at `offset` should transfer. -/
def transferSize (fileSize size offset : Word) : ℕ :=
  if offset.toNat < fileSize.toNat then min size.toNat (fileSize.toNat - offset.toNat) else 0

/-- The read has put just these bytes into the buffer, and touched no index outside the data. -/
structure ReadsExactly (m : Memory) (data : Option Word) (fileSize buffer size offset : Word)
    (result : ReadResult) : Prop where
  status : result.status = 0
  bytesRead : result.bytesRead.map BitVec.toNat = some (transferSize fileSize size offset)
  memory : result.memory =
    m.copy buffer (data.getD 0 + offset) (transferSize fileSize size offset)
  inside : ∀ a ∈ result.touched, a.Inside

/-- A read that transfers nothing. -/
theorem readsExactly_empty (m : Memory) (data : Option Word) {fileSize buffer size offset : Word}
    (h : ¬offset.toNat < fileSize.toNat) :
    ReadsExactly m data fileSize buffer size offset ⟨0, some 0, m, []⟩ := by
  have htransfer : transferSize fileSize size offset = 0 := if_neg h
  refine ⟨rfl, ?_, ?_, fun a ha => absurd ha List.not_mem_nil⟩
  · rw [htransfer]
    rfl
  · rw [htransfer]
    rfl

/-- The read is exact unless the sum of offset and size wraps while the offset lies in the file. -/
theorem readFile_exactly_iff (m : Memory) {data : Option Word} {fileSize buffer : Word}
    (size offset : Word) (hbuffer : buffer ≠ 0) (hdata : data = none → fileSize = 0) :
    ReadsExactly m data fileSize buffer size offset
        (readFile m .file data fileSize buffer size offset) ↔
      (offset.toNat < fileSize.toNat → offset.toNat + size.toNat < 2 ^ 64) := by
  have hargs : ¬(buffer = 0 ∨ VnodeType.file ≠ .file) := fun h =>
    h.elim hbuffer fun hne => hne rfl
  cases data with
  | none =>
      rw [readFile, if_neg hargs]
      have hbehind : ¬offset.toNat < fileSize.toNat := by
        rw [hdata rfl]
        exact Nat.not_lt_zero _
      exact ⟨fun _ hlt => absurd hlt hbehind, fun _ => readsExactly_empty m none hbehind⟩
  | some data =>
      rw [readFile, if_neg hargs]
      by_cases hempty : fileSize ≤ offset
      · rw [if_pos hempty]
        have hbehind : ¬offset.toNat < fileSize.toNat := Nat.not_lt.2 (BitVec.le_def.1 hempty)
        exact ⟨fun _ hlt => absurd hlt hbehind, fun _ => readsExactly_empty m _ hbehind⟩
      · rw [if_neg hempty]
        have hlt : offset.toNat < fileSize.toNat := by
          rwa [BitVec.not_le, BitVec.lt_def] at hempty
        have htransfer : transferSize fileSize size offset =
            min size.toNat (fileSize.toNat - offset.toNat) := if_pos hlt
        have hsize : (if fileSize < offset + size then fileSize - offset else size).toNat =
            if offset.toNat + size.toNat < 2 ^ 64 then transferSize fileSize size offset
            else size.toNat := by
          rw [htransfer]
          split_ifs <;> bv_omega
        generalize (if fileSize < offset + size then fileSize - offset else size) = count
          at hsize ⊢
        constructor
        · intro h _
          by_contra hwrap
          have hcount := h.bytesRead
          rw [Option.map_some, Option.some.injEq, hsize, if_neg hwrap, htransfer] at hcount
          omega
        · intro hfits
          rw [if_pos (hfits hlt)] at hsize
          refine ⟨rfl, congrArg some hsize, ?_, fun a ha i hi hend => ?_⟩
          · exact congrArg (m.copy buffer (data + offset)) hsize
          · obtain rfl := List.mem_singleton.1 ha
            dsimp only at hi hend ⊢
            omega

end Utopia
