/-
The kernel heap of `mm/pmm.c`: `malloc`, `calloc`, `free` and `page_alloc` on
the block headers as they lie in memory.
-/
import Utopia.Lib.Memory

namespace Utopia

/-- `sizeof(heap_block_t)`: two words, the flag byte and seven bytes of padding. -/
def sizeofHeapBlock : Word := 24

/-- `heap_block_t`: the header in front of every payload. -/
structure HeapBlock where
  size : Word
  next : Word
  free : Bool
deriving DecidableEq, Repr

def blockSize (m : Memory) (block : Word) : Word := m.read64 block

def blockNext (m : Memory) (block : Word) : Word := m.read64 (block + 8)

def blockFree (m : Memory) (block : Word) : Bool := m (block + 16) ≠ 0

def loadBlock (m : Memory) (block : Word) : HeapBlock :=
  ⟨blockSize m block, blockNext m block, blockFree m block⟩

def setBlockSize (m : Memory) (block size : Word) : Memory :=
  m.write64 block size

def setBlockNext (m : Memory) (block next : Word) : Memory :=
  m.write64 (block + 8) next

def setBlockFree (m : Memory) (block : Word) (free : Bool) : Memory :=
  m.write8 (block + 16) (if free then 1 else 0)

/-- Bound on the blocks a list walk visits; `none` in a walk's result means
that it was still running there. -/
def walkFuel : Nat := 2 ^ 64

/-- The loop `while (curr)` shared by `malloc` and `page_alloc`: stop at the
first block where `place` succeeds. -/
def firstFit (place : Memory → Word → Option (Word × Memory)) :
    Nat → Memory → Word → Option (Word × Memory)
  | 0, _, _ => none
  | fuel + 1, m, curr =>
      if curr = 0 then some (0, m)
      else
        match place m curr with
        | some result => some result
        | none => firstFit place fuel m (blockNext m curr)

/-- Cut `block` down to `size` bytes when the rest can hold a header and
sixteen bytes; the rest becomes a free block behind it. -/
def splitBlock (m : Memory) (block size : Word) : Memory :=
  if size + sizeofHeapBlock + 16 ≤ blockSize m block then
    let next := block + sizeofHeapBlock + size
    let m := setBlockSize m next (blockSize m block - size - sizeofHeapBlock)
    let m := setBlockNext m next (blockNext m block)
    let m := setBlockFree m next true
    let m := setBlockSize m block size
    setBlockNext m block next
  else m

/-- The body of `malloc`'s loop. -/
def mallocPlace (size : Word) (m : Memory) (curr : Word) :
    Option (Word × Memory) :=
  if blockFree m curr ∧ size ≤ blockSize m curr then
    some (curr + sizeofHeapBlock, setBlockFree (splitBlock m curr size) curr false)
  else none

/-- `malloc(size)` on the heap whose first block is `head`, once
`pmm_initialized` is set; a null result is 0. -/
def malloc? (head : Word) (m : Memory) (size : Word) : Option (Word × Memory) :=
  if size = 0 then some (0, m)
  else firstFit (mallocPlace ((size + 7) &&& ~~~7)) walkFuel m head

def calloc? (head : Word) (m : Memory) (num size : Word) :
    Option (Word × Memory) :=
  let totalSize := num * size
  (malloc? head m totalSize).map fun (ptr, m) =>
    if ptr ≠ 0 then (ptr, m.fill ptr totalSize.toNat 0) else (ptr, m)

/-- The merge loop of `free`. -/
def coalesce : Nat → Memory → Word → Option Memory
  | 0, _, _ => none
  | fuel + 1, m, curr =>
      if curr = 0 then some m
      else if blockFree m curr ∧ blockNext m curr ≠ 0 ∧
          blockFree m (blockNext m curr) then
        let m := setBlockSize m curr
          (blockSize m curr + (sizeofHeapBlock + blockSize m (blockNext m curr)))
        let m := setBlockNext m curr (blockNext m (blockNext m curr))
        coalesce fuel m curr
      else coalesce fuel m (blockNext m curr)

def free? (head : Word) (m : Memory) (ptr : Word) : Option Memory :=
  if ptr = 0 then some m
  else coalesce walkFuel (setBlockFree m (ptr - sizeofHeapBlock) true) head

/-- `aligned_addr` and `padding` for a payload starting at `rawAddr`: padding
that could not hold a header and sixteen bytes is enlarged by a page. -/
def alignPayload (rawAddr : Word) : Word × Word :=
  let alignedAddr := (rawAddr + (4096 - 1)) &&& ~~~(4096 - 1)
  let padding := alignedAddr - rawAddr
  if padding ≠ 0 ∧ padding < sizeofHeapBlock + 16 then
    (alignedAddr + 4096, padding + 4096)
  else (alignedAddr, padding)

/-- Take `block` from its aligned address on: the padding in front stays behind
as a free block, or the block is taken whole. -/
def cutPadding (m : Memory) (block alignedAddr padding : Word) : Word × Memory :=
  if sizeofHeapBlock + 16 ≤ padding then
    let alignedBlock := alignedAddr - sizeofHeapBlock
    let m := setBlockSize m alignedBlock (blockSize m block - padding)
    let m := setBlockNext m alignedBlock (blockNext m block)
    let m := setBlockFree m alignedBlock false
    let m := setBlockSize m block (padding - sizeofHeapBlock)
    let m := setBlockNext m block alignedBlock
    (alignedBlock, setBlockFree m block true)
  else (block, setBlockFree m block false)

/-- The body of `page_alloc`'s loop. -/
def pagePlace (size : Word) (m : Memory) (curr : Word) :
    Option (Word × Memory) :=
  if blockFree m curr then
    let (alignedAddr, padding) := alignPayload (curr + sizeofHeapBlock)
    if size + padding ≤ blockSize m curr then
      let (target, m) := cutPadding m curr alignedAddr padding
      some (alignedAddr, splitBlock m target size)
    else none
  else none

def pageAlloc? (head : Word) (m : Memory) (pages : Word) :
    Option (Word × Memory) :=
  firstFit (pagePlace (4096 * pages)) walkFuel m head

/-- The end of `memory_init`: the largest usable region becomes one free block. -/
def initHead (m : Memory) (head largestFreeSize : Word) : Memory :=
  let m := setBlockSize m head (largestFreeSize - sizeofHeapBlock)
  let m := setBlockNext m head 0
  setBlockFree m head true

end Utopia
