/-
What the users of an allocator rely on.  The allocator owns the bytes of an
arena; the chunks it has handed out are disjoint, and together with the bytes
outside the arena they are kept by every one of its operations.
-/
import Utopia.Lib.Memory
import Mathlib.Data.Fintype.Card

namespace Utopia

/-- A piece of memory that was handed out. -/
structure Chunk where
  ptr : Word
  size : Nat
deriving DecidableEq, Repr

def Chunk.bytes (c : Chunk) : Set Word := span c.ptr c.size

/-- The bytes an allocator with the live chunks `live` leaves alone. -/
def keptBytes (arena : Set Word) (live : Set Chunk) : Set Word :=
  { x | x ∉ arena ∨ ∃ c ∈ live, x ∈ c.bytes }

/-- `ptr` is null, and nothing happened, or it is a new chunk with room for `n`
bytes. -/
def Granted (arena : Set Word) (Live : Memory → Set Chunk → Prop) (live : Set Chunk)
    (n : Nat) (m : Memory) (result : Word × Memory) : Prop :=
  result = (0, m) ∨ ∃ c m', result = (c.ptr, m') ∧ n ≤ c.size ∧ c ∉ live ∧
    Live m' (insert c live) ∧ Set.EqOn m' m (keptBytes arena live)

/-- An allocator: its operations on memory, the relation that says which chunks
are live in a memory, and the laws that connect them. -/
structure Allocator where
  malloc : Memory → Word → Word × Memory
  pageAlloc : Memory → Word → Word × Memory
  free : Memory → Word → Memory
  arena : Set Word
  Live : Memory → Set Chunk → Prop
  ptr_ne_zero : ∀ {m live c}, Live m live → c ∈ live → c.ptr ≠ 0
  bytes_subset : ∀ {m live c}, Live m live → c ∈ live → c.bytes ⊆ arena
  bytes_fit : ∀ {m live c}, Live m live → c ∈ live → c.ptr.toNat + c.size ≤ 2 ^ 64
  ptr_injOn : ∀ {m live c d}, Live m live → c ∈ live → d ∈ live → c.ptr = d.ptr → c = d
  bytes_disjoint : ∀ {m live c d}, Live m live → c ∈ live → d ∈ live → c ≠ d →
    Disjoint c.bytes d.bytes
  live_congr : ∀ {m m' live}, Live m live → Set.EqOn m' m (keptBytes arena live)ᶜ →
    Live m' live
  malloc_spec : ∀ {m live n}, Live m live → n.toNat + 8 ≤ 2 ^ 64 →
    Granted arena Live live n.toNat m (malloc m n)
  pageAlloc_spec : ∀ {m live pages}, Live m live →
    4096 * pages.toNat + 8192 ≤ 2 ^ 64 → (pageAlloc m pages).1.toNat % 4096 = 0 ∧
      Granted arena Live live (4096 * pages.toNat) m (pageAlloc m pages)
  pageAlloc_null : ∀ {m live pages}, Live m live → (pageAlloc m pages).1 = 0 →
    pageAlloc m pages = (0, m)
  free_zero : ∀ m, free m 0 = m
  free_spec : ∀ {m live c}, Live m live → c ∈ live →
    Live (free m c.ptr) (live \ {c}) ∧
      Set.EqOn (free m c.ptr) m (keptBytes arena (live \ {c}))

namespace Allocator

variable (alloc : Allocator) {m m' : Memory} {live live' : Set Chunk} {c : Chunk}

/-- The bytes that stay as they are while the chunks `live` are live. -/
def kept (live : Set Chunk) : Set Word := keptBytes alloc.arena live

variable {alloc}

theorem kept_mono (hsub : live ⊆ live') : alloc.kept live ⊆ alloc.kept live' := by
  rintro x (hx | ⟨c, hc, hx⟩)
  · exact Or.inl hx
  · exact Or.inr ⟨c, hsub hc, hx⟩

theorem bytes_subset_kept (hc : c ∈ live) : c.bytes ⊆ alloc.kept live :=
  fun _ hx => Or.inr ⟨c, hc, hx⟩

/-- A new chunk lies outside everything kept before. -/
theorem bytes_disjoint_kept (h : alloc.Live m live') (hsub : live ⊆ live')
    (hc : c ∈ live') (hnew : c ∉ live) : Disjoint c.bytes (alloc.kept live) := by
  rw [Set.disjoint_left]
  rintro x hx (hout | ⟨d, hd, hxd⟩)
  · exact hout (alloc.bytes_subset h hc hx)
  · have hne : c ≠ d := by
      rintro rfl
      exact hnew hd
    exact Set.disjoint_left.mp (alloc.bytes_disjoint h hc (hsub hd) hne) hx hxd

theorem kept_diff_subset (gone : Set Chunk) : alloc.kept (live \ gone) ⊆ alloc.kept live :=
  kept_mono Set.sdiff_subset

/-- The bytes of a live chunk are outside what is kept without it. -/
theorem bytes_disjoint_kept_diff {gone : Set Chunk} (h : alloc.Live m live) (hc : c ∈ live)
    (hgone : c ∈ gone) : Disjoint c.bytes (alloc.kept (live \ gone)) :=
  bytes_disjoint_kept h Set.sdiff_subset hc fun hmem => hmem.2 hgone

theorem kept_diff_inter {gone gone' : Set Chunk} (h : alloc.Live m live) {x : Word}
    (hx : x ∈ alloc.kept (live \ gone)) (hx' : x ∈ alloc.kept (live \ gone')) :
    x ∈ alloc.kept (live \ (gone ∪ gone')) := by
  rcases hx with hout | ⟨c, hc, hxc⟩
  · exact Or.inl hout
  rcases hx' with hout | ⟨d, hd, hxd⟩
  · exact Or.inl hout
  refine Or.inr ⟨c, ⟨hc.1, ?_⟩, hxc⟩
  rintro (hmem | hmem)
  · exact hc.2 hmem
  · have hne : c ≠ d := by
      rintro rfl
      exact hd.2 hmem
    exact Set.disjoint_left.mp (alloc.bytes_disjoint h hc.1 hd.1 hne) hxc hxd

/-- Stores to kept bytes do not disturb the allocator. -/
theorem Live.of_eqOn_compl {s : Set Word} (h : alloc.Live m live)
    (hs : s ⊆ alloc.kept live) (heq : Set.EqOn m' m sᶜ) : alloc.Live m' live :=
  alloc.live_congr h (heq.mono (Set.compl_subset_compl.mpr hs))

/-- A new chunk is written to. -/
theorem written {m₁ m₂ : Memory} {s : Set Word} (hnew : c ∉ live)
    (hlive : alloc.Live m₁ (insert c live)) (hkept : Set.EqOn m₁ m (alloc.kept live))
    (hs : s ⊆ c.bytes) (hwrite : Set.EqOn m₂ m₁ sᶜ) :
    alloc.Live m₂ (insert c live) ∧ Set.EqOn m₂ m (alloc.kept live) := by
  have hc := Set.mem_insert c live
  refine ⟨hlive.of_eqOn_compl (hs.trans (bytes_subset_kept hc)) hwrite, fun x hx => ?_⟩
  rw [← hkept hx]
  apply hwrite
  exact fun hxs => Set.disjoint_left.mp
    (bytes_disjoint_kept hlive (Set.subset_insert c live) hc hnew) (hs hxs) hx

/-- There are no more pages than fit into the address space. -/
theorem length_le {ptrs : List Word} (h : alloc.Live m live) (hnodup : ptrs.Nodup)
    (hchunks : ∀ p ∈ ptrs, ∃ c ∈ live, c.ptr = p ∧ 4096 ≤ c.size) : ptrs.length ≤ 2 ^ 52 := by
  let pageOf (p : Word) : Fin (2 ^ 52) := ⟨p.toNat / 4096, by omega⟩
  have hnodup' : (ptrs.map pageOf).Nodup := by
    refine hnodup.map_on fun p hp q hq heq => ?_
    have hpage : p.toNat / 4096 = q.toNat / 4096 := congrArg Fin.val heq
    obtain ⟨c, hc, rfl, hcsize⟩ := hchunks p hp
    obtain ⟨d, hd, rfl, hdsize⟩ := hchunks q hq
    by_contra hne
    have hdis := alloc.bytes_disjoint h hc hd fun hcd => hne (congrArg Chunk.ptr hcd)
    rcases Nat.le_total c.ptr.toNat d.ptr.toNat with hle | hle
    · exact Set.disjoint_left.mp hdis (show d.ptr ∈ c.bytes from ⟨hle, by omega⟩)
        ⟨le_rfl, by omega⟩
    · exact Set.disjoint_left.mp hdis (show c.ptr ∈ c.bytes from ⟨le_rfl, by omega⟩)
        ⟨hle, by omega⟩
  simpa using List.Nodup.length_le_card hnodup'

/-! ### Giving chunks back -/

/-- The live chunks that start at one of the addresses `ptrs`. -/
def chunksAt (live : Set Chunk) (ptrs : Set Word) : Set Chunk :=
  { c ∈ live | c.ptr ∈ ptrs }

/-- The chunks `gone` were given back, and nothing else happened. -/
def Frees (alloc : Allocator) (m : Memory) (live gone : Set Chunk) (m' : Memory) : Prop :=
  alloc.Live m' (live \ gone) ∧ Set.EqOn m' m (alloc.kept (live \ gone))

theorem frees_refl (h : alloc.Live m live) : alloc.Frees m live ∅ m := by
  rw [Frees, Set.sdiff_empty]
  exact ⟨h, Set.eqOn_refl _ _⟩

theorem frees_free (h : alloc.Live m live) (hc : c ∈ live) :
    alloc.Frees m live {c} (alloc.free m c.ptr) :=
  alloc.free_spec h hc

theorem Frees.trans {m'' : Memory} {gone gone' : Set Chunk}
    (h : alloc.Frees m live gone m') (h' : alloc.Frees m' (live \ gone) gone' m'') :
    alloc.Frees m live (gone ∪ gone') m'' := by
  rw [Frees, ← Set.sdiff_sdiff]
  refine ⟨h'.1, h'.2.trans (h.2.mono ?_)⟩
  exact kept_diff_subset _

theorem Frees.congr_gone {gone gone' : Set Chunk} (h : alloc.Frees m live gone m')
    (heq : live ∩ gone = live ∩ gone') : alloc.Frees m live gone' m' := by
  have hdiff : live \ gone' = live \ gone := by
    rw [← Set.sdiff_inter_self_eq_sdiff, ← Set.sdiff_inter_self_eq_sdiff (t := gone),
      Set.inter_comm, ← heq, Set.inter_comm]
  rwa [Frees, hdiff]

end Allocator

end Utopia
