/-
The lists of owned pages, `vm_page_list_t`: growing arrays on the heap that
record the frames a process has to give back.
-/
import Utopia.Lib.Allocator
import Mathlib.Data.List.Nodup

namespace Utopia

/-- `vm_page_list_t`. -/
structure PageList where
  pages : Word
  count : Word
  cap : Word
deriving DecidableEq, Repr

/-- The list that `{0}` initialises. -/
def PageList.empty : PageList := ⟨0, 0, 0⟩

namespace Allocator

variable (alloc : Allocator)

/-- The part of `vm_page_list_add` that makes room: a larger array takes over
the pages recorded so far. -/
def pageListGrow (m : Memory) (list : PageList) : Int × Memory × PageList :=
  let newCap := if list.cap ≠ 0 then list.cap * 2 else 64
  let (np, m) := alloc.malloc m (newCap * 8)
  if np = 0 then (-1, m, list)
  else
    let m :=
      if list.pages ≠ 0 then alloc.free (m.copy np list.pages (list.count * 8).toNat) list.pages
      else m
    (0, m, { list with pages := np, cap := newCap })

def pageListAdd (m : Memory) (list : PageList) (page : Word) : Int × Memory × PageList :=
  let (status, m, list) :=
    if list.count = list.cap then alloc.pageListGrow m list else (0, m, list)
  if status ≠ 0 then (status, m, list)
  else
    (0, m.write64 (list.pages + 8 * list.count) page, { list with count := list.count + 1 })

/-- The loop of `vm_page_list_free` over the first `n` entries. -/
def freePages (m : Memory) (pages : Word) : Nat → Memory
  | 0 => m
  | n + 1 =>
      let m := freePages m pages n
      alloc.free m (m.read64 (pages + 8 * BitVec.ofNat 64 n))

def pageListFree (m : Memory) (list : PageList) : Memory × PageList :=
  let m := alloc.freePages m list.pages list.count.toNat
  let m := if list.pages ≠ 0 then alloc.free m list.pages else m
  (m, PageList.empty)

end Allocator

/-- The list records the pages `ps` in the chunks `array`: none at first, then
the one that holds the array. -/
inductive PageList.Holds (m : Memory) (list : PageList) : List Word → Set Chunk → Prop where
  | empty : list = PageList.empty → Holds m list [] ∅
  | array {ps : List Word} {c : Chunk} (hptr : c.ptr = list.pages) (hne : list.pages ≠ 0)
      (hroom : 8 * list.cap.toNat ≤ c.size) (hcount : list.count.toNat = ps.length)
      (hcap : list.count.toNat ≤ list.cap.toNat) (hpos : 64 ≤ list.cap.toNat)
      (hgrown : list.cap.toNat ≤ 64 ∨ list.cap.toNat ≤ 2 * list.count.toNat)
      (hpages : ∀ i (h : i < ps.length),
        m.read64 (list.pages + 8 * BitVec.ofNat 64 i) = ps[i]) : Holds m list ps {c}

namespace PageList

variable {alloc : Allocator} {m m' : Memory} {live : Set Chunk} {list : PageList}
  {ps : List Word} {array : Set Chunk}

theorem holds_empty (m : Memory) : PageList.empty.Holds m [] ∅ :=
  Holds.empty rfl

theorem Holds.length_eq (h : list.Holds m ps array) : ps.length = list.count.toNat := by
  cases h with
  | empty hlist => simp [hlist, PageList.empty]
  | array _ _ _ hcount => exact hcount.symm

/-- The address of entry `i` of an array that fits. -/
theorem slot_toNat {a : Word} {i n : Nat} (hi : i < n) (hfit : a.toNat + 8 * n ≤ 2 ^ 64) :
    (a + 8 * BitVec.ofNat 64 i).toNat = a.toNat + 8 * i := by
  have hnat : (8 * BitVec.ofNat 64 i : Word).toNat = 8 * i := by
    rw [BitVec.toNat_mul, BitVec.toNat_ofNat]
    change 8 * (i % 2 ^ 64) % 2 ^ 64 = 8 * i
    omega
  rw [toNat_add_of_lt (by omega), hnat]

/-- A list only depends on its array. -/
theorem Holds.congr (h : list.Holds m ps array) (hlive : alloc.Live m live)
    (hsub : array ⊆ live) (heq : ∀ c ∈ array, Set.EqOn m' m c.bytes) :
    list.Holds m' ps array := by
  cases h with
  | empty hlist => exact Holds.empty hlist
  | @array ps c hptr hne hroom hcount hcap hpos hgrown hpages =>
      refine Holds.array hptr hne hroom hcount hcap hpos hgrown fun i hi => ?_
      have hc : c ∈ live := hsub rfl
      have hfit := alloc.bytes_fit hlive hc
      rw [hptr] at hfit
      have hslot := slot_toNat (a := list.pages) (n := list.cap.toNat)
        (show i < list.cap.toNat by omega) (by omega)
      rw [← hpages i hi]
      refine Memory.read64_congr (by omega) ((heq c rfl).mono ?_)
      rw [Chunk.bytes, hptr]
      exact span_subset_span (by omega) (by omega)

/-! ### Growing -/

/-- What `vm_page_list_grow` and `vm_page_list_add` leave behind when they
succeed: the list records `ps` in the chunks `array'`, which replace `array`. -/
structure Moves (alloc : Allocator) (m : Memory) (live array : Set Chunk) (ps : List Word)
    (m' : Memory) (list' : PageList) (array' : Set Chunk) : Prop where
  holds : list'.Holds m' ps array'
  heap : alloc.Live m' (live \ array ∪ array')
  kept : Set.EqOn m' m (alloc.kept (live \ array))
  fresh : array' = array ∨ Disjoint array' live

theorem insert_diff_singleton {live : Set Chunk} {c d : Chunk} (hc : c ∉ live) (hd : d ∈ live) :
    insert c live \ {d} = live \ {d} ∪ {c} := by
  have hne : c ≠ d := by
    rintro rfl
    exact hc hd
  rw [Set.union_singleton, Set.insert_sdiff_of_notMem]
  exact hne

theorem pageListGrow_spec (hlive : alloc.Live m live) (h : list.Holds m ps array)
    (hsub : array ⊆ live) (hfull : list.count = list.cap) (hlen : ps.length ≤ 2 ^ 52) :
    alloc.pageListGrow m list = (-1, m, list) ∨
      ∃ m' list' array', alloc.pageListGrow m list = (0, m', list') ∧
        Moves alloc m live array ps m' list' array' ∧
        list'.count.toNat < list'.cap.toNat := by
  have hcount := h.length_eq
  rw [Allocator.pageListGrow]
  generalize hcap : (if list.cap ≠ 0 then list.cap * 2 else 64) = newCap
  have hnew : newCap.toNat = if list.cap.toNat = 0 then 64 else 2 * list.cap.toNat := by
    rw [← hfull] at hcap ⊢
    rw [← hcap]
    by_cases hzero : list.count = 0
    · simp [hzero]
    · have hpos : list.count.toNat ≠ 0 := fun hnat => hzero (BitVec.eq_of_toNat_eq hnat)
      rw [if_pos hzero, if_neg hpos, BitVec.toNat_mul]
      change list.count.toNat * 2 % 2 ^ 64 = _
      omega
  have hbound : newCap.toNat ≤ 2 ^ 53 := by
    rw [← hfull, ← hcount] at hnew
    split_ifs at hnew <;> omega
  have hbytes : (newCap * 8).toNat = 8 * newCap.toNat := by
    rw [BitVec.toNat_mul]
    change newCap.toNat * 8 % 2 ^ 64 = _
    omega
  rcases alloc.malloc_spec hlive (n := newCap * 8) (by omega) with
    hnull | ⟨c, m₁, hresult, hsize, hnew', hlive₁, hkept₁⟩
  · left
    simp only [hnull, if_true]
  right
  have hne := alloc.ptr_ne_zero hlive₁ (Set.mem_insert c live)
  have hfit := alloc.bytes_fit hlive₁ (Set.mem_insert c live)
  simp only [hresult, if_neg hne]
  have hpos : 64 ≤ newCap.toNat := by
    cases h with
    | empty hlist =>
        rw [hlist] at hnew
        simpa [PageList.empty] using hnew.ge
    | array _ _ _ _ _ hpos _ _ =>
        rw [if_neg (by omega)] at hnew
        omega
  have hgrown : newCap.toNat ≤ 64 ∨ newCap.toNat ≤ 2 * list.count.toNat := by
    rw [hfull, hnew]
    split_ifs <;> omega
  have hroom : 8 * newCap.toNat ≤ c.size := by omega
  have hless : list.count.toNat < newCap.toNat := by
    rw [hfull, hnew]
    split_ifs <;> omega
  cases h with
  | empty hlist =>
      have hnone : ¬ list.pages ≠ 0 := by
        rw [hlist]
        exact fun h => h rfl
      rw [if_neg hnone]
      refine ⟨_, _, {c}, rfl, ⟨?_, ?_, ?_, Or.inr ?_⟩, hless⟩
      · exact Holds.array rfl hne hroom (by simp [hlist, PageList.empty]) hless.le hpos
          hgrown fun i hi => absurd hi (Nat.not_lt_zero i)
      · rwa [Set.sdiff_empty, Set.union_singleton]
      · rwa [Set.sdiff_empty]
      · exact Set.disjoint_singleton_left.mpr hnew'
  | @array ps c₀ hptr hne₀ hroom₀ hlength hle hpos₀ _ hpages =>
      have hc₀ : c₀ ∈ live := hsub rfl
      have hfit₀ := alloc.bytes_fit hlive hc₀
      rw [hptr] at hfit₀
      simp only [if_pos hne₀]
      have hcopied : (list.count * 8).toNat = 8 * list.count.toNat := by
        rw [BitVec.toNat_mul]
        change list.count.toNat * 8 % 2 ^ 64 = _
        omega
      rw [hcopied]
      generalize hm₂ : m₁.copy c.ptr list.pages (8 * list.count.toNat) = m₂
      have hcopy : Set.EqOn m₂ m₁ (span c.ptr (8 * list.count.toNat))ᶜ := by
        rw [← hm₂]
        exact Memory.copy_eqOn _ _ (by omega)
      have hspan : span c.ptr (8 * list.count.toNat) ⊆ c.bytes :=
        span_subset_span le_rfl (by omega)
      obtain ⟨hlive₂, hkept₂⟩ := Allocator.written hnew' hlive₁ hkept₁ hspan hcopy
      obtain ⟨hlive₃, hkept₃⟩ := alloc.free_spec hlive₂ (Set.mem_insert_of_mem c hc₀)
      rw [hptr] at hlive₃ hkept₃
      rw [insert_diff_singleton hnew' hc₀] at hlive₃ hkept₃
      refine ⟨_, _, {c}, rfl, ⟨?_, hlive₃, ?_, Or.inr ?_⟩, hless⟩
      · refine Holds.array rfl hne hroom hlength hless.le hpos hgrown fun i hi => ?_
        have hi' : i < list.count.toNat := by omega
        have hoff : (8 * BitVec.ofNat 64 i : Word).toNat = 8 * i := by
          rw [BitVec.toNat_mul, BitVec.toNat_ofNat]
          change 8 * (i % 2 ^ 64) % 2 ^ 64 = 8 * i
          omega
        have hslot := slot_toNat (a := c.ptr) hi' (by omega)
        have hslot₀ := slot_toNat (a := list.pages) hi' (by omega)
        -- the entry survives the free, was copied, and was not touched by malloc
        calc (alloc.free m₂ list.pages).read64 (c.ptr + 8 * BitVec.ofNat 64 i)
            = m₂.read64 (c.ptr + 8 * BitVec.ofNat 64 i) := by
              refine Memory.read64_congr (by omega) (hkept₃.mono ?_)
              refine Set.Subset.trans ?_ (Allocator.bytes_subset_kept (Or.inr rfl))
              exact span_subset_span (by omega) (by omega)
          _ = m₁.read64 (list.pages + 8 * BitVec.ofNat 64 i) := by
              rw [← hm₂]
              exact Memory.read64_copy _ _ _ (by omega) (by omega)
          _ = m.read64 (list.pages + 8 * BitVec.ofNat 64 i) := by
              refine Memory.read64_congr (by omega) (hkept₁.mono ?_)
              refine Set.Subset.trans ?_ (Allocator.bytes_subset_kept hc₀)
              rw [Chunk.bytes, hptr]
              exact span_subset_span (by omega) (by omega)
          _ = ps[i] := hpages i hi
      · refine (hkept₃.mono ?_).trans (hkept₂.mono (Allocator.kept_diff_subset _))
        exact Allocator.kept_mono Set.subset_union_left
      · exact Set.disjoint_singleton_left.mpr hnew'

/-! ### Adding and freeing -/

/-- `vm_page_list_add` fails and does nothing, or records the page at the end. -/
theorem pageListAdd_spec (hlive : alloc.Live m live) (h : list.Holds m ps array)
    (hsub : array ⊆ live) (hlen : ps.length ≤ 2 ^ 52) (page : Word) :
    alloc.pageListAdd m list page = (-1, m, list) ∨
      ∃ m' list' array', alloc.pageListAdd m list page = (0, m', list') ∧
        Moves alloc m live array (ps ++ [page]) m' list' array' := by
  have hroom : (∃ m₁ list₁ array₁,
      (if list.count = list.cap then alloc.pageListGrow m list else (0, m, list)) =
        (0, m₁, list₁) ∧ Moves alloc m live array ps m₁ list₁ array₁ ∧
        list₁.count.toNat < list₁.cap.toNat) ∨
      (if list.count = list.cap then alloc.pageListGrow m list else (0, m, list)) =
        (-1, m, list) := by
    by_cases hfull : list.count = list.cap
    · rw [if_pos hfull]
      rcases pageListGrow_spec hlive h hsub hfull hlen with hfail | hgrown
      · exact Or.inr hfail
      · exact Or.inl hgrown
    · rw [if_neg hfull]
      left
      cases h with
      | empty hlist => exact absurd (by rw [hlist]; rfl) hfull
      | @array ps c hptr hne hroom hcount hcap hpos hgrown hpages =>
          have hless : list.count.toNat < list.cap.toNat :=
            lt_of_le_of_ne hcap fun heq => hfull (BitVec.eq_of_toNat_eq heq)
          refine ⟨m, list, {c}, rfl, ⟨Holds.array hptr hne hroom hcount hcap hpos hgrown
            hpages, ?_, Set.eqOn_refl _ _, Or.inl rfl⟩, hless⟩
          rwa [Set.sdiff_union_of_subset hsub]
  rw [Allocator.pageListAdd]
  rcases hroom with ⟨m₁, list₁, array₁, hrun, hmoves, hless⟩ | hfail
  · right
    simp only [hrun]
    obtain ⟨hholds, hheap, hkept, hfresh⟩ := hmoves
    cases hholds with
    | empty hlist => simp [hlist, PageList.empty] at hless
    | @array ps c hptr hne hroom hcount hcap hpos hgrown hpages =>
        have hc : c ∈ live \ array ∪ {c} := Or.inr rfl
        have hfit := alloc.bytes_fit hheap hc
        rw [hptr] at hfit
        have hslotCount : list₁.count = BitVec.ofNat 64 ps.length := by
          rw [← hcount, BitVec.ofNat_toNat, BitVec.setWidth_eq]
        have hlast := slot_toNat (a := list₁.pages) (n := list₁.cap.toNat)
          (show ps.length < list₁.cap.toNat by omega) (by omega)
        have hwrite : Set.EqOn
            (m₁.write64 (list₁.pages + 8 * list₁.count) page) m₁ c.bytesᶜ := by
          rw [hslotCount]
          refine (Memory.write64_eqOn _ _ (by omega)).mono (Set.compl_subset_compl.mpr ?_)
          rw [Chunk.bytes, hptr]
          exact span_subset_span (by omega) (by omega)
        have hnext : (list₁.count + 1).toNat = list₁.count.toNat + 1 :=
          toNat_add_of_lt (by
            change list₁.count.toNat + 1 < 2 ^ 64
            omega)
        have hgrown' : list₁.cap.toNat ≤ 64 ∨
            list₁.cap.toNat ≤ 2 * (list₁.count + 1).toNat := by
          rw [hnext]
          omega
        refine ⟨_, _, {c}, rfl, ⟨?_, ?_, ?_, hfresh⟩⟩
        · refine Holds.array hptr hne hroom ?_ ?_ hpos hgrown' fun i hi => ?_
          · rw [hnext, hcount, List.length_append, List.length_singleton]
          · rw [hnext]
            exact hless
          · change (m₁.write64 (list₁.pages + 8 * list₁.count) page).read64
              (list₁.pages + 8 * BitVec.ofNat 64 i) = _
            rw [List.length_append, List.length_singleton] at hi
            rcases Nat.lt_succ_iff_lt_or_eq.mp hi with hlt | rfl
            · have hslot := slot_toNat (a := list₁.pages) (n := list₁.cap.toNat)
                (show i < list₁.cap.toNat by omega) (by omega)
              rw [hslotCount, Memory.read64_write64_of_disjoint _ _ (by omega) (by omega)
                (by omega), List.getElem_append_left hlt]
              exact hpages i hlt
            · rw [hslotCount, Memory.read64_write64, List.getElem_concat_length rfl]
        · exact hheap.of_eqOn_compl (Allocator.bytes_subset_kept hc) hwrite
        · refine Set.EqOn.trans (hwrite.mono ?_) hkept
          intro x hx hxc
          have hout : c ∉ live \ array := by
            rcases hfresh with rfl | hdis
            · exact fun hmem => hmem.2 rfl
            · exact fun hmem => Set.disjoint_singleton_left.mp hdis hmem.1
          exact Set.disjoint_left.mp (Allocator.bytes_disjoint_kept hheap
            Set.subset_union_left hc hout) hxc hx
  · left
    simp only [hfail]
    rfl

/-- `vm_page_list_free` gives back the recorded pages and the array. -/
theorem pageListFree_spec (hlive : alloc.Live m live) (h : list.Holds m ps array)
    (hsub : array ⊆ live) (hnodup : ps.Nodup)
    (hps : ∀ p ∈ ps, ∃ c ∈ live, c ∉ array ∧ c.ptr = p) :
    (alloc.pageListFree m list).2 = PageList.empty ∧
      alloc.Frees m live (Allocator.chunksAt live { p | p ∈ ps } ∪ array)
        (alloc.pageListFree m list).1 := by
  refine ⟨rfl, ?_⟩
  cases h with
  | empty hlist =>
      have hdone : (alloc.pageListFree m list).1 = m := by
        simp [Allocator.pageListFree, hlist, PageList.empty, Allocator.freePages]
      rw [hdone]
      refine (Allocator.frees_refl hlive).congr_gone ?_
      ext c
      simp [Allocator.chunksAt]
  | @array ps c hptr hne hroom hcount hcap hpos hgrown hpages =>
      have hc : c ∈ live := hsub rfl
      have hfit := alloc.bytes_fit hlive hc
      rw [hptr] at hfit
      have harray : ∀ qs : List Word, qs ⊆ ps → c ∉ Allocator.chunksAt live { p | p ∈ qs } := by
        rintro qs hqs ⟨-, hmem⟩
        obtain ⟨d, hd, hdc, heq⟩ := hps c.ptr (hqs hmem)
        exact hdc (alloc.ptr_injOn hlive hd hc heq)
      have hloop : ∀ n ≤ ps.length, alloc.Frees m live
          (Allocator.chunksAt live { p | p ∈ ps.take n }) (alloc.freePages m list.pages n) := by
        intro n hn
        induction n with
        | zero =>
            refine (Allocator.frees_refl hlive).congr_gone ?_
            ext d
            simp [Allocator.chunksAt]
        | succ n ih =>
            have hdone := ih (by omega)
            have hslot := slot_toNat (a := list.pages) (n := list.cap.toNat)
              (show n < list.cap.toNat by omega) (by omega)
            have hread : (alloc.freePages m list.pages n).read64
                (list.pages + 8 * BitVec.ofNat 64 n) = ps[n] := by
              rw [← hpages n hn]
              refine Memory.read64_congr (by omega) (hdone.2.mono ?_)
              refine Set.Subset.trans ?_ (Allocator.bytes_subset_kept
                ⟨hc, harray _ (List.take_subset _ _)⟩)
              rw [Chunk.bytes, hptr]
              exact span_subset_span (by omega) (by omega)
            obtain ⟨d, hd, -, hdn⟩ := hps ps[n] (List.getElem_mem hn)
            have hstill : d ∈ live \ Allocator.chunksAt live { p | p ∈ ps.take n } := by
              refine ⟨hd, fun hgone => ?_⟩
              have hmem : ps[n] ∈ ps.take n := hdn ▸ hgone.2
              obtain ⟨i, hi, heq⟩ := List.mem_take_iff_getElem.mp hmem
              have hsame := (List.Nodup.getElem_inj_iff hnodup).mp heq
              omega
            rw [Allocator.freePages, hread, ← hdn]
            refine (hdone.trans (Allocator.frees_free hdone.1 hstill)).congr_gone ?_
            ext x
            simp only [Allocator.chunksAt, List.take_add_one, List.getElem?_eq_getElem hn,
              Option.toList_some, List.mem_append, List.mem_singleton, Set.mem_inter_iff,
              Set.mem_union, Set.mem_ofPred_eq, Set.mem_singleton_iff]
            constructor
            · rintro ⟨hx, ⟨-, hold⟩ | rfl⟩
              · exact ⟨hx, hx, Or.inl hold⟩
              · exact ⟨hx, hx, Or.inr hdn⟩
            · rintro ⟨hx, -, hold | hnew⟩
              · exact ⟨hx, Or.inl ⟨hx, hold⟩⟩
              · exact ⟨hx, Or.inr (alloc.ptr_injOn hlive hx hd (hnew.trans hdn.symm))⟩
      have hall := hloop ps.length le_rfl
      rw [List.take_length] at hall
      rw [Allocator.pageListFree, hcount]
      simp only [if_pos hne]
      rw [← hptr] at hall ⊢
      exact hall.trans (Allocator.frees_free hall.1 ⟨hc, harray ps (List.Subset.refl ps)⟩)

end PageList

end Utopia
