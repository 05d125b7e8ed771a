/-
Null-terminated lists through a `next` pointer, as the list of their nodes.
-/
import Mathlib.Algebra.Order.Ring.Int
import Mathlib.Data.List.Nodup
import Mathlib.Data.List.Perm.Subperm
import Mathlib.Data.List.Range
import Mathlib.Logic.Function.Basic
import Mathlib.Order.CompletePartialOrder

namespace Utopia

universe u

variable {α : Type u} {next next' : α → Option α} {head : Option α} {a : α} {l : List α}

/-- The nodes from `head` along `next` are `l`, and the last `next` is null. -/
def IsList (next : α → Option α) : Option α → List α → Prop
  | head, [] => head = none
  | head, a :: l => head = some a ∧ IsList next (next a) l

/-- The node that `n` steps along `next` lead to. -/
def nthNode (next : α → Option α) (head : Option α) : ℕ → Option α
  | 0 => head
  | n + 1 => (nthNode next head n).bind next

@[simp]
theorem isList_nil : IsList next head [] ↔ head = none := Iff.rfl

theorem IsList.head_eq (h : IsList next head l) : head = l.head? := by
  cases l with
  | nil => exact h
  | cons a l => exact h.1

theorem IsList.congr (h : IsList next head l) (heq : ∀ a ∈ l, next' a = next a) :
    IsList next' head l := by
  induction l generalizing head with
  | nil => exact h
  | cons a l ih =>
      refine ⟨h.1, ?_⟩
      rw [heq a List.mem_cons_self]
      exact ih h.2 fun b hb => heq b (List.mem_cons_of_mem _ hb)

theorem IsList.of_update [DecidableEq α] {v : Option α} (h : IsList next head l)
    (ha : a ∉ l) : IsList (Function.update next a v) head l := by
  apply h.congr
  intro b hb
  apply Function.update_of_ne
  rintro rfl
  exact ha hb

/-- The nodes are determined by the pointers. -/
theorem IsList.unique {l' : List α} (h : IsList next head l) (h' : IsList next head l') :
    l = l' := by
  induction l generalizing head l' with
  | nil =>
      cases l' with
      | nil => rfl
      | cons b l' =>
          rw [isList_nil] at h
          rw [h] at h'
          cases h'.1
  | cons a l ih =>
      cases l' with
      | nil =>
          rw [isList_nil] at h'
          rw [h'] at h
          cases h.1
      | cons b l' =>
          obtain rfl : a = b := Option.some.inj (h.1.symm.trans h'.1)
          rw [ih h.2 h'.2]

theorem IsList.suffix {p q : List α} (h : IsList next head (p ++ a :: q)) :
    IsList next (next a) q := by
  induction p generalizing head with
  | nil => exact h.2
  | cons b p ih => exact ih h.2

/-- A list that ends visits no node twice. -/
theorem IsList.nodup (h : IsList next head l) : l.Nodup := by
  induction l generalizing head with
  | nil => exact List.nodup_nil
  | cons a l ih =>
      rw [List.nodup_cons]
      refine ⟨fun ha => ?_, ih h.2⟩
      obtain ⟨p, q, rfl⟩ := List.append_of_mem ha
      have hlen := congrArg List.length (h.2.unique h.2.suffix)
      simp only [List.length_append, List.length_cons] at hlen
      omega

/-- A list that ends is no longer than there are addresses. -/
theorem IsList.length_le {w : ℕ} {next : BitVec w → Option (BitVec w)}
    {head : Option (BitVec w)} {l : List (BitVec w)} (h : IsList next head l) :
    l.length ≤ 2 ^ w := by
  have hmap : (l.map BitVec.toNat).Nodup :=
    h.nodup.map fun a b hab => BitVec.eq_of_toNat_eq hab
  have hsub : l.map BitVec.toNat ⊆ List.range (2 ^ w) := by
    intro n hn
    obtain ⟨a, -, rfl⟩ := List.mem_map.mp hn
    exact List.mem_range.mpr a.isLt
  have hlen := (List.subperm_of_subset hmap hsub).length_le
  rwa [List.length_map, List.length_range] at hlen

theorem IsList.nthNode_eq (h : IsList next head l) (n : ℕ) :
    nthNode next head n = l[n]? := by
  have hstep : ∀ (l : List α) (head : Option α), IsList next head l → ∀ n a,
      l[n]? = some a → next a = l[n + 1]? := by
    intro l
    induction l with
    | nil => simp
    | cons b l ih =>
        intro head h n a ha
        cases n with
        | zero =>
            obtain rfl : b = a := by simpa using ha
            rw [List.getElem?_cons_succ, h.2.head_eq, List.head?_eq_getElem?]
        | succ n =>
            rw [List.getElem?_cons_succ] at ha ⊢
            exact ih _ h.2 n a ha
  induction n with
  | zero => rw [nthNode, h.head_eq, List.head?_eq_getElem?]
  | succ n ih =>
      rw [nthNode, ih]
      cases hn : l[n]? with
      | none =>
          have hlen := List.getElem?_eq_none_iff.mp hn
          rw [Option.bind_none, eq_comm, List.getElem?_eq_none_iff]
          omega
      | some a => exact hstep l head h n a hn

/-- A new node in front. -/
theorem IsList.push [DecidableEq α] (h : IsList next head l) (ha : a ∉ l) :
    IsList (Function.update next a head) (some a) (a :: l) := by
  refine ⟨rfl, ?_⟩
  rw [Function.update_self]
  exact h.of_update ha

/-- A new node behind the last one, `b`. -/
theorem IsList.append [DecidableEq α] {b : α} (h : IsList next head (l ++ [b]))
    (ha : a ∉ l ++ [b]) :
    IsList (Function.update (Function.update next a none) b (some a)) head
      (l ++ [b] ++ [a]) := by
  have hne : a ≠ b := by
    rintro rfl
    simp at ha
  induction l generalizing head with
  | nil =>
      refine ⟨h.1, ?_⟩
      rw [Function.update_self]
      refine ⟨rfl, ?_⟩
      rw [Function.update_of_ne hne, Function.update_self]
      rfl
  | cons c l ih =>
      have hnodup := h.nodup
      have hca : c ≠ a := by
        rintro rfl
        simp at ha
      have hcb : c ≠ b := by
        rintro rfl
        simp at hnodup
      refine ⟨h.1, ?_⟩
      rw [Function.update_of_ne hcb, Function.update_of_ne hca]
      exact ih h.2 fun hmem => ha (List.mem_cons_of_mem _ hmem)

/-! ### Loops along a list -/

section Loops

variable {σ : Type*}

/-- `for (p = head; p; p = p->next)` with the loop body `body`; `none` when the
list does not end within `fuel` nodes. -/
def walk (next : σ → α → Option α) (body : σ → α → σ) : ℕ → σ → Option α → Option σ
  | _, s, none => some s
  | 0, _, some _ => none
  | fuel + 1, s, some a => walk next body fuel (body s a) (next (body s a) a)

theorem IsList.walk_eq (next : σ → α → Option α) {body : σ → α → σ}
    (hnext : ∀ s a, next (body s a) = next s) {s : σ} (h : IsList (next s) head l) {fuel : ℕ}
    (hlen : l.length ≤ fuel) : walk next body fuel s head = some (l.foldl body s) := by
  induction l generalizing head s fuel with
  | nil =>
      rw [isList_nil] at h
      subst h
      cases fuel <;> rfl
  | cons a l ih =>
      obtain ⟨rfl, hrest⟩ := h
      cases fuel with
      | zero => simp at hlen
      | succ fuel =>
          rw [walk, List.foldl_cons]
          have hrest : IsList (next (body s a)) (next (body s a) a) l := by
            rw [hnext]
            exact hrest
          exact ih hrest (Nat.le_of_succ_le_succ hlen)

/-- The first node that meets `p`. -/
def findNode (next : α → Option α) (p : α → Bool) : ℕ → Option α → Option (Option α)
  | _, none => some none
  | 0, some _ => none
  | fuel + 1, some a => if p a then some (some a) else findNode next p fuel (next a)

theorem IsList.findNode_eq {p : α → Bool} (h : IsList next head l) {fuel : ℕ}
    (hlen : l.length ≤ fuel) : findNode next p fuel head = some (l.find? p) := by
  induction l generalizing head fuel with
  | nil =>
      rw [isList_nil] at h
      subst h
      cases fuel <;> rfl
  | cons a l ih =>
      obtain ⟨rfl, hrest⟩ := h
      cases fuel with
      | zero => simp at hlen
      | succ fuel =>
          rw [findNode, List.find?_cons]
          cases hp : p a with
          | true => simp
          | false => simpa using ih hrest (Nat.le_of_succ_le_succ hlen)

end Loops

/-! ### Removal through a pointer to the link -/

/-- The links of a list: its head, and the `next` field of each node. -/
structure Links (α : Type u) where
  head : Option α
  next : α → Option α

namespace Links

/-- `*pp`, where `pp` is `&head`, or `&prev->next`. -/
def slot (L : Links α) : Option α → Option α
  | none => L.head
  | some a => L.next a

@[simp]
theorem slot_none (L : Links α) : L.slot none = L.head := rfl

@[simp]
theorem slot_some (L : Links α) (a : α) : L.slot (some a) = L.next a := rfl

variable [DecidableEq α] {L : Links α} {prev q : Option α}

def setSlot (L : Links α) (prev v : Option α) : Links α :=
  match prev with
  | none => { L with head := v }
  | some a => { L with next := Function.update L.next a v }

def push (L : Links α) (a : α) : Links α := ⟨some a, Function.update L.next a L.head⟩

/-- `while (*pp && *pp != target) pp = &(*pp)->next; if (*pp) *pp = target->next;` -/
def unlink (target : α) : ℕ → Links α → Option α → Option (Links α)
  | 0, _, _ => none
  | fuel + 1, L, prev =>
      match L.slot prev with
      | none => some L
      | some a =>
          if a = target then some (L.setSlot prev (L.next target))
          else unlink target fuel L (some a)

/-- `while (*pp) if (p(*pp)) *pp = (*pp)->next; else pp = &(*pp)->next;`, and the
nodes that are taken out. -/
def removeIf (p : α → Bool) : ℕ → Links α → Option α → List α → Option (Links α × List α)
  | 0, _, _, _ => none
  | fuel + 1, L, prev, removed =>
      match L.slot prev with
      | none => some (L, removed)
      | some a =>
          if p a then removeIf p fuel (L.setSlot prev (L.next a)) prev (removed ++ [a])
          else removeIf p fuel L (some a) removed

@[simp]
theorem slot_setSlot_self (L : Links α) (prev v : Option α) :
    (L.setSlot prev v).slot prev = v := by
  cases prev with
  | none => rfl
  | some a => simp [setSlot]

theorem slot_setSlot_of_ne (h : q ≠ prev) (v : Option α) :
    (L.setSlot prev v).slot q = L.slot q := by
  cases prev with
  | none =>
      cases q with
      | none => exact absurd rfl h
      | some b => rfl
  | some a =>
      cases q with
      | none => rfl
      | some b =>
          apply Function.update_of_ne
          rintro rfl
          exact h rfl

theorem isList_setSlot (h : IsList L.next head l) (hprev : ∀ a ∈ l, prev ≠ some a)
    (v : Option α) : IsList (L.setSlot prev v).next head l :=
  h.congr fun a ha => slot_setSlot_of_ne (q := some a) (Ne.symm (hprev a ha)) v

theorem push_isList (h : IsList L.next L.head l) (ha : a ∉ l) :
    IsList (L.push a).next (L.push a).head (a :: l) :=
  IsList.push h ha

/-- Unlinking the target from the list behind `prev` changes nothing that is
outside it. -/
theorem unlink_eq (target : α) (prev : Option α) {fuel : ℕ} (h : IsList L.next (L.slot prev) l)
    (hprev : ∀ a ∈ l, prev ≠ some a) (hlen : l.length < fuel) :
    ∃ L', unlink target fuel L prev = some L' ∧
      IsList L'.next (L'.slot prev) (l.erase target) ∧
      ∀ q, q ≠ prev → (∀ a ∈ l, q ≠ some a) → L'.slot q = L.slot q := by
  induction l generalizing prev fuel with
  | nil =>
      obtain ⟨fuel, rfl⟩ := Nat.exists_eq_succ_of_ne_zero (Nat.ne_of_gt hlen)
      rw [isList_nil] at h
      exact ⟨L, by rw [unlink, h], h, fun _ _ _ => rfl⟩
  | cons a l ih =>
      obtain ⟨fuel, rfl⟩ := Nat.exists_eq_succ_of_ne_zero (Nat.ne_of_gt (Nat.zero_lt_of_lt hlen))
      have hnot := (List.nodup_cons.mp h.nodup).1
      obtain ⟨hslot, hrest⟩ := h
      rw [unlink, hslot]
      dsimp only
      split_ifs with ha
      · subst ha
        refine ⟨_, rfl, ?_, fun q hq _ => slot_setSlot_of_ne hq _⟩
        rw [slot_setSlot_self, List.erase_cons_head]
        exact isList_setSlot hrest (fun b hb => hprev b (List.mem_cons_of_mem a hb)) _
      · have hself : ∀ b ∈ l, some a ≠ some b := by
          rintro b hb hab
          cases hab
          exact hnot hb
        have hrest : IsList L.next (L.slot (some a)) l := hrest
        obtain ⟨L', hrun, hlist, hframe⟩ := ih (some a) hrest hself (Nat.lt_of_succ_lt_succ hlen)
        refine ⟨L', hrun, ?_, fun q hq hmem => ?_⟩
        · rw [List.erase_cons_tail (by simpa using ha)]
          refine ⟨?_, hlist⟩
          rw [hframe prev (hprev a List.mem_cons_self) fun b hb =>
            hprev b (List.mem_cons_of_mem a hb), hslot]
        · exact hframe q (hmem a List.mem_cons_self) fun b hb =>
            hmem b (List.mem_cons_of_mem a hb)

/-- Removing the nodes that meet `p` behind `prev` changes nothing outside. -/
theorem removeIf_eq (p : α → Bool) (prev : Option α) (removed : List α) {fuel : ℕ}
    (h : IsList L.next (L.slot prev) l) (hprev : ∀ a ∈ l, prev ≠ some a)
    (hlen : l.length < fuel) :
    ∃ L', removeIf p fuel L prev removed = some (L', removed ++ l.filter p) ∧
      IsList L'.next (L'.slot prev) (l.filter fun a => !p a) ∧
      ∀ q, q ≠ prev → (∀ a ∈ l, q ≠ some a) → L'.slot q = L.slot q := by
  induction l generalizing L prev fuel removed with
  | nil =>
      obtain ⟨fuel, rfl⟩ := Nat.exists_eq_succ_of_ne_zero (Nat.ne_of_gt hlen)
      rw [isList_nil] at h
      exact ⟨L, by simp [removeIf, h], h, fun _ _ _ => rfl⟩
  | cons a l ih =>
      obtain ⟨fuel, rfl⟩ := Nat.exists_eq_succ_of_ne_zero (Nat.ne_of_gt (Nat.zero_lt_of_lt hlen))
      have hnot := (List.nodup_cons.mp h.nodup).1
      obtain ⟨hslot, hrest⟩ := h
      have hprev' : ∀ b ∈ l, prev ≠ some b := fun b hb => hprev b (List.mem_cons_of_mem a hb)
      rw [removeIf, hslot]
      cases hp : p a with
      | true =>
          have hcut : IsList (L.setSlot prev (L.next a)).next
              ((L.setSlot prev (L.next a)).slot prev) l := by
            rw [slot_setSlot_self]
            exact isList_setSlot hrest hprev' _
          obtain ⟨L', hrun, hlist, hframe⟩ := ih prev (removed ++ [a]) hcut hprev'
            (Nat.lt_of_succ_lt_succ hlen)
          refine ⟨L', ?_, ?_, fun q hq hmem => ?_⟩
          · simpa [hp] using hrun
          · simpa [hp] using hlist
          · rw [hframe q hq fun b hb => hmem b (List.mem_cons_of_mem a hb)]
            exact slot_setSlot_of_ne hq _
      | false =>
          have hself : ∀ b ∈ l, some a ≠ some b := by
            rintro b hb hab
            cases hab
            exact hnot hb
          have hrest : IsList L.next (L.slot (some a)) l := hrest
          obtain ⟨L', hrun, hlist, hframe⟩ := ih (some a) removed hrest hself
            (Nat.lt_of_succ_lt_succ hlen)
          refine ⟨L', ?_, ?_, fun q hq hmem => ?_⟩
          · simpa [hp] using hrun
          · rw [List.filter_cons_of_pos (by simpa using hp)]
            refine ⟨?_, hlist⟩
            rw [hframe prev (hprev a List.mem_cons_self) hprev', hslot]
          · exact hframe q (hmem a List.mem_cons_self) fun b hb =>
              hmem b (List.mem_cons_of_mem a hb)

end Links

end Utopia
