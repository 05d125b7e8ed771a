/-
The books of a call over the blocks that it asks the heap for.  A block is known by the number
of its request, so that it is not taken for a later one at the same address.
-/
import Mathlib.Data.List.Nodup
import Mathlib.Data.List.Perm.Lattice
import Utopia.Lib.Keeps

namespace Utopia

universe u

section Ensures

variable {ε σ α β : Type u}

/-- From a state of `Pre` the program ends in `Post`, if it ends with a result. -/
def Ensures (Pre : σ → Prop) (x : EStateM ε σ α) (Post : α → σ → Prop) : Prop :=
  ∀ s, Pre s → ∀ a s', x s = .ok a s' → Post a s'

namespace Ensures

variable {Pre Pre' : σ → Prop} {x : EStateM ε σ α} {f : α → EStateM ε σ β}
  {Post Post' : α → σ → Prop} {Last : β → σ → Prop}

theorem mono (h : Ensures Pre x Post) (hpre : ∀ s, Pre' s → Pre s)
    (hpost : ∀ a s, Post a s → Post' a s) : Ensures Pre' x Post' :=
  fun s hs a s' hrun => hpost a s' (h s (hpre s hs) a s' hrun)

theorem and (h : Ensures Pre x Post) (h' : Ensures Pre' x Post') :
    Ensures (fun s => Pre s ∧ Pre' s) x fun a s => Post a s ∧ Post' a s :=
  fun s hs a s' hrun => ⟨h s hs.1 a s' hrun, h' s hs.2 a s' hrun⟩

theorem pure {a : α} (h : ∀ s, Pre s → Post a s) :
    Ensures Pre (pure a : EStateM ε σ α) Post := by
  intro s hs b s' hrun
  cases hrun
  exact h s hs

theorem throw {e : ε} : Ensures Pre (throw e : EStateM ε σ α) Post := by
  intro s hs b s' hrun
  cases hrun

theorem bind (hx : Ensures Pre x Post) (hf : ∀ a, Ensures (Post a) (f a) Last) :
    Ensures Pre (x >>= f) Last := by
  intro s hs b s' hrun
  cases hxs : x s with
  | ok a s₁ =>
      rw [bind_of_ok hxs] at hrun
      exact hf a s₁ (hx s hs a s₁ hxs) b s' hrun
  | error e s₁ =>
      rw [bind_of_error hxs] at hrun
      cases hrun

theorem ite {c : Prop} [Decidable c] {x y : EStateM ε σ α} (hx : c → Ensures Pre x Post)
    (hy : ¬ c → Ensures Pre y Post) : Ensures Pre (if c then x else y) Post := by
  by_cases hc : c
  · rw [if_pos hc]
    exact hx hc
  · rw [if_neg hc]
    exact hy hc

/-- What the states have in common is a hypothesis. -/
theorem pull {c : Prop} (h : c → Ensures Pre x Post) : Ensures (fun s => c ∧ Pre s) x Post :=
  fun s hs => h hs.1 s hs.2

theorem get : Ensures Pre (get : EStateM ε σ σ) fun a s => a = s ∧ Pre s := by
  intro s hs a s' hrun
  cases hrun
  exact ⟨rfl, hs⟩

theorem any : Ensures Pre x fun _ _ => True := fun _ _ _ _ _ => trivial

end Ensures

end Ensures

/-- The books of a call: which requests the heap grants, how many were made, and the blocks
that were freed, oldest first. -/
structure Ledger where
  granted : ℕ → Bool
  requests : ℕ
  freed : List ℕ

namespace Ledger

variable (l : Ledger)

/-- Books without an entry. -/
def start (granted : ℕ → Bool) : Ledger := ⟨granted, 0, []⟩

/-- The blocks that were handed out. -/
def blocks : List ℕ := (List.range l.requests).filter l.granted

/-- Each block was freed once, and nothing else was freed. -/
def Settled : Prop := (∀ b ∈ l.blocks, l.freed.count b = 1) ∧ ∀ b ∈ l.freed, b ∈ l.blocks

/-- Each block is among those in `held`, or was freed once. -/
def Owes (held : List ℕ) : Prop := (held ++ l.freed).Perm l.blocks

variable {l} {held : List ℕ}

theorem blocks_nodup : l.blocks.Nodup := List.nodup_range.filter _

theorem Owes.nodup (h : l.Owes held) : held.Nodup :=
  (h.nodup_iff.mpr blocks_nodup).of_append_left

theorem owes_start (granted : ℕ → Bool) : (start granted).Owes [] := List.Perm.refl _

/-- The books are settled when nothing is held any more. -/
theorem Owes.settled_iff (h : l.Owes held) : l.Settled ↔ held = [] := by
  constructor
  · intro hsettled
    refine List.eq_nil_iff_forall_not_mem.mpr fun b hb => ?_
    have hblock : b ∈ l.blocks := h.mem_iff.mp (List.mem_append_left _ hb)
    have hfreed : b ∈ l.freed := List.count_pos_iff.mp (by rw [hsettled.1 b hblock]; exact one_pos)
    exact List.disjoint_of_nodup_append (h.nodup_iff.mpr blocks_nodup) hb hfreed
  · rintro rfl
    refine ⟨fun b hb => ?_, fun b hb => h.mem_iff.mp hb⟩
    exact List.count_eq_one_of_mem (h.nodup_iff.mpr blocks_nodup) (h.mem_iff.mpr hb)

theorem Owes.perm {held' : List ℕ} (h : l.Owes held) (hperm : held'.Perm held) :
    l.Owes held' :=
  (hperm.append_right _).trans h

end Ledger

/-- A call that keeps books, and stops where the kernel faults or waits for ever. -/
abbrev Charging (σ : Type) := EStateM Unit (Ledger × σ)

section Charging

variable {σ α : Type}

/-- `malloc` and its like: the block, or none. -/
def request : Charging σ (Option ℕ) := fun s =>
  .ok (if s.1.granted s.1.requests then some s.1.requests else none)
    ({ s.1 with requests := s.1.requests + 1 }, s.2)

/-- `free`. -/
def release (b : Option ℕ) : Charging σ Unit := fun s =>
  .ok () ({ s.1 with freed := s.1.freed ++ b.toList }, s.2)

/-- A step that the books do not record. -/
def unrecorded (step : σ → Option (α × σ)) : Charging σ α := fun s =>
  match step s.2 with
  | none => .error () s
  | some (a, rest) => .ok a (s.1, rest)

/-- The blocks of `held` are still to be freed, and the rest of the state is in `Rest`. -/
def Books (held : List ℕ) (Rest : σ → Prop) (s : Ledger × σ) : Prop :=
  s.1.Owes held ∧ Rest s.2

variable {held : List ℕ} {Rest : σ → Prop} {b : Option ℕ}

theorem request_ensures :
    Ensures (Books held Rest) request fun b => Books (b.toList ++ held) Rest := by
  rintro ⟨l, rest⟩ ⟨howes, hrest⟩ b s' hrun
  cases hrun
  refine ⟨?_, hrest⟩
  have hblocks : Ledger.blocks { l with requests := l.requests + 1 } =
      l.blocks ++ [l.requests].filter l.granted := by
    rw [Ledger.blocks, List.range_succ, List.filter_append]
    rfl
  rw [Ledger.Owes, hblocks]
  cases hgranted : l.granted l.requests with
  | true =>
      have hnew : [l.requests].filter l.granted = [l.requests] := by simp [hgranted]
      rw [hnew, if_pos rfl]
      exact (howes.cons l.requests).trans (List.perm_append_singleton _ _).symm
  | false =>
      have hnone : [l.requests].filter l.granted = [] := by simp [hgranted]
      rw [hnone, List.append_nil, if_neg Bool.false_ne_true]
      exact howes

theorem release_ensures :
    Ensures (Books (b.toList ++ held) Rest) (release b) fun _ => Books held Rest := by
  rintro ⟨l, rest⟩ ⟨howes, hrest⟩ _ s' hrun
  cases hrun
  refine ⟨List.Perm.trans ?_ howes, hrest⟩
  rw [← List.append_assoc, List.append_assoc b.toList]
  exact List.perm_append_comm

theorem unrecorded_ensures {step : σ → Option (α × σ)} {Rest' : α → σ → Prop}
    (h : ∀ s a s', Rest s → step s = some (a, s') → Rest' a s') :
    Ensures (Books held Rest) (unrecorded step) fun a => Books held (Rest' a) := by
  rintro ⟨l, rest⟩ ⟨howes, hrest⟩ a s' hrun
  rw [unrecorded] at hrun
  cases hstep : step rest with
  | none =>
      simp only [hstep] at hrun
      cases hrun
  | some result =>
      obtain ⟨a₁, rest₁⟩ := result
      simp only [hstep] at hrun
      cases hrun
      exact ⟨howes, h _ _ _ hrest hstep⟩

theorem Books.perm {held' : List ℕ} {s : Ledger × σ} (h : Books held Rest s)
    (hperm : held'.Perm held) : Books held' Rest s :=
  ⟨h.1.perm hperm, h.2⟩

end Charging

end Utopia
