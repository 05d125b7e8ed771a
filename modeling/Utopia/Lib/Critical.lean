/-
Critical sections: programs on one processor that turn its interrupts off and take spinlocks,
next to others that work on the same data.
-/
import Utopia.Lib.Keeps

namespace Utopia

/-- A processor: its flags register, the locks that it has taken and not given back, and the
data that all processors share.  `time` counts the locks taken. -/
structure Cpu (L D : Type) where
  flags : BitVec 64
  held : List L
  time : ℕ
  shared : D

/-- How locks lie in the data, and what other processors do to it while this one waits for
a lock. -/
structure Locks (L D : Type) where
  others : ℕ → L → D → D
  setLocked : L → Bool → D → D

section Programs

variable {ε L D α β : Type} [BEq L] (locks : Locks L D) (bit : ℕ)

/-- Clear the interrupt flag, and return the register as it was. -/
def saveInterrupts : EStateM ε (Cpu L D) (BitVec 64) := do
  let s ← get
  set { s with flags := s.flags &&& ~~~(1#64 <<< bit) }
  return s.flags

/-- Set the interrupt flag, if it is set in `flags`. -/
def restoreInterrupts (flags : BitVec 64) : EStateM ε (Cpu L D) PUnit := do
  if flags.getLsbD bit then
    modify fun s => { s with flags := s.flags ||| (1#64 <<< bit) }

/-- Wait until a lock is free, and take it. -/
def spinlockAcquire (l : L) : EStateM ε (Cpu L D) PUnit :=
  modify fun s =>
    { s with
      held := l :: s.held
      time := s.time + 1
      shared := locks.setLocked l true (locks.others s.time l s.shared) }

def spinlockRelease (l : L) : EStateM ε (Cpu L D) PUnit :=
  modify fun s =>
    { s with
      held := s.held.erase l
      shared := locks.setLocked l false s.shared }

/-- The shared data. -/
def readShared : EStateM ε (Cpu L D) D := do
  return (← get).shared

/-- A change to the shared data, or an error. -/
def onShared (f : D → Except ε (α × D)) : EStateM ε (Cpu L D) α := do
  let s ← get
  match f s.shared with
  | .error e => throw e
  | .ok (a, shared) =>
      set { s with shared := shared }
      return a

end Programs

/-- If the program returns, the register and the locks are as they were. -/
def Quiet {ε L D α : Type} (x : EStateM ε (Cpu L D) α) : Prop :=
  ∀ s a s', x s = .ok a s' → s'.flags = s.flags ∧ s'.held = s.held

/-- If the program returns, the interrupt flag and the locks are as they were. -/
def Balanced {ε L D α : Type} (bit : ℕ) (x : EStateM ε (Cpu L D) α) : Prop :=
  ∀ s a s', x s = .ok a s' → s'.flags.getLsbD bit = s.flags.getLsbD bit ∧ s'.held = s.held

section Runs

variable {ε σ α β : Type}

/-- A program that returns behind another. -/
theorem exists_of_bind_ok {x : EStateM ε σ α} {f : α → EStateM ε σ β} {s s' : σ} {b : β}
    (h : (x >>= f) s = .ok b s') : ∃ a t, x s = .ok a t ∧ f a t = .ok b s' := by
  cases hx : x s with
  | error e t =>
      rw [bind_of_error hx] at h
      cases h
  | ok a t =>
      rw [bind_of_ok hx] at h
      exact ⟨a, t, rfl, h⟩

end Runs

section Rules

variable {ε L D α β : Type} {bit : ℕ} {x : EStateM ε (Cpu L D) α}
  {f : α → EStateM ε (Cpu L D) β}

namespace Quiet

theorem readShared : Quiet (readShared : EStateM ε (Cpu L D) D) := by
  rintro s a s' ⟨⟩
  exact ⟨rfl, rfl⟩

theorem onShared (f : D → Except ε (α × D)) :
    Quiet (onShared f : EStateM ε (Cpu L D) α) := by
  intro s a s' h
  have hrun : Utopia.onShared f s = match f s.shared with
      | .error e => .error e s
      | .ok (a, shared) => .ok a { s with shared := shared } := by
    rw [Utopia.onShared]
    change (match f s.shared with
      | .error e => throw e
      | .ok (a, shared) => do
          set { s with shared := shared }
          return a : EStateM ε (Cpu L D) α) s = _
    cases f s.shared <;> rfl
  rw [hrun] at h
  cases hf : f s.shared with
  | error e =>
      rw [hf] at h
      cases h
  | ok r =>
      rw [hf] at h
      cases h
      exact ⟨rfl, rfl⟩

theorem balanced (h : Quiet x) : Balanced bit x := by
  intro s a s' hrun
  obtain ⟨hflags, hheld⟩ := h s a s' hrun
  exact ⟨by rw [hflags], hheld⟩

end Quiet

namespace Balanced

theorem pure (a : α) : Balanced bit (pure a : EStateM ε (Cpu L D) α) := by
  rintro s b s' ⟨⟩
  exact ⟨rfl, rfl⟩

theorem throw (e : ε) : Balanced bit (throw e : EStateM ε (Cpu L D) α) := by
  rintro s b s' ⟨⟩

theorem throw_bind (e : ε) : Balanced bit (MonadExcept.throw e >>= f) := by
  rintro s b s' ⟨⟩

theorem bind (hx : Balanced bit x) (hf : ∀ a, Balanced bit (f a)) : Balanced bit (x >>= f) := by
  intro s b s' hrun
  obtain ⟨a, t, hfirst, hrest⟩ := exists_of_bind_ok hrun
  obtain ⟨hflags, hheld⟩ := hx s a t hfirst
  obtain ⟨hflags', hheld'⟩ := hf a t b s' hrest
  exact ⟨hflags'.trans hflags, hheld'.trans hheld⟩

theorem ite {c : Prop} [Decidable c] {y : EStateM ε (Cpu L D) α} (hx : c → Balanced bit x)
    (hy : ¬ c → Balanced bit y) : Balanced bit (if c then x else y) := by
  by_cases hc : c
  · rw [if_pos hc]
    exact hx hc
  · rw [if_neg hc]
    exact hy hc

variable [BEq L] [LawfulBEq L] {locks : Locks L D}

/-- The flag behind a section: it was cleared, and it is set again if it was set before. -/
theorem flag_restored (hbit : bit < 64) (flags : BitVec 64) :
    (if flags.getLsbD bit then (flags &&& ~~~(1#64 <<< bit)) ||| (1#64 <<< bit)
      else flags &&& ~~~(1#64 <<< bit)).getLsbD bit = flags.getLsbD bit := by
  by_cases hset : flags.getLsbD bit
  · rw [if_pos hset, hset]
    simp [hbit]
  · rw [if_neg hset, Bool.eq_false_of_not_eq_true hset]
    simp [hbit]

/-- A section: interrupts off, lock, body, unlock, and the interrupts as they were. -/
theorem locked (hbit : bit < 64) (l : L) (hx : Quiet x) (hf : ∀ a, Balanced bit (f a)) :
    Balanced bit (do
      let flags ← saveInterrupts bit
      spinlockAcquire locks l
      let a ← x
      spinlockRelease locks l
      restoreInterrupts bit flags
      f a) := by
  intro s b s' hrun
  have hsave : saveInterrupts bit s =
      (.ok s.flags { s with flags := s.flags &&& ~~~(1#64 <<< bit) } :
        EStateM.Result ε (Cpu L D) _) := rfl
  rw [bind_of_ok hsave] at hrun
  obtain ⟨_, t, hacquire, hrun⟩ := exists_of_bind_ok hrun
  cases hacquire
  obtain ⟨a, t, hbody, hrun⟩ := exists_of_bind_ok hrun
  obtain ⟨hflags, hheld⟩ := hx _ _ _ hbody
  obtain ⟨_, t', hrelease, hrun⟩ := exists_of_bind_ok hrun
  cases hrelease
  obtain ⟨_, t', hrestore, hrun⟩ := exists_of_bind_ok hrun
  obtain ⟨hflagsRest, hheldRest⟩ := hf a _ _ _ hrun
  have hrestored : t'.flags.getLsbD bit = s.flags.getLsbD bit ∧ t'.held = s.held := by
    have hback : t.held.erase l = s.held := by
      rw [hheld]
      exact List.erase_cons_head ..
    rw [← flag_restored hbit s.flags]
    rw [restoreInterrupts] at hrestore
    by_cases hset : s.flags.getLsbD bit
    · rw [if_pos hset] at hrestore ⊢
      cases hrestore
      exact ⟨congrArg (fun v => (v ||| 1#64 <<< bit).getLsbD bit) hflags, hback⟩
    · rw [if_neg hset] at hrestore ⊢
      cases hrestore
      exact ⟨congrArg (fun v => v.getLsbD bit) hflags, hback⟩
  exact ⟨hflagsRest.trans hrestored.1, hheldRest.trans hrestored.2⟩

end Balanced

end Rules

end Utopia
