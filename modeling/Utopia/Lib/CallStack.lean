/-
Machines with a call stack: a call goes on, enters another call, or leaves with a
result for its caller.  Calls that return, with a bound on how deep they nest.
-/
import Mathlib.Algebra.Order.Ring.Int
import Mathlib.Logic.Function.Iterate
import Mathlib.Order.CompletePartialOrder

namespace Utopia

universe u v

variable {φ : Type u} {ρ : Type v}

/-- What a call in progress does next. -/
inductive Move (φ : Type u) (ρ : Type v) where
  | goOn (call : φ)
  | enter (callee caller : φ)
  | leave (result : ρ)
  | stuck

/-- `resume` is what a waiting call does with the result of its callee: it goes on, or
leaves with a result of its own. -/
structure CallMachine (φ : Type u) (ρ : Type v) where
  next : φ → Move φ ρ
  resume : φ → ρ → φ ⊕ ρ

/-- The call in progress and the calls that wait, the innermost first. -/
inductive MachineState (φ : Type u) (ρ : Type v) where
  | running (call : φ) (callers : List φ)
  | returned (result : ρ) (callers : List φ)
  | stuck

namespace MachineState

/-- The number of calls that are nested. -/
def depth : MachineState φ ρ → ℕ
  | running _ callers => callers.length + 1
  | returned _ callers => callers.length
  | stuck => 0

/-- Not stuck, and at most `bound` calls are nested. -/
def Within (bound : ℕ) (s : MachineState φ ρ) : Prop := s ≠ .stuck ∧ s.depth ≤ bound

theorem Within.mono {bound bound' : ℕ} {s : MachineState φ ρ} (h : s.Within bound)
    (hle : bound ≤ bound') : s.Within bound' :=
  ⟨h.1, h.2.trans hle⟩

end MachineState

namespace CallMachine

variable (m : CallMachine φ ρ)

def step : MachineState φ ρ → MachineState φ ρ
  | .running call callers =>
      match m.next call with
      | .goOn call => .running call callers
      | .enter callee caller => .running callee (caller :: callers)
      | .leave result => .returned result callers
      | .stuck => .stuck
  | .returned result [] => .returned result []
  | .returned result (caller :: callers) =>
      match m.resume caller result with
      | .inl call => .running call callers
      | .inr result => .returned result callers
  | .stuck => .stuck

def run (k : ℕ) (s : MachineState φ ρ) : MachineState φ ρ := m.step^[k] s

variable {m} {s t u : MachineState φ ρ} {bound : ℕ}

@[simp]
theorem run_zero (s : MachineState φ ρ) : m.run 0 s = s := rfl

theorem run_succ' (k : ℕ) (s : MachineState φ ρ) : m.run (k + 1) s = m.step (m.run k s) :=
  Function.iterate_succ_apply' _ _ _

theorem run_add (j k : ℕ) (s : MachineState φ ρ) : m.run (j + k) s = m.run j (m.run k s) :=
  Function.iterate_add_apply _ _ _ _

/-- The last result stays. -/
theorem run_returned (k : ℕ) (result : ρ) :
    m.run k (.returned result []) = .returned result [] := by
  induction k with
  | zero => rfl
  | succ k ih => exact ih

/-- The machine comes from `s` to `t`, and is within the bound all the way. -/
def Reaches (m : CallMachine φ ρ) (bound : ℕ) (s t : MachineState φ ρ) : Prop :=
  ∃ k, m.run k s = t ∧ ∀ j ≤ k, (m.run j s).Within bound

theorem Reaches.refl (h : s.Within bound) : m.Reaches bound s s :=
  ⟨0, rfl, fun j hj => by rwa [Nat.le_zero.mp hj]⟩

theorem Reaches.trans (hs : m.Reaches bound s t) (ht : m.Reaches bound t u) :
    m.Reaches bound s u := by
  obtain ⟨k, rfl, hk⟩ := hs
  obtain ⟨l, rfl, hl⟩ := ht
  refine ⟨l + k, run_add l k s, fun j hj => ?_⟩
  rcases le_total j k with hjk | hkj
  · exact hk j hjk
  · obtain ⟨i, rfl⟩ := Nat.exists_eq_add_of_le' hkj
    rw [run_add]
    exact hl i (by omega)

/-- A step, and what is reached behind it. -/
theorem Reaches.head (hs : s.Within bound) (h : m.Reaches bound (m.step s) t) :
    m.Reaches bound s t := by
  refine Reaches.trans ⟨1, rfl, fun j hj => ?_⟩ h
  obtain ⟨k, rfl, hk⟩ := h
  rcases Nat.le_one_iff_eq_zero_or_eq_one.mp hj with rfl | rfl
  · exact hs
  · exact hk 0 (Nat.zero_le k)

/-- The call returns the result, with at most `n` calls nested, itself included. -/
inductive Returns (m : CallMachine φ ρ) : ℕ → φ → ρ → Prop
  | leave {n : ℕ} {call : φ} {result : ρ} (hnext : m.next call = .leave result) :
      Returns m (n + 1) call result
  | goOn {n : ℕ} {call call' : φ} {result : ρ} (hnext : m.next call = .goOn call')
      (hrest : Returns m (n + 1) call' result) : Returns m (n + 1) call result
  | enter {n : ℕ} {call callee caller call' : φ} {found result : ρ}
      (hnext : m.next call = .enter callee caller) (hcallee : Returns m n callee found)
      (hresume : m.resume caller found = .inl call')
      (hrest : Returns m (n + 1) call' result) : Returns m (n + 1) call result
  | abort {n : ℕ} {call callee caller : φ} {found result : ρ}
      (hnext : m.next call = .enter callee caller) (hcallee : Returns m n callee found)
      (hresume : m.resume caller found = .inr result) : Returns m (n + 1) call result

section Returns

variable {n : ℕ} {call callee caller : φ} {result found : ρ} {callers : List φ}

theorem step_goOn {call' : φ} (h : m.next call = .goOn call') :
    m.step (.running call callers) = .running call' callers := by
  rw [step, h]

theorem step_leave (h : m.next call = .leave result) :
    m.step (.running call callers) = .returned result callers := by
  rw [step, h]

theorem step_enter (h : m.next call = .enter callee caller) :
    m.step (.running call callers) = .running callee (caller :: callers) := by
  rw [step, h]

theorem step_resume {call' : φ} (h : m.resume caller found = .inl call') :
    m.step (.returned found (caller :: callers)) = .running call' callers := by
  rw [step, h]

theorem step_abort (h : m.resume caller found = .inr result) :
    m.step (.returned found (caller :: callers)) = .returned result callers := by
  rw [step, h]

/-- The steps of the machine follow the calls. -/
theorem Returns.reaches (h : m.Returns n call result) (callers : List φ) :
    m.Reaches (callers.length + n) (.running call callers) (.returned result callers) := by
  have hrunning : ∀ {n : ℕ} (call : φ) (callers : List φ),
      (MachineState.running call callers : MachineState φ ρ).Within (callers.length + (n + 1)) :=
    fun call callers => ⟨by simp, by rw [MachineState.depth]; omega⟩
  have hreturned : ∀ {n : ℕ} (result : ρ) (callers : List φ),
      (MachineState.returned result callers : MachineState φ ρ).Within (callers.length + n) :=
    fun result callers => ⟨by simp, Nat.le_add_right _ _⟩
  induction h generalizing callers with
  | leave hnext =>
      refine .head (hrunning _ _) ?_
      rw [step_leave hnext]
      exact .refl (hreturned _ _)
  | goOn hnext _ ih =>
      refine .head (hrunning _ _) ?_
      rw [step_goOn hnext]
      exact ih callers
  | @enter n call callee caller call' found result hnext _ hresume _ ihcallee ihrest =>
      have hcallee := ihcallee (caller :: callers)
      rw [List.length_cons, Nat.add_right_comm, Nat.add_assoc] at hcallee
      refine .head (hrunning _ _) ?_
      rw [step_enter hnext]
      refine hcallee.trans (.head ⟨by simp, ?_⟩ ?_)
      · rw [MachineState.depth, List.length_cons]
        omega
      · rw [step_resume hresume]
        exact ihrest callers
  | @abort n call callee caller found result hnext _ hresume ihcallee =>
      have hcallee := ihcallee (caller :: callers)
      rw [List.length_cons, Nat.add_right_comm, Nat.add_assoc] at hcallee
      refine .head (hrunning _ _) ?_
      rw [step_enter hnext]
      refine hcallee.trans (.head ⟨by simp, ?_⟩ ?_)
      · rw [MachineState.depth, List.length_cons]
        omega
      · rw [step_abort hresume]
        exact .refl (hreturned _ _)

end Returns

/-- The machine ends with the result, and is within the bound at every moment. -/
def Ends (m : CallMachine φ ρ) (bound : ℕ) (s : MachineState φ ρ) (result : ρ) : Prop :=
  (∃ k, m.run k s = .returned result []) ∧ ∀ k, (m.run k s).Within bound

theorem Reaches.ends {result : ρ} (h : m.Reaches bound s (.returned result [])) :
    m.Ends bound s result := by
  obtain ⟨k, hk, hwithin⟩ := h
  refine ⟨⟨k, hk⟩, fun j => ?_⟩
  rcases le_total j k with hjk | hkj
  · exact hwithin j hjk
  · obtain ⟨i, rfl⟩ := Nat.exists_eq_add_of_le' hkj
    rw [run_add, hk, run_returned]
    exact ⟨by simp, Nat.zero_le _⟩

theorem Returns.ends {n : ℕ} {call : φ} {result : ρ} (h : m.Returns n call result) :
    m.Ends n (.running call []) result := by
  have hreaches := h.reaches []
  rw [List.length_nil, Nat.zero_add] at hreaches
  exact hreaches.ends

theorem Ends.mono {bound' : ℕ} {result : ρ} (h : m.Ends bound s result) (hle : bound ≤ bound') :
    m.Ends bound' s result :=
  ⟨h.1, fun k => (h.2 k).mono hle⟩

/-- A machine that has its result to begin with. -/
theorem ends_returned (bound : ℕ) (result : ρ) : m.Ends bound (.returned result []) result := by
  refine ⟨⟨0, rfl⟩, fun k => ?_⟩
  rw [run_returned]
  exact ⟨by simp, Nat.zero_le _⟩

/-- The machine never comes to a last result. -/
def Endless (m : CallMachine φ ρ) (s : MachineState φ ρ) : Prop :=
  ∀ k result, m.run k s ≠ .returned result []

theorem not_endless_returned (result : ρ) : ¬ m.Endless (.returned result []) :=
  fun h => h 0 result rfl

/-- A machine that comes back to some kind of running call again and again. -/
theorem endless_of_recurs {P : φ → Prop}
    (h : ∀ k, ∃ j ≥ k, ∃ call callers, m.run j s = .running call callers ∧ P call) :
    m.Endless s := by
  intro k result hk
  obtain ⟨j, hj, call, callers, hrun, -⟩ := h k
  obtain ⟨i, rfl⟩ := Nat.exists_eq_add_of_le' hj
  rw [run_add, hk, run_returned] at hrun
  cases hrun

end CallMachine

section Refusing

/-- `m'` does what `m` does, unless it refuses: then it leaves without a result, and so
do the calls that wait for it. -/
structure Refuses (m m' : CallMachine φ (Option ρ)) : Prop where
  next : ∀ call, m'.next call ≠ .leave none → m.next call = m'.next call
  resume : m.resume = m'.resume
  strict : ∀ call, m'.resume call none = .inr none

/-- A machine that may refuse has its results from the machine that does not. -/
theorem Refuses.returns {m m' : CallMachine φ (Option ρ)} (h : Refuses m m') {n : ℕ} {call : φ}
    {result : Option ρ} (hreturns : m'.Returns n call result) (hsome : result ≠ none) :
    m.Returns n call result := by
  induction hreturns with
  | leave hnext =>
      refine .leave ?_
      rw [h.next _ (by rw [hnext]; simpa using hsome), hnext]
  | goOn hnext _ ih =>
      refine .goOn ?_ (ih hsome)
      rw [h.next _ (by rw [hnext]; simp), hnext]
  | @enter _ call callee caller _ found _ hnext _ hresume _ ihcallee ihrest =>
      have hfound : found ≠ none := by
        rintro rfl
        rw [h.strict] at hresume
        cases hresume
      have hnext' : m.next call = .enter callee caller := by
        rw [h.next _ (by rw [hnext]; simp), hnext]
      refine .enter hnext' (ihcallee hfound) ?_ (ihrest hsome)
      rw [h.resume, hresume]
  | @abort _ call callee caller found _ hnext _ hresume ihcallee =>
      have hfound : found ≠ none := by
        rintro rfl
        rw [h.strict] at hresume
        exact hsome (Sum.inr.inj hresume).symm
      have hnext' : m.next call = .enter callee caller := by
        rw [h.next _ (by rw [hnext]; simp), hnext]
      refine .abort hnext' (ihcallee hfound) ?_
      rw [h.resume, hresume]

/-- Where the machine that never refuses goes on for ever, the other has no result. -/
theorem Refuses.eq_none {m m' : CallMachine φ (Option ρ)} (h : Refuses m m') {n : ℕ} {call : φ}
    {result : Option ρ} (hreturns : m'.Returns n call result)
    (hendless : m.Endless (.running call [])) : result = none := by
  by_contra hsome
  obtain ⟨⟨k, hk⟩, -⟩ := (h.returns hreturns hsome).ends
  exact hendless k result hk

end Refusing

end Utopia
