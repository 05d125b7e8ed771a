/-
Code as a list of lines, some of them labels, whatever its instructions are: an instruction goes
on, jumps or leaves the code.
-/
import Mathlib.Data.List.Basic

namespace Utopia

namespace Assembly

/-- What an instruction does in a state. -/
inductive Flow (L S : Type) where
  | next (s : S)
  | jump (l : L) (s : S)
  | leave (s : S)

inductive Line (I L : Type) where
  | label (l : L)
  | instr (i : I)
deriving DecidableEq, Repr

variable {I L S : Type} [DecidableEq I] [DecidableEq L]

/-- What follows a line. -/
def behind (code : List (Line I L)) (line : Line I L) : List (Line I L) :=
  (code.dropWhile (· ≠ line)).tail

/-- The state when the code leaves, within so many lines. -/
def run (step : I → S → Flow L S) (code : List (Line I L)) : ℕ → List (Line I L) → S → Option S
  | 0, _, _ => none
  | _ + 1, [], _ => none
  | fuel + 1, .label _ :: rest, s => run step code fuel rest s
  | fuel + 1, .instr i :: rest, s =>
      match step i s with
      | .next s' => run step code fuel rest s'
      | .jump l s' => run step code fuel (behind code (.label l)) s'
      | .leave s' => some s'

/-- The code leaves with this state. -/
def Leaves (step : I → S → Flow L S) (code lines : List (Line I L)) (s t : S) : Prop :=
  ∃ fuel, run step code fuel lines s = some t

variable {step : I → S → Flow L S} {code lines rest : List (Line I L)} {s s' t t' : S} {i : I}
  {l : L}

theorem leaves_label (h : Leaves step code rest s t) :
    Leaves step code (.label l :: rest) s t := by
  obtain ⟨fuel, hrun⟩ := h
  exact ⟨fuel + 1, hrun⟩

theorem leaves_next (hstep : step i s = .next s') (h : Leaves step code rest s' t) :
    Leaves step code (.instr i :: rest) s t := by
  obtain ⟨fuel, hrun⟩ := h
  refine ⟨fuel + 1, ?_⟩
  rw [run, hstep]
  exact hrun

theorem leaves_jump (hstep : step i s = .jump l s')
    (h : Leaves step code (behind code (.label l)) s' t) :
    Leaves step code (.instr i :: rest) s t := by
  obtain ⟨fuel, hrun⟩ := h
  refine ⟨fuel + 1, ?_⟩
  rw [run, hstep]
  exact hrun

theorem leaves_leave (hstep : step i s = .leave t) :
    Leaves step code (.instr i :: rest) s t := by
  refine ⟨1, ?_⟩
  rw [run, hstep]

/-- Instructions that only go on run one after the other. -/
theorem leaves_block {exec : I → S → S} {is : List I}
    (hstep : ∀ i ∈ is, ∀ s, step i s = .next (exec i s))
    (h : Leaves step code rest (is.foldl (fun s i => exec i s) s) t) :
    Leaves step code (is.map .instr ++ rest) s t := by
  induction is generalizing s with
  | nil => exact h
  | cons i is ih =>
      rw [List.forall_mem_cons] at hstep
      exact leaves_next (hstep.1 s) (ih hstep.2 h)

/-- More fuel changes nothing. -/
theorem run_mono {fuel fuel' : ℕ} (hle : fuel ≤ fuel')
    (h : run step code fuel lines s = some t) : run step code fuel' lines s = some t := by
  induction fuel generalizing s lines fuel' with
  | zero => cases h
  | succ fuel ih =>
      cases fuel' with
      | zero => cases hle
      | succ fuel' =>
          have hle' : fuel ≤ fuel' := Nat.le_of_succ_le_succ hle
          cases lines with
          | nil => cases h
          | cons line rest =>
              cases line with
              | label l =>
                  rw [run] at h ⊢
                  exact ih hle' h
              | instr i =>
                  rw [run] at h ⊢
                  cases hstep : step i s with
                  | next s' =>
                      rw [hstep] at h
                      exact ih hle' h
                  | jump l s' =>
                      rw [hstep] at h
                      exact ih hle' h
                  | leave s' =>
                      rw [hstep] at h
                      exact h

/-- The code leaves in one way only. -/
theorem Leaves.unique (h : Leaves step code lines s t) (h' : Leaves step code lines s t') :
    t = t' := by
  obtain ⟨fuel, hrun⟩ := h
  obtain ⟨fuel', hrun'⟩ := h'
  have hmax := run_mono (Nat.le_max_left fuel fuel') hrun
  rw [run_mono (Nat.le_max_right fuel fuel') hrun'] at hmax
  exact (Option.some.inj hmax).symm

end Assembly

end Utopia
