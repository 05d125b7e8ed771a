/-
Postfix expressions over any leaves and operators, and the stack machine that runs them.
-/
import Mathlib.Data.List.Forall2

namespace Utopia

universe u v w x

namespace Postfix

variable {κ : Type u} {υ : Type v} {β : Type w} {V : Type x}

/-- A token: a leaf, or an operator with one or two operands. -/
inductive Op (κ : Type u) (υ : Type v) (β : Type w) where
  | leaf (k : κ)
  | unary (f : υ)
  | binary (g : β)

/-- A well-formed expression. -/
inductive Expr (κ : Type u) (υ : Type v) (β : Type w) where
  | leaf (k : κ)
  | unary (f : υ) (e : Expr κ υ β)
  | binary (g : β) (lhs rhs : Expr κ υ β)

/-- What the tokens mean; a partial operator fails where it has no value. -/
structure Meaning (κ : Type u) (υ : Type v) (β : Type w) (V : Type x) where
  leaf : κ → Option V
  unary : υ → V → Option V
  binary : β → V → V → Option V

/-- The postfix form of an expression. -/
def Expr.spelling : Expr κ υ β → List (Op κ υ β)
  | .leaf k => [.leaf k]
  | .unary f e => e.spelling ++ [.unary f]
  | .binary g lhs rhs => lhs.spelling ++ rhs.spelling ++ [.binary g]

/-- The postfix forms of expressions one behind the other, the first expression last. -/
def spell : List (Expr κ υ β) → List (Op κ υ β)
  | [] => []
  | e :: es => spell es ++ e.spelling

variable (m : Meaning κ υ β V)

/-- The value of an expression. -/
def Expr.denote : Expr κ υ β → Option V
  | .leaf k => m.leaf k
  | .unary f e => e.denote.bind (m.unary f)
  | .binary g lhs rhs => lhs.denote.bind fun a => rhs.denote.bind fun b => m.binary g a b

/-- One token on the stack, whose top is its first element. -/
def step : Op κ υ β → List V → Option (List V)
  | .leaf k, stack => (m.leaf k).map (· :: stack)
  | .unary f, a :: stack => (m.unary f a).map (· :: stack)
  | .unary _, [] => none
  | .binary g, b :: a :: stack => (m.binary g a b).map (· :: stack)
  | .binary _, _ => none

/-- The machine. -/
def run : List (Op κ υ β) → List V → Option (List V)
  | [], stack => some stack
  | op :: ops, stack => (step m op stack).bind (run ops)

variable {m} {ops ops' : List (Op κ υ β)} {stack stack' : List V} {es : List (Expr κ υ β)}

theorem run_append (ops ops' : List (Op κ υ β)) (stack : List V) :
    run m (ops ++ ops') stack = (run m ops stack).bind (run m ops') := by
  induction ops generalizing stack with
  | nil => rfl
  | cons op ops ih =>
      rw [List.cons_append, run, run, Option.bind_assoc]
      congr 1
      funext stack'
      exact ih stack'

/-- An expression leaves its value on the stack. -/
theorem run_spelling {e : Expr κ υ β} {value : V} (h : e.denote m = some value) (stack : List V) :
    run m e.spelling stack = some (value :: stack) := by
  induction e generalizing value stack with
  | leaf k =>
      rw [Expr.denote] at h
      simp [Expr.spelling, run, step, h]
  | unary f e ih =>
      obtain ⟨a, ha, hvalue⟩ := Option.bind_eq_some_iff.mp h
      rw [Expr.spelling, run_append, ih ha]
      simp [run, step, hvalue]
  | binary g lhs rhs ihl ihr =>
      obtain ⟨a, ha, h⟩ := Option.bind_eq_some_iff.mp h
      obtain ⟨b, hb, hvalue⟩ := Option.bind_eq_some_iff.mp h
      rw [Expr.spelling, run_append, run_append, ihl ha, Option.bind_some, ihr hb]
      simp [run, step, hvalue]

/-- The stack holds the values of the expressions. -/
abbrev Holds (m : Meaning κ υ β V) : List (Expr κ υ β) → List V → Prop :=
  List.Forall₂ fun e value => e.denote m = some value

theorem exists_holds (h : ∀ e ∈ es, (e.denote m).isSome) : ∃ stack, Holds m es stack := by
  induction es with
  | nil => exact ⟨[], .nil⟩
  | cons e es ih =>
      obtain ⟨value, hvalue⟩ := Option.isSome_iff_exists.mp (h e List.mem_cons_self)
      obtain ⟨stack, hstack⟩ := ih fun e' he' => h e' (List.mem_cons_of_mem e he')
      exact ⟨value :: stack, .cons hvalue hstack⟩

theorem Holds.isSome (h : Holds m es stack) {e : Expr κ υ β} (he : e ∈ es) :
    (e.denote m).isSome := by
  induction h with
  | nil => cases he
  | cons hvalue _ ih =>
      rcases List.mem_cons.mp he with rfl | he
      · rw [hvalue]
        rfl
      · exact ih he

theorem run_spell (h : Holds m es stack) : run m (spell es) [] = some stack := by
  induction h with
  | nil => rfl
  | cons hvalue _ ih => rw [spell, run_append, ih, Option.bind_some, run_spelling hvalue]

/-- A step makes one expression of the topmost ones. -/
theorem exists_spell_of_step {op : Op κ υ β} (h : Holds m es stack)
    (hstep : step m op stack = some stack') :
    ∃ es', Holds m es' stack' ∧ spell es' = spell es ++ [op] := by
  cases op with
  | leaf k =>
      obtain ⟨value, hvalue, rfl⟩ := Option.map_eq_some_iff.mp hstep
      exact ⟨.leaf k :: es, .cons hvalue h, rfl⟩
  | unary f =>
      cases h with
      | nil => cases hstep
      | @cons e a es stack ha h =>
          obtain ⟨value, hvalue, rfl⟩ := Option.map_eq_some_iff.mp hstep
          refine ⟨.unary f e :: es, .cons ?_ h, ?_⟩
          · rw [Expr.denote, ha, Option.bind_some, hvalue]
          · rw [spell, spell, Expr.spelling, List.append_assoc]
  | binary g =>
      cases h with
      | nil => cases hstep
      | @cons rhs b es stack hb h =>
          cases h with
          | nil => cases hstep
          | @cons lhs a es stack ha h =>
              obtain ⟨value, hvalue, rfl⟩ := Option.map_eq_some_iff.mp hstep
              refine ⟨.binary g lhs rhs :: es, .cons ?_ h, ?_⟩
              · rw [Expr.denote, ha, Option.bind_some, hb, Option.bind_some, hvalue]
              · simp only [spell, Expr.spelling, List.append_assoc]

theorem exists_spell_of_run (h : Holds m es stack) (hrun : run m ops stack = some stack') :
    ∃ es', Holds m es' stack' ∧ spell es' = spell es ++ ops := by
  induction ops generalizing es stack with
  | nil =>
      obtain rfl := Option.some.inj hrun
      exact ⟨es, h, (List.append_nil _).symm⟩
  | cons op ops ih =>
      obtain ⟨stack₁, hstep, hrest⟩ := Option.bind_eq_some_iff.mp hrun
      obtain ⟨es₁, h₁, hspell₁⟩ := exists_spell_of_step h hstep
      obtain ⟨es', h', hspell⟩ := ih h₁ hrest
      refine ⟨es', h', ?_⟩
      rw [hspell, hspell₁, List.append_assoc, List.singleton_append]

/-- The machine ends with a stack exactly when the tokens are expressions with these values. -/
theorem run_eq_some_iff :
    run m ops [] = some stack ↔ ∃ es, Holds m es stack ∧ spell es = ops := by
  constructor
  · intro h
    exact exists_spell_of_run .nil h
  · rintro ⟨es, h, rfl⟩
    exact run_spell h

end Postfix

end Utopia
