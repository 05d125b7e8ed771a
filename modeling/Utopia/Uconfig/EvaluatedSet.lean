/-
`evaluate` with the set of names that it is given and changes.
-/
import Utopia.Uconfig.Visible

namespace Utopia
namespace Uconfig

namespace Threaded

/-- A result with the set it leaves. -/
abbrev Run (α : Type) := Option (α × Finset Text)

/-- Go on unless the part before has returned. -/
def Run.next {α β : Type} (run : Run (Except ExpressionResult α))
    (rest : α → Finset Text → Run (Except ExpressionResult β)) : Run (Except ExpressionResult β) :=
  run.bind fun (value, evaluated) =>
    match value with
    | .error result => some (.error result, evaluated)
    | .ok a => rest a evaluated

section

variable (ns : Namespace) (validInternal : ConfigOption → Finset Text → Run ExpressionResult)

/-- The arm of an identifier: a value for the stack, or the result to return. -/
def lookup (ident : Text) (evaluated : Finset Text) : Run (Except ExpressionResult BasicValue) :=
  match ns.hashmap ident with
  | none => some (.error .invalidExpression, evaluated)
  | some idx =>
      ns.vector[idx]?.bind fun option =>
        (validInternal option evaluated).bind fun (result, evaluated) =>
          match result with
          | .passed => option.current.toBasic.map fun value => (.ok value, evaluated)
          | .failed => some (.ok (.bool false), evaluated)
          | .invalidExpression => some (.error .invalidExpression, evaluated)
          | .circularExpression => some (.error .circularExpression, evaluated)

/-- The loop of `evaluate`: the stack at its end, or the result to return. -/
def evaluateTokens : List (Except LexError ExpressionToken) → List BasicValue → Finset Text →
    Run (Except ExpressionResult (List BasicValue))
  | [], stack, evaluated => some (.ok stack, evaluated)
  | .ok (.identifier ident) :: tokens, stack, evaluated =>
      (lookup ns validInternal ident evaluated).next fun value evaluated =>
        evaluateTokens tokens (value :: stack) evaluated
  | .ok token :: tokens, stack, evaluated =>
      match operate token stack with
      | none => some (.error .invalidExpression, evaluated)
      | some stack => evaluateTokens tokens stack evaluated
  | .error _ :: _, _, evaluated => some (.error .invalidExpression, evaluated)

/-- `evaluate`. -/
def evaluate (identifier : Text) (tokens : List (Except LexError ExpressionToken))
    (evaluated : Finset Text) : Run ExpressionResult :=
  if identifier ∈ evaluated then some (.circularExpression, evaluated)
  else
    (evaluateTokens ns validInternal tokens [] (insert identifier evaluated)).map
      fun (outcome, evaluated) =>
        match outcome with
        | .error result => (result, evaluated)
        | .ok [] => (.invalidExpression, evaluated)
        | .ok (.bool true :: _) => (.passed, evaluated.erase identifier)
        | .ok (.bool false :: _) => (.failed, evaluated.erase identifier)
        | .ok (_ :: _) => (.invalidExpression, evaluated.erase identifier)

end

section

variable (lexers : Lexers) (ns : Namespace)

/-- `valid_internal`, up to `depth` expressions inside each other. -/
def validInternal : (depth : ℕ) → ConfigOption → Finset Text → Run ExpressionResult
  | 0, _, _ => none
  | depth + 1, option, evaluated =>
      match option.depends with
      | some dep =>
          evaluate ns (validInternal depth) option.name (lexers.expression dep) evaluated
      | none => some (.passed, evaluated)

/-- `valid`; `none` if it panics or goes deeper than the options allow. -/
def valid (option : ConfigOption) : Option ExpressionResult :=
  (validInternal lexers ns (ns.vector.length + 1) option ∅).map Prod.fst

end

/-! ### The set is back where it was when the caller goes on -/

variable {lexers : Lexers} {ns : Namespace}

/-- The results after which `evaluate` goes on. -/
def GoesOn (result : ExpressionResult) : Prop := result = .passed ∨ result = .failed

/-- The run gives the result, and has restored the set if the caller goes on. -/
structure Agrees (evaluated : Finset Text) (run : Run ExpressionResult)
    (result : Option ExpressionResult) : Prop where
  result : run.map Prod.fst = result
  restored : ∀ r set, run = some (r, set) → GoesOn r → set = evaluated

/-- How the loop ends in the model without the set. -/
def outcome {α : Type} : Except EvalStop α → Option (Except ExpressionResult α)
  | .error (.returned result) => some (.error result)
  | .error .diverged => none
  | .ok a => some (.ok a)

/-- The same for a part of the loop. -/
structure AgreesLoop {α : Type} (evaluated : Finset Text) (run : Run (Except ExpressionResult α))
    (result : Except EvalStop α) : Prop where
  result : run.map Prod.fst = outcome result
  restored : ∀ a set, run = some (.ok a, set) → set = evaluated
  returned : ∀ r set, run = some (.error r, set) → ¬ GoesOn r

section

variable {validSet : ConfigOption → Finset Text → Run ExpressionResult}
  {validList : ConfigOption → Option ExpressionResult} {evaluated : Finset Text}

theorem agreesLoop_invalid {α : Type} (evaluated set : Finset Text) :
    AgreesLoop (α := α) evaluated (some (.error .invalidExpression, set))
      (.error (.returned .invalidExpression)) where
  result := rfl
  restored a set' h := by cases h
  returned r set' h := by
    cases h
    simp [GoesOn]

theorem agreesLoop_circular {α : Type} (evaluated set : Finset Text) :
    AgreesLoop (α := α) evaluated (some (.error .circularExpression, set))
      (.error (.returned .circularExpression)) where
  result := rfl
  restored a set' h := by cases h
  returned r set' h := by
    cases h
    simp [GoesOn]

theorem agreesLoop_ok {α : Type} (evaluated : Finset Text) (a : α) :
    AgreesLoop evaluated (some (.ok a, evaluated)) (.ok a) where
  result := rfl
  restored a' set' h := by
    cases h
    rfl
  returned r set' h := by cases h

theorem agreesLoop_none {α : Type} (evaluated : Finset Text) :
    AgreesLoop (α := α) evaluated none (.error .diverged) where
  result := rfl
  restored a' set' h := by cases h
  returned r set' h := by cases h

theorem lookup_agrees (ns : Namespace) (hvalid : ∀ option, Agrees evaluated (validSet option evaluated)
    (validList option)) (ident : Text) :
    AgreesLoop evaluated (lookup ns validSet ident evaluated)
      (Uconfig.lookup ns validList ident) := by
  unfold lookup Uconfig.lookup
  cases ns.hashmap ident with
  | none => exact agreesLoop_invalid _ _
  | some idx =>
      dsimp only
      cases ns.vector[idx]? with
      | none => exact agreesLoop_none _
      | some option =>
          obtain ⟨hresult, hrestored⟩ := hvalid option
          dsimp only
          rw [Option.bind_some, ← hresult]
          cases hrun : validSet option evaluated with
          | none => exact agreesLoop_none _
          | some run =>
              obtain ⟨result, set⟩ := run
              rw [Option.bind_some, Option.map_some]
              cases result with
              | passed =>
                  obtain rfl := hrestored _ _ hrun (Or.inl rfl)
                  dsimp only
                  cases option.current.toBasic with
                  | none => exact agreesLoop_none _
                  | some value => exact agreesLoop_ok _ value
              | failed =>
                  obtain rfl := hrestored _ _ hrun (Or.inr rfl)
                  exact agreesLoop_ok _ _
              | invalidExpression => exact agreesLoop_invalid _ _
              | circularExpression => exact agreesLoop_circular _ _

theorem AgreesLoop.next {α β : Type} {run : Run (Except ExpressionResult α)}
    {result : Except EvalStop α} (h : AgreesLoop evaluated run result)
    {rest : α → Finset Text → Run (Except ExpressionResult β)} {rest' : α → Except EvalStop β}
    (hrest : ∀ a, AgreesLoop evaluated (rest a evaluated) (rest' a)) :
    AgreesLoop evaluated (run.next rest) (result.bind rest') := by
  obtain ⟨hresult, hrestored, hreturned⟩ := h
  cases result with
  | ok a =>
      obtain ⟨⟨value, set⟩, rfl, hvalue⟩ := Option.map_eq_some_iff.mp hresult
      obtain rfl : value = .ok a := hvalue
      obtain rfl := hrestored _ _ rfl
      exact hrest a
  | error stop =>
      cases stop with
      | diverged =>
          obtain rfl := Option.map_eq_none_iff.mp hresult
          exact agreesLoop_none _
      | returned r =>
          obtain ⟨⟨value, set⟩, rfl, hvalue⟩ := Option.map_eq_some_iff.mp hresult
          obtain rfl : value = .error r := hvalue
          have hstop := hreturned _ _ rfl
          refine ⟨rfl, fun a set' h => (by cases h), fun r' set' h => ?_⟩
          cases h
          exact hstop

theorem evaluateTokens_agrees (ns : Namespace) (hvalid : ∀ option, Agrees evaluated (validSet option evaluated)
    (validList option)) (tokens : List (Except LexError ExpressionToken))
    (stack : List BasicValue) :
    AgreesLoop evaluated (evaluateTokens ns validSet tokens stack evaluated)
      (Uconfig.evaluateTokens ns validList tokens stack) := by
  induction tokens generalizing stack with
  | nil => exact agreesLoop_ok _ _
  | cons token tokens ih =>
      cases token with
      | error _ => exact agreesLoop_invalid _ _
      | ok token =>
          cases token with
          | identifier ident =>
              have hlookup := lookup_agrees ns hvalid ident
              have hbind : Uconfig.evaluateTokens ns validList (.ok (.identifier ident) :: tokens) stack =
                  (Uconfig.lookup ns validList ident).bind fun value =>
                    Uconfig.evaluateTokens ns validList tokens (value :: stack) := by
                rw [Uconfig.evaluateTokens]
                cases Uconfig.lookup ns validList ident <;> rfl
              rw [hbind]
              exact hlookup.next fun value => ih (value :: stack)
          | _ =>
              simp only [evaluateTokens, Uconfig.evaluateTokens]
              generalize operate _ stack = result
              cases result with
              | none => exact agreesLoop_invalid _ _
              | some stack => exact ih stack

theorem evaluate_agrees (ns : Namespace) {identifier : Text} (hnew : identifier ∉ evaluated)
    (hvalid : ∀ option, Agrees (insert identifier evaluated)
      (validSet option (insert identifier evaluated)) (validList option))
    (tokens : List (Except LexError ExpressionToken)) :
    Agrees evaluated (evaluate ns validSet identifier tokens evaluated)
      (finish (Uconfig.evaluateTokens ns validList tokens [])) := by
  obtain ⟨hresult, hrestored, hreturned⟩ := evaluateTokens_agrees ns hvalid tokens []
  rw [evaluate, if_neg hnew]
  cases hloop : Uconfig.evaluateTokens ns validList tokens [] with
  | error stop =>
      rw [hloop] at hresult
      cases stop with
      | diverged =>
          rw [Option.map_eq_none_iff.mp hresult]
          exact ⟨rfl, fun r set h => by cases h⟩
      | returned r =>
          obtain ⟨⟨value, set⟩, hrun, hvalue⟩ := Option.map_eq_some_iff.mp hresult
          obtain rfl : value = .error r := hvalue
          have hstop := hreturned _ _ hrun
          rw [hrun]
          exact ⟨rfl, fun r' set' h hgoes => by
            cases h
            exact absurd hgoes hstop⟩
  | ok stack =>
      rw [hloop] at hresult
      obtain ⟨⟨value, set⟩, hrun, hvalue⟩ := Option.map_eq_some_iff.mp hresult
      obtain rfl : value = .ok stack := hvalue
      obtain rfl := hrestored _ _ hrun
      have herase := Finset.erase_insert hnew
      rw [hrun]
      cases stack with
      | nil => exact ⟨rfl, fun r set h hgoes => by
          cases h
          rcases hgoes with h | h <;> cases h⟩
      | cons top stack =>
          refine ⟨?_, fun r set h _ => ?_⟩
          · cases top with
            | bool v => cases v <;> rfl
            | _ => rfl
          · cases top with
            | bool v =>
                cases v <;>
                  · cases h
                    exact herase
            | _ =>
                cases h
                exact herase

end

theorem validInternal_agrees (lexers : Lexers) (ns : Namespace) (depth : ℕ) (names : List Text) (evaluated : Finset Text)
    (hnames : ∀ name, name ∈ evaluated ↔ name ∈ names) (option : ConfigOption) :
    Agrees evaluated (validInternal lexers ns depth option evaluated)
      (Uconfig.validInternal lexers ns depth names option) := by
  induction depth generalizing names evaluated option with
  | zero => exact ⟨rfl, fun r set h => by cases h⟩
  | succ depth ih =>
      rw [validInternal, Uconfig.validInternal]
      cases option.depends with
      | none => exact ⟨rfl, fun r set h _ => by
          cases h
          rfl⟩
      | some dep =>
          dsimp only
          split_ifs with hname
          · rw [evaluate, if_pos ((hnames _).mpr hname)]
            exact ⟨rfl, fun r set h _ => by
              cases h
              rfl⟩
          · refine evaluate_agrees ns (fun hmem => hname ((hnames _).mp hmem)) (fun nested => ?_) _
            apply ih
            intro name
            rw [Finset.mem_insert, List.mem_cons, hnames]

/-- The set does not change what `valid` returns. -/
theorem valid_eq (option : ConfigOption) : valid lexers ns option = Uconfig.valid lexers ns option :=
  (validInternal_agrees lexers ns _ [] ∅ (fun _ => by simp) option).result

end Threaded

end Uconfig
end Utopia
