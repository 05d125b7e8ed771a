/-
`depends` expressions: `tools/uconfig/parser/src/expression.rs`.
-/
import Utopia.Uconfig.Namespace

namespace Utopia
namespace Uconfig

inductive ExpressionResult where
  | passed
  | failed
  | invalidExpression
  | circularExpression
deriving DecidableEq, Repr

namespace BasicValue

/-- The operands of arithmetic and of the order comparisons. -/
def asInt : BasicValue → Option I64
  | .int v => some v
  | .bool v => some (if v then 1 else 0)
  | .string _ => none

/-- The operands of `&&` and `||`. -/
def truth : BasicValue → Bool
  | .bool v => v
  | .int v => v ≠ 0
  | .string v => !v.isEmpty

/-- The comparison of `==` and `!=`; numbers and strings do not compare. -/
def equal : BasicValue → BasicValue → Option Bool
  | .bool a, .bool b => some (a = b)
  | .bool a, .int b => some ((if a then 1 else 0) = b)
  | .bool a, .string b => some (a ≠ b.isEmpty)
  | .int a, .int b => some (a = b)
  | .int a, .bool b => some (a = if b then 1 else 0)
  | .string a, .string b => some (a = b)
  | .string a, .bool b => some (a.isEmpty ≠ b)
  | .int _, .string _ => none
  | .string _, .int _ => none

/-- `!`. -/
def not : BasicValue → BasicValue
  | .int v => .int (~~~v)
  | .bool v => .bool (!v)
  | .string v => .bool v.isEmpty

end BasicValue

/-- `checked_add`. -/
def checkedAdd (a b : I64) : Option I64 := if BitVec.saddOverflow a b then none else some (a + b)

/-- `checked_sub`. -/
def checkedSub (a b : I64) : Option I64 := if BitVec.ssubOverflow a b then none else some (a - b)

/-- An operator on the two values on top of the stack, the right one on top. -/
def binary (f : BasicValue → BasicValue → Option BasicValue) :
    List BasicValue → Option (List BasicValue)
  | rhs :: lhs :: stack => (f lhs rhs).map (· :: stack)
  | _ => none

def arithmetic (f : I64 → I64 → Option I64) (lhs rhs : BasicValue) : Option BasicValue :=
  rhs.asInt.bind fun rhs => lhs.asInt.bind fun lhs => (f lhs rhs).map .int

def comparison (f : I64 → I64 → Bool) (lhs rhs : BasicValue) : Option BasicValue :=
  rhs.asInt.bind fun rhs => lhs.asInt.map fun lhs => .bool (f lhs rhs)

/-- The arms of `evaluate` that need nothing but the stack; `none` is `InvalidExpression`. -/
def operate : ExpressionToken → List BasicValue → Option (List BasicValue)
  | .add, stack => binary (arithmetic checkedAdd) stack
  | .sub, stack => binary (arithmetic checkedSub) stack
  | .and, stack => binary (fun lhs rhs => some (.bool (lhs.truth && rhs.truth))) stack
  | .or, stack => binary (fun lhs rhs => some (.bool (lhs.truth || rhs.truth))) stack
  | .equ, stack => binary (fun lhs rhs => (lhs.equal rhs).map .bool) stack
  | .notEqu, stack => binary (fun lhs rhs => (lhs.equal rhs).map fun equal => .bool (!equal)) stack
  | .gt, stack => binary (comparison fun lhs rhs => rhs.slt lhs) stack
  | .lt, stack => binary (comparison fun lhs rhs => lhs.slt rhs) stack
  | .gtEqu, stack => binary (comparison fun lhs rhs => rhs.sle lhs) stack
  | .ltEqu, stack => binary (comparison fun lhs rhs => lhs.sle rhs) stack
  | .not, value :: stack => some (value.not :: stack)
  | .not, [] => none
  | .boolean v, stack => some (.bool v :: stack)
  | .number v, stack => some (.int v :: stack)
  | .quotedString v, stack => some (.string v :: stack)
  | .identifier _, _ => none

/-- How the loop of `evaluate` ends early: with a result, or without returning. -/
inductive EvalStop where
  | returned (result : ExpressionResult)
  | diverged
deriving DecidableEq, Repr

/-- The value of an identifier; `valid` is `valid_internal` with the names evaluated so
far. -/
def lookup (ns : Namespace) (valid : ConfigOption → Option ExpressionResult) (ident : Text) :
    Except EvalStop BasicValue :=
  match ns.hashmap ident with
  | none => .error (.returned .invalidExpression)
  | some idx =>
      match ns.vector[idx]? with
      | none => .error .diverged
      | some option =>
          match valid option with
          | none => .error .diverged
          | some .passed =>
              match option.current.toBasic with
              | none => .error .diverged
              | some value => .ok value
          | some .failed => .ok (.bool false)
          | some result => .error (.returned result)

/-- The loop of `evaluate`. -/
def evaluateTokens (ns : Namespace) (valid : ConfigOption → Option ExpressionResult) :
    List (Except LexError ExpressionToken) → List BasicValue → Except EvalStop (List BasicValue)
  | [], stack => .ok stack
  | .ok (.identifier ident) :: tokens, stack =>
      match lookup ns valid ident with
      | .error stop => .error stop
      | .ok value => evaluateTokens ns valid tokens (value :: stack)
  | .ok token :: tokens, stack =>
      match operate token stack with
      | none => .error (.returned .invalidExpression)
      | some stack => evaluateTokens ns valid tokens stack
  | .error _ :: _, _ => .error (.returned .invalidExpression)

/-- The end of `evaluate`; `none` if it does not return. -/
def finish : Except EvalStop (List BasicValue) → Option ExpressionResult
  | .error (.returned result) => some result
  | .error .diverged => none
  | .ok (.bool true :: _) => some .passed
  | .ok (.bool false :: _) => some .failed
  | .ok _ => some .invalidExpression

section

variable (lexers : Lexers) (ns : Namespace)

/-- `valid_internal` with `evaluate`, up to `depth` expressions inside each other. The set
`evaluated` goes down only: `evaluate` takes its name out again before every return after
which a caller goes on. -/
def validInternal : ℕ → List Text → ConfigOption → Option ExpressionResult
  | 0, _, _ => none
  | depth + 1, evaluated, option =>
      match option.depends with
      | none => some .passed
      | some expression =>
          if option.name ∈ evaluated then some .circularExpression
          else
            finish (evaluateTokens ns (validInternal depth (option.name :: evaluated))
              (lexers.expression expression) [])

/-- `valid`; `none` if it panics. -/
def valid (option : ConfigOption) : Option ExpressionResult :=
  validInternal lexers ns (ns.vector.length + 1) [] option

end

end Uconfig
end Utopia
