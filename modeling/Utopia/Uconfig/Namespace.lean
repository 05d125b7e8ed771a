/-
The data of `tools/uconfig/parser`: tokens, values, options and the namespace they form.
-/
import Mathlib.Algebra.Order.Ring.Int
import Mathlib.Data.Nat.Notation
import Mathlib.Order.CompletePartialOrder

namespace Utopia
namespace Uconfig

abbrev Text := List Char

abbrev I64 := BitVec 64

inductive LexError where
  | unknownToken
  | invalidInteger
deriving DecidableEq, Repr

/-- The tokens of a Uconfig file. -/
inductive Token where
  | proj
  | opt
  | menu
  | importFile
  | env
  | arrow
  | parenOpen
  | parenClose
  | braceOpen
  | braceClose
  | colon
  | comma
  | display
  | default
  | description
  | depends
  | within
  | select
  | options
  | values
  | typeString
  | typeBool
  | typeInt
  | typeNull
  | bool (v : Bool)
  | identifier (s : Text)
  | number (v : I64)
  | string (s : Text)
  | expression (s : Text)
deriving DecidableEq, Repr

/-- The tokens of a `depends` expression. -/
inductive ExpressionToken where
  | add
  | sub
  | not
  | and
  | or
  | equ
  | notEqu
  | gt
  | lt
  | gtEqu
  | ltEqu
  | boolean (v : Bool)
  | identifier (s : Text)
  | number (v : I64)
  | quotedString (s : Text)
deriving DecidableEq, Repr

/-- The tokens of a `.config` file. -/
inductive ConfigToken where
  | equals
  | boolean (v : Bool)
  | identifier (s : Text)
  | number (v : I64)
  | quotedString (s : Text)
deriving DecidableEq, Repr

/-- The three lexers; their code is generated from the patterns in `lexer.rs`. -/
structure Lexers where
  token : Text → List (Except LexError Token)
  expression : Text → List (Except LexError ExpressionToken)
  config : Text → List (Except LexError ConfigToken)

inductive BasicValue where
  | bool (v : Bool)
  | int (v : I64)
  | string (v : Text)
deriving DecidableEq, Repr

structure SelectOption where
  selected : ℕ
  options : List Text
  values : List BasicValue
deriving DecidableEq, Repr

def SelectOption.default : SelectOption := ⟨0, [], []⟩

inductive Value where
  | null
  | bool (v : Bool)
  | int (v : I64)
  | string (v : Text)
  | selection (v : SelectOption)
deriving DecidableEq, Repr

/-- `to_basic`; `none` is the panic of an index out of bounds. -/
def Value.toBasic : Value → Option BasicValue
  | .bool v => some (.bool v)
  | .int v => some (.int v)
  | .string v => some (.string v)
  | .selection v => v.values[v.selected]?
  | .null => some (.bool false)

/-- The variants of `Value`, which `std::mem::discriminant` compares. -/
inductive Kind where
  | null
  | bool
  | int
  | string
  | selection
deriving DecidableEq, Repr

def Value.kind : Value → Kind
  | .null => .null
  | .bool _ => .bool
  | .int _ => .int
  | .string _ => .string
  | .selection _ => .selection

structure ConfigOption where
  name : Text
  display : Text
  description : Option Text
  current : Value
  depends : Option Text
  children : List ℕ
  isMenu : Bool
  isEnv : Bool
  /-- Ghost: the type that stands in the option's declaration. -/
  declared : Kind
deriving DecidableEq, Repr

def ConfigOption.default : ConfigOption where
  name := []
  display := []
  description := none
  current := .null
  depends := none
  children := []
  isMenu := false
  isEnv := false
  declared := .null

structure Namespace where
  parsedFiles : List Text
  hashmap : Text → Option ℕ
  vector : List ConfigOption

def Namespace.default : Namespace where
  parsedFiles := []
  hashmap := fun _ => none
  vector := [{ ConfigOption.default with display := "Project".toList }]

end Uconfig
end Utopia
