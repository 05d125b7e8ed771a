/-
Reading and writing of `.config`: `tools/uconfig/parser/src/config.rs`.
-/
import Utopia.Uconfig.Expression
import Mathlib.Logic.Function.Basic

namespace Utopia
namespace Uconfig

/-- `to_string` of an `i64`. -/
def displayI64 (v : I64) : Text :=
  if v.toInt < 0 then '-' :: Nat.toDigits 10 v.toInt.natAbs else Nat.toDigits 10 v.toInt.natAbs

/-- `str::parse::<i64>`. -/
def parseI64 (s : Text) : Option I64 :=
  let negative : Bool := s.head? = some '-'
  let digits := if negative ∨ s.head? = some '+' then s.tail else s
  if digits.isEmpty ∨ ¬ digits.all Char.isDigit then none
  else
    let magnitude : Int := Nat.ofDigitChars 10 digits 0
    let value := if negative then -magnitude else magnitude
    if -2 ^ 63 ≤ value ∧ value < 2 ^ 63 then some (BitVec.ofInt 64 value) else none

/-! ### `import` -/

/-- The variables of `import`. -/
structure ImportState where
  ns : Namespace
  lastTokenWasKey : Bool
  lastKey : Text

/-- The option with `value` in it, if it can take it. -/
def importValue (value : Value) (option : ConfigOption) : ConfigOption :=
  match option.current with
  | .selection selection =>
      match selection.values.findIdx? fun candidate => some candidate = value.toBasic with
      | none => option
      | some selected => { option with current := .selection { selection with selected := selected } }
  | current => if current.kind ≠ value.kind then option else { option with current := value }

/-- The arm of `import` for a value. An index out of bounds panics there and changes nothing
here; indices of the hash map are inside. -/
def importLiteral (s : ImportState) (value : Value) : ImportState :=
  if s.lastTokenWasKey then
    match s.ns.hashmap s.lastKey with
    | none => { s with lastTokenWasKey := false }
    | some idx =>
        { s with
          ns := { s.ns with vector := s.ns.vector.modify idx (importValue value) }
          lastTokenWasKey := false }
  else { s with lastTokenWasKey := false }

def importToken (s : ImportState) : Except LexError ConfigToken → ImportState
  | .ok (.identifier key) => { s with lastKey := key, lastTokenWasKey := true }
  | .ok (.boolean boolean) => importLiteral s (.bool boolean)
  | .ok (.number int) => importLiteral s (.int int)
  | .ok (.quotedString string) => importLiteral s (.string string)
  | .ok .equals => if s.lastTokenWasKey then s else { s with lastTokenWasKey := false }
  | .error _ => { s with lastTokenWasKey := false }

/-- `import`. -/
def importConfig (lexers : Lexers) (ns : Namespace) (config : Text) : Namespace :=
  ((lexers.config config).foldl importToken ⟨ns, false, []⟩).ns

/-! ### `VisibleIter` -/

/-- The vectors `parent` and `visible` by index, zero and false at first. -/
structure VisibleIter where
  parent : ℕ → ℕ
  visible : ℕ → Bool
  index : ℕ

section

variable (lexers : Lexers) (ns : Namespace)

/-- A round of `next` at `option`, the entry at `index`: is it returned? `none` if `valid`
panics. -/
def VisibleIter.round (it : VisibleIter) (option : ConfigOption) : Option (VisibleIter × Bool) :=
  (valid lexers ns option).map fun result =>
    let i := it.index
    let parent := option.children.foldl (fun parent child => Function.update parent child i)
      it.parent
    let passes : Bool := result = .passed
    let visible := Function.update it.visible i (passes && (i == 0 || it.visible (parent i)))
    (⟨parent, visible, i + 1⟩, visible i && !option.isEnv && i != 0)

/-- What `next` returns until the end of the vector, of which `rest` lies ahead. -/
def VisibleIter.collect : List ConfigOption → VisibleIter → Option (List ConfigOption)
  | [], _ => some []
  | option :: rest, it =>
      (it.round lexers ns option).bind fun (it, yields) =>
        (collect rest it).map fun options => if yields then option :: options else options

/-- `visible`. -/
def visible : Option (List ConfigOption) :=
  VisibleIter.collect lexers ns ns.vector ⟨fun _ => 0, fun _ => false, 0⟩

end

/-! ### `export` -/

def escapeChar (c : Char) : Text :=
  if c = '\\' then "\\\\".toList
  else if c = '"' then "\\\"".toList
  else if c = '\n' then "\\n".toList
  else if c = '\r' then "\\r".toList
  else if c = '\t' then "\\t".toList
  else [c]

def escapeC (value : Text) : Text := value.flatMap escapeChar

/-- A header and a line for each visible option; `none` if anything panics. -/
def exporter (header : String) (line : ConfigOption → Option Text) (lexers : Lexers)
    (ns : Namespace) : Option Text :=
  (visible lexers ns).bind fun options =>
    (options.mapM line).map fun lines => header.toList ++ lines.flatten

def cHeaderLine (option : ConfigOption) : Option Text :=
  option.current.toBasic.map fun
    | .bool true => "#define ".toList ++ option.name ++ ['\n']
    | .bool false => "// #define ".toList ++ option.name ++ ['\n']
    | .int value => "#define ".toList ++ option.name ++ [' '] ++ displayI64 value ++ "ull\n".toList
    | .string value =>
        "#define ".toList ++ option.name ++ " \"".toList ++ escapeC value ++ "\"\n".toList

def cHeaderPreamble : String :=
  "// This file was autogenerated by uconfig, please do not edit\n" ++
    "// it manually! Use `make menuconfig` instead.\n\n" ++ "#pragma once\n\n"

def exportCHeader : Lexers → Namespace → Option Text := exporter cHeaderPreamble cHeaderLine

def displayBool (b : Bool) : Text := if b then "true".toList else "false".toList

def configLine (option : ConfigOption) : Option Text :=
  if option.current = .null then some []
  else
    option.current.toBasic.map fun
      | .bool b => option.name ++ ['='] ++ displayBool b ++ ['\n']
      | .int value => option.name ++ ['='] ++ displayI64 value ++ ['\n']
      | .string value => option.name ++ "=\"".toList ++ escapeC value ++ "\"\n".toList

def configPreamble : String :=
  "# This file was autogenerated by uconfig, please do not edit\n# it manually!\n\n"

/-- `export`. -/
def exportConfig : Lexers → Namespace → Option Text := exporter configPreamble configLine

def rustflagsLine (option : ConfigOption) : Option Text :=
  if option.current = .null then some []
  else
    option.current.toBasic.map fun
      | .bool true => "--cfg=".toList ++ option.name ++ ['\n']
      | .bool false => []
      | .int value => "--cfg=".toList ++ option.name ++ "=\"".toList ++ displayI64 value ++
          "\"\n".toList
      | .string value => "--cfg=".toList ++ option.name ++ "=\"".toList ++ escapeC value ++
          "\"\n".toList

def exportRustflags : Lexers → Namespace → Option Text := exporter "" rustflagsLine

end Uconfig
end Utopia
