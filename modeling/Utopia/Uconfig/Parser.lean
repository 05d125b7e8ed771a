/-
The parser of Uconfig files: `tools/uconfig/parser/src/parser.rs`.
-/
import Utopia.Uconfig.Expression

namespace Utopia
namespace Uconfig

/-- How a parse ends without a namespace. -/
inductive ParseError where
  /-- `parser_error`, which prints the message with its place and exits. -/
  | message (text : String)
  | panic (text : String)
  /-- Imports go deeper than the model follows them. -/
  | exhausted
deriving DecidableEq, Repr

abbrev Tokens := List (Except LexError Token)

abbrev Parsed (α : Type) := Except ParseError α

def parserError {α : Type} (text : String) : Parsed α := .error (.message text)

/-- `if tokens.next() != Some(Ok(token)) { parser_error(text) }`. -/
def expect (token : Token) (text : String) : Tokens → Parsed Tokens
  | .ok next :: tokens => if next = token then .ok tokens else parserError text
  | _ => parserError text

/-- `let Some(Ok(variant)) = tokens.next() else { parser_error(text) }`. -/
def take {α : Type} (variant : Token → Option α) (text : String) : Tokens → Parsed (α × Tokens)
  | .ok next :: tokens =>
      match variant next with
      | some value => .ok (value, tokens)
      | none => parserError text
  | _ => parserError text

namespace Token

def asString : Token → Option Text
  | .string s => some s
  | _ => none

def asExpression : Token → Option Text
  | .expression s => some s
  | _ => none

def asIdentifier : Token → Option Text
  | .identifier s => some s
  | _ => none

def asBool : Token → Option Bool
  | .bool v => some v
  | _ => none

def asNumber : Token → Option I64
  | .number v => some v
  | _ => none

def asBasicValue : Token → Option BasicValue
  | .string s => some (.string s)
  | .number n => some (.int n)
  | .bool b => some (.bool b)
  | _ => none

end Token

def expectColon : Tokens → Parsed Tokens := expect .colon "expected ':'"

/-- `parse_string_variant!`. -/
def parseVariant (variant : Token → Option Text) (text : String) (tokens : Tokens) :
    Parsed (Text × Tokens) := do
  let tokens ← expectColon tokens
  take variant text tokens

def parseString : Tokens → Parsed (Text × Tokens) :=
  parseVariant Token.asString "expected a string"

def parseExpression : Tokens → Parsed (Text × Tokens) :=
  parseVariant Token.asExpression "expected an expression"

def parseIdentifier : Tokens → Parsed (Text × Tokens) :=
  parseVariant Token.asIdentifier "expected an identifier"

section

variable {α : Type} (noun : String) (convert : Token → Option α)

/-- The loop of `parse_array`. -/
def parseArrayItems : Tokens → List α → Bool → Parsed (List α × Tokens)
  | [], _, _ => parserError "expected '\x7d'"
  | .ok .comma :: tokens, items, previousWasItem =>
      if previousWasItem then parseArrayItems tokens items false
      else parserError ("expected a " ++ noun)
  | .ok .braceClose :: tokens, items, previousWasItem =>
      if items.isEmpty then parserError (noun ++ " array cannot be empty")
      else if previousWasItem then .ok (items, tokens)
      else parserError ("expected a " ++ noun)
  | other :: tokens, items, previousWasItem =>
      match other.toOption.bind convert, previousWasItem with
      | some item, false => parseArrayItems tokens (items ++ [item]) true
      | _, true => parserError "expected a comma"
      | none, false => parserError ("expected a " ++ noun)

def parseArray (tokens : Tokens) : Parsed (List α × Tokens) := do
  let tokens ← expectColon tokens
  let tokens ← expect .braceOpen "expected '\x7b'" tokens
  parseArrayItems noun convert tokens [] false

end

def parseAttributeDefault (option : ConfigOption) (tokens : Tokens) : Parsed (Value × Tokens) := do
  let tokens ← expectColon tokens
  match option.current with
  | .null => parserError "null option should not have a default"
  | .bool _ =>
      let (val, tokens) ← take Token.asBool "expected a boolean" tokens
      pure (.bool val, tokens)
  | .int _ =>
      let (val, tokens) ← take Token.asNumber "expected an integer" tokens
      pure (.int val, tokens)
  | .string _ | .selection _ =>
      let (val, tokens) ← take Token.asString "expected a string" tokens
      pure (.string val, tokens)

/-- The variables of `parse_attributes`. -/
structure Attributes where
  option : ConfigOption
  display : Option Text
  default : Option Value
  options : Option (List Text)
  values : Option (List BasicValue)
  parentIdx : ℕ

def Value.isSelection : Value → Bool
  | .selection _ => true
  | _ => false

/-- The index that `within` names. -/
def parseWithin (ns : Namespace) (tokens : Tokens) : Parsed (ℕ × Tokens) := do
  let (parent, tokens) ← parseIdentifier tokens
  match ns.hashmap parent with
  | none => parserError ("unknown identifier '" ++ String.ofList parent ++ "'")
  | some idx =>
      match ns.vector[idx]? with
      | none => .error (.panic "index out of bounds")
      | some option =>
          if option.isMenu then pure (idx, tokens)
          else parserError ("'" ++ String.ofList parent ++ "' is not a menu")

/-- One attribute, whose keyword is read already. -/
def parseAttribute (ns : Namespace) (a : Attributes) (tokens : Tokens) :
    Except LexError Token → Parsed (Attributes × Tokens)
  | .ok .description => do
      let (text, tokens) ← parseString tokens
      pure ({ a with option := { a.option with description := some text } }, tokens)
  | .ok .depends => do
      let (text, tokens) ← parseExpression tokens
      pure ({ a with option := { a.option with depends := some text } }, tokens)
  | .ok .display => do
      let (text, tokens) ← parseString tokens
      pure ({ a with display := some text }, tokens)
  | .ok .default => do
      let (value, tokens) ← parseAttributeDefault a.option tokens
      pure ({ a with default := some value }, tokens)
  | .ok .within => do
      let (idx, tokens) ← parseWithin ns tokens
      pure ({ a with parentIdx := idx }, tokens)
  | .ok .options =>
      if a.option.current.isSelection then do
        let (options, tokens) ← parseArray "string" Token.asString tokens
        pure ({ a with options := some options }, tokens)
      else parserError "unexpected attribute 'options'"
  | .ok .values =>
      if a.option.current.isSelection then do
        let (values, tokens) ← parseArray "value" Token.asBasicValue tokens
        pure ({ a with values := some values }, tokens)
      else parserError "unexpected attribute 'values'"
  | _ => parserError "expected an attribute"

/-- The loop of `parse_attributes`; a round takes at least one token. -/
def parseAttributeLoop (ns : Namespace) : ℕ → Attributes → Tokens → Parsed (Attributes × Tokens)
  | _, a, [] => .ok (a, [])
  | _, a, .ok .braceClose :: tokens => .ok (a, tokens)
  | 0, _, _ => .error .exhausted
  | rounds + 1, a, token :: tokens => do
      let (a, tokens) ← parseAttribute ns a tokens token
      parseAttributeLoop ns rounds a tokens

/-- The default of an option; only a null option may have none. -/
def attributeDefault (a : Attributes) : Parsed Value :=
  match a.default with
  | some default => .ok default
  | none =>
      if a.option.current ≠ .null then parserError "option is missing a 'default' attribute"
      else .ok .null

/-- The value of an option from its attributes. -/
def attributeValue (a : Attributes) : Parsed Value := do
  let default ← attributeDefault a
  match a.option.current with
  | .selection _ =>
      match a.options, a.values with
      | none, _ => parserError "option is missing an 'options' attribute"
      | some _, none => parserError "option is missing a 'values' attribute"
      | some options, some values =>
          if options.length ≠ values.length then
            parserError "'options' and 'values' must have the same length"
          else
            match default with
            | .string default =>
                match options.findIdx? (· = default) with
                | some selected => pure (.selection ⟨selected, options, values⟩)
                | none => parserError "'default' attribute is not a given option"
            | _ => parserError "'default' attribute is not a string"
  | _ => pure default

/-- `namespace.vector[parent_idx].children.push(this_idx)`. -/
def Namespace.addChild (ns : Namespace) (parentIdx thisIdx : ℕ) : Namespace :=
  { ns with
    vector := ns.vector.modify parentIdx fun parent =>
      { parent with children := parent.children ++ [thisIdx] } }

def parseAttributes (ns : Namespace) (option : ConfigOption) (tokens : Tokens) :
    Parsed (ConfigOption × Namespace × Tokens) := do
  let (a, tokens) ← parseAttributeLoop ns tokens.length ⟨option, none, none, none, none, 0⟩ tokens
  match a.display with
  | none => parserError "option is missing a 'display' attribute"
  | some display =>
      let value ← attributeValue { a with option := { a.option with display := display } }
      pure ({ a.option with display := display, current := value },
        ns.addChild a.parentIdx ns.vector.length, tokens)

/-- The blank value of an option type, before its attributes are read. -/
def blankValue : Token → Option Value
  | .typeInt => some (.int 0)
  | .typeBool => some (.bool false)
  | .typeNull => some .null
  | .typeString => some (.string [])
  | .select => some (.selection SelectOption.default)
  | _ => none

/-- The loop of `parse_option` up to the opening brace: is the option a menu? -/
def parseArrow : Tokens → Bool → Bool → Parsed (Bool × Tokens)
  | [], _, isMenu => .ok (isMenu, [])
  | .ok .braceOpen :: tokens, _, isMenu => .ok (isMenu, tokens)
  | .ok .arrow :: tokens, _, isMenu => parseArrow tokens true isMenu
  | .ok .menu :: tokens, gotArrow, _ =>
      if gotArrow then parseArrow tokens gotArrow true else parserError "expected '->'"
  | _ :: _, _, _ => parserError "expected '\x7b'"

/-- `vector.push(option)` and `hashmap.insert(ident, idx)`. -/
def Namespace.push (ns : Namespace) (ident : Text) (option : ConfigOption) : Namespace :=
  { ns with
    vector := ns.vector ++ [option]
    hashmap := fun key => if key = ident then some ns.vector.length else ns.hashmap key }

def parseOption (ns : Namespace) (tokens : Tokens) : Parsed (Namespace × Tokens) := do
  let (ident, tokens) ← take Token.asIdentifier "expected an identifier" tokens
  if (ns.hashmap ident).isSome then parserError "attempted to redefine an option"
  else
    let tokens ← expect .parenOpen "expected '('" tokens
    let (blank, tokens) ← take blankValue "expected an option type" tokens
    let tokens ← expect .parenClose "expected ')'" tokens
    let (isMenu, tokens) ← parseArrow tokens false false
    let option : ConfigOption :=
      { ConfigOption.default with
        name := ident
        current := blank
        isMenu := isMenu
        declared := blank.kind }
    let (option, ns, tokens) ← parseAttributes ns option tokens
    pure (ns.push ident option, tokens)

/-- Files and environment variables. -/
structure Environment where
  canonicalize : Text → Option Text
  readToString : Text → Option Text
  var : Text → Option Text

section

variable (lexers : Lexers) (env : Environment)

/-- The entry of an environment variable. -/
def envOption (val : Text) : ConfigOption :=
  { ConfigOption.default with current := .string val, isEnv := true, declared := .string }

/-- The loop of `parse`; a round takes at least one token. -/
def parseItems (parse : Text → Namespace → Parsed Namespace) :
    ℕ → Namespace → Tokens → Parsed Namespace
  | _, ns, [] => .ok ns
  | 0, _, _ => .error .exhausted
  | rounds + 1, ns, .ok .opt :: tokens => do
      let (ns, tokens) ← parseOption ns tokens
      parseItems parse rounds ns tokens
  | rounds + 1, ns, .ok .importFile :: tokens => do
      let (string, tokens) ← take Token.asString "expected a string" tokens
      let ns ← parse string ns
      parseItems parse rounds ns tokens
  | rounds + 1, ns, .ok .proj :: tokens => do
      let (string, tokens) ← take Token.asString "expected a string" tokens
      parseItems parse rounds
        { ns with vector := ns.vector.modify 0 fun root => { root with display := string } } tokens
  | rounds + 1, ns, .ok .env :: tokens => do
      let (ident, tokens) ← take Token.asIdentifier "expected an identifier" tokens
      match env.var ident with
      | some val => parseItems parse rounds (ns.push ident (envOption val)) tokens
      | none => parserError "env var is not valid"
  | _, _, _ => parserError "expected a keyword"

/-- File names are compared as texts. -/
instance : LawfulBEq Text := inferInstance

/-- `parse`, with imports up to `depth` files inside each other. -/
def parse : ℕ → Text → Namespace → Parsed Namespace
  | 0, _, _ => .error .exhausted
  | depth + 1, file, ns =>
      match env.canonicalize file with
      | none => .error (.panic ("Failed to open file " ++ String.ofList file))
      | some path =>
          if path ∈ ns.parsedFiles then .ok ns
          else
            match env.readToString path with
            | none => .error (.panic "Failed to open file")
            | some source =>
                let tokens := lexers.token source
                parseItems env (parse depth) tokens.length
                  { ns with parsedFiles := path :: ns.parsedFiles } tokens

end

end Uconfig
end Utopia
