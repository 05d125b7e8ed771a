/-
The tokens of a `.config` file that `export` wrote: the patterns of `ConfigToken` in
`tools/uconfig/parser/src/lexer.rs`, and what they match there.
-/
import Utopia.Uconfig.Config
import Utopia.Uconfig.NamespaceTree
import Utopia.Lib.LongestMatch

namespace Utopia
namespace Uconfig

/-! ### The patterns -/

def isSpace (c : Char) : Bool := c = ' ' ∨ c = '\t' ∨ c = '\r' ∨ c = '\n'

def isIdentStart (c : Char) : Bool := c.isAlpha ∨ c = '_'

def isIdentRest (c : Char) : Bool := c.isAlphanum ∨ c = '_'

/-- `[ \t\r\n]+`. -/
def spaces (text : Text) : Bool := !text.isEmpty && text.all isSpace

/-- `#[^\n]*`. -/
def comment : Text → Bool
  | c :: rest => c == '#' && rest.all (· ≠ '\n')
  | [] => false

/-- `true|false`. -/
def booleanWord (text : Text) : Bool := text = "true".toList ∨ text = "false".toList

/-- `[A-Za-z_][A-Za-z0-9_]*`. -/
def identifierWord : Text → Bool
  | c :: rest => isIdentStart c && rest.all isIdentRest
  | [] => false

/-- `[+-]?[0-9]+`. -/
def numberWord : Text → Bool
  | c :: rest =>
      if c = '+' ∨ c = '-' then !rest.isEmpty && rest.all Char.isDigit
      else c.isDigit && rest.all Char.isDigit
  | [] => false

/-- `([^"\\]|\\.)*"`. -/
def quotedRest : Text → Bool
  | '\\' :: c :: rest => c ≠ '\n' && quotedRest rest
  | '"' :: rest => rest.isEmpty
  | c :: rest => c ≠ '\\' && quotedRest rest
  | [] => false

/-- `"([^"\\]|\\.)*"`. -/
def quotedWord : Text → Bool
  | c :: rest => c == '"' && quotedRest rest
  | [] => false

/-- The patterns of `ConfigToken`; a word that is a boolean is no identifier. -/
def configRules : List (LexRule Char (Except LexError ConfigToken)) :=
  [⟨spaces, fun _ => none⟩,
    ⟨comment, fun _ => none⟩,
    ⟨(· = ['=']), fun _ => some (.ok .equals)⟩,
    ⟨booleanWord, fun text => some (.ok (.boolean (text = "true".toList)))⟩,
    ⟨identifierWord, fun text => some (.ok (.identifier text))⟩,
    ⟨numberWord, fun text =>
      some (match parseI64 text with
        | some v => .ok (.number v)
        | none => .error .invalidInteger)⟩,
    ⟨quotedWord, fun text => some (.ok (.quotedString text.tail.dropLast))⟩]

/-- What the generated lexers do: they take longest matches, and a name of a Uconfig file is
an identifier and no boolean. -/
structure Lexers.Generated (lexers : Lexers) : Prop where
  config : LexRule.LexesBy configRules lexers.config
  names : ∀ name, lexers.Ident name → identifierWord name = true ∧ booleanWord name = false

/-! ### Numbers -/

theorem isDigit_of_mem_decimal {n : ℕ} {c : Char} (h : c ∈ Nat.toDigits 10 n) :
    c.isDigit = true :=
  Nat.isDigit_of_mem_toDigits (by decide) (by decide) h

theorem decimal_cons (n : ℕ) : ∃ c rest, Nat.toDigits 10 n = c :: rest ∧ c.isDigit = true ∧
    rest.all Char.isDigit = true := by
  obtain ⟨c, rest, hdigits⟩ := List.exists_cons_of_ne_nil (Nat.toDigits_ne_nil (n := n) (b := 10))
  have hall : ∀ d ∈ c :: rest, d.isDigit = true := by
    intro d hd
    rw [← hdigits] at hd
    exact isDigit_of_mem_decimal hd
  exact ⟨c, rest, hdigits, hall c List.mem_cons_self,
    List.all_eq_true.mpr fun d hd => hall d (List.mem_cons_of_mem _ hd)⟩

theorem ne_sign_of_isDigit {c : Char} (h : c.isDigit = true) : c ≠ '+' ∧ c ≠ '-' := by
  constructor <;> rintro rfl <;> exact absurd h (by decide)

/-- Reading back a written number. -/
theorem parseI64_displayI64 (v : I64) : parseI64 (displayI64 v) = some v := by
  obtain ⟨c, rest, hdigits, hc, hrest⟩ := decimal_cons v.toInt.natAbs
  obtain ⟨hplus, hminus⟩ := ne_sign_of_isDigit hc
  have hvalue : Nat.ofDigitChars 10 (c :: rest) 0 = v.toInt.natAbs := by
    rw [← hdigits]
    exact Nat.ofDigitChars_ten_toDigits
  have hall : (c :: rest).all Char.isDigit = true := by
    rw [List.all_cons, hc, hrest]
    rfl
  have hlow := BitVec.le_toInt v
  have hhigh := BitVec.toInt_lt (x := v)
  rw [displayI64, hdigits]
  split_ifs with hneg
  · have hmagnitude : -(v.toInt.natAbs : Int) = v.toInt := by omega
    simp only [parseI64, List.head?_cons, List.tail_cons, decide_true, true_or, if_true, hvalue,
      hall, hmagnitude, List.isEmpty_cons, not_true, Bool.false_eq_true, or_self, if_false]
    rw [if_pos ⟨hlow, hhigh⟩, BitVec.ofInt_toInt]
  · have hmagnitude : (v.toInt.natAbs : Int) = v.toInt := by omega
    have hnone : ∀ d : Char, c ≠ d → ((c :: rest).head? = some d ↔ False) := by
      intro d hd
      simp [hd]
    simp only [parseI64, hnone _ hminus, hnone _ hplus, decide_false, Bool.false_eq_true, or_self,
      if_false, hvalue, hall, hmagnitude, List.isEmpty_cons, not_true]
    rw [if_pos ⟨hlow, hhigh⟩, BitVec.ofInt_toInt]

/-! ### What a pattern does not match, by the first character -/

/-- The classes of characters with which the patterns start. -/
structure Letter (c : Char) : Prop where
  space : isSpace c = false
  hash : c ≠ '#'
  equals : c ≠ '='
  plus : c ≠ '+'
  minus : c ≠ '-'
  digit : c.isDigit = false
  quote : c ≠ '"'

theorem letter_of_isIdentStart {c : Char} (h : isIdentStart c = true) : Letter c := by
  have hne : ∀ d : Char, isIdentStart d = false → c ≠ d := by
    rintro d hd rfl
    rw [h] at hd
    cases hd
  have hdigit : c.isDigit = false := by
    rw [Bool.eq_false_iff]
    intro hdigit
    rw [isIdentStart, decide_eq_true_iff] at h
    rcases h with halpha | rfl
    · change (decide (c.val ≥ 'A'.val ∧ c.val ≤ 'Z'.val) ||
        (decide (c.val ≥ 'a'.val) && decide (c.val ≤ 'z'.val))) = true at halpha
      simp only [Char.isDigit, Bool.or_eq_true, Bool.and_eq_true, decide_eq_true_eq, ge_iff_le,
        UInt32.le_iff_toNat_le] at halpha hdigit
      have hnine : '9'.val.toNat = 57 := rfl
      have hupper : 'A'.val.toNat = 65 := rfl
      have hlower : 'a'.val.toNat = 97 := rfl
      omega
    · exact absurd hdigit (by decide)
  have hspace : isSpace c = false := by
    simp [isSpace, hne ' ' (by decide), hne '\t' (by decide), hne '\r' (by decide),
      hne '\n' (by decide)]
  exact ⟨hspace, hne _ (by decide), hne _ (by decide), hne _ (by decide), hne _ (by decide),
    hdigit, hne _ (by decide)⟩

theorem spaces_eq_false {c : Char} (h : isSpace c = false) (rest : Text) :
    spaces (c :: rest) = false := by
  simp [spaces, h]

theorem comment_eq_false {c : Char} (h : c ≠ '#') (rest : Text) : comment (c :: rest) = false := by
  simp [comment, h]

theorem numberWord_eq_false {c : Char} (hplus : c ≠ '+') (hminus : c ≠ '-')
    (hdigit : c.isDigit = false) (rest : Text) : numberWord (c :: rest) = false := by
  simp [numberWord, hplus, hminus, hdigit]

theorem quotedWord_eq_false {c : Char} (h : c ≠ '"') (rest : Text) :
    quotedWord (c :: rest) = false := by
  simp [quotedWord, h]

theorem identifierWord_eq_false {c : Char} (h : isIdentStart c = false) (rest : Text) :
    identifierWord (c :: rest) = false := by
  simp [identifierWord, h]

theorem booleanWord_eq_false {text : Text} {d : Char} (hd : d ∈ text)
    (htrue : d ∉ "true".toList) (hfalse : d ∉ "false".toList) : booleanWord text = false := by
  have hne : ∀ word, d ∉ word → text ≠ word := by
    rintro word hword rfl
    exact hword hd
  rw [booleanWord, decide_eq_false_iff_not]
  exact fun hword => hword.elim (hne _ htrue) (hne _ hfalse)

theorem accepts_none {text : Text} (hspaces : spaces text = false)
    (hcomment : comment text = false) (hequals : text ≠ ['='])
    (hboolean : booleanWord text = false) (hidentifier : identifierWord text = false)
    (hnumber : numberWord text = false) (hquoted : quotedWord text = false) :
    ∀ rule ∈ configRules, rule.accepts text = false := by
  simp [configRules, hspaces, hcomment, hequals, hboolean, hidentifier, hnumber, hquoted]

/-! ### Lexing a line -/

/-- `rest` does not go on with white space. -/
def Clear (rest : Text) : Prop := ∀ c ∈ rest.head?, isSpace c = false

section

variable {lexers : Lexers}

theorem first_of_isSpace {c : Char} (h : isSpace c = true) :
    c = ' ' ∨ c = '\t' ∨ c = '\r' ∨ c = '\n' := by
  rwa [isSpace, decide_eq_true_iff] at h

theorem lex_spaces (hlex : lexers.Generated) (text : Text) (htext : spaces text = true)
    {rest : Text} (hrest : Clear rest) : lexers.config (text ++ rest) = lexers.config rest := by
  obtain ⟨c, text, rfl⟩ : ∃ c tail, text = c :: tail := by
    cases text with
    | nil => cases htext
    | cons c tail => exact ⟨c, tail, rfl⟩
  have hc : isSpace c = true := by
    rw [spaces, List.all_cons, Bool.and_eq_true, Bool.and_eq_true] at htext
    exact htext.2.1
  have hfirst : configRules.find? (·.accepts (c :: text)) = some ⟨spaces, fun _ => none⟩ := by
    simp [configRules, htext]
  refine hlex.config.munch (c :: text) rest _ (List.cons_ne_nil _ _) hfirst ?_
  intro more rest' hmore hsplit
  obtain ⟨d, more, rfl⟩ := List.exists_cons_of_ne_nil hmore
  have hd : isSpace d = false := hrest d (by rw [hsplit]; rfl)
  have hspaces : spaces ((c :: text) ++ d :: more) = false := by
    simp [spaces, hd]
  rw [List.cons_append] at hspaces ⊢
  rcases first_of_isSpace hc with rfl | rfl | rfl | rfl
  all_goals
    refine accepts_none hspaces (comment_eq_false (by decide) _) (by simp)
      (booleanWord_eq_false List.mem_cons_self (by decide) (by decide))
      (identifierWord_eq_false (by decide) _)
      (numberWord_eq_false (by decide) (by decide) (by decide) _)
      (quotedWord_eq_false (by decide) _)

theorem lex_comment (hlex : lexers.Generated) {text : Text} (htext : text.all (· ≠ '\n') = true)
    (rest : Text) : lexers.config ('#' :: text ++ '\n' :: rest) = lexers.config ('\n' :: rest) := by
  have hfirst : configRules.find? (·.accepts ('#' :: text)) = some ⟨comment, fun _ => none⟩ := by
    have haccepts : comment ('#' :: text) = true := by
      rw [comment, htext]
      rfl
    simp [configRules, spaces_eq_false (c := '#') (by decide), haccepts]
  refine hlex.config.munch ('#' :: text) ('\n' :: rest) _ (List.cons_ne_nil _ _) hfirst ?_
  intro more rest' hmore hsplit
  obtain ⟨d, more, rfl⟩ := List.exists_cons_of_ne_nil hmore
  obtain rfl : '\n' = d := (List.cons.inj hsplit).1
  rw [List.cons_append]
  refine accepts_none (spaces_eq_false (by decide) _) ?_ (by simp)
    (booleanWord_eq_false List.mem_cons_self (by decide) (by decide))
    (identifierWord_eq_false (by decide) _)
    (numberWord_eq_false (by decide) (by decide) (by decide) _)
    (quotedWord_eq_false (by decide) _)
  simp [comment]

theorem lex_identifier (hlex : lexers.Generated) {name : Text}
    (hname : identifierWord name = true) (hboolean : booleanWord name = false) (rest : Text) :
    lexers.config (name ++ '=' :: rest) = .ok (.identifier name) :: lexers.config ('=' :: rest) := by
  obtain ⟨c, name, rfl⟩ : ∃ c tail, name = c :: tail := by
    cases name with
    | nil => cases hname
    | cons c tail => exact ⟨c, tail, rfl⟩
  have hstart : isIdentStart c = true := by
    rw [identifierWord, Bool.and_eq_true] at hname
    exact hname.1
  have hc := letter_of_isIdentStart hstart
  have hfirst : configRules.find? (·.accepts (c :: name)) =
      some ⟨identifierWord, fun text => some (.ok (.identifier text))⟩ := by
    simp [configRules, spaces_eq_false hc.space, comment_eq_false hc.hash, hc.equals, hboolean,
      hname]
  refine hlex.config.munch (c :: name) ('=' :: rest) _ (List.cons_ne_nil _ _) hfirst ?_
  intro more rest' hmore hsplit
  obtain ⟨d, more, rfl⟩ := List.exists_cons_of_ne_nil hmore
  obtain rfl : '=' = d := (List.cons.inj hsplit).1
  rw [List.cons_append]
  refine accepts_none (spaces_eq_false hc.space _) (comment_eq_false hc.hash _) ?_ ?_ ?_
    (numberWord_eq_false hc.plus hc.minus hc.digit _) (quotedWord_eq_false hc.quote _)
  · simp [hc.equals]
  · refine booleanWord_eq_false (d := '=') ?_ (by decide) (by decide)
    simp
  · simp [identifierWord, isIdentRest]

theorem lex_equals (hlex : lexers.Generated) (rest : Text) :
    lexers.config ('=' :: rest) = .ok .equals :: lexers.config rest := by
  refine hlex.config.munch ['='] rest ⟨(· = ['=']), fun _ => some (.ok .equals)⟩
    (List.cons_ne_nil _ _) rfl ?_
  intro more rest' hmore hsplit
  obtain ⟨d, more, rfl⟩ := List.exists_cons_of_ne_nil hmore
  exact accepts_none (spaces_eq_false (by decide) _) (comment_eq_false (by decide) _) (by simp)
    (booleanWord_eq_false List.mem_cons_self (by decide) (by decide))
    (identifierWord_eq_false (by decide) _)
    (numberWord_eq_false (by decide) (by decide) (by decide) _)
    (quotedWord_eq_false (by decide) _)

theorem lex_boolean (hlex : lexers.Generated) (b : Bool) (rest : Text) :
    lexers.config (displayBool b ++ '\n' :: rest) =
      .ok (.boolean b) :: lexers.config ('\n' :: rest) := by
  have hfirst : configRules.find? (·.accepts (displayBool b)) =
      some ⟨booleanWord, fun text => some (.ok (.boolean (text = "true".toList)))⟩ := by
    cases b <;> rfl
  have hne : displayBool b ≠ [] := by cases b <;> decide
  have hemit : some (Except.ok (.boolean b) : Except LexError ConfigToken) =
      some (.ok (.boolean (displayBool b = "true".toList))) := by cases b <;> rfl
  have hmunch := hlex.config.munch (displayBool b) ('\n' :: rest) _ hne hfirst ?_
  · rw [hmunch]
    dsimp only
    rw [← hemit]
    rfl
  · intro more rest' hmore hsplit
    obtain ⟨d, more, rfl⟩ := List.exists_cons_of_ne_nil hmore
    obtain rfl : '\n' = d := (List.cons.inj hsplit).1
    have hlong : booleanWord (displayBool b ++ '\n' :: more) = false := by
      refine booleanWord_eq_false (d := '\n') ?_ (by decide) (by decide)
      exact List.mem_append_right _ List.mem_cons_self
    have hident : identifierWord (displayBool b ++ '\n' :: more) = false := by
      cases b <;> simp [displayBool, identifierWord, isIdentRest]
    cases b with
    | true =>
        exact accepts_none (spaces_eq_false (by decide) _) (comment_eq_false (by decide) _)
          (by simp [displayBool]) hlong hident
          (numberWord_eq_false (by decide) (by decide) (by decide) _)
          (quotedWord_eq_false (by decide) _)
    | false =>
        exact accepts_none (spaces_eq_false (by decide) _) (comment_eq_false (by decide) _)
          (by simp [displayBool]) hlong hident
          (numberWord_eq_false (by decide) (by decide) (by decide) _)
          (quotedWord_eq_false (by decide) _)

/-- How a written number starts. -/
theorem displayI64_cons (v : I64) : ∃ c rest, displayI64 v = c :: rest ∧
    (c = '-' ∨ c.isDigit = true) ∧ numberWord (c :: rest) = true ∧
    ∃ d ∈ c :: rest, d.isDigit = true := by
  obtain ⟨c, rest, hdigits, hc, hrest⟩ := decimal_cons v.toInt.natAbs
  obtain ⟨hplus, hminus⟩ := ne_sign_of_isDigit hc
  rw [displayI64, hdigits]
  split_ifs
  · exact ⟨'-', c :: rest, rfl, Or.inl rfl, by simp [numberWord, hc, hrest], c,
      List.mem_cons_of_mem _ List.mem_cons_self, hc⟩
  · exact ⟨c, rest, rfl, Or.inr hc, by simp [numberWord, hplus, hminus, hc, hrest], c,
      List.mem_cons_self, hc⟩

theorem lex_number (hlex : lexers.Generated) (v : I64) (rest : Text) :
    lexers.config (displayI64 v ++ '\n' :: rest) =
      .ok (.number v) :: lexers.config ('\n' :: rest) := by
  obtain ⟨c, tail, hdisplay, hc, hnumber, d, hd, hdigit⟩ := displayI64_cons v
  have hne : ∀ e : Char, e ≠ '-' → e.isDigit = false → c ≠ e := by
    rintro e hminus hnodigit rfl
    rcases hc with hc | hc
    · exact hminus hc
    · rw [hnodigit] at hc
      cases hc
  have hnotIn : ∀ word : Text, word.all (fun e => !e.isDigit) = true → d ∉ word := by
    intro word hword hmem
    have hnot := List.all_eq_true.mp hword d hmem
    rw [hdigit] at hnot
    cases hnot
  have hspace : isSpace c = false := by
    simp [isSpace, hne ' ' (by decide) (by decide), hne '\t' (by decide) (by decide),
      hne '\r' (by decide) (by decide), hne '\n' (by decide) (by decide)]
  have hstart : isIdentStart c = false := by
    rcases hc with rfl | hc
    · decide
    · rw [Bool.eq_false_iff]
      intro hletter
      rw [(letter_of_isIdentStart hletter).digit] at hc
      cases hc
  have hboolean : ∀ text : Text, d ∈ text → booleanWord text = false := fun text hmem =>
    booleanWord_eq_false hmem (hnotIn _ (by decide)) (hnotIn _ (by decide))
  have hfirst : configRules.find? (·.accepts (c :: tail)) =
      some ⟨numberWord, fun text =>
        some (match parseI64 text with
          | some v => .ok (.number v)
          | none => .error .invalidInteger)⟩ := by
    simp [configRules, spaces_eq_false hspace,
      comment_eq_false (hne '#' (by decide) (by decide)), hne '=' (by decide) (by decide),
      hboolean _ hd, identifierWord_eq_false hstart, hnumber]
  rw [hdisplay]
  have hmunch := hlex.config.munch (c :: tail) ('\n' :: rest) _ (List.cons_ne_nil _ _) hfirst ?_
  · rw [hmunch]
    dsimp only
    rw [← hdisplay, parseI64_displayI64]
    rfl
  · intro more rest' hmore hsplit
    obtain ⟨e, more, rfl⟩ := List.exists_cons_of_ne_nil hmore
    obtain rfl : '\n' = e := (List.cons.inj hsplit).1
    have hlong : numberWord ((c :: tail) ++ '\n' :: more) = false := by
      simp [numberWord]
    rw [List.cons_append] at hlong ⊢
    exact accepts_none (spaces_eq_false hspace _)
      (comment_eq_false (hne '#' (by decide) (by decide)) _)
      (by simp)
      (hboolean _ (by rw [← List.cons_append]; exact List.mem_append_left _ hd))
      (identifierWord_eq_false hstart _) hlong
      (quotedWord_eq_false (hne '"' (by decide) (by decide)) _)

/-- Escaped text stays inside its quotes. -/
theorem quotedRest_escapeC (s rest : Text) :
    quotedRest (escapeC s ++ rest) = quotedRest rest := by
  induction s with
  | nil => rfl
  | cons c s ih =>
      rw [escapeC, List.flatMap_cons, List.append_assoc, ← ih, escapeC]
      generalize List.flatMap escapeChar s ++ rest = text
      rw [escapeChar]
      split_ifs with hbackslash hquote hnewline hreturn htab
      · simp [quotedRest]
      · simp [quotedRest]
      · simp [quotedRest]
      · simp [quotedRest]
      · simp [quotedRest]
      · rw [List.singleton_append, quotedRest]
        · simp [hbackslash]
        · exact fun _ _ hc _ => hbackslash hc
        · exact hquote

theorem lex_quoted (hlex : lexers.Generated) (s : Text) (rest : Text) :
    lexers.config ('"' :: escapeC s ++ '"' :: '\n' :: rest) =
      .ok (.quotedString (escapeC s)) :: lexers.config ('\n' :: rest) := by
  have hquoted : quotedWord ('"' :: (escapeC s ++ ['"'])) = true := by
    rw [quotedWord, quotedRest_escapeC]
    rfl
  have hboolean : ∀ text : Text, booleanWord ('"' :: text) = false := fun text =>
    booleanWord_eq_false List.mem_cons_self (by decide) (by decide)
  have hfirst : configRules.find? (·.accepts ('"' :: (escapeC s ++ ['"']))) =
      some ⟨quotedWord, fun text => some (.ok (.quotedString text.tail.dropLast))⟩ := by
    simp [configRules, spaces_eq_false (c := '"') (by decide),
      comment_eq_false (c := '"') (by decide), hboolean,
      identifierWord_eq_false (c := '"') (by decide),
      numberWord_eq_false (c := '"') (by decide) (by decide) (by decide), hquoted]
  have hmunch := hlex.config.munch ('"' :: (escapeC s ++ ['"'])) ('\n' :: rest) _
    (List.cons_ne_nil _ _) hfirst ?_
  · have hsplit : '"' :: escapeC s ++ '"' :: '\n' :: rest =
        ('"' :: (escapeC s ++ ['"'])) ++ '\n' :: rest := by simp
    rw [hsplit, hmunch]
    dsimp only
    rw [List.tail_cons, List.dropLast_concat]
    rfl
  · intro more rest' hmore hsplit
    obtain ⟨d, more, rfl⟩ := List.exists_cons_of_ne_nil hmore
    have hlong : quotedWord ('"' :: (escapeC s ++ ['"']) ++ d :: more) = false := by
      rw [List.cons_append, List.append_assoc, quotedWord, quotedRest_escapeC]
      rfl
    rw [List.cons_append] at hlong ⊢
    exact accepts_none (spaces_eq_false (by decide) _) (comment_eq_false (by decide) _)
      (by simp) (hboolean _) (identifierWord_eq_false (by decide) _)
      (numberWord_eq_false (by decide) (by decide) (by decide) _) hlong

/-! ### The whole file -/

/-- The literal of a written value. -/
def literalOf : BasicValue → ConfigToken
  | .bool b => .boolean b
  | .int v => .number v
  | .string s => .quotedString (escapeC s)

/-- The tokens of a line. -/
def lineTokens (option : ConfigOption) : List (Except LexError ConfigToken) :=
  if option.current = .null then []
  else
    match option.current.toBasic with
    | none => []
    | some value => [.ok (.identifier option.name), .ok .equals, .ok (literalOf value)]

theorem lex_newline (hlex : lexers.Generated) {rest : Text} (hrest : Clear rest) :
    lexers.config ('\n' :: rest) = lexers.config rest :=
  lex_spaces hlex ['\n'] (by decide) hrest

/-- A line is read as the tokens it was made of. -/
theorem lex_line (hlex : lexers.Generated) {option : ConfigOption}
    (hname : identifierWord option.name = true) (hboolean : booleanWord option.name = false)
    {rest : Text} (hrest : Clear rest) :
    lexers.config ((configLine option).getD [] ++ rest) =
      lineTokens option ++ lexers.config rest := by
  rw [configLine, lineTokens]
  split_ifs with hnull
  · rfl
  · cases hbasic : option.current.toBasic with
    | none => rfl
    | some value =>
        cases value with
        | bool b =>
            change lexers.config (option.name ++ ['='] ++ displayBool b ++ ['\n'] ++ rest) = _
            rw [List.append_assoc, List.append_assoc, List.append_assoc, List.singleton_append,
              List.singleton_append, lex_identifier hlex hname hboolean, lex_equals hlex,
              lex_boolean hlex, lex_newline hlex hrest]
            rfl
        | int v =>
            change lexers.config (option.name ++ ['='] ++ displayI64 v ++ ['\n'] ++ rest) = _
            rw [List.append_assoc, List.append_assoc, List.append_assoc, List.singleton_append,
              List.singleton_append, lex_identifier hlex hname hboolean, lex_equals hlex,
              lex_number hlex, lex_newline hlex hrest]
            rfl
        | string s =>
            change lexers.config
              (option.name ++ "=\"".toList ++ escapeC s ++ "\"\n".toList ++ rest) = _
            have hsplit : option.name ++ "=\"".toList ++ escapeC s ++ "\"\n".toList ++ rest =
                option.name ++ '=' :: ('"' :: escapeC s ++ '"' :: '\n' :: rest) := by simp
            rw [hsplit, lex_identifier hlex hname hboolean, lex_equals hlex, lex_quoted hlex,
              lex_newline hlex hrest]
            rfl

theorem clear_name {name : Text} (hname : identifierWord name = true) (rest : Text) :
    Clear (name ++ rest) := by
  cases name with
  | nil => cases hname
  | cons c name =>
      intro d hd
      obtain rfl : c = d := Option.some.inj hd
      rw [identifierWord, Bool.and_eq_true] at hname
      exact (letter_of_isIdentStart hname.1).space

/-- All lines are read as the tokens they were made of. -/
theorem lex_lines (hlex : lexers.Generated) {options : List ConfigOption}
    (hnames : ∀ option ∈ options, identifierWord option.name = true ∧
      booleanWord option.name = false) :
    lexers.config (options.flatMap fun option => (configLine option).getD []) =
        options.flatMap lineTokens ∧
      Clear (options.flatMap fun option => (configLine option).getD []) := by
  induction options with
  | nil => exact ⟨hlex.config.nil, fun c hc => nomatch hc⟩
  | cons option options ih =>
      obtain ⟨hlines, hclear⟩ := ih fun other hother => hnames other (List.mem_cons_of_mem _ hother)
      obtain ⟨hname, hboolean⟩ := hnames option List.mem_cons_self
      rw [List.flatMap_cons, List.flatMap_cons, lex_line hlex hname hboolean hclear, hlines]
      refine ⟨rfl, ?_⟩
      rw [configLine]
      split_ifs
      · exact hclear
      · cases option.current.toBasic with
        | none => exact hclear
        | some value =>
            cases value with
            | bool b =>
                change Clear (option.name ++ ['='] ++ displayBool b ++ ['\n'] ++ _)
                rw [List.append_assoc, List.append_assoc, List.append_assoc]
                exact clear_name hname _
            | int v =>
                change Clear (option.name ++ ['='] ++ displayI64 v ++ ['\n'] ++ _)
                rw [List.append_assoc, List.append_assoc, List.append_assoc]
                exact clear_name hname _
            | string s =>
                change Clear (option.name ++ "=\"".toList ++ escapeC s ++ "\"\n".toList ++ _)
                rw [List.append_assoc, List.append_assoc, List.append_assoc]
                exact clear_name hname _

end

end Uconfig
end Utopia
