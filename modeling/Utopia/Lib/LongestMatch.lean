/-
Lexers that take the longest match of a list of rules, the first rule of several that match
the same text, and start again behind it.
-/
import Mathlib.Algebra.Order.Ring.Int
import Mathlib.Data.Nat.Notation
import Mathlib.Order.CompletePartialOrder
import Mathlib.Tactic.Common

namespace Utopia

/-- Which texts a rule matches as a whole, and the token of a match; a match without a token
is skipped. -/
structure LexRule (σ τ : Type) where
  accepts : List σ → Bool
  emit : List σ → Option τ

namespace LexRule

variable {σ τ : Type} (rules : List (LexRule σ τ))

/-- No rule matches a longer beginning of `lexeme ++ rest` than `lexeme`. -/
def Longest (lexeme rest : List σ) : Prop :=
  ∀ more rest', more ≠ [] → rest = more ++ rest' → ∀ rule ∈ rules,
    rule.accepts (lexeme ++ more) = false

/-- `lex` takes longest matches; nothing is said about text that no rule matches. -/
structure LexesBy (lex : List σ → List τ) : Prop where
  nil : lex [] = []
  munch : ∀ (lexeme rest : List σ) (rule : LexRule σ τ), lexeme ≠ [] →
    rules.find? (·.accepts lexeme) = some rule → Longest rules lexeme rest →
    lex (lexeme ++ rest) = (rule.emit lexeme).toList ++ lex rest

/-- The longest match of at most `n` characters at the start of `text`. -/
def longestUpTo (text : List σ) : ℕ → Option (ℕ × LexRule σ τ)
  | 0 => none
  | n + 1 =>
      match rules.find? (·.accepts (text.take (n + 1))) with
      | some rule => some (n + 1, rule)
      | none => longestUpTo text n

/-- A lexer that puts `fault` for a character at which nothing matches. -/
def lexUpTo (fault : τ) : ℕ → List σ → List τ
  | 0, _ => []
  | _ + 1, [] => []
  | n + 1, c :: text =>
      match longestUpTo rules (c :: text) (c :: text).length with
      | some (length, rule) =>
          (rule.emit ((c :: text).take length)).toList ++ lexUpTo fault n ((c :: text).drop length)
      | none => fault :: lexUpTo fault n text

def lexWith (fault : τ) (text : List σ) : List τ := lexUpTo rules fault text.length text

variable {rules}

theorem longestUpTo_pos {text : List σ} {n length : ℕ} {rule : LexRule σ τ}
    (h : longestUpTo rules text n = some (length, rule)) : 0 < length := by
  induction n with
  | zero => cases h
  | succ n ih =>
      rw [longestUpTo] at h
      split at h
      · cases h
        exact Nat.succ_pos n
      · exact ih h

/-- Steps beyond the number of characters change nothing. -/
theorem lexUpTo_eq_lexUpTo {fault : τ} {text : List σ} {m n : ℕ} (hm : text.length ≤ m)
    (hn : text.length ≤ n) : lexUpTo rules fault m text = lexUpTo rules fault n text := by
  induction m generalizing n text with
  | zero =>
      cases text with
      | nil => cases n <;> rfl
      | cons c text => exact absurd hm (Nat.not_succ_le_zero _)
  | succ m ih =>
      cases text with
      | nil => cases n <;> rfl
      | cons c text =>
          cases n with
          | zero => exact absurd hn (Nat.not_succ_le_zero _)
          | succ n =>
              have hm' : text.length ≤ m := Nat.le_of_succ_le_succ hm
              have hn' : text.length ≤ n := Nat.le_of_succ_le_succ hn
              rw [lexUpTo, lexUpTo]
              split
              · next length rule hmatch =>
                  have hpos := longestUpTo_pos hmatch
                  have hrest : ((c :: text).drop length).length ≤ text.length := by
                    rw [List.length_drop, List.length_cons]
                    omega
                  rw [ih (Nat.le_trans hrest hm') (Nat.le_trans hrest hn')]
              · rw [ih hm' hn']

/-- A match with no longer match is found. -/
theorem longestUpTo_eq {lexeme rest : List σ} {rule : LexRule σ τ} (hne : lexeme ≠ [])
    (hrule : rules.find? (·.accepts lexeme) = some rule) (hlongest : Longest rules lexeme rest)
    {n : ℕ} (hn : lexeme.length ≤ n) (hn' : n ≤ (lexeme ++ rest).length) :
    longestUpTo rules (lexeme ++ rest) n = some (lexeme.length, rule) := by
  induction n with
  | zero => exact absurd (List.length_eq_zero_iff.mp (Nat.le_zero.mp hn)) hne
  | succ n ih =>
      rw [longestUpTo]
      rcases Nat.eq_or_lt_of_le hn with heq | hlt
      · rw [← heq, List.take_left, hrule]
      · have htake : (lexeme ++ rest).take (n + 1) =
            lexeme ++ rest.take (n + 1 - lexeme.length) := by
          rw [List.take_append, List.take_of_length_le hn]
        have hmore : rest.take (n + 1 - lexeme.length) ≠ [] := by
          intro hempty
          have hlength := congrArg List.length hempty
          rw [List.length_append] at hn'
          rw [List.length_take, List.length_nil] at hlength
          omega
        have hnone : rules.find? (·.accepts ((lexeme ++ rest).take (n + 1))) = none := by
          rw [List.find?_eq_none, htake]
          intro other hother
          rw [hlongest _ _ hmore (List.take_append_drop _ rest).symm other hother]
          exact Bool.false_ne_true
        rw [hnone]
        exact ih (Nat.le_of_lt_succ hlt) (Nat.le_of_succ_le hn')

/-- The lexer of the rules takes longest matches. -/
theorem lexWith_lexesBy (fault : τ) : LexesBy rules (lexWith rules fault) where
  nil := rfl
  munch lexeme rest rule hne hrule hlongest := by
    obtain ⟨c, lexeme, rfl⟩ := List.exists_cons_of_ne_nil hne
    have hmatch := longestUpTo_eq hne hrule hlongest (n := ((c :: lexeme) ++ rest).length)
      (by rw [List.length_append]; omega) (Nat.le_refl _)
    rw [lexWith, List.cons_append, List.length_cons, lexUpTo]
    rw [List.cons_append] at hmatch
    rw [hmatch]
    dsimp only
    rw [← List.cons_append, List.take_left, List.drop_left, lexWith]
    congr 1
    refine lexUpTo_eq_lexUpTo ?_ (Nat.le_refl _)
    rw [List.length_append]
    omega

end LexRule

end Utopia
