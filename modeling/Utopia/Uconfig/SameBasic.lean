/-
Namespaces whose options have the same basic values: the same options are visible in them, and
`export` writes the same text.
-/
import Utopia.Uconfig.Visible

namespace Utopia
namespace Uconfig

/-- Entries that differ in their values only, where those have the same basic value. -/
structure ConfigOption.SameBasic (option option' : ConfigOption) : Prop where
  skeleton : option'.skeleton = option.skeleton
  kind : option'.current.kind = option.current.kind
  basic : option'.current.toBasic = option.current.toBasic

theorem ConfigOption.sameBasic_refl (option : ConfigOption) : option.SameBasic option :=
  ⟨rfl, rfl, rfl⟩

theorem name_eq {option option' : ConfigOption} (h : option'.skeleton = option.skeleton) :
    option'.name = option.name := by
  have hname := congrArg ConfigOption.name h
  exact hname

theorem kind_eq_null_iff {value : Value} : value.kind = .null ↔ value = .null := by
  cases value <;> simp [Value.kind]

theorem ConfigOption.SameBasic.null_iff {option option' : ConfigOption}
    (h : option.SameBasic option') : option'.current = .null ↔ option.current = .null := by
  rw [← kind_eq_null_iff, h.kind, kind_eq_null_iff]

theorem ConfigOption.SameBasic.configLine {option option' : ConfigOption}
    (h : option.SameBasic option') : configLine option' = configLine option := by
  rw [Uconfig.configLine, Uconfig.configLine, h.basic, name_eq h.skeleton]
  simp only [h.null_iff]

namespace Namespace

/-- The options have the same basic values. -/
structure SameBasic (ns ns' : Namespace) : Prop where
  hashmap : ns'.hashmap = ns.hashmap
  options : List.Forall₂ ConfigOption.SameBasic ns.vector ns'.vector

variable {lexers : Lexers} {ns ns' : Namespace}

theorem SameBasic.sameTree (h : ns.SameBasic ns') : ns.SameTree ns' :=
  ⟨h.hashmap, map_eq_of_forall₂ (fun _ _ hsame => hsame.skeleton) h.options⟩

/-- Entries at one index are both there or both not. -/
theorem SameBasic.entry (h : ns.SameBasic ns') (i : ℕ) :
    (ns.vector[i]? = none ∧ ns'.vector[i]? = none) ∨
      ∃ option option', ns.vector[i]? = some option ∧ ns'.vector[i]? = some option' ∧
        option.SameBasic option' := by
  by_cases hi : i < ns.vector.length
  · have hi' : i < ns'.vector.length := by
      rw [← h.options.length_eq]
      exact hi
    exact Or.inr ⟨_, _, List.getElem?_eq_getElem hi, List.getElem?_eq_getElem hi',
      h.options.get hi hi'⟩
  · have hi' : ns'.vector.length ≤ i := by
      rw [← h.options.length_eq]
      exact Nat.le_of_not_lt hi
    exact Or.inl ⟨List.getElem?_eq_none (Nat.le_of_not_lt hi), List.getElem?_eq_none hi'⟩

theorem sameBasic_of_entries (hhashmap : ns'.hashmap = ns.hashmap)
    (hlength : ns'.vector.length = ns.vector.length)
    (hentries : ∀ (i : ℕ) (option option' : ConfigOption), ns.vector[i]? = some option →
      ns'.vector[i]? = some option' → option.SameBasic option') : ns.SameBasic ns' :=
  ⟨hhashmap, List.forall₂_iff_get.mpr ⟨hlength.symm, fun i hi hi' =>
    hentries i _ _ (List.getElem?_eq_getElem hi) (List.getElem?_eq_getElem hi')⟩⟩

/-! ### `valid` -/

theorem SameBasic.lookup (h : ns.SameBasic ns')
    {valid valid' : ConfigOption → Option ExpressionResult}
    (hvalid : ∀ option option', option.SameBasic option' → valid' option' = valid option)
    (ident : Text) : lookup ns' valid' ident = lookup ns valid ident := by
  rw [Uconfig.lookup, Uconfig.lookup, h.hashmap]
  cases ns.hashmap ident with
  | none => rfl
  | some idx =>
      rcases h.entry idx with ⟨hnone, hnone'⟩ | ⟨option, option', hoption, hoption', hsame⟩
      · simp only [hnone, hnone']
      · simp only [hoption, hoption', hvalid option option' hsame, hsame.basic]

theorem evaluateTokens_congr {valid valid' : ConfigOption → Option ExpressionResult}
    (hlookup : ∀ ident, lookup ns' valid' ident = lookup ns valid ident)
    (tokens : List (Except LexError ExpressionToken)) (stack : List BasicValue) :
    evaluateTokens ns' valid' tokens stack = evaluateTokens ns valid tokens stack := by
  induction tokens generalizing stack with
  | nil => rfl
  | cons token tokens ih =>
      cases token with
      | error _ => rfl
      | ok token =>
          cases token with
          | identifier ident =>
              rw [evaluateTokens, evaluateTokens, hlookup]
              cases Uconfig.lookup ns valid ident with
              | error _ => rfl
              | ok value => exact ih _
          | _ =>
              simp only [evaluateTokens]
              split
              · rfl
              · exact ih _

/-- `valid_internal` reads nothing of a value but its basic value. -/
theorem SameBasic.validInternal (h : ns.SameBasic ns') (depth : ℕ) (evaluated : List Text)
    {option option' : ConfigOption} (hsame : option.SameBasic option') :
    validInternal lexers ns' depth evaluated option' =
      validInternal lexers ns depth evaluated option := by
  induction depth generalizing evaluated option option' with
  | zero => rfl
  | succ depth ih =>
      rw [Uconfig.validInternal, Uconfig.validInternal, depends_eq hsame.skeleton,
        name_eq hsame.skeleton]
      cases option.depends with
      | none => rfl
      | some expression =>
          dsimp only
          rw [evaluateTokens_congr (h.lookup fun _ _ hnested => ih _ hnested)]

theorem SameBasic.valid (lexers : Lexers) (h : ns.SameBasic ns') {option option' : ConfigOption}
    (hsame : option.SameBasic option') :
    valid lexers ns' option' = valid lexers ns option := by
  rw [Uconfig.valid, Uconfig.valid, h.sameTree.length]
  exact h.validInternal _ _ hsame

/-! ### `export` -/

theorem SameBasic.passes (h : ns.SameBasic ns') {i : ℕ} :
    (∃ option', ns'.vector[i]? = some option' ∧ Uconfig.valid lexers ns' option' = some .passed) ↔
      ∃ option, ns.vector[i]? = some option ∧ Uconfig.valid lexers ns option = some .passed := by
  rcases h.entry i with ⟨hnone, hnone'⟩ | ⟨option, option', hoption, hoption', hsame⟩
  · simp only [hnone, hnone', reduceCtorEq, false_and, exists_false]
  · simp only [hoption, hoption', Option.some.injEq, exists_eq_left', h.valid lexers hsame]

theorem SameBasic.child (h : ns.SameBasic ns') : ns'.Child = ns.Child :=
  funext fun _ => funext fun _ => propext h.sameTree.child_iff

theorem SameBasic.exported_iff (h : ns.SameBasic ns') {i : ℕ} :
    ns'.Exported lexers i ↔ ns.Exported lexers i := by
  rw [Exported, Exported, h.child]
  simp only [h.passes]
  rcases h.entry i with ⟨hnone, hnone'⟩ | ⟨option, option', hoption, hoption', hsame⟩
  · simp only [hnone, hnone', reduceCtorEq, false_and, exists_false]
  · simp only [hoption, hoption', Option.some.injEq, exists_eq_left', isEnv_eq hsame.skeleton]

end Namespace

end Uconfig
end Utopia
