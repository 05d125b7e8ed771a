/-
`valid` returns, for every option of a namespace with well-formed values.
-/
import Utopia.Uconfig.Values

namespace Utopia
namespace Uconfig

/-- What `evaluate` relies on: names lead to options, and `to_basic` does not panic. -/
structure Namespace.Evaluable (ns : Namespace) : Prop where
  mapped : ns.MappedInside
  basic : ∀ option ∈ ns.vector, option.current.toBasic.isSome

variable {lexers : Lexers} {ns : Namespace} {valid : ConfigOption → Option ExpressionResult}

theorem lookup_ne_diverged (h : ns.Evaluable)
    (hvalid : ∀ option ∈ ns.vector, (valid option).isSome) (ident : Text) :
    lookup ns valid ident ≠ .error .diverged := by
  intro hlookup
  unfold lookup at hlookup
  split at hlookup
  · cases hlookup
  · next idx hidx =>
      have hlt := h.mapped ident idx hidx
      rw [List.getElem?_eq_getElem hlt] at hlookup
      have hmem : ns.vector[idx] ∈ ns.vector := List.getElem_mem hlt
      obtain ⟨result, hresult⟩ := Option.isSome_iff_exists.mp (hvalid _ hmem)
      obtain ⟨value, hvalue⟩ := Option.isSome_iff_exists.mp (h.basic _ hmem)
      cases result <;> simp [hresult, hvalue] at hlookup

theorem evaluateTokens_ne_diverged (h : ns.Evaluable)
    (hvalid : ∀ option ∈ ns.vector, (valid option).isSome)
    (tokens : List (Except LexError ExpressionToken)) (stack : List BasicValue) :
    evaluateTokens ns valid tokens stack ≠ .error .diverged := by
  induction tokens generalizing stack with
  | nil =>
      intro hend
      cases hend
  | cons token tokens ih =>
      unfold evaluateTokens
      split
      · cases ‹_ = []›
      · cases ‹_ :: _ = _›
        have hlookup := lookup_ne_diverged h hvalid ‹Text›
        split
        · next hstop =>
            rw [hstop] at hlookup
            intro hend
            cases hend
            exact hlookup rfl
        · exact ih _
      · cases ‹_ :: _ = _›
        split
        · exact fun hstop => nomatch hstop
        · exact ih _
      · exact fun hstop => nomatch hstop

theorem finish_isSome {outcome : Except EvalStop (List BasicValue)}
    (h : outcome ≠ .error .diverged) : (finish outcome).isSome := by
  unfold finish
  split
  · rfl
  · exact absurd rfl h
  · rfl
  · rfl
  · rfl

/-- The names that expressions can still go into. -/
def Namespace.unevaluated (ns : Namespace) (evaluated : List Text) : Finset Text :=
  (ns.vector.map ConfigOption.name).toFinset \ evaluated.toFinset

theorem card_unevaluated_cons {option : ConfigOption} {evaluated : List Text}
    (hoption : option ∈ ns.vector) (hnew : option.name ∉ evaluated) :
    (ns.unevaluated (option.name :: evaluated)).card < (ns.unevaluated evaluated).card := by
  refine Finset.card_lt_card ((Finset.ssubset_iff_of_subset ?_).mpr ⟨option.name, ?_, ?_⟩)
  · intro name hname
    simp only [Namespace.unevaluated, Finset.mem_sdiff, List.mem_toFinset, List.mem_cons,
      not_or] at hname ⊢
    exact ⟨hname.1, hname.2.2⟩
  · simp only [Namespace.unevaluated, Finset.mem_sdiff, List.mem_toFinset, List.mem_map]
    exact ⟨⟨option, hoption, rfl⟩, hnew⟩
  · simp [Namespace.unevaluated]

/-- Every expression goes on with one name less, so the depth suffices. -/
theorem validInternal_isSome (lexers : Lexers) (h : ns.Evaluable) {depth : ℕ} {evaluated : List Text}
    {option : ConfigOption} (hoption : option ∈ ns.vector)
    (hdepth : (ns.unevaluated evaluated).card < depth) :
    (validInternal lexers ns depth evaluated option).isSome := by
  induction depth generalizing evaluated option with
  | zero => exact absurd hdepth (Nat.not_lt_zero _)
  | succ depth ih =>
      rw [validInternal]
      split
      · rfl
      · split_ifs with hevaluated
        · rfl
        · refine finish_isSome (evaluateTokens_ne_diverged h (fun nested hnested => ?_) _ _)
          exact ih hnested (Nat.lt_of_lt_of_le (card_unevaluated_cons hoption hevaluated)
            (Nat.le_of_lt_succ hdepth))

/-- `valid` neither panics nor runs forever. -/
theorem valid_isSome (lexers : Lexers) (h : ns.Evaluable) {option : ConfigOption} (hoption : option ∈ ns.vector) :
    (Uconfig.valid lexers ns option).isSome := by
  refine validInternal_isSome lexers h hoption (Nat.lt_succ_of_le ?_)
  calc (ns.unevaluated []).card ≤ (ns.vector.map ConfigOption.name).toFinset.card :=
        Finset.card_le_card Finset.sdiff_subset
    _ ≤ (ns.vector.map ConfigOption.name).length := List.toFinset_card_le _
    _ = ns.vector.length := List.length_map _

end Uconfig
end Utopia
