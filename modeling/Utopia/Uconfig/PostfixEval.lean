/-
Which `depends` expressions `evaluate` accepts.
-/
import Utopia.Lib.Postfix
import Utopia.Uconfig.Dependencies
import Utopia.Uconfig.SameBasic

namespace Utopia
namespace Uconfig

open Postfix (Op Expr Meaning Holds)

/-! ### Expressions over options -/

inductive Leaf where
  | boolean (v : Bool)
  | number (v : I64)
  | quotedString (s : Text)
  | identifier (s : Text)
deriving DecidableEq, Repr

/-- `!`. -/
inductive UnaryOperator where
  | not
deriving DecidableEq, Repr

inductive BinaryOperator where
  | add
  | sub
  | and
  | or
  | equ
  | notEqu
  | gt
  | lt
  | gtEqu
  | ltEqu
deriving DecidableEq, Repr

/-- The value of two operands, if the operator has one for their types. -/
def BinaryOperator.apply : BinaryOperator → BasicValue → BasicValue → Option BasicValue
  | .add => arithmetic checkedAdd
  | .sub => arithmetic checkedSub
  | .and => fun lhs rhs => some (.bool (lhs.truth && rhs.truth))
  | .or => fun lhs rhs => some (.bool (lhs.truth || rhs.truth))
  | .equ => fun lhs rhs => (lhs.equal rhs).map .bool
  | .notEqu => fun lhs rhs => (lhs.equal rhs).map fun equal => .bool (!equal)
  | .gt => comparison fun lhs rhs => rhs.slt lhs
  | .lt => comparison fun lhs rhs => lhs.slt rhs
  | .gtEqu => comparison fun lhs rhs => rhs.sle lhs
  | .ltEqu => comparison fun lhs rhs => lhs.sle rhs

abbrev DependsToken := Op Leaf UnaryOperator BinaryOperator

abbrev DependsExpr := Expr Leaf UnaryOperator BinaryOperator

namespace ExpressionToken

/-- The leaf or operator that a token is. -/
def op : ExpressionToken → DependsToken
  | .add => .binary .add
  | .sub => .binary .sub
  | .not => .unary .not
  | .and => .binary .and
  | .or => .binary .or
  | .equ => .binary .equ
  | .notEqu => .binary .notEqu
  | .gt => .binary .gt
  | .lt => .binary .lt
  | .gtEqu => .binary .gtEqu
  | .ltEqu => .binary .ltEqu
  | .boolean v => .leaf (.boolean v)
  | .identifier s => .leaf (.identifier s)
  | .number v => .leaf (.number v)
  | .quotedString s => .leaf (.quotedString s)

end ExpressionToken

section

variable (lexers : Lexers) (ns : Namespace)

/-- The value that an identifier stands for: the value of its option, `false` where the option
does not pass, and none where its own expression is invalid. -/
def valueOf (ident : Text) : Option BasicValue :=
  (ns.hashmap ident).bind fun idx => ns.vector[idx]?.bind fun option =>
    match Threaded.valid lexers ns option with
    | some .passed => option.current.toBasic
    | some .failed => some (.bool false)
    | _ => none

/-- The typed semantics of expressions over the options of a namespace. -/
def dependsMeaning : Meaning Leaf UnaryOperator BinaryOperator BasicValue where
  leaf
    | .boolean v => some (.bool v)
    | .number v => some (.int v)
    | .quotedString s => some (.string s)
    | .identifier s => valueOf lexers ns s
  unary _ value := some value.not
  binary := BinaryOperator.apply

/-- `evaluate` for the expression of `identifier`, from outside of all expressions. -/
def evaluateExpression (identifier : Text) (tokens : List ExpressionToken) :
    Option ExpressionResult :=
  (Threaded.evaluate ns (Threaded.validInternal lexers ns (ns.vector.length + 1)) identifier
    (tokens.map .ok) ∅).map Prod.fst

/-- The tokens are one complete expression with the value. -/
def Complete (tokens : List ExpressionToken) (value : BasicValue) : Prop :=
  ∃ e : DependsExpr, tokens.map ExpressionToken.op = e.spelling ∧
    e.denote (dependsMeaning lexers ns) = some value

/-- The tokens are two or more complete expressions one behind the other, which all have values,
the last one a bool. -/
def Surplus (tokens : List ExpressionToken) : Prop :=
  ∃ (e : DependsExpr) (es : List DependsExpr) (b : Bool), es ≠ [] ∧
    tokens.map ExpressionToken.op = Postfix.spell (e :: es) ∧
    e.denote (dependsMeaning lexers ns) = some (.bool b) ∧
    ∀ e' ∈ es, (e'.denote (dependsMeaning lexers ns)).isSome

/-- `Passed` and `Failed` are the answers to complete expressions with a bool, and all the
others are invalid. -/
structure AcceptsComplete (tokens : List ExpressionToken) (answer : Option ExpressionResult) :
    Prop where
  passed : answer = some .passed ↔ Complete lexers ns tokens (.bool true)
  failed : answer = some .failed ↔ Complete lexers ns tokens (.bool false)
  invalid : (∀ b, ¬ Complete lexers ns tokens (.bool b)) → answer = some .invalidExpression

/-- No option depends on itself. -/
def Namespace.Acyclic : Prop :=
  ∀ i, ¬ Relation.TransGen (ns.DependsOn lexers) i i

/-- The expression of `identifier` does not depend on `identifier`. -/
def OffCycle (identifier : Text) (tokens : List ExpressionToken) : Prop :=
  ∀ ident i j option, .identifier ident ∈ tokens → ns.hashmap ident = some i →
    Relation.ReflTransGen (ns.DependsOn lexers) i j → ns.vector[j]? = some option →
    option.depends.isSome → option.name ≠ identifier

end

/-! ### The machine of `evaluate` -/

variable {lexers : Lexers} {ns : Namespace}

theorem operate_eq (lexers : Lexers) (ns : Namespace) {token : ExpressionToken} (h : ∀ ident, token ≠ .identifier ident)
    (stack : List BasicValue) :
    operate token stack = Postfix.step (dependsMeaning lexers ns) token.op stack := by
  cases token with
  | identifier ident => exact absurd rfl (h ident)
  | boolean v => rfl
  | number v => rfl
  | quotedString s => rfl
  | _ =>
      rcases stack with _ | ⟨b, _ | ⟨a, stack⟩⟩ <;> rfl

/-- What a lookup gives for a value. -/
def lookedUp : Option BasicValue → Except EvalStop BasicValue
  | some value => .ok value
  | none => .error (.returned .invalidExpression)

/-- The end of the loop for the end of the machine. -/
def loopEnd : Option (List BasicValue) → Except EvalStop (List BasicValue)
  | some stack => .ok stack
  | none => .error (.returned .invalidExpression)

theorem evaluateTokens_eq_run {valid : ConfigOption → Option ExpressionResult}
    {tokens : List ExpressionToken}
    (hlookup : ∀ ident, .identifier ident ∈ tokens →
      lookup ns valid ident = lookedUp (valueOf lexers ns ident)) (stack : List BasicValue) :
    evaluateTokens ns valid (tokens.map .ok) stack =
      loopEnd (Postfix.run (dependsMeaning lexers ns) (tokens.map ExpressionToken.op) stack) := by
  induction tokens generalizing stack with
  | nil => rfl
  | cons token tokens ih =>
      have hrest := ih fun ident hmem => hlookup ident (List.mem_cons_of_mem _ hmem)
      by_cases hident : ∃ ident, token = .identifier ident
      · obtain ⟨ident, rfl⟩ := hident
        have hfirst := hlookup ident List.mem_cons_self
        rw [List.map_cons, List.map_cons, evaluateTokens, hfirst, Postfix.run]
        cases hvalue : valueOf lexers ns ident with
        | none => simp [ExpressionToken.op, Postfix.step, dependsMeaning, hvalue, lookedUp, loopEnd]
        | some value =>
            rw [lookedUp]
            dsimp only
            rw [hrest]
            simp [ExpressionToken.op, Postfix.step, dependsMeaning, hvalue]
      · have hother : ∀ ident, token ≠ .identifier ident := fun ident heq => hident ⟨ident, heq⟩
        have hstep := operate_eq lexers ns hother stack
        have hloop : evaluateTokens ns valid (.ok token :: tokens.map .ok) stack =
            (operate token stack).elim (.error (.returned .invalidExpression))
              (evaluateTokens ns valid (tokens.map .ok)) := by
          rw [evaluateTokens]
          · cases operate token stack <;> rfl
          · exact hother
        rw [List.map_cons, List.map_cons, hloop, hstep, Postfix.run]
        cases Postfix.step (dependsMeaning lexers ns) token.op stack with
        | none => rfl
        | some stack => exact hrest stack

/-- The end of `evaluate` for the end of the machine. -/
def answerOf : Option (List BasicValue) → ExpressionResult
  | some (.bool true :: _) => .passed
  | some (.bool false :: _) => .failed
  | _ => .invalidExpression

theorem finish_loopEnd (stack : Option (List BasicValue)) :
    finish (loopEnd stack) = some (answerOf stack) := by
  rcases stack with _ | _ | ⟨top, stack⟩
  · rfl
  · rfl
  · cases top with
    | bool v => cases v <;> rfl
    | _ => rfl

section

variable {env : Environment} {ns₀ : Namespace}

theorem Namespace.Assigned.distinctNames (h : ns₀.Assigned ns) (hdistinct : ns₀.DistinctNames) :
    ns.DistinctNames := by
  intro i j option option' hi hj hsome hsome' hname
  obtain ⟨old, hold, hskeleton⟩ := h.sameTree.symm.entry hi
  obtain ⟨old', hold', hskeleton'⟩ := h.sameTree.symm.entry hj
  refine hdistinct i j old old' hold hold' ?_ ?_ ?_
  · rwa [depends_eq hskeleton]
  · rwa [depends_eq hskeleton']
  · rw [name_eq hskeleton, name_eq hskeleton', hname]

/-- In the loop for an expression on no cycle, an identifier has its value. -/
theorem lookup_eq_lookedUp (hevaluable : ns.Evaluable) (hdistinct : ns.DistinctNames)
    (hacyclic : ns.Acyclic lexers) {identifier ident : Text}
    (havoids : ∀ i, ns.hashmap ident = some i → Avoids lexers ns i [identifier]) :
    lookup ns (Uconfig.validInternal lexers ns (ns.vector.length + 1) [identifier]) ident =
      lookedUp (valueOf lexers ns ident) := by
  unfold lookup valueOf
  cases hident : ns.hashmap ident with
  | none => rfl
  | some i =>
      have hlt := hevaluable.mapped ident i hident
      have hoption := List.getElem?_eq_getElem hlt
      have hmem : ns.vector[i] ∈ ns.vector := List.getElem_mem hlt
      have hdepth : (ns.unevaluated [identifier]).card < ns.vector.length + 1 := by
        refine Nat.lt_succ_of_le ?_
        calc (ns.unevaluated [identifier]).card
            ≤ (ns.vector.map ConfigOption.name).toFinset.card :=
              Finset.card_le_card Finset.sdiff_subset
          _ ≤ (ns.vector.map ConfigOption.name).length := List.toFinset_card_le _
          _ = ns.vector.length := List.length_map _
      obtain ⟨result, hresult⟩ := Option.isSome_iff_exists.mp
        (validInternal_isSome lexers hevaluable hmem hdepth)
      obtain ⟨result', hvalid⟩ := Option.isSome_iff_exists.mp (valid_isSome lexers hevaluable hmem)
      obtain ⟨value, hvalue⟩ := Option.isSome_iff_exists.mp (hevaluable.basic _ hmem)
      have hempty : Avoids lexers ns i [] := fun _ _ _ _ _ h => by cases h
      obtain rfl := validInternal_unique hdistinct hacyclic hoption (havoids i hident) hempty
        hresult hvalid
      have hcircular : result ≠ .circularExpression := by
        rintro rfl
        obtain ⟨j, -, hcycle⟩ := validInternal_circular hdistinct hoption
          (fun name hname => by cases hname) hvalid
        exact hacyclic j hcycle
      simp only [hoption, hresult, Option.bind_some, Threaded.valid_eq, hvalid, hvalue]
      cases result with
      | passed => rfl
      | failed => rfl
      | invalidExpression => rfl
      | circularExpression => exact absurd rfl hcircular

/-- `evaluate` answers with the top of the stack that the machine leaves. -/
theorem evaluateExpression_eq (hevaluable : ns.Evaluable) (hdistinct : ns.DistinctNames)
    (hacyclic : ns.Acyclic lexers) {identifier : Text} {tokens : List ExpressionToken}
    (hoff : OffCycle lexers ns identifier tokens) :
    evaluateExpression lexers ns identifier tokens =
      some (answerOf (Postfix.run (dependsMeaning lexers ns) (tokens.map ExpressionToken.op) [])) := by
  have hagrees := Threaded.evaluate_agrees ns (Finset.notMem_empty identifier)
    (fun option => Threaded.validInternal_agrees lexers ns (ns.vector.length + 1) [identifier] _
      (fun name => by simp) option)
    (tokens.map .ok)
  rw [evaluateExpression, hagrees.result, evaluateTokens_eq_run, finish_loopEnd]
  intro ident hmem
  refine lookup_eq_lookedUp hevaluable hdistinct hacyclic fun i hi k option hik hoption hsome hname => ?_
  exact hoff ident i k option hmem hi hik hoption hsome (List.mem_singleton.mp hname)

end

/-! ### Complete expressions -/

theorem complete_iff {tokens : List ExpressionToken} {value : BasicValue} :
    Complete lexers ns tokens value ↔
      Postfix.run (dependsMeaning lexers ns) (tokens.map ExpressionToken.op) [] = some [value] := by
  rw [Postfix.run_eq_some_iff]
  constructor
  · rintro ⟨e, hspell, hvalue⟩
    exact ⟨[e], .cons hvalue .nil, hspell.symm⟩
  · rintro ⟨es, hholds, hspell⟩
    cases hholds with
    | cons hvalue hnil =>
        cases hnil
        exact ⟨_, hspell.symm, hvalue⟩

theorem surplus_iff {tokens : List ExpressionToken} :
    Surplus lexers ns tokens ↔ ∃ b value stack,
      Postfix.run (dependsMeaning lexers ns) (tokens.map ExpressionToken.op) [] =
        some (.bool b :: value :: stack) := by
  constructor
  · rintro ⟨e, es, b, hne, hspell, hvalue, hall⟩
    obtain ⟨stack, hstack⟩ := Postfix.exists_holds hall
    have hrun := Postfix.run_spell (.cons hvalue hstack : Holds (dependsMeaning lexers ns) (e :: es) _)
    rw [← hspell] at hrun
    cases hstack with
    | nil => exact absurd rfl hne
    | @cons _ value _ stack _ _ => exact ⟨b, value, stack, hrun⟩
  · rintro ⟨b, value, stack, hrun⟩
    obtain ⟨es, hholds, hspell⟩ := Postfix.run_eq_some_iff.mp hrun
    cases hholds with
    | @cons e _ es _ hvalue hrest =>
        refine ⟨e, es, b, ?_, hspell.symm, hvalue, fun e' he' => Postfix.Holds.isSome hrest he'⟩
        rintro rfl
        cases hrest

/-- The answers fit, but for a bool with more values below it. -/
theorem acceptsComplete_iff (tokens : List ExpressionToken) :
    AcceptsComplete lexers ns tokens (some (answerOf
      (Postfix.run (dependsMeaning lexers ns) (tokens.map ExpressionToken.op) []))) ↔
      ¬ Surplus lexers ns tokens := by
  rw [surplus_iff]
  constructor
  · rintro haccepts ⟨b, value, stack, hrun⟩
    have hone : ¬ Complete lexers ns tokens (.bool b) := by
      rw [complete_iff, hrun]
      simp
    rw [hrun] at haccepts
    cases b with
    | true => exact hone (haccepts.passed.mp rfl)
    | false => exact hone (haccepts.failed.mp rfl)
  · intro hsurplus
    have hinvalid : answerOf (Postfix.run (dependsMeaning lexers ns)
          (tokens.map ExpressionToken.op) []) = .invalidExpression →
        (∀ b, Postfix.run (dependsMeaning lexers ns) (tokens.map ExpressionToken.op) [] ≠
          some [.bool b]) →
        AcceptsComplete lexers ns tokens (some (answerOf
          (Postfix.run (dependsMeaning lexers ns) (tokens.map ExpressionToken.op) []))) := by
      intro hanswer hnone
      rw [hanswer]
      exact ⟨by simp [complete_iff, hnone], by simp [complete_iff, hnone], fun _ => rfl⟩
    rcases hrun : Postfix.run (dependsMeaning lexers ns) (tokens.map ExpressionToken.op) [] with
      _ | _ | ⟨top, _ | ⟨value, stack⟩⟩ <;> rw [hrun] at hinvalid
    · exact hinvalid rfl (by simp)
    · exact hinvalid rfl (by simp)
    · cases top with
      | bool v =>
          have hcomplete := complete_iff.mpr hrun
          cases v with
          | true =>
              exact ⟨by simp [hcomplete, answerOf], by simp [complete_iff, hrun, answerOf],
                fun hnone => absurd hcomplete (hnone true)⟩
          | false =>
              exact ⟨by simp [complete_iff, hrun, answerOf], by simp [hcomplete, answerOf],
                fun hnone => absurd hcomplete (hnone false)⟩
      | _ => exact hinvalid rfl (by simp)
    · cases top with
      | bool v => exact absurd ⟨v, value, stack, hrun⟩ hsurplus
      | _ => exact hinvalid rfl (by simp)

/-- In a parsed namespace without cycles, `evaluate` answers for one complete expression as it
should, and fails only on complete expressions one behind the other: it looks at the top of the
stack alone. -/
theorem evaluateExpression_accepts_iff {env : Environment} {ns₀ : Namespace}
    (hparsed : ns₀.Parsed lexers env) (hassigned : ns₀.Assigned ns) (hacyclic : ns.Acyclic lexers)
    {identifier : Text} {tokens : List ExpressionToken}
    (hoff : OffCycle lexers ns identifier tokens) :
    AcceptsComplete lexers ns tokens (evaluateExpression lexers ns identifier tokens) ↔
      ¬ Surplus lexers ns tokens := by
  have hevaluable := (hassigned.typed hparsed.typed).evaluable
    (hassigned.sameTree.linked hparsed.linked).mapped
  have hdistinct := hassigned.distinctNames hparsed.distinctNames
  rw [evaluateExpression_eq hevaluable hdistinct hacyclic hoff]
  exact acceptsComplete_iff tokens

/-! ### The small file again -/

theorem netNamespace_dependsOn {i j : ℕ} (h : netNamespace.DependsOn netLexers i j) :
    i = 2 ∧ j = 1 := by
  obtain ⟨option, dep, ident, hoption, hdepends, hmem, hident⟩ := h
  have hall : (netNamespace.vector.map ConfigOption.depends)[i]? = some (some dep) := by
    rw [List.getElem?_map, hoption, Option.map_some, hdepends]
  have hvector : netNamespace.vector.map ConfigOption.depends =
      [none, none, some "CONFIG_NET".toList] := rfl
  rw [hvector] at hall
  obtain rfl : ident = "CONFIG_NET".toList :=
    ExpressionToken.identifier.inj (Except.ok.inj (List.mem_singleton.mp hmem))
  have hone : netNamespace.hashmap "CONFIG_NET".toList = some 1 := rfl
  rw [hone, Option.some.injEq] at hident
  refine ⟨?_, hident.symm⟩
  rcases i with _ | _ | _ | i
  · simp at hall
  · simp at hall
  · rfl
  · simp at hall

theorem netNamespace_acyclic : netNamespace.Acyclic netLexers := by
  intro i hcycle
  obtain ⟨j, hij, -⟩ := Relation.TransGen.head'_iff.mp hcycle
  obtain ⟨k, -, hki⟩ := Relation.TransGen.tail'_iff.mp hcycle
  have htwo := (netNamespace_dependsOn hij).1
  have hone := (netNamespace_dependsOn hki).2
  omega

theorem netNamespace_assigned : netNamespace.Assigned netNamespace :=
  netNamespace_parsed.typed.assigned_self

theorem netNamespace_offCycle : OffCycle netLexers netNamespace "CONFIG_PORT".toList
    [.number 1, .boolean true] := by
  intro ident i j option hmem
  simp at hmem

/-- `1 true` passes, although it leaves a second value on the stack. -/
theorem evaluateExpression_surplus :
    netNamespace.Parsed netLexers netEnvironment ∧ netNamespace.Acyclic netLexers ∧
      OffCycle netLexers netNamespace "CONFIG_PORT".toList [.number 1, .boolean true] ∧
      ¬ AcceptsComplete netLexers netNamespace [.number 1, .boolean true]
        (evaluateExpression netLexers netNamespace "CONFIG_PORT".toList
          [.number 1, .boolean true]) := by
  refine ⟨netNamespace_parsed, netNamespace_acyclic, netNamespace_offCycle, ?_⟩
  rw [evaluateExpression_eq (netNamespace_parsed.typed.evaluable netNamespace_parsed.linked.mapped)
    netNamespace_parsed.distinctNames netNamespace_acyclic netNamespace_offCycle,
    acceptsComplete_iff, not_not, surplus_iff]
  exact ⟨true, .int 1, [], rfl⟩

/-- `CONFIG_NET true =`. -/
def netEnabled : List ExpressionToken :=
  [.identifier "CONFIG_NET".toList, .boolean true, .equ]

theorem netEnabled_offCycle :
    OffCycle netLexers netNamespace "CONFIG_PORT".toList netEnabled := by
  intro ident i j option hmem hident hreach hoption hsome
  obtain rfl : ident = "CONFIG_NET".toList := by simpa [netEnabled] using hmem
  have hone : netNamespace.hashmap "CONFIG_NET".toList = some 1 := rfl
  obtain rfl : 1 = i := Option.some.inj (hone.symm.trans hident)
  -- the option of that name depends on nothing
  rcases Relation.ReflTransGen.cases_head hreach with rfl | ⟨k, hdepends, -⟩
  · obtain rfl := Option.some.inj hoption
    cases hsome
  · exact absurd (netNamespace_dependsOn hdepends).1 (by decide)

/-- A complete expression passes. -/
theorem evaluateExpression_accepts_sample :
    AcceptsComplete netLexers netNamespace netEnabled
        (evaluateExpression netLexers netNamespace "CONFIG_PORT".toList netEnabled) ∧
      evaluateExpression netLexers netNamespace "CONFIG_PORT".toList netEnabled =
        some .passed := by
  have hrun : Postfix.run (dependsMeaning netLexers netNamespace)
      (netEnabled.map ExpressionToken.op) [] = some [.bool true] := rfl
  have hcomplete : ¬ Surplus netLexers netNamespace netEnabled := by
    rw [surplus_iff, hrun]
    rintro ⟨b, value, stack, hstack⟩
    cases hstack
  refine ⟨(evaluateExpression_accepts_iff netNamespace_parsed netNamespace_assigned
    netNamespace_acyclic netEnabled_offCycle).mpr hcomplete, ?_⟩
  rw [evaluateExpression_eq (netNamespace_parsed.typed.evaluable netNamespace_parsed.linked.mapped)
    netNamespace_parsed.distinctNames netNamespace_acyclic netEnabled_offCycle, hrun]
  rfl

end Uconfig
end Utopia
