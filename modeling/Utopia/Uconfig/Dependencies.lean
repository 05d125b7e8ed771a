/-
Which options the `depends` expressions lead to, and what `valid` makes of cycles.
-/
import Utopia.Uconfig.EvaluatedSet
import Utopia.Uconfig.Valid

namespace Utopia
namespace Uconfig

/-- An accessible element is on no cycle. -/
theorem not_transGen_of_acc {α : Type} {r : α → α → Prop} {a : α} (h : Acc (fun b a => r a b) a) :
    ¬ Relation.TransGen r a a := by
  induction h with
  | intro a _ ih =>
      intro hcycle
      obtain ⟨b, hab, hba⟩ := Relation.TransGen.head'_iff.mp hcycle
      exact ih b hab (Relation.TransGen.tail' hba hab)

theorem acc_of_reflTransGen {α : Type} {r : α → α → Prop} {a b : α}
    (h : Acc (fun b a => r a b) a) (hab : Relation.ReflTransGen r a b) :
    Acc (fun b a => r a b) b := by
  induction hab with
  | refl => exact h
  | tail _ hstep ih => exact ih.inv hstep

namespace Namespace

section

variable (lexers : Lexers) (ns : Namespace)

/-- The `depends` expression of entry `i` names entry `j`. -/
def DependsOn (i j : ℕ) : Prop :=
  ∃ option dep ident, ns.vector[i]? = some option ∧ option.depends = some dep ∧
    .ok (.identifier ident) ∈ lexers.expression dep ∧ ns.hashmap ident = some j

/-- From entry `i`, the expressions lead to one that depends on itself. -/
def ReachesCycle (i : ℕ) : Prop :=
  ∃ j, Relation.ReflTransGen (ns.DependsOn lexers) i j ∧
    Relation.TransGen (ns.DependsOn lexers) j j

end

/-- Entries with a `depends` expression have different names. -/
def DistinctNames (ns : Namespace) : Prop :=
  ∀ (i j : ℕ) (option option' : ConfigOption), ns.vector[i]? = some option →
    ns.vector[j]? = some option' → option.depends.isSome → option'.depends.isSome → option.name = option'.name → i = j

/-- The entries of environment variables have no `depends` expression. -/
def FreeEnv (ns : Namespace) : Prop :=
  ∀ option ∈ ns.vector, option.isEnv = true → option.depends = none

variable {lexers : Lexers} {env : Environment} {ns ns' : Namespace}

theorem FreeEnv.push (h : ns.FreeEnv) {option : ConfigOption}
    (hoption : option.isEnv = true → option.depends = none) (ident : Text) :
    (ns.push ident option).FreeEnv := by
  intro entry hentry
  rcases List.mem_append.mp hentry with hold | hnew
  · exact h entry hold
  · rw [List.mem_singleton.mp hnew]
    exact hoption

theorem FreeEnv.modify (h : ns.FreeEnv) {f : ConfigOption → ConfigOption}
    (hf : ∀ option, (f option).isEnv = option.isEnv ∧ (f option).depends = option.depends)
    (p : ℕ) : FreeEnv { ns with vector := ns.vector.modify p f } := by
  intro entry hentry henv
  obtain ⟨i, hi⟩ := List.mem_iff_getElem?.mp hentry
  rw [List.getElem?_modify] at hi
  obtain ⟨old, hold, rfl⟩ := Option.map_eq_some_iff.mp hi
  have hfree := h old (List.mem_of_getElem? hold)
  obtain ⟨hisEnv, hdepends⟩ := hf old
  split_ifs at henv ⊢
  · rw [hdepends]
    exact hfree (hisEnv ▸ henv)
  · exact hfree henv

theorem FreeEnv.growsTo (h : ns.FreeEnv) (hrun : ns.GrowsTo lexers ns') : ns'.FreeEnv := by
  induction hrun with
  | refl => exact h
  | tail _ hstep ih =>
      cases hstep with
      | option option parentIdx _ _ _ hnotEnv _ _ =>
          refine FreeEnv.push ?_ (fun henv => ?_) option.name
          · exact ih.modify (f := fun parent => { parent with children := parent.children ++ [_] })
              (fun _ => ⟨rfl, rfl⟩) parentIdx
          · rw [hnotEnv] at henv
            cases henv
      | env ident val => exact ih.push (fun _ => rfl) ident
      | proj display =>
          exact ih.modify (f := fun root => { root with display := display })
            (fun _ => ⟨rfl, rfl⟩) 0
      | file path => exact ih

theorem Parsed.freeEnv (h : ns.Parsed lexers env) : ns.FreeEnv := by
  obtain ⟨depth, file, hparse⟩ := h
  have hdefault : Namespace.default.FreeEnv := by
    intro option hoption henv
    rw [List.mem_singleton.mp hoption] at henv
    cases henv
  exact hdefault.growsTo (parse_grows hparse)

theorem Parsed.distinctNames (h : ns.Parsed lexers env) : ns.DistinctNames := by
  have hlabel : ∀ (i : ℕ) (option : ConfigOption), ns.vector[i]? = some option →
      option.depends.isSome →
      i ≠ 0 ∧ ns.labels[i]? = some (option.name, false) := by
    intro i option hoption hdepends
    refine ⟨?_, ?_⟩
    · rintro rfl
      obtain ⟨root, hroot, -, hnone⟩ := h.linked.root
      rw [hroot, Option.some.injEq] at hoption
      rw [← hoption, hnone] at hdepends
      cases hdepends
    · rw [labels, List.getElem?_map, hoption, Option.map_some, ConfigOption.label]
      cases henv : option.isEnv with
      | false => rfl
      | true =>
          rw [h.freeEnv option (List.mem_of_getElem? hoption) henv] at hdepends
          cases hdepends
  intro i j option option' hi hj hdepends hdepends' hname
  obtain ⟨hi0, hlabel_i⟩ := hlabel i option hi hdepends
  obtain ⟨hj0, hlabel_j⟩ := hlabel j option' hj hdepends'
  rw [← hname] at hlabel_j
  exact h.labelled.distinct i j option.name hi0 hj0 hlabel_i hlabel_j

end Namespace

/-! ### What the loop looks up -/

variable {lexers : Lexers} {ns : Namespace}

section

variable {valid : ConfigOption → Option ExpressionResult} {ident : Text}
  {tokens : List (Except LexError ExpressionToken)} {stack stack' : List BasicValue}

/-- What `lookup` makes of the answer of an option. -/
inductive LookedUp (option : ConfigOption) :
    ExpressionResult → Except EvalStop BasicValue → Prop
  | passed {value} : option.current.toBasic = some value → LookedUp option .passed (.ok value)
  | failed : LookedUp option .failed (.ok (.bool false))
  | invalid : LookedUp option .invalidExpression (.error (.returned .invalidExpression))
  | circular : LookedUp option .circularExpression (.error (.returned .circularExpression))

theorem lookup_cases {outcome : Except EvalStop BasicValue} (h : lookup ns valid ident = outcome)
    (hreturns : outcome ≠ .error .diverged) :
    (ns.hashmap ident = none ∧ outcome = .error (.returned .invalidExpression)) ∨
      ∃ j option result, ns.hashmap ident = some j ∧ ns.vector[j]? = some option ∧
        valid option = some result ∧ LookedUp option result outcome := by
  unfold lookup at h
  subst h
  cases hident : ns.hashmap ident with
  | none => exact Or.inl ⟨rfl, rfl⟩
  | some j =>
      refine Or.inr ⟨j, ?_⟩
      simp only [hident] at hreturns ⊢
      cases hoption : ns.vector[j]? with
      | none =>
          rw [hoption] at hreturns
          exact absurd rfl hreturns
      | some option =>
          simp only [hoption] at hreturns ⊢
          cases hresult : valid option with
          | none =>
              rw [hresult] at hreturns
              exact absurd rfl hreturns
          | some result =>
              refine ⟨option, result, by simp, by simp, hresult, ?_⟩
              simp only [hresult] at hreturns
              cases result with
              | passed =>
                  cases hvalue : option.current.toBasic with
                  | none =>
                      simp only [hvalue] at hreturns
                      exact absurd rfl hreturns
                  | some value => exact .passed hvalue
              | failed => exact .failed
              | invalidExpression => exact .invalid
              | circularExpression => exact .circular

/-- The loop ends with a result where it finds a mistake, or where a lookup has ended with it. -/
theorem evaluateTokens_returned {result : ExpressionResult}
    (h : evaluateTokens ns valid tokens stack = .error (.returned result)) :
    result = .invalidExpression ∨
      ∃ ident, .ok (.identifier ident) ∈ tokens ∧
        lookup ns valid ident = .error (.returned result) := by
  induction tokens generalizing stack with
  | nil => cases h
  | cons token tokens ih =>
      have hlater : ∀ {stack}, evaluateTokens ns valid tokens stack = .error (.returned result) →
          result = .invalidExpression ∨ ∃ ident, .ok (.identifier ident) ∈ token :: tokens ∧
            lookup ns valid ident = .error (.returned result) := fun h =>
        (ih h).imp id fun ⟨ident, hmem, hlookup⟩ => ⟨ident, List.mem_cons_of_mem _ hmem, hlookup⟩
      cases token with
      | error _ =>
          cases h
          exact Or.inl rfl
      | ok token =>
          cases token with
          | identifier ident =>
              rw [evaluateTokens] at h
              cases hlookup : lookup ns valid ident with
              | error stop =>
                  rw [hlookup] at h
                  cases h
                  exact Or.inr ⟨ident, List.mem_cons_self, hlookup⟩
              | ok value =>
                  rw [hlookup] at h
                  exact hlater h
          | _ =>
              simp only [evaluateTokens] at h
              split at h
              · cases h
                exact Or.inl rfl
              · exact hlater h

/-- At the end of the loop every identifier has had a value. -/
theorem evaluateTokens_ok (h : evaluateTokens ns valid tokens stack = .ok stack')
    (hident : .ok (.identifier ident) ∈ tokens) : ∃ value, lookup ns valid ident = .ok value := by
  induction tokens generalizing stack with
  | nil => cases hident
  | cons token tokens ih =>
      cases token with
      | error _ => cases h
      | ok token =>
          cases token with
          | identifier other =>
              rw [evaluateTokens] at h
              cases hlookup : lookup ns valid other with
              | error stop =>
                  rw [hlookup] at h
                  cases h
              | ok value =>
                  rw [hlookup] at h
                  rcases List.mem_cons.mp hident with heq | hmem
                  · obtain rfl : ident = other := by injections
                    exact ⟨value, hlookup⟩
                  · exact ih h hmem
          | _ =>
              have hmem : .ok (.identifier ident) ∈ tokens := by simpa using hident
              simp only [evaluateTokens] at h
              split at h
              · cases h
              · exact ih h hmem

theorem finish_circular {outcome : Except EvalStop (List BasicValue)}
    (h : finish outcome = some .circularExpression) :
    outcome = .error (.returned .circularExpression) := by
  unfold finish at h
  split at h <;> cases h
  rfl

theorem LookedUp.ok {option : ConfigOption} {result : ExpressionResult} {value : BasicValue}
    (h : LookedUp option result (.ok value)) : Threaded.GoesOn result := by
  cases h with
  | passed _ => exact Or.inl rfl
  | failed => exact Or.inr rfl

/-- Before an answer that is not an error, the loop has come to its end. -/
theorem evaluateTokens_of_goesOn {result : ExpressionResult}
    (h : finish (evaluateTokens ns valid tokens stack) = some result)
    (hgoes : Threaded.GoesOn result) : ∃ stack', evaluateTokens ns valid tokens stack = .ok stack' := by
  cases hloop : evaluateTokens ns valid tokens stack with
  | ok stack' => exact ⟨stack', rfl⟩
  | error stop =>
      rw [hloop] at h
      cases stop with
      | diverged => cases h
      | returned r =>
          obtain rfl : r = result := Option.some.inj h
          have hearly : r = .invalidExpression ∨ r = .circularExpression := by
            rcases evaluateTokens_returned hloop with hinvalid | ⟨ident, -, hlookup⟩
            · exact Or.inl hinvalid
            · rcases lookup_cases hlookup (by simp) with ⟨-, hinvalid⟩ | ⟨_, _, _, -, -, -, hlooked⟩
              · cases hinvalid
                exact Or.inl rfl
              · cases hlooked with
                | invalid => exact Or.inl rfl
                | circular => exact Or.inr rfl
          rcases hgoes with rfl | rfl <;> rcases hearly with hearly | hearly <;> cases hearly

end

/-! ### Cycles -/

/-- Names that stand for entries which depend on entry `i`. -/
def Above (lexers : Lexers) (ns : Namespace) (i : ℕ) (names : List Text) : Prop :=
  ∀ name ∈ names, ∃ j option, ns.vector[j]? = some option ∧ option.name = name ∧
    option.depends.isSome ∧ Relation.TransGen (ns.DependsOn lexers) j i

theorem Above.cons {i j : ℕ} {option : ConfigOption} {names : List Text}
    (h : Above lexers ns i names) (hoption : ns.vector[i]? = some option)
    (hdepends : option.depends.isSome) (hij : ns.DependsOn lexers i j) :
    Above lexers ns j (option.name :: names) := by
  intro name hname
  rcases List.mem_cons.mp hname with rfl | hname
  · exact ⟨i, option, hoption, rfl, hdepends, .single hij⟩
  · obtain ⟨k, other, hother, heq, hsome, htrans⟩ := h name hname
    exact ⟨k, other, hother, heq, hsome, htrans.tail hij⟩

/-- A circular answer comes from a cycle. -/
theorem validInternal_circular (hdistinct : ns.DistinctNames) {depth : ℕ} {names : List Text}
    {i : ℕ} {option : ConfigOption} (hoption : ns.vector[i]? = some option)
    (habove : Above lexers ns i names)
    (h : validInternal lexers ns depth names option = some .circularExpression) :
    ns.ReachesCycle lexers i := by
  induction depth generalizing names i option with
  | zero => cases h
  | succ depth ih =>
      rw [validInternal] at h
      cases hdepends : option.depends with
      | none =>
          rw [hdepends] at h
          cases h
      | some dep =>
          rw [hdepends] at h
          dsimp only at h
          split_ifs at h with hname
          · obtain ⟨j, other, hother, heq, hsome, htrans⟩ := habove _ hname
            obtain rfl := hdistinct j i other option hother hoption hsome (by rw [hdepends]; rfl) heq
            exact ⟨j, .refl, htrans⟩
          · rcases evaluateTokens_returned (finish_circular h) with hinvalid | ⟨ident, hmem, hlookup⟩
            · cases hinvalid
            · rcases lookup_cases hlookup (by simp) with ⟨-, hinvalid⟩ |
                ⟨j, nested, result, hident, hnested, hvalid, hlooked⟩
              · cases hinvalid
              · have hij : ns.DependsOn lexers i j := ⟨option, dep, ident, hoption, hdepends, hmem, hident⟩
                cases hlooked
                obtain ⟨k, hk, hcycle⟩ := ih hnested (habove.cons hoption (by rw [hdepends]; rfl) hij)
                  hvalid
                exact ⟨k, .head hij hk, hcycle⟩

/-- Behind an answer that is not an error there are only finitely many expressions. -/
theorem acc_of_goesOn {depth : ℕ} {names : List Text} {i : ℕ} {option : ConfigOption}
    {result : ExpressionResult} (hoption : ns.vector[i]? = some option)
    (h : validInternal lexers ns depth names option = some result) (hgoes : Threaded.GoesOn result) :
    Acc (fun j i => ns.DependsOn lexers i j) i := by
  induction depth generalizing names i option result with
  | zero => cases h
  | succ depth ih =>
      constructor
      rintro j ⟨option', dep, ident, hoption', hdepends, hmem, hident⟩
      rw [hoption, Option.some.injEq] at hoption'
      subst hoption'
      rw [validInternal, hdepends] at h
      dsimp only at h
      split_ifs at h with hname
      · cases h
        rcases hgoes with hpassed | hfailed
        · cases hpassed
        · cases hfailed
      · obtain ⟨stack, hloop⟩ := evaluateTokens_of_goesOn h hgoes
        obtain ⟨value, hlookup⟩ := evaluateTokens_ok hloop hmem
        rcases lookup_cases hlookup (by simp) with ⟨-, hinvalid⟩ |
          ⟨k, nested, result', hident', hnested, hvalid, hlooked⟩
        · cases hinvalid
        · obtain rfl : j = k := by
            rw [hident, Option.some.injEq] at hident'
            exact hident'
          exact ih hnested hvalid hlooked.ok

/-- An option that leads to a cycle has no answer. -/
theorem not_goesOn_of_reachesCycle {depth : ℕ} {names : List Text} {i : ℕ} {option : ConfigOption}
    {result : ExpressionResult} (hoption : ns.vector[i]? = some option)
    (hcycle : ns.ReachesCycle lexers i)
    (h : validInternal lexers ns depth names option = some result) : ¬ Threaded.GoesOn result := by
  intro hgoes
  obtain ⟨j, hij, hj⟩ := hcycle
  exact not_transGen_of_acc (acc_of_reflTransGen (acc_of_goesOn hoption h hgoes) hij) hj

/-! ### The answer of an option on no cycle -/

theorem LookedUp.unique {option : ConfigOption} {result : ExpressionResult}
    {outcome outcome' : Except EvalStop BasicValue} (h : LookedUp option result outcome)
    (h' : LookedUp option result outcome') : outcome = outcome' := by
  cases h with
  | passed hvalue =>
      cases h' with
      | passed hvalue' =>
          rw [hvalue, Option.some.injEq] at hvalue'
          rw [hvalue']
  | failed =>
      cases h'
      rfl
  | invalid =>
      cases h'
      rfl
  | circular =>
      cases h'
      rfl

section

variable {valid valid' : ConfigOption → Option ExpressionResult}

/-- Two lookups that return agree if the options agree. -/
theorem lookup_unique {ident : Text}
    (hvalid : ∀ j option result result', ns.hashmap ident = some j → ns.vector[j]? = some option →
      valid option = some result → valid' option = some result' → result = result')
    (h : lookup ns valid ident ≠ .error .diverged)
    (h' : lookup ns valid' ident ≠ .error .diverged) :
    lookup ns valid ident = lookup ns valid' ident := by
  rcases lookup_cases rfl h with ⟨hnone, hinvalid⟩ |
    ⟨j, option, result, hident, hoption, hresult, hlooked⟩
  · rcases lookup_cases rfl h' with ⟨-, hinvalid'⟩ | ⟨j', _, _, hident', -, -, -⟩
    · rw [hinvalid, hinvalid']
    · rw [hnone] at hident'
      cases hident'
  · rcases lookup_cases rfl h' with ⟨hnone, -⟩ |
      ⟨j', option', result', hident', hoption', hresult', hlooked'⟩
    · rw [hident] at hnone
      cases hnone
    · obtain rfl : j = j' := by rwa [hident, Option.some.injEq] at hident'
      obtain rfl : option = option' := by rwa [hoption, Option.some.injEq] at hoption'
      obtain rfl := hvalid j option result result' hident hoption hresult hresult'
      exact hlooked.unique hlooked'

theorem evaluateTokens_unique (ns : Namespace) (valid valid' : ConfigOption → Option ExpressionResult)
    {tokens : List (Except LexError ExpressionToken)} (stack : List BasicValue)
    (hlookup : ∀ ident, .ok (.identifier ident) ∈ tokens →
      lookup ns valid ident ≠ .error .diverged → lookup ns valid' ident ≠ .error .diverged →
      lookup ns valid ident = lookup ns valid' ident)
    (h : evaluateTokens ns valid tokens stack ≠ .error .diverged)
    (h' : evaluateTokens ns valid' tokens stack ≠ .error .diverged) :
    evaluateTokens ns valid tokens stack = evaluateTokens ns valid' tokens stack := by
  induction tokens generalizing stack with
  | nil => rfl
  | cons token tokens ih =>
      have hrest : ∀ {stack}, evaluateTokens ns valid tokens stack ≠ .error .diverged →
          evaluateTokens ns valid' tokens stack ≠ .error .diverged →
          evaluateTokens ns valid tokens stack = evaluateTokens ns valid' tokens stack :=
        ih _ fun ident hmem => hlookup ident (List.mem_cons_of_mem _ hmem)
      cases token with
      | error _ => rfl
      | ok token =>
          cases token with
          | identifier ident =>
              rw [evaluateTokens] at h h' ⊢
              have hfirst := hlookup ident List.mem_cons_self
                (fun hstop => by simp [hstop] at h) (fun hstop => by simp [hstop] at h')
              rw [evaluateTokens, ← hfirst]
              rw [← hfirst] at h'
              cases hvalue : lookup ns valid ident with
              | error stop => rfl
              | ok value =>
                  rw [hvalue] at h h'
                  exact hrest h h'
          | _ =>
              simp only [evaluateTokens] at h h' ⊢
              generalize operate _ stack = result at h h' ⊢
              cases result with
              | none => rfl
              | some stack => exact hrest h h'

end

/-- No name stands for an entry that entry `i` leads to. -/
def Avoids (lexers : Lexers) (ns : Namespace) (i : ℕ) (names : List Text) : Prop :=
  ∀ k option, Relation.ReflTransGen (ns.DependsOn lexers) i k → ns.vector[k]? = some option →
    option.depends.isSome → option.name ∉ names

theorem Avoids.cons (hdistinct : ns.DistinctNames) {i j : ℕ} {option : ConfigOption}
    {names : List Text} (h : Avoids lexers ns i names)
    (hacyclic : ¬ Relation.TransGen (ns.DependsOn lexers) i i)
    (hoption : ns.vector[i]? = some option) (hdepends : option.depends.isSome)
    (hij : ns.DependsOn lexers i j) : Avoids lexers ns j (option.name :: names) := by
  intro k other hjk hother hsome hmem
  rcases List.mem_cons.mp hmem with heq | hmem
  · obtain rfl := hdistinct k i other option hother hoption hsome hdepends heq
    exact hacyclic (Relation.TransGen.head' hij hjk)
  · exact h k other (.head hij hjk) hother hsome hmem

/-- Without cycles, the answer of an option does not depend on where it is asked for. -/
theorem validInternal_unique (hdistinct : ns.DistinctNames)
    (hacyclic : ∀ i, ¬ Relation.TransGen (ns.DependsOn lexers) i i) {depth depth' i : ℕ}
    {names names' : List Text} {option : ConfigOption} {result result' : ExpressionResult}
    (hoption : ns.vector[i]? = some option) (havoids : Avoids lexers ns i names)
    (havoids' : Avoids lexers ns i names')
    (h : validInternal lexers ns depth names option = some result)
    (h' : validInternal lexers ns depth' names' option = some result') : result = result' := by
  induction depth generalizing depth' i names names' option result result' with
  | zero => cases h
  | succ depth ih =>
      cases depth' with
      | zero => cases h'
      | succ depth' =>
          rw [validInternal] at h h'
          cases hdepends : option.depends with
          | none =>
              rw [hdepends] at h h'
              cases h
              cases h'
              rfl
          | some dep =>
              have hsome : option.depends.isSome := by rw [hdepends]; rfl
              rw [hdepends] at h h'
              dsimp only at h h'
              rw [if_neg (havoids i option .refl hoption hsome)] at h
              rw [if_neg (havoids' i option .refl hoption hsome)] at h'
              have hloop := evaluateTokens_unique ns
                (validInternal lexers ns depth (option.name :: names))
                (validInternal lexers ns depth' (option.name :: names')) []
                (fun ident hmem => lookup_unique fun j nested r r' hident hnested hr hr' => by
                  have hij : ns.DependsOn lexers i j :=
                    ⟨option, dep, ident, hoption, hdepends, hmem, hident⟩
                  exact ih hnested (havoids.cons hdistinct (hacyclic i) hoption hsome hij)
                    (havoids'.cons hdistinct (hacyclic i) hoption hsome hij) hr hr')
                (fun hstop => by simp [hstop, finish] at h)
                (fun hstop => by simp [hstop, finish] at h')
              rw [hloop, h', Option.some.injEq] at h
              exact h.symm

/-- `valid` returns for every option of a parsed namespace, finds a cycle only where the
expressions lead to one, and never passes over one. -/
theorem Namespace.Parsed.dependencies {env : Environment} (h : ns.Parsed lexers env) {i : ℕ}
    {option : ConfigOption} (hoption : ns.vector[i]? = some option) :
    (Threaded.valid lexers ns option).isSome ∧
      (Threaded.valid lexers ns option = some .circularExpression → ns.ReachesCycle lexers i) ∧
      (ns.ReachesCycle lexers i → Threaded.valid lexers ns option ≠ some .passed ∧
        Threaded.valid lexers ns option ≠ some .failed) := by
  have hevaluable := h.typed.evaluable h.linked.mapped
  rw [Threaded.valid_eq]
  refine ⟨valid_isSome lexers hevaluable (List.mem_of_getElem? hoption), fun hcircular => ?_,
    fun hcycle => ⟨fun hpassed => ?_, fun hfailed => ?_⟩⟩
  · exact validInternal_circular h.distinctNames hoption (fun name hname => by cases hname) hcircular
  · exact not_goesOn_of_reachesCycle hoption hcycle hpassed (Or.inl rfl)
  · exact not_goesOn_of_reachesCycle hoption hcycle hfailed (Or.inr rfl)

/-! ### Two options that depend on each other -/

def loopSource : Text :=
  ("opt CONFIG_A(bool) \x7b display: \"A\" default: true depends: [CONFIG_B] \x7d\n" ++
    "opt CONFIG_B(bool) \x7b display: \"B\" default: true depends: [CONFIG_A] \x7d\n" ++
    "opt CONFIG_C(bool) \x7b display: \"C\" default: true depends: [CONFIG_A] \x7d").toList

/-- The tokens of one of the options. -/
def loopTokens (name display depends : String) : Tokens :=
  [.ok .opt, .ok (.identifier name.toList), .ok .parenOpen, .ok .typeBool, .ok .parenClose,
    .ok .braceOpen, .ok .display, .ok .colon, .ok (.string display.toList), .ok .default,
    .ok .colon, .ok (.bool true), .ok .depends, .ok .colon, .ok (.expression depends.toList),
    .ok .braceClose]

/-- The lexers on this text and its expressions, which are names. -/
def loopLexers : Lexers where
  token _ := loopTokens "CONFIG_A" "A" "CONFIG_B" ++ loopTokens "CONFIG_B" "B" "CONFIG_A" ++
    loopTokens "CONFIG_C" "C" "CONFIG_A"
  expression text := [.ok (.identifier text)]
  config _ := []

def loopNamespace : Namespace :=
  match parse loopLexers ⟨some, fun _ => some loopSource, fun _ => none⟩ 1 "Uconfig".toList
    Namespace.default with
  | .ok ns => ns
  | .error _ => Namespace.default

/-- `valid` returns for the third option, from which the expressions lead to the cycle, and
reports it. -/
theorem loopNamespace_dependencies : ∃ option, loopNamespace.vector[3]? = some option ∧
    option.name = "CONFIG_C".toList ∧
      Threaded.valid loopLexers loopNamespace option = some .circularExpression ∧
      loopNamespace.ReachesCycle loopLexers 3 := by
  have hparsed : loopNamespace.Parsed loopLexers
      ⟨some, fun _ => some loopSource, fun _ => none⟩ := ⟨1, "Uconfig".toList, rfl⟩
  obtain ⟨option, hoption, hname, hcircular⟩ : ∃ option,
      loopNamespace.vector[3]? = some option ∧ option.name = "CONFIG_C".toList ∧
        Threaded.valid loopLexers loopNamespace option = some .circularExpression :=
    ⟨_, rfl, rfl, rfl⟩
  exact ⟨option, hoption, hname, hcircular,
    (Namespace.Parsed.dependencies hparsed hoption).2.1 hcircular⟩

end Uconfig
end Utopia
