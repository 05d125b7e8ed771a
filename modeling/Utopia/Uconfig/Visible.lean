/-
The visible options are those that, with all their ancestors, pass their `depends`.
-/
import Utopia.Uconfig.Valid
import Utopia.Uconfig.Config
import Utopia.Uconfig.Names
import Utopia.Lib.ForwardPass
import Mathlib.Data.List.Range

namespace Utopia
namespace Uconfig

namespace Namespace

variable (lexers : Lexers) (ns : Namespace)

/-- The children list of an index. -/
def childrenAt (i : ℕ) : List ℕ := ((ns.vector[i]?).map ConfigOption.children).getD []

/-- The entry at an index passes its own `depends`. -/
def passesAt (i : ℕ) : Bool := (ns.vector[i]?).bind (valid lexers ns) = some .passed

/-- `i` is the index of an option that passes its `depends` and all of whose ancestors
pass theirs. -/
def Exported (i : ℕ) : Prop :=
  ∃ option, ns.vector[i]? = some option ∧ i ≠ 0 ∧ option.isEnv = false ∧
    ∀ a, Relation.ReflTransGen ns.Child a i →
      ∃ ancestor, ns.vector[a]? = some ancestor ∧ valid lexers ns ancestor = some .passed

variable {lexers ns}

theorem mem_childrenAt {p c : ℕ} : c ∈ ns.childrenAt p ↔ ns.Child p c := by
  rw [childrenAt, Child]
  cases ns.vector[p]? with
  | none =>
      constructor
      · intro h
        cases h
      · rintro ⟨option, hoption, _⟩
        cases hoption
  | some option =>
      constructor
      · intro h
        exact ⟨option, rfl, h⟩
      · rintro ⟨option', hoption', hc⟩
        cases hoption'
        exact hc

theorem passesAt_iff {i : ℕ} : ns.passesAt lexers i = true ↔
    ∃ option, ns.vector[i]? = some option ∧ valid lexers ns option = some .passed := by
  rw [passesAt, decide_eq_true_iff, Option.bind_eq_some_iff]

theorem Linked.parentFirst (h : ns.Linked) : Marks.ParentFirst ns.childrenAt where
  before p c hc := h.before p c (mem_childrenAt.mp hc)
  unique p q c hp hq := h.unique p q c (mem_childrenAt.mp hp) (mem_childrenAt.mp hq)

theorem Linked.parent_notEnv (h : ns.Linked) {p c : ℕ} (hc : ns.Child p c) :
    ∃ parent, ns.vector[p]? = some parent ∧ parent.isEnv = false := by
  rcases h.parent p c hc with rfl | ⟨parent, hparent, hmenu⟩
  · obtain ⟨root, hroot, hrootEnv, _⟩ := h.root
    exact ⟨root, hroot, hrootEnv⟩
  · refine ⟨parent, hparent, Bool.eq_false_iff.mpr fun henv => ?_⟩
    rw [h.noEnvMenu p parent hparent henv] at hmenu
    cases hmenu

/-- Every option hangs below the root. -/
theorem Linked.reached (h : ns.Linked) {i : ℕ} {option : ConfigOption}
    (hoption : ns.vector[i]? = some option) (hnotEnv : option.isEnv = false) :
    Relation.ReflTransGen ns.Child 0 i := by
  induction i using Nat.strong_induction_on generalizing option with
  | _ i ih =>
      rcases Nat.eq_zero_or_pos i with rfl | hpos
      · exact .refl
      · obtain ⟨p, hp⟩ := h.covered i option hpos hoption hnotEnv
        obtain ⟨parent, hparent, hparentEnv⟩ := h.parent_notEnv hp
        exact (ih p (h.before p i hp) hparent hparentEnv).tail hp

theorem childrenAt_child : (fun p c => c ∈ ns.childrenAt p) = ns.Child :=
  funext fun _ => funext fun _ => propext mem_childrenAt

theorem exported_iff {i : ℕ} {option : ConfigOption} (hoption : ns.vector[i]? = some option) :
    ns.Exported lexers i ↔ i ≠ 0 ∧ option.isEnv = false ∧
      Marks.Shown ns.childrenAt (ns.passesAt lexers) i := by
  rw [Marks.Shown, childrenAt_child]
  constructor
  · rintro ⟨option', hoption', hpos, hnotEnv, hpasses⟩
    rw [hoption] at hoption'
    cases hoption'
    exact ⟨hpos, hnotEnv, fun a ha => passesAt_iff.mpr (hpasses a ha)⟩
  · rintro ⟨hpos, hnotEnv, hpasses⟩
    exact ⟨option, hoption, hpos, hnotEnv, fun a ha => passesAt_iff.mp (hpasses a ha)⟩

/-- The iterator after `k` rounds. -/
def iterAt (lexers : Lexers) (ns : Namespace) (k : ℕ) : VisibleIter :=
  let marks := Marks.forward ns.childrenAt (ns.passesAt lexers) k
  ⟨marks.parent, marks.mark, k⟩

/-- A round of the iterator is a visit of the pass. -/
theorem round_iterAt (h : ns.Evaluable) {k : ℕ} {option : ConfigOption}
    (hoption : ns.vector[k]? = some option) :
    (iterAt lexers ns k).round lexers ns option =
      some (iterAt lexers ns (k + 1),
        (iterAt lexers ns (k + 1)).visible k && !option.isEnv && k != 0) := by
  obtain ⟨result, hresult⟩ := Option.isSome_iff_exists.mp
    (valid_isSome lexers h (List.mem_of_getElem? hoption))
  have hchildren : ns.childrenAt k = option.children := by
    rw [childrenAt, hoption]
    rfl
  have hpasses : ns.passesAt lexers k = decide (result = .passed) := by
    rw [passesAt, hoption, Option.bind_some, hresult]
    simp
  rw [VisibleIter.round, hresult, Option.map_some]
  simp only [iterAt, Marks.forward, Marks.visit, hchildren, hpasses]

theorem Linked.yields_iff (h : ns.Linked) {k : ℕ} {option : ConfigOption}
    (hoption : ns.vector[k]? = some option) :
    ((iterAt lexers ns (k + 1)).visible k && !option.isEnv && k != 0) = true ↔
      ns.Exported lexers k := by
  rw [exported_iff hoption, Bool.and_eq_true, Bool.and_eq_true, bne_iff_ne, Bool.not_eq_true']
  constructor
  · rintro ⟨⟨hmark, hnotEnv⟩, hpos⟩
    have hroot := h.reached hoption hnotEnv
    rw [← childrenAt_child] at hroot
    exact ⟨hpos, hnotEnv, (h.parentFirst.forward_mark (Nat.lt_succ_self k) hroot).mp hmark⟩
  · rintro ⟨hpos, hnotEnv, hshown⟩
    have hroot := h.reached hoption hnotEnv
    rw [← childrenAt_child] at hroot
    exact ⟨⟨(h.parentFirst.forward_mark (Nat.lt_succ_self k) hroot).mpr hshown, hnotEnv⟩, hpos⟩

/-- From round `k` on, the iterator returns the exported options from index `k` on. -/
theorem Linked.collect (lexers : Lexers) (h : ns.Linked) (hevaluable : ns.Evaluable) {rest : List ConfigOption}
    {k : ℕ} (hrest : ns.vector.drop k = rest) :
    ∃ indices : List ℕ, indices.Pairwise (· < ·) ∧
      (∀ i, i ∈ indices ↔ k ≤ i ∧ ns.Exported lexers i) ∧
      VisibleIter.collect lexers ns rest (iterAt lexers ns k) =
        some (indices.filterMap (ns.vector[·]?)) := by
  induction rest generalizing k with
  | nil =>
      refine ⟨[], .nil, fun i => ⟨(fun hmem => nomatch hmem), ?_⟩, rfl⟩
      rintro ⟨hk, option, hoption, _⟩
      have hlt := lt_length_of_getElem? hoption
      have hlength := List.drop_eq_nil_iff.mp hrest
      omega
  | cons option rest ih =>
      have hoption : ns.vector[k]? = some option := by
        rw [← List.head?_drop, hrest]
        rfl
      have htail : ns.vector.drop (k + 1) = rest := by
        rw [← List.tail_drop, hrest]
        rfl
      obtain ⟨indices, hsorted, hmem, hcollect⟩ := ih htail
      rw [VisibleIter.collect, round_iterAt hevaluable hoption, Option.bind_some]
      dsimp only
      rw [hcollect, Option.map_some]
      by_cases hexported : ns.Exported lexers k
      · refine ⟨k :: indices, ?_, ?_, ?_⟩
        · exact List.pairwise_cons.mpr ⟨fun i hi => ((hmem i).mp hi).1, hsorted⟩
        · intro i
          rw [List.mem_cons, hmem]
          constructor
          · rintro (rfl | ⟨hk, hi⟩)
            · exact ⟨Nat.le_refl i, hexported⟩
            · exact ⟨Nat.le_of_succ_le hk, hi⟩
          · rintro ⟨hk, hi⟩
            rcases Nat.eq_or_lt_of_le hk with rfl | hlt
            · exact Or.inl rfl
            · exact Or.inr ⟨hlt, hi⟩
        · rw [if_pos ((h.yields_iff hoption).mpr hexported), List.filterMap_cons, hoption]
      · refine ⟨indices, hsorted, ?_, ?_⟩
        · intro i
          rw [hmem]
          constructor
          · rintro ⟨hk, hi⟩
            exact ⟨Nat.le_of_succ_le hk, hi⟩
          · rintro ⟨hk, hi⟩
            rcases Nat.eq_or_lt_of_le hk with rfl | hlt
            · exact absurd hi hexported
            · exact ⟨hlt, hi⟩
        · rw [if_neg (fun hyields => hexported ((h.yields_iff hoption).mp hyields))]

/-- `VisibleIter` returns every exported option once. -/
theorem Linked.visible (lexers : Lexers) (h : ns.Linked) (hevaluable : ns.Evaluable) :
    ∃ indices : List ℕ, indices.Pairwise (· < ·) ∧ (∀ i, i ∈ indices ↔ ns.Exported lexers i) ∧
      Uconfig.visible lexers ns = some (indices.filterMap (ns.vector[·]?)) := by
  obtain ⟨indices, hsorted, hmem, hcollect⟩ := h.collect lexers hevaluable
    (k := 0) rfl
  refine ⟨indices, hsorted, fun i => ?_, hcollect⟩
  rw [hmem]
  exact ⟨And.right, fun hi => ⟨Nat.zero_le i, hi⟩⟩

/-- The options form a tree with the root at index 0. -/
structure Tree (ns : Namespace) : Prop where
  /-- Every option but the root is in exactly one children list, … -/
  once : ∀ (i : ℕ) (option : ConfigOption), ns.vector[i]? = some option → i ≠ 0 →
    option.isEnv = false → ∃! p, ns.Child p i
  /-- … and there once. -/
  nodup : ∀ (i : ℕ) (option : ConfigOption), ns.vector[i]? = some option → option.children.Nodup
  parent : ∀ p c, ns.Child p c → p < c ∧ ns.IsParent p
  child : ∀ p c, ns.Child p c → ∃ option, ns.vector[c]? = some option ∧ option.isEnv = false
  rooted : ∀ (i : ℕ) (option : ConfigOption), ns.vector[i]? = some option →
    option.isEnv = false → Relation.ReflTransGen ns.Child 0 i

theorem Linked.tree (h : ns.Linked) : ns.Tree where
  once i option hoption hpos hnotEnv := by
    obtain ⟨p, hp⟩ := h.covered i option (Nat.pos_of_ne_zero hpos) hoption hnotEnv
    exact ⟨p, hp, fun q hq => h.unique q p i hq hp⟩
  nodup := h.nodup
  parent p c hc := ⟨h.before p c hc, h.parent p c hc⟩
  child := h.inside
  rooted _ _ hoption hnotEnv := h.reached hoption hnotEnv

/-- A namespace that `parse` produces from files, in an environment. -/
def Parsed (lexers : Lexers) (env : Environment) (ns : Namespace) : Prop :=
  ∃ depth file, parse lexers env depth file Namespace.default = .ok ns

variable {env : Environment} {ns' : Namespace}

theorem Parsed.linked (h : ns.Parsed lexers env) : ns.Linked := by
  obtain ⟨depth, file, hparse⟩ := h
  exact linked_default.growsTo (parse_grows hparse)

theorem Parsed.labelled (h : ns.Parsed lexers env) :
    Labelled lexers.Ident ns.hashmap ns.labels := by
  obtain ⟨depth, file, hparse⟩ := h
  exact labelled_growsTo labelled_default (parse_grows hparse)

theorem Parsed.typed (h : ns.Parsed lexers env) : ns.Typed := by
  obtain ⟨depth, file, hparse⟩ := h
  exact typed_default.growsTo (parse_grows hparse)

theorem Typed.evaluable (h : ns.Typed) (hmapped : ns.MappedInside) : ns.Evaluable :=
  ⟨hmapped, fun option hoption => Value.toBasic_isSome (h option hoption).wellFormed⟩

end Namespace

/-! ### The three exports -/

/-- The text of a line that does not panic. -/
def textOf (line : ConfigOption → Option Text) (option : ConfigOption) : Text :=
  (line option).getD []

theorem mapM_eq_some {line : ConfigOption → Option Text} {options : List ConfigOption}
    (h : ∀ option ∈ options, (line option).isSome) :
    options.mapM line = some (options.map (textOf line)) := by
  induction options with
  | nil => rfl
  | cons option options ih =>
      obtain ⟨text, htext⟩ := Option.isSome_iff_exists.mp (h option List.mem_cons_self)
      rw [List.mapM_cons, htext, ih fun other hother => h other (List.mem_cons_of_mem _ hother)]
      simp [textOf, htext]

theorem exporter_eq {preamble : String} {line : ConfigOption → Option Text} {lexers : Lexers}
    {ns : Namespace} {options : List ConfigOption} (hvisible : visible lexers ns = some options)
    (hline : ∀ option ∈ options, (line option).isSome) :
    exporter preamble line lexers ns =
      some (preamble.toList ++ options.flatMap (textOf line)) := by
  rw [exporter, hvisible, Option.bind_some, mapM_eq_some hline, Option.map_some,
    List.flatMap_def]

theorem cHeaderLine_isSome {option : ConfigOption} (h : option.current.toBasic.isSome) :
    (cHeaderLine option).isSome := by
  rw [cHeaderLine, Option.isSome_map]
  exact h

theorem configLine_isSome {option : ConfigOption} (h : option.current.toBasic.isSome) :
    (configLine option).isSome := by
  rw [configLine]
  split_ifs
  · rfl
  · rw [Option.isSome_map]
    exact h

theorem rustflagsLine_isSome {option : ConfigOption} (h : option.current.toBasic.isSome) :
    (rustflagsLine option).isSome := by
  rw [rustflagsLine]
  split_ifs
  · rfl
  · rw [Option.isSome_map]
    exact h

/-- A parsed namespace is a tree, and with any values of the declared types the three exports
have the lines of exactly the options that pass their `depends` together with all their
ancestors. -/
theorem Namespace.Parsed.exports {lexers : Lexers} {env : Environment} {ns ns' : Namespace}
    (h : ns.Parsed lexers env) (hassigned : ns.Assigned ns') :
    ns'.Tree ∧ ∃ indices : List ℕ, indices.Pairwise (· < ·) ∧
      (∀ i, i ∈ indices ↔ ns'.Exported lexers i) ∧
      ∃ options, options = indices.filterMap (ns'.vector[·]?) ∧
        visible lexers ns' = some options ∧
        exportConfig lexers ns' =
          some (configPreamble.toList ++ options.flatMap (textOf configLine)) ∧
        exportCHeader lexers ns' =
          some (cHeaderPreamble.toList ++ options.flatMap (textOf cHeaderLine)) ∧
        exportRustflags lexers ns' = some (options.flatMap (textOf rustflagsLine)) := by
  have hlinked := hassigned.sameTree.linked h.linked
  have hevaluable := (hassigned.typed h.typed).evaluable hlinked.mapped
  obtain ⟨indices, hsorted, hmem, hvisible⟩ := hlinked.visible lexers hevaluable
  have hbasic : ∀ option ∈ indices.filterMap (ns'.vector[·]?),
      option.current.toBasic.isSome := by
    intro option hoption
    obtain ⟨i, _, hi⟩ := List.mem_filterMap.mp hoption
    exact hevaluable.basic option (List.mem_of_getElem? hi)
  exact ⟨hlinked.tree, indices, hsorted, hmem, _, rfl, hvisible,
    exporter_eq hvisible fun option hoption => configLine_isSome (hbasic option hoption),
    exporter_eq hvisible fun option hoption => cHeaderLine_isSome (hbasic option hoption),
    exporter_eq hvisible fun option hoption => rustflagsLine_isSome (hbasic option hoption)⟩

/-! ### A small Uconfig file -/

def netSource : Text :=
  ("opt CONFIG_NET(bool) -> menu \x7b display: \"Net\" default: true \x7d\n" ++
    "opt CONFIG_PORT(int) \x7b display: \"Port\" default: 80 within: CONFIG_NET " ++
    "depends: [CONFIG_NET] \x7d").toList

/-- The lexers on the texts of this file and on `CONFIG_PORT=x`. -/
def netLexers : Lexers where
  token _ :=
    [.ok .opt, .ok (.identifier "CONFIG_NET".toList), .ok .parenOpen, .ok .typeBool,
      .ok .parenClose, .ok .arrow, .ok .menu, .ok .braceOpen, .ok .display, .ok .colon,
      .ok (.string "Net".toList), .ok .default, .ok .colon, .ok (.bool true), .ok .braceClose,
      .ok .opt, .ok (.identifier "CONFIG_PORT".toList), .ok .parenOpen, .ok .typeInt,
      .ok .parenClose, .ok .braceOpen, .ok .display, .ok .colon, .ok (.string "Port".toList),
      .ok .default, .ok .colon, .ok (.number 80), .ok .within, .ok .colon,
      .ok (.identifier "CONFIG_NET".toList), .ok .depends, .ok .colon,
      .ok (.expression "CONFIG_NET".toList), .ok .braceClose]
  expression _ := [.ok (.identifier "CONFIG_NET".toList)]
  config _ := [.ok (.identifier "CONFIG_PORT".toList), .ok .equals, .ok (.identifier ['x'])]

def netEnvironment : Environment where
  canonicalize file := some file
  readToString _ := some netSource
  var _ := none

def netNamespace : Namespace :=
  match parse netLexers netEnvironment 1 "Uconfig".toList Namespace.default with
  | .ok ns => ns
  | .error _ => Namespace.default

theorem netNamespace_parsed : netNamespace.Parsed netLexers netEnvironment :=
  ⟨1, "Uconfig".toList, rfl⟩

/-- With the defaults of the file both options are written. -/
theorem netNamespace_exports :
    netNamespace.Tree ∧ ∃ indices : List ℕ,
      indices.Pairwise (· < ·) ∧ (∀ i, i ∈ indices ↔ netNamespace.Exported netLexers i) ∧
      ∃ options, options = indices.filterMap (netNamespace.vector[·]?) ∧
        visible netLexers netNamespace = some options ∧
        exportConfig netLexers netNamespace =
          some (configPreamble.toList ++ options.flatMap (textOf configLine)) ∧
        exportCHeader netLexers netNamespace =
          some (cHeaderPreamble.toList ++ options.flatMap (textOf cHeaderLine)) ∧
        exportRustflags netLexers netNamespace =
          some (options.flatMap (textOf rustflagsLine)) :=
  netNamespace_parsed.exports netNamespace_parsed.typed.assigned_self

end Uconfig
end Utopia
