/-
The names of a parsed namespace: how the hash map and the options' names go together.
-/
import Utopia.Uconfig.NamespaceTree

namespace Utopia
namespace Uconfig

/-- The name of an option, and whether it stands for an environment variable. -/
def ConfigOption.label (option : ConfigOption) : Text × Bool := (option.name, option.isEnv)

/-- The hash map knows every option but the root, and only an entry of an environment
variable can take the place of an option of the same name. -/
structure Labelled (Ident : Text → Prop) (hashmap : Text → Option ℕ) (labels : List (Text × Bool)) :
    Prop where
  nonempty : labels ≠ []
  ident : ∀ i name, i ≠ 0 → labels[i]? = some (name, false) →
    Ident name ∧ (hashmap name).isSome
  keyed : ∀ key idx, hashmap key = some idx → idx ≠ 0 ∧ idx < labels.length ∧
    ∀ name, labels[idx]? = some (name, false) → name = key
  distinct : ∀ i j name, i ≠ 0 → j ≠ 0 → labels[i]? = some (name, false) →
    labels[j]? = some (name, false) → i = j

namespace Labelled

variable {Ident : Text → Prop} {hashmap : Text → Option ℕ} {labels : List (Text × Bool)}

/-- The next entry: an environment variable, or an option with a fresh name. -/
theorem push (h : Labelled Ident hashmap labels) (key name : Text) (isEnv : Bool)
    (hnew : isEnv = false → name = key ∧ Ident key ∧ hashmap key = none) :
    Labelled Ident (fun other => if other = key then some labels.length else hashmap other)
      (labels ++ [(name, isEnv)]) where
  nonempty := by simp
  ident i other hpos hother := by
    rcases getElem?_concat_eq_some hother with hold | ⟨_, heq⟩
    · obtain ⟨hident, hsome⟩ := h.ident i other hpos hold
      refine ⟨hident, ?_⟩
      split_ifs
      · rfl
      · exact hsome
    · cases heq
      obtain ⟨rfl, hident, _⟩ := hnew rfl
      refine ⟨hident, ?_⟩
      rw [if_pos rfl]
      rfl
  keyed other idx hidx := by
    have hlength : labels.length ≠ 0 := fun hzero => h.nonempty (List.length_eq_zero_iff.mp hzero)
    rw [List.length_append, List.length_singleton]
    split_ifs at hidx with hkey
    · cases hidx
      refine ⟨hlength, Nat.lt_succ_self _, fun name' hname' => ?_⟩
      rcases getElem?_concat_eq_some hname' with hold | ⟨_, heq⟩
      · obtain ⟨hlt, _⟩ := List.getElem?_eq_some_iff.mp hold
        exact absurd hlt (Nat.lt_irrefl _)
      · cases heq
        rw [hkey]
        exact (hnew rfl).1
    · obtain ⟨hpos, hlt, hname⟩ := h.keyed other idx hidx
      refine ⟨hpos, Nat.lt_succ_of_lt hlt, fun name' hname' => ?_⟩
      rcases getElem?_concat_eq_some hname' with hold | ⟨hlast, _⟩
      · exact hname name' hold
      · omega
  distinct i j other hi hj hother hother' := by
    have hfresh : isEnv = false → name = other → ∀ k, k ≠ 0 → labels[k]? ≠ some (other, false) := by
      rintro hnotEnv rfl k hk hentry
      obtain ⟨rfl, _, hnone⟩ := hnew hnotEnv
      have hsome := (h.ident k name hk hentry).2
      rw [hnone] at hsome
      cases hsome
    rcases getElem?_concat_eq_some hother with hold | ⟨hlast, heq⟩
    · rcases getElem?_concat_eq_some hother' with hold' | ⟨hlast', heq'⟩
      · exact h.distinct i j other hi hj hold hold'
      · cases heq'
        exact absurd hold (hfresh rfl rfl i hi)
    · rcases getElem?_concat_eq_some hother' with hold' | ⟨hlast', _⟩
      · cases heq
        exact absurd hold' (hfresh rfl rfl j hj)
      · exact hlast.trans hlast'.symm

end Labelled

namespace Namespace

variable {lexers : Lexers} {ns ns' : Namespace}

/-- The labels of the entries. -/
def labels (ns : Namespace) : List (Text × Bool) := ns.vector.map ConfigOption.label

theorem labels_modify (ns : Namespace) {f : ConfigOption → ConfigOption}
    (hf : ∀ option, (f option).label = option.label) (p : ℕ) : labels { ns with vector := ns.vector.modify p f } = ns.labels := by
  refine List.ext_getElem? fun i => ?_
  rw [labels, labels, List.getElem?_map, List.getElem?_map, List.getElem?_modify]
  cases ns.vector[i]? with
  | none => rfl
  | some option =>
      by_cases hi : p = i
      · simp [hi, hf]
      · simp [hi]

theorem labels_addChild (p c : ℕ) : (ns.addChild p c).labels = ns.labels :=
  labels_modify ns (f := fun parent => { parent with children := parent.children ++ [c] })
    (fun _ => rfl) p

theorem labels_push (ident : Text) (option : ConfigOption) :
    (ns.push ident option).labels = ns.labels ++ [option.label] :=
  List.map_append

/-- The names of a parsed namespace go together with its hash map. -/
theorem labelled_growsTo (h : Labelled lexers.Ident ns.hashmap ns.labels)
    (hrun : ns.GrowsTo lexers ns') : Labelled lexers.Ident ns'.hashmap ns'.labels := by
  induction hrun with
  | refl => exact h
  | tail _ hstep ih =>
      rename_i ns₁ ns₂ _
      have hlength : ns₁.labels.length = ns₁.vector.length := List.length_map _
      cases hstep with
      | option option parentIdx hident hfresh _ hnotEnv _ _ =>
          have hpushed := ih.push option.name option.name option.isEnv fun _ => ⟨rfl, hident, hfresh⟩
          rw [hlength] at hpushed
          rw [labels_push, labels_addChild]
          have hvector := length_addChild ns₁ parentIdx ns₁.vector.length
          rw [← hvector] at hpushed
          exact hpushed
      | env ident val =>
          have hpushed := ih.push ident [] true
            fun hnotEnv => nomatch hnotEnv
          rw [hlength] at hpushed
          rw [labels_push]
          exact hpushed
      | proj display =>
          have hlabels := labels_modify ns₁
            (f := fun root => { root with display := display }) (fun _ => rfl) 0
          rw [hlabels]
          exact ih
      | file path => exact ih

theorem labelled_default :
    Labelled lexers.Ident Namespace.default.hashmap Namespace.default.labels where
  nonempty := by decide
  ident i name hpos h := by
    obtain ⟨hlt, _⟩ := List.getElem?_eq_some_iff.mp h
    have hone : i < 1 := hlt
    omega
  keyed key idx h := by cases h
  distinct i j name hi _ h _ := by
    obtain ⟨hlt, _⟩ := List.getElem?_eq_some_iff.mp h
    have hone : i < 1 := hlt
    omega

end Namespace

end Uconfig
end Utopia
