/-
Values of the declared types, and namespaces that differ in such values only.
-/
import Utopia.Uconfig.NamespaceTree
import Utopia.Uconfig.Expression
import Mathlib.Data.List.Forall2
import Mathlib.Data.Finset.Card

namespace Utopia
namespace Uconfig

namespace Value

/-- `new` is a value that an option with the value `old` can take: any bool, any int, any
string, any index of the selection. -/
inductive Admits : Value → Value → Prop where
  | null : Admits .null .null
  | bool (old new : Bool) : Admits (.bool old) (.bool new)
  | int (old new : I64) : Admits (.int old) (.int new)
  | string (old new : Text) : Admits (.string old) (.string new)
  | selection (v : SelectOption) (selected : ℕ) (inside : selected < v.values.length) :
      Admits (.selection v) (.selection { v with selected := selected })

variable {value value' value'' : Value}

theorem Admits.kind (h : value.Admits value') : value'.kind = value.kind := by
  cases h <;> rfl

theorem Admits.wellFormed (h : value.Admits value') (hvalue : value.WellFormed) :
    value'.WellFormed := by
  cases h with
  | selection v selected inside =>
      have hlengths : v.options.length = v.values.length := SelectOption.WellFormed.lengths hvalue
      exact ⟨hlengths, inside⟩
  | _ => trivial

theorem Admits.trans (h : value.Admits value') (h' : value'.Admits value'') :
    value.Admits value'' := by
  cases h with
  | null => exact h'
  | bool old new =>
      cases h' with
      | bool _ new' => exact .bool old new'
  | int old new =>
      cases h' with
      | int _ new' => exact .int old new'
  | string old new =>
      cases h' with
      | string _ new' => exact .string old new'
  | selection v selected inside =>
      cases h' with
      | selection _ selected' inside' => exact .selection v selected' inside'

theorem Admits.select {v : SelectOption} (h : value.Admits (.selection v)) {selected : ℕ}
    (hselected : selected < v.values.length) :
    value.Admits (.selection { v with selected := selected }) := by
  cases h with
  | selection v₀ _ _ => exact .selection v₀ selected hselected

theorem admits_of_kind (value' : Value) (h : value'.kind = value.kind) (hplain : value.kind ≠ .selection) :
    value.Admits value' := by
  cases value with
  | null =>
      cases value' <;> first | exact .null | cases h
  | bool old =>
      cases value' <;> first | exact .bool old _ | cases h
  | int old =>
      cases value' <;> first | exact .int old _ | cases h
  | string old =>
      cases value' <;> first | exact .string old _ | cases h
  | selection v => exact absurd rfl hplain

theorem admits_self (h : value.WellFormed) : value.Admits value := by
  cases value with
  | null => exact .null
  | bool v => exact .bool v v
  | int v => exact .int v v
  | string v => exact .string v v
  | selection v => exact .selection v v.selected (SelectOption.WellFormed.selected h)

/-- `to_basic` of a well-formed value is inside the list. -/
theorem toBasic_isSome (h : value.WellFormed) : value.toBasic.isSome := by
  cases value with
  | selection v =>
      rw [toBasic, isSome_getElem?]
      exact SelectOption.WellFormed.selected h
  | _ => rfl

end Value

/-- `option'` is `option` with another value of its type. -/
def ConfigOption.Assigned (option option' : ConfigOption) : Prop :=
  option.current.Admits option'.current ∧ option' = { option with current := option'.current }

theorem ConfigOption.Assigned.skeleton {option option' : ConfigOption}
    (h : option.Assigned option') : option'.skeleton = option.skeleton := by
  rw [h.2]
  rfl

theorem ConfigOption.Assigned.trans {option option' option'' : ConfigOption}
    (h : option.Assigned option') (h' : option'.Assigned option'') : option.Assigned option'' := by
  refine ⟨h.1.trans h'.1, ?_⟩
  rw [h'.2, h.2]

theorem ConfigOption.Assigned.typed {option option' : ConfigOption} (h : option.Assigned option')
    (hoption : option.Typed) : option'.Typed := by
  refine ⟨?_, h.1.wellFormed hoption.wellFormed⟩
  rw [h.1.kind, h.2]
  exact hoption.kind

/-! ### Lists whose entries are related one by one -/

section

variable {α β γ : Type} {R : α → β → Prop} {S : β → γ → Prop} {T : α → γ → Prop}

theorem forall₂_trans (hRS : ∀ a b c, R a b → S b c → T a c) {l₁ : List α} {l₂ : List β}
    {l₃ : List γ} (h : List.Forall₂ R l₁ l₂) (h' : List.Forall₂ S l₂ l₃) :
    List.Forall₂ T l₁ l₃ := by
  induction h generalizing l₃ with
  | nil =>
      cases h'
      exact .nil
  | cons hR _ ih =>
      cases h' with
      | cons hS htail => exact .cons (hRS _ _ _ hR hS) (ih htail)

theorem exists_of_forall₂ {l₁ : List α} {l₂ : List β} (h : List.Forall₂ R l₁ l₂) {b : β}
    (hb : b ∈ l₂) : ∃ a ∈ l₁, R a b := by
  induction h with
  | nil => cases hb
  | cons hR _ ih =>
      rcases List.mem_cons.mp hb with rfl | hb
      · exact ⟨_, List.mem_cons_self, hR⟩
      · obtain ⟨a, ha, hab⟩ := ih hb
        exact ⟨a, List.mem_cons_of_mem _ ha, hab⟩

theorem forall₂_of_mem {T : α → β → Prop} {l₁ : List α} {l₂ : List β}
    (hRT : ∀ a b, a ∈ l₁ → R a b → T a b) (h : List.Forall₂ R l₁ l₂) : List.Forall₂ T l₁ l₂ := by
  induction h with
  | nil => exact .nil
  | cons hR _ ih =>
      refine .cons (hRT _ _ List.mem_cons_self hR) (ih fun a b ha => ?_)
      exact hRT a b (List.mem_cons_of_mem _ ha)

theorem map_eq_of_forall₂ {f : α → γ} {g : β → γ} (hfg : ∀ a b, R a b → g b = f a)
    {l₁ : List α} {l₂ : List β} (h : List.Forall₂ R l₁ l₂) : l₂.map g = l₁.map f := by
  induction h with
  | nil => rfl
  | cons hR _ ih => rw [List.map_cons, List.map_cons, hfg _ _ hR, ih]

end

namespace Namespace

/-- `ns'` is `ns` with other values of the declared types. -/
structure Assigned (ns ns' : Namespace) : Prop where
  parsedFiles : ns'.parsedFiles = ns.parsedFiles
  hashmap : ns'.hashmap = ns.hashmap
  options : List.Forall₂ ConfigOption.Assigned ns.vector ns'.vector

/-- Every option has a value of its declared type. -/
def Typed (ns : Namespace) : Prop := ∀ option ∈ ns.vector, option.Typed

variable {lexers : Lexers} {ns ns' ns'' : Namespace}

theorem typed_default : Namespace.default.Typed := by
  intro option hoption
  rw [List.mem_singleton.mp hoption]
  exact ⟨rfl, trivial⟩

theorem Typed.push (h : ns.Typed) {option : ConfigOption} (hoption : option.Typed) (ident : Text) :
    (ns.push ident option).Typed := by
  intro entry hentry
  rcases List.mem_append.mp hentry with hold | hnew
  · exact h entry hold
  · rw [List.mem_singleton.mp hnew]
    exact hoption

theorem Typed.modify (h : ns.Typed) {f : ConfigOption → ConfigOption}
    (hf : ∀ option, (f option).current = option.current ∧ (f option).declared = option.declared)
    (p : ℕ) : Typed { ns with vector := ns.vector.modify p f } := by
  intro entry hentry
  obtain ⟨i, hi⟩ := List.mem_iff_getElem?.mp hentry
  rw [List.getElem?_modify] at hi
  obtain ⟨old, hold, rfl⟩ := Option.map_eq_some_iff.mp hi
  obtain ⟨hkind, hwell⟩ := h old (List.mem_of_getElem? hold)
  obtain ⟨hcurrent, hdeclared⟩ := hf old
  split_ifs
  · exact ⟨by rw [hcurrent, hdeclared]; exact hkind, by rw [hcurrent]; exact hwell⟩
  · exact ⟨hkind, hwell⟩

/-- Every option of a parsed namespace has a value of its declared type. -/
theorem Typed.growsTo (h : ns.Typed) (hrun : ns.GrowsTo lexers ns') : ns'.Typed := by
  induction hrun with
  | refl => exact h
  | tail _ hstep ih =>
      cases hstep with
      | option option parentIdx _ _ _ _ htyped _ =>
          refine Typed.push ?_ htyped option.name
          exact ih.modify (f := fun parent => { parent with children := parent.children ++ [_] })
            (fun _ => ⟨rfl, rfl⟩) parentIdx
      | env ident val =>
          have htyped : (envOption val).Typed := ⟨rfl, trivial⟩
          exact ih.push htyped ident
      | proj display =>
          exact ih.modify (f := fun root => { root with display := display })
            (fun _ => ⟨rfl, rfl⟩) 0
      | file path => exact ih

theorem Typed.assigned_self (h : ns.Typed) : ns.Assigned ns :=
  ⟨rfl, rfl, List.forall₂_same.mpr fun option hoption =>
    ⟨Value.admits_self (h option hoption).wellFormed, rfl⟩⟩

theorem Assigned.trans (h : ns.Assigned ns') (h' : ns'.Assigned ns'') : ns.Assigned ns'' := by
  refine ⟨h'.parsedFiles.trans h.parsedFiles, h'.hashmap.trans h.hashmap, ?_⟩
  exact forall₂_trans (fun _ _ _ hfst hsnd => hfst.trans hsnd) h.options h'.options

theorem Assigned.typed (h : ns.Assigned ns') (htyped : ns.Typed) : ns'.Typed := by
  intro option' hoption'
  obtain ⟨option, hoption, hassigned⟩ := exists_of_forall₂ h.options hoption'
  exact hassigned.typed (htyped option hoption)

theorem Assigned.sameTree (h : ns.Assigned ns') : ns.SameTree ns' :=
  ⟨h.hashmap, map_eq_of_forall₂ (fun _ _ hassigned => hassigned.skeleton) h.options⟩

end Namespace

end Uconfig
end Utopia
