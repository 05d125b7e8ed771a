/-
Paths as lists of symbols: the components between separators, loops over them, and
strings that are bounded by a terminator.
-/
import Mathlib.Algebra.Order.Ring.Int
import Mathlib.Data.List.Basic
import Mathlib.Data.List.DropRight
import Mathlib.Data.List.Infix
import Mathlib.Order.CompletePartialOrder

namespace Utopia

universe u v w

section Path

variable {α : Type u} [DecidableEq α] {σ : Type v} {m : Type v → Type w} [Monad m] {sep : α}

/-- A loop over the components of a path.  `comp` is the part of the component that the
loop has passed; empty components are skipped. -/
def foldComponents (sep : α) (f : σ → List α → m σ) (s : σ) (comp : List α) : List α → m σ
  | [] => if comp = [] then pure s else f s comp
  | b :: rest =>
      if b = sep then
        if comp = [] then foldComponents sep f s [] rest
        else f s comp >>= fun s => foldComponents sep f s [] rest
      else foldComponents sep f s (comp ++ [b]) rest

/-- The components of a path behind the part `comp` of its first one. -/
def componentsFrom (sep : α) (comp : List α) : List α → List (List α)
  | [] => if comp = [] then [] else [comp]
  | b :: rest =>
      if b = sep then
        if comp = [] then componentsFrom sep [] rest else comp :: componentsFrom sep [] rest
      else componentsFrom sep (comp ++ [b]) rest

/-- The components of a path: what stands between separators. -/
def components (sep : α) (path : List α) : List (List α) := componentsFrom sep [] path

/-- A component: it is not empty and has no separator. -/
def IsComponent (sep : α) (c : List α) : Prop := c ≠ [] ∧ sep ∉ c

theorem foldComponents_eq [LawfulMonad m] (f : σ → List α → m σ) (s : σ)
    (comp path : List α) :
    foldComponents sep f s comp path = (componentsFrom sep comp path).foldlM f s := by
  induction path generalizing s comp with
  | nil =>
      rw [foldComponents, componentsFrom]
      split_ifs
      · rfl
      · simp
  | cons b rest ih =>
      rw [foldComponents, componentsFrom]
      split_ifs
      · exact ih s []
      · simp only [List.foldlM_cons, ih]
      · exact ih s (comp ++ [b])

/-- A part without separators goes on with the component. -/
theorem componentsFrom_append {comp c : List α} (path : List α) (hc : sep ∉ c) :
    componentsFrom sep comp (c ++ path) = componentsFrom sep (comp ++ c) path := by
  induction c generalizing comp with
  | nil => rw [List.nil_append, List.append_nil]
  | cons b c ih =>
      rw [List.mem_cons, not_or] at hc
      rw [List.cons_append, componentsFrom, if_neg (Ne.symm hc.1), ih hc.2, List.append_assoc,
        List.singleton_append]

@[simp]
theorem components_nil : components sep [] = [] := rfl

@[simp]
theorem components_sep (path : List α) : components sep (sep :: path) = components sep path := by
  rw [components, componentsFrom, if_pos rfl, if_pos rfl, components]

theorem components_append_sep {c : List α} (path : List α) (hc : IsComponent sep c) :
    components sep (c ++ sep :: path) = c :: components sep path := by
  rw [components, componentsFrom_append _ hc.2, List.nil_append, componentsFrom, if_pos rfl,
    if_neg hc.1, components]

theorem componentsFrom_append_sep (comp path rest : List α) :
    componentsFrom sep comp (path ++ sep :: rest) =
      componentsFrom sep comp path ++ components sep rest := by
  induction path generalizing comp with
  | nil =>
      rw [List.nil_append, componentsFrom, componentsFrom, if_pos rfl]
      split_ifs <;> rfl
  | cons b path ih =>
      rw [List.cons_append, componentsFrom, componentsFrom]
      split_ifs
      · exact ih []
      · rw [ih, List.cons_append]
      · exact ih (comp ++ [b])

theorem components_component {c : List α} (hc : IsComponent sep c) :
    components sep c = [c] := by
  have h : componentsFrom sep [] (c ++ []) = componentsFrom sep ([] ++ c) [] :=
    componentsFrom_append [] hc.2
  rw [List.append_nil, List.nil_append, componentsFrom, if_neg hc.1] at h
  exact h

/-- Components come back from the path that they are joined to. -/
theorem components_intercalate {cs : List (List α)} (h : ∀ c ∈ cs, IsComponent sep c) :
    components sep ([sep].intercalate cs) = cs := by
  induction cs with
  | nil => rfl
  | cons c cs ih =>
      have hc := h c List.mem_cons_self
      cases cs with
      | nil => rw [List.intercalate_singleton, components_component hc]
      | cons d cs =>
          rw [List.intercalate_cons_cons, List.append_assoc, List.singleton_append,
            components_append_sep _ hc, ih fun e he => h e (List.mem_cons_of_mem _ he)]

theorem isComponent_componentsFrom {comp : List α} (hcomp : sep ∉ comp) (path : List α) :
    ∀ c ∈ componentsFrom sep comp path, IsComponent sep c := by
  induction path generalizing comp with
  | nil =>
      rw [componentsFrom]
      split_ifs with h
      · exact fun _ => nofun
      · intro c hc
        rw [List.mem_singleton.mp hc]
        exact ⟨h, hcomp⟩
  | cons b rest ih =>
      rw [componentsFrom]
      split_ifs with hb h
      · exact ih List.not_mem_nil
      · intro c hc
        rcases List.mem_cons.mp hc with rfl | hc
        · exact ⟨h, hcomp⟩
        · exact ih List.not_mem_nil c hc
      · refine ih ?_
        rw [List.mem_append, List.mem_singleton, not_or]
        exact ⟨hcomp, Ne.symm hb⟩

theorem isComponent_components {path : List α} {c : List α} (hc : c ∈ components sep path) :
    IsComponent sep c :=
  isComponent_componentsFrom List.not_mem_nil path c hc

theorem isInfix_of_mem_componentsFrom {comp path c : List α}
    (hc : c ∈ componentsFrom sep comp path) : c <:+: comp ++ path := by
  induction path generalizing comp with
  | nil =>
      rw [componentsFrom] at hc
      split_ifs at hc
      · cases hc
      · rw [List.mem_singleton.mp hc, List.append_nil]
  | cons d rest ih =>
      have hrest : ([] ++ rest : List α) <:+: comp ++ d :: rest :=
        ⟨comp ++ [d], [], by simp⟩
      rw [componentsFrom] at hc
      split_ifs at hc
      · exact (ih hc).trans hrest
      · rcases List.mem_cons.mp hc with rfl | hc
        · exact (List.prefix_append _ _).isInfix
        · exact (ih hc).trans hrest
      · have h := ih hc
        rwa [List.append_assoc, List.singleton_append] at h

theorem length_componentsFrom_le (comp path : List α) :
    (componentsFrom sep comp path).length ≤ path.length + 1 := by
  induction path generalizing comp with
  | nil =>
      rw [componentsFrom]
      split_ifs <;> simp
  | cons b rest ih =>
      have hempty := ih []
      have hmore := ih (comp ++ [b])
      rw [componentsFrom, List.length_cons]
      split_ifs
      · omega
      · rw [List.length_cons]
        omega
      · omega

/-- The components of a path are parts of it. -/
theorem isInfix_of_mem_components {path c : List α} (hc : c ∈ components sep path) :
    c <:+: path :=
  isInfix_of_mem_componentsFrom hc

end Path

end Utopia
