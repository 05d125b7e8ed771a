/-
Radix tables in a store: an entry of a table either names a table of the next
level down or ends the walk.  The facts below say what overwriting one entry
does to every walk, for any number of roots that may share subtrees.
-/
import Mathlib.Algebra.Order.Ring.Int
import Mathlib.Data.List.Infix
import Mathlib.Data.Set.BooleanAlgebra
import Mathlib.Data.Set.Insert
import Mathlib.Order.CompletePartialOrder

namespace Utopia

namespace Radix

universe u v w

variable {T : Type u} {ι : Type v} {E : Type w}
variable (child : ℕ → E → Option T)

/-- The table that the indices `path` lead to from the table `t` of level
`level`. -/
def tableAt (fetch : T → ι → E) : ℕ → T → List ι → Option T
  | _, t, [] => some t
  | 0, _, _ :: _ => none
  | level + 1, t, i :: path =>
      (child (level + 1) (fetch t i)).bind fun c => tableAt fetch level c path

/-- The entry that ends the walk along `path`, and its level. -/
def stopAt (fetch : T → ι → E) : ℕ → T → List ι → Option (ℕ × E)
  | _, _, [] => none
  | 0, t, i :: _ => some (0, fetch t i)
  | level + 1, t, i :: path =>
      match child (level + 1) (fetch t i) with
      | none => some (level + 1, fetch t i)
      | some c => stopAt fetch level c path

/-- Overwrite entry `i` of table `t`. -/
def setEntry [DecidableEq T] [DecidableEq ι] (fetch : T → ι → E) (t : T) (i : ι)
    (e : E) : T → ι → E :=
  fun u j => if u = t ∧ j = i then e else fetch u j

variable {child} {fetch fetch' : T → ι → E}

@[simp]
theorem tableAt_nil (level : ℕ) (t : T) : tableAt child fetch level t [] = some t := by
  cases level <;> rfl

theorem tableAt_cons (level : ℕ) (t : T) (i : ι) (path : List ι) :
    tableAt child fetch (level + 1) t (i :: path) =
      (child (level + 1) (fetch t i)).bind fun c => tableAt child fetch level c path :=
  rfl

theorem stopAt_cons_of_child_eq_none {level : ℕ} {t : T} {i : ι} (path : List ι)
    (h : child level (fetch t i) = none) :
    stopAt child fetch level t (i :: path) = some (level, fetch t i) := by
  cases level with
  | zero => rfl
  | succ level => simp only [stopAt, h]

theorem tableAt_length_le {level : ℕ} {t c : T} {path : List ι}
    (h : tableAt child fetch level t path = some c) : path.length ≤ level := by
  induction path generalizing level t with
  | nil => simp
  | cons i path ih =>
      cases level with
      | zero => simp [tableAt] at h
      | succ level =>
          rw [tableAt_cons, Option.bind_eq_some_iff] at h
          obtain ⟨d, -, htail⟩ := h
          simpa using ih htail

theorem tableAt_append {level : ℕ} {t c : T} {p : List ι} (q : List ι)
    (h : tableAt child fetch level t p = some c) :
    tableAt child fetch level t (p ++ q) =
      tableAt child fetch (level - p.length) c q := by
  induction p generalizing level t with
  | nil =>
      simp only [tableAt_nil, Option.some.injEq] at h
      simp [h]
  | cons i p ih =>
      cases level with
      | zero => simp [tableAt] at h
      | succ level =>
          rw [tableAt_cons, Option.bind_eq_some_iff] at h
          obtain ⟨d, hd, htail⟩ := h
          rw [List.cons_append, tableAt_cons, hd, Option.bind_some, ih htail]
          simp

theorem stopAt_append {level : ℕ} {t c : T} {p : List ι} (q : List ι)
    (h : tableAt child fetch level t p = some c) :
    stopAt child fetch level t (p ++ q) =
      stopAt child fetch (level - p.length) c q := by
  induction p generalizing level t with
  | nil =>
      simp only [tableAt_nil, Option.some.injEq] at h
      simp [h]
  | cons i p ih =>
      cases level with
      | zero => simp [tableAt] at h
      | succ level =>
          rw [tableAt_cons, Option.bind_eq_some_iff] at h
          obtain ⟨d, hd, htail⟩ := h
          have hrec := ih htail
          simp only [List.cons_append, stopAt, hd, hrec, List.length_cons,
            Nat.add_sub_add_right]

/-- A walk only reads the entries on its way. -/
theorem tableAt_congr {level : ℕ} {t : T} {path : List ι}
    (h : ∀ q u i, q ++ [i] <+: path → tableAt child fetch level t q = some u →
      fetch' u i = fetch u i) :
    tableAt child fetch' level t path = tableAt child fetch level t path := by
  induction path generalizing level t with
  | nil => simp
  | cons i path ih =>
      cases level with
      | zero => rfl
      | succ level =>
          have hfirst : fetch' t i = fetch t i := h [] t i (by simp) (tableAt_nil _ _)
          rw [tableAt_cons, tableAt_cons, hfirst]
          cases hc : child (level + 1) (fetch t i) with
          | none => rfl
          | some c =>
              simp only [Option.bind_some]
              apply ih
              intro q u j hq hu
              apply h (i :: q) u j (by simpa using hq)
              rw [tableAt_cons, hc]
              exact hu

theorem stopAt_congr {level : ℕ} {t : T} {path : List ι}
    (h : ∀ q u i, q ++ [i] <+: path → tableAt child fetch level t q = some u →
      fetch' u i = fetch u i) :
    stopAt child fetch' level t path = stopAt child fetch level t path := by
  induction path generalizing level t with
  | nil => cases level <;> rfl
  | cons i path ih =>
      have hfirst : fetch' t i = fetch t i := h [] t i (by simp) (tableAt_nil _ _)
      cases level with
      | zero => simp only [stopAt, hfirst]
      | succ level =>
          simp only [stopAt, hfirst]
          cases hc : child (level + 1) (fetch t i) with
          | none => rfl
          | some c =>
              apply ih
              intro q u j hq hu
              apply h (i :: q) u j (by simpa using hq)
              rw [tableAt_cons, hc]
              exact hu

/-! ### The tables below one table -/

/-- The tables on the walks from the table `t` of level `level`. -/
def Below (child : ℕ → E → Option T) (fetch : T → ι → E) (level : ℕ) (t : T) : Set T :=
  { u | ∃ path, tableAt child fetch level t path = some u }

/-- No two walks from `t` meet in a table. -/
def Tree (child : ℕ → E → Option T) (fetch : T → ι → E) (level : ℕ) (t : T) : Prop :=
  ∀ p q u, tableAt child fetch level t p = some u → tableAt child fetch level t q = some u →
    p = q

theorem mem_below_self (level : ℕ) (t : T) : t ∈ Below child fetch level t :=
  ⟨[], tableAt_nil level t⟩

theorem below_zero (t : T) : Below child fetch 0 t = {t} := by
  ext u
  constructor
  · rintro ⟨path, hpath⟩
    cases path with
    | nil => simpa using hpath.symm
    | cons i path => cases hpath
  · rintro rfl
    exact mem_below_self 0 u

theorem mem_below_succ {level : ℕ} {t u : T} :
    u ∈ Below child fetch (level + 1) t ↔
      u = t ∨ ∃ i c, child (level + 1) (fetch t i) = some c ∧ u ∈ Below child fetch level c := by
  constructor
  · rintro ⟨path, hpath⟩
    cases path with
    | nil => exact Or.inl (by simpa using hpath.symm)
    | cons i path =>
        rw [tableAt_cons, Option.bind_eq_some_iff] at hpath
        obtain ⟨c, hc, hrest⟩ := hpath
        exact Or.inr ⟨i, c, hc, path, hrest⟩
  · rintro (rfl | ⟨i, c, hc, path, hpath⟩)
    · exact mem_below_self _ u
    · refine ⟨i :: path, ?_⟩
      rw [tableAt_cons, hc]
      exact hpath

theorem Tree.of_child {level : ℕ} {t c : T} {i : ι}
    (h : Tree child fetch (level + 1) t) (hc : child (level + 1) (fetch t i) = some c) :
    Tree child fetch level c := by
  intro p q u hp hq
  have hcons : ∀ path, tableAt child fetch level c path = some u →
      tableAt child fetch (level + 1) t (i :: path) = some u := by
    intro path hpath
    rw [tableAt_cons, hc]
    exact hpath
  exact (List.cons.injEq i p i q ▸ h _ _ u (hcons p hp) (hcons q hq)).2

theorem Tree.not_mem_below_child {level : ℕ} {t c : T} {i : ι}
    (h : Tree child fetch (level + 1) t) (hc : child (level + 1) (fetch t i) = some c) :
    t ∉ Below child fetch level c := by
  rintro ⟨path, hpath⟩
  have hcons : tableAt child fetch (level + 1) t (i :: path) = some t := by
    rw [tableAt_cons, hc]
    exact hpath
  have hsame := h _ _ t (tableAt_nil _ t) hcons
  cases hsame

/-- The tables below different entries are different. -/
theorem Tree.disjoint_below {level : ℕ} {t c d : T} {i j : ι}
    (h : Tree child fetch (level + 1) t) (hc : child (level + 1) (fetch t i) = some c)
    (hd : child (level + 1) (fetch t j) = some d) (hne : i ≠ j) :
    Disjoint (Below child fetch level c) (Below child fetch level d) := by
  rw [Set.disjoint_left]
  rintro u ⟨p, hp⟩ ⟨q, hq⟩
  have hi : tableAt child fetch (level + 1) t (i :: p) = some u := by
    rw [tableAt_cons, hc]
    exact hp
  have hj : tableAt child fetch (level + 1) t (j :: q) = some u := by
    rw [tableAt_cons, hd]
    exact hq
  have hsame := h _ _ u hi hj
  rw [List.cons.injEq] at hsame
  exact hne hsame.1

theorem tableAt_congr_below {level : ℕ} {t : T}
    (h : ∀ u ∈ Below child fetch level t, ∀ i, fetch' u i = fetch u i) (path : List ι) :
    tableAt child fetch' level t path = tableAt child fetch level t path :=
  tableAt_congr fun q u i _ hu => h u ⟨q, hu⟩ i

theorem below_congr {level : ℕ} {t : T}
    (h : ∀ u ∈ Below child fetch level t, ∀ i, fetch' u i = fetch u i) :
    Below child fetch' level t = Below child fetch level t := by
  ext u
  simp only [Below, Set.mem_ofPred_eq, tableAt_congr_below h]

theorem Tree.congr {level : ℕ} {t : T} (hunique : Tree child fetch level t)
    (h : ∀ u ∈ Below child fetch level t, ∀ i, fetch' u i = fetch u i) :
    Tree child fetch' level t := by
  intro p q u hp hq
  rw [tableAt_congr_below h] at hp hq
  exact hunique p q u hp hq

/-- The table `t` is on some walk from one of the roots. -/
def Reached (child : ℕ → E → Option T) (fetch : T → ι → E) (top : ℕ)
    (roots : Set T) (t : T) : Prop :=
  ∃ r ∈ roots, ∃ path, tableAt child fetch top r path = some t

/-- Every table is reached by one path only, and from two different roots only
through a shared index of the top level. -/
def Separated (child : ℕ → E → Option T) (fetch : T → ι → E) (top : ℕ)
    (roots : Set T) (shared : ι → Prop) : Prop :=
  ∀ r ∈ roots, ∀ r' ∈ roots, ∀ p q t,
    tableAt child fetch top r p = some t → tableAt child fetch top r' q = some t →
      p = q ∧ (r = r' ∨ ∃ i ∈ p.head?, shared i)

variable {top : ℕ} {roots : Set T} {shared : ι → Prop}

theorem tableAt_congr_reached
    (h : ∀ t i, Reached child fetch top roots t → fetch' t i = fetch t i)
    {r : T} (hr : r ∈ roots) (path : List ι) :
    tableAt child fetch' top r path = tableAt child fetch top r path :=
  tableAt_congr fun q u i _ hu => h u i ⟨r, hr, q, hu⟩

theorem stopAt_congr_reached
    (h : ∀ t i, Reached child fetch top roots t → fetch' t i = fetch t i)
    {r : T} (hr : r ∈ roots) (path : List ι) :
    stopAt child fetch' top r path = stopAt child fetch top r path :=
  stopAt_congr fun q u i _ hu => h u i ⟨r, hr, q, hu⟩

/-- Stores that agree on the reached tables have the same walks. -/
theorem Separated.congr (hsep : Separated child fetch top roots shared)
    (h : ∀ t i, Reached child fetch top roots t → fetch' t i = fetch t i) :
    Separated child fetch' top roots shared := by
  intro r hr r' hr' p q t hp hq
  rw [tableAt_congr_reached h hr] at hp
  rw [tableAt_congr_reached h hr'] at hq
  exact hsep r hr r' hr' p q t hp hq

theorem reached_congr
    (h : ∀ t i, Reached child fetch top roots t → fetch' t i = fetch t i) (t : T) :
    Reached child fetch' top roots t ↔ Reached child fetch top roots t := by
  constructor
  · rintro ⟨r, hr, p, hp⟩
    exact ⟨r, hr, p, (tableAt_congr_reached h hr p).symm.trans hp⟩
  · rintro ⟨r, hr, p, hp⟩
    exact ⟨r, hr, p, (tableAt_congr_reached h hr p).trans hp⟩

theorem Separated.mono {roots' : Set T} (hsep : Separated child fetch top roots shared)
    (hsub : roots' ⊆ roots) : Separated child fetch top roots' shared :=
  fun r hr r' hr' => hsep r (hsub hr) r' (hsub hr')

/-- A root whose walk passes through a table of `r` is `r`, or shares the table. -/
theorem Separated.through (hsep : Separated child fetch top roots shared) {r r' t : T}
    {p : List ι} (hr : r ∈ roots) (ht : tableAt child fetch top r p = some t)
    (hr' : r' ∈ roots) (ht' : tableAt child fetch top r' p = some t) (i : ι) :
    r' = r ∨ ∃ j ∈ (p ++ [i]).head?, shared j := by
  rcases (hsep r' hr' r hr p p t ht' ht).2 with hsame | ⟨j, hj, hshared⟩
  · exact Or.inl hsame
  · refine Or.inr ⟨j, ?_, hshared⟩
    cases p with
    | nil => simp at hj
    | cons a p => simpa using hj

/-! ### Overwriting one entry -/

section SetEntry

variable [DecidableEq T] [DecidableEq ι] {r t : T} {p : List ι} {i : ι} {e : E}

/-- An overwritten entry is seen only by the walks that pass through it. -/
theorem setEntry_eq_off_path (hsep : Separated child fetch top roots shared)
    (hr : r ∈ roots) (ht : tableAt child fetch top r p = some t) {r' : T} (hr' : r' ∈ roots)
    {path : List ι} (hpath : tableAt child fetch top r' p = some t → ¬ p ++ [i] <+: path)
    {q : List ι} {u : T} {j : ι} (hq : q ++ [j] <+: path)
    (hu : tableAt child fetch top r' q = some u) :
    setEntry fetch t i e u j = fetch u j := by
  rw [setEntry, if_neg]
  rintro ⟨rfl, rfl⟩
  obtain ⟨rfl, -⟩ := hsep r hr r' hr' p q u ht hu
  exact hpath hu hq

theorem tableAt_setEntry_off_path
    (hsep : Separated child fetch top roots shared) (hr : r ∈ roots)
    (ht : tableAt child fetch top r p = some t) {r' : T} (hr' : r' ∈ roots)
    {path : List ι} (hpath : tableAt child fetch top r' p = some t → ¬ p ++ [i] <+: path) :
    tableAt child (setEntry fetch t i e) top r' path =
      tableAt child fetch top r' path :=
  tableAt_congr fun _ _ _ hq hu => setEntry_eq_off_path hsep hr ht hr' hpath hq hu

theorem stopAt_setEntry_off_path
    (hsep : Separated child fetch top roots shared) (hr : r ∈ roots)
    (ht : tableAt child fetch top r p = some t) {r' : T} (hr' : r' ∈ roots)
    {path : List ι} (hpath : tableAt child fetch top r' p = some t → ¬ p ++ [i] <+: path) :
    stopAt child (setEntry fetch t i e) top r' path =
      stopAt child fetch top r' path :=
  stopAt_congr fun _ _ _ hq hu => setEntry_eq_off_path hsep hr ht hr' hpath hq hu

theorem tableAt_setEntry_self (hsep : Separated child fetch top roots shared)
    (hr : r ∈ roots) (ht : tableAt child fetch top r p = some t) :
    tableAt child (setEntry fetch t i e) top r p = some t := by
  rw [tableAt_setEntry_off_path hsep hr ht hr, ht]
  intro _ hpre
  have hlen := hpre.length_le
  simp only [List.length_append, List.length_singleton] at hlen
  omega

/-- The walks through the overwritten entry go on at its new child. -/
theorem tableAt_setEntry_below (hsep : Separated child fetch top roots shared)
    (hr : r ∈ roots) (ht : tableAt child fetch top r p = some t) {n : ℕ}
    (hn : top - p.length = n + 1) (q : List ι) :
    tableAt child (setEntry fetch t i e) top r (p ++ i :: q) =
      (child (n + 1) e).bind fun c =>
        tableAt child (setEntry fetch t i e) n c q := by
  rw [tableAt_append _ (tableAt_setEntry_self hsep hr ht), hn, tableAt_cons]
  simp only [setEntry, and_self, if_true]

theorem stopAt_setEntry_below (hsep : Separated child fetch top roots shared)
    (hr : r ∈ roots) (ht : tableAt child fetch top r p = some t) (q : List ι) :
    stopAt child (setEntry fetch t i e) top r (p ++ i :: q) =
      stopAt child (setEntry fetch t i e) (top - p.length) t (i :: q) :=
  stopAt_append _ (tableAt_setEntry_self hsep hr ht)

/-- A walk through the overwritten entry to a table of ends. -/
theorem stopAt_setEntry_child {level : ℕ} {u : T} (hchild : child (level + 1) e = some u)
    (hne : u ≠ t) (hends : ∀ j, child level (fetch u j) = none) (j : ι) (path : List ι) :
    stopAt child (setEntry fetch t i e) (level + 1) t (i :: j :: path) =
      some (level, fetch u j) := by
  have hset : ∀ j, setEntry fetch t i e u j = fetch u j :=
    fun j => if_neg fun heq => hne heq.1
  have hself : setEntry fetch t i e t i = e := if_pos ⟨rfl, rfl⟩
  simp only [stopAt, hself, hchild]
  rw [stopAt_cons_of_child_eq_none _ (by rw [hset, hends]), hset]

/-- The new entry of level `n + 1` ends the walk, or leads to a table that no
walk reached before and that leads nowhere itself. -/
def EndsOrFresh (child : ℕ → E → Option T) (fetch : T → ι → E) (top : ℕ)
    (roots : Set T) (level : ℕ) (e : E) : Prop :=
  ∀ c, child level e = some c →
    ¬ Reached child fetch top roots c ∧ ∀ n j, level = n + 1 → child n (fetch c j) = none

/-- A table reached now was reached before, or is the child of the new entry. -/
theorem tableAt_setEntry_cases (hsep : Separated child fetch top roots shared)
    (hr : r ∈ roots) (ht : tableAt child fetch top r p = some t)
    (hnew : EndsOrFresh child fetch top roots (top - p.length) e) {r' : T}
    (hr' : r' ∈ roots) {path : List ι} {u : T}
    (h : tableAt child (setEntry fetch t i e) top r' path = some u) :
    tableAt child fetch top r' path = some u ∨
      tableAt child fetch top r' p = some t ∧ path = p ++ [i] ∧
        child (top - p.length) e = some u := by
  by_cases hpath : tableAt child fetch top r' p = some t ∧ p ++ [i] <+: path
  · obtain ⟨hthrough, q, rfl⟩ := hpath
    right
    rw [List.append_assoc, List.singleton_append] at h
    have hself : tableAt child (setEntry fetch t i e) top r' p = some t :=
      tableAt_setEntry_self hsep hr' hthrough
    have hbelow := h
    rw [tableAt_append _ hself] at hbelow
    cases hn : top - p.length with
    | zero =>
        rw [hn] at hbelow
        simp [tableAt] at hbelow
    | succ n =>
        rw [tableAt_setEntry_below hsep hr' hthrough hn, Option.bind_eq_some_iff] at h
        obtain ⟨c, hc, hq⟩ := h
        rw [hn] at hnew
        obtain ⟨hfresh, hchildless⟩ := hnew c hc
        cases q with
        | nil =>
            obtain rfl : c = u := by simpa using hq
            exact ⟨hthrough, by simp, hc⟩
        | cons j q =>
            exfalso
            have hct : ¬ (c = t ∧ j = i) := by
              rintro ⟨rfl, -⟩
              exact hfresh ⟨r, hr, p, ht⟩
            cases n with
            | zero => simp [tableAt] at hq
            | succ n =>
                rw [tableAt_cons, setEntry, if_neg hct, hchildless _ _ rfl] at hq
                cases hq
  · left
    rwa [tableAt_setEntry_off_path hsep hr ht hr'
      fun hthrough hpre => hpath ⟨hthrough, hpre⟩] at h

/-- Overwriting an entry keeps the tables separated. -/
theorem Separated.setEntry (hsep : Separated child fetch top roots shared)
    (hr : r ∈ roots) (ht : tableAt child fetch top r p = some t)
    (hnew : EndsOrFresh child fetch top roots (top - p.length) e) :
    Separated child (setEntry fetch t i e) top roots shared := by
  intro r₁ hr₁ r₂ hr₂ p₁ p₂ u hp₁ hp₂
  have h₁ := tableAt_setEntry_cases hsep hr ht hnew hr₁ hp₁
  have h₂ := tableAt_setEntry_cases hsep hr ht hnew hr₂ hp₂
  rcases h₁ with h₁ | ⟨ht₁, rfl, hc₁⟩
  · rcases h₂ with h₂ | ⟨-, rfl, hc₂⟩
    · exact hsep r₁ hr₁ r₂ hr₂ p₁ p₂ u h₁ h₂
    · exact absurd ⟨r₁, hr₁, p₁, h₁⟩ (hnew u hc₂).1
  · rcases h₂ with h₂ | ⟨ht₂, rfl, -⟩
    · exact absurd ⟨r₂, hr₂, p₂, h₂⟩ (hnew u hc₁).1
    · exact ⟨rfl, hsep.through hr₂ ht₂ hr₁ ht₁ i⟩

end SetEntry

end Radix

end Utopia
