/-
Loops over a buffer that check the index of each access: a failed access is `none`.
-/
import Utopia.Lib.Path
import Mathlib.Data.List.TakeWhile

namespace Utopia

universe u v w

section Buffer

variable {α : Type u} {b dst src : List α} {i k n max : ℕ} {p : α → Bool}

/-- The elements of a buffer from `i` on. -/
def part (b : List α) (i n : ℕ) : List α := (b.drop i).take n

theorem length_part (h : i + n ≤ b.length) : (part b i n).length = n := by
  rw [part, List.length_take, List.length_drop]
  omega

@[simp]
theorem part_zero (b : List α) (i : ℕ) : part b i 0 = [] := List.take_zero

theorem part_succ (h : i < b.length) : part b i (n + 1) = b[i] :: part b (i + 1) n := by
  rw [part, List.drop_eq_getElem_cons h, List.take_succ_cons, part]

theorem take_part (b : List α) (i : ℕ) (h : k ≤ n) : (part b i n).take k = part b i k := by
  rw [part, List.take_take, min_eq_left h, part]

theorem drop_part (b : List α) (i k n : ℕ) : (part b i n).drop k = part b (i + k) (n - k) := by
  rw [part, List.drop_take, List.drop_drop, part]

theorem part_part (b : List α) (h : i + n ≤ max) : part (part b k max) i n = part b (k + i) n := by
  rw [part, drop_part, take_part _ _ (by omega)]

theorem part_append (b : List α) (i k n : ℕ) : part b i k ++ part b (i + k) n = part b i (k + n) := by
  rw [part, part, part, ← List.drop_drop, ← List.take_add]

theorem part_self (b : List α) : part b 0 b.length = b := List.take_length

/-- The elements that `memcpy` and `memcmp` read. -/
def readPart (b : List α) (i : ℕ) : ℕ → Option (List α)
  | 0 => some []
  | n + 1 => b[i]?.bind fun a => (readPart b (i + 1) n).map (a :: ·)

theorem readPart_eq (h : i + n ≤ b.length) : readPart b i n = some (part b i n) := by
  induction n generalizing i with
  | zero => rw [readPart, part_zero]
  | succ n ih =>
      have hi : i < b.length := by omega
      rw [readPart, List.getElem?_eq_getElem hi, ih (by omega), part_succ hi]
      rfl

/-- The loop that goes on while it finds elements with `p`: how many there are. -/
def countWhile (p : α → Bool) (b : List α) (i : ℕ) : ℕ → Option ℕ
  | 0 => some 0
  | n + 1 => b[i]?.bind fun a =>
      if p a then (countWhile p b (i + 1) n).map (· + 1) else some 0

theorem countWhile_eq (h : i + n ≤ b.length) :
    countWhile p b i n = some ((part b i n).takeWhile p).length := by
  induction n generalizing i with
  | zero => rw [countWhile, part_zero, List.takeWhile_nil, List.length_nil]
  | succ n ih =>
      have hi : i < b.length := by omega
      rw [countWhile, List.getElem?_eq_getElem hi, part_succ hi, List.takeWhile_cons,
        Option.bind_some, ih (by omega)]
      split_ifs <;> rfl

theorem part_takeWhile (b : List α) (i n : ℕ) :
    part b i ((part b i n).takeWhile p).length = (part b i n).takeWhile p := by
  have hprefix := List.takeWhile_prefix p (l := part b i n)
  have hlen := hprefix.length_le.trans (List.length_take_le _ _)
  rw [← take_part b i hlen]
  exact (List.prefix_iff_eq_take.mp hprefix).symm

/-- The loop splits the elements at the first one without `p`. -/
theorem exists_countWhile (p : α → Bool) (h : i + n ≤ b.length) :
    ∃ k ≤ n, countWhile p b i n = some k ∧ part b i k = (part b i n).takeWhile p ∧
      part b (i + k) (n - k) = (part b i n).dropWhile p := by
  have htake := part_takeWhile (p := p) b i n
  have hle := (List.takeWhile_prefix p (l := part b i n)).length_le
  rw [length_part h] at hle
  refine ⟨_, hle, countWhile_eq h, htake, ?_⟩
  rw [← drop_part]
  exact (congrArg (List.drop _) List.takeWhile_append_dropWhile.symm).trans List.drop_left

/-- The loop that takes elements with `p` off the end: how many elements it leaves. -/
def trimWhile (p : α → Bool) (b : List α) (i : ℕ) : ℕ → Option ℕ
  | 0 => some 0
  | n + 1 => b[i + n]?.bind fun a => if p a then trimWhile p b i n else some (n + 1)

theorem part_concat (h : i + n < b.length) : part b i (n + 1) = part b i n ++ [b[i + n]] := by
  rw [← part_append b i n 1, part_succ h, part_zero]

theorem part_dropLast (h : i + n ≤ b.length) : (part b i n).dropLast = part b i (n - 1) := by
  rw [List.dropLast_eq_take, length_part h, take_part b i (Nat.sub_le n 1)]

theorem exists_trimWhile (p : α → Bool) (h : i + n ≤ b.length) :
    ∃ k ≤ n, trimWhile p b i n = some k ∧ part b i k = (part b i n).rdropWhile p ∧
      part b (i + k) (n - k) = (part b i n).rtakeWhile p := by
  induction n with
  | zero => exact ⟨0, le_rfl, rfl, by rw [part_zero, List.rdropWhile_nil], by
      rw [Nat.sub_zero, part_zero, part_zero, List.rtakeWhile_nil]⟩
  | succ n ih =>
      have hi : i + n < b.length := by omega
      rw [trimWhile, List.getElem?_eq_getElem hi, part_concat hi, List.rdropWhile_concat,
        List.rtakeWhile_concat, Option.bind_some]
      split_ifs
      · obtain ⟨k, hk, hrun, hpart, hrest⟩ := ih (by omega)
        refine ⟨k, Nat.le_succ_of_le hk, hrun, hpart, ?_⟩
        rw [← hrest, Nat.succ_sub hk]
        have hconcat := part_concat (b := b) (i := i + k) (n := n - k) (by omega)
        rw [hconcat]
        congr 3
        omega
      · refine ⟨n + 1, le_rfl, rfl, part_concat hi, ?_⟩
        rw [Nat.sub_self, part_zero]

/-! ### Writes -/

/-- A write of one element. -/
def storeAt (b : List α) (i : ℕ) (a : α) : Option (List α) :=
  if i < b.length then some (b.set i a) else none

/-- `memcpy`: `n` elements of `src` from `i` on go to `dst` from `k` on. -/
def copyAt (dst : List α) (k : ℕ) (src : List α) (i : ℕ) : ℕ → Option (List α)
  | 0 => some dst
  | n + 1 => src[i]?.bind fun a =>
      (storeAt dst k a).bind fun dst => copyAt dst (k + 1) src (i + 1) n

theorem storeAt_eq (h : k < dst.length) (a : α) :
    storeAt dst k a = some (dst.take k ++ a :: dst.drop (k + 1)) := by
  rw [storeAt, if_pos h, List.set_eq_take_append_cons_drop, if_pos h]

theorem copyAt_eq (hdst : k + n ≤ dst.length) (hsrc : i + n ≤ src.length) :
    copyAt dst k src i n = some (dst.take k ++ part src i n ++ dst.drop (k + n)) := by
  induction n generalizing dst k i with
  | zero => simp [copyAt]
  | succ n ih =>
      have hi : i < src.length := by omega
      have hk : k < dst.length := by omega
      have hlen : (dst.take k ++ [src[i]]).length = k + 1 := by
        rw [List.length_append, List.length_take, min_eq_left hk.le, List.length_singleton]
      have hstored : storeAt dst k src[i] =
          some (dst.take k ++ [src[i]] ++ dst.drop (k + 1)) := by
        rw [storeAt_eq hk, List.append_assoc, List.singleton_append]
      have hlen' : (dst.take k ++ [src[i]] ++ dst.drop (k + 1)).length = dst.length := by
        rw [List.length_append, hlen, List.length_drop]
        omega
      have hdrop : (dst.take k ++ [src[i]] ++ dst.drop (k + 1)).drop (k + 1 + n) =
          dst.drop (k + (n + 1)) := by
        rw [← List.drop_drop, List.drop_left' hlen, List.drop_drop]
        congr 1
        omega
      rw [copyAt, List.getElem?_eq_getElem hi, Option.bind_some, hstored, Option.bind_some,
        ih (by omega) (by omega), List.take_left' hlen, hdrop, part_succ hi]
      simp

/-- What the buffer holds up to the end of the write. -/
theorem exists_storeAt (h : k < dst.length) (a : α) :
    ∃ out, storeAt dst k a = some out ∧ out.length = dst.length ∧
      out.take (k + 1) = dst.take k ++ [a] := by
  have hlen : (dst.take k ++ [a]).length = k + 1 := by
    rw [List.length_append, List.length_take, min_eq_left h.le, List.length_singleton]
  refine ⟨dst.take k ++ a :: dst.drop (k + 1), storeAt_eq h a, ?_, ?_⟩
  · rw [List.length_append, List.length_take, List.length_cons, List.length_drop]
    omega
  · rw [← List.singleton_append, ← List.append_assoc, List.take_left' hlen]

theorem exists_copyAt (hdst : k + n ≤ dst.length) (hsrc : i + n ≤ src.length) :
    ∃ out, copyAt dst k src i n = some out ∧ out.length = dst.length ∧
      out.take (k + n) = dst.take k ++ part src i n := by
  have hlen : (dst.take k ++ part src i n).length = k + n := by
    rw [List.length_append, length_part hsrc, List.length_take, min_eq_left (by omega)]
  refine ⟨_, copyAt_eq hdst hsrc, ?_, List.take_left' hlen⟩
  rw [List.length_append, hlen, List.length_drop]
  omega

theorem getElem?_add (hk : k < n) (h : i + n ≤ b.length) (a : α) :
    b[i + k]? = some ((part b i n).getD k a) := by
  have hik : i + k < b.length := by omega
  rw [List.getD_eq_getElem?_getD, part, List.getElem?_take_of_lt hk, List.getElem?_drop,
    List.getElem?_eq_getElem hik, Option.getD_some]

end Buffer

/-! ### Loops over components -/

section Components

variable {α : Type u} [DecidableEq α] {σ : Type v} {m : Type v → Type w} [Monad m] {sep : α}
  {b : List α}

/-- A checked result in a loop that may also fail as the source fails. -/
def checked (r : Option σ) : OptionT m σ := OptionT.mk (pure r)

@[simp]
theorem checked_none : (checked none : OptionT m σ) = failure := rfl

@[simp]
theorem checked_some (s : σ) : (checked (some s) : OptionT m σ) = pure s := rfl

/-- A loop over the components of the `left` elements from `i` on.  `step` gets the place of
a component and its length. -/
def forComponents (sep : α) (b : List α) (step : σ → ℕ → ℕ → OptionT m σ) :
    ℕ → ℕ → ℕ → σ → OptionT m σ
  | 0, _, _, _ => failure
  | fuel + 1, i, left, s =>
      if left = 0 then pure s
      else match countWhile (· ≠ sep) b i left with
        | none => failure
        | some 0 => forComponents sep b step fuel (i + 1) (left - 1) s
        | some (n + 1) => do
            let s ← step s i (n + 1)
            forComponents sep b step fuel (i + (n + 1) + 1) (left - (n + 1 + 1)) s

/-- The first component, and what stands behind the separator that ends it. -/
theorem components_takeWhile {p : List α} (hp : p ≠ []) :
    components sep p = (if p.takeWhile (· ≠ sep) = [] then [] else [p.takeWhile (· ≠ sep)]) ++
      components sep (p.drop ((p.takeWhile (· ≠ sep)).length + 1)) := by
  have hsplit : p.takeWhile (· ≠ sep) ++ p.dropWhile (· ≠ sep) = p := List.takeWhile_append_dropWhile
  have hfree : sep ∉ p.takeWhile (· ≠ sep) := fun hmem => by
    simpa using List.mem_takeWhile_imp hmem
  have hhead := List.head?_dropWhile_not (· ≠ sep) p
  generalize p.takeWhile (· ≠ sep) = c at hsplit hfree
  generalize p.dropWhile (· ≠ sep) = rest at hsplit hhead
  subst hsplit
  cases rest with
  | nil =>
      rw [List.append_nil] at hp
      rw [List.append_nil, if_neg hp, components_component ⟨hp, hfree⟩,
        List.drop_eq_nil_of_le (Nat.le_succ _), components_nil, List.append_nil]
  | cons x rest =>
      obtain rfl : x = sep := by simpa using hhead
      rw [List.drop_length_add_append, List.drop_one, List.tail_cons]
      split_ifs with hnil
      · rw [hnil, List.nil_append, List.nil_append, components_sep]
      · rw [components_append_sep _ ⟨hnil, hfree⟩, List.singleton_append]

variable [LawfulMonad m]

theorem lift_bind {τ : Type v} (x : m σ) (f : σ → m τ) :
    (OptionT.lift x >>= fun a => OptionT.lift (f a) : OptionT m τ) = OptionT.lift (x >>= f) := by
  ext
  simp

/-- The loop does its steps on the components. -/
theorem forComponents_eq {step : σ → ℕ → ℕ → OptionT m σ} {f : σ → List α → m σ}
    (hstep : ∀ s i n, i + n ≤ b.length → step s i n = OptionT.lift (f s (part b i n)))
    {fuel i left : ℕ} (hfuel : left < fuel) (h : i + left ≤ b.length) (s : σ) :
    forComponents sep b step fuel i left s =
      OptionT.lift (foldComponents sep f s [] (part b i left)) := by
  induction fuel generalizing i left s with
  | zero => omega
  | succ fuel ih =>
      rw [forComponents, foldComponents_eq f]
      split_ifs with hleft
      · rw [hleft, part_zero]
        exact (OptionT.lift_pure (m := m) s).symm
      · have hne : part b i left ≠ [] := fun hnil => hleft <| by
          rw [← length_part h, hnil, List.length_nil]
        have htake := part_takeWhile (p := (· ≠ sep)) b i left
        have hlen := (List.takeWhile_prefix (· ≠ sep) (l := part b i left)).length_le
        have hsplit := @components_takeWhile _ _ sep _ hne
        rw [length_part h] at hlen
        rw [← components, hsplit, drop_part, countWhile_eq h]
        generalize (part b i left).takeWhile (· ≠ sep) = c at htake hlen
        cases c with
        | nil =>
            have hrun := @ih (i + 1) (left - 1) (by omega) (by omega) s
            rw [foldComponents_eq f] at hrun
            exact hrun
        | cons a c =>
            rw [List.length_cons] at hlen htake
            rw [if_neg (List.cons_ne_nil a c), List.singleton_append, List.foldlM_cons, ← lift_bind,
              List.length_cons]
            dsimp only
            rw [hstep s i _ (by omega), htake]
            congr 1
            funext s
            by_cases hend : left = c.length + 1
            · -- the last component ends with the path
              have hnone : left - (c.length + 1 + 1) = 0 := by omega
              rw [hnone, part_zero, components_nil, List.foldlM_nil]
              cases fuel with
              | zero => omega
              | succ fuel =>
                  rw [forComponents, if_pos rfl]
                  exact (OptionT.lift_pure s).symm
            · have hrun := @ih (i + (c.length + 1) + 1) (left - (c.length + 1 + 1)) (by omega)
                (by omega) s
              rw [foldComponents_eq f] at hrun
              exact hrun

end Components

end Utopia
