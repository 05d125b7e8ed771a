/-
Computations that end with a result or give up in a state, with fuel spent or a request refused.
-/
import Mathlib.Algebra.Order.Ring.Int
import Mathlib.Order.CompletePartialOrder

namespace Utopia

universe u v

variable {ε : Type u} {α β : Type v}

/-- `Spent` of the state in which the computation gave up, or `Done` of its result. -/
def Outcome (Spent : ε → Prop) (Done : α → Prop) : Except ε α → Prop
  | .error e => Spent e
  | .ok a => Done a

namespace Outcome

variable {Spent Spent' : ε → Prop} {Done Done' : α → Prop} {r : Except ε α}

instance [hs : DecidablePred Spent] [hd : DecidablePred Done] :
    Decidable (Outcome Spent Done r) :=
  match r with
  | .error e => hs e
  | .ok a => hd a

theorem mono (h : Outcome Spent Done r) (hspent : ∀ e, Spent e → Spent' e)
    (hdone : ∀ a, Done a → Done' a) : Outcome Spent' Done' r := by
  cases r with
  | error e => exact hspent e h
  | ok a => exact hdone a h

theorem and (h : Outcome Spent Done r) (h' : Outcome Spent' Done' r) :
    Outcome (fun e => Spent e ∧ Spent' e) (fun a => Done a ∧ Done' a) r := by
  cases r with
  | error e => exact ⟨h, h'⟩
  | ok a => exact ⟨h, h'⟩

theorem bind {f : α → Except ε β} {Last : β → Prop} (h : Outcome Spent Done r)
    (hf : ∀ a, Done a → Outcome Spent Last (f a)) : Outcome Spent Last (r >>= f) := by
  cases r with
  | error e => exact h
  | ok a => exact hf a h

theorem of_ok {a : α} (h : Outcome Spent Done r) (hr : r = .ok a) : Done a := by
  subst hr
  exact h

theorem of_error {e : ε} (h : Outcome Spent Done r) (hr : r = .error e) : Spent e := by
  subst hr
  exact h

end Outcome

/-! ### Folds that can give up -/

variable {σ τ : Type v} {P : σ → α → Prop} {f : σ → α → Except ε σ}

/-- `P` holds of every state that a round of the fold starts in, and of its element. -/
def FoldAlways (P : σ → α → Prop) (f : σ → α → Except ε σ) : List α → σ → Prop
  | [], _ => True
  | a :: as, s => P s a ∧ ∀ s', f s a = .ok s' → FoldAlways P f as s'

theorem foldAlways_of_forall (h : ∀ s a, P s a) (as : List α) (s : σ) : FoldAlways P f as s := by
  induction as generalizing s with
  | nil => trivial
  | cons a as ih => exact ⟨h s a, fun s' _ => ih s'⟩

instance decidableForallOk {Q : α → Prop} [DecidablePred Q] : (r : Except ε α) →
    Decidable (∀ a, r = .ok a → Q a)
  | .error _ => isTrue fun _ h => nomatch h
  | .ok a => decidable_of_iff (Q a) ⟨fun h _ hok => Except.ok.inj hok ▸ h, fun h => h a rfl⟩

instance decidableFoldAlways [∀ s a, Decidable (P s a)] :
    ∀ as s, Decidable (FoldAlways P f as s)
  | [], _ => isTrue trivial
  | a :: as, s =>
      have : DecidablePred (FoldAlways P f as) := decidableFoldAlways as
      inferInstanceAs (Decidable (P s a ∧ ∀ s', f s a = .ok s' → FoldAlways P f as s'))

theorem bind_eq_ok {r : Except ε α} {g : α → Except ε β} {b : β} :
    r >>= g = .ok b ↔ ∃ a, r = .ok a ∧ g a = .ok b := by
  cases r with
  | error e =>
      constructor
      · intro h
        cases h
      · rintro ⟨a, ha, -⟩
        cases ha
  | ok a =>
      constructor
      · intro h
        exact ⟨a, rfl, h⟩
      · rintro ⟨a', ha, h⟩
        obtain rfl := Except.ok.inj ha
        exact h

/-- A fold whose rounds keep `I` or give up in `E` does so itself. -/
theorem FoldAlways.outcome {I : σ → Prop} {E : ε → Prop} {as : List α} {s : σ}
    (h : FoldAlways P f as s)
    (hstep : ∀ s a, a ∈ as → I s → P s a → Outcome E I (f s a)) (hs : I s) :
    Outcome E I (as.foldlM f s) := by
  induction as generalizing s with
  | nil => exact hs
  | cons a as ih =>
      obtain ⟨hhead, htail⟩ := h
      have hround := hstep s a List.mem_cons_self hs hhead
      rw [List.foldlM_cons]
      cases hresult : f s a with
      | error e => exact hround.of_error hresult
      | ok s' =>
          exact ih (htail s' hresult) (fun s b hb => hstep s b (List.mem_cons_of_mem a hb))
            (hround.of_ok hresult)

/-- A round of the fold comes to `a` in the state `s'`. -/
def FoldReaches (f : σ → α → Except ε σ) (as : List α) (s s' : σ) (a : α) : Prop :=
  ∃ before after, as = before ++ a :: after ∧ before.foldlM f s = .ok s'

/-- A round that gives up ends the fold. -/
theorem FoldReaches.error {as : List α} {s s' : σ} {a : α} {e : ε}
    (h : FoldReaches f as s s' a) (he : f s' a = .error e) : as.foldlM f s = .error e := by
  obtain ⟨before, after, rfl, hbefore⟩ := h
  rw [List.foldlM_append, hbefore]
  change List.foldlM f s' (a :: after) = .error e
  rw [List.foldlM_cons, he]
  rfl

/-- A fold that does not give up refines the fold `g` when each of its rounds does. -/
theorem FoldAlways.refines {R : σ → τ → Prop} {g : τ → α → τ} {as : List α} {s s' : σ} {t : τ}
    (h : FoldAlways P f as s)
    (hstep : ∀ s t a s', a ∈ as → R s t → P s a → f s a = .ok s' → R s' (g t a))
    (hstart : R s t) (hok : as.foldlM f s = .ok s') : R s' (as.foldl g t) := by
  induction as generalizing s t with
  | nil =>
      obtain rfl := Except.ok.inj hok
      exact hstart
  | cons a as ih =>
      rw [List.foldlM_cons] at hok
      obtain ⟨s₁, hround, hrest⟩ := bind_eq_ok.mp hok
      obtain ⟨hhead, htail⟩ := h
      refine ih (htail s₁ hround) (fun s t b s' hb => hstep s t b s' (List.mem_cons_of_mem a hb))
        ?_ hrest
      exact hstep s t a s₁ List.mem_cons_self hstart hhead hround

end Utopia
