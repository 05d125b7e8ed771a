/-
What one escape sequence makes the printer read: parameters only, and one byte behind them.
-/
import Utopia.Drivers.Console
import Utopia.Lib.Outcome

namespace Utopia

/-- The bytes that an escape sequence may hold between its bracket and its end. -/
abbrev IsParameter (c : Byte) : Prop := IsCharDigit c ∨ c = semicolon

/-- A byte on which `parse_ansi` neither ends nor moves on. -/
def Stuck (c : Byte) : Prop := ¬IsParameter c ∧ c ≠ 0 ∧ c ≠ letterM

theorem not_isParameter_of_end {c : Byte} (h : c = 0 ∨ c = letterM) : ¬IsParameter c := by
  rcases h with rfl | rfl <;> decide

theorem escape_not_isParameter : ¬IsParameter escape := by decide

namespace Printer

@[simp] theorem look_s (p : Printer) : p.look.s = p.s := rfl

@[simp] theorem look_lookups (p : Printer) : p.look.lookups = p.lookups := rfl

@[simp] theorem lookAt_s (i : ℕ) (p : Printer) : (p.lookAt i).s = p.s := rfl

@[simp] theorem next_s (p : Printer) : p.next.s = p.s + 1 := rfl

theorem skip_of_eq {text : Text} {c : Byte} {p : Printer} (h : text p.s = c) :
    p.skip text c = p.look.next := if_pos h

theorem skip_of_ne {text : Text} {c : Byte} {p : Printer} (h : text p.s ≠ c) :
    p.skip text c = p.look := if_neg h

@[simp] theorem noteRound_s (start : ℕ) (p : Printer) : (p.noteRound start).s = p.s := rfl

@[simp] theorem noteRound_reads (start : ℕ) (p : Printer) :
    (p.noteRound start).reads = p.reads := rfl

@[simp] theorem noteRound_lookups (start : ℕ) (p : Printer) :
    (p.noteRound start).lookups = p.lookups := rfl

end Printer

/-- From `p` the scan has come to `q`, over parameter bytes only. -/
structure Scans (text : Text) (p q : Printer) : Prop where
  le : p.s ≤ q.s
  parameters : ∀ i, p.s ≤ i → i < q.s → IsParameter (text i)
  kept : p.reads ⊆ q.reads
  reads : ∀ i ∈ q.reads, i ∈ p.reads ∨ p.s ≤ i ∧ i ≤ q.s
  covered : ∀ i, p.s ≤ i → i < q.s → i ∈ q.reads
  lookups : p.lookups ⊆ q.lookups
  rounds : ∀ r ∈ q.rounds, r ∈ p.rounds ∨ r.1 < r.2 ∨ Stuck (text r.1) ∧ p.s ≤ r.1 ∧ r.1 ≤ q.s

namespace Scans

variable {text : Text} {p q r : Printer}

/-- The position, the reads and the rounds are those of `p`; an index may be new. -/
theorem of_same (hs : q.s = p.s) (hreads : q.reads = p.reads) (hrounds : q.rounds = p.rounds)
    (hlookups : p.lookups ⊆ q.lookups) : Scans text p q where
  le := hs.ge
  parameters := fun i hi hlt => by omega
  kept := by rw [hreads]; exact List.Subset.refl _
  reads := fun i hi => Or.inl (hreads ▸ hi)
  covered := fun i hi hlt => by omega
  lookups := hlookups
  rounds := fun r hr => Or.inl (hrounds ▸ hr)

theorem refl (p : Printer) : Scans text p p := of_same rfl rfl rfl (List.Subset.refl _)

theorem trans (h : Scans text p q) (h' : Scans text q r) : Scans text p r where
  le := h.le.trans h'.le
  parameters := fun i hi hlt => by
    by_cases hq : i < q.s
    · exact h.parameters i hi hq
    · exact h'.parameters i (by omega) hlt
  kept := fun i hi => h'.kept (h.kept hi)
  reads := fun i hi => by
    have hle := h.le
    have hle' := h'.le
    rcases h'.reads i hi with hq | hq
    · rcases h.reads i hq with hp | hp
      · exact Or.inl hp
      · exact Or.inr ⟨hp.1, by omega⟩
    · exact Or.inr ⟨by omega, hq.2⟩
  covered := fun i hi hlt => by
    by_cases hq : i < q.s
    · exact h'.kept (h.covered i hi hq)
    · exact h'.covered i (by omega) hlt
  lookups := fun i hi => h'.lookups (h.lookups hi)
  rounds := fun x hx => by
    have hle := h.le
    have hle' := h'.le
    rcases h'.rounds x hx with hq | hq | hq
    · rcases h.rounds x hq with hp | hp | hp
      · exact Or.inl hp
      · exact Or.inr (Or.inl hp)
      · exact Or.inr (Or.inr ⟨hp.1, hp.2.1, by omega⟩)
    · exact Or.inr (Or.inl hq)
    · exact Or.inr (Or.inr ⟨hq.1, by omega, hq.2.2⟩)

theorem look (p : Printer) : Scans text p p.look where
  le := Nat.le_refl _
  parameters := fun i hi hlt => absurd hlt (Nat.not_lt.2 hi)
  kept := List.subset_cons_self _ _
  reads := fun i hi => by
    rcases List.mem_cons.1 hi with rfl | hi
    · exact Or.inr ⟨Nat.le_refl _, Nat.le_refl _⟩
    · exact Or.inl hi
  covered := fun i hi hlt => absurd hlt (Nat.not_lt.2 hi)
  lookups := List.Subset.refl _
  rounds := fun _ hr => Or.inl hr

/-- A parameter byte is read and passed. -/
theorem look_next (h : IsParameter (text p.s)) : Scans text p p.look.next where
  le := Nat.le_succ _
  parameters := fun i hi hlt => by
    obtain rfl : i = p.s := by
      change i < p.s + 1 at hlt
      omega
    exact h
  kept := List.subset_cons_self _ _
  reads := fun i hi => by
    rcases List.mem_cons.1 hi with rfl | hi
    · exact Or.inr ⟨Nat.le_refl _, Nat.le_succ _⟩
    · exact Or.inl hi
  covered := fun i hi hlt => by
    obtain rfl : i = p.s := by
      change i < p.s + 1 at hlt
      omega
    exact List.mem_cons_self
  lookups := List.Subset.refl _
  rounds := fun _ hr => Or.inl hr

theorem noteRound (h : Scans text p q) (hround : p.s < q.s ∨ Stuck (text p.s)) :
    Scans text p (q.noteRound p.s) where
  le := h.le
  parameters := h.parameters
  kept := h.kept
  reads := h.reads
  covered := h.covered
  lookups := h.lookups
  rounds := fun r hr => by
    rcases List.mem_cons.1 hr with rfl | hr
    · rcases hround with hlt | hstuck
      · exact Or.inr (Or.inl hlt)
      · exact Or.inr (Or.inr ⟨hstuck, Nat.le_refl _, h.le⟩)
    · exact h.rounds r hr

theorem paint (val color : Word32) (p : Printer) : Scans text p (p.paint val color) := by
  unfold Printer.paint
  split_ifs <;> exact of_same rfl rfl rfl (List.Subset.refl _)

theorem noteIndex (i : ℤ) (p : Printer) : Scans text p (p.noteIndex i) :=
  of_same rfl rfl rfl (List.subset_cons_self _ _)

/-- The scan stops at the first byte that is no parameter. -/
theorem le_of_not_isParameter (h : Scans text p q) {e : ℕ} (hle : p.s ≤ e)
    (he : ¬IsParameter (text e)) : q.s ≤ e :=
  Nat.le_of_not_lt fun hlt => he (h.parameters e hle hlt)

end Scans

/-- Where its fuel is spent the scan has passed as many bytes. -/
def Progress (text : Text) (p : Printer) (fuel : ℕ) (q : Printer) : Prop :=
  Scans text p q ∧ p.s + fuel ≤ q.s

theorem Progress.of_scans {text : Text} {p p' q : Printer} {fuel : ℕ} (h : Scans text p p')
    (hprogress : Progress text p' fuel q) : Progress text p fuel q :=
  ⟨h.trans hprogress.1, Nat.le_trans (Nat.add_le_add_right h.le _) hprogress.2⟩

section Parts

variable (text : Text) (around : ℤ → Word32)

theorem digits_scans (fuel : ℕ) (n : Word32) (p : Printer) :
    Outcome (Progress text p fuel)
      (fun a => Scans text p a.2 ∧ (IsCharDigit (text p.s) → p.s < a.2.s))
      (digits text fuel n p) := by
  induction fuel generalizing n p with
  | zero => exact ⟨Scans.refl p, Nat.le_refl _⟩
  | succ fuel ih =>
      rw [digits]
      by_cases hdigit : IsCharDigit (text p.s)
      · have hstep : Scans text p p.look.next := Scans.look_next (Or.inl hdigit)
        rw [Printer.look_s, if_pos hdigit]
        refine (ih _ p.look.next).mono (fun q hq => ?_) fun a ha => ?_
        · refine ⟨hstep.trans hq.1, ?_⟩
          have hlt : p.s + 1 + fuel ≤ q.s := hq.2
          omega
        · exact ⟨hstep.trans ha.1, fun _ => ha.1.le⟩
      · rw [Printer.look_s, if_neg hdigit]
        exact ⟨Scans.look p, fun h => absurd h hdigit⟩

/-- The digits behind a separator that was just read. -/
theorem digits_next_scans (fuel : ℕ) (n : Word32) {p : Printer}
    (hsep : text p.s = semicolon) :
    Outcome (Progress text p fuel) (fun a => Scans text p a.2 ∧ p.s < a.2.s)
      (digits text fuel n p.look.next) := by
  have hstep : Scans text p p.look.next := Scans.look_next (Or.inr hsep)
  exact (digits_scans text fuel n p.look.next).mono
    (fun q hq => Progress.of_scans hstep hq) fun a ha => ⟨hstep.trans ha.1, ha.1.le⟩

theorem component_scans (fuel : ℕ) (p : Printer) :
    Outcome (Progress text p fuel) (fun a => Scans text p a.2) (component text fuel p) := by
  rw [component]
  by_cases hsep : text p.s = semicolon
  · rw [Printer.look_s, if_pos hsep]
    exact (digits_next_scans text fuel 0 hsep).mono (fun _ h => h) fun _ h => h.1
  · rw [Printer.look_s, if_neg hsep]
    exact Scans.look p

theorem indexedColor_scans (fuel : ℕ) (val : Word32) (p : Printer) :
    Outcome (Progress text p fuel) (Scans text p) (indexedColor text around fuel val p) := by
  rw [indexedColor]
  by_cases hsep : text p.s = semicolon
  · rw [Printer.look_s, if_pos hsep]
    refine (digits_next_scans text fuel 0 hsep).bind ?_
    rintro ⟨colorIdx, q⟩ ⟨hq, -⟩
    dsimp only at hq ⊢
    split_ifs
    · exact hq.trans ((Scans.noteIndex _ q).trans (Scans.paint _ _ _))
    · exact hq
  · rw [Printer.look_s, if_neg hsep]
    exact Scans.look p

theorem directColor_scans (fuel : ℕ) (val : Word32) (p : Printer) :
    Outcome (Progress text p fuel) (Scans text p) (directColor text fuel val p) := by
  rw [directColor]
  refine (component_scans text fuel p).bind ?_
  rintro ⟨r, p₁⟩ h₁
  refine ((component_scans text fuel p₁).mono (fun q hq => Progress.of_scans h₁ hq)
    fun a ha => h₁.trans ha).bind ?_
  rintro ⟨g, p₂⟩ h₂
  refine ((component_scans text fuel p₂).mono (fun q hq => Progress.of_scans h₂ hq)
    fun a ha => h₂.trans ha).bind ?_
  rintro ⟨b, p₃⟩ h₃
  exact Scans.trans h₃ (Scans.paint _ _ _)

theorem extendedColor_scans (fuel : ℕ) (val : Word32) (p : Printer) :
    Outcome (Progress text p fuel) (Scans text p) (extendedColor text around fuel val p) := by
  rw [extendedColor]
  by_cases hsep : text p.s = semicolon
  · rw [Printer.look_s, if_pos hsep]
    refine (digits_next_scans text fuel 0 hsep).bind ?_
    rintro ⟨mode, q⟩ ⟨hq, -⟩
    dsimp only at hq ⊢
    split_ifs
    · exact (indexedColor_scans text around fuel val q).mono
        (fun r hr => Progress.of_scans hq hr) fun r hr => hq.trans hr
    · exact (directColor_scans text fuel val q).mono
        (fun r hr => Progress.of_scans hq hr) fun r hr => hq.trans hr
    · exact hq
  · rw [Printer.look_s, if_neg hsep]
    exact Scans.look p

theorem applyValue_scans (fuel : ℕ) (val : Word32) (p : Printer) :
    Outcome (Progress text p fuel) (Scans text p) (applyValue text around fuel val p) := by
  have hcolor : ∀ {q : Printer}, q.s = p.s → q.reads = p.reads → q.rounds = p.rounds →
      p.lookups ⊆ q.lookups → Outcome (Progress text p fuel) (Scans text p) (.ok q) :=
    fun hs hreads hrounds hlookups => Scans.of_same hs hreads hrounds hlookups
  rw [applyValue]
  split_ifs
  · exact hcolor rfl rfl rfl (List.Subset.refl _)
  · exact hcolor rfl rfl rfl (List.subset_cons_self _ _)
  · exact hcolor rfl rfl rfl (List.subset_cons_self _ _)
  · exact hcolor rfl rfl rfl (List.subset_cons_self _ _)
  · exact hcolor rfl rfl rfl (List.subset_cons_self _ _)
  · exact hcolor rfl rfl rfl (List.Subset.refl _)
  · exact hcolor rfl rfl rfl (List.Subset.refl _)
  · exact extendedColor_scans text around fuel val p
  · exact hcolor rfl rfl rfl (List.Subset.refl _)

theorem parameterValue_scans (fuel : ℕ) (p : Printer) :
    Outcome (Progress text p fuel)
      (fun a => Scans text p a.2 ∧ (IsCharDigit (text p.s) → p.s < a.2.s))
      (parameterValue text fuel p) := by
  rw [parameterValue]
  by_cases hdigit : IsCharDigit (text p.s)
  · rw [Printer.look_s, if_pos hdigit]
    exact (digits_scans text fuel 0 p.look).mono
      (fun q hq => Progress.of_scans (Scans.look p) hq)
      fun a ha => ⟨(Scans.look p).trans ha.1, ha.2⟩
  · rw [Printer.look_s, if_neg hdigit]
    exact ⟨Scans.look p, fun h => absurd h hdigit⟩

/-- The step lemma: a round that stands on a parameter byte moves on. -/
theorem ansiRound_scans (fuel : ℕ) (p : Printer) :
    Outcome (Progress text p fuel)
      (fun q => Scans text p q ∧ (IsParameter (text p.s) → p.s < q.s))
      (ansiRound text around fuel p) := by
  rw [ansiRound]
  refine (parameterValue_scans text fuel p).bind ?_
  rintro ⟨val, p₁⟩ ⟨h₁, hdigit⟩
  dsimp only at h₁ hdigit ⊢
  have happly : Outcome (Progress text p fuel) (Scans text p₁)
      (applyValue text around fuel val p₁) :=
    (applyValue_scans text around fuel val p₁).mono (fun q hq => Progress.of_scans h₁ hq)
      fun q hq => hq
  refine happly.bind ?_
  intro q hq
  have hpq : Scans text p q := h₁.trans hq
  by_cases hsep : text q.s = semicolon
  · rw [Printer.skip_of_eq hsep]
    have hnext : Scans text q q.look.next := Scans.look_next (Or.inr hsep)
    exact ⟨hpq.trans hnext, fun _ => Nat.lt_of_le_of_lt hpq.le (Nat.lt_succ_self _)⟩
  · rw [Printer.skip_of_ne hsep]
    refine ⟨hpq.trans (Scans.look q), fun hparameter => ?_⟩
    rcases hparameter with hd | hs
    · exact Nat.lt_of_lt_of_le (hdigit hd) hq.le
    · refine Nat.lt_of_le_of_ne hpq.le fun heq => hsep ?_
      change p.s = q.s at heq
      rw [← heq]
      exact hs

/-- The run lemma of `parse_ansi`. -/
theorem ansiLoop_scans (fuel : ℕ) (p : Printer) :
    Outcome (Scans text p)
      (fun q => Scans text p q ∧ (text q.s = 0 ∨ text q.s = letterM))
      (ansiLoop text around fuel p) := by
  induction fuel generalizing p with
  | zero => exact Scans.refl p
  | succ fuel ih =>
      rw [ansiLoop]
      by_cases hend : text p.s = 0 ∨ text p.s = letterM
      · rw [Printer.look_s, if_pos hend]
        exact ⟨Scans.look p, hend⟩
      · rw [Printer.look_s, if_neg hend]
        have hlook : Scans text p p.look := Scans.look p
        refine ((ansiRound_scans text around fuel p.look).mono
          (fun q hq => hlook.trans hq.1) fun q hq => hq).bind ?_
        rintro q ⟨hq, hmoves⟩
        have hround : p.s < q.s ∨ Stuck (text p.s) := by
          by_cases hparameter : IsParameter (text p.s)
          · exact Or.inl (hmoves hparameter)
          · exact Or.inr ⟨hparameter, fun h => hend (Or.inl h), fun h => hend (Or.inr h)⟩
        have hnote : Scans text p (q.noteRound p.s) := (hlook.trans hq).noteRound hround
        exact (ih (q.noteRound p.s)).mono (fun r hr => hnote.trans hr)
          fun r hr => ⟨hnote.trans hr.1, hr.2⟩

end Parts

end Utopia
