/-
The colour numbers in an escape sequence, and the indices of `ansi_colors` they make.
-/
import Utopia.Drivers.ConsoleEnds
import Mathlib.Data.List.TakeWhile

namespace Utopia

/-- The number that a run of digits writes, in 32 bits. -/
def number (ds : List Byte) : Word32 := ds.foldl (fun n d => n * 10 + (d.setWidth 32 - 0x30)) 0

/-- The numbers of a sequence, an empty one between two semicolons being 0. -/
def values (w : List Byte) : List Word32 := (w.splitOn semicolon).map number

/-- The numbers that stand where `38;5` or `48;5` take a colour number. -/
def colourNumbers : List Word32 → List Word32
  | [] => []
  | v :: rest =>
      if v = 38 ∨ v = 48 then
        match rest with
        | [] => []
        | mode :: rest =>
            if mode = 5 then
              match rest with
              | [] => []
              | n :: rest => n :: colourNumbers rest
            else if mode = 2 then
              match rest with
              | _ :: _ :: _ :: rest => colourNumbers rest
              | _ => []
            else colourNumbers rest
      else colourNumbers rest

/-- The parameter bytes from `i` on, among the next `n`. -/
def parameters (text : Text) : ℕ → ℕ → List Byte
  | 0, _ => []
  | n + 1, i => if IsParameter (text i) then text i :: parameters text n (i + 1) else []

/-- From `i` on stand the parameters `w`, then something else. -/
def Run (text : Text) : ℕ → List Byte → Prop
  | i, [] => ¬IsParameter (text i)
  | i, b :: w => text i = b ∧ IsParameter b ∧ Run text (i + 1) w

theorem run_parameters {text : Text} {n i e : ℕ} (hle : i ≤ e) (hlt : e < i + n)
    (he : ¬IsParameter (text e)) : Run text i (parameters text n i) := by
  induction n generalizing i with
  | zero => omega
  | succ n ih =>
      rw [parameters]
      split_ifs with hparameter
      · have hne : i ≠ e := fun h => he (h ▸ hparameter)
        exact ⟨rfl, hparameter, ih (by omega) (by omega)⟩
      · exact hparameter

/-- What is left of the numbers behind one of them. -/
def following : List Byte → List Word32
  | [] => []
  | _ :: w => values w

def isDigit (c : Byte) : Bool := decide (IsCharDigit c)

theorem values_cons {text : Text} {i : ℕ} {w : List Byte} (h : Run text i w) :
    values w = number (w.takeWhile isDigit) :: following (w.dropWhile isDigit) := by
  have hdigits : semicolon ∉ w.takeWhile isDigit := fun hmem =>
    absurd (List.mem_takeWhile_imp hmem) (by decide)
  have hsplit : w.takeWhile isDigit ++ w.dropWhile isDigit = w := List.takeWhile_append_dropWhile
  have hall : ∀ b ∈ w, IsParameter b := by
    clear hdigits hsplit
    induction w generalizing i with
    | nil => simp
    | cons b w ih =>
        intro c hc
        rcases List.mem_cons.1 hc with rfl | hc
        · exact h.2.1
        · exact ih h.2.2 c hc
  cases hrest : w.dropWhile isDigit with
  | nil =>
      rw [hrest, List.append_nil] at hsplit
      rw [hsplit] at hdigits ⊢
      rw [values, List.splitOn_eq_singleton hdigits]
      rfl
  | cons b rest =>
      have hb : ¬IsCharDigit b := by
        have hhead := List.head_dropWhile_not isDigit (l := w) (by rw [hrest]; exact List.cons_ne_nil _ _)
        simp only [hrest, List.head_cons] at hhead
        exact of_decide_eq_false hhead
      have hmem : b ∈ w := by
        rw [← hsplit, hrest]
        exact List.mem_append_right _ List.mem_cons_self
      obtain rfl : b = semicolon := (hall b hmem).resolve_left hb
      rw [hrest] at hsplit
      conv_lhs => rw [← hsplit]
      rw [values, List.splitOn_append_cons_self_of_not_mem hdigits]
      rfl

/-- `p` stands at the start of a number; it and those behind it are `vs`. -/
def AtValue (text : Text) (p : Printer) (vs : List Word32) : Prop :=
  ∃ w, Run text p.s w ∧ values w = vs

/-- `p` stands behind a number; those still to come are `vs`. -/
def Between (text : Text) (p : Printer) (vs : List Word32) : Prop :=
  ∃ w, Run text p.s w ∧ ¬IsCharDigit (text p.s) ∧ following w = vs

/-- From `p` to `q` the colour numbers `ns` went through the range test. -/
structure Uses (ns : List Word32) (p q : Printer) : Prop where
  kept : p.lookups ⊆ q.lookups
  used : ∀ n ∈ ns, n.toInt < 16 → n.toInt ∈ q.lookups
  only : ∀ x ∈ q.lookups, x ∈ p.lookups ∨ (0 ≤ x ∧ x < 16) ∨ ∃ n ∈ ns, n.toInt = x ∧ x < 16

namespace Uses

variable {ns ms : List Word32} {p q r : Printer}

theorem of_eq (h : q.lookups = p.lookups) : Uses [] p q where
  kept := by rw [h]; exact List.Subset.refl _
  used := fun n hn => absurd hn List.not_mem_nil
  only := fun x hx => Or.inl (h ▸ hx)

/-- One more index, in range. -/
theorem of_palette {i : ℤ} (h : q.lookups = i :: p.lookups) (hi : 0 ≤ i ∧ i < 16) : Uses [] p q where
  kept := by rw [h]; exact List.subset_cons_self _ _
  used := fun n hn => absurd hn List.not_mem_nil
  only := fun x hx => by
    rw [h] at hx
    rcases List.mem_cons.1 hx with rfl | hx
    · exact Or.inr (Or.inl hi)
    · exact Or.inl hx

theorem of_number {n : Word32} (h : q.lookups = n.toInt :: p.lookups) (hn : n.toInt < 16) :
    Uses [n] p q where
  kept := by rw [h]; exact List.subset_cons_self _ _
  used := fun m hm _ => by
    obtain rfl := List.mem_singleton.1 hm
    rw [h]
    exact List.mem_cons_self
  only := fun x hx => by
    rw [h] at hx
    rcases List.mem_cons.1 hx with rfl | hx
    · exact Or.inr (Or.inr ⟨n, List.mem_singleton.2 rfl, rfl, hn⟩)
    · exact Or.inl hx

theorem of_refused {n : Word32} (h : q.lookups = p.lookups) (hn : ¬n.toInt < 16) :
    Uses [n] p q where
  kept := by rw [h]; exact List.Subset.refl _
  used := fun m hm hlt => by
    obtain rfl := List.mem_singleton.1 hm
    exact absurd hlt hn
  only := fun x hx => Or.inl (h ▸ hx)

theorem of_left (h : Uses ns q r) (heq : q.lookups = p.lookups) : Uses ns p r where
  kept := heq ▸ h.kept
  used := h.used
  only := heq ▸ h.only

theorem of_right (h : Uses ns p q) (heq : r.lookups = q.lookups) : Uses ns p r where
  kept := heq ▸ h.kept
  used := heq ▸ h.used
  only := heq ▸ h.only

theorem trans (h : Uses ns p q) (h' : Uses ms q r) : Uses (ns ++ ms) p r where
  kept := fun x hx => h'.kept (h.kept hx)
  used := fun n hn hlt => by
    rcases List.mem_append.1 hn with hn | hn
    · exact h'.kept (h.used n hn hlt)
    · exact h'.used n hn hlt
  only := fun x hx => by
    rcases h'.only x hx with hq | hpal | ⟨n, hn, heq⟩
    · rcases h.only x hq with hp | hpal | ⟨n, hn, heq⟩
      · exact Or.inl hp
      · exact Or.inr (Or.inl hpal)
      · exact Or.inr (Or.inr ⟨n, List.mem_append_left _ hn, heq⟩)
    · exact Or.inr (Or.inl hpal)
    · exact Or.inr (Or.inr ⟨n, List.mem_append_right _ hn, heq⟩)

end Uses

section Parts

variable {text : Text} {around : ℤ → Word32}

theorem digits_run {w : List Byte} (fuel : ℕ) (n : Word32) {p : Printer} (h : Run text p.s w) :
    Outcome (fun q => q.lookups = p.lookups)
      (fun a => a.1 = (w.takeWhile isDigit).foldl (fun n d => n * 10 + (d.setWidth 32 - 0x30)) n ∧
        Run text a.2.s (w.dropWhile isDigit) ∧ ¬IsCharDigit (text a.2.s) ∧
        a.2.lookups = p.lookups)
      (digits text fuel n p) := by
  induction fuel generalizing n p w with
  | zero => rfl
  | succ fuel ih =>
      rw [digits]
      by_cases hdigit : IsCharDigit (text p.s)
      · rw [Printer.look_s, if_pos hdigit]
        cases w with
        | nil => exact absurd (Or.inl hdigit) h
        | cons b w =>
            obtain ⟨hb, -, hrest⟩ := h
            have hisDigit : isDigit b = true := decide_eq_true (hb ▸ hdigit)
            rw [List.takeWhile_cons_of_pos hisDigit, List.dropWhile_cons_of_pos hisDigit, hb]
            exact ih _ (p := p.look.next) hrest
      · rw [Printer.look_s, if_neg hdigit]
        cases w with
        | nil => exact ⟨rfl, h, hdigit, rfl⟩
        | cons b w =>
            have hisDigit : ¬isDigit b = true := by
              rw [isDigit, decide_eq_true_iff, ← h.1]
              exact hdigit
            rw [List.takeWhile_cons_of_neg hisDigit, List.dropWhile_cons_of_neg hisDigit]
            exact ⟨rfl, h, hdigit, rfl⟩

/-- The digits of the next number. -/
theorem digits_value {vs : List Word32} (fuel : ℕ) {p : Printer} (h : AtValue text p vs) :
    Outcome (fun q => q.lookups = p.lookups)
      (fun a => Between text a.2 vs.tail ∧ vs = a.1 :: vs.tail ∧ a.2.lookups = p.lookups)
      (digits text fuel 0 p) := by
  obtain ⟨w, hrun, rfl⟩ := h
  rw [values_cons hrun]
  exact (digits_run fuel 0 hrun).mono (fun q hq => hq) fun a ha =>
    ⟨⟨_, ha.2.1, ha.2.2.1, rfl⟩, by rw [ha.1]; rfl, ha.2.2.2⟩

theorem Between.next {vs : List Word32} {p : Printer} (h : Between text p vs)
    (hsep : text p.s = semicolon) : AtValue text p.look.next vs := by
  obtain ⟨w, hrun, -, hvs⟩ := h
  cases w with
  | nil => exact absurd (Or.inr hsep) hrun
  | cons b w => exact ⟨w, hrun.2.2, hvs⟩

theorem Between.eq_nil {vs : List Word32} {p : Printer} (h : Between text p vs)
    (hsep : text p.s ≠ semicolon) : vs = [] ∧ ¬IsParameter (text p.s) := by
  obtain ⟨w, hrun, hdigit, hvs⟩ := h
  cases w with
  | nil => exact ⟨hvs.symm, hrun⟩
  | cons b w =>
      have hparameter : IsParameter (text p.s) := hrun.1.symm ▸ hrun.2.1
      exact absurd (hparameter.resolve_left hdigit) hsep

theorem parameterValue_value {vs : List Word32} (fuel : ℕ) {p : Printer} (h : AtValue text p vs) :
    Outcome (fun q => q.lookups = p.lookups)
      (fun a => Between text a.2 vs.tail ∧ vs = a.1 :: vs.tail ∧ a.2.lookups = p.lookups)
      (parameterValue text fuel p) := by
  rw [parameterValue]
  by_cases hdigit : IsCharDigit (text p.s)
  · rw [Printer.look_s, if_pos hdigit]
    exact digits_value fuel (p := p.look) h
  · rw [Printer.look_s, if_neg hdigit]
    -- no digit: the number is the 0 that the digit loop gives with its first test
    have hdigits := digits_value 1 h
    rw [digits, Printer.look_s, if_neg hdigit] at hdigits
    exact hdigits

theorem component_between {vs : List Word32} (fuel : ℕ) {p : Printer} (h : Between text p vs) :
    Outcome (fun q => q.lookups = p.lookups)
      (fun a => Between text a.2 vs.tail ∧ a.2.lookups = p.lookups) (component text fuel p) := by
  rw [component]
  by_cases hsep : text p.s = semicolon
  · rw [Printer.look_s, if_pos hsep]
    exact (digits_value fuel (h.next hsep)).mono (fun q hq => hq) fun a ha => ⟨ha.1, ha.2.2⟩
  · rw [Printer.look_s, if_neg hsep]
    obtain ⟨rfl, -⟩ := h.eq_nil hsep
    exact ⟨h, rfl⟩

@[simp] theorem Printer.paint_lookups (val color : Word32) (p : Printer) :
    (p.paint val color).lookups = p.lookups := by
  unfold Printer.paint
  split_ifs <;> rfl

@[simp] theorem Printer.paint_s (val color : Word32) (p : Printer) :
    (p.paint val color).s = p.s := by
  unfold Printer.paint
  split_ifs <;> rfl

theorem directColor_between {vs : List Word32} (fuel : ℕ) (val : Word32) {p : Printer}
    (h : Between text p vs) :
    Outcome (fun q => q.lookups = p.lookups)
      (fun q => Between text q vs.tail.tail.tail ∧ q.lookups = p.lookups)
      (directColor text fuel val p) := by
  rw [directColor]
  refine (component_between fuel h).bind ?_
  rintro ⟨r, p₁⟩ ⟨h₁, heq₁⟩
  dsimp only at h₁ heq₁ ⊢
  rw [← heq₁]
  refine (component_between fuel h₁).bind ?_
  rintro ⟨g, p₂⟩ ⟨h₂, heq₂⟩
  dsimp only at h₂ heq₂ ⊢
  rw [← heq₂]
  refine (component_between fuel h₂).bind ?_
  rintro ⟨b, p₃⟩ ⟨h₃, heq₃⟩
  dsimp only at h₃ heq₃ ⊢
  refine ⟨?_, by rw [Printer.paint_lookups, heq₃]⟩
  unfold Between
  rw [Printer.paint_s]
  exact h₃

theorem indexedColor_between {vs : List Word32} (fuel : ℕ) (val : Word32) {p : Printer}
    (h : Between text p vs) :
    Outcome (fun q => q.lookups = p.lookups)
      (fun q => Between text q vs.tail ∧ Uses (vs.take 1) p q)
      (indexedColor text around fuel val p) := by
  rw [indexedColor]
  by_cases hsep : text p.s = semicolon
  · rw [Printer.look_s, if_pos hsep]
    refine Outcome.bind (digits_value fuel (h.next hsep)) ?_
    rintro ⟨colorIdx, q⟩ ⟨hq, hvs, heq⟩
    dsimp only at hq hvs heq ⊢
    have htake : vs.take 1 = [colorIdx] := by rw [hvs]; rfl
    rw [htake]
    split_ifs with hlt
    · refine ⟨?_, Uses.of_number ?_ hlt⟩
      · unfold Between
        rw [Printer.paint_s]
        exact hq
      · rw [Printer.paint_lookups]
        exact congrArg _ heq
    · exact ⟨hq, Uses.of_refused heq hlt⟩
  · rw [Printer.look_s, if_neg hsep]
    obtain ⟨rfl, -⟩ := h.eq_nil hsep
    exact ⟨h, Uses.of_eq rfl⟩

/-- From the numbers `vs` the colour numbers `ns` are taken, the numbers `vs'` are left. -/
def Takes (vs : List Word32) (p : Printer) (vs' : List Word32) (q : Printer) : Prop :=
  ∃ ns, colourNumbers vs = ns ++ colourNumbers vs' ∧ Uses ns p q

theorem colourNumbers_plain {v : Word32} (h : ¬(v = 38 ∨ v = 48)) (vs : List Word32) :
    colourNumbers (v :: vs) = colourNumbers vs := by
  rw [colourNumbers.eq_def]
  exact if_neg h

theorem colourNumbers_extended {v : Word32} (h : v = 38 ∨ v = 48) (mode : Word32)
    (vs : List Word32) :
    colourNumbers (v :: mode :: vs) =
      if mode = 5 then vs.take 1 ++ colourNumbers vs.tail
      else if mode = 2 then colourNumbers vs.tail.tail.tail
      else colourNumbers vs := by
  have hunfold : colourNumbers (v :: mode :: vs) =
      if mode = 5 then
        match vs with
        | [] => []
        | n :: rest => n :: colourNumbers rest
      else if mode = 2 then
        match vs with
        | _ :: _ :: _ :: rest => colourNumbers rest
        | _ => []
      else colourNumbers vs := by
    rw [colourNumbers.eq_def]
    exact if_pos h
  rw [hunfold]
  split_ifs
  · cases vs <;> rfl
  · match vs with
    | [] => rfl
    | [_] => rfl
    | [_, _] => rfl
    | _ :: _ :: _ :: _ => rfl
  · rfl

theorem extendedColor_between {vs : List Word32} (fuel : ℕ) {val : Word32}
    (hval : val = 38 ∨ val = 48) {p : Printer} (h : Between text p vs) :
    Outcome (fun q => q.lookups = p.lookups)
      (fun q => ∃ vs', Between text q vs' ∧ Takes (val :: vs) p vs' q)
      (extendedColor text around fuel val p) := by
  rw [extendedColor]
  by_cases hsep : text p.s = semicolon
  · rw [Printer.look_s, if_pos hsep]
    refine Outcome.bind (digits_value fuel (h.next hsep)) ?_
    rintro ⟨mode, q⟩ ⟨hq, hvs, heq⟩
    dsimp only at hq hvs heq ⊢
    have hnumbers := colourNumbers_extended hval mode vs.tail
    rw [← hvs] at hnumbers
    split_ifs at hnumbers ⊢
    · refine (indexedColor_between fuel val hq).mono (fun r hr => hr.trans heq) fun r hr => ?_
      exact ⟨_, hr.1, _, hnumbers, hr.2.of_left heq⟩
    · refine (directColor_between fuel val hq).mono (fun r hr => hr.trans heq) fun r hr => ?_
      exact ⟨_, hr.1, [], hnumbers, Uses.of_eq (hr.2.trans heq)⟩
    · exact ⟨_, hq, [], hnumbers, Uses.of_eq heq⟩
  · rw [Printer.look_s, if_neg hsep]
    obtain ⟨rfl, -⟩ := h.eq_nil hsep
    refine ⟨[], h, [], ?_, Uses.of_eq rfl⟩
    rw [colourNumbers.eq_def]
    exact if_pos hval

variable (around) in
theorem applyValue_between {vs : List Word32} (fuel : ℕ) (val : Word32) {p : Printer}
    (h : Between text p vs) :
    Outcome (fun q => q.lookups = p.lookups)
      (fun q => ∃ vs', Between text q vs' ∧ Takes (val :: vs) p vs' q)
      (applyValue text around fuel val p) := by
  by_cases hval : val = 38 ∨ val = 48
  · have hint : val.toInt = 38 ∨ val.toInt = 48 := by
      rcases hval with rfl | rfl
      · exact Or.inl rfl
      · exact Or.inr rfl
    rw [applyValue, if_neg (by omega), if_neg (by omega), if_neg (by omega), if_neg (by omega),
      if_neg (by omega), if_neg (by omega), if_neg (by omega), if_pos hint]
    exact extendedColor_between fuel hval h
  · have hint : ¬(val.toInt = 38 ∨ val.toInt = 48) := by
      rintro (hv | hv)
      · exact hval (Or.inl (BitVec.eq_of_toInt_eq hv))
      · exact hval (Or.inr (BitVec.eq_of_toInt_eq hv))
    have hnone : colourNumbers (val :: vs) = [] ++ colourNumbers vs :=
      colourNumbers_plain hval vs
    rw [applyValue]
    split_ifs
    · exact ⟨vs, h, [], hnone, Uses.of_eq rfl⟩
    · exact ⟨vs, h, [], hnone, Uses.of_palette rfl (by omega)⟩
    · exact ⟨vs, h, [], hnone, Uses.of_palette rfl (by omega)⟩
    · exact ⟨vs, h, [], hnone, Uses.of_palette rfl (by omega)⟩
    · exact ⟨vs, h, [], hnone, Uses.of_palette rfl (by omega)⟩
    · exact ⟨vs, h, [], hnone, Uses.of_eq rfl⟩
    · exact ⟨vs, h, [], hnone, Uses.of_eq rfl⟩
    · exact ⟨vs, h, [], hnone, Uses.of_eq rfl⟩

/-- The step lemma: a round takes one or more of the numbers. -/
theorem ansiRound_takes {vs : List Word32} (fuel : ℕ) {p : Printer} (h : AtValue text p vs) :
    Outcome (fun q => q.lookups = p.lookups)
      (fun q => ∃ vs', AtValue text q vs' ∧ Takes vs p vs' q)
      (ansiRound text around fuel p) := by
  rw [ansiRound]
  refine (parameterValue_value fuel h).bind ?_
  rintro ⟨val, p₁⟩ ⟨h₁, hvs, heq₁⟩
  dsimp only at h₁ hvs heq₁ ⊢
  have happly := applyValue_between around fuel val h₁
  rw [heq₁] at happly
  refine Outcome.bind happly ?_
  rintro q ⟨vs', hq, ns, hnumbers, huses⟩
  rw [hvs]
  by_cases hsep : text q.s = semicolon
  · rw [Printer.skip_of_eq hsep]
    exact ⟨vs', hq.next hsep, ns, hnumbers, (huses.of_left heq₁).of_right rfl⟩
  · rw [Printer.skip_of_ne hsep]
    obtain ⟨rfl, hend⟩ := hq.eq_nil hsep
    refine ⟨[0], ⟨[], hend, rfl⟩, ns, hnumbers, (huses.of_left heq₁).of_right rfl⟩

end Parts

end Utopia
