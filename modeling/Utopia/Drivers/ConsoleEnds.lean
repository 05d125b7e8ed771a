/-
When printing comes to an end: every escape sequence has to end, with `m` or with the text.
-/
import Utopia.Drivers.ConsoleScan
import Mathlib.Data.Finset.Lattice.Fold
import Mathlib.Data.Finset.Range

namespace Utopia

/-- From `start` on parameters, then at `e` an `m` or a NUL. -/
structure EndsAt (text : Text) (start e : ℕ) : Prop where
  le : start ≤ e
  parameters : ∀ i, start ≤ i → i < e → IsParameter (text i)
  last : text e = 0 ∨ text e = letterM

def SequenceEnds (text : Text) (start : ℕ) : Prop := ∃ e, EndsAt text start e

/-- An escape sequence opens at `i` in a text of `size` bytes. -/
def Opens (text : Text) (size i : ℕ) : Prop :=
  i + 1 < size ∧ text i = escape ∧ text (i + 1) = openBracket

/-- Every round of the outer loops has moved the read position. -/
def Advances (p : Printer) : Prop := ∀ r ∈ p.rounds, r.1 < r.2

theorem EndsAt.not_isParameter {text : Text} {start e : ℕ} (h : EndsAt text start e) :
    ¬IsParameter (text e) := not_isParameter_of_end h.last

theorem EndsAt.scans_le {text : Text} {p q : Printer} {e : ℕ} (h : EndsAt text p.s e)
    (hscans : Scans text p q) : q.s ≤ e := hscans.le_of_not_isParameter h.le h.not_isParameter

/-- No round of a sequence that ends gets stuck. -/
theorem EndsAt.advances {text : Text} {p q : Printer} {e : ℕ} (h : EndsAt text p.s e)
    (hscans : Scans text p q) (hp : Advances p) : Advances q := by
  intro r hr
  rcases hscans.rounds r hr with hold | hlt | ⟨hstuck, hle, hle'⟩
  · exact hp r hold
  · exact hlt
  · have hle'' : q.s ≤ e := h.scans_le hscans
    rcases Nat.lt_or_ge r.1 e with hlt | hge
    · exact absurd (h.parameters r.1 hle hlt) hstuck.1
    · obtain rfl : e = r.1 := by omega
      rcases h.last with h0 | hm
      · exact absurd h0 hstuck.2.1
      · exact absurd hm hstuck.2.2

namespace Printer

/-- Behind the bracket of the sequence that opens at `p`. -/
def opened (p : Printer) : Printer := p.look.next.look.next

@[simp] theorem opened_s (p : Printer) : p.opened.s = p.s + 2 := rfl

@[simp] theorem opened_lookups (p : Printer) : p.opened.lookups = p.lookups := rfl

variable {text : Text} {c : Byte} {p : Printer}

variable (text) in
theorem skip_s_le : p.s ≤ (p.skip text c).s ∧ (p.skip text c).s ≤ p.s + 1 := by
  unfold skip
  split_ifs
  · exact ⟨Nat.le_succ _, Nat.le_refl _⟩
  · exact ⟨Nat.le_refl _, Nat.le_succ _⟩

@[simp] theorem skip_rounds : (p.skip text c).rounds = p.rounds := by
  unfold skip
  split_ifs <;> rfl

@[simp] theorem skip_lookups : (p.skip text c).lookups = p.lookups := by
  unfold skip
  split_ifs <;> rfl

@[simp] theorem skip_reads : (p.skip text c).reads = p.s :: p.reads := by
  unfold skip
  split_ifs <;> rfl

@[simp] theorem tested_s (testReads : Bool) (p : Printer) : (p.tested testReads).s = p.s := by
  cases testReads <;> rfl

@[simp] theorem tested_rounds (testReads : Bool) (p : Printer) :
    (p.tested testReads).rounds = p.rounds := by
  cases testReads <;> rfl

end Printer

section Parse

variable {text : Text} {around : ℤ → Word32} {p : Printer}

theorem parseAnsi_opened {fuel : ℕ} (hescape : text p.s = escape)
    (hbracket : text (p.s + 1) = openBracket) :
    parseAnsi text around fuel p =
      ansiLoop text around fuel p.opened >>= fun q => .ok (q.skip text letterM) := by
  have hnext : text p.look.next.s = openBracket := hbracket
  rw [parseAnsi, Printer.skip_of_eq hescape, Printer.skip_of_eq hnext]
  rfl

/-- What `parse_ansi` does at an escape sequence: it scans, and it ends with the sequence. -/
theorem parseAnsi_outcome (fuel : ℕ) (hescape : text p.s = escape)
    (hbracket : text (p.s + 1) = openBracket) :
    Outcome (Scans text p.opened)
      (fun q => ∃ r, Scans text p.opened r ∧ EndsAt text (p.s + 2) r.s ∧ q = r.skip text letterM)
      (parseAnsi text around fuel p) := by
  rw [parseAnsi_opened hescape hbracket]
  refine (ansiLoop_scans text around fuel p.opened).bind ?_
  rintro r ⟨hr, hlast⟩
  exact ⟨r, hr, ⟨hr.le, hr.parameters, hlast⟩, rfl⟩

variable (around) in
/-- A round does not run out of fuel that exceeds what is left to scan. -/
theorem ansiRound_ends (fuel : ℕ) {e : ℕ} (hle : p.s ≤ e) (he : ¬IsParameter (text e))
    (hfuel : e - p.s < fuel) :
    Outcome (fun _ => False) (fun q => Scans text p q ∧ (IsParameter (text p.s) → p.s < q.s))
      (ansiRound text around fuel p) := by
  refine (ansiRound_scans text around fuel p).mono (fun q hq => ?_) fun q hq => hq
  have hscanned : q.s ≤ e := hq.1.le_of_not_isParameter hle he
  have hspent := hq.2
  omega

theorem ansiLoop_ends (fuel : ℕ) {e : ℕ} (hend : EndsAt text p.s e) (hfuel : e - p.s + 1 < fuel) :
    Outcome (fun _ => False) (fun _ => True) (ansiLoop text around fuel p) := by
  induction fuel generalizing p with
  | zero => omega
  | succ fuel ih =>
      rw [ansiLoop]
      by_cases hlast : text p.s = 0 ∨ text p.s = letterM
      · rw [Printer.look_s, if_pos hlast]
        trivial
      · rw [Printer.look_s, if_neg hlast]
        have hlt : p.s < e := Nat.lt_of_le_of_ne hend.le fun h => hlast (h ▸ hend.last)
        have hparameter : IsParameter (text p.s) := hend.parameters _ (Nat.le_refl _) hlt
        have hround := ansiRound_ends around fuel (p := p.look) hend.le
          hend.not_isParameter (by rw [Printer.look_s]; omega)
        refine hround.bind ?_
        rintro q ⟨hq, hmoves⟩
        have hq' : p.s < q.s := hmoves hparameter
        have hle : q.s ≤ e := hend.scans_le ((Scans.look p).trans hq)
        have hrest : EndsAt text (q.noteRound p.s).s e :=
          ⟨hle, fun i hi hlt => hend.parameters i (hq'.le.trans hi) hlt, hend.last⟩
        exact ih hrest (by rw [Printer.noteRound_s]; omega)

theorem parseAnsi_ends {fuel e : ℕ} (hescape : text p.s = escape)
    (hbracket : text (p.s + 1) = openBracket) (hend : EndsAt text (p.s + 2) e)
    (hfuel : e - p.s ≤ fuel) :
    Outcome (fun _ => False) (fun _ => True) (parseAnsi text around fuel p) := by
  have hle := hend.le
  rw [parseAnsi_opened hescape hbracket]
  refine (ansiLoop_ends (p := p.opened) fuel hend ?_).bind fun q _ => trivial
  rw [Printer.opened_s]
  omega

end Parse

/-- How a printing loop over `n` bytes tests and opens. -/
structure LoopOver (text : Text) (n : ℕ) (more canOpen : ℕ → Bool) : Prop where
  more_of_lt : ∀ i, i < n → more i = true
  /-- A sequence may take the loop past `n`, unless a NUL stands there. -/
  stops : ∀ i, n ≤ i → (n < i → text n ≠ 0) → more i = false
  opens : ∀ i, i < n → text i = escape →
    (canOpen i = true ∧ text (i + 1) = openBracket ↔ Opens text n i)

section Loop

variable {text : Text} {around : ℤ → Word32} {n : ℕ} {more canOpen : ℕ → Bool}

theorem printRound_opens {fuel : ℕ} {p : Printer} (hescape : text p.s = escape)
    (hbracket : text (p.s + 1) = openBracket) :
    printRound text around fuel true p =
      parseAnsi text around fuel (p.look.lookAt (p.s + 1)) := by
  rw [printRound, Printer.look_s, if_pos ⟨rfl, hescape⟩]
  exact if_pos hbracket

/-- A round that draws the byte at `p`. -/
structure Draws (b : Bool) (p q : Printer) : Prop where
  s : q.s = p.s + 1
  rounds : q.rounds = p.rounds
  lookups : q.lookups = p.lookups
  kept : p.reads ⊆ q.reads
  reads : ∀ i ∈ q.reads, i ∈ p.reads ∨ i = p.s ∨ b = true ∧ i = p.s + 1

variable (text around) in
theorem printRound_draws (fuel : ℕ) (b : Bool) (p : Printer)
    (h : ¬(b = true ∧ text p.s = escape ∧ text (p.s + 1) = openBracket)) :
    ∃ q, printRound text around fuel b p = .ok q ∧ Draws b p q := by
  rw [printRound, Printer.look_s]
  by_cases hescape : b = true ∧ text p.s = escape
  · have hbracket : ¬text (p.s + 1) = openBracket := fun hb => h ⟨hescape.1, hescape.2, hb⟩
    rw [if_pos hescape]
    refine ⟨_, if_neg hbracket, rfl, rfl, rfl, ?_, ?_⟩
    · exact fun i hi => List.mem_cons_of_mem _ (List.mem_cons_of_mem _ hi)
    · intro i hi
      rcases List.mem_cons.1 hi with rfl | hi
      · exact Or.inr (Or.inr ⟨hescape.1, rfl⟩)
      · rcases List.mem_cons.1 hi with rfl | hi
        · exact Or.inr (Or.inl rfl)
        · exact Or.inl hi
  · rw [if_neg hescape]
    refine ⟨_, rfl, rfl, rfl, rfl, List.subset_cons_self _ _, ?_⟩
    intro i hi
    rcases List.mem_cons.1 hi with rfl | hi
    · exact Or.inr (Or.inl rfl)
    · exact Or.inl hi

variable (around) in
/-- What a round of the printing loops does at a position before `n`: it draws a byte, or a
sequence opens there and it ends behind the sequence. -/
theorem printRound_outcome (h : LoopOver text n more canOpen) (fuel : ℕ) (p : Printer)
    (hp : p.s < n) :
    Outcome (fun q => Opens text n p.s ∧ Scans text (p.look.lookAt (p.s + 1)).opened q)
      (fun q => (¬Opens text n p.s ∧ Draws (canOpen p.s) p q) ∨
        (Opens text n p.s ∧ ∃ r, Scans text (p.look.lookAt (p.s + 1)).opened r ∧
          EndsAt text (p.s + 2) r.s ∧ q = r.skip text letterM))
      (printRound text around fuel (canOpen p.s) p) := by
  by_cases hopens : Opens text n p.s
  · obtain ⟨hcan, -⟩ := (h.opens p.s hp hopens.2.1).2 hopens
    rw [hcan, printRound_opens hopens.2.1 hopens.2.2]
    exact (parseAnsi_outcome (p := p.look.lookAt (p.s + 1)) fuel hopens.2.1 hopens.2.2).mono
      (fun q hq => ⟨hopens, hq⟩) fun q hq => Or.inr ⟨hopens, hq⟩
  · obtain ⟨q, hq, hdraws⟩ := printRound_draws text around fuel
      (canOpen p.s) p fun hall =>
        hopens ((h.opens p.s hp hall.2.1).1 ⟨hall.1, hall.2.2⟩)
    rw [hq]
    exact Or.inl ⟨hopens, hdraws⟩

/-- What a finished round has done: it moved on, over no escape character behind its first. -/
structure RoundEnds (text : Text) (n : ℕ) (more : ℕ → Bool) (p q : Printer) : Prop where
  lt : p.s < q.s
  skipped : ∀ i, p.s < i → i < q.s → text i ≠ escape
  stops : n ≤ q.s → more q.s = false
  sequence : Opens text n p.s → SequenceEnds text (p.s + 2)

theorem Draws.roundEnds (h : LoopOver text n more canOpen) {b : Bool} {p q : Printer}
    (hp : p.s < n) (hopens : ¬Opens text n p.s) (hdraws : Draws b p q) :
    RoundEnds text n more p q where
  lt := by rw [hdraws.s]; exact Nat.lt_succ_self _
  skipped := fun i hi hlt => by rw [hdraws.s] at hlt; omega
  stops := fun hle => by
    rw [hdraws.s] at hle ⊢
    exact h.stops _ hle fun hlt => by omega
  sequence := fun hop => absurd hop hopens

theorem EndsAt.roundEnds (h : LoopOver text n more canOpen) {p r : Printer}
    (hopens : Opens text n p.s) (hend : EndsAt text (p.s + 2) r.s) :
    RoundEnds text n more p (r.skip text letterM) where
  lt := by
    have hle := hend.le
    have hskip := (Printer.skip_s_le text (c := letterM) (p := r)).1
    omega
  skipped := fun i hi hlt hescape => by
    have hskip := (Printer.skip_s_le text (c := letterM) (p := r)).2
    rcases Nat.lt_or_ge i (p.s + 2) with hnear | hfar
    · obtain rfl : i = p.s + 1 := by omega
      rw [hopens.2.2] at hescape
      exact absurd hescape (by decide)
    · rcases Nat.lt_or_ge i r.s with hinside | hlast
      · exact escape_not_isParameter (hescape ▸ hend.parameters i hfar hinside)
      · obtain rfl : i = r.s := by omega
        rcases hend.last with h0 | hm
        · exact absurd (hescape.symm.trans h0) (by decide)
        · exact absurd (hescape.symm.trans hm) (by decide)
  stops := fun hle => by
    refine h.stops _ hle fun hlt hnul => ?_
    have hstart : p.s + 1 < n := hopens.1
    -- a NUL at `n` ends the sequence there at the latest, and is not passed
    have hr : r.s ≤ n := Nat.le_of_not_lt fun hover => by
      have hparameter := hend.parameters n (by omega) hover
      rw [hnul] at hparameter
      exact absurd hparameter (by decide)
    have hskip := (Printer.skip_s_le text (c := letterM) (p := r)).2
    obtain rfl : n = r.s := by omega
    have hne : text r.s ≠ letterM := by rw [hnul]; decide
    rw [Printer.skip_of_ne hne] at hlt
    exact Nat.lt_irrefl _ hlt
  sequence := fun _ => ⟨r.s, hend⟩

variable (around) in
theorem printRound_roundEnds (h : LoopOver text n more canOpen) (fuel : ℕ) (p : Printer)
    (hp : p.s < n) :
    Outcome (fun _ => True) (RoundEnds text n more p)
      (printRound text around fuel (canOpen p.s) p) := by
  refine (printRound_outcome _ h fuel p hp).mono (fun _ _ => trivial) fun q hq => ?_
  rcases hq with ⟨hopens, hdraws⟩ | ⟨hopens, r, -, hend, rfl⟩
  · exact hdraws.roundEnds h hp hopens
  · exact hend.roundEnds h hopens

/-- Where the next sequence can open, one round later. -/
theorem RoundEnds.opens_from {p q : Printer} (h : RoundEnds text n more p q) {i : ℕ}
    (hle : p.s ≤ i) (hopens : Opens text n i) : i = p.s ∨ q.s ≤ i := by
  rcases Nat.eq_or_lt_of_le hle with heq | hlt
  · exact Or.inl heq.symm
  · exact Or.inr (Nat.le_of_not_lt fun hbefore => h.skipped i hlt hbefore hopens.2.1)

variable {testReads : Bool}

theorem printLoop_of_more {fuel : ℕ} {p : Printer} (hmore : more p.s = true) :
    printLoop text around more canOpen testReads (fuel + 1) p =
      printRound text around fuel (canOpen p.s) (p.tested testReads) >>= fun q =>
        printLoop text around more canOpen testReads fuel (q.noteRound p.s) := by
  rw [printLoop, Printer.tested_s, if_pos hmore]

theorem printLoop_of_stop {fuel : ℕ} {p : Printer} (hmore : more p.s = false) :
    printLoop text around more canOpen testReads (fuel + 1) p = .ok (p.tested testReads) := by
  rw [printLoop, Printer.tested_s, if_neg (by rw [hmore]; exact Bool.false_ne_true)]

/-- A loop that ends has met sequences that end only. -/
theorem printLoop_sequenceEnds (h : LoopOver text n more canOpen) (fuel : ℕ) (p : Printer) :
    Outcome (fun _ => True) (fun _ => ∀ i, p.s ≤ i → Opens text n i → SequenceEnds text (i + 2))
      (printLoop text around more canOpen testReads fuel p) := by
  induction fuel generalizing p with
  | zero => trivial
  | succ fuel ih =>
      rcases Nat.lt_or_ge p.s n with hlt | hge
      · rw [printLoop_of_more (h.more_of_lt _ hlt)]
        have hround := printRound_roundEnds around h fuel (p.tested testReads)
          (by rwa [Printer.tested_s])
        rw [Printer.tested_s] at hround
        refine hround.bind fun q hq => (ih (q.noteRound p.s)).mono (fun _ _ => trivial) ?_
        intro _ hrest i hle hopens
        rcases hq.opens_from (by rwa [Printer.tested_s]) hopens with rfl | hle'
        · exact hq.sequence hopens
        · exact hrest i hle' hopens
      · have hnone : ∀ i, p.s ≤ i → ¬Opens text n i := fun i hle hopens => by
          have hlt := hopens.1
          omega
        cases hresult : printLoop text around more canOpen testReads (fuel + 1) p with
        | error q => trivial
        | ok q => exact fun i hle hopens => absurd hopens (hnone i hle)

variable (around) in
/-- A round ends with the fuel that is left to scan. -/
theorem printRound_terminates (h : LoopOver text n more canOpen) (fuel : ℕ) {bound : ℕ}
    {p : Printer}
    (hp : p.s < n) (hfuel : bound ≤ fuel)
    (hends : Opens text n p.s → ∃ e ≤ bound, EndsAt text (p.s + 2) e) :
    Outcome (fun _ => False) (fun _ => True)
      (printRound text around fuel (canOpen p.s) p) := by
  by_cases hopens : Opens text n p.s
  · obtain ⟨hcan, -⟩ := (h.opens p.s hp hopens.2.1).2 hopens
    obtain ⟨e, hle, hend⟩ := hends hopens
    rw [hcan, printRound_opens hopens.2.1 hopens.2.2]
    exact parseAnsi_ends (p := p.look.lookAt (p.s + 1)) hopens.2.1 hopens.2.2 hend
      ((Nat.sub_le _ _).trans (hle.trans hfuel))
  · obtain ⟨q, hq, -⟩ := printRound_draws text around fuel
      (canOpen p.s) p fun hall =>
        hopens ((h.opens p.s hp hall.2.1).1 ⟨hall.1, hall.2.2⟩)
    rw [hq]
    trivial

/-- One bound for the ends of all sequences. -/
theorem exists_bound (hends : ∀ i, Opens text n i → SequenceEnds text (i + 2)) :
    ∃ bound, ∀ i, Opens text n i → ∃ e ≤ bound, EndsAt text (i + 2) e := by
  have hchoice : ∀ i, ∃ e, Opens text n i → EndsAt text (i + 2) e := fun i => by
    by_cases hopens : Opens text n i
    · obtain ⟨e, he⟩ := hends i hopens
      exact ⟨e, fun _ => he⟩
    · exact ⟨0, fun h => absurd h hopens⟩
  choose e he using hchoice
  refine ⟨(Finset.range n).sup e, fun i hopens => ⟨e i, ?_, he i hopens⟩⟩
  have hlt : i + 1 < n := hopens.1
  exact Finset.le_sup (Finset.mem_range.2 (by omega))

variable (around testReads) in
theorem printLoop_terminates (h : LoopOver text n more canOpen) {bound : ℕ}
    (hends : ∀ i, Opens text n i → ∃ e ≤ bound, EndsAt text (i + 2) e) (fuel : ℕ) (p : Printer)
    (hstop : n ≤ p.s → more p.s = false) (hfuel : n - p.s + bound + 1 ≤ fuel) :
    Outcome (fun _ => False) (fun _ => True)
      (printLoop text around more canOpen testReads fuel p) := by
  induction fuel generalizing p with
  | zero => omega
  | succ fuel ih =>
      rcases Nat.lt_or_ge p.s n with hlt | hge
      · rw [printLoop_of_more (h.more_of_lt _ hlt)]
        have hlt' : (p.tested testReads).s < n := by rwa [Printer.tested_s]
        have hround := printRound_roundEnds around h fuel _ hlt'
        have hfinishes := printRound_terminates around h fuel hlt'
          (by omega) fun hopens => hends _ hopens
        rw [Printer.tested_s] at hround hfinishes
        refine ((hround.and hfinishes).mono (fun _ hq => hq.2) fun _ hq => hq.1).bind ?_
        intro q hq
        have hmoves : p.s < q.s := by simpa using hq.lt
        refine ih (q.noteRound p.s) hq.stops ?_
        rw [Printer.noteRound_s]
        omega
      · rw [printLoop_of_stop (hstop hge)]
        trivial

/-- While every sequence ends, every round moves on. -/
theorem printLoop_advances (h : LoopOver text n more canOpen) (fuel : ℕ) (p : Printer)
    (hstop : n ≤ p.s → more p.s = false)
    (hends : ∀ i, Opens text n i → SequenceEnds text (i + 2)) (hp : Advances p) :
    Outcome Advances Advances (printLoop text around more canOpen testReads fuel p) := by
  induction fuel generalizing p with
  | zero => exact hp
  | succ fuel ih =>
      have htested : Advances (p.tested testReads) := by
        intro r hr
        rw [Printer.tested_rounds] at hr
        exact hp r hr
      rcases Nat.lt_or_ge p.s n with hlt | hge
      · have hlt' : (p.tested testReads).s < n := by rwa [Printer.tested_s]
        rw [printLoop_of_more (h.more_of_lt _ hlt), ← Printer.tested_s testReads p]
        have hround : Outcome Advances (fun q => Advances q ∧
            RoundEnds text n more (p.tested testReads) q)
            (printRound text around fuel (canOpen (p.tested testReads).s)
              (p.tested testReads)) := by
          refine ((printRound_outcome _ h fuel _ hlt').and
            (printRound_roundEnds _ h fuel _ hlt')).mono (fun q hq => ?_) fun q hq => ?_
          · obtain ⟨e, hend⟩ := hends _ hq.1.1
            exact hend.advances hq.1.2 htested
          · refine ⟨?_, hq.2⟩
            rcases hq.1 with ⟨-, hdraws⟩ | ⟨hopens, r, hr, hend, rfl⟩
            · intro x hx
              rw [hdraws.rounds] at hx
              exact htested x hx
            · intro x hx
              rw [Printer.skip_rounds] at hx
              exact hend.advances hr htested x hx
        refine hround.bind ?_
        rintro q ⟨hq, hround⟩
        refine ih _ hround.stops fun x hx => ?_
        rcases List.mem_cons.1 hx with rfl | hx
        · exact hround.lt
        · exact hq x hx
      · rw [printLoop_of_stop (hstop hge)]
        exact htested

/-- The printing ends, and no round of it was without progress. -/
def Finishes (run : ℕ → Except Printer Printer) : Prop :=
  (∃ fuel q, run fuel = .ok q) ∧ ∀ fuel, Outcome Advances Advances (run fuel)

theorem printLoop_finishes_iff (h : LoopOver text n more canOpen) (hempty : n = 0 → more 0 = false)
    (fg bg : Word32) :
    Finishes (fun fuel => printLoop text around more canOpen testReads fuel (.start fg bg)) ↔
      ∀ i, Opens text n i → SequenceEnds text (i + 2) := by
  have hstop : n ≤ (Printer.start fg bg).s → more (Printer.start fg bg).s = false :=
    fun hle => hempty (Nat.le_zero.1 hle)
  constructor
  · rintro ⟨⟨fuel, q, hq⟩, -⟩ i hopens
    exact (printLoop_sequenceEnds h fuel (.start fg bg)).of_ok hq i (Nat.zero_le i) hopens
  · intro hends
    obtain ⟨bound, hbound⟩ := exists_bound hends
    refine ⟨⟨n + bound + 1, ?_⟩, fun fuel => printLoop_advances h fuel _ hstop hends ?_⟩
    · have hresult := printLoop_terminates around testReads h hbound
        (n + bound + 1) (.start fg bg) hstop (Nat.le_refl _)
      cases hrun : printLoop text around more canOpen testReads (n + bound + 1) (.start fg bg) with
      | error q => exact (hresult.of_error hrun).elim
      | ok q => exact ⟨q, hrun⟩
    · rintro r ⟨⟩

end Loop

theorem loopOver_limit (text : Text) (size : ℕ) :
    LoopOver text size (fun i => i < size) (fun i => i + 1 < size) where
  more_of_lt := fun i hlt => decide_eq_true hlt
  stops := fun i hle _ => decide_eq_false (Nat.not_lt.2 hle)
  opens := fun i _ hescape => by
    rw [decide_eq_true_iff]
    exact ⟨fun h => ⟨h.1, hescape, h.2⟩, fun h => ⟨h.1, h.2.2⟩⟩

theorem loopOver_nul {text : Text} {n : ℕ} (hnul : text n = 0) (hfirst : ∀ i < n, text i ≠ 0) :
    LoopOver text n (fun i => text i ≠ 0) (fun _ => true) where
  more_of_lt := fun i hlt => decide_eq_true (hfirst i hlt)
  stops := fun i hle hover => by
    have hi : ¬n < i := fun hlt => hover hlt hnul
    obtain rfl : i = n := by omega
    exact decide_eq_false (not_not.2 hnul)
  opens := fun i hlt hescape => by
    refine ⟨fun h => ⟨?_, hescape, h.2⟩, fun h => ⟨rfl, h.2.2⟩⟩
    refine Nat.lt_of_le_of_ne hlt fun heq => ?_
    have hbracket : text n = openBracket := heq ▸ h.2
    rw [hnul] at hbracket
    exact absurd hbracket (by decide)

/-- Printing finishes exactly where every escape sequence, from its bracket on, holds digits
and semicolons up to an `m` or a NUL. -/
theorem console_finishes_iff (text : Text) (around : ℤ → Word32) (fg bg : Word32) :
    (∀ size, Finishes (userPrint text around size fg bg) ↔
      ∀ i, Opens text size i → SequenceEnds text (i + 2)) ∧
    ∀ n, text n = 0 → (∀ i < n, text i ≠ 0) →
      (Finishes (fun fuel => printStringInternal text around fuel (.start fg bg)) ↔
        ∀ i, Opens text n i → SequenceEnds text (i + 2)) := by
  refine ⟨fun size => ?_, fun n hnul hfirst => ?_⟩
  · exact printLoop_finishes_iff (loopOver_limit text size)
      (fun h => decide_eq_false (by omega)) fg bg
  · refine printLoop_finishes_iff (loopOver_nul hnul hfirst) (fun h => ?_) fg bg
    subst h
    exact decide_eq_false (not_not.2 hnul)

/-- `ESC [ 1 m A` -/
def boldText : Text := fun i => [escape, openBracket, 0x31, letterM, 0x41].getD i 0

theorem console_finishes_bold :
    Finishes (fun fuel => printStringInternal boldText (fun _ => 0) fuel (.start 0 0)) := by
  refine ((console_finishes_iff boldText (fun _ => 0) 0 0).2 5 rfl (by decide)).2 fun i hopens => ?_
  have honly : ∀ i < 5, boldText i = escape → i = 0 := by decide
  obtain rfl : i = 0 := honly i (Nat.lt_of_succ_lt hopens.1) hopens.2.1
  exact ⟨3, by decide, by decide, Or.inr rfl⟩

/-- `ESC [ K`, which erases to the end of the line on other consoles. -/
def eraseText : Text := fun i => [escape, openBracket, 0x4B].getD i 0

theorem not_console_finishes :
    ¬∀ text around size fg bg, Finishes (userPrint text around size fg bg) := by
  intro h
  have hfinishes := h eraseText (fun _ => 0) 3 0 0
  have hends := (printLoop_finishes_iff (loopOver_limit eraseText 3)
    (fun h => absurd h (by decide)) 0 0).1 hfinishes
  obtain ⟨e, hle, hparameters, hlast⟩ := hends 0 ⟨by decide, rfl, rfl⟩
  rcases Nat.eq_or_lt_of_le hle with rfl | hlt
  · exact absurd hlast (by decide)
  · exact absurd (hparameters 2 (Nat.le_refl _) hlt) (by decide)

end Utopia
