/-
What printing reads of its text, and which colours it looks up.
-/
import Utopia.Drivers.ConsoleColours

namespace Utopia

/-- Only bytes of the text were read, only entries of `ansi_colors` looked up. -/
def InBounds (size : ℕ) (p : Printer) : Prop :=
  (∀ i ∈ p.reads, i < size) ∧ ∀ i ∈ p.lookups, 0 ≤ i ∧ i < 16

/-- The sequence at `i` is not cut off by the end of the text. -/
def NotCut (text : Text) (size i : ℕ) : Prop :=
  ∃ e, i + 2 ≤ e ∧ e < size ∧ ¬IsParameter (text e)

/-- The numbers in the sequence at `i`. -/
def sequenceValues (text : Text) (size i : ℕ) : List Word32 :=
  values (parameters text (size - (i + 2)) (i + 2))

/-- No colour number of the sequence at `i` is negative as an `int`. -/
def NoNegativeColour (text : Text) (size i : ℕ) : Prop :=
  ∀ n ∈ colourNumbers (sequenceValues text size i), 0 ≤ n.toInt

/-- The printer comes to the sequence at `i`: those before it end. -/
def Reached (text : Text) (size i : ℕ) : Prop :=
  Opens text size i ∧ ∀ j < i, Opens text size j → SequenceEnds text (j + 2)

theorem NotCut.atValue {text : Text} {size i : ℕ} {p : Printer} (h : NotCut text size i)
    (hp : p.s = i + 2) : AtValue text p (sequenceValues text size i) := by
  obtain ⟨e, hle, hlt, he⟩ := h
  refine ⟨_, ?_, rfl⟩
  rw [hp]
  exact run_parameters hle (by omega) he

section Parse

variable {text : Text} {around : ℤ → Word32}

variable (around) in
/-- The run lemma: every index looked up comes from the palette ranges or is a colour number. -/
theorem ansiLoop_lookups {vs : List Word32} (fuel : ℕ) {p : Printer} (h : AtValue text p vs)
    (hcolours : ∀ n ∈ colourNumbers vs, 0 ≤ n.toInt) (hp : ∀ x ∈ p.lookups, 0 ≤ x ∧ x < 16) :
    Outcome (fun q => ∀ x ∈ q.lookups, 0 ≤ x ∧ x < 16) (fun q => ∀ x ∈ q.lookups, 0 ≤ x ∧ x < 16)
      (ansiLoop text around fuel p) := by
  induction fuel generalizing p vs with
  | zero => exact hp
  | succ fuel ih =>
      rw [ansiLoop]
      by_cases hlast : text p.s = 0 ∨ text p.s = letterM
      · rw [Printer.look_s, if_pos hlast]
        exact hp
      · rw [Printer.look_s, if_neg hlast]
        refine Outcome.bind ((ansiRound_takes fuel (p := p.look) h).mono
          (fun q hq => by rw [hq]; exact hp) fun q hq => hq) ?_
        rintro q ⟨vs', hq, ns, hnumbers, huses⟩
        rw [hnumbers] at hcolours
        refine ih (p := q.noteRound p.s) hq
          (fun n hn => hcolours n (List.mem_append_right _ hn)) fun x hx => ?_
        rcases huses.only x hx with hold | hpalette | ⟨n, hn, rfl, hlt⟩
        · exact hp x hold
        · exact hpalette
        · exact ⟨hcolours n (List.mem_append_left _ hn), hlt⟩

theorem ansiLoop_reads_first (fuel : ℕ) (p : Printer) :
    Outcome (fun q => p.s ∈ q.reads) (fun q => p.s ∈ q.reads)
      (ansiLoop text around (fuel + 1) p) := by
  have hread : p.s ∈ p.look.reads := List.mem_cons_self
  rw [ansiLoop]
  by_cases hlast : text p.s = 0 ∨ text p.s = letterM
  · rw [Printer.look_s, if_pos hlast]
    exact hread
  · rw [Printer.look_s, if_neg hlast]
    refine ((ansiRound_scans text around fuel p.look).mono (fun q hq => hq.1.kept hread)
      fun q hq => hq.1.kept hread).bind fun q hq => ?_
    exact (ansiLoop_scans text around fuel (q.noteRound p.s)).mono (fun r hr => hr.kept hq)
      fun r hr => hr.1.kept hq

/-- With fuel for what is left of the sequence, its colour numbers are looked up and the byte
behind its parameters is read. -/
theorem ansiLoop_reaches {vs : List Word32} {e : ℕ} (fuel : ℕ) {p : Printer}
    (h : AtValue text p vs) (hle : p.s ≤ e)
    (hparameters : ∀ i, p.s ≤ i → i < e → IsParameter (text i)) (he : ¬IsParameter (text e))
    (hfuel : e - p.s + 1 < fuel) :
    Outcome
      (fun q => e ∈ q.reads ∧ ∀ n ∈ colourNumbers vs, n.toInt < 16 → n.toInt ∈ q.lookups)
      (fun q => e ∈ q.reads ∧ ∀ n ∈ colourNumbers vs, n.toInt < 16 → n.toInt ∈ q.lookups)
      (ansiLoop text around fuel p) := by
  induction fuel generalizing p vs with
  | zero => omega
  | succ fuel ih =>
      rcases Nat.eq_or_lt_of_le hle with rfl | hlt
      · have hnone : colourNumbers vs = [] := by
          obtain ⟨w, hrun, rfl⟩ := h
          cases w with
          | nil => rfl
          | cons b w =>
              rw [hrun.1] at he
              exact absurd hrun.2.1 he
        rw [hnone]
        exact (ansiLoop_reads_first fuel p).mono
          (fun q hq => ⟨hq, fun n hn => absurd hn List.not_mem_nil⟩)
          fun q hq => ⟨hq, fun n hn => absurd hn List.not_mem_nil⟩
      · have hparameter : IsParameter (text p.s) := hparameters _ (Nat.le_refl _) hlt
        have hlast : ¬(text p.s = 0 ∨ text p.s = letterM) := fun hl =>
          not_isParameter_of_end hl hparameter
        rw [ansiLoop, Printer.look_s, if_neg hlast]
        have hround := (ansiRound_ends around fuel (p := p.look) hle he
          (Nat.lt_of_succ_lt_succ hfuel)).and (ansiRound_takes fuel (p := p.look) h)
        refine (hround.mono (fun q hq => hq.1.elim) fun q hq => hq).bind ?_
        rintro q ⟨⟨hscans, hmoves⟩, vs', hq, ns, hnumbers, huses⟩
        have hlt' : p.s < q.s := hmoves hparameter
        have hqe : q.s ≤ e := hscans.le_of_not_isParameter hle he
        have hkept : ∀ n ∈ ns, n.toInt < 16 → n.toInt ∈ (q.noteRound p.s).lookups := huses.used
        have hrest := (ih (p := q.noteRound p.s) hq hqe
          (fun i hi => hparameters i (hlt'.le.trans hi)) (by rw [Printer.noteRound_s]; omega)).and
          (ansiLoop_scans text around fuel (q.noteRound p.s))
        rw [hnumbers]
        refine hrest.mono (fun r hr => ⟨hr.1.1, fun n hn hn16 => ?_⟩)
          fun r hr => ⟨hr.1.1, fun n hn hn16 => ?_⟩
        · rcases List.mem_append.1 hn with hn | hn
          · exact hr.2.lookups (hkept n hn hn16)
          · exact hr.1.2 n hn hn16
        · rcases List.mem_append.1 hn with hn | hn
          · exact hr.2.1.lookups (hkept n hn hn16)
          · exact hr.1.2 n hn hn16

variable (around) in
/-- Where only parameters follow, the loop goes on for as long as there is fuel. -/
theorem ansiLoop_endless (fuel : ℕ) {p : Printer} (hall : ∀ i, p.s ≤ i → IsParameter (text i)) :
    Outcome (fun q => p.s + fuel ≤ q.s + 1) (fun _ => False) (ansiLoop text around fuel p) := by
  induction fuel generalizing p with
  | zero => exact Nat.le_succ _
  | succ fuel ih =>
      have hparameter : IsParameter (text p.s) := hall _ (Nat.le_refl _)
      have hlast : ¬(text p.s = 0 ∨ text p.s = letterM) := fun hl =>
        not_isParameter_of_end hl hparameter
      rw [ansiLoop, Printer.look_s, if_neg hlast]
      refine ((ansiRound_scans text around fuel p.look).mono (fun q hq => ?_) fun q hq => hq).bind ?_
      · have hspent : p.s + fuel ≤ q.s := hq.2
        omega
      · rintro q ⟨hscans, hmoves⟩
        have hlt : p.s < q.s := hmoves hparameter
        refine (ih (p := q.noteRound p.s) fun i hi => hall i (hlt.le.trans hi)).mono
          (fun r hr => ?_) fun r hr => hr
        rw [Printer.noteRound_s] at hr
        omega

theorem InBounds.scans {size e : ℕ} {p q : Printer} (hp : InBounds size p) (h : Scans text p q)
    (hle : q.s ≤ e) (he : e < size) (hq : ∀ x ∈ q.lookups, 0 ≤ x ∧ x < 16) : InBounds size q := by
  refine ⟨fun i hi => ?_, hq⟩
  rcases h.reads i hi with hold | hnew
  · exact hp.1 i hold
  · omega

theorem InBounds.skip {size : ℕ} {c : Byte} {p : Printer} (hp : InBounds size p)
    (hs : p.s < size) : InBounds size (p.skip text c) := by
  refine ⟨fun i hi => ?_, by rw [Printer.skip_lookups]; exact hp.2⟩
  rw [Printer.skip_reads] at hi
  rcases List.mem_cons.1 hi with rfl | hi
  · exact hs
  · exact hp.1 i hi

theorem InBounds.lookAt {size i : ℕ} {p : Printer} (hp : InBounds size p) (hi : i < size) :
    InBounds size (p.lookAt i) := by
  refine ⟨fun j hj => ?_, hp.2⟩
  rcases List.mem_cons.1 hj with rfl | hj
  · exact hi
  · exact hp.1 j hj

theorem InBounds.opened {size : ℕ} {p : Printer} (hp : InBounds size p) (hs : p.s + 1 < size) :
    InBounds size p.opened := by
  have hfirst : InBounds size p.look.next := hp.lookAt (Nat.lt_of_succ_lt hs)
  exact hfirst.lookAt hs

/-- A sequence that is neither cut off nor has a negative colour. -/
theorem parseAnsi_inBounds {size : ℕ} (fuel : ℕ) {p : Printer} (hopens : Opens text size p.s)
    (hcut : NotCut text size p.s) (hcolours : NoNegativeColour text size p.s)
    (hp : InBounds size p) :
    Outcome (InBounds size) (InBounds size) (parseAnsi text around fuel p) := by
  have hopened : InBounds size p.opened := hp.opened hopens.1
  have hvalue : AtValue text p.opened (sequenceValues text size p.s) := hcut.atValue rfl
  obtain ⟨e, hle, hlt, he⟩ := hcut
  rw [parseAnsi_opened hopens.2.1 hopens.2.2]
  have hloop := (ansiLoop_lookups around fuel hvalue hcolours hopened.2).and
    (ansiLoop_scans text around fuel p.opened)
  refine (hloop.mono (fun q hq => ?_) fun q hq => hq).bind ?_
  · exact hopened.scans hq.2 (hq.2.le_of_not_isParameter hle he) hlt hq.1
  · rintro q ⟨hlookups, hscans, -⟩
    have hqe : q.s ≤ e := hscans.le_of_not_isParameter hle he
    exact (hopened.scans hscans hqe hlt hlookups).skip (Nat.lt_of_le_of_lt hqe hlt)

theorem not_inBounds_skip {size : ℕ} {c : Byte} {p : Printer} (h : ¬InBounds size p) :
    ¬InBounds size (p.skip text c) := by
  intro hskip
  refine h ⟨fun i hi => hskip.1 i ?_, fun i hi => hskip.2 i ?_⟩
  · rw [Printer.skip_reads]
    exact List.mem_cons_of_mem _ hi
  · rw [Printer.skip_lookups]
    exact hi

/-- The first byte behind `i` that is no parameter. -/
theorem exists_first_not_isParameter {i : ℕ} (h : ∃ e, i ≤ e ∧ ¬IsParameter (text e)) :
    ∃ f, i ≤ f ∧ (∀ j, i ≤ j → j < f → IsParameter (text j)) ∧ ¬IsParameter (text f) := by
  refine ⟨Nat.find h, (Nat.find_spec h).1, fun j hj hlt => ?_, (Nat.find_spec h).2⟩
  exact Classical.byContradiction fun hnot => Nat.find_min h hlt ⟨hj, hnot⟩

variable (around) in
/-- A sequence that is cut off, or has a negative colour, is parsed out of bounds. -/
theorem parseAnsi_outOfBounds {size i : ℕ} (hopens : Opens text size i)
    (h : ¬(NotCut text size i ∧ NoNegativeColour text size i)) :
    ∃ least, ∀ fuel, least ≤ fuel → ∀ p : Printer, p.s = i →
      Outcome (fun q => ¬InBounds size q) (fun q => ¬InBounds size q)
        (parseAnsi text around fuel p) := by
  by_cases hfinite : ∃ e, i + 2 ≤ e ∧ ¬IsParameter (text e)
  · obtain ⟨f, hle, hparameters, hf⟩ := exists_first_not_isParameter hfinite
    refine ⟨f - i + 2, fun fuel hfuel p hp => ?_⟩
    subst hp
    obtain ⟨vs, hvalue, hvs⟩ : ∃ vs, AtValue text p.opened vs ∧
        (f < size → vs = sequenceValues text size p.s) := by
      by_cases hlt : f < size
      · exact ⟨_, NotCut.atValue ⟨f, hle, hlt, hf⟩ rfl, fun _ => rfl⟩
      · exact ⟨_, ⟨_, run_parameters (n := f + 1) hle (by omega) hf, rfl⟩, fun h => absurd h hlt⟩
    have hbad : ∀ q : Printer, (f ∈ q.reads ∧
        ∀ n ∈ colourNumbers vs, n.toInt < 16 → n.toInt ∈ q.lookups) → ¬InBounds size q := by
      rintro q ⟨hread, hlookups⟩ hq
      have hlt : f < size := hq.1 f hread
      refine h ⟨⟨f, hle, hlt, hf⟩, fun n hn => ?_⟩
      rw [← hvs hlt] at hn
      by_cases hn16 : n.toInt < 16
      · exact (hq.2 _ (hlookups n hn hn16)).1
      · omega
    rw [parseAnsi_opened hopens.2.1 hopens.2.2]
    refine ((ansiLoop_reaches fuel hvalue hle hparameters hf ?_).mono hbad hbad).bind
      fun q hq => not_inBounds_skip hq
    rw [Printer.opened_s]
    omega
  · have hall : ∀ j, i + 2 ≤ j → IsParameter (text j) := fun j hj =>
      Classical.byContradiction fun hnot => hfinite ⟨j, hj, hnot⟩
    refine ⟨size + 2, fun fuel hfuel p hp => ?_⟩
    subst hp
    rw [parseAnsi_opened hopens.2.1 hopens.2.2]
    have hloop := (ansiLoop_endless around fuel (p := p.opened) hall).and
      (ansiLoop_scans text around fuel p.opened)
    refine (hloop.mono (fun q hq hbounds => ?_) fun q hq => hq.1.elim).bind
      fun q hq => not_inBounds_skip hq
    have hstart : p.s + 1 < size := hopens.1
    have hspent : p.s + 2 + fuel ≤ q.s + 1 := hq.1
    have hread : size ∈ q.reads := hq.2.covered size hstart (by omega)
    exact Nat.lt_irrefl _ (hbounds.1 size hread)

end Parse

section Limit

variable {text : Text} {around : ℤ → Word32} {size : ℕ}

theorem not_inBounds_of_subset {p q : Printer} (h : ¬InBounds size p) (hreads : p.reads ⊆ q.reads)
    (hlookups : p.lookups ⊆ q.lookups) : ¬InBounds size q :=
  fun hq => h ⟨fun i hi => hq.1 i (hreads hi), fun i hi => hq.2 i (hlookups hi)⟩

theorem Printer.opened_reads (p : Printer) : p.reads ⊆ p.opened.reads :=
  fun _ hi => List.mem_cons_of_mem _ (List.mem_cons_of_mem _ hi)

theorem printRound_not_inBounds (fuel : ℕ) {p : Printer} (hp : p.s < size)
    (h : ¬InBounds size p) :
    Outcome (fun q => ¬InBounds size q) (fun q => ¬InBounds size q)
      (printRound text around fuel (p.s + 1 < size) p) := by
  have hopened : ¬InBounds size (p.look.lookAt (p.s + 1)).opened :=
    not_inBounds_of_subset h (fun i hi => Printer.opened_reads _
      (List.mem_cons_of_mem _ (List.mem_cons_of_mem _ hi))) (List.Subset.refl _)
  refine (printRound_outcome around (loopOver_limit text size) fuel p hp).mono
    (fun q hq => not_inBounds_of_subset hopened hq.2.kept hq.2.lookups) fun q hq => ?_
  rcases hq with ⟨-, hdraws⟩ | ⟨-, r, hscans, -, rfl⟩
  · exact not_inBounds_of_subset h hdraws.kept (by rw [hdraws.lookups]; exact List.Subset.refl _)
  · exact not_inBounds_skip (not_inBounds_of_subset hopened hscans.kept hscans.lookups)

theorem limit_not_inBounds (fuel : ℕ) {p : Printer} (h : ¬InBounds size p) :
    Outcome (fun q => ¬InBounds size q) (fun q => ¬InBounds size q)
      (printStringInternalLimit text around size fuel p) := by
  induction fuel generalizing p with
  | zero => exact h
  | succ fuel ih =>
      rw [printStringInternalLimit]
      rcases Nat.lt_or_ge p.s size with hlt | hge
      · rw [printLoop_of_more (decide_eq_true hlt)]
        exact (printRound_not_inBounds fuel hlt h).bind fun q hq => ih (p := q.noteRound p.s) hq
      · rw [printLoop_of_stop (decide_eq_false (Nat.not_lt.2 hge))]
        exact h

variable (around) in
/-- The loop comes to the sequence at `i`, and there its reads or its colours get out of bounds. -/
theorem limit_outOfBounds {i bound least : ℕ} (hopens : Opens text size i)
    (hends : ∀ j < i, Opens text size j → ∃ e ≤ bound, EndsAt text (j + 2) e)
    (hbad : ∀ fuel, least ≤ fuel → ∀ p : Printer, p.s = i →
      Outcome (fun q => ¬InBounds size q) (fun q => ¬InBounds size q)
        (parseAnsi text around fuel p)) (fuel : ℕ) {p : Printer} (hle : p.s ≤ i)
    (hfuel : i - p.s + bound + least + 1 ≤ fuel) :
    Outcome (fun q => ¬InBounds size q) (fun q => ¬InBounds size q)
      (printStringInternalLimit text around size fuel p) := by
  induction fuel generalizing p with
  | zero => omega
  | succ fuel ih =>
      have hlt : p.s < size := Nat.lt_of_le_of_lt hle (Nat.lt_of_succ_lt hopens.1)
      rw [printStringInternalLimit, printLoop_of_more (decide_eq_true hlt)]
      rcases Nat.eq_or_lt_of_le hle with heq | hbefore
      · rw [heq, decide_eq_true hopens.1]
        have hround : printRound text around fuel true p =
            parseAnsi text around fuel (p.look.lookAt (p.s + 1)) :=
          printRound_opens (heq ▸ hopens.2.1) (heq ▸ hopens.2.2)
        have hparse := hbad fuel (by omega) (p.look.lookAt (p.s + 1)) heq
        rw [← hround] at hparse
        exact hparse.bind fun q hq => limit_not_inBounds fuel (p := q.noteRound i) hq
      · have hround := (printRound_roundEnds around (loopOver_limit text size) fuel p
          hlt).and (printRound_terminates _ (loopOver_limit text size) fuel hlt
            (by omega) (hends p.s hbefore))
        refine (hround.mono (fun _ hq => hq.2.elim) fun _ hq => hq.1).bind fun q hq => ?_
        have hmoves : p.s < q.s := hq.lt
        have hqi : q.s ≤ i := (hq.opens_from hle hopens).resolve_left (Nat.ne_of_gt hbefore)
        refine ih (p := q.noteRound p.s) hqi ?_
        rw [Printer.noteRound_s]
        omega

/-- While the sequences that are reached are neither cut off nor have a negative colour. -/
theorem limit_inBounds (fuel : ℕ) {p : Printer} (hp : InBounds size p)
    (h : ∀ i, p.s ≤ i → Opens text size i →
      (∀ j, p.s ≤ j → j < i → Opens text size j → SequenceEnds text (j + 2)) →
      NotCut text size i ∧ NoNegativeColour text size i) :
    Outcome (InBounds size) (InBounds size)
      (printStringInternalLimit text around size fuel p) := by
  induction fuel generalizing p with
  | zero => exact hp
  | succ fuel ih =>
      rw [printStringInternalLimit]
      rcases Nat.lt_or_ge p.s size with hlt | hge
      · rw [printLoop_of_more (decide_eq_true hlt)]
        have hbounds : Outcome (InBounds size) (InBounds size)
            (printRound text around fuel (p.s + 1 < size) p) := by
          by_cases hopens : Opens text size p.s
          · obtain ⟨hcut, hcolours⟩ := h p.s (Nat.le_refl _) hopens fun j hj hlt => by omega
            rw [decide_eq_true hopens.1, printRound_opens hopens.2.1 hopens.2.2]
            exact parseAnsi_inBounds (p := p.look.lookAt (p.s + 1)) fuel hopens hcut hcolours
              ((hp.lookAt hlt).lookAt hopens.1)
          · obtain ⟨q, hq, hdraws⟩ := printRound_draws text around fuel
              (p.s + 1 < size) p fun hall => hopens
                ⟨of_decide_eq_true hall.1, hall.2.1, hall.2.2⟩
            rw [hq]
            refine ⟨fun i hi => ?_, by rw [hdraws.lookups]; exact hp.2⟩
            rcases hdraws.reads i hi with hold | rfl | ⟨hcan, rfl⟩
            · exact hp.1 i hold
            · exact hlt
            · exact of_decide_eq_true hcan
        have hround := hbounds.and
          (printRound_roundEnds around (loopOver_limit text size) fuel p hlt)
        refine (hround.mono (fun q hq => hq.1) fun q hq => hq).bind ?_
        rintro q ⟨hq, hends⟩
        refine ih (p := q.noteRound p.s) hq fun i hi hopens hbefore => ?_
        refine h i (hends.lt.le.trans hi) hopens fun j hj hji hopensj => ?_
        rcases hends.opens_from hj hopensj with rfl | hqj
        · exact hends.sequence hopensj
        · exact hbefore j hqj hji hopensj
      · rw [printLoop_of_stop (decide_eq_false (Nat.not_lt.2 hge))]
        exact hp

end Limit

/-- Printing stays within the text and the palette exactly where no sequence that it comes to
is cut off by the end of the text or has a colour number that is negative as an `int`. -/
theorem userPrint_inBounds_iff (text : Text) (around : ℤ → Word32) (size : ℕ) (fg bg : Word32) :
    (∀ fuel, Outcome (InBounds size) (InBounds size) (userPrint text around size fg bg fuel)) ↔
      ∀ i, Reached text size i → NotCut text size i ∧ NoNegativeColour text size i := by
  constructor
  · intro h i hreached
    by_contra hbad
    obtain ⟨least, hleast⟩ := parseAnsi_outOfBounds around hreached.1 hbad
    have hbefore : ∀ j < i, Opens text size j → Opens text i j := fun j hlt hj => by
      refine ⟨Nat.lt_of_le_of_ne hlt fun heq => ?_, hj.2⟩
      exact absurd ((heq ▸ hj.2.2).symm.trans hreached.1.2.1) (by decide)
    have hsmall : ∀ j, Opens text i j → Opens text size j := fun j hj =>
      ⟨hj.1.trans (Nat.lt_of_succ_lt hreached.1.1), hj.2⟩
    obtain ⟨bound, hbound⟩ := exists_bound (n := i) fun j hj =>
      hreached.2 j (Nat.lt_of_succ_lt hj.1) (hsmall j hj)
    have hrun := limit_outOfBounds around hreached.1
      (fun j hlt hj => hbound j (hbefore j hlt hj)) hleast (i + bound + least + 1)
      (p := .start fg bg) (Nat.zero_le i) (Nat.le_refl _)
    have hgood := h (i + bound + least + 1)
    rw [userPrint] at hgood
    cases hresult : printStringInternalLimit text around size (i + bound + least + 1)
        (.start fg bg) with
    | error q => exact hrun.of_error hresult (hgood.of_error hresult)
    | ok q => exact hrun.of_ok hresult (hgood.of_ok hresult)
  · intro h fuel
    refine limit_inBounds fuel ⟨?_, ?_⟩ fun i _ hopens hbefore =>
      h i ⟨hopens, fun j hlt hj => hbefore j (Nat.zero_le j) hlt hj⟩
    · rintro i ⟨⟩
    · rintro i ⟨⟩

/-- `ESC [ 3 8 ; 5 ; 2 1 4 7 4 8 3 6 4 8 m`, where the number is `INT_MIN`. -/
def negativeColourText : Text := fun i =>
  [escape, openBracket, 0x33, 0x38, semicolon, 0x35, semicolon, 0x32, 0x31, 0x34, 0x37, 0x34,
    0x38, 0x33, 0x36, 0x34, 0x38, letterM].getD i 0

/-- The cut sequence `ESC [` is read past its end, and the negative colour number indexes
`ansi_colors` before its start. -/
theorem not_userPrint_inBounds :
    (¬∀ text around size fg bg fuel,
      Outcome (fun p => ∀ i ∈ p.reads, i < size) (fun p => ∀ i ∈ p.reads, i < size)
        (userPrint text around size fg bg fuel)) ∧
    ¬∀ text around size fg bg fuel,
      Outcome (fun p : Printer => ∀ i ∈ p.lookups, 0 ≤ i ∧ i < 16)
        (fun p => ∀ i ∈ p.lookups, 0 ≤ i ∧ i < 16) (userPrint text around size fg bg fuel) := by
  constructor
  · intro h
    have hrun := h eraseText (fun _ => 0) 2 0 0 3
    revert hrun
    decide
  · intro h
    have hrun := h negativeColourText (fun _ => 0) 18 0 0 20
    revert hrun
    decide

end Utopia
