/-
The functions of `lib/string.c` on texts in memory.
-/
import Utopia.Lib.Copies
import Utopia.Lib.Texts

namespace Utopia

open Memory

/-! ### The code -/

/-- `strlen`; no result while the loop still runs. -/
def strlen (m : Memory) (str : Word) : (fuel : ℕ) → (len : ℕ) → Option ℕ
  | 0, _ => none
  | fuel + 1, len =>
      if m (str + BitVec.ofNat 64 len) ≠ 0 then strlen m str fuel (len + 1) else some len

/-- `strcpy`: the memory that it leaves. -/
def strcpy (m : Memory) (dest src : Word) : (fuel : ℕ) → Option Memory
  | 0 => none
  | fuel + 1 =>
      let c := m src
      let m := m.write8 dest c
      if c ≠ 0 then strcpy m (dest + 1) (src + 1) fuel else some m

/-- What `strcmp` and `strncmp` return of two bytes. -/
def byteDifference (a b : Byte) : Int := (a.toNat : Int) - b.toNat

/-- `strcmp`. -/
def strcmp (m : Memory) (s₁ s₂ : Word) : (fuel : ℕ) → Option Int
  | 0 => none
  | fuel + 1 =>
      if m s₁ ≠ 0 ∧ m s₁ = m s₂ then strcmp m (s₁ + 1) (s₂ + 1) fuel
      else some (byteDifference (m s₁) (m s₂))

/-- The loop of `strncmp`, which counts `n` down also when it ends: to -1 if all bytes agree. -/
def strncmpLoop (m : Memory) (s₁ s₂ : Word) : (n : ℕ) → Int
  | 0 => 0
  | n + 1 =>
      if m s₁ ≠ 0 ∧ m s₁ = m s₂ then strncmpLoop m (s₁ + 1) (s₂ + 1) n
      else byteDifference (m s₁) (m s₂)

/-- `strncmp`. -/
def strncmp (m : Memory) (s₁ s₂ n : Word) : Int :=
  if n = 0 then 0 else strncmpLoop m s₁ s₂ n.toNat

/-! ### The order of texts -/

/-- How two texts compare: by the first byte in which they differ, and a text is less than its
continuations. -/
def compareTexts : List Byte → List Byte → Int
  | [], [] => 0
  | [], b :: _ => byteDifference 0 b
  | a :: _, [] => byteDifference a 0
  | a :: s, b :: t => if a = b then compareTexts s t else byteDifference a b

section Order

variable {s t : List Byte} {a b : Byte}

theorem byteDifference_eq_zero : byteDifference a b = 0 ↔ a = b := by
  rw [byteDifference]
  constructor
  · intro h
    exact BitVec.eq_of_toNat_eq (by omega)
  · rintro rfl
    omega

theorem byteDifference_neg : byteDifference a b < 0 ↔ a < b := by
  rw [byteDifference, BitVec.lt_def]
  omega

theorem compareTexts_eq_zero (hs : 0 ∉ s) (ht : 0 ∉ t) : compareTexts s t = 0 ↔ s = t := by
  induction s generalizing t with
  | nil =>
      cases t with
      | nil => exact iff_of_true rfl rfl
      | cons b t =>
          rw [List.mem_cons, not_or] at ht
          rw [compareTexts, byteDifference_eq_zero]
          exact iff_of_false ht.1 (List.cons_ne_nil b t).symm
  | cons a s ih =>
      rw [List.mem_cons, not_or] at hs
      cases t with
      | nil =>
          rw [compareTexts, byteDifference_eq_zero]
          exact iff_of_false (Ne.symm hs.1) (List.cons_ne_nil a s)
      | cons b t =>
          rw [List.mem_cons, not_or] at ht
          rw [compareTexts, List.cons.injEq]
          split_ifs with heq
          · rw [ih hs.2 ht.2, and_iff_right heq]
          · rw [byteDifference_eq_zero]
            exact iff_of_false heq fun h => heq h.1

theorem compareTexts_neg (hs : 0 ∉ s) (ht : 0 ∉ t) : compareTexts s t < 0 ↔ s < t := by
  induction s generalizing t with
  | nil =>
      cases t with
      | nil => exact iff_of_false (lt_irrefl 0) (List.lt_irrefl [])
      | cons b t =>
          rw [List.mem_cons, not_or] at ht
          rw [compareTexts, byteDifference_neg]
          refine iff_of_true ?_ (List.nil_lt_cons b t)
          have hne : b.toNat ≠ 0 := fun h => ht.1 (BitVec.eq_of_toNat_eq h).symm
          rw [BitVec.lt_def]
          exact Nat.pos_of_ne_zero hne
  | cons a s ih =>
      rw [List.mem_cons, not_or] at hs
      cases t with
      | nil =>
          rw [compareTexts, byteDifference_neg]
          exact iff_of_false (BitVec.not_lt_zero) (List.not_lt_nil _)
      | cons b t =>
          rw [List.mem_cons, not_or] at ht
          rw [compareTexts, List.cons_lt_cons_iff]
          split_ifs with heq
          · rw [ih hs.2 ht.2]
            simp [heq]
          · rw [byteDifference_neg]
            simp [heq]

end Order

/-! ### The loops -/

section Loops

variable {m : Memory} {p q : Word} {s t : List Byte} {fuel : ℕ}

theorem strlen_eq (h : m.HoldsText p s) (hfuel : s.length < fuel) :
    strlen m p fuel 0 = some s.length := by
  have hbytes := holdsText_iff.mp h
  have hloop (k len : ℕ) (hlen : len + k = s.length) {fuel : ℕ} (hfuel : k < fuel) :
      strlen m p fuel len = some s.length := by
    induction k generalizing len fuel with
    | zero =>
        obtain ⟨fuel, rfl⟩ := Nat.exists_eq_succ_of_ne_zero (Nat.ne_of_gt hfuel)
        have hend : m (p + BitVec.ofNat 64 len) = 0 := by
          rw [hbytes.2 len (by omega), List.getD_eq_default _ _ (by omega)]
        rw [strlen, if_neg (not_not.mpr hend)]
        exact congrArg some hlen
    | succ k ih =>
        cases fuel with
        | zero => cases hfuel
        | succ fuel =>
            have hmore : m (p + BitVec.ofNat 64 len) ≠ 0 := by
              rw [hbytes.2 len (by omega), List.getD_eq_getElem _ _ (by omega)]
              exact fun hzero => hbytes.1 (hzero ▸ List.getElem_mem _)
            rw [strlen, if_pos hmore]
            exact ih (len + 1) (by omega) (Nat.lt_of_succ_lt_succ hfuel)
  exact hloop s.length 0 (Nat.zero_add _) hfuel

/-- `strcmp` compares texts. -/
theorem strcmp_eq (hp : m.HoldsText p s) (hq : m.HoldsText q t) (hfuel : s.length < fuel) :
    strcmp m p q fuel = some (compareTexts s t) := by
  induction s generalizing p q t fuel with
  | nil =>
      obtain ⟨fuel, rfl⟩ := Nat.exists_eq_succ_of_ne_zero (Nat.ne_of_gt hfuel)
      have hend : m p = 0 := hp
      rw [strcmp, if_neg fun h => h.1 hend, hend]
      cases t with
      | nil =>
          have hend' : m q = 0 := hq
          rw [hend']
          rfl
      | cons b t => rw [hq.2.1, compareTexts]
  | cons a s ih =>
      cases fuel with
      | zero => cases hfuel
      | succ fuel =>
          obtain ⟨hne, ha, hs⟩ := hp
          rw [strcmp, ha]
          cases t with
          | nil =>
              have hend' : m q = 0 := hq
              rw [hend', if_neg fun h => hne h.2, compareTexts]
          | cons b t =>
              obtain ⟨-, hb, ht⟩ := hq
              rw [hb, compareTexts, ih hs ht (Nat.lt_of_succ_lt_succ hfuel)]
              simp only [hne, ne_eq, not_false_eq_true, true_and]
              split_ifs <;> rfl

theorem strncmpLoop_eq (hp : m.HoldsText p s) (hq : m.HoldsText q t) (n : ℕ) :
    strncmpLoop m p q n = compareTexts (s.take n) (t.take n) := by
  induction n generalizing p q s t with
  | zero => rfl
  | succ n ih =>
      rw [strncmpLoop]
      cases s with
      | nil =>
          have hend : m p = 0 := hp
          rw [if_neg fun h => h.1 hend, hend, List.take_nil]
          cases t with
          | nil =>
              have hend' : m q = 0 := hq
              rw [hend']
              rfl
          | cons b t => rw [hq.2.1, List.take_succ_cons, compareTexts]
      | cons a s =>
          obtain ⟨hne, ha, hs⟩ := hp
          rw [ha, List.take_succ_cons]
          cases t with
          | nil =>
              have hend' : m q = 0 := hq
              rw [hend', if_neg fun h => hne h.2, List.take_nil, compareTexts]
          | cons b t =>
              obtain ⟨-, hb, ht⟩ := hq
              rw [hb, List.take_succ_cons, compareTexts, ih hs ht]
              simp only [hne, ne_eq, not_false_eq_true, true_and]

theorem strncmp_eq (hp : m.HoldsText p s) (hq : m.HoldsText q t) (n : Word) :
    strncmp m p q n = compareTexts (s.take n.toNat) (t.take n.toNat) := by
  rw [strncmp]
  split_ifs with hzero
  · rw [hzero]
    rfl
  · exact strncmpLoop_eq hp hq n.toNat

/-- The rest of `strcpy`, when `k` bytes are copied. -/
theorem strcpy_from {dest src : Word} (h : m.HoldsText src s)
    (hahead : (src - dest).toNat + s.length + 1 ≤ 2 ^ 64) {k : ℕ} (hk : k ≤ s.length)
    (hfuel : s.length - k < fuel) :
    strcpy (m.copy dest src k) (dest + BitVec.ofNat 64 k) (src + BitVec.ofNat 64 k) fuel =
      some (m.copy dest src (s.length + 1)) := by
  have hbytes := holdsText_iff.mp h
  have hnext (x : Word) (k : ℕ) : x + BitVec.ofNat 64 k + 1 = x + BitVec.ofNat 64 (k + 1) := by
    rw [BitVec.ofNat_add, BitVec.add_assoc]
    rfl
  induction fuel generalizing k with
  | zero => cases hfuel
  | succ fuel ih =>
      have hstep : (m.copy dest src k).write8 (dest + BitVec.ofNat 64 k)
          (m.copy dest src k (src + BitVec.ofNat 64 k)) = m.copy dest src (k + 1) :=
        copy_append_byte (by omega)
      have hread : m.copy dest src k (src + BitVec.ofNat 64 k) = s.getD k 0 := by
        rw [copy_ahead (by omega), hbytes.2 k hk]
      rw [strcpy, hstep, hread]
      by_cases hend : k = s.length
      · subst hend
        rw [List.getD_eq_default _ _ le_rfl, if_neg (not_not.mpr rfl)]
      · have hlt : k < s.length := by omega
        have hmore : s.getD k 0 ≠ 0 := by
          rw [List.getD_eq_getElem _ _ hlt]
          exact fun hzero => hbytes.1 (hzero ▸ List.getElem_mem _)
        rw [if_pos hmore, hnext, hnext]
        exact ih (by omega) (by omega)

end Loops

/-- `strcpy` leaves the text at its destination, byte for byte as it was, and everything else
alone, where the destination does not start within the text, behind its first byte. -/
theorem strcpy_copies {m : Memory} {dest src : Word} {s : List Byte} {fuel : ℕ}
    (h : m.HoldsText src s) (hahead : (src - dest).toNat + s.length + 1 ≤ 2 ^ 64)
    (hfuel : s.length < fuel) :
    ∃ m', strcpy m dest src fuel = some m' ∧ m'.HoldsText dest s ∧
      ∀ x, s.length < (x - dest).toNat → m' x = m x := by
  have hbytes := holdsText_iff.mp h
  have hloop := strcpy_from h hahead (Nat.zero_le _) hfuel
  rw [copy_zero, add_ofNat_zero, add_ofNat_zero] at hloop
  refine ⟨_, hloop, holdsText_iff.mpr ⟨hbytes.1, fun i hi => ?_⟩, fun x hx => ?_⟩
  · have hsub : dest + BitVec.ofNat 64 i - dest = BitVec.ofNat 64 i := by
      rw [BitVec.add_comm, BitVec.add_sub_cancel]
    have hnat : (BitVec.ofNat 64 i).toNat = i := by
      rw [BitVec.toNat_ofNat]
      exact Nat.mod_eq_of_lt (by omega)
    rw [copy, hsub, hnat, if_pos (by omega), hbytes.2 i hi]
  · exact if_neg (by omega)

/-- `strcmp` and `strncmp` order texts as their bytes do, without signs; `strncmp` looks at the
first `n` of them only. -/
theorem strings_ordered {m : Memory} {p q : Word} {s t : List Byte} (hp : m.HoldsText p s)
    (hq : m.HoldsText q t) (n : Word) {fuel : ℕ} (hfuel : s.length < fuel) :
    (∃ d, strcmp m p q fuel = some d ∧ (d = 0 ↔ s = t) ∧ (d < 0 ↔ s < t)) ∧
      (strncmp m p q n = 0 ↔ s.take n.toNat = t.take n.toNat) ∧
      (strncmp m p q n < 0 ↔ s.take n.toNat < t.take n.toNat) := by
  have hs := (holdsText_iff.mp hp).1
  have ht := (holdsText_iff.mp hq).1
  have hsTake : 0 ∉ s.take n.toNat := fun h => hs (List.mem_of_mem_take h)
  have htTake : 0 ∉ t.take n.toNat := fun h => ht (List.mem_of_mem_take h)
  rw [strncmp_eq hp hq]
  exact ⟨⟨compareTexts s t, strcmp_eq hp hq hfuel, compareTexts_eq_zero hs ht,
    compareTexts_neg hs ht⟩, compareTexts_eq_zero hsTake htTake, compareTexts_neg hsTake htTake⟩

/-- `ab` and `ac`, one behind the other. -/
def sampleTexts : Memory := Memory.store (fun _ => 0) 0x1000 [0x61, 0x62, 0, 0x61, 0x63]

theorem sampleTexts_first : sampleTexts.HoldsText 0x1000 [0x61, 0x62] :=
  ⟨by decide, by decide, by decide, by decide, (by decide : sampleTexts 0x1002 = 0)⟩

theorem sampleTexts_second : sampleTexts.HoldsText 0x1003 [0x61, 0x63] :=
  ⟨by decide, by decide, by decide, by decide, (by decide : sampleTexts 0x1005 = 0)⟩

theorem strcpy_copies_sample : ∃ m', strcpy sampleTexts 0x1001 0x1003 3 = some m' ∧
    m'.HoldsText 0x1001 [0x61, 0x63] ∧ ∀ x, 2 < (x - 0x1001).toNat → m' x = sampleTexts x :=
  strcpy_copies sampleTexts_second (by decide) (by decide)

theorem strings_ordered_sample :
    (∃ d, strcmp sampleTexts 0x1000 0x1003 3 = some d ∧
        (d = 0 ↔ [(0x61 : Byte), 0x62] = [0x61, 0x63]) ∧
        (d < 0 ↔ [(0x61 : Byte), 0x62] < [0x61, 0x63])) ∧
      (strncmp sampleTexts 0x1000 0x1003 1 = 0 ↔ [(0x61 : Byte)] = [0x61]) ∧
      (strncmp sampleTexts 0x1000 0x1003 1 < 0 ↔ [(0x61 : Byte)] < [0x61]) :=
  strings_ordered sampleTexts_first sampleTexts_second 1 (by decide)

end Utopia
