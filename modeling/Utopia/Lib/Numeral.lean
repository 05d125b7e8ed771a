/-
Positional notation over an alphabet of digits: the text of a number, its most significant
digit first, and the reading of a text.
-/
import Mathlib.Data.Nat.Digits.Lemmas

namespace Utopia

universe u

namespace Numeral

variable {χ : Type u}

/-- The digits of a number, none for zero. -/
def text (digit : ℕ → χ) (base n : ℕ) : List χ := ((base.digits n).map digit).reverse

/-- The number that a text stands for, when it is a text of digits below the base. -/
def read (value : χ → Option ℕ) (base : ℕ) (s : List χ) : Option ℕ :=
  if s.isEmpty then none
  else (s.mapM fun c => (value c).filter (· < base)).map fun ds => Nat.ofDigits base ds.reverse

/-- The same for a text that may start with a sign. -/
def readSigned [DecidableEq χ] (minus : χ) (value : χ → Option ℕ) (base : ℕ) (s : List χ) :
    Option ℤ :=
  if s.head? = some minus then (read value base s.tail).map fun n : ℕ => -(n : ℤ)
  else (read value base s).map Int.ofNat

variable {digit : ℕ → χ} {value : χ → Option ℕ} {base n : ℕ}

theorem mapM_map_eq_some {α : Type u} {f : ℕ → α} {g : α → Option ℕ} {l : List ℕ}
    (h : ∀ d ∈ l, g (f d) = some d) : (l.map f).mapM g = some l := by
  induction l with
  | nil => rfl
  | cons d l ih =>
      have hfirst := h d List.mem_cons_self
      have hrest := ih fun e he => h e (List.mem_cons_of_mem d he)
      rw [List.map_cons, List.mapM_cons, hfirst, hrest]
      rfl

theorem length_text (digit : ℕ → χ) (base n : ℕ) :
    (text digit base n).length = (base.digits n).length := by
  rw [text, List.length_reverse, List.length_map]

theorem length_text_le (digit : ℕ → χ) {k : ℕ} (hbase : 1 < base) (h : n < base ^ k) :
    (text digit base n).length ≤ k := by
  rw [length_text]
  exact (Nat.digits_length_le_iff hbase n).mpr h

theorem mem_text {c : χ} (hbase : 1 < base) (h : c ∈ text digit base n) :
    ∃ d < base, c = digit d := by
  rw [text, List.mem_reverse, List.mem_map] at h
  obtain ⟨d, hd, rfl⟩ := h
  exact ⟨d, Nat.digits_lt_base hbase hd, rfl⟩

/-- The first digit is not zero. -/
theorem head?_text (digit : ℕ → χ) (hbase : 1 < base) (hn : n ≠ 0) :
    ∃ d < base, d ≠ 0 ∧ (text digit base n).head? = some (digit d) := by
  have hne : base.digits n ≠ [] := Nat.digits_ne_nil_iff_ne_zero.mpr hn
  refine ⟨(base.digits n).getLast hne, ?_, Nat.getLast_digit_ne_zero base hn, ?_⟩
  · exact Nat.digits_lt_base hbase (List.getLast_mem hne)
  · rw [text, List.head?_reverse, List.getLast?_map, List.getLast?_eq_some_getLast hne]
    rfl

/-- What is written is read back. -/
theorem read_text (hvalue : ∀ d < base, value (digit d) = some d) (hbase : 1 < base)
    (hn : n ≠ 0) : read value base (text digit base n) = some n := by
  have hne : (text digit base n).isEmpty = false := by
    obtain ⟨d, -, -, hhead⟩ := head?_text digit hbase hn
    rw [List.isEmpty_eq_false_iff]
    intro hnil
    rw [hnil] at hhead
    cases hhead
  have hdigits : (text digit base n).mapM (fun c => (value c).filter (· < base)) =
      some (base.digits n).reverse := by
    rw [text, ← List.map_reverse]
    apply mapM_map_eq_some
    intro d hd
    have hlt := Nat.digits_lt_base hbase (List.mem_reverse.mp hd)
    rw [hvalue d hlt, Option.filter_some, if_pos (decide_eq_true hlt)]
  rw [read, hne, hdigits, if_neg Bool.false_ne_true, Option.map_some, List.reverse_reverse,
    Nat.ofDigits_digits]

section Signed

variable [DecidableEq χ] {minus : χ}

theorem readSigned_minus (minus : χ) (value : χ → Option ℕ) (base : ℕ) (s : List χ) :
    readSigned minus value base (minus :: s) = (read value base s).map fun n : ℕ => -(n : ℤ) :=
  if_pos rfl

theorem readSigned_of_head? {s : List χ} (h : s.head? ≠ some minus) :
    readSigned minus value base s = (read value base s).map Int.ofNat :=
  if_neg h

end Signed

end Numeral

end Utopia
