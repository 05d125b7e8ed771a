/-
`lib/numbers.c` and `str_reverse` of `lib/string.c`: a number is written as text into a buffer
of the caller.  A write behind the end of the buffer is `none`.
-/
import Mathlib.Data.BitVec
import Utopia.Lib.Buffer
import Utopia.Lib.Memory
import Utopia.Lib.Numeral

namespace Utopia

/-! ### The code -/

/-- The loop of `str_reverse`. -/
def strReverseLoop (str : List Byte) (i j : ℕ) : Option (List Byte) :=
  if i < j then do
    let tmp ← str[i]?
    let c ← str[j]?
    let str ← storeAt str i c
    let str ← storeAt str j tmp
    strReverseLoop str (i + 1) (j - 1)
  else some str
termination_by j - i

/-- `str_reverse`. -/
def strReverse (str : List Byte) (len : ℕ) : Option (List Byte) := strReverseLoop str 0 (len - 1)

/-- `while (value) { str[i++] = digit(value); value = next(value); }`, and `none` when the fuel
is spent before it ends. -/
def digitLoop (digit : Word → Byte) (next : Word → Word) :
    (fuel : ℕ) → Word → ℕ → List Byte → Option (ℕ × List Byte)
  | 0, _, _, _ => none
  | fuel + 1, value, i, str =>
      if value = 0 then some (i, str)
      else (storeAt str i (digit value)).bind (digitLoop digit next fuel (next value) (i + 1))

/-- The digit that the loop of `ultoa` writes. -/
def ultoaDigit (base value : Word) : Byte :=
  let r := value % base
  (if r < 10 then 0x30 + r else 0x61 + (r - 10)).setWidth 8

/-- The digit that the loop of `ltoa` writes. -/
def ltoaDigit (base value : Word) : Byte :=
  let r := value.srem base
  let r := if r.slt 0 then -r else r
  (if r.slt 10 then 0x30 + r else 0x61 + (r - 10)).setWidth 8

/-- `ultoa`; its result is the length, and the buffer. -/
def ultoa (value : Word) (str : List Byte) (base : BitVec 32) : Option (ℕ × List Byte) :=
  if value = 0 then do
    let str ← storeAt str 0 0x30
    let str ← storeAt str 1 0
    some (1, str)
  else do
    let base := base.signExtend 64
    let (i, str) ← digitLoop (ultoaDigit base) (· / base) 65 value 0 str
    let str ← storeAt str i 0
    let str ← strReverse str i
    some (i, str)

/-- `ltoa`, where the negation wraps. -/
def ltoa (value : Word) (str : List Byte) (base : BitVec 32) : Option (ℕ × List Byte) :=
  if value = 0 then do
    let str ← storeAt str 0 0x30
    let str ← storeAt str 1 0
    some (1, str)
  else
    let neg := value.slt 0 && base == 10
    let value := if neg then -value else value
    if base ≠ 10 then ultoa value str base
    else do
      let base := base.signExtend 64
      let (i, str) ← digitLoop (ltoaDigit base) (·.sdiv base) 65 value 0 str
      let (i, str) ← if neg then (storeAt str i 0x2d).map fun str => (i + 1, str) else some (i, str)
      let str ← storeAt str i 0
      let str ← strReverse str i
      some (i, str)

/-- `itoa`. -/
def itoa (value : BitVec 32) (str : List Byte) (base : BitVec 32) : Option (ℕ × List Byte) :=
  ltoa (value.signExtend 64) str base

/-! ### Texts -/

/-- The character of a digit. -/
def digitChar (d : ℕ) : Byte := BitVec.ofNat 8 (if d < 10 then 0x30 + d else 0x61 + (d - 10))

/-- The digit that a character shows. -/
def charValue (c : Byte) : Option ℕ :=
  if 0x30 ≤ c ∧ c ≤ 0x39 then some (c.toNat - 0x30)
  else if 0x61 ≤ c ∧ c ≤ 0x7a then some (c.toNat - 0x61 + 10)
  else none

/-- The buffer starts with the text `s` and a NUL. -/
structure HoldsText (str s : List Byte) : Prop where
  noNul : 0 ∉ s
  starts : s ++ [0] <+: str

/-- The text is the number in a base, without leading zeros. -/
structure ShowsUnsigned (base n : ℕ) (s : List Byte) : Prop where
  read : Numeral.read charValue base s = some n
  noZero : n ≠ 0 → s.head? ≠ some 0x30

/-- The text is the decimal number, with its sign. -/
def ShowsSigned (z : ℤ) (s : List Byte) : Prop :=
  Numeral.readSigned 0x2d charValue 10 s = some z

/-- A call has written a text with the property, its NUL included, into a buffer that it has
not left, and has returned the length of the text. -/
def Writes (str : List Byte) (shows : List Byte → Prop) (result : Option (ℕ × List Byte)) : Prop :=
  ∃ s out, result = some (s.length, out) ∧ shows s ∧ HoldsText out s ∧ out.length = str.length

variable {str : List Byte} {s done rest : List Byte} {d base n : ℕ}

theorem charValue_digitChar (h : d < 36) : charValue (digitChar d) = some d := by
  interval_cases d <;> rfl

theorem digitChar_ne_zero (h : d < 36) : digitChar d ≠ 0 := by
  interval_cases d <;> decide

theorem digitChar_ne_minus (h : d < 36) : digitChar d ≠ 0x2d := by
  interval_cases d <;> decide

theorem digitChar_ne_zeroDigit (h : d < 36) (hd : d ≠ 0) : digitChar d ≠ 0x30 := by
  interval_cases d <;> first | decide | exact absurd rfl hd

/-! ### Reversal in place -/

theorem getElem?_length (done rest : List Byte) (c : Byte) :
    (done ++ c :: rest)[done.length]? = some c := by
  rw [List.getElem?_append_right le_rfl, Nat.sub_self, List.getElem?_cons_zero]

theorem storeAt_length (done rest : List Byte) (c x : Byte) :
    storeAt (done ++ c :: rest) done.length x = some (done ++ x :: rest) := by
  rw [storeAt, if_pos (by simp), List.set_append_right _ _ le_rfl, Nat.sub_self, List.set_cons_zero]

/-- A round swaps the two ends of the part that is left. -/
theorem strReverseLoop_swap (done mid rest : List Byte) (x y : Byte) :
    strReverseLoop (done ++ x :: mid ++ y :: rest) done.length (done ++ x :: mid).length =
      strReverseLoop (done ++ [y] ++ mid ++ x :: rest) (done ++ [y]).length
        ((done ++ [y]).length + mid.length - 1) := by
  have hlt : done.length < (done ++ x :: mid).length := by simp
  have hx : (done ++ x :: mid ++ y :: rest)[done.length]? = some x := by
    rw [List.append_assoc, List.cons_append, getElem?_length]
  have hy := getElem?_length (done ++ x :: mid) rest y
  have hstore : storeAt (done ++ x :: mid ++ y :: rest) done.length y =
      some (done ++ y :: mid ++ y :: rest) := by
    rw [List.append_assoc, List.cons_append, storeAt_length, List.append_assoc, List.cons_append]
  have hstore' : storeAt (done ++ y :: mid ++ y :: rest) (done ++ x :: mid).length x =
      some (done ++ [y] ++ mid ++ x :: rest) := by
    have hlen : (done ++ x :: mid).length = (done ++ y :: mid).length := by simp
    rw [hlen, storeAt_length, List.append_assoc done [y], List.singleton_append]
  have hnext : (done ++ x :: mid).length - 1 = (done ++ [y]).length + mid.length - 1 := by
    simp only [List.length_cons, List.length_append, List.length_nil]
    omega
  have hstep : (done ++ [y]).length = done.length + 1 := List.length_append
  rw [strReverseLoop, if_pos hlt, hx, hy, ← hnext, hstep]
  change (storeAt _ _ y).bind (fun str => (storeAt str _ x).bind _) = _
  rw [hstore, Option.bind_some, hstore', Option.bind_some]

theorem strReverseLoop_eq (done mid rest : List Byte) :
    strReverseLoop (done ++ mid ++ rest) done.length (done.length + mid.length - 1) =
      some (done ++ mid.reverse ++ rest) := by
  induction mid using List.bidirectionalRec generalizing done rest with
  | nil => rw [strReverseLoop, if_neg (by simp), List.reverse_nil]
  | singleton x => rw [strReverseLoop, if_neg (by simp), List.reverse_singleton]
  | cons_append x mid y ih =>
      have hsplit : done ++ x :: (mid ++ [y]) ++ rest = done ++ x :: mid ++ y :: rest := by simp
      have hlast : done.length + (x :: (mid ++ [y])).length - 1 = (done ++ x :: mid).length := by
        simp only [List.length_cons, List.length_append, List.length_nil]
        omega
      rw [hsplit, hlast, strReverseLoop_swap, ih]
      simp

theorem strReverse_eq (s rest : List Byte) :
    strReverse (s ++ rest) s.length = some (s.reverse ++ rest) := by
  have h := strReverseLoop_eq [] s rest
  simpa [strReverse] using h

/-! ### The digits -/

/-- The loop writes the digits of the number that the variable stands for, the last one
first. -/
theorem digitLoop_eq (digit : Word → Byte) (next : Word → Word) (num : Word → ℕ) {base : ℕ}
    (hbase : 1 < base) (hzero : ∀ v, v = 0 ↔ num v = 0)
    (hdigit : ∀ v, digit v = digitChar (num v % base)) (hnext : ∀ v, num (next v) = num v / base)
    {fuel : ℕ} (value : Word) (done rest : List Byte) (hfuel : (base.digits (num value)).length < fuel)
    (hroom : (base.digits (num value)).length ≤ rest.length) :
    digitLoop digit next fuel value done.length (done ++ rest) =
      some ((done ++ (base.digits (num value)).map digitChar).length,
        done ++ (base.digits (num value)).map digitChar ++
          rest.drop (base.digits (num value)).length) := by
  induction fuel generalizing value done rest with
  | zero => omega
  | succ fuel ih =>
      rw [digitLoop]
      split_ifs with hvalue
      · simp [(hzero value).mp hvalue]
      · have hpos : 0 < num value := Nat.pos_of_ne_zero fun h => hvalue ((hzero value).mpr h)
        have hdigits := Nat.digits_of_two_le_of_pos hbase hpos
        rw [hdigits, List.length_cons] at hfuel hroom
        obtain ⟨c, rest, rfl⟩ := List.exists_cons_of_length_pos (Nat.lt_of_lt_of_le (Nat.succ_pos _) hroom)
        rw [← hnext] at hfuel hroom hdigits
        have hrest := ih (next value) (done ++ [digit value]) rest (by omega)
          (by simpa using hroom)
        rw [storeAt_length, Option.bind_some, hdigits, List.map_cons, ← hdigit, List.length_cons,
          List.drop_succ_cons]
        rw [List.length_append, List.length_singleton, List.append_assoc, List.singleton_append] at hrest
        rw [hrest]
        simp

theorem toNat_signExtend {base : BitVec 32} (h : base.toNat ≤ 36) :
    (base.signExtend 64).toNat = base.toNat := by
  have hmsb : base.msb = false := BitVec.msb_eq_false_iff_two_mul_lt.mpr (by omega)
  rw [BitVec.signExtend_eq_setWidth_of_msb_false hmsb, BitVec.toNat_setWidth]
  omega

theorem setWidth_digit {r : Word} (h : r.toNat < 36) :
    (if r.toNat < 10 then 0x30 + r else 0x61 + (r - 10)).setWidth 8 = digitChar r.toNat := by
  have hzero : (0x30 : Word).toNat = 0x30 := rfl
  have ha : (0x61 : Word).toNat = 0x61 := rfl
  have hten : (10 : Word).toNat = 10 := rfl
  apply BitVec.eq_of_toNat_eq
  rw [digitChar]
  split_ifs
  · simp only [BitVec.toNat_setWidth, BitVec.toNat_add, BitVec.toNat_ofNat, hzero]
    omega
  · simp only [BitVec.toNat_setWidth, BitVec.toNat_add, BitVec.toNat_sub, BitVec.toNat_ofNat, ha, hten]
    omega

theorem ultoaDigit_eq {base : Word} (hlow : 0 < base.toNat) (hhigh : base.toNat ≤ 36) (value : Word) :
    ultoaDigit base value = digitChar (value.toNat % base.toNat) := by
  have hr : (value % base).toNat = value.toNat % base.toNat := BitVec.toNat_umod
  have hlt := Nat.mod_lt value.toNat hlow
  rw [← hr] at hlt ⊢
  exact setWidth_digit (by omega)

theorem natAbs_srem (value : Word) : (value.srem 10).toInt.natAbs = value.toInt.natAbs % 10 := by
  rw [BitVec.toInt_srem]
  exact Int.natAbs_tmod _ _

theorem natAbs_sdiv (value : Word) : (value.sdiv 10).toInt.natAbs = value.toInt.natAbs / 10 := by
  rw [BitVec.toInt_sdiv_of_ne_or_ne _ _ (Or.inr (by decide))]
  exact Int.natAbs_tdiv _ _

theorem toNat_abs (r : Word) : (if r.slt 0 then -r else r).toNat = r.toInt.natAbs := by
  have hneg : r.slt 0 = true ↔ r.toInt < 0 := BitVec.slt_iff_toInt_lt
  have hlt := r.isLt
  have hint := BitVec.toInt_eq_toNat_cond r
  split_ifs at hint with hlow
  · rw [if_neg (by rw [hneg]; omega)]
    omega
  · rw [if_pos (hneg.mpr (by omega)), BitVec.toNat_neg]
    omega

theorem ltoaDigit_eq (value : Word) :
    ltoaDigit 10 value = digitChar (value.toInt.natAbs % 10) := by
  have hr := natAbs_srem value
  have hlt := Nat.mod_lt value.toInt.natAbs (by decide : 10 > 0)
  rw [← hr, ← toNat_abs] at hlt ⊢
  rw [ltoaDigit]
  generalize (if (value.srem 10).slt 0 then -(value.srem 10) else value.srem 10) = r at hlt ⊢
  have hten : r.slt 10 = true ↔ r.toNat < 10 := by
    rw [BitVec.slt_iff_toInt_lt, BitVec.toInt_eq_toNat_of_lt (by omega)]
    exact Int.ofNat_lt
  rw [← setWidth_digit (by omega)]
  simp only [hten]

/-- `str[i] = '\0'; str_reverse(str, i); return i;`. -/
theorem terminate_eq (s rest : List Byte) (c : Byte) :
    (do
      let str ← storeAt (s ++ c :: rest) s.length 0
      let str ← strReverse str s.length
      some (s.length, str)) = some (s.length, s.reverse ++ 0 :: rest) := by
  rw [storeAt_length]
  change (strReverse (s ++ 0 :: rest) s.length).bind _ = _
  rw [strReverse_eq, Option.bind_some]

/-! ### The two functions -/

/-- What `ultoa` writes for a value other than 0. -/
theorem ultoa_eq {value : Word} {base : BitVec 32} (hlow : 2 ≤ base.toNat) (hhigh : base.toNat ≤ 36)
    (hvalue : value ≠ 0)
    (hroom : (Numeral.text digitChar base.toNat value.toNat).length < str.length) :
    ∃ rest, ultoa value str base = some ((Numeral.text digitChar base.toNat value.toNat).length,
        Numeral.text digitChar base.toNat value.toNat ++ 0 :: rest) ∧
      (Numeral.text digitChar base.toNat value.toNat).length + (rest.length + 1) = str.length := by
  have hbase := toNat_signExtend hhigh
  have hfew : (Numeral.text digitChar base.toNat value.toNat).length ≤ 64 := by
    apply Numeral.length_text_le digitChar (by omega)
    calc value.toNat < 2 ^ 64 := value.isLt
      _ ≤ base.toNat ^ 64 := Nat.pow_le_pow_left hlow 64
  rw [Numeral.length_text] at hfew hroom ⊢
  have hloop := @digitLoop_eq (ultoaDigit (base.signExtend 64)) (· / base.signExtend 64)
    BitVec.toNat base.toNat (by omega)
    (fun v => BitVec.toNat_eq)
    (fun v => by rw [ultoaDigit_eq (by omega) (by omega), hbase])
    (fun v => by rw [BitVec.toNat_udiv, hbase]) 65 value [] str (by omega) (by omega)
  obtain ⟨c, rest, hrest⟩ := List.exists_cons_of_length_pos
    (l := str.drop (base.toNat.digits value.toNat).length) (by rw [List.length_drop]; omega)
  refine ⟨rest, ?_, ?_⟩
  · rw [List.nil_append, List.length_nil, List.nil_append, hrest] at hloop
    have hend := terminate_eq ((base.toNat.digits value.toNat).map digitChar) rest c
    rw [List.length_map] at hloop hend
    rw [ultoa, if_neg hvalue]
    change (digitLoop _ _ 65 value 0 str).bind _ = _
    rw [hloop, Option.bind_some]
    exact hend
  · have hlen := congrArg List.length hrest
    rw [List.length_drop, List.length_cons] at hlen
    omega

/-- Negation keeps the digits, also where it wraps. -/
theorem natAbs_neg (v : Word) : (-v).toInt.natAbs = v.toInt.natAbs := by
  have hlt := v.isLt
  have hv := BitVec.toInt_eq_toNat_cond v
  have hneg := BitVec.toInt_eq_toNat_cond (-v)
  rw [BitVec.toNat_neg] at hneg
  split_ifs at hv hneg <;> omega

theorem eq_zero_iff_natAbs (v : Word) : v = 0 ↔ v.toInt.natAbs = 0 := by
  rw [Int.natAbs_eq_zero]
  exact BitVec.toInt_inj.symm

/-- The text that `ltoa` writes in base 10 for a value other than 0. -/
def signedText (z : ℤ) : List Byte :=
  if z < 0 then 0x2d :: Numeral.text digitChar 10 z.natAbs else Numeral.text digitChar 10 z.natAbs

/-- `ltoa` in base 10, after its tests of the value and the base. -/
theorem ltoa_ten {value : Word} (hvalue : value ≠ 0) (str : List Byte) :
    ltoa value str 10 = (do
      let (i, str) ← digitLoop (ltoaDigit 10) (·.sdiv 10) 65
        (if value.slt 0 then -value else value) 0 str
      let (i, str) ← if value.slt 0 then (storeAt str i 0x2d).map fun str => (i + 1, str)
        else some (i, str)
      let str ← storeAt str i 0
      let str ← strReverse str i
      some (i, str)) := by
  have hten : (value.slt 0 && (10 : BitVec 32) == 10) = value.slt 0 := Bool.and_true _
  have hext : (10 : BitVec 32).signExtend 64 = 10 := by decide
  rw [ltoa, if_neg hvalue]
  dsimp only
  rw [hten, hext, if_neg (not_not.mpr rfl)]

/-- The sign and the end of the text, behind the digits `ds`. -/
theorem sign_eq (neg : Bool) (ds rest : List Byte) (c c' : Byte) :
    ∃ rest', (do
      let (i, str) ← if neg then
          (storeAt (ds ++ c :: c' :: rest) ds.length 0x2d).map fun str => (ds.length + 1, str)
        else some (ds.length, ds ++ c :: c' :: rest)
      let str ← storeAt str i 0
      let str ← strReverse str i
      some (i, str)) =
        some ((if neg then 0x2d :: ds.reverse else ds.reverse).length,
          (if neg then 0x2d :: ds.reverse else ds.reverse) ++ 0 :: rest') ∧
      (if neg then 0x2d :: ds.reverse else ds.reverse).length + (rest'.length + 1) =
        ds.length + (rest.length + 2) := by
  cases neg with
  | false =>
      have hend := terminate_eq ds (c' :: rest) c
      refine ⟨c' :: rest, ?_, ?_⟩
      · simpa using hend
      · simp
  | true =>
      have hend := terminate_eq (ds ++ [0x2d]) rest c'
      have hstore := storeAt_length ds (c' :: rest) c 0x2d
      refine ⟨rest, ?_, ?_⟩
      · rw [if_pos rfl, hstore]
        simpa using hend
      · simp
        omega

/-- What `ltoa` writes in base 10 for a value other than 0; the smallest value stays negative. -/
theorem ltoa_eq {value : Word} (hvalue : value ≠ 0)
    (hroom : (Numeral.text digitChar 10 value.toInt.natAbs).length + 1 < str.length) :
    ∃ rest, ltoa value str 10 =
        some ((signedText value.toInt).length, signedText value.toInt ++ 0 :: rest) ∧
      (signedText value.toInt).length + (rest.length + 1) = str.length := by
  have hfew : (Numeral.text digitChar 10 value.toInt.natAbs).length ≤ 64 := by
    apply Numeral.length_text_le digitChar (by decide)
    have hlt := value.isLt
    have hint := BitVec.toInt_eq_toNat_cond value
    have hpow : 2 ^ 64 < 10 ^ 64 := by decide
    split_ifs at hint <;> omega
  have hslt : value.slt 0 = true ↔ value.toInt < 0 := BitVec.slt_iff_toInt_lt
  have hnum : (if value.slt 0 then -value else value).toInt.natAbs = value.toInt.natAbs := by
    split_ifs
    · exact natAbs_neg value
    · rfl
  have htext : signedText value.toInt = if value.slt 0 then
      0x2d :: ((Nat.digits 10 value.toInt.natAbs).map digitChar).reverse
      else ((Nat.digits 10 value.toInt.natAbs).map digitChar).reverse := by
    simp only [signedText, hslt]
    rfl
  rw [Numeral.length_text] at hfew hroom
  have hloop := @digitLoop_eq (ltoaDigit 10) (·.sdiv 10) (fun v => v.toInt.natAbs) 10 (by decide)
    eq_zero_iff_natAbs ltoaDigit_eq natAbs_sdiv 65 (if value.slt 0 then -value else value) [] str
    (by rw [hnum]; omega) (by rw [hnum]; omega)
  rw [hnum, List.nil_append, List.length_nil, List.nil_append] at hloop
  obtain ⟨c, tail, hdrop⟩ := List.exists_cons_of_length_pos
    (l := str.drop (Nat.digits 10 value.toInt.natAbs).length) (by rw [List.length_drop]; omega)
  have hlen := congrArg List.length hdrop
  rw [List.length_drop, List.length_cons] at hlen
  obtain ⟨c', rest, rfl⟩ := List.exists_cons_of_length_pos (l := tail) (by omega)
  obtain ⟨rest', hsign, hrest⟩ := sign_eq (value.slt 0)
    ((Nat.digits 10 value.toInt.natAbs).map digitChar) rest c c'
  refine ⟨rest', ?_, ?_⟩
  · rw [ltoa_ten hvalue, hloop, htext, ← hsign, hdrop]
    rfl
  · rw [htext, hrest, List.length_map]
    rw [List.length_cons] at hlen
    omega

/-! ### Reading back -/

theorem holdsText_append (s rest : List Byte) (h : 0 ∉ s) : HoldsText (s ++ 0 :: rest) s where
  noNul := h
  starts := ⟨rest, by rw [List.append_assoc, List.singleton_append]⟩

theorem notMem_text {c : Byte} (hlow : 2 ≤ base) (hhigh : base ≤ 36)
    (hc : ∀ d < 36, digitChar d ≠ c) : c ∉ Numeral.text digitChar base n := by
  intro hmem
  obtain ⟨d, hd, heq⟩ := Numeral.mem_text (by omega) hmem
  exact hc d (by omega) heq.symm

theorem read_text (hlow : 2 ≤ base) (hhigh : base ≤ 36) (hn : n ≠ 0) :
    Numeral.read charValue base (Numeral.text digitChar base n) = some n :=
  Numeral.read_text (fun d hd => charValue_digitChar (by omega)) (by omega) hn

theorem showsUnsigned_text (hlow : 2 ≤ base) (hhigh : base ≤ 36) (hn : n ≠ 0) :
    ShowsUnsigned base n (Numeral.text digitChar base n) where
  read := read_text hlow hhigh hn
  noZero _ := by
    obtain ⟨d, hd, hne, hhead⟩ := Numeral.head?_text digitChar (by omega : 1 < base) hn
    rw [hhead, ne_eq, Option.some.injEq]
    exact digitChar_ne_zeroDigit (by omega) hne

theorem showsUnsigned_zero (hlow : 2 ≤ base) : ShowsUnsigned base 0 [0x30] where
  read := by
    have hlt : 0 < base := by omega
    simp [Numeral.read, charValue, Option.filter, hlt]
  noZero h := absurd rfl h

theorem showsSigned_zero : ShowsSigned 0 [0x30] := by
  rw [ShowsSigned]
  decide +kernel

theorem showsSigned_signedText {z : ℤ} (hz : z ≠ 0) : ShowsSigned z (signedText z) := by
  have hread := read_text (by decide : 2 ≤ 10) (by decide) (Int.natAbs_ne_zero.mpr hz)
  rw [ShowsSigned, signedText]
  split_ifs with hneg
  · rw [Numeral.readSigned_minus, hread, Option.map_some]
    congr 1
    omega
  · have hhead : (Numeral.text digitChar 10 z.natAbs).head? ≠ some 0x2d := fun h =>
      notMem_text (by decide) (by decide) (fun d hd => digitChar_ne_minus hd) (List.mem_of_mem_head? h)
    rw [Numeral.readSigned_of_head? hhead, hread, Option.map_some]
    congr 1
    exact Int.natAbs_of_nonneg (by omega)

theorem zero_notMem_signedText (z : ℤ) : 0 ∉ signedText z := by
  have hdigits : 0 ∉ Numeral.text digitChar 10 z.natAbs :=
    notMem_text (by decide) (by decide) fun d hd => digitChar_ne_zero hd
  rw [signedText]
  split_ifs
  · rw [List.mem_cons, not_or]
    exact ⟨by decide, hdigits⟩
  · exact hdigits

/-- Both functions write 0 in the same way. -/
theorem writes_zero {shows : List Byte → Prop} (hshows : shows [0x30]) (hroom : 2 ≤ str.length) :
    Writes str shows (do
      let str ← storeAt str 0 0x30
      let str ← storeAt str 1 0
      some (1, str)) := by
  obtain ⟨c, tail, rfl⟩ := List.exists_cons_of_length_pos (l := str) (by omega)
  obtain ⟨c', rest, rfl⟩ := List.exists_cons_of_length_pos (l := tail) (by
    rw [List.length_cons] at hroom
    omega)
  exact ⟨[0x30], _, rfl, hshows, holdsText_append [0x30] rest (by decide), rfl⟩

/-- `ultoa` needs room for the digits and the NUL. -/
theorem ultoa_writes {k : ℕ} {value : Word} {base : BitVec 32} (hlow : 2 ≤ base.toNat)
    (hhigh : base.toNat ≤ 36) (hk : value.toNat < base.toNat ^ k) (hpos : 0 < k)
    (hroom : k < str.length) :
    Writes str (ShowsUnsigned base.toNat value.toNat) (ultoa value str base) := by
  by_cases hvalue : value = 0
  · rw [ultoa, if_pos hvalue, hvalue]
    exact writes_zero (showsUnsigned_zero hlow) (by omega)
  · have hne : value.toNat ≠ 0 := fun h => hvalue (BitVec.eq_of_toNat_eq h)
    have hlen := Numeral.length_text_le digitChar (by omega) hk
    obtain ⟨rest, hrun, hrest⟩ := ultoa_eq hlow hhigh hvalue (Nat.lt_of_le_of_lt hlen hroom)
    refine ⟨_, _, hrun, showsUnsigned_text hlow hhigh hne, holdsText_append _ rest ?_, ?_⟩
    · exact notMem_text hlow hhigh fun d hd => digitChar_ne_zero hd
    · rw [List.length_append, List.length_cons]
      exact hrest

theorem ltoa_writes (value : Word) (hroom : 21 ≤ str.length) :
    Writes str (ShowsSigned value.toInt) (ltoa value str 10) := by
  by_cases hvalue : value = 0
  · rw [ltoa, if_pos hvalue, hvalue]
    exact writes_zero showsSigned_zero (by omega)
  · have hne : value.toInt ≠ 0 := fun h => hvalue (BitVec.toInt_inj.mp h)
    have hlen : (Numeral.text digitChar 10 value.toInt.natAbs).length ≤ 19 := by
      apply Numeral.length_text_le digitChar (by decide)
      have hlt := value.isLt
      have hint := BitVec.toInt_eq_toNat_cond value
      split_ifs at hint <;> omega
    have hlong : (Numeral.text digitChar 10 value.toInt.natAbs).length + 1 < str.length := by omega
    obtain ⟨rest, hrun, hrest⟩ := ltoa_eq hvalue hlong
    refine ⟨_, _, hrun, showsSigned_signedText hne,
      holdsText_append _ rest (zero_notMem_signedText _), ?_⟩
    rw [List.length_append, List.length_cons]
    exact hrest

/-- Numbers are read back from their texts, in every buffer that has room for the digits and the
NUL.  The texts in the bases 10 and 16 fit the 32 bytes of `printk` and the 64 bytes of
`vprintf`. -/
theorem number_formatting :
    (∀ (value : Word) (base : BitVec 32) (str : List Byte), 2 ≤ base.toNat → base.toNat ≤ 36 →
      max 1 (base.toNat.digits value.toNat).length < str.length →
      Writes str (ShowsUnsigned base.toNat value.toNat) (ultoa value str base)) ∧
    (∀ (value : Word) (base : BitVec 32) (str : List Byte), base = 10 ∨ base = 16 →
      32 ≤ str.length → Writes str (ShowsUnsigned base.toNat value.toNat) (ultoa value str base)) ∧
    (∀ (value : Word) (str : List Byte), 32 ≤ str.length →
      Writes str (ShowsSigned value.toInt) (ltoa value str 10)) := by
  refine ⟨fun value base str hlow hhigh hroom => ?_, fun value base str hbase hroom => ?_,
    fun value str hroom => ltoa_writes value (by omega)⟩
  · refine ultoa_writes hlow hhigh ?_ (Nat.lt_of_lt_of_le Nat.one_pos (le_max_left _ _)) hroom
    calc value.toNat < base.toNat ^ (base.toNat.digits value.toNat).length :=
          Nat.lt_base_pow_length_digits (by omega)
      _ ≤ _ := Nat.pow_le_pow_right (by omega) (le_max_right _ _)
  · have hlt := value.isLt
    rcases hbase with rfl | rfl
    · exact ultoa_writes (k := 20) (by decide) (by decide)
        (Nat.lt_trans hlt (by decide)) (by decide) (by omega)
    · exact ultoa_writes (k := 16) (by decide) (by decide)
        (Nat.lt_of_lt_of_le hlt (by decide)) (by decide) (by omega)

theorem number_formatting_sample :
    Writes (List.replicate 3 0) (ShowsUnsigned 36 (35 : Word).toNat)
        (ultoa 35 (List.replicate 3 0) 36) ∧
      Writes (List.replicate 32 0) (ShowsUnsigned 16 (255 : Word).toNat)
        (ultoa 255 (List.replicate 32 0) 16) ∧
      Writes (List.replicate 32 0) (ShowsSigned (-1 : Word).toInt)
        (ltoa (-1) (List.replicate 32 0) 10) :=
  ⟨number_formatting.1 35 36 _ (by decide) (by decide) (by simp),
    number_formatting.2.1 255 16 _ (Or.inr rfl) (by decide),
    number_formatting.2.2 (-1) _ (by decide)⟩

end Utopia
