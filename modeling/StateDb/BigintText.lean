/-
  StateDb/BigintText.lean
  =======================
  **Bigints as text** (`bigint.h`: `to_string`, `size`, `sumof`, and `read` with the operators).

  Every number is printed as its numeral and read back as it was (`read_toString`).  `size`
  counts the digits of the numeral, none for zero.  `sumof` adds `c - '0'` over the
  characters, the sign included: a negative number comes out three short.  Both are `int`s,
  and right while the count and the sum are (`digits_spec`).

  Reading two numerals, computing and printing is arithmetic on the integers
  (`calculate_spec`).
-/
import StateDb.BigintDivision
import StateDb.BigintProduct

namespace StateDb

open Lib Lib.Radix Lib.Decimal

namespace Bigint

/-- The loop of `size`.  An `int` has ten digits at most. -/
def sizeLoop : Nat → Int → Int → Int
  | 0, ans, _ => ans
  | fuel + 1, ans, ca => if ca ≠ 0 then sizeLoop fuel (toInt (ans + 1)) (ca.tdiv 10) else ans

def size (b : Bigint) : Int :=
  match b.a.getLast? with
  | none => 0
  | some ca => sizeLoop 10 (toInt (toSize ((b.a.length - 1) * baseDigits))) ca

def sumof (b : Bigint) : Int :=
  b.toString.foldl (fun ans c => toInt (ans + (charVal c - 48))) 0

/-! ## Printing -/

theorem toString_ofInt (z : Int) : (ofInt z).toString = canonicalNumeral z := by
  have hnormal := normal_ofInt z
  have htrim : trim (ofInt z) = ofInt z :=
    (normal_trim hnormal.sign hnormal.digits).ext hnormal (value_trim _)
  have htext := toString_trim (a := Nat.digits (10 ^ 9) z.natAbs)
    (fun _ hx => Nat.digits_lt_base (by decide) hx) (z < 0)
  have hz : (if z < 0 then -(z.natAbs : Int) else z.natAbs) = z := by
    split <;> omega
  rw [Nat.ofDigits_digits, hz] at htext
  rwa [← htrim]

theorem length_decimal {n : Nat} (hn : n ≠ 0) : (decimal n).length = (Nat.digits 10 n).length := by
  rw [decimal, if_neg hn, List.length_reverse]

/-- The digits of a number: those of its last limb, and nine for each of the others. -/
theorem length_digits {low : List Nat} {top : Nat} (htop : top ≠ 0) (htopb : top < 10 ^ 9)
    (hlow : ∀ x ∈ low, x < 10 ^ 9) :
    (Nat.digits 10 (Nat.ofDigits (10 ^ 9) (low ++ [top]))).length =
      (Nat.digits 10 top).length + low.length * 9 := by
  have hlt : ∀ x ∈ low ++ [top], x < 10 ^ 9 := by
    intro x hx
    rcases List.mem_append.mp hx with hx | hx
    · exact hlow x hx
    · rwa [List.mem_singleton.mp hx]
  have hnumeral := limbNumeral_eq (by decide) hlt (by simpa using htop)
  have hne : Nat.ofDigits (10 ^ 9) (low ++ [top]) ≠ 0 := by
    intro hzero
    exact htop (Nat.digits_zero_of_eq_zero (by decide) hzero top (by simp))
  have hfill : ∀ x ∈ low.reverse, (padded 9 x).length = 9 := by
    intro x hx
    have hle := length_decimal_le (by decide) (hlow x (List.mem_reverse.mp hx))
    rw [padded, List.length_append, List.length_replicate]
    omega
  rw [← length_decimal hne, ← hnumeral, limbNumeral_append, List.length_append, length_decimal htop,
    List.length_flatMap, List.map_congr_left hfill, List.map_const', List.sum_replicate,
    List.length_reverse, smul_eq_mul]

theorem sizeLoop_spec {fuel m : Nat} (hm : m < 10 ^ fuel) {ans : Int} (h0 : 0 ≤ ans)
    (hans : ans + (Nat.digits 10 m).length < 2147483648) :
    sizeLoop fuel ans m = ans + (Nat.digits 10 m).length := by
  induction fuel generalizing m ans with
  | zero =>
    obtain rfl : m = 0 := by omega
    simp [sizeLoop]
  | succ fuel ih =>
    rw [sizeLoop]
    by_cases hzero : m = 0
    · simp [hzero]
    · have hdigits : (Nat.digits 10 m).length = (Nat.digits 10 (m / 10)).length + 1 := by
        rw [Nat.digits_def' (by decide) (by omega), List.length_cons]
      have hnext := @ih (m / 10) (by rw [pow_succ] at hm; omega) (ans + 1) (by omega) (by omega)
      rw [if_pos (by omega), toInt_of_range (by omega) (by omega),
        Int.tdiv_eq_ediv_of_nonneg (by omega), hdigits]
      push_cast at hnext ⊢
      rw [hnext]
      ring

theorem size_ofInt {z : Int} (hlen : (Nat.digits 10 z.natAbs).length < 2147483648) :
    (ofInt z).size = (Nat.digits 10 z.natAbs).length := by
  rcases List.eq_nil_or_concat' (Nat.digits (10 ^ 9) z.natAbs) with hnil | ⟨low, top, heq⟩
  · have hz := Nat.digits_eq_nil_iff_eq_zero.mp hnil
    simp [size, ofInt, hz]
  · have hvalue : Nat.ofDigits (10 ^ 9) (low ++ [top]) = z.natAbs := by
      rw [← heq, Nat.ofDigits_digits]
    have hlt : ∀ x ∈ low ++ [top], x < 10 ^ 9 := by
      rw [← heq]
      exact fun _ hx => Nat.digits_lt_base (by decide) hx
    have hz : z.natAbs ≠ 0 := Nat.digits_ne_nil_iff_ne_zero.mp (by rw [heq]; simp)
    have htop : top ≠ 0 := by
      have hlast := Nat.getLast_digit_ne_zero (10 ^ 9) hz
      simp only [heq, List.getLast_append_singleton] at hlast
      exact hlast
    have hdigits := @length_digits low top htop (hlt top (by simp))
      (fun x hx => hlt x (by simp [hx]))
    rw [hvalue] at hdigits
    have ha : (ofInt z).a = low.map Int.ofNat ++ [(top : Int)] := by
      rw [ofInt, heq, List.map_append]
      rfl
    have htopb : top < 10 ^ 10 := lt_trans (hlt top (by simp)) (by decide)
    have hlow : toInt (toSize (((ofInt z).a.length - 1) * baseDigits)) = low.length * 9 := by
      rw [ha, List.length_append, List.length_map, List.length_singleton, toSize]
      push_cast
      rw [Int.emod_eq_of_lt (by omega) (by omega), toInt_of_range (by omega) (by omega)]
      omega
    have hloop := @sizeLoop_spec 10 top htopb (low.length * 9) (by omega) (by omega)
    rw [size, hlow, ha, List.getLast?_concat]
    show sizeLoop 10 _ _ = _
    rw [hloop, hdigits]
    push_cast
    ring

/-- Digits are added up. -/
theorem foldl_digits {ds : List Nat} (hds : ∀ d ∈ ds, d < 10) {ans : Int} (h0 : -2147483648 ≤ ans)
    (hans : ans + ds.sum < 2147483648) :
    (ds.map digitChar).foldl (fun ans c => toInt (ans + (charVal c - 48))) ans = ans + ds.sum := by
  induction ds generalizing ans with
  | nil => simp
  | cons d ds ih =>
    have hd := hds d List.mem_cons_self
    have hval : charVal (digitChar d) - 48 = d := by
      rw [charVal_digit (isDigit_digitChar hd), digitVal_digitChar hd]
      omega
    rw [List.sum_cons, Nat.cast_add] at hans
    rw [List.map_cons, List.foldl_cons, hval, toInt_of_range (by omega) (by omega),
      @ih (fun e he => hds e (List.mem_cons_of_mem _ he)) (ans + d) (by omega) (by omega),
      List.sum_cons]
    push_cast
    ring

theorem sum_decimal (n : Nat) : (decimal n).sum = (Nat.digits 10 n).sum := by
  by_cases hn : n = 0
  · simp [decimal, hn]
  · rw [decimal, if_neg hn, List.sum_reverse]

theorem sumof_ofInt {z : Int} (hsum : (Nat.digits 10 z.natAbs).sum < 2147483648) :
    (ofInt z).sumof = (Nat.digits 10 z.natAbs).sum - if z < 0 then 3 else 0 := by
  have hds : ∀ d ∈ decimal z.natAbs, d < 10 := fun _ hd => lt_ten_of_mem_decimal hd
  rw [← sum_decimal] at hsum ⊢
  rw [sumof, toString_ofInt, canonicalNumeral, showInt]
  by_cases hneg : z < 0
  · rw [if_pos hneg, if_pos hneg, List.foldl_cons, decimalText]
    have hsign : toInt (0 + (charVal 45 - 48)) = -3 := by decide
    rw [hsign, foldl_digits hds (by omega) (by omega)]
    ring
  · rw [if_neg hneg, if_neg hneg, decimalText, foldl_digits hds (by omega) (by omega)]
    ring

/-- The text of a number, and the count of its digits and the sum of its characters while
they are `int`s. -/
theorem digits_spec {b : Bigint} (hb : b.CountedWith 0) :
    b.toString = canonicalNumeral b.value ∧
      ((Nat.digits 10 b.value.natAbs).length < 2147483648 →
        b.size = (Nat.digits 10 b.value.natAbs).length) ∧
      ((Nat.digits 10 b.value.natAbs).sum < 2147483648 →
        b.sumof = (Nat.digits 10 b.value.natAbs).sum - if b.value < 0 then 3 else 0) := by
  obtain ⟨z, hz⟩ : ∃ z, z = b.value := ⟨_, rfl⟩
  rw [← hz, hb.eq_ofInt, ← hz]
  exact ⟨toString_ofInt z, size_ofInt, sumof_ofInt⟩

theorem digits_spec_negative : toString ⟨[5, 123], -1⟩ = canonicalNumeral (-123000000005) ∧
    size ⟨[5, 123], -1⟩ = 12 ∧ sumof ⟨[5, 123], -1⟩ = 8 := by
  have hvalue : value ⟨[5, 123], -1⟩ = -123000000005 := by decide
  have hdigits : Nat.digits 10 (-123000000005 : Int).natAbs =
      [5, 0, 0, 0, 0, 0, 0, 0, 0, 3, 2, 1] := by
    show Nat.digits 10 123000000005 = _
    norm_num
  obtain ⟨htext, hsize, hsum⟩ := @digits_spec ⟨[5, 123], -1⟩ (by decide)
  rw [hvalue, hdigits] at hsize hsum
  rw [hvalue] at htext
  exact ⟨htext, hsize (by decide), hsum (by decide)⟩

/-! ## Reading -/

/-- The text of a number that `read` can measure. -/
structure Numeral where
  sign : List UInt8
  digits : List UInt8
  isSign : IsSign sign
  nonempty : digits ≠ []
  isDigit : ∀ c ∈ digits, IsDigit c
  short : (sign ++ digits).length < 2147483648

namespace Numeral

variable (n : Numeral)

def text : List UInt8 := n.sign ++ n.digits

def value : Int := signedVal n.sign n.digits

/-- A numeral is read as its integer. -/
theorem read_text : read n.text = some (ofInt n.value) := by
  have hdigits : ∀ d ∈ n.digits.reverse.map digitVal, d < 10 := by
    intro d hd
    obtain ⟨c, hc, rfl⟩ := List.mem_map.mp hd
    exact digitVal_lt (n.isDigit c (List.mem_reverse.mp hc))
  have hlimbs : Digits base ((limbs 8 (n.digits.reverse.map digitVal)).map Int.ofNat) := by
    intro x hx
    obtain ⟨d, hd, rfl⟩ := List.mem_map.mp hx
    have hlt := limbs_lt hdigits d hd
    have := base_eq
    simp only [Int.ofNat_eq_natCast]
    omega
  have hsign : (if n.sign = [45] then (-1 : Int) else 1) = 1 ∨
      (if n.sign = [45] then (-1 : Int) else 1) = -1 := by
    split
    · exact Or.inr rfl
    · exact Or.inl rfl
  rw [text, read_of_not_overruns (not_overruns n.short),
    readText_measured n.isSign n.nonempty n.isDigit n.short, Option.some_inj]
  refine (normal_trim hsign hlimbs).ext (normal_ofInt _) ?_
  rw [value_trim, value_ofInt, Bigint.value, limbsValue_ofNat, value, signedVal, numVal,
    ofDigits_limbs]
  split <;> simp

theorem abs_value_lt : |n.value| < 10 ^ n.digits.length := by
  have hnum := numVal_lt n.isDigit
  have habs : |n.value| = numVal n.digits := by
    rw [value, signedVal]
    split
    · rw [abs_neg, Int.abs_natCast]
    · exact Int.abs_natCast _
  rw [habs]
  exact_mod_cast hnum

/-- Nine digits make a limb. -/
theorem length_value : (ofInt n.value).a.length ≤ n.digits.length / 9 + 1 := by
  refine (normal_ofInt n.value).length_le ?_
  have hpow : (10 : Int) ^ n.digits.length ≤ (10 ^ 9) ^ (n.digits.length / 9 + 1) := by
    rw [← pow_mul]
    exact pow_le_pow_right₀ (by decide) (by omega)
  rw [value_ofInt, base_eq_pow]
  exact lt_of_lt_of_le n.abs_value_lt hpow

theorem counted_value : (ofInt n.value).a.length + 2 < 2147483648 := by
  have hlen := n.length_value
  have hshort := n.short
  rw [List.length_append] at hshort
  omega

/-- The numeral of an integer. -/
def ofValue (z : Int) (hlen : (canonicalNumeral z).length < 2147483648) : Numeral where
  sign := if z < 0 then [45] else []
  digits := decimalText z.natAbs
  isSign := by
    split
    · exact Or.inr (Or.inr rfl)
    · exact Or.inl rfl
  nonempty := decimalText_ne_nil _
  isDigit _ hc := isDigit_of_mem_decimalText hc
  short := by
    rw [canonicalNumeral, showInt] at hlen
    by_cases hneg : z < 0
    · rwa [if_pos hneg] at hlen ⊢
    · rwa [if_neg hneg] at hlen ⊢

theorem value_ofValue {z : Int} (hlen : (canonicalNumeral z).length < 2147483648) :
    (ofValue z hlen).value = z := by
  show signedVal (if z < 0 then [45] else []) (decimalText z.natAbs) = z
  by_cases hneg : z < 0
  · rw [if_pos hneg, signedVal, if_pos rfl, numVal_decimalText]
    omega
  · rw [if_neg hneg, signedVal, if_neg (by decide), numVal_decimalText]
    omega

theorem text_ofValue {z : Int} (hlen : (canonicalNumeral z).length < 2147483648) :
    (ofValue z hlen).text = canonicalNumeral z := by
  rw [text, ofValue, canonicalNumeral, showInt]
  split <;> rfl

end Numeral

/-- What is printed is read back. -/
theorem read_toString {b : Bigint} (hb : b.Normal) (hlen : b.toString.length < 2147483648) :
    read b.toString = some b := by
  obtain ⟨z, hz⟩ : ∃ z, z = b.value := ⟨_, rfl⟩
  rw [hb.eq_ofInt, ← hz, toString_ofInt] at hlen ⊢
  rw [← Numeral.text_ofValue hlen, Numeral.read_text, Numeral.value_ofValue]

theorem read_toString_negative : read (toString ⟨[5, 123], -1⟩) = some ⟨[5, 123], -1⟩ := by
  have hnumber : ofInt (-123000000005) = ⟨[5, 123], -1⟩ :=
    (normal_ofInt _).ext (by decide) (by rw [value_ofInt]; decide)
  have hdigits : Nat.digits 10 123000000005 = [5, 0, 0, 0, 0, 0, 0, 0, 0, 3, 2, 1] := by norm_num
  have hlen : (toString ⟨[5, 123], -1⟩).length < 2147483648 := by
    rw [← hnumber, toString_ofInt, canonicalNumeral, showInt, if_pos (by decide), decimalText,
      decimal, if_neg (by decide)]
    show (45 :: (Nat.digits 10 123000000005).reverse.map digitChar).length < _
    rw [hdigits]
    decide
  exact read_toString (by decide) hlen

/-! ## Computing -/

/-- `to_string` of a result. -/
def printed (x : Outcome ArithFault Bigint) : Outcome ArithFault (List UInt8) := do
  let r ← x
  .ok r.toString

theorem printed_returns {f : Nat → Outcome ArithFault Bigint} {z : Int} (h : Returns f (ofInt z)) :
    Returns (fun fuel => printed (f fuel)) (canonicalNumeral z) := by
  refine h.bind (.const ?_)
  rw [toString_ofInt]

/-- What is computed from numerals and printed is the numeral of the result. -/
theorem calculate_spec (m n : Numeral) :
    ∃ a b, read m.text = some a ∧ read n.text = some b ∧
      Returns (fun fuel => printed (plus fuel a b)) (canonicalNumeral (m.value + n.value)) ∧
      Returns (fun fuel => printed (minus fuel a b)) (canonicalNumeral (m.value - n.value)) ∧
      (m.digits.length ≤ 12882 ∨ n.digits.length ≤ 12882 →
        Returns (fun fuel => printed (times fuel a b)) (canonicalNumeral (m.value * n.value))) ∧
      (n.value ≠ 0 →
        Returns (fun fuel => printed (divide fuel a b))
            (canonicalNumeral (m.value.tdiv n.value)) ∧
          Returns (fun fuel => printed (modulo fuel a b))
            (canonicalNumeral (m.value.tmod n.value))) ∧
      (n.value = 0 →
        Faults (fun fuel => printed (divide fuel a b)) .emptyVector ∧
          Faults (fun fuel => printed (modulo fuel a b)) .emptyVector) := by
  have hmc := m.counted_value
  have hnc := n.counted_value
  have hm : (ofInt m.value).Counted := by
    unfold Counted
    omega
  have hn : (ofInt n.value).Counted := by
    unfold Counted
    omega
  refine ⟨ofInt m.value, ofInt n.value, m.read_text, n.read_text,
    printed_returns (plus_ofInt hm hn), printed_returns (minus_ofInt hm hn), ?_, ?_, ?_⟩
  · intro hlen
    refine printed_returns (times_ofInt ?_)
    exact hlen.imp
      (fun h => lt_of_lt_of_le m.abs_value_lt (pow_le_pow_right₀ (by decide) h))
      (fun h => lt_of_lt_of_le n.abs_value_lt (pow_le_pow_right₀ (by decide) h))
  · intro hne
    exact ⟨printed_returns (divide_ofInt hne hnc), printed_returns (modulo_ofInt hne hnc)⟩
  · intro hzero
    rw [hzero]
    exact ⟨(divide_zero (ofInt m.value)).bind _, (modulo_zero (ofInt m.value)).bind _⟩

end Bigint

end StateDb
