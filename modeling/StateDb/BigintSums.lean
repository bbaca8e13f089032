/-
  StateDb/BigintSums.lean
  =======================
  **Sums and differences of bigints** (`bigint.h`: `operator+`, `operator-`).

  `operator+` of equal signs adds limb by limb into a copy of the second number and goes on
  while there is a carry; of unequal signs it subtracts the negative.  `operator-` of equal
  signs takes the smaller number from a copy of the larger one and negates the result if it
  had to change sides; its loop reads the limbs of the copy without asking whether they are
  there.  The two operators call each other, two times at most.

  On normal bigints both are exact: the result is the normal bigint of the sum or of the
  difference and no limb past the end is touched (`sums_spec`).  A carry out of the last limb
  makes one more, which the index must count.  The negative that is made of zero on the way is
  not normal, and does no harm.
-/
import StateDb.BigintOrder
import StateDb.Lib.Outcome
import Mathlib.Tactic.LinearCombination

namespace StateDb

open Lib Lib.Radix

/-- What the arithmetic of bigints can do that has no meaning. -/
inductive ArithFault
  /-- A limb past the end is used. -/
  | indexOutOfRange
  /-- `back()` of a vector that is empty. -/
  | emptyVector
  | divisionByZero
deriving DecidableEq, Repr

namespace Bigint

/-- One limb of `operator+`: the limb, and whether there is a carry. -/
def plusLimb (r x : Int) (carry : Bool) : Int × Bool :=
  let s := toInt (r + toInt (carry.toInt + x))
  if base ≤ s then (toInt (s - base), true) else (s, false)

/-- The loop of `operator+` behind the limbs of `a`. -/
def plusRest : List Int → Bool → List Int
  | r :: rs, carry => (plusLimb r 0 carry).1 :: plusRest rs (plusLimb r 0 carry).2
  | [], true => [(plusLimb 0 0 true).1]
  | [], false => []

/-- The loop of `operator+`: the limbs of `a` onto those of `res.a`. -/
def plusLimbs : List Int → List Int → Bool → List Int
  | x :: xs, r :: rs, carry =>
      (plusLimb r x carry).1 :: plusLimbs xs rs (plusLimb r x carry).2
  | x :: xs, [], carry => (plusLimb 0 x carry).1 :: plusLimbs xs [] (plusLimb 0 x carry).2
  | [], rs, carry => plusRest rs carry

/-- One limb of `operator-`. -/
def minusLimb (r x : Int) (carry : Bool) : Int × Bool :=
  let s := toInt (r - toInt (carry.toInt + x))
  if s < 0 then (toInt (s + base), true) else (s, false)

/-- The loop of `operator-`: the limbs of `v.a` from those of `res.a`. -/
def minusLimbs : List Int → List Int → Bool → Outcome ArithFault (List Int)
  | rs, [], false => .ok rs
  | [], [], true => .fault .indexOutOfRange
  | [], _ :: _, _ => .fault .indexOutOfRange
  | r :: rs, [], true => do
      let rest ← minusLimbs rs [] (minusLimb r 0 true).2
      .ok ((minusLimb r 0 true).1 :: rest)
  | r :: rs, x :: xs, carry => do
      let rest ← minusLimbs rs xs (minusLimb r x carry).2
      .ok ((minusLimb r x carry).1 :: rest)

mutual

/-- `operator+`. -/
def plus : Nat → Bigint → Bigint → Outcome ArithFault Bigint
  | 0, _, _ => .outOfFuel
  | fuel + 1, b, v =>
      if b.sign = v.sign then .ok { v with a := plusLimbs b.a v.a false }
      else minus fuel b v.negate

/-- `operator-`. -/
def minus : Nat → Bigint → Bigint → Outcome ArithFault Bigint
  | 0, _, _ => .outOfFuel
  | fuel + 1, b, v =>
      if b.sign = v.sign then
        if greaterEqual b.abs v.abs then do
          let a ← minusLimbs b.a v.a false
          .ok (trim { b with a })
        else do
          let r ← minus fuel v b
          .ok r.negate
      else plus fuel b v.negate

end

/-! ## The limbs -/

theorem plusLimb_spec {r x : Int} (carry : Bool) (hr : 0 ≤ r ∧ r < base) (hx : 0 ≤ x ∧ x < base) :
    (plusLimb r x carry).1 + base * (plusLimb r x carry).2.toInt = r + x + carry.toInt ∧
      0 ≤ (plusLimb r x carry).1 ∧ (plusLimb r x carry).1 < base := by
  have hbase := base_eq
  have hcarry : carry.toInt = 0 ∨ carry.toInt = 1 := by
    cases carry
    · exact Or.inl rfl
    · exact Or.inr rfl
  have hsum : toInt (r + toInt (carry.toInt + x)) = r + x + carry.toInt := by
    rw [toInt_of_range (n := carry.toInt + x) (by omega) (by omega),
      toInt_of_range (by omega) (by omega)]
    omega
  unfold plusLimb
  rw [hsum]
  by_cases hover : base ≤ r + x + carry.toInt
  · rw [if_pos hover, toInt_of_range (by omega) (by omega)]
    simp only [Bool.toInt_true]
    omega
  · rw [if_neg hover]
    simp only [Bool.toInt_false]
    omega

theorem minusLimb_spec {r x : Int} (carry : Bool) (hr : 0 ≤ r ∧ r < base) (hx : 0 ≤ x ∧ x < base) :
    (minusLimb r x carry).1 - base * (minusLimb r x carry).2.toInt = r - x - carry.toInt ∧
      0 ≤ (minusLimb r x carry).1 ∧ (minusLimb r x carry).1 < base := by
  have hbase := base_eq
  have hcarry : carry.toInt = 0 ∨ carry.toInt = 1 := by
    cases carry
    · exact Or.inl rfl
    · exact Or.inr rfl
  have hdiff : toInt (r - toInt (carry.toInt + x)) = r - x - carry.toInt := by
    rw [toInt_of_range (n := carry.toInt + x) (by omega) (by omega),
      toInt_of_range (by omega) (by omega)]
    omega
  unfold minusLimb
  rw [hdiff]
  by_cases hunder : r - x - carry.toInt < 0
  · rw [if_pos hunder, toInt_of_range (by omega) (by omega)]
    simp only [Bool.toInt_true]
    omega
  · rw [if_neg hunder]
    simp only [Bool.toInt_false]
    omega

/-! ## The loops -/

theorem getLast?_cons_ne {s : Int} {rest : List Int} :
    (s :: rest).getLast? ≠ some 0 ↔ (rest = [] → s ≠ 0) ∧ rest.getLast? ≠ some 0 := by
  cases rest with
  | nil => simp
  | cons t rest => simp [List.getLast?_cons_cons]

theorem zero_digit : (0 : Int) ≤ 0 ∧ (0 : Int) < base := ⟨le_refl _, base_pos⟩

theorem plusRest_digits {r : List Int} (carry : Bool) (hr : Digits base r) :
    Digits base (plusRest r carry) ∧
      ofLimbs base (plusRest r carry) = ofLimbs base r + carry.toInt := by
  induction r generalizing carry with
  | nil =>
    cases carry
    · exact ⟨by decide, by decide⟩
    · exact ⟨by decide, by decide⟩
  | cons r rs ih =>
    obtain ⟨hr0, hrs⟩ := Digits.cons_iff.mp hr
    obtain ⟨hsum, hlo, hhi⟩ := plusLimb_spec carry hr0 zero_digit
    obtain ⟨hdigits, hvalue⟩ := ih (plusLimb r 0 carry).2 hrs
    rw [plusRest]
    refine ⟨hdigits.cons hlo hhi, ?_⟩
    rw [ofLimbs_cons, hvalue, ofLimbs_cons]
    linear_combination hsum

theorem plusLimbs_digits {a r : List Int} (carry : Bool) (ha : Digits base a) (hr : Digits base r) :
    Digits base (plusLimbs a r carry) ∧
      ofLimbs base (plusLimbs a r carry) = ofLimbs base a + ofLimbs base r + carry.toInt := by
  induction a generalizing r carry with
  | nil => simpa [plusLimbs] using plusRest_digits carry hr
  | cons x xs ih =>
    obtain ⟨hx, hxs⟩ := Digits.cons_iff.mp ha
    cases r with
    | nil =>
      obtain ⟨hsum, hlo, hhi⟩ := plusLimb_spec carry zero_digit hx
      obtain ⟨hdigits, hvalue⟩ := ih (plusLimb 0 x carry).2 hxs Digits.nil
      rw [plusLimbs]
      refine ⟨hdigits.cons hlo hhi, ?_⟩
      rw [ofLimbs_cons, hvalue, ofLimbs_cons, ofLimbs_nil]
      linear_combination hsum
    | cons r rs =>
      obtain ⟨hr0, hrs⟩ := Digits.cons_iff.mp hr
      obtain ⟨hsum, hlo, hhi⟩ := plusLimb_spec carry hr0 hx
      obtain ⟨hdigits, hvalue⟩ := ih (plusLimb r x carry).2 hxs hrs
      rw [plusLimbs]
      refine ⟨hdigits.cons hlo hhi, ?_⟩
      rw [ofLimbs_cons, hvalue, ofLimbs_cons, ofLimbs_cons]
      linear_combination hsum

/-- The limb in which a sum ends is not zero. -/
theorem plusLimb_ne_zero {r x : Int} {carry : Bool} (hr : 0 ≤ r ∧ r < base) (hx : 0 ≤ x ∧ x < base)
    (hends : (plusLimb r x carry).2 = false) (hne : r ≠ 0 ∨ x ≠ 0) :
    (plusLimb r x carry).1 ≠ 0 := by
  obtain ⟨hsum, -, -⟩ := plusLimb_spec carry hr hx
  have hcarry : 0 ≤ carry.toInt := by
    cases carry
    · decide
    · decide
  rw [hends, Bool.toInt_false, mul_zero] at hsum
  omega

theorem plusRest_eq_nil_iff {r : List Int} {carry : Bool} :
    plusRest r carry = [] ↔ r = [] ∧ carry = false := by
  cases r with
  | nil =>
    cases carry
    · simp [plusRest]
    · simp [plusRest]
  | cons r rs => simp [plusRest]

theorem plusLimbs_eq_nil_iff {a r : List Int} {carry : Bool} :
    plusLimbs a r carry = [] ↔ a = [] ∧ r = [] ∧ carry = false := by
  cases a with
  | nil => simp [plusLimbs, plusRest_eq_nil_iff]
  | cons x xs =>
    cases r with
    | nil => simp [plusLimbs]
    | cons r rs => simp [plusLimbs]

theorem plusRest_last {r : List Int} (carry : Bool) (hr : Digits base r)
    (hrl : r.getLast? ≠ some 0) : (plusRest r carry).getLast? ≠ some 0 := by
  induction r generalizing carry with
  | nil =>
    cases carry
    · decide
    · decide
  | cons r rs ih =>
    obtain ⟨hr0, hrs⟩ := Digits.cons_iff.mp hr
    obtain ⟨hrl, hrsl⟩ := getLast?_cons_ne.mp hrl
    rw [plusRest, getLast?_cons_ne]
    refine ⟨?_, ih _ hrs hrsl⟩
    intro hnil
    obtain ⟨hrnil, hends⟩ := plusRest_eq_nil_iff.mp hnil
    exact plusLimb_ne_zero hr0 zero_digit hends (Or.inl (hrl hrnil))

theorem plusLimbs_last {a r : List Int} (carry : Bool) (ha : Digits base a) (hr : Digits base r)
    (hal : a.getLast? ≠ some 0) (hrl : r.getLast? ≠ some 0) :
    (plusLimbs a r carry).getLast? ≠ some 0 := by
  induction a generalizing r carry with
  | nil =>
    rw [plusLimbs]
    exact plusRest_last carry hr hrl
  | cons x xs ih =>
    obtain ⟨hx, hxs⟩ := Digits.cons_iff.mp ha
    obtain ⟨hxl, hxsl⟩ := getLast?_cons_ne.mp hal
    cases r with
    | nil =>
      rw [plusLimbs, getLast?_cons_ne]
      refine ⟨?_, ih _ hxs Digits.nil hxsl (by simp)⟩
      intro hnil
      obtain ⟨hxnil, -, hends⟩ := plusLimbs_eq_nil_iff.mp hnil
      exact plusLimb_ne_zero zero_digit hx hends (Or.inr (hxl hxnil))
    | cons r rs =>
      obtain ⟨hr0, hrs⟩ := Digits.cons_iff.mp hr
      rw [plusLimbs, getLast?_cons_ne]
      refine ⟨?_, ih _ hxs hrs hxsl (getLast?_cons_ne.mp hrl).2⟩
      intro hnil
      obtain ⟨hxnil, -, hends⟩ := plusLimbs_eq_nil_iff.mp hnil
      exact plusLimb_ne_zero hr0 hx hends (Or.inr (hxl hxnil))

/-- A number that is not smaller and not shorter has every limb that the loop uses. -/
theorem minusLimbs_digits {r a : List Int} (carry : Bool) (hr : Digits base r) (ha : Digits base a)
    (hlen : a.length ≤ r.length) (hle : ofLimbs base a + carry.toInt ≤ ofLimbs base r) :
    ∃ d, minusLimbs r a carry = .ok d ∧ Digits base d ∧
      ofLimbs base d = ofLimbs base r - ofLimbs base a - carry.toInt := by
  induction r, a, carry using minusLimbs.induct with
  | case1 rs => exact ⟨rs, by rw [minusLimbs], hr, by simp⟩
  | case2 => simp at hle
  | case3 x xs carry => simp at hlen
  | case4 r rs ih =>
    obtain ⟨hr0, hrs⟩ := Digits.cons_iff.mp hr
    obtain ⟨hdiff, hlo, hhi⟩ := minusLimb_spec true hr0 zero_digit
    simp only [ofLimbs_cons, ofLimbs_nil] at hle hlen
    -- the borrow is not larger than what is left
    have hle' : ofLimbs base [] + (minusLimb r 0 true).2.toInt ≤ ofLimbs base rs := by
      have hlt : base * ((minusLimb r 0 true).2.toInt - ofLimbs base rs) < base * 1 := by linarith
      have := lt_of_mul_lt_mul_left hlt base_pos.le
      rw [ofLimbs_nil]
      omega
    obtain ⟨d, hd, hdigits, hvalue⟩ := ih hrs Digits.nil (by simp) hle'
    refine ⟨(minusLimb r 0 true).1 :: d, ?_, hdigits.cons hlo hhi, ?_⟩
    · rw [minusLimbs, hd, Outcome.ok_bind]
    · rw [ofLimbs_cons, hvalue, ofLimbs_cons, ofLimbs_nil]
      linear_combination hdiff
  | case5 r rs x xs carry ih =>
    obtain ⟨hr0, hrs⟩ := Digits.cons_iff.mp hr
    obtain ⟨hx, hxs⟩ := Digits.cons_iff.mp ha
    obtain ⟨hdiff, hlo, hhi⟩ := minusLimb_spec carry hr0 hx
    simp only [ofLimbs_cons] at hle
    have hle' : ofLimbs base xs + (minusLimb r x carry).2.toInt ≤ ofLimbs base rs := by
      have hlt : base * (ofLimbs base xs + (minusLimb r x carry).2.toInt - ofLimbs base rs) <
          base * 1 := by linarith
      have := lt_of_mul_lt_mul_left hlt base_pos.le
      omega
    obtain ⟨d, hd, hdigits, hvalue⟩ := ih hrs hxs (by simpa using hlen) hle'
    refine ⟨(minusLimb r x carry).1 :: d, ?_, hdigits.cons hlo hhi, ?_⟩
    · rw [minusLimbs, hd, Outcome.ok_bind]
    · rw [ofLimbs_cons, hvalue, ofLimbs_cons, ofLimbs_cons]
      linear_combination hdiff

/-! ## The operators -/

variable {b v : Bigint}

theorem greaterEqual_abs (hb : b.Signed) (hv : v.Signed) (hbn : b.Counted) (hvn : v.Counted) :
    greaterEqual b.abs v.abs = decide (v.magnitude ≤ b.magnitude) := by
  have hless := less_iff hb.abs hv.abs hbn hvn
  rw [hb.value_abs, hv.value_abs] at hless
  rw [greaterEqual, Bool.eq_iff_iff, Bool.not_eq_true', decide_eq_true_eq, ← not_lt, ← hless,
    Bool.not_eq_true]

/-- The larger number of one sign less the smaller one. -/
theorem minus_larger (hb : b.Signed) (hv : v.Signed) (hbn : b.Counted) (hvn : v.Counted)
    (hsign : b.sign = v.sign) (hle : v.magnitude ≤ b.magnitude) (fuel : Nat) :
    minus (fuel + 1) b v = .ok (ofInt (b.value - v.value)) := by
  obtain ⟨d, hd, hdigits, hvalue⟩ := minusLimbs_digits false hb.digits hv.digits
    (hv.length_le_of_magnitude_le hb hle) (by simpa [magnitude] using hle)
  have hnormal : (trim { b with a := d }).Normal := normal_trim hb.sign hdigits
  have hresult : (trim { b with a := d }).value = b.value - v.value := by
    rw [value_trim, value_eq, value_eq, value_eq, ← hsign, magnitude, hvalue, Bool.toInt_false]
    simp only [magnitude]
    ring
  rw [minus, if_pos hsign, greaterEqual_abs hb hv hbn hvn, if_pos (by simpa using hle), hd,
    Outcome.ok_bind, hnormal.eq_ofInt, hresult]

/-- The difference of two numbers of one sign. -/
theorem minus_same (hb : b.Signed) (hv : v.Signed) (hbn : b.Counted) (hvn : v.Counted)
    (hsign : b.sign = v.sign) (fuel : Nat) :
    minus (fuel + 2) b v = .ok (ofInt (b.value - v.value)) := by
  by_cases hle : v.magnitude ≤ b.magnitude
  · exact minus_larger hb hv hbn hvn hsign hle (fuel + 1)
  · have hswap := minus_larger hv hb hvn hbn hsign.symm (by omega) fuel
    have hne : b.value - v.value ≠ 0 := by
      rw [value_eq, value_eq, ← hsign]
      rcases hb.sign with hs | hs
      · rw [hs]
        omega
      · rw [hs]
        omega
    have hnormal : (ofInt (v.value - b.value)).negate.Normal := by
      refine (normal_ofInt _).toSigned.negate.normal_of_value_ne_zero ?_
      rw [value_negate, value_ofInt]
      omega
    rw [minus, if_pos hsign, greaterEqual_abs hb hv hbn hvn, if_neg (by simpa using hle), hswap,
      Outcome.ok_bind, hnormal.eq_ofInt, value_negate, value_ofInt, neg_sub]

/-- The sum of two numbers of one sign. -/
theorem plus_same (hb : b.Signed) (hv : v.Signed) (hsign : b.sign = v.sign)
    (hzero : b.a = [] → v.a = [] → v.sign = 1) (fuel : Nat) :
    plus (fuel + 1) b v = .ok (ofInt (b.value + v.value)) := by
  obtain ⟨hdigits, hvalue⟩ := plusLimbs_digits false hb.digits hv.digits
  have hnormal : Normal { v with a := plusLimbs b.a v.a false } := by
    refine ⟨⟨hv.sign, hdigits, plusLimbs_last false hb.digits hv.digits hb.last hv.last⟩, ?_⟩
    intro hnil
    obtain ⟨hbnil, hvnil, -⟩ := plusLimbs_eq_nil_iff.mp hnil
    exact hzero hbnil hvnil
  have hresult : ({ v with a := plusLimbs b.a v.a false } : Bigint).value = b.value + v.value := by
    rw [value_eq, value_eq, value_eq, hsign, magnitude, hvalue, Bool.toInt_false]
    simp only [magnitude]
    ring
  rw [plus, if_pos hsign, hnormal.eq_ofInt, hresult]

theorem sign_negate_of_ne (hb : b.Signed) (hv : v.Signed) (hne : b.sign ≠ v.sign) :
    b.sign = v.negate.sign := by
  show b.sign = -v.sign
  rcases hb.sign with h | h
  · rcases hv.sign with h' | h'
    · exact absurd (h.trans h'.symm) hne
    · omega
  · rcases hv.sign with h' | h'
    · omega
    · exact absurd (h.trans h'.symm) hne

theorem plus_spec (hb : b.Normal) (hv : v.Normal) (hbn : b.Counted) (hvn : v.Counted) (fuel : Nat) :
    plus (fuel + 3) b v = .ok (ofInt (b.value + v.value)) := by
  by_cases hsign : b.sign = v.sign
  · exact plus_same hb.toSigned hv.toSigned hsign (fun _ => hv.zero) (fuel + 2)
  · have hminus := minus_same hb.toSigned hv.toSigned.negate hbn hvn
      (sign_negate_of_ne hb.toSigned hv.toSigned hsign) fuel
    rw [plus, if_neg hsign, hminus, value_negate, sub_neg_eq_add]

theorem minus_spec (hb : b.Normal) (hv : v.Normal) (hbn : b.Counted) (hvn : v.Counted)
    (fuel : Nat) :
    minus (fuel + 2) b v = .ok (ofInt (b.value - v.value)) := by
  by_cases hsign : b.sign = v.sign
  · exact minus_same hb.toSigned hv.toSigned hbn hvn hsign fuel
  · have hsame := sign_negate_of_ne hb.toSigned hv.toSigned hsign
    have hplus := plus_same hb.toSigned hv.toSigned.negate hsame
      (fun hnil _ => by rw [← hsame]; exact hb.zero hnil) fuel
    rw [minus, if_neg hsign, hplus, value_negate, sub_eq_add_neg]

theorem plus_returns (hb : b.Normal) (hv : v.Normal) (hbn : b.Counted) (hvn : v.Counted) :
    Returns (fun fuel => plus fuel b v) (ofInt (b.value + v.value)) := by
  refine ⟨3, ?_⟩
  intro fuel hfuel
  obtain ⟨k, rfl⟩ := Nat.exists_eq_add_of_le' hfuel
  exact plus_spec hb hv hbn hvn k

theorem minus_returns (hb : b.Normal) (hv : v.Normal) (hbn : b.Counted) (hvn : v.Counted) :
    Returns (fun fuel => minus fuel b v) (ofInt (b.value - v.value)) := by
  refine ⟨2, ?_⟩
  intro fuel hfuel
  obtain ⟨k, rfl⟩ := Nat.exists_eq_add_of_le' hfuel
  exact minus_spec hb hv hbn hvn k

theorem plus_ofInt {x y : Int} (hx : (ofInt x).Counted) (hy : (ofInt y).Counted) :
    Returns (fun fuel => plus fuel (ofInt x) (ofInt y)) (ofInt (x + y)) := by
  have h := plus_returns (normal_ofInt x) (normal_ofInt y) hx hy
  rwa [value_ofInt, value_ofInt] at h

theorem minus_ofInt {x y : Int} (hx : (ofInt x).Counted) (hy : (ofInt y).Counted) :
    Returns (fun fuel => minus fuel (ofInt x) (ofInt y)) (ofInt (x - y)) := by
  have h := minus_returns (normal_ofInt x) (normal_ofInt y) hx hy
  rwa [value_ofInt, value_ofInt] at h

/-- Sums and differences of normal bigints are exact, and normal. -/
theorem sums_spec (hb : b.CountedWith 1) (hv : v.CountedWith 1) :
    Returns (fun fuel => plus fuel b v) (ofInt (b.value + v.value)) ∧
      Returns (fun fuel => minus fuel b v) (ofInt (b.value - v.value)) :=
  ⟨plus_returns hb.toNormal hv.toNormal hb.toCounted hv.toCounted,
    minus_returns hb.toNormal hv.toNormal hb.toCounted hv.toCounted⟩

/-- The borrow runs through all limbs. -/
theorem sums_spec_borrow :
    Returns (fun fuel => plus fuel ⟨[0, 0, 1], 1⟩ ⟨[1], -1⟩) ⟨[999999999, 999999999], 1⟩ := by
  have h := (sums_spec (b := ⟨[0, 0, 1], 1⟩) (v := ⟨[1], -1⟩) (by decide) (by decide)).1
  have hvalue : ofInt (value ⟨[0, 0, 1], 1⟩ + value ⟨[1], -1⟩) = ⟨[999999999, 999999999], 1⟩ :=
    (normal_ofInt _).ext (by decide) (by rw [value_ofInt]; decide)
  rwa [hvalue] at h

end Bigint

end StateDb
