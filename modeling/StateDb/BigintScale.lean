/-
  StateDb/BigintScale.lean
  ========================
  **Bigints and machine integers** (`bigint.h`: `operator*=` and `operator*` of an `int` and
  of a `long long`, `operator/=` and `operator%` of an `int`, `operator=` of a `long long`,
  `longValue`).

  Products go up the limbs with a carry and push it behind the last one, in two limbs at most.
  The carry is an `int` in both products, so also the `long long` one is right only for factors
  that an `int` holds (`scale_spec`).  Quotients go down the limbs with a remainder, and truncate
  towards zero as the division of C++ does (`shorten_spec`).

  `longValue` is the value modulo `2^64`, of any limbs at all (`longValue_eq`); the number
  made from a `long long` gives it back, but for the least one, whose negative does not
  exist (`ofLong_longValue`).
-/
import StateDb.BigintOrder
import StateDb.BigintSums

namespace StateDb

open Lib Lib.Radix

namespace Bigint

/-! ## Products -/

/-- The iterations of the loop of `operator*=` behind the last limb: each pushes a limb.  An
`int` is gone after three. -/
def pushCarry : Nat → Int → List Int
  | 0, _ => []
  | fuel + 1, carry =>
      if carry = 0 then []
      else toInt (carry.tmod base) :: pushCarry fuel (toInt (carry.tdiv base))

/-- The loop of `operator*=`. -/
def scaleLimbs (v : Int) : List Int → Int → List Int
  | [], carry => pushCarry 3 carry
  | x :: xs, carry =>
      let cur := toLong (x * v + carry)
      toInt (cur.tmod base) :: scaleLimbs v xs (toInt (cur.tdiv base))

/-- `operator*=`, of a type that `convert` converts to. -/
def scale (convert : Int → Int) (b : Bigint) (v : Int) : Bigint :=
  if v < 0 then trim ⟨scaleLimbs (convert (-v)) b.a 0, -b.sign⟩
  else trim ⟨scaleLimbs v b.a 0, b.sign⟩

/-- `operator*=(int)` and `operator*(int)`. -/
def timesInt (b : Bigint) (v : Int) : Bigint := scale toInt b v

/-- `operator*=(long long)` and `operator*(long long)`. -/
def timesLong (b : Bigint) (v : Int) : Bigint := scale toLong b v

theorem base_divide (c : Int) :
    c = 1000000000 * (c / base) + c % base ∧ 0 ≤ c % base ∧ c % base < 1000000000 :=
  ⟨(Int.mul_ediv_add_emod c base).symm, Int.emod_nonneg c base_pos.ne',
    Int.emod_lt_of_pos c base_pos⟩

/-- One pushed limb, and what is left of the carry. -/
theorem pushCarry_step {c : Int} {fuel : Nat} (hc : 0 ≤ c) (hlt : c < 2147483648)
    (h : Digits base (pushCarry fuel (c / base)) ∧
      ofLimbs base (pushCarry fuel (c / base)) = c / base) :
    Digits base (pushCarry (fuel + 1) c) ∧ ofLimbs base (pushCarry (fuel + 1) c) = c := by
  obtain ⟨hdigits, hvalue⟩ := h
  obtain ⟨hdiv, hmod0, hmod⟩ := base_divide c
  rw [pushCarry]
  by_cases hzero : c = 0
  · rw [if_pos hzero, hzero]
    exact ⟨Digits.nil, rfl⟩
  · rw [if_neg hzero, Int.tmod_eq_emod_of_nonneg hc, Int.tdiv_eq_ediv_of_nonneg hc,
      toInt_of_range (by omega) (by omega), toInt_of_range (by omega) (by omega)]
    refine ⟨hdigits.cons hmod0 hmod, ?_⟩
    rw [ofLimbs_cons, hvalue, base_eq]
    exact (add_comm _ _).trans hdiv.symm

theorem pushCarry_digits {carry : Int} (h0 : 0 ≤ carry) (h : carry < 2147483648) :
    Digits base (pushCarry 3 carry) ∧ ofLimbs base (pushCarry 3 carry) = carry := by
  obtain ⟨hdiv, hmod0, hmod⟩ := base_divide carry
  obtain ⟨hdiv', hmod0', hmod'⟩ := base_divide (carry / base)
  obtain ⟨hdiv'', hmod0'', hmod''⟩ := base_divide (carry / base / base)
  have hgone : carry / base / base / base = 0 := by omega
  refine pushCarry_step h0 h (pushCarry_step (by omega) (by omega)
    (pushCarry_step (by omega) (by omega) ?_))
  rw [hgone]
  exact ⟨Digits.nil, rfl⟩

theorem scaleLimbs_digits {v : Int} (hv : v < 2147483648) {a : List Int} {carry : Int}
    (ha : Digits base a) (h0 : 0 ≤ carry) (hc : carry ≤ v) :
    Digits base (scaleLimbs v a carry) ∧
      ofLimbs base (scaleLimbs v a carry) = v * ofLimbs base a + carry := by
  induction a generalizing carry with
  | nil => simpa [scaleLimbs] using pushCarry_digits h0 (by omega)
  | cons x xs ih =>
    obtain ⟨⟨hx, hxb⟩, hxs⟩ := Digits.cons_iff.mp ha
    obtain ⟨cur, hcur⟩ : ∃ cur, cur = x * v + carry := ⟨_, rfl⟩
    have hcur0 : 0 ≤ cur := by
      have := mul_nonneg hx (by omega : 0 ≤ v)
      omega
    -- the carry stays below the factor
    have hcurv : cur ≤ 1000000000 * v := by
      have := mul_le_mul_of_nonneg_right (by omega : x ≤ base - 1) (by omega : 0 ≤ v)
      rw [base_eq] at this
      linarith
    obtain ⟨hdiv, hmod0, hmod⟩ := base_divide cur
    obtain ⟨hdigits, hvalue⟩ := @ih (cur / base) hxs (by omega) (by omega)
    rw [scaleLimbs, ← hcur, toLong_of_range (by omega) (by omega), Int.tmod_eq_emod_of_nonneg hcur0,
      Int.tdiv_eq_ediv_of_nonneg hcur0, toInt_of_range (by omega) (by omega),
      toInt_of_range (by omega) (by omega)]
    refine ⟨hdigits.cons hmod0 hmod, ?_⟩
    rw [ofLimbs_cons, hvalue, ofLimbs_cons, base_eq]
    rw [base_eq] at hdiv
    linear_combination hcur - hdiv

theorem scale_eq {convert : Int → Int} {b : Bigint} {v : Int} (hb : b.Signed)
    (hconvert : ∀ n, 0 ≤ n → n < 2147483648 → convert n = n) (hlo : -2147483648 < v)
    (hhi : v < 2147483648) : scale convert b v = ofInt (b.value * v) := by
  by_cases hneg : v < 0
  · obtain ⟨hdigits, hvalue⟩ := scaleLimbs_digits (v := -v) (by omega) hb.digits (le_refl _)
      (by omega)
    have hnormal : (trim ⟨scaleLimbs (-v) b.a 0, -b.sign⟩).Normal :=
      normal_trim hb.negate.sign hdigits
    rw [scale, if_pos hneg, hconvert _ (by omega) (by omega), hnormal.eq_ofInt, value_trim,
      value_eq, value_eq, magnitude, hvalue, magnitude]
    congr 1
    ring
  · obtain ⟨hdigits, hvalue⟩ := scaleLimbs_digits (v := v) hhi hb.digits (le_refl _) (by omega)
    have hnormal : (trim ⟨scaleLimbs v b.a 0, b.sign⟩).Normal := normal_trim hb.sign hdigits
    rw [scale, if_neg hneg, hnormal.eq_ofInt, value_trim, value_eq, value_eq, magnitude, hvalue,
      magnitude]
    congr 1
    ring

theorem timesInt_eq {b : Bigint} {v : Int} (hb : b.Signed) (hlo : -2147483648 < v)
    (hhi : v < 2147483648) : timesInt b v = ofInt (b.value * v) :=
  scale_eq hb (fun _ h0 h => toInt_of_range (by omega) h) hlo hhi

/-- Products with a factor that an `int` holds, and whose negative it holds, are exact.  The
carry makes two limbs at most. -/
theorem scale_spec {b : Bigint} {v : Int} (hb : b.CountedWith 2) (hlo : -2147483648 < v)
    (hhi : v < 2147483648) :
    timesInt b v = ofInt (b.value * v) ∧ timesLong b v = ofInt (b.value * v) :=
  ⟨timesInt_eq hb.toSigned hlo hhi,
    scale_eq hb.toSigned (fun _ h0 h => toLong_of_range (by omega) (by omega)) hlo hhi⟩

theorem scale_spec_full : timesInt ⟨[999999999, 999999999], -1⟩ (-2147483647) =
    ofInt (999999999999999999 * 2147483647) := by
  have h := (scale_spec (b := ⟨[999999999, 999999999], -1⟩) (v := -2147483647) (by decide)
    (by decide) (by decide)).1
  rw [h]
  congr 1

/-- The carry of a larger factor is cut to an `int`. -/
example : (timesLong ⟨[999999999], 1⟩ 10000000000).value ≠ 999999999 * 10000000000 := by decide

/-! ## Quotients -/

/-- The loop of `operator/=`, from the last limb down. -/
def divideLimbs (v : Int) : List Int → Int → List Int
  | [], _ => []
  | x :: xs, rem =>
      let cur := toLong (x + rem * base)
      toInt (cur.tdiv v) :: divideLimbs v xs (toInt (cur.tmod v))

/-- The loop of `operator%`, from the last limb down. -/
def moduloLimbs (v : Int) : List Int → Int → Int
  | [], m => m
  | x :: xs, m => moduloLimbs v xs (toInt ((toLong (x + m * base)).tmod v))

/-- `operator/=(int)` and `operator/(int)`. -/
def divideInt (b : Bigint) (v : Int) : Outcome ArithFault Bigint :=
  if v = 0 ∧ b.a ≠ [] then .fault .divisionByZero
  else if v < 0 then .ok (trim ⟨(divideLimbs (toInt (-v)) b.a.reverse 0).reverse, -b.sign⟩)
  else .ok (trim ⟨(divideLimbs v b.a.reverse 0).reverse, b.sign⟩)

/-- `operator%(int)`. -/
def moduloInt (b : Bigint) (v : Int) : Outcome ArithFault Int :=
  if v = 0 ∧ b.a ≠ [] then .fault .divisionByZero
  else
    .ok (toInt (moduloLimbs (if v < 0 then toInt (-v) else v) b.a.reverse 0 * b.sign))

theorem divideLimbs_digits {v : Int} (hv0 : 0 < v) (hv : v < 2147483648) {xs : List Int} {rem : Int}
    (hxs : Digits base xs) (h0 : 0 ≤ rem) (hrem : rem < v) :
    Digits base (divideLimbs v xs rem) ∧ (divideLimbs v xs rem).length = xs.length ∧
      0 ≤ moduloLimbs v xs rem ∧ moduloLimbs v xs rem < v ∧
      rem * base ^ xs.length + ofLimbs base xs.reverse =
        v * ofLimbs base (divideLimbs v xs rem).reverse + moduloLimbs v xs rem := by
  induction xs generalizing rem with
  | nil => simp [divideLimbs, moduloLimbs, Digits.nil, h0, hrem]
  | cons x xs ih =>
    obtain ⟨⟨hx, hxb⟩, hxs⟩ := Digits.cons_iff.mp hxs
    rw [base_eq] at hxb
    obtain ⟨cur, hcur⟩ : ∃ cur, cur = x + rem * 1000000000 := ⟨_, rfl⟩
    have hdiv := Int.mul_ediv_add_emod cur v
    have hmod0 := Int.emod_nonneg cur hv0.ne'
    have hmod := Int.emod_lt_of_pos cur hv0
    have hquot0 : 0 ≤ cur / v := Int.ediv_nonneg (by omega) hv0.le
    have hquot : cur / v < 1000000000 := by
      rw [Int.ediv_lt_iff_lt_mul hv0]
      omega
    obtain ⟨hdigits, hlen, hm0, hm, hvalue⟩ := @ih (cur % v) hxs hmod0 hmod
    have hstep : ∀ fuel : Int, fuel = cur % v →
        divideLimbs v (x :: xs) rem = cur / v :: divideLimbs v xs fuel ∧
          moduloLimbs v (x :: xs) rem = moduloLimbs v xs fuel := by
      rintro _ rfl
      rw [divideLimbs, moduloLimbs, base_eq, ← hcur, toLong_of_range (by omega) (by omega),
        Int.tmod_eq_emod_of_nonneg (by omega), Int.tdiv_eq_ediv_of_nonneg (by omega),
        toInt_of_range (n := cur / v) (by omega) (by omega), toInt_of_range (by omega) (by omega)]
      exact ⟨rfl, rfl⟩
    obtain ⟨hquots, hrest⟩ := hstep _ rfl
    rw [hquots, hrest]
    refine ⟨hdigits.cons hquot0 hquot, by simp [hlen], hm0, hm, ?_⟩
    rw [List.reverse_cons, List.reverse_cons, ofLimbs_append, ofLimbs_append, ofLimbs_singleton,
      ofLimbs_singleton, List.length_reverse, List.length_reverse, hlen, List.length_cons, pow_succ]
    rw [hcur] at hdiv hvalue
    rw [hcur]
    linear_combination hvalue - base ^ xs.length * hdiv

/-- Quotient and remainder of the number without its sign. -/
theorem divideLimbs_magnitude {b : Bigint} (hb : b.Signed) {v : Int} (hv0 : 0 < v)
    (hv : v < 2147483648) : Digits base (divideLimbs v b.a.reverse 0).reverse ∧
      ofLimbs base (divideLimbs v b.a.reverse 0).reverse = b.magnitude / v ∧
      moduloLimbs v b.a.reverse 0 = b.magnitude % v := by
  obtain ⟨hdigits, -, hm0, hm, hvalue⟩ :=
    divideLimbs_digits hv0 hv hb.digits.reverse (le_refl _) hv0
  rw [zero_mul, zero_add, List.reverse_reverse] at hvalue
  have hunique := (Int.ediv_emod_unique hv0).mpr
    ⟨(add_comm _ _).trans hvalue.symm, hm0, hm⟩
  exact ⟨hdigits.reverse, hunique.1.symm, hunique.2.symm⟩

theorem tdiv_sign {s m : Int} (hs : s = 1 ∨ s = -1) (hm : 0 ≤ m) (v : Int) :
    (s * m).tdiv v = s * (m / v) ∧ (s * m).tmod v = s * (m % v) := by
  rcases hs with rfl | rfl
  · rw [one_mul, one_mul, one_mul, Int.tdiv_eq_ediv_of_nonneg hm, Int.tmod_eq_emod_of_nonneg hm]
    exact ⟨rfl, rfl⟩
  · rw [neg_one_mul, neg_one_mul, neg_one_mul, Int.neg_tdiv, Int.neg_tmod,
      Int.tdiv_eq_ediv_of_nonneg hm, Int.tmod_eq_emod_of_nonneg hm]
    exact ⟨rfl, rfl⟩

theorem divideInt_eq {b : Bigint} {v : Int} (hb : b.Signed) (hv : v ≠ 0) (hlo : -2147483648 < v)
    (hhi : v < 2147483648) : divideInt b v = .ok (ofInt (b.value.tdiv v)) := by
  have hmag := hb.magnitude_nonneg
  rw [divideInt, if_neg (fun h => hv h.1), value_eq, (tdiv_sign hb.sign hmag v).1]
  by_cases hneg : v < 0
  · obtain ⟨hdigits, hquot, -⟩ := divideLimbs_magnitude hb (v := -v) (by omega) (by omega)
    have hnormal : (trim ⟨(divideLimbs (-v) b.a.reverse 0).reverse, -b.sign⟩).Normal :=
      normal_trim hb.negate.sign hdigits
    rw [if_pos hneg, toInt_of_range (by omega) (by omega), hnormal.eq_ofInt, value_trim, value_eq,
      magnitude, hquot, Int.ediv_neg]
    congr 2
    ring
  · obtain ⟨hdigits, hquot, -⟩ := divideLimbs_magnitude hb (v := v) (by omega) hhi
    have hnormal : (trim ⟨(divideLimbs v b.a.reverse 0).reverse, b.sign⟩).Normal :=
      normal_trim hb.sign hdigits
    rw [if_neg hneg, hnormal.eq_ofInt, value_trim, value_eq, magnitude, hquot]

theorem moduloInt_eq {b : Bigint} {v : Int} (hb : b.Signed) (hv : v ≠ 0) (hlo : -2147483648 < v)
    (hhi : v < 2147483648) : moduloInt b v = .ok (b.value.tmod v) := by
  have hmag := hb.magnitude_nonneg
  have hsmall : ∀ {m : Int}, 0 ≤ m → m < 2147483648 → toInt (m * b.sign) = b.sign * m := by
    intro m h0 h
    rw [mul_comm]
    rcases hb.sign with hs | hs
    · rw [hs]
      exact toInt_of_range (by omega) (by omega)
    · rw [hs]
      exact toInt_of_range (by omega) (by omega)
  rw [moduloInt, if_neg (fun h => hv h.1), value_eq, (tdiv_sign hb.sign hmag v).2]
  by_cases hneg : v < 0
  · obtain ⟨-, -, hrem⟩ := divideLimbs_magnitude hb (v := -v) (by omega) (by omega)
    have h0 := Int.emod_nonneg b.magnitude hv
    have h := Int.emod_lt_of_pos b.magnitude (by omega : 0 < -v)
    rw [Int.emod_neg] at h
    rw [if_pos hneg, toInt_of_range (n := -v) (by omega) (by omega), hrem, Int.emod_neg,
      hsmall h0 (by omega)]
  · obtain ⟨-, -, hrem⟩ := divideLimbs_magnitude hb (v := v) (by omega) hhi
    have h0 := Int.emod_nonneg b.magnitude hv
    have h := Int.emod_lt_of_pos b.magnitude (by omega : 0 < v)
    rw [if_neg hneg, hrem, hsmall h0 (by omega)]

/-- Quotients and remainders by an `int` truncate towards zero. -/
theorem shorten_spec {b : Bigint} {v : Int} (hb : b.CountedWith 0) (hv : v ≠ 0)
    (hlo : -2147483648 < v) (hhi : v < 2147483648) :
    divideInt b v = .ok (ofInt (b.value.tdiv v)) ∧ moduloInt b v = .ok (b.value.tmod v) :=
  ⟨divideInt_eq hb.toSigned hv hlo hhi, moduloInt_eq hb.toSigned hv hlo hhi⟩

theorem shorten_spec_seven : divideInt ⟨[3, 0, 1], -1⟩ 7 = .ok (ofInt (-142857142857142857)) ∧
    moduloInt ⟨[3, 0, 1], -1⟩ 7 = .ok (-4) := by
  obtain ⟨hquot, hrem⟩ := shorten_spec (b := ⟨[3, 0, 1], -1⟩) (v := 7) (by decide) (by decide)
    (by decide) (by decide)
  exact ⟨hquot, hrem⟩

/-! ## Machine integers -/

/-- The loop of `operator=(long long)`.  A `long long` has three limbs at most. -/
def longLimbs : Nat → Int → List Int
  | 0, _ => []
  | fuel + 1, v => if 0 < v then toInt (v.tmod base) :: longLimbs fuel (v.tdiv base) else []

/-- `operator=(long long)` and `bigint(long long)`. -/
def ofLong (v : Int) : Bigint :=
  if v < 0 then ⟨longLimbs 3 (toLong (-v)), -1⟩ else ⟨longLimbs 3 v, 1⟩

def longValue (b : Bigint) : Int :=
  toLong (b.a.reverse.foldl (fun res x => toLong (res * base + x)) 0 * b.sign)

theorem longLimbs_digits {fuel : Nat} {v : Int} (h0 : 0 ≤ v) (hlt : v < base ^ fuel) :
    Digits base (longLimbs fuel v) ∧ ofLimbs base (longLimbs fuel v) = v ∧
      (longLimbs fuel v).getLast? ≠ some 0 := by
  induction fuel generalizing v with
  | zero =>
    rw [pow_zero] at hlt
    obtain rfl : v = 0 := by omega
    exact ⟨Digits.nil, rfl, by simp [longLimbs]⟩
  | succ fuel ih =>
    rw [longLimbs]
    by_cases hpos : 0 < v
    · obtain ⟨hdiv, hmod0, hmod⟩ := base_divide v
      have hquot : v / base < base ^ fuel := by
        rw [Int.ediv_lt_iff_lt_mul base_pos, ← pow_succ]
        exact hlt
      obtain ⟨hdigits, hvalue, hlast⟩ := ih (by omega) hquot
      rw [if_pos hpos, Int.tmod_eq_emod_of_nonneg h0, Int.tdiv_eq_ediv_of_nonneg h0,
        toInt_of_range (by omega) (by omega)]
      refine ⟨hdigits.cons hmod0 hmod, ?_, ?_⟩
      · rw [ofLimbs_cons, hvalue, base_eq]
        exact (add_comm _ _).trans hdiv.symm
      · rw [getLast?_cons_ne]
        refine ⟨?_, hlast⟩
        intro hnil
        rw [hnil, ofLimbs_nil] at hvalue
        omega
    · obtain rfl : v = 0 := by omega
      rw [if_neg hpos]
      exact ⟨Digits.nil, rfl, by simp⟩

theorem ofLong_eq {v : Int} (hlo : -9223372036854775808 < v) (hhi : v < 9223372036854775808) :
    ofLong v = ofInt v := by
  have hpow : (9223372036854775808 : Int) ≤ base ^ 3 := by decide
  by_cases hneg : v < 0
  · obtain ⟨hdigits, hvalue, hlast⟩ := @longLimbs_digits 3 (-v) (by omega) (by omega)
    have hsigned : Signed ⟨longLimbs 3 (-v), -1⟩ := ⟨Or.inr rfl, hdigits, hlast⟩
    have hval : value ⟨longLimbs 3 (-v), -1⟩ = v := by
      rw [value_eq, magnitude, hvalue]
      exact (neg_one_mul _).trans (neg_neg v)
    rw [ofLong, if_pos hneg, toLong_of_range (by omega) (by omega),
      (hsigned.normal_of_value_ne_zero (by omega)).eq_ofInt, hval]
  · obtain ⟨hdigits, hvalue, hlast⟩ := @longLimbs_digits 3 v (by omega) (by omega)
    have hnormal : Normal ⟨longLimbs 3 v, 1⟩ := ⟨⟨Or.inl rfl, hdigits, hlast⟩, fun _ => rfl⟩
    have hval : value ⟨longLimbs 3 v, 1⟩ = v := by
      rw [value_eq, magnitude, hvalue, one_mul]
    rw [ofLong, if_neg hneg, hnormal.eq_ofInt, hval]

theorem toLong_fold (xs : List Int) (acc : Int) :
    toLong (xs.foldl (fun res x => toLong (res * base + x)) acc) =
      toLong (acc * base ^ xs.length + ofLimbs base xs.reverse) := by
  induction xs generalizing acc with
  | nil => simp
  | cons x xs ih =>
    rw [List.foldl_cons, ih, ← toLong_add_left, toLong_mul_left, toLong_add_left, List.reverse_cons,
      ofLimbs_append, ofLimbs_singleton, List.length_reverse, List.length_cons]
    congr 1
    ring

/-- `longValue` is the value of the limbs, cut to 64 bits. -/
theorem longValue_eq (b : Bigint) : longValue b = toLong b.value := by
  have hfold := toLong_fold b.a.reverse 0
  rw [zero_mul, zero_add, List.reverse_reverse] at hfold
  rw [longValue, ← toLong_mul_left, hfold, toLong_mul_left, mul_comm]
  rfl

/-- A number made from a `long long` gives it back, and a bigint that a `long long` holds is
made again from it. -/
theorem ofLong_longValue {b : Bigint} {v : Int} (hb : b.Normal)
    (hbv : |b.value| < 9223372036854775808) (hv : |v| < 9223372036854775808) :
    longValue (ofLong v) = v ∧ ofLong (longValue b) = b := by
  obtain ⟨hvlo, hvhi⟩ := abs_lt.mp hv
  obtain ⟨hblo, hbhi⟩ := abs_lt.mp hbv
  constructor
  · rw [longValue_eq, ofLong_eq hvlo hvhi, value_ofInt, toLong_of_range (by omega) hvhi]
  · rw [longValue_eq, toLong_of_range (by omega) hbhi, ofLong_eq hblo hbhi, ← hb.eq_ofInt]

theorem ofLong_longValue_limits : longValue (ofLong (-9223372036854775807)) = -9223372036854775807 ∧
    ofLong (longValue ⟨[854775807, 223372036, 9], 1⟩) = ⟨[854775807, 223372036, 9], 1⟩ :=
  ofLong_longValue (b := ⟨[854775807, 223372036, 9], 1⟩) (by decide) (by decide) (by decide)

/-- Of the least `long long` nothing is left but the sign. -/
example : ofLong (-9223372036854775808) = ⟨[], -1⟩ := by decide

end Bigint

end StateDb
