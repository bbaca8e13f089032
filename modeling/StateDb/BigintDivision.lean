/-
  StateDb/BigintDivision.lean
  ===========================
  **Long division of bigints** (`bigint.h`: `divmod`, `operator/`, `operator%`).

  `divmod` scales both numbers so that the last limb of the divisor is half the base at
  least, and takes the limbs of the dividend from the last one down into a remainder `r`.
  A quotient limb is first estimated from the two top limbs of `r` and the last limb of the
  divisor.  The estimate is never too small and at most two too large
  (`Radix.estimate_bounds`), so the loop that adds the divisor back ends after two rounds
  (`addBack_spec`).

  For every normal dividend and divisor that is not zero, `divmod` returns, and what it
  returns are the quotient and the remainder that truncate towards zero
  (`divmod_spec`).  For the divisor zero it takes the last limb of an empty vector.  The
  scaled dividend has one limb more at most; the remainder, and the multiple of the divisor
  that is taken from it, have two more than the divisor.
-/
import StateDb.BigintScale
import Mathlib.Data.List.GetD

namespace StateDb

open Lib Lib.Radix

namespace Bigint

/-- `back()`. -/
def back (a : List Int) : Outcome ArithFault Int :=
  match a.getLast? with
  | none => .fault .emptyVector
  | some x => .ok x

/-- `x / y` of machine integers. -/
def quotient (x y : Int) : Outcome ArithFault Int :=
  if y = 0 then .fault .divisionByZero else .ok (x.tdiv y)

/-- `while (r < 0) r += b, --d`. -/
def addBack (b : Bigint) : Nat → Bigint → Int → Outcome ArithFault (Bigint × Int)
  | 0, _, _ => .outOfFuel
  | fuel + 1, r, d =>
      if less r (ofLong 0) then do
        let r ← plus fuel r b
        addBack b fuel r (toInt (d - 1))
      else .ok (r, d)

/-- One iteration of the loop of `divmod`, for the limb `x` of the dividend. -/
def divideStep (fuel : Nat) (b r : Bigint) (x : Int) : Outcome ArithFault (Bigint × Int) := do
  let r ← plus fuel (timesInt r base) (ofLong x)
  let s1 := if r.a.length ≤ b.a.length then 0 else r.a.getD b.a.length 0
  let s2 := if r.a.length ≤ b.a.length - 1 then 0 else r.a.getD (b.a.length - 1) 0
  let top ← back b.a
  let estimate ← quotient (toLong (base * s1 + s2)) top
  let d := toInt estimate
  let r ← minus fuel r (timesInt b d)
  addBack b fuel r d

/-- The loop of `divmod`, from the last limb of the dividend down. -/
def divideLoop (fuel : Nat) (b : Bigint) :
    List Int → Bigint → Outcome ArithFault (List Int × Bigint)
  | [], r => .ok ([], r)
  | x :: xs, r => do
      let step ← divideStep fuel b r x
      let rest ← divideLoop fuel b xs step.1
      .ok (step.2 :: rest.1, rest.2)

def divmod (fuel : Nat) (a1 b1 : Bigint) : Outcome ArithFault (Bigint × Bigint) := do
  let top ← back b1.a
  let norm ← quotient base (toInt (top + 1))
  let a := timesInt a1.abs norm
  let b := timesInt b1.abs norm
  let loop ← divideLoop fuel b a.a.reverse ⟨[], 1⟩
  let q := trim ⟨loop.1.reverse, a1.sign * b1.sign⟩
  let r ← divideInt (trim { loop.2 with sign := a1.sign }) norm
  .ok (q, r)

/-- `operator/`. -/
def divide (fuel : Nat) (b v : Bigint) : Outcome ArithFault Bigint := do
  let p ← divmod fuel b v
  .ok p.1

/-- `operator%`. -/
def modulo (fuel : Nat) (b v : Bigint) : Outcome ArithFault Bigint := do
  let p ← divmod fuel b v
  .ok p.2

/-! ## The divisor -/

/-- A divisor that was scaled: it is positive, and its last limb is half the base at least. -/
structure Scaled (b : Bigint) (low : List Int) (top : Int) : Prop where
  normal : b.Normal
  limbs : b.a = low ++ [top]
  positive : b.sign = 1
  half : base ≤ 2 * top
  counted : b.a.length + 2 < 2147483648

namespace Scaled

variable {b : Bigint} {low : List Int} {top : Int}

theorem length_eq (h : Scaled b low top) : b.a.length = low.length + 1 := by
  rw [h.limbs, List.length_append, List.length_singleton]

theorem top_pos (h : Scaled b low top) : 0 < top := by
  have hhalf := h.half
  rw [base_eq] at hhalf
  omega

theorem value_magnitude (h : Scaled b low top) : b.value = b.magnitude := by
  rw [value_eq, h.positive, one_mul]

/-- The last limb gives the size of the divisor. -/
theorem bounds (h : Scaled b low top) :
    top * base ^ low.length ≤ b.value ∧ b.value < (top + 1) * base ^ low.length := by
  have hlow : Digits base low := (Digits.append_iff.mp (h.limbs ▸ h.normal.digits)).1
  have h0 := hlow.nonneg base_pos.le
  have hlt := hlow.lt_pow
  rw [h.value_magnitude, magnitude, h.limbs, ofLimbs_append, ofLimbs_singleton]
  constructor
  · linarith
  · linarith

theorem value_pos (h : Scaled b low top) : 0 < b.value :=
  lt_of_lt_of_le (mul_pos h.top_pos (pow_pos base_pos _)) h.bounds.1

theorem value_lt (h : Scaled b low top) : b.value < base ^ (low.length + 1) := by
  have hlt := h.normal.magnitude_lt
  rwa [h.length_eq, ← h.value_magnitude] at hlt

end Scaled

/-! ## The correction -/

theorem counted_ofInt {z : Int} {n : Nat} (hz : |z| < base ^ n) (hn : n < 2147483648) :
    (ofInt z).Counted := by
  have hle := (normal_ofInt z).length_le (n := n) (by rwa [value_ofInt])
  unfold Counted
  omega

variable {b : Bigint} {low : List Int} {top : Int}

/-- `r < 0`. -/
theorem less_zero {z : Int} (hz : (ofInt z).Counted) :
    less (ofInt z) (ofLong 0) = decide (z < 0) := by
  have hzero : ofLong 0 = ofInt 0 := ofLong_eq (by decide) (by decide)
  have hcounted : (ofInt 0).Counted := counted_ofInt (n := 1) (by decide) (by decide)
  rw [Bool.eq_iff_iff, hzero, less_iff (normal_ofInt z) (normal_ofInt 0) hz hcounted, value_ofInt,
    value_ofInt, decide_eq_true_eq]

theorem abs_lt_pow_succ {z m : Int} {n : Nat} (h : |z| ≤ m * base ^ n) (hm : m < base) :
    |z| < base ^ (n + 1) := by
  have hpow := pow_pos base_pos n
  have hlt := mul_lt_mul_of_pos_right hm hpow
  rw [pow_succ']
  omega

/-- The divisor is added back as often as the estimate was too large. -/
theorem addBack_spec (hb : Scaled b low top) {k : Nat} (hk : k ≤ 2) {z d : Int} (fuel : Nat)
    (h0 : 0 ≤ z + k * b.value) (hlt : z + k * b.value < b.value) (hd0 : k ≤ d)
    (hd : d < 2147483648) :
    addBack b (fuel + k + 3) (ofInt z) d = .ok (ofInt (z + k * b.value), d - k) := by
  have hpos := hb.value_pos
  have hbound := hb.value_lt
  have hcount := hb.counted
  rw [hb.length_eq] at hcount
  induction k generalizing z d with
  | zero =>
    simp only [Nat.cast_zero, zero_mul, add_zero] at h0 hlt
    have hcounted : (ofInt z).Counted :=
      counted_ofInt (n := low.length + 1) (by rw [abs_of_nonneg h0]; omega) (by omega)
    rw [addBack, less_zero hcounted, if_neg (by simpa using h0)]
    simp
  | succ k ih =>
    rw [Nat.cast_succ, add_mul, one_mul] at h0 hlt
    have hkb : (k : Int) * b.value ≤ 1 * b.value := mul_le_mul_of_nonneg_right (by omega) hpos.le
    have hk0 : 0 ≤ (k : Int) * b.value := mul_nonneg (by omega) hpos.le
    have hcounted : (ofInt z).Counted := by
      refine counted_ofInt (n := low.length + 2)
        (abs_lt_pow_succ (m := 2) (abs_le.mpr ⟨?_, ?_⟩) (by decide)) (by omega)
      · linarith
      · linarith
    have hbcounted : b.Counted := by
      have := hb.counted
      unfold Counted
      omega
    have hneg : z < 0 := by linarith
    have hsum : z + b.value + k * b.value = z + (k + 1 : Nat) * b.value := by
      push_cast
      ring
    have hdigit : d - 1 - k = d - (k + 1 : Nat) := by
      push_cast
      ring
    rw [show fuel + (k + 1) + 3 = fuel + k + 3 + 1 from by omega, addBack, less_zero hcounted,
      if_pos (by simpa using hneg), plus_spec (normal_ofInt z) hb.normal hcounted hbcounted,
      value_ofInt, Outcome.ok_bind, toInt_of_range (by omega) (by omega),
      ih (by omega) (by linarith) (by linarith) (by omega) (by omega), hsum, hdigit]

/-! ## One quotient limb -/

/-- The two limbs from which the quotient limb is estimated. -/
theorem top_limbs {a : List Int} (ha : Digits base a) {n : Nat} (hlen : a.length ≤ n + 2) :
    base * (if a.length ≤ n + 1 then 0 else a.getD (n + 1) 0) +
      (if a.length ≤ n then 0 else a.getD n 0) =
      ofLimbs base a / base ^ n := by
  by_cases hshort : a.length ≤ n
  · have hlt : ofLimbs base a < base ^ n :=
      lt_of_lt_of_le ha.lt_pow (pow_le_pow_right₀ (by decide) hshort)
    rw [if_pos (by omega), if_pos hshort, Int.ediv_eq_zero_of_lt (ha.nonneg base_pos.le) hlt]
    rfl
  · rw [if_neg hshort, ← ofLimbs_drop base_pos ha (by omega)]
    by_cases hone : a.length ≤ n + 1
    · have hdrop : a.drop n = [a[n]] := by
        rw [List.drop_eq_getElem_cons (by omega), List.drop_eq_nil_of_le (by omega)]
      rw [if_pos hone, hdrop, ofLimbs_singleton, List.getD_eq_getElem _ _ (by omega), mul_zero,
        zero_add]
    · have hdrop : a.drop n = [a[n], a[n + 1]] := by
        rw [List.drop_eq_getElem_cons (by omega), List.drop_eq_getElem_cons (by omega),
          List.drop_eq_nil_of_le (by omega)]
      rw [if_neg hone, hdrop, ofLimbs_cons, ofLimbs_singleton, List.getD_eq_getElem _ _ (by omega),
        List.getD_eq_getElem _ _ (by omega), add_comm]

theorem back_append (low : List Int) (top : Int) : back (low ++ [top]) = .ok top := by
  simp [back]

namespace Scaled

variable {z x u d : Int}

theorem counted_of_lt (h : Scaled b low top) (hu : |u| < base ^ (low.length + 2)) :
    (ofInt u).Counted := by
  have hcount := h.counted
  rw [h.length_eq] at hcount
  exact counted_ofInt hu (by omega)

theorem base_mul_value_le (h : Scaled b low top) : base * b.value ≤ base ^ (low.length + 2) := by
  have hle := mul_le_mul_of_nonneg_left h.value_lt.le base_pos.le
  rwa [← pow_succ'] at hle

/-- The remainder takes the next limb of the dividend. -/
theorem extend (hb : Scaled b low top) (hz0 : 0 ≤ z) (hz : z < b.value) (hx0 : 0 ≤ x)
    (hx : x < base) (fuel : Nat) :
    plus (fuel + 3) (timesInt (ofInt z) base) (ofLong x) = .ok (ofInt (z * base + x)) := by
  have hscaled : timesInt (ofInt z) base = ofInt (z * base) := by
    rw [timesInt_eq (normal_ofInt z).toSigned (by decide) (by decide), value_ofInt]
  have hlong : ofLong x = ofInt x := ofLong_eq (by omega) (by rw [base_eq] at hx; omega)
  have hzb : z * base < base ^ (low.length + 2) := by
    have hlt := mul_lt_mul_of_pos_right hz base_pos
    rw [mul_comm b.value] at hlt
    exact lt_of_lt_of_le hlt hb.base_mul_value_le
  have hcounted : (ofInt (z * base)).Counted :=
    hb.counted_of_lt (by rwa [abs_of_nonneg (mul_nonneg hz0 base_pos.le)])
  have hlimb : (ofInt x).Counted :=
    counted_ofInt (n := 1) (by rwa [abs_of_nonneg hx0, pow_one]) (by decide)
  rw [hscaled, hlong, plus_spec (normal_ofInt _) (normal_ofInt _) hcounted hlimb, value_ofInt,
    value_ofInt]

/-- The quotient of the top limbs against the quotient limb. -/
theorem estimate (hb : Scaled b low top) (hu0 : 0 ≤ u) (hu : u < base * b.value) :
    u / b.value ≤ u / base ^ low.length / top ∧
      u / base ^ low.length / top ≤ u / b.value + 2 ∧ u / base ^ low.length < base * base := by
  have hweight := pow_pos base_pos low.length
  obtain ⟨hge, hle⟩ := estimate_bounds hb.top_pos hweight hb.bounds.1 hb.bounds.2
    (Int.ediv_mul_le u hweight.ne') (Int.lt_ediv_add_one_mul_self u hweight) hu0 hu hb.half
  refine ⟨hge, hle, ?_⟩
  have hpow := lt_of_lt_of_le hu hb.base_mul_value_le
  rw [pow_succ', pow_succ', ← mul_assoc] at hpow
  rwa [Int.ediv_lt_iff_lt_mul hweight]

/-- The divisor times the estimate is taken from the remainder. -/
theorem subtract (hb : Scaled b low top) (hu0 : 0 ≤ u) (hu : u < base * b.value) (hd0 : 0 ≤ d)
    (hd : d ≤ u / b.value + 2) (fuel : Nat) :
    minus (fuel + 2) (ofInt u) (timesInt b d) = .ok (ofInt (u - b.value * d)) := by
  have hpos := hb.value_pos
  have hqb : u / b.value < base := Int.ediv_lt_of_lt_mul hpos hu
  have hproduct : timesInt b d = ofInt (b.value * d) := by
    rw [base_eq] at hqb
    exact timesInt_eq hb.normal.toSigned (by omega) (by omega)
  have hle : b.value * d ≤ 3 * base ^ (low.length + 2) := by
    have hdle : b.value * d ≤ b.value * (u / b.value + 2) := mul_le_mul_of_nonneg_left hd hpos.le
    have hquot : b.value * (u / b.value) ≤ u := Int.mul_ediv_self_le hpos.ne'
    have hone : 1 * b.value ≤ base * b.value := mul_le_mul_of_nonneg_right (by decide) hpos.le
    have hpow := hb.base_mul_value_le
    linarith
  have hcounted : (ofInt (b.value * d)).Counted := by
    have hcount := hb.counted
    rw [hb.length_eq] at hcount
    refine counted_ofInt (n := low.length + 2 + 1) (abs_lt_pow_succ (m := 3) ?_ (by decide))
      (by omega)
    rwa [abs_of_nonneg (mul_nonneg hpos.le hd0)]
  have hucounted : (ofInt u).Counted :=
    hb.counted_of_lt (by rw [abs_of_nonneg hu0]; exact lt_of_lt_of_le hu hb.base_mul_value_le)
  rw [hproduct, minus_spec (normal_ofInt _) (normal_ofInt _) hucounted hcounted, value_ofInt,
    value_ofInt]

/-- What was taken too much is added back. -/
theorem correct (hb : Scaled b low top) (hu0 : 0 ≤ u) (hu : u < base * b.value)
    (hge : u / b.value ≤ d) (hle : d ≤ u / b.value + 2) (fuel : Nat) :
    addBack b (fuel + 5) (ofInt (u - b.value * d)) d = .ok (ofInt (u % b.value), u / b.value) := by
  have hpos := hb.value_pos
  have hqb : u / b.value < base := Int.ediv_lt_of_lt_mul hpos hu
  have hq0 : 0 ≤ u / b.value := Int.ediv_nonneg hu0 hpos.le
  rw [base_eq] at hqb
  obtain ⟨k, hk⟩ : ∃ k : Nat, (k : Int) = d - u / b.value := ⟨(d - u / b.value).toNat, by omega⟩
  have hback : u - b.value * d + k * b.value = u % b.value := by
    rw [hk, Int.emod_def]
    ring
  have hcorrect := addBack_spec hb (k := k) (by omega) (z := u - b.value * d) (d := d)
    (fuel + (2 - k))
    (by rw [hback]; exact Int.emod_nonneg u hpos.ne')
    (by rw [hback]; exact Int.emod_lt_of_pos u hpos)
    (by omega) (by omega)
  rwa [show fuel + (2 - k) + k + 3 = fuel + 5 from by omega, hback,
    show d - (k : Int) = u / b.value from by omega] at hcorrect

end Scaled

/-- The next limb of the dividend makes the next limb of the quotient. -/
theorem divideStep_spec (hb : Scaled b low top) {z x : Int} (hz0 : 0 ≤ z) (hz : z < b.value)
    (hx0 : 0 ≤ x) (hx : x < base) (fuel : Nat) :
    divideStep (fuel + 5) b (ofInt z) x =
      .ok (ofInt ((z * base + x) % b.value), (z * base + x) / b.value) := by
  have hr := hb.extend hz0 hz hx0 hx (fuel + 2)
  have hu0 : 0 ≤ z * base + x := add_nonneg (mul_nonneg hz0 base_pos.le) hx0
  have hu : z * base + x < base * b.value := by
    have hle : z * base ≤ (b.value - 1) * base := mul_le_mul_of_nonneg_right (by omega) base_pos.le
    linarith
  obtain ⟨u, hz⟩ : ∃ u, u = z * base + x := ⟨_, rfl⟩
  rw [← hz] at hr hu0 hu ⊢
  have hq0 : 0 ≤ u / b.value := Int.ediv_nonneg hu0 hb.value_pos.le
  have hqb : u / b.value < 1000000000 := Int.ediv_lt_of_lt_mul hb.value_pos hu
  obtain ⟨hge, hle, hlt⟩ := hb.estimate hu0 hu
  obtain ⟨d, hd⟩ : ∃ d, d = u / base ^ low.length / top := ⟨_, rfl⟩
  rw [← hd] at hge hle
  -- the two top limbs and the last limb of the divisor
  have hulen : (ofInt u).a.length ≤ low.length + 2 :=
    (normal_ofInt u).length_le (by
      rw [value_ofInt, abs_of_nonneg hu0]
      exact lt_of_lt_of_le hu hb.base_mul_value_le)
  have humag : ofLimbs base (ofInt u).a = u := magnitude_ofInt_of_nonneg hu0
  have hlimbs := top_limbs (normal_ofInt u).digits hulen
  have hlast : back b.a = .ok top := by
    rw [hb.limbs]
    exact back_append low top
  have hh0 : 0 ≤ u / base ^ low.length := Int.ediv_nonneg hu0 (pow_pos base_pos _).le
  have hquotient : quotient (toLong (u / base ^ low.length)) top = .ok d := by
    rw [base_eq] at hlt hh0 hd ⊢
    rw [quotient, if_neg hb.top_pos.ne', toLong_of_range (by omega) (by omega),
      Int.tdiv_eq_ediv_of_nonneg hh0, ← hd]
  have hint : toInt d = d := toInt_of_range (by omega) (by omega)
  rw [divideStep, hr, Outcome.ok_bind]
  simp only [hb.length_eq, Nat.add_sub_cancel, hlimbs, humag, hlast, Outcome.ok_bind, hquotient,
    hint]
  rw [hb.subtract hu0 hu (by omega) hle (fuel + 3), Outcome.ok_bind, hb.correct hu0 hu hge hle]

/-- The limbs of the dividend, from the last one down, make those of the quotient. -/
theorem divideLoop_spec (hb : Scaled b low top) {xs : List Int} (hxs : Digits base xs) {z : Int}
    (hz0 : 0 ≤ z) (hz : z < b.value) (fuel : Nat) :
    ∃ ds, divideLoop (fuel + 5) b xs (ofInt z) =
        .ok (ds, ofInt ((z * base ^ xs.length + ofLimbs base xs.reverse) % b.value)) ∧
      Digits base ds ∧ ds.length = xs.length ∧
      ofLimbs base ds.reverse = (z * base ^ xs.length + ofLimbs base xs.reverse) / b.value := by
  have hpos := hb.value_pos
  induction xs generalizing z with
  | nil =>
    refine ⟨[], ?_, Digits.nil, rfl, ?_⟩
    · simp [divideLoop, Int.emod_eq_of_lt hz0 hz]
    · simp [Int.ediv_eq_zero_of_lt hz0 hz]
  | cons x xs ih =>
    obtain ⟨⟨hx0, hx⟩, hxs⟩ := Digits.cons_iff.mp hxs
    obtain ⟨u, hu⟩ : ∃ u, u = z * base + x := ⟨_, rfl⟩
    have hstep := divideStep_spec hb hz0 hz hx0 hx fuel
    rw [← hu] at hstep
    obtain ⟨ds, hds, hdigits, hlen, hvalue⟩ :=
      ih hxs (Int.emod_nonneg u hpos.ne') (Int.emod_lt_of_pos u hpos)
    have hu0 : 0 ≤ u := by
      rw [hu]
      exact add_nonneg (mul_nonneg hz0 base_pos.le) hx0
    have hub : u < base * b.value := by
      have hle : z * base ≤ (b.value - 1) * base :=
        mul_le_mul_of_nonneg_right (by omega) base_pos.le
      linarith
    -- the limb of the quotient is the multiple of the divisor that leaves the number
    have hwhole : z * base ^ (x :: xs).length + ofLimbs base (x :: xs).reverse =
        (u % b.value) * base ^ xs.length + ofLimbs base xs.reverse +
          b.value * (u / b.value * base ^ xs.length) := by
      have hdiv := Int.mul_ediv_add_emod u b.value
      rw [List.reverse_cons, ofLimbs_append, ofLimbs_singleton, List.length_reverse,
        List.length_cons, pow_succ]
      linear_combination -(base ^ xs.length * hu) - base ^ xs.length * hdiv
    rw [hwhole, Int.add_mul_emod_self_left, Int.add_mul_ediv_left _ _ hpos.ne']
    refine ⟨u / b.value :: ds, ?_, ?_, ?_, ?_⟩
    · rw [divideLoop, hstep, Outcome.ok_bind, hds, Outcome.ok_bind]
    · exact hdigits.cons (Int.ediv_nonneg hu0 hpos.le) (Int.ediv_lt_of_lt_mul hpos hub)
    · rw [List.length_cons, List.length_cons, hlen]
    · rw [List.reverse_cons, ofLimbs_append, ofLimbs_singleton, hvalue, List.length_reverse, hlen]
      ring

/-! ## The division -/

/-- The last limb of a number that is not zero, and what it says about the number. -/
theorem exists_top {v : Bigint} (hv : v.Signed) (hne : v.a ≠ []) :
    ∃ low top, v.a = low ++ [top] ∧ 0 < top ∧ top < base ∧ top * base ^ low.length ≤ v.magnitude ∧
      v.magnitude < (top + 1) * base ^ low.length := by
  obtain ⟨low, top, heq⟩ := (List.eq_nil_or_concat' v.a).resolve_left hne
  have hdigits := hv.digits
  rw [heq] at hdigits
  obtain ⟨hlow, htop⟩ := Digits.append_iff.mp hdigits
  obtain ⟨htop0, htopb⟩ := (Digits.cons_iff.mp htop).1
  have htopne : top ≠ 0 := by
    have hlast := hv.last
    simpa [heq] using hlast
  have h0 := hlow.nonneg base_pos.le
  have hlt := hlow.lt_pow
  have hvalue : v.magnitude = ofLimbs base low + base ^ low.length * top := by
    rw [magnitude, heq, ofLimbs_append, ofLimbs_singleton]
  refine ⟨low, top, heq, by omega, htopb, ?_, ?_⟩
  · rw [hvalue]
    linarith
  · rw [hvalue]
    linarith

/-- Scaled by `base / (top + 1)`, a number that is not zero is a divisor as the loop needs it. -/
theorem exists_scaled {v : Bigint} {init : List Int} {top : Int}
    (hlimbs : v.a = init ++ [top]) (hcount : v.a.length + 2 < 2147483648) (htop : 0 < top)
    (htopb : top < base) (hlo : top * base ^ init.length ≤ v.magnitude)
    (hhi : v.magnitude < (top + 1) * base ^ init.length) :
    ∃ low last, Scaled (ofInt (v.magnitude * (base / (top + 1)))) low last := by
  have hweight := pow_pos base_pos init.length
  have hnorm : 1 ≤ base / (top + 1) := by
    rw [Int.le_ediv_iff_mul_le (by omega)]
    omega
  obtain ⟨z, hz⟩ : ∃ z, z = v.magnitude * (base / (top + 1)) := ⟨_, rfl⟩
  have hupper : z < base * base ^ init.length := by
    rw [hz]
    exact scaled_lt htop hweight base_pos hhi
  have hlower : top * (base / (top + 1)) * base ^ init.length ≤ z := by
    have hle := mul_le_mul_of_nonneg_right hlo (by omega : 0 ≤ base / (top + 1))
    rw [hz]
    linarith
  have hone : 1 ≤ top * (base / (top + 1)) := by
    have hle := mul_le_mul_of_nonneg_left hnorm htop.le
    omega
  have hzpos : base ^ init.length ≤ z := by
    have hle := mul_le_mul_of_nonneg_right hone hweight.le
    linarith
  rw [← hz]
  have hmag : (ofInt z).magnitude = z := magnitude_ofInt_of_nonneg (by omega)
  have hnormal := normal_ofInt z
  have hlen : (ofInt z).a.length ≤ init.length + 1 :=
    hnormal.length_le (by rwa [value_ofInt, abs_of_nonneg (by omega), pow_succ'])
  have hne : (ofInt z).a ≠ [] := by
    intro hnil
    rw [magnitude, hnil, ofLimbs_nil] at hmag
    omega
  obtain ⟨low, last, heq, -, hlastb, -, hbound⟩ := exists_top hnormal.toSigned hne
  have hlow : low.length = init.length := by
    rw [heq, List.length_append, List.length_singleton] at hlen
    by_contra hshort
    have hpow : base ^ (low.length + 1) ≤ base ^ init.length :=
      pow_le_pow_right₀ (by decide) (by omega)
    have hlt := hnormal.magnitude_lt
    rw [heq, List.length_append, List.length_singleton, hmag] at hlt
    omega
  have hlast : top * (base / (top + 1)) ≤ last := by
    rw [hmag, hlow] at hbound
    exact Int.lt_add_one_iff.mp (lt_of_mul_lt_mul_right (lt_of_le_of_lt hlower hbound) hweight.le)
  refine ⟨low, last, hnormal, heq, ?_, ?_, ?_⟩
  · rw [ofInt, if_neg (by omega)]
  · exact le_trans (scaled_top (by decide) htop htopb) (by omega)
  · rw [hlimbs, List.length_append, List.length_singleton] at hcount
    omega

/-- The quotient of the magnitudes takes both signs. -/
theorem tdiv_signs {s t m n : Int} (hs : s = 1 ∨ s = -1) (ht : t = 1 ∨ t = -1) (hm : 0 ≤ m) :
    (s * m).tdiv (t * n) = s * t * (m / n) ∧ (s * m).tmod (t * n) = s * (m % n) := by
  obtain ⟨hdiv, hmod⟩ := tdiv_sign hs hm (t * n)
  rw [hdiv, hmod]
  rcases ht with rfl | rfl
  · rw [one_mul, mul_one]
    exact ⟨rfl, rfl⟩
  · rw [neg_one_mul, Int.ediv_neg, Int.emod_neg]
    exact ⟨by ring, rfl⟩

/-- The remainder that is left of the scaled numbers is scaled back. -/
theorem divideInt_scaled {s r norm : Int} (hs : s = 1 ∨ s = -1) (hr : 0 ≤ r) (hnorm : 1 ≤ norm)
    (hnormb : norm ≤ 1000000000) :
    divideInt (trim { ofInt (r * norm) with sign := s }) norm = .ok (ofInt (s * r)) := by
  have hnormal : (trim { ofInt (r * norm) with sign := s }).Normal :=
    normal_trim hs (normal_ofInt _).digits
  have hvalue : (trim { ofInt (r * norm) with sign := s }).value = s * r * norm := by
    have hmag : (ofInt (r * norm)).magnitude = r * norm :=
      magnitude_ofInt_of_nonneg (mul_nonneg hr (by omega))
    have hsigned : (trim { ofInt (r * norm) with sign := s }).value =
      s * (ofInt (r * norm)).magnitude :=
      value_trim _
    rw [hsigned, hmag, mul_assoc]
  rw [divideInt_eq hnormal.toSigned (by omega) (by omega) (by omega), hvalue,
    Int.mul_tdiv_cancel _ (by omega)]

theorem divmod_eq {a v : Bigint} (ha : a.Normal) (hv : v.Normal) (hne : v.a ≠ [])
    (hcount : v.a.length + 2 < 2147483648) (fuel : Nat) :
    divmod (fuel + 5) a v = .ok (ofInt (a.value.tdiv v.value), ofInt (a.value.tmod v.value)) := by
  obtain ⟨init, top, heq, htop, htopb, hlo, hhi⟩ := exists_top hv.toSigned hne
  obtain ⟨norm, hnorm⟩ : ∃ norm, norm = base / (top + 1) := ⟨_, rfl⟩
  have hnorm1 : 1 ≤ norm := by
    rw [hnorm, Int.le_ediv_iff_mul_le (by omega)]
    omega
  have hnormb : norm ≤ 1000000000 := by
    rw [hnorm]
    exact Int.ediv_le_self _ base_pos.le
  obtain ⟨low, last, hscaled⟩ := exists_scaled heq hcount htop htopb hlo hhi
  rw [← hnorm] at hscaled
  have hamag := ha.magnitude_nonneg
  have hvpos := hv.magnitude_pos hne
  have hback : back v.a = .ok top := by
    rw [heq]
    exact back_append init top
  have hquotient : quotient base (toInt (top + 1)) = .ok norm := by
    rw [base_eq] at htopb
    rw [toInt_of_range (by omega) (by omega), quotient, if_neg (by omega),
      Int.tdiv_eq_ediv_of_nonneg base_pos.le, ← hnorm]
  have hdividend : timesInt a.abs norm = ofInt (a.magnitude * norm) := by
    rw [timesInt_eq ha.abs.toSigned (by omega) (by omega), ha.value_abs]
  have hdivisor : timesInt v.abs norm = ofInt (v.magnitude * norm) := by
    rw [timesInt_eq hv.abs.toSigned (by omega) (by omega), hv.value_abs]
  -- the loop divides the scaled numbers
  obtain ⟨ds, hloop, hdigits, -, hvalue⟩ := divideLoop_spec hscaled
    (normal_ofInt (a.magnitude * norm)).digits.reverse (le_refl 0) hscaled.value_pos fuel
  have hzero : ofInt 0 = ⟨[], 1⟩ := by decide
  have hmagnitude : ofLimbs base (ofInt (a.magnitude * norm)).a = a.magnitude * norm :=
    magnitude_ofInt_of_nonneg (mul_nonneg hamag (by omega))
  rw [zero_mul, zero_add, List.reverse_reverse, hmagnitude, value_ofInt,
    Int.mul_ediv_mul_of_pos_left _ _ (by omega)] at hvalue
  rw [zero_mul, zero_add, List.reverse_reverse, hmagnitude, value_ofInt, hzero] at hloop
  have hmod : a.magnitude * norm % (v.magnitude * norm) = a.magnitude % v.magnitude * norm := by
    rw [mul_comm a.magnitude, mul_comm v.magnitude, Int.mul_emod_mul_of_pos _ _ (by omega),
      mul_comm]
  rw [hmod] at hloop
  obtain ⟨hdiv, hrem⟩ := tdiv_signs (n := v.magnitude) ha.sign hv.sign hamag
  rw [← value_eq, ← value_eq] at hdiv hrem
  have hq : trim ⟨ds.reverse, a.sign * v.sign⟩ = ofInt (a.value.tdiv v.value) := by
    have hnormal : (trim ⟨ds.reverse, a.sign * v.sign⟩).Normal :=
      normal_trim (sign_mul ha.sign hv.sign) hdigits.reverse
    rw [hnormal.eq_ofInt, value_trim, value_eq, magnitude, hvalue, hdiv]
  have hr := divideInt_scaled ha.sign (Int.emod_nonneg a.magnitude hvpos.ne') hnorm1 hnormb
  rw [← hrem] at hr
  rw [divmod, hback, Outcome.ok_bind, hquotient, Outcome.ok_bind]
  simp only [hdividend, hdivisor, hloop, Outcome.ok_bind, hq, hr]

theorem divmod_returns {a v : Bigint} (ha : a.Normal) (hv : v.Normal)
    (hcount : v.a.length + 2 < 2147483648) (hne : v.value ≠ 0) :
    Returns (fun fuel => divmod fuel a v)
      (ofInt (a.value.tdiv v.value), ofInt (a.value.tmod v.value)) := by
  have hlimbs : v.a ≠ [] := by
    intro hnil
    exact hne (by rw [value_eq, hv.magnitude_eq_zero_iff.mpr hnil, mul_zero])
  refine ⟨5, ?_⟩
  intro fuel hfuel
  obtain ⟨k, rfl⟩ := Nat.exists_eq_add_of_le' hfuel
  exact divmod_eq ha hv hlimbs hcount k

/-- Zero has no last limb. -/
theorem divmod_zero {a v : Bigint} (hv : v.Normal) (hzero : v.value = 0) :
    Faults (fun fuel => divmod fuel a v) .emptyVector := by
  have hmag : v.magnitude = 0 := by
    rw [hv.magnitude_eq, hzero, abs_zero]
  have hnil := hv.magnitude_eq_zero_iff.mp hmag
  refine ⟨0, ?_⟩
  intro fuel _
  show divmod fuel a v = _
  rw [divmod, hnil]
  rfl

theorem divmod_ofInt {x y : Int} (hy : y ≠ 0) (hcount : (ofInt y).a.length + 2 < 2147483648) :
    Returns (fun fuel => divmod fuel (ofInt x) (ofInt y)) (ofInt (x.tdiv y), ofInt (x.tmod y)) := by
  have h := @divmod_returns (ofInt x) (ofInt y) (normal_ofInt x) (normal_ofInt y) hcount
  rw [value_ofInt, value_ofInt] at h
  exact h hy

theorem divide_ofInt {x y : Int} (hy : y ≠ 0) (hcount : (ofInt y).a.length + 2 < 2147483648) :
    Returns (fun fuel => divide fuel (ofInt x) (ofInt y)) (ofInt (x.tdiv y)) :=
  (divmod_ofInt hy hcount).bind (.const rfl)

theorem modulo_ofInt {x y : Int} (hy : y ≠ 0) (hcount : (ofInt y).a.length + 2 < 2147483648) :
    Returns (fun fuel => modulo fuel (ofInt x) (ofInt y)) (ofInt (x.tmod y)) :=
  (divmod_ofInt hy hcount).bind (.const rfl)

theorem divide_zero (a : Bigint) : Faults (fun fuel => divide fuel a (ofInt 0)) .emptyVector :=
  (divmod_zero (normal_ofInt 0) (value_ofInt 0)).bind _

theorem modulo_zero (a : Bigint) : Faults (fun fuel => modulo fuel a (ofInt 0)) .emptyVector :=
  (divmod_zero (normal_ofInt 0) (value_ofInt 0)).bind _

/-- Division returns the truncated quotient and remainder for every divisor but zero; for
zero it uses the last limb of an empty vector. -/
theorem divmod_spec {a v : Bigint} (ha : a.CountedWith 1) (hv : v.CountedWith 2) :
    (v.value ≠ 0 → Returns (fun fuel => divmod fuel a v)
      (ofInt (a.value.tdiv v.value), ofInt (a.value.tmod v.value))) ∧
    (v.value = 0 → Faults (fun fuel => divmod fuel a v) .emptyVector) :=
  ⟨divmod_returns ha.toNormal hv.toNormal hv.counted, divmod_zero hv.toNormal⟩

/-- The second limb is estimated one too large, and the third one two. -/
theorem divmod_spec_corrected : Returns (fun fuel => divmod fuel ⟨[0, 0, 500000000], -1⟩
    ⟨[999999999, 500000000], 1⟩) (ofInt (-999999998), ofInt (-2999999998)) := by
  have h := (divmod_spec (a := ⟨[0, 0, 500000000], -1⟩) (v := ⟨[999999999, 500000000], 1⟩)
    (by decide) (by decide)).1 (by decide)
  have hq : (value ⟨[0, 0, 500000000], -1⟩).tdiv (value ⟨[999999999, 500000000], 1⟩) =
      -999999998 := by
    decide
  have hr : (value ⟨[0, 0, 500000000], -1⟩).tmod (value ⟨[999999999, 500000000], 1⟩) =
      -2999999998 := by decide
  rwa [hq, hr] at h

end Bigint

end StateDb
