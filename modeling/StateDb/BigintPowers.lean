/-
  StateDb/BigintPowers.lean
  =========================
  **Powers and common divisors of bigints** (`bigint.h`: `operator^`, `gcd`, `lcm`).

  `operator^` squares and multiplies along the bits of the exponent.  The sign of the
  exponent is never looked at, so a negative exponent counts as its absolute value; and the
  last square is computed and thrown away.  No factor of these products is larger than the
  power itself, so the power is exact when it has 12882 decimal digits at most
  (`power_spec`).  For 0, 1 and -1 that bounds no exponent, and an `int` must count its limbs.

  `gcd` is Euclid's algorithm over the truncated remainder.  Its result may have either sign
  (`gcd_spec`), and `lcm` divides by it before it multiplies: two zeros divide by zero
  (`lcm_spec`).
-/
import StateDb.BigintDivision
import StateDb.BigintProduct
import Mathlib.Algebra.Order.Ring.Abs
import Mathlib.Data.Int.GCD

namespace StateDb

open Lib Lib.Radix

namespace Bigint

/-- The loop of `operator^`. -/
def powerLoop : Nat → Bigint → Bigint → Bigint → Outcome ArithFault Bigint
  | 0, _, _, _ => .outOfFuel
  | fuel + 1, ans, a, b =>
      if b.isZero then .ok ans
      else do
        let bit ← moduloInt b 2
        let ans ← (if bit ≠ 0 then times fuel ans a else .ok ans)
        let a ← times fuel a a
        let b ← divideInt b 2
        powerLoop fuel ans a b

/-- `operator^`. -/
def power (fuel : Nat) (b v : Bigint) : Outcome ArithFault Bigint :=
  powerLoop fuel (ofLong 1) b v

def gcd : Nat → Bigint → Bigint → Outcome ArithFault Bigint
  | 0, _, _ => .outOfFuel
  | fuel + 1, a, b =>
      if b.isZero then .ok a
      else do
        let r ← modulo fuel a b
        gcd fuel b r

def lcm (fuel : Nat) (a b : Bigint) : Outcome ArithFault Bigint := do
  let g ← gcd fuel a b
  let q ← divide fuel a g
  times fuel q b

/-! ## Operations on integers -/

theorem isZero_ofInt (z : Int) : (ofInt z).isZero = decide (z = 0) := by
  have hnormal := normal_ofInt z
  have hone : (ofInt z).a ≠ [0] := by
    intro h
    exact hnormal.last (by rw [h]; rfl)
  have hnil : (ofInt z).a = [] ↔ z = 0 := by
    rw [← hnormal.magnitude_eq_zero_iff, magnitude_ofInt]
    omega
  simp [isZero, hone, hnil]

theorem length_ofInt_le {x y : Int} (h : x.natAbs ≤ y.natAbs) :
    (ofInt x).a.length ≤ (ofInt y).a.length := by
  have hlt := (normal_ofInt y).abs_value_lt
  rw [value_ofInt, Int.abs_eq_natAbs] at hlt
  refine (normal_ofInt x).length_le ?_
  rw [value_ofInt, Int.abs_eq_natAbs]
  omega

/-! ## Powers -/

/-- A lower power is not larger than the power, or it is one. -/
theorem pow_lt_of_le {y bound : Int} {k n : Nat} (hbound : 1 < bound) (hk : k ≤ n)
    (h : |y| ^ n < bound) : |y| ^ k < bound := by
  by_cases hy : y = 0
  · have hle : |y| ^ k ≤ 1 := pow_le_one₀ (abs_nonneg y) (by rw [hy]; decide)
    omega
  · have hone : 1 ≤ |y| := Int.one_le_abs hy
    exact lt_of_le_of_lt (pow_le_pow_right₀ hone hk) h

theorem one_lt_pow_digits : (1 : Int) < 10 ^ 12882 := one_lt_pow₀ (by decide) (by decide)

/-- The power is split at the last bit of the exponent. -/
theorem mul_pow_bit (x y : Int) (n : Nat) :
    (if n % 2 = 1 then x * y else x) * (y * y) ^ (n / 2) = x * y ^ n := by
  rw [← pow_two, ← pow_mul]
  by_cases hodd : n % 2 = 1
  · rw [if_pos hodd, mul_assoc, ← pow_succ']
    congr 2
    omega
  · rw [if_neg hodd]
    congr 2
    omega

theorem tmod_two_ne_zero {z : Int} {n : Nat} (hz : z.natAbs = n) : z.tmod 2 ≠ 0 ↔ n % 2 = 1 := by
  have habs : (z.tmod 2).natAbs = n % 2 := by
    rw [Int.natAbs_tmod, hz]
    rfl
  omega

/-- One iteration for each bit of the exponent. -/
theorem powerLoop_spec (n : Nat) {x y z : Int} (hz : z.natAbs = n) (hsmall : |y| ^ n < 10 ^ 12882) :
    Returns (fun fuel => powerLoop fuel (ofInt x) (ofInt y) (ofInt z)) (ofInt (x * y ^ n)) := by
  induction n using Nat.strong_induction_on generalizing x y z with
  | _ n ih =>
    by_cases hzero : z = 0
    · refine Returns.of_succ ⟨0, ?_⟩
      intro fuel _
      show powerLoop (fuel + 1) _ _ _ = _
      obtain rfl : n = 0 := by omega
      rw [powerLoop, isZero_ofInt, if_pos (by simpa using hzero), pow_zero, mul_one]
    · have hy : |y| < 10 ^ 12882 := by
        have hone := pow_lt_of_le (k := 1) one_lt_pow_digits (by omega) hsmall
        rwa [pow_one] at hone
      have hbit : moduloInt (ofInt z) 2 = .ok (z.tmod 2) := by
        rw [moduloInt_eq (normal_ofInt z).toSigned (by decide) (by decide) (by decide), value_ofInt]
      have hhalf : divideInt (ofInt z) 2 = .ok (ofInt (z.tdiv 2)) := by
        rw [divideInt_eq (normal_ofInt z).toSigned (by decide) (by decide) (by decide), value_ofInt]
      have hodd := tmod_two_ne_zero hz
      have hleft : (z.tdiv 2).natAbs = n / 2 := by
        rw [Int.natAbs_tdiv, hz]
        rfl
      have hproduct : Returns (fun fuel => times fuel (ofInt x) (ofInt y)) (ofInt (x * y)) :=
        times_ofInt (Or.inr hy)
      have hsquare : Returns (fun fuel => times fuel (ofInt y) (ofInt y)) (ofInt (y * y)) :=
        times_ofInt (Or.inl hy)
      have hans : Returns
          (fun fuel => if z.tmod 2 ≠ 0 then times fuel (ofInt x) (ofInt y) else .ok (ofInt x))
          (ofInt (if n % 2 = 1 then x * y else x)) := by
        by_cases hbit : n % 2 = 1
        · simp only [if_pos (hodd.mpr hbit), if_pos hbit]
          exact hproduct
        · simp only [if_neg (mt hodd.mp hbit), if_neg hbit]
          exact .const rfl
      have hpow : |y * y| ^ (n / 2) < 10 ^ 12882 := by
        rw [abs_mul, ← pow_two, ← pow_mul]
        exact pow_lt_of_le one_lt_pow_digits (by omega) hsmall
      have hrest := @ih (n / 2) (by omega) (if n % 2 = 1 then x * y else x) (y * y)
        (z.tdiv 2) hleft hpow
      rw [mul_pow_bit] at hrest
      have hround := hans.bind (g := fun fuel ans => do
        let a ← times fuel (ofInt y) (ofInt y)
        powerLoop fuel ans a (ofInt (z.tdiv 2))) (hsquare.bind hrest)
      refine Returns.of_succ (hround.congr ?_)
      intro fuel
      rw [powerLoop, isZero_ofInt, if_neg (by simpa using hzero), hbit, Outcome.ok_bind]
      simp only [hhalf, Outcome.ok_bind]

/-- `operator^` is the power by the absolute value of the exponent. -/
theorem power_spec {b v : Bigint} (hb : b.Normal) (hv : v.CountedWith 0)
    (hsmall : |b.value| ^ v.value.natAbs < 10 ^ 12882) :
    Returns (fun fuel => power fuel b v) (ofInt (b.value ^ v.value.natAbs)) := by
  have hloop := @powerLoop_spec v.value.natAbs 1 b.value v.value rfl hsmall
  rw [one_mul, ← hb.eq_ofInt, ← hv.eq_ofInt] at hloop
  refine hloop.congr ?_
  intro fuel
  rw [power, ofLong_eq (by decide) (by decide)]

theorem power_spec_negative : Returns (fun fuel => power fuel ⟨[3], -1⟩ ⟨[25], -1⟩)
    (ofInt (-847288609443)) := by
  have hpower := @power_spec ⟨[3], -1⟩ ⟨[25], -1⟩ (by decide) (by decide)
    (lt_of_lt_of_le (by decide : (3 : Int) ^ 25 < 10 ^ 25)
      (pow_le_pow_right₀ (by decide) (by decide)))
  exact hpower

/-! ## Common divisors -/

theorem gcd_ofInt (n : Nat) {x y : Int} (hn : y.natAbs = n)
    (hcount : (ofInt y).a.length + 2 < 2147483648) :
    ∃ g : Int, Returns (fun fuel => gcd fuel (ofInt x) (ofInt y))
      (ofInt g) ∧ g.natAbs = Int.gcd x y := by
  induction n using Nat.strong_induction_on generalizing x y with
  | _ n ih =>
    by_cases hzero : y = 0
    · refine ⟨x, Returns.of_succ ⟨0, ?_⟩, by rw [hzero, Int.gcd_zero_right]⟩
      intro fuel _
      show gcd (fuel + 1) _ _ = _
      rw [gcd, isZero_ofInt, if_pos (by simpa using hzero)]
    · have hrem : (x.tmod y).natAbs < y.natAbs := by
        rw [Int.natAbs_tmod]
        exact Nat.mod_lt _ (by omega)
      have hlen : (ofInt (x.tmod y)).a.length ≤ (ofInt y).a.length := length_ofInt_le (by omega)
      obtain ⟨g, hg, hgcd⟩ := @ih (x.tmod y).natAbs (by omega) y (x.tmod y) rfl (by omega)
      refine ⟨g, Returns.of_succ (((modulo_ofInt hzero hcount).bind hg).congr ?_), ?_⟩
      · intro fuel
        rw [gcd, isZero_ofInt, if_neg (by simpa using hzero)]
      · rw [hgcd, Int.gcd_def, Int.natAbs_tmod, Nat.gcd_comm, ← Nat.gcd_rec, Int.gcd_def,
          Nat.gcd_comm]

/-- `gcd` ends, with the greatest common divisor up to its sign. -/
theorem gcd_spec {a b : Bigint} (ha : a.CountedWith 1) (hb : b.CountedWith 2) :
    ∃ g, Returns (fun fuel => gcd fuel a b) g ∧ g.Normal ∧
      g.value.natAbs = Int.gcd a.value b.value := by
  have hcount := hb.counted
  rw [hb.eq_ofInt] at hcount
  obtain ⟨g, hg, hgcd⟩ := @gcd_ofInt b.value.natAbs a.value b.value rfl hcount
  rw [← ha.eq_ofInt, ← hb.eq_ofInt] at hg
  exact ⟨ofInt g, hg, normal_ofInt g, by rw [value_ofInt, hgcd]⟩

theorem gcd_spec_negative : ∃ g, Returns (fun fuel => gcd fuel ⟨[0, 12], -1⟩ ⟨[0, 18], 1⟩) g ∧
    g.Normal ∧
    g.value.natAbs = 6000000000 := by
  obtain ⟨g, hg, hnormal, hgcd⟩ := @gcd_spec ⟨[0, 12], -1⟩ ⟨[0, 18], 1⟩ (by decide) (by decide)
  exact ⟨g, hg, hnormal, hgcd⟩

/-- A common divisor has no more limbs than the numbers. -/
theorem length_of_divisor {x y g : Int} (hne : x ≠ 0 ∨ y ≠ 0) (hgcd : g.natAbs = Int.gcd x y) :
    (ofInt g).a.length ≤ max (ofInt x).a.length (ofInt y).a.length := by
  rcases hne with hx | hy
  · have hle := length_ofInt_le (x := g) (y := x)
      (hgcd ▸ Nat.le_of_dvd (by omega) (Nat.gcd_dvd_left _ _))
    omega
  · have hle := length_ofInt_le (x := g) (y := y)
      (hgcd ▸ Nat.le_of_dvd (by omega) (Nat.gcd_dvd_right _ _))
    omega

theorem abs_tdiv_le (x g : Int) : |x.tdiv g| ≤ |x| := by
  rw [Int.abs_eq_natAbs, Int.abs_eq_natAbs, Int.natAbs_tdiv]
  exact_mod_cast Nat.div_le_self _ _

/-- `lcm` is the least common multiple up to its sign; two zeros divide by zero.  Numbers of
357913941 limbs have `2^29` limbs of six digits at most, and their product has an `int` of
them. -/
theorem lcm_spec {a b : Bigint} (ha : a.Normal) (hb : b.Normal) (halen : a.a.length ≤ 357913941)
    (hblen : b.a.length ≤ 357913941)
    (hsmall : |a.value| < 10 ^ 12882 ∨ |b.value| < 10 ^ 12882) :
    (a.value ≠ 0 ∨ b.value ≠ 0 → ∃ l, Returns (fun fuel => lcm fuel a b) l ∧ l.Normal ∧
      l.value.natAbs = Int.lcm a.value b.value) ∧
    (a.value = 0 → b.value = 0 → Faults (fun fuel => lcm fuel a b) .emptyVector) := by
  obtain ⟨x, hx⟩ : ∃ x, x = a.value := ⟨_, rfl⟩
  obtain ⟨y, hy⟩ : ∃ y, y = b.value := ⟨_, rfl⟩
  rw [ha.eq_ofInt, ← hx] at halen ⊢
  rw [hb.eq_ofInt, ← hy] at hblen ⊢
  rw [← hx, ← hy] at hsmall
  rw [value_ofInt, value_ofInt]
  obtain ⟨g, hg, hgcd⟩ := @gcd_ofInt y.natAbs x y rfl (by omega)
  constructor
  · intro hne
    have hpos : 0 < Int.gcd x y := Int.gcd_pos_iff.mpr hne
    have hgc : (ofInt g).a.length + 2 < 2147483648 := by
      have hlen := length_of_divisor hne hgcd
      omega
    have hquot : (x.tdiv g).natAbs = x.natAbs / Int.gcd x y := by
      rw [Int.natAbs_tdiv, hgcd]
      rfl
    have hproduct := @times_ofInt (x.tdiv g) y (hsmall.imp_left (lt_of_le_of_lt (abs_tdiv_le x g)))
    refine ⟨ofInt (x.tdiv g * y), hg.bind ((divide_ofInt (by omega) hgc).bind hproduct),
      normal_ofInt _, ?_⟩
    rw [value_ofInt, Int.natAbs_mul, hquot, Int.gcd_def, Int.lcm_def, Nat.lcm_eq_mul_div,
      Nat.div_mul_right_comm (Nat.gcd_dvd_left _ _)]
  · intro hx0 hy0
    have hg0 : g = 0 := by
      rw [hx0, hy0, Int.gcd_zero_right] at hgcd
      omega
    rw [hg0] at hg
    exact hg.leads.faults ((divide_zero (ofInt x)).bind _)

theorem lcm_spec_negative : (∃ l, Returns (fun fuel => lcm fuel ⟨[0, 12], -1⟩ ⟨[0, 18], 1⟩) l ∧
    l.Normal ∧ l.value.natAbs = 36000000000) ∧
      Faults (fun fuel => lcm fuel ⟨[], 1⟩ ⟨[], 1⟩) .emptyVector := by
  have hsmall : |value ⟨[0, 12], -1⟩| < 10 ^ 12882 :=
    lt_of_lt_of_le (by decide : (12000000000 : Int) < 10 ^ 11)
      (pow_le_pow_right₀ (by decide) (by decide))
  obtain ⟨l, hl, hnormal, hlcm⟩ := (@lcm_spec ⟨[0, 12], -1⟩ ⟨[0, 18], 1⟩ (by decide) (by decide)
    (by decide) (by decide) (Or.inl hsmall)).1 (Or.inl (by decide))
  exact ⟨⟨l, hl, hnormal, hlcm⟩, (@lcm_spec ⟨[], 1⟩ ⟨[], 1⟩ (by decide) (by decide) (by decide)
    (by decide) (Or.inl (lt_trans (by decide) one_lt_pow_digits))).2 rfl rfl⟩

end Bigint

end StateDb
