/-
  StateDb/BigintConvert.lean
  ==========================
  **Limbs of another number of digits** (`bigint.h`: `convert_base`).

  `convert_base` turns limbs of `old_digits` decimal digits into limbs of `new_digits`.  It
  collects digits in a `long long` and sends off a new limb whenever there are enough.

  As long as a limb is an `int` and what is collected fits in a `long long`, the new limbs
  are digits, denote the same number and have no zero on top (`convertBase_spec`).  So
  limbs without a zero on top come back from there and back again, when an `int` counts the
  limbs on both ways.
-/
import StateDb.BigintSums

namespace StateDb

open Lib Lib.Radix

namespace Bigint

/-- `p[k]`, a power of ten in a `long long`. -/
def tenPower (k : Nat) : Int := toLong (10 ^ k)

/-- The inner loop of `convert_base`: the limbs that are sent off, and what stays collected.
The counter of digits falls in every round. -/
def drain (newDigits : Nat) : Nat → Int → Nat → List Int × Int × Nat
  | 0, cur, curDigits => ([], cur, curDigits)
  | fuel + 1, cur, curDigits =>
      if newDigits ≤ curDigits then
        let rest := drain newDigits fuel (cur.tdiv (tenPower newDigits)) (curDigits - newDigits)
        (toInt (cur.tmod (tenPower newDigits)) :: rest.1, rest.2)
      else ([], cur, curDigits)

/-- The outer loop of `convert_base`, and the limb that it pushes last. -/
def convertLimbs (oldDigits newDigits : Nat) : List Int → Int → Nat → List Int
  | [], cur, _ => [toInt cur]
  | x :: xs, cur, curDigits =>
      let r := drain newDigits (curDigits + oldDigits)
        (toLong (cur + toLong (x * tenPower curDigits))) (curDigits + oldDigits)
      r.1 ++ convertLimbs oldDigits newDigits xs r.2.1 r.2.2

def convertBase (a : List Int) (oldDigits newDigits : Nat) : List Int :=
  (convertLimbs oldDigits newDigits a 0 0).rdropWhile (· = 0)

theorem tenPower_eq {k : Nat} (h : k ≤ 18) : tenPower k = 10 ^ k := by
  have hle : (10 : Int) ^ k ≤ 10 ^ 18 := pow_le_pow_right₀ (by decide) h
  have hpos : (0 : Int) < 10 ^ k := by positivity
  exact toLong_of_range (by omega) (by omega)

/-- What is sent off and what stays are the digits that were collected. -/
theorem drain_spec {newDigits : Nat} (hnew : 0 < newDigits) (hint : newDigits ≤ 9) {fuel k : Nat}
    {cur : Int} (hfuel : k ≤ fuel) (h0 : 0 ≤ cur) (hcur : cur < 10 ^ k) :
    Digits (10 ^ newDigits) (drain newDigits fuel cur k).1 ∧
      (drain newDigits fuel cur k).2.2 < newDigits ∧
      0 ≤ (drain newDigits fuel cur k).2.1 ∧
      (drain newDigits fuel cur k).2.1 < 10 ^ (drain newDigits fuel cur k).2.2 ∧
      k = newDigits * (drain newDigits fuel cur k).1.length + (drain newDigits fuel cur k).2.2 ∧
      cur = ofLimbs (10 ^ newDigits) (drain newDigits fuel cur k).1 +
        (10 ^ newDigits) ^ (drain newDigits fuel cur k).1.length *
        (drain newDigits fuel cur k).2.1 := by
  induction fuel generalizing cur k with
  | zero =>
    obtain rfl : k = 0 := by omega
    simpa [drain, Digits.nil] using ⟨hnew, h0, hcur⟩
  | succ fuel ih =>
    rw [drain]
    by_cases hfull : newDigits ≤ k
    · obtain ⟨p, hp⟩ : ∃ p : Int, p = 10 ^ newDigits := ⟨_, rfl⟩
      have hp0 : 0 < p := by rw [hp]; positivity
      have hpint : p ≤ 1000000000 := by
        have hle : (10 : Int) ^ newDigits ≤ 10 ^ 9 := pow_le_pow_right₀ (by decide) hint
        omega
      have hmod0 := Int.emod_nonneg cur hp0.ne'
      have hmod := Int.emod_lt_of_pos cur hp0
      have hdiv := Int.mul_ediv_add_emod cur p
      have hrest : cur / p < 10 ^ (k - newDigits) := by
        rw [Int.ediv_lt_iff_lt_mul hp0, hp, ← pow_add, Nat.sub_add_cancel hfull]
        exact hcur
      obtain ⟨hdigits, hleft, hcur0, hcurlt, hcount, hvalue⟩ :=
        @ih (k - newDigits) (cur / p) (by omega) (Int.ediv_nonneg h0 hp0.le) hrest
      rw [if_pos hfull, tenPower_eq (by omega), ← hp, Int.tdiv_eq_ediv_of_nonneg h0,
        Int.tmod_eq_emod_of_nonneg h0, toInt_of_range (by omega) (by omega)]
      rw [← hp] at hdigits hvalue
      refine ⟨hdigits.cons hmod0 hmod, hleft, hcur0, hcurlt, ?_, ?_⟩
      · dsimp only
        rw [List.length_cons, Nat.mul_succ]
        omega
      · dsimp only
        rw [List.length_cons, ofLimbs_cons, pow_succ']
        linear_combination p * hvalue - hdiv
    · rw [if_neg hfull]
      simpa [Digits.nil] using ⟨by omega, h0, hcur⟩

theorem convertLimbs_spec {oldDigits newDigits : Nat} (hnew : 0 < newDigits) (hint : newDigits ≤ 9)
    (hlong : oldDigits + newDigits ≤ 19) {a : List Int} (ha : Digits (10 ^ oldDigits) a) {cur : Int}
    {k : Nat} (hk : k < newDigits) (h0 : 0 ≤ cur) (hcur : cur < 10 ^ k) :
    Digits (10 ^ newDigits) (convertLimbs oldDigits newDigits a cur k) ∧
      ofLimbs (10 ^ newDigits) (convertLimbs oldDigits newDigits a cur k) =
        cur + 10 ^ k * ofLimbs (10 ^ oldDigits) a := by
  induction a generalizing cur k with
  | nil =>
    have hpow : (10 : Int) ^ k < 10 ^ newDigits := pow_lt_pow_right₀ (by decide) hk
    have hint' : (10 : Int) ^ newDigits ≤ 10 ^ 9 := pow_le_pow_right₀ (by decide) hint
    rw [convertLimbs, toInt_of_range (by omega) (by omega)]
    exact ⟨Digits.nil.cons h0 (by omega), by simp⟩
  | cons x xs ih =>
    obtain ⟨⟨hx, hxb⟩, hxs⟩ := Digits.cons_iff.mp ha
    have hten : (0 : Int) < 10 ^ k := by positivity
    -- the digits that are collected
    have hnext : cur + x * 10 ^ k < 10 ^ (k + oldDigits) := by
      have hle : (x + 1) * 10 ^ k ≤ 10 ^ oldDigits * 10 ^ k :=
        mul_le_mul_of_nonneg_right (by omega) hten.le
      rw [pow_add, mul_comm (10 ^ k)]
      linarith
    have hnext0 : 0 ≤ x * 10 ^ k := mul_nonneg hx hten.le
    have hfits : (10 : Int) ^ (k + oldDigits) ≤ 10 ^ 18 := pow_le_pow_right₀ (by decide) (by omega)
    have hcollect : toLong (cur + toLong (x * tenPower k)) = cur + x * 10 ^ k := by
      rw [tenPower_eq (by omega), toLong_of_range (n := x * 10 ^ k) (by omega) (by omega),
        toLong_of_range (by omega) (by omega)]
    obtain ⟨hout, hleft, hcur0, hcurlt, hcount, hvalue⟩ :=
      drain_spec hnew hint (le_refl (k + oldDigits)) (by omega) hnext
    rw [convertLimbs, hcollect]
    obtain ⟨r, hr⟩ : ∃ r, r = drain newDigits (k + oldDigits) (cur + x * 10 ^ k) (k + oldDigits) :=
      ⟨_, rfl⟩
    rw [← hr] at hout hleft hcur0 hcurlt hcount hvalue ⊢
    obtain ⟨hdigits, hrest⟩ := ih hxs hleft hcur0 hcurlt
    refine ⟨Digits.append_iff.mpr ⟨hout, hdigits⟩, ?_⟩
    have hweight :
        (10 : Int) ^ k * 10 ^ oldDigits = (10 ^ newDigits) ^ r.1.length * 10 ^ r.2.2 := by
      rw [← pow_add, ← pow_mul, ← pow_add, hcount]
    rw [ofLimbs_append, hrest, ofLimbs_cons]
    linear_combination -hvalue - ofLimbs (10 ^ oldDigits) xs * hweight

theorem last_rdropWhile (a : List Int) : (a.rdropWhile (· = 0)).getLast? ≠ some 0 := by
  intro htop
  obtain ⟨low, heq⟩ := List.getLast?_eq_some_iff.mp htop
  have hlast := List.rdropWhile_last_not (fun x : Int => decide (x = 0)) a
  rw [heq] at hlast
  simpa using hlast (by simp)

/-- Limbs that are digits, and that an `int` counts. -/
structure CountedDigits (radix : Int) (a : List Int) : Prop where
  digits : Digits radix a
  counted : a.length < 2147483648

/-- The limbs of `new_digits` digits denote the number that the limbs of `old_digits` did. -/
theorem convertBase_digits {oldDigits newDigits : Nat} (hnew : 0 < newDigits) (hint : newDigits ≤ 9)
    (hlong : oldDigits + newDigits ≤ 19) {a : List Int} (ha : Digits (10 ^ oldDigits) a) :
    Digits (10 ^ newDigits) (convertBase a oldDigits newDigits) ∧
      ofLimbs (10 ^ newDigits) (convertBase a oldDigits newDigits) = ofLimbs (10 ^ oldDigits) a ∧
      (convertBase a oldDigits newDigits).getLast? ≠ some 0 := by
  obtain ⟨hdigits, hvalue⟩ := convertLimbs_spec hnew hint hlong ha hnew (le_refl 0) (by decide)
  refine ⟨hdigits.rdropWhile _, ?_, last_rdropWhile _⟩
  rw [convertBase, ofLimbs_rdropWhile_zero, hvalue, pow_zero, one_mul, zero_add]

/-- `convert_base` keeps the number; limbs without a zero on top come back as they were. -/
theorem convertBase_spec {oldDigits newDigits : Nat} (hold : 0 < oldDigits) (hnew : 0 < newDigits)
    (holdInt : oldDigits ≤ 9) (hnewInt : newDigits ≤ 9) {a : List Int}
    (ha : CountedDigits (10 ^ oldDigits) a) :
    Digits (10 ^ newDigits) (convertBase a oldDigits newDigits) ∧
      ofLimbs (10 ^ newDigits) (convertBase a oldDigits newDigits) = ofLimbs (10 ^ oldDigits) a ∧
      (a.getLast? ≠ some 0 → (convertBase a oldDigits newDigits).length < 2147483648 →
        convertBase (convertBase a oldDigits newDigits) newDigits oldDigits = a) := by
  obtain ⟨hdigits, hvalue, -⟩ := convertBase_digits hnew hnewInt (by omega) ha.digits
  refine ⟨hdigits, hvalue, ?_⟩
  intro hlast _
  obtain ⟨hback, hvalueBack, hlastBack⟩ := convertBase_digits hold holdInt (by omega) hdigits
  exact Digits.unique (by positivity) hback ha.digits hlastBack hlast (hvalueBack.trans hvalue)

theorem convertBase_spec_six :
    convertBase (convertBase [123456789, 0, 987654321] 9 6) 6 9 = [123456789, 0, 987654321] :=
  (@convertBase_spec 9 6 (by decide) (by decide) (by decide) (by decide) [123456789, 0, 987654321]
    ⟨by decide, by decide⟩).2.2 (by decide) (by decide)

end Bigint

end StateDb
