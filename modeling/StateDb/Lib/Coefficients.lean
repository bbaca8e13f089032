/-
  StateDb/Lib/Coefficients.lean
  =============================
  **Polynomials as lists of coefficients.**

  `toPoly` is the polynomial with the given coefficients, lowest first; its value at the
  base is the number that the coefficients denote as limbs (`eval_toPoly`).

  A product of digits has coefficients that are bounded by the shorter factor
  (`coeff_mul_le`).  So a product that is known only up to a ring homomorphism, such as
  reduction modulo a word, is known exactly when the homomorphism tells apart numbers
  within the bound (`toPoly_eq_of_map`).
-/
import StateDb.Lib.Radix
import Mathlib.Algebra.Polynomial.Eval.Coeff
import Mathlib.Data.List.GetD

namespace StateDb.Lib.Coefficients

open Polynomial Radix

variable {R S : Type} [CommRing R] [CommRing S]

/-- The polynomial with these coefficients. -/
noncomputable def toPoly (a : List R) : R[X] := ofLimbs X (a.map C)

@[simp] theorem toPoly_nil : toPoly ([] : List R) = 0 := rfl

@[simp] theorem toPoly_cons (x : R) (a : List R) : toPoly (x :: a) = C x + X * toPoly a := rfl

theorem toPoly_append (a c : List R) : toPoly (a ++ c) = toPoly a + X ^ a.length * toPoly c := by
  rw [toPoly, List.map_append, ofLimbs_append, List.length_map]
  rfl

theorem toPoly_take_drop (a : List R) {k : Nat} (h : k ≤ a.length) :
    toPoly (a.take k) + X ^ k * toPoly (a.drop k) = toPoly a := by
  have happend := toPoly_append (a.take k) (a.drop k)
  rw [List.take_append_drop, List.length_take, Nat.min_eq_left h] at happend
  exact happend.symm

@[simp] theorem toPoly_replicate_zero (n : Nat) : toPoly (List.replicate n (0 : R)) = 0 := by
  rw [toPoly, List.map_replicate, C_0, ofLimbs_replicate_zero]

theorem map_toPoly (f : R →+* S) (a : List R) : (toPoly a).map f = toPoly (a.map f) := by
  induction a with
  | nil => simp
  | cons x a ih => simp [ih]

theorem eval_toPoly (b : R) (a : List R) : (toPoly a).eval b = ofLimbs b a := by
  induction a with
  | nil => simp
  | cons x a ih => simp [ih]

theorem coeff_toPoly (a : List R) (k : Nat) : (toPoly a).coeff k = a.getD k 0 := by
  induction a generalizing k with
  | nil => simp
  | cons x a ih =>
    cases k with
    | zero => simp
    | succ k => simp [ih]

theorem coeff_cons_mul (x : R) (a : List R) (p : R[X]) (k : Nat) :
    (toPoly (x :: a) * p).coeff k =
      x * p.coeff k + if k = 0 then 0 else (toPoly a * p).coeff (k - 1) := by
  rw [toPoly_cons, add_mul, coeff_add, coeff_C_mul, mul_assoc]
  cases k with
  | zero => simp
  | succ k => simp

/-- The coefficients of a product of digits. -/
theorem coeff_mul_le {m n : Int} {a c : List Int} (ha : Digits (m + 1) a) (hc : Digits (n + 1) c)
    (hm : 0 ≤ m) (hn : 0 ≤ n) (k : Nat) :
    0 ≤ (toPoly a * toPoly c).coeff k ∧ (toPoly a * toPoly c).coeff k ≤ a.length * (m * n) := by
  induction a generalizing k with
  | nil => simp
  | cons x a ih =>
    obtain ⟨⟨hx0, hx⟩, ha⟩ := Digits.cons_iff.mp ha
    have hdigit : 0 ≤ c.getD k 0 ∧ c.getD k 0 ≤ n := by
      by_cases hk : k < c.length
      · rw [List.getD_eq_getElem _ _ hk]
        have hmem := hc _ (List.getElem_mem hk)
        omega
      · rw [List.getD_eq_default _ _ (by omega)]
        omega
    have hhead0 : 0 ≤ x * c.getD k 0 := mul_nonneg hx0 hdigit.1
    have hhead : x * c.getD k 0 ≤ m * n := mul_le_mul (by omega) hdigit.2 hdigit.1 hm
    have hmn : 0 ≤ m * n := mul_nonneg hm hn
    have hlength : ((x :: a).length : Int) * (m * n) = m * n + a.length * (m * n) := by
      rw [List.length_cons]
      push_cast
      ring
    rw [coeff_cons_mul, coeff_toPoly, hlength]
    by_cases hk : k = 0
    · have h0 : 0 ≤ (a.length : Int) * (m * n) := mul_nonneg (by omega) hmn
      rw [if_pos hk]
      omega
    · obtain ⟨h0, hle⟩ := ih ha (k - 1)
      rw [if_neg hk]
      omega

/-- Coefficients that a homomorphism tells apart within a bound. -/
theorem toPoly_eq_of_map {f : R →+* S} {within : R → Prop}
    (hinj : ∀ x y, within x → within y → f x = f y → x = y) {a : List R} {p : R[X]}
    (ha : ∀ k, within (a.getD k 0)) (hp : ∀ k, within (p.coeff k))
    (h : (toPoly a).map f = p.map f) :
    toPoly a = p := by
  ext k
  rw [coeff_toPoly]
  refine hinj _ _ (ha k) (hp k) ?_
  have hcoeff := congrArg (fun q => q.coeff k) h
  simpa [coeff_map, coeff_toPoly] using hcoeff

end StateDb.Lib.Coefficients
