/-
  StateDb/BigintProduct.lean
  ==========================
  **Products of bigints** (`bigint.h`: `karatsubaMultiply`, `operator*` of a bigint).

  `operator*` turns both numbers into limbs of six digits, pads them with zeros to one
  length that is a power of two, multiplies them as polynomials, propagates the carries and
  turns the result back into limbs of nine digits.

  `karatsubaMultiply` computes the coefficients of the product in `long long`s: up to 32 of
  them row by row, and beyond from three products of half the length.  All of it is
  arithmetic modulo `2^64`, where it is the product of polynomials; so it is exact as soon
  as the coefficients of the product themselves fit in a `long long`, for lengths that halve
  evenly and whose double is an `int` (`karatsubaMultiply_spec`).

  The carry is an `int`.  It holds what the sums of 2147 products of limbs carry over, so the
  product is exact when one of the factors has 12882 decimal digits at most.  Beyond that the
  limbs may be wrong, but they are the same wrong limbs for both orders of the factors
  (`times_spec`).
-/
import StateDb.BigintConvert
import StateDb.Lib.Coefficients
import Mathlib.Data.ZMod.Basic

namespace StateDb

open Lib Lib.Radix Lib.Coefficients

namespace Bigint

/-! ## Loops over two vectors -/

/-- `res[offset + i] = f(res[offset + i], xs[i])`, over all `i`. -/
def overlayLimbs (f : Int → Int → Int) : Nat → List Int → List Int → List Int
  | _, res, [] => res
  | _, [], _ :: _ => []
  | 0, r :: res, x :: xs => f r x :: overlayLimbs f 0 res xs
  | offset + 1, r :: res, x :: xs => r :: overlayLimbs f offset res (x :: xs)

/-- The same, where every index is in range. -/
def updateLimbs (f : Int → Int → Int) (offset : Nat) (res xs : List Int) :
    Outcome ArithFault (List Int) :=
  if offset + xs.length ≤ res.length then .ok (overlayLimbs f offset res xs)
  else .fault .indexOutOfRange

/-- `res[i] += x`. -/
def addLong (r x : Int) : Int := toLong (r + x)

/-- `res[i] -= x`. -/
def subLong (r x : Int) : Int := toLong (r - x)

/-- `res[i] += a * b`. -/
def addProduct (a r b : Int) : Int := toLong (r + toLong (a * b))

/-- The product row by row: the limb `a[i]`, times all limbs of `b`, onto the limbs from `i` on. -/
def multiplyRows : Nat → List Int → List Int → List Int → Outcome ArithFault (List Int)
  | _, [], _, res => .ok res
  | i, x :: xs, b, res => do
      let res ← updateLimbs (addProduct x) i res b
      multiplyRows (i + 1) xs b res

def karatsubaMultiply : Nat → List Int → List Int → Outcome ArithFault (List Int)
  | 0, _, _ => .outOfFuel
  | fuel + 1, a, b =>
      let n := a.length
      if b.length < n then .fault .indexOutOfRange
      else if n ≤ 32 then multiplyRows 0 a (b.take n) (List.replicate (n + n) 0)
      else do
        let k := n / 2
        let a1b1 ← karatsubaMultiply fuel (a.take k) (b.take k)
        let a2b2 ← karatsubaMultiply fuel (a.drop k) (b.drop k)
        let a2 ← updateLimbs addLong 0 (a.drop k) (a.take k)
        let b2 ← updateLimbs addLong 0 (b.drop k) (b.take k)
        let r ← karatsubaMultiply fuel a2 b2
        let r ← updateLimbs subLong 0 r a1b1
        let r ← updateLimbs subLong 0 r a2b2
        let res ← updateLimbs addLong k (List.replicate (n + n) 0) r
        let res ← updateLimbs addLong 0 res a1b1
        updateLimbs addLong n res a2b2

/-! ## The product -/

/-- `while (a.size() < n) a.push_back(0)`. -/
def padTo (n : Nat) (a : List Int) : List Int := a ++ List.replicate (n - a.length) 0

/-- `while (a.size() & (a.size() - 1)) a.push_back(0), b.push_back(0)`. -/
def padPower : Nat → List Int → List Int → Outcome ArithFault (List Int × List Int)
  | 0, _, _ => .outOfFuel
  | fuel + 1, a, b =>
      if a.length &&& (a.length - 1) ≠ 0 then padPower fuel (a ++ [0]) (b ++ [0]) else .ok (a, b)

/-- The carries of `operator*`, in limbs of six digits. -/
def carryLimbs : List Int → Int → List Int
  | [], _ => []
  | c :: cs, carry =>
      let cur := toLong (c + carry)
      toInt (cur.tmod 1000000) :: carryLimbs cs (toInt (cur.tdiv 1000000))

/-- `operator*(const bigint &)`. -/
def times (fuel : Nat) (b v : Bigint) : Outcome ArithFault Bigint := do
  let a6 := convertBase b.a baseDigits 6
  let b6 := convertBase v.a baseDigits 6
  let a := padTo b6.length a6
  let padded ← padPower fuel a (padTo a.length b6)
  let c ← karatsubaMultiply fuel padded.1 padded.2
  .ok (trim ⟨convertBase (carryLimbs c 0) 6 baseDigits, b.sign * v.sign⟩)

/-! ## Arithmetic modulo a word -/

/-- The integers modulo `2^64`. -/
abbrev Word : Type := ZMod 18446744073709551616

theorem cast_toLong (n : Int) : ((toLong n : Int) : Word) = n :=
  (ZMod.intCast_eq_intCast_iff_dvd_sub _ _ _).mpr Int.dvd_self_sub_bmod

/-- The number fits in a `long long`. -/
def IsLong (n : Int) : Prop := -9223372036854775808 ≤ n ∧ n < 9223372036854775808

theorem isLong_toLong (n : Int) : IsLong (toLong n) := by
  have hlo := @Int.le_bmod n 18446744073709551616 (by decide)
  have hhi := @Int.bmod_lt n 18446744073709551616 (by decide)
  unfold IsLong toLong
  omega

/-- Modulo a word `long long`s are told apart. -/
theorem eq_of_cast_eq {x y : Int} (hx : IsLong x) (hy : IsLong y) (h : (x : Word) = y) : x = y := by
  obtain ⟨t, ht⟩ := (ZMod.intCast_eq_intCast_iff_dvd_sub _ _ _).mp h
  unfold IsLong at hx hy
  push_cast at ht
  omega

open Polynomial

/-- The coefficients modulo a word. -/
noncomputable def wordPoly (a : List Int) : Word[X] := toPoly (a.map (Int.cast : Int → Word))

@[simp] theorem wordPoly_nil : wordPoly [] = 0 := rfl

@[simp] theorem wordPoly_cons (x : Int) (a : List Int) :
    wordPoly (x :: a) = C (x : Word) + X * wordPoly a := rfl

@[simp] theorem wordPoly_replicate_zero (n : Nat) : wordPoly (List.replicate n 0) = 0 := by
  rw [wordPoly, List.map_replicate, Int.cast_zero, toPoly_replicate_zero]

theorem wordPoly_take_drop (a : List Int) {k : Nat} (h : k ≤ a.length) :
    wordPoly (a.take k) + X ^ k * wordPoly (a.drop k) = wordPoly a := by
  have hsplit := toPoly_take_drop (a.map (Int.cast : Int → Word)) (k := k) (by simpa using h)
  rwa [← List.map_take, ← List.map_drop] at hsplit

theorem wordPoly_eq_map (a : List Int) : wordPoly a = (toPoly a).map (Int.castRingHom Word) := by
  rw [map_toPoly]
  rfl

/-! ## The loops as polynomials -/

/-- A loop that adds multiples, modulo a word. -/
def Adds (f : Int → Int → Int) (c : Word) : Prop :=
  ∀ r x, ((f r x : Int) : Word) = r + c * x ∧ IsLong (f r x)

theorem adds_addLong : Adds addLong 1 := fun r x =>
  ⟨by rw [addLong, cast_toLong]; push_cast; ring, isLong_toLong _⟩

theorem adds_subLong : Adds subLong (-1) := fun r x =>
  ⟨by rw [subLong, cast_toLong]; push_cast; ring, isLong_toLong _⟩

theorem adds_addProduct (a : Int) : Adds (addProduct a) a := fun r b =>
  ⟨by rw [addProduct, cast_toLong]; push_cast; rw [cast_toLong]; push_cast; ring, isLong_toLong _⟩

theorem overlayLimbs_spec {f : Int → Int → Int} {c : Word} (hf : Adds f c) {offset : Nat}
    {res xs : List Int} (h : offset + xs.length ≤ res.length) :
    (overlayLimbs f offset res xs).length = res.length ∧
      wordPoly (overlayLimbs f offset res xs) = wordPoly res + X ^ offset * (C c * wordPoly xs) ∧
      ((∀ r ∈ res, IsLong r) → ∀ r ∈ overlayLimbs f offset res xs, IsLong r) := by
  induction res generalizing offset xs with
  | nil =>
    obtain rfl : xs = [] := by
      rw [List.length_nil] at h
      exact List.length_eq_zero_iff.mp (by omega)
    simp [overlayLimbs]
  | cons r res ih =>
    cases xs with
    | nil => simp [overlayLimbs]
    | cons x xs =>
      cases offset with
      | zero =>
        obtain ⟨hlen, hpoly, hlong⟩ := @ih 0 xs (by simpa using h)
        refine ⟨by simp [overlayLimbs, hlen], ?_, ?_⟩
        · rw [overlayLimbs, wordPoly_cons, hpoly, (hf r x).1, wordPoly_cons, wordPoly_cons, C_add,
            C_mul]
          ring
        · intro hres
          rw [overlayLimbs]
          intro y hy
          rcases List.mem_cons.mp hy with rfl | hy
          · exact (hf r x).2
          · exact hlong (fun z hz => hres z (List.mem_cons_of_mem _ hz)) y hy
      | succ offset =>
        obtain ⟨hlen, hpoly, hlong⟩ :=
          @ih offset (x :: xs) (by simp only [List.length_cons] at h ⊢; omega)
        refine ⟨by simp [overlayLimbs, hlen], ?_, ?_⟩
        · rw [overlayLimbs, wordPoly_cons, hpoly, wordPoly_cons r res]
          ring
        · intro hres
          rw [overlayLimbs]
          intro y hy
          rcases List.mem_cons.mp hy with rfl | hy
          · exact hres y List.mem_cons_self
          · exact hlong (fun z hz => hres z (List.mem_cons_of_mem _ hz)) y hy

theorem updateLimbs_spec {f : Int → Int → Int} {c : Word} (hf : Adds f c) (offset : Nat)
    (res xs : List Int) (h : offset + xs.length ≤ res.length) :
    ∃ out, updateLimbs f offset res xs = .ok out ∧ out.length = res.length ∧
      wordPoly out = wordPoly res + X ^ offset * (C c * wordPoly xs) ∧
      ((∀ r ∈ res, IsLong r) → ∀ r ∈ out, IsLong r) :=
  ⟨_, if_pos h, overlayLimbs_spec hf h⟩

theorem multiplyRows_spec {a b : List Int} {i : Nat} {res : List Int}
    (h : i + a.length + b.length ≤ res.length) :
    ∃ out, multiplyRows i a b res = .ok out ∧ out.length = res.length ∧
      wordPoly out = wordPoly res + X ^ i * (wordPoly a * wordPoly b) ∧
      ((∀ r ∈ res, IsLong r) → ∀ r ∈ out, IsLong r) := by
  induction a generalizing i res with
  | nil => exact ⟨res, rfl, rfl, by simp, fun hres => hres⟩
  | cons x xs ih =>
    rw [List.length_cons] at h
    obtain ⟨row, hrow, hrowLen, hrowPoly, hrowLong⟩ :=
      updateLimbs_spec (adds_addProduct x) i res b (by omega)
    obtain ⟨out, hout, hlen, hpoly, hlong⟩ := @ih (i + 1) row (by omega)
    refine ⟨out, ?_, hlen.trans hrowLen, ?_, fun hres => hlong (hrowLong hres)⟩
    · rw [multiplyRows, hrow, Outcome.ok_bind, hout]
    · rw [hpoly, hrowPoly, wordPoly_cons]
      ring

/-- A result of `karatsubaMultiply`: the product modulo a word, in `long long`s. -/
structure IsProduct (a b res : List Int) : Prop where
  length_eq : res.length = a.length + a.length
  poly : wordPoly res = wordPoly a * wordPoly b
  long : ∀ r ∈ res, IsLong r

theorem isLong_replicate_zero (n : Nat) : ∀ r ∈ List.replicate n (0 : Int), IsLong r := by
  intro r hr
  obtain rfl := List.eq_of_mem_replicate hr
  exact ⟨by decide, by decide⟩

/-- The vectors are multiplied. -/
def Multiplies (a b : List Int) : Prop :=
  ∃ res, Returns (fun fuel => karatsubaMultiply fuel a b) res ∧ IsProduct a b res

theorem karatsuba_short {a b : List Int} (hlen : a.length = b.length) (hshort : a.length ≤ 32) :
    Multiplies a b := by
  obtain ⟨res, hres, hlength, hpoly, hlong⟩ := @multiplyRows_spec a b 0
    (List.replicate (a.length + a.length) 0) (by rw [List.length_replicate]; omega)
  refine ⟨res, Returns.of_succ ⟨0, ?_⟩,
    ⟨by simpa using hlength, by simpa using hpoly, hlong (isLong_replicate_zero _)⟩⟩
  intro fuel _
  show karatsubaMultiply (fuel + 1) a b = _
  rw [karatsubaMultiply]
  simpa [hlen, hlen ▸ hshort] using hres

/-- Three products of half the length make the whole one. -/
theorem karatsuba_halves {k : Nat} {a b : List Int} (ha : a.length = k + k)
    (hb : b.length = k + k) (hlong : 32 < a.length)
    (half : ∀ {c d : List Int}, c.length = k → d.length = k → Multiplies c d) : Multiplies a b := by
  have hat : (a.take k).length = k := by rw [List.length_take]; omega
  have had : (a.drop k).length = k := by rw [List.length_drop]; omega
  have hbt : (b.take k).length = k := by rw [List.length_take]; omega
  have hbd : (b.drop k).length = k := by rw [List.length_drop]; omega
  obtain ⟨low, ⟨m, hlow⟩, plow⟩ := half hat hbt
  obtain ⟨high, ⟨n, hhigh⟩, phigh⟩ := half had hbd
  have hlowLen := plow.length_eq
  have hhighLen := phigh.length_eq
  obtain ⟨as, has, hasLen, hasPoly, -⟩ := updateLimbs_spec adds_addLong 0 (a.drop k) (a.take k)
    (by omega)
  obtain ⟨bs, hbs, hbsLen, hbsPoly, -⟩ := updateLimbs_spec adds_addLong 0 (b.drop k) (b.take k)
    (by omega)
  obtain ⟨mid, ⟨l, hmid⟩, pmid⟩ := half (hasLen.trans had) (hbsLen.trans hbd)
  have hmidLen := pmid.length_eq
  obtain ⟨r, hr, hrLen, hrPoly, -⟩ := updateLimbs_spec adds_subLong 0 mid low (by omega)
  obtain ⟨r', hr', hrLen', hrPoly', -⟩ := updateLimbs_spec adds_subLong 0 r high (by omega)
  obtain ⟨s, hs, hsLen, hsPoly, hsLong⟩ := updateLimbs_spec adds_addLong k
    (List.replicate (a.length + a.length) 0) r' (by rw [List.length_replicate]; omega)
  rw [List.length_replicate] at hsLen
  obtain ⟨s', hs', hsLen', hsPoly', hsLong'⟩ := updateLimbs_spec adds_addLong 0 s low (by omega)
  obtain ⟨res, hres, hresLen, hresPoly, hresLong⟩ := updateLimbs_spec adds_addLong a.length s' high
    (by omega)
  refine ⟨res, Returns.of_succ ⟨max m (max n l), ?_⟩,
    ⟨by omega, ?_, hresLong (hsLong' (hsLong (isLong_replicate_zero _)))⟩⟩
  · intro fuel hfuel
    show karatsubaMultiply (fuel + 1) a b = _
    rw [karatsubaMultiply]
    simp only [show ¬ b.length < a.length from by omega, show ¬ a.length ≤ 32 from by omega,
      if_false, show a.length / 2 = k from by omega, hlow fuel (by omega), hhigh fuel (by omega),
      has, hbs, hmid fuel (by omega), hr, hr', hs, hs', hres, Outcome.ok_bind]
  · rw [hresPoly, hsPoly', hsPoly, hrPoly', hrPoly, pmid.poly, plow.poly, phigh.poly, hasPoly,
      hbsPoly, ← wordPoly_take_drop a (k := k) (by omega),
      ← wordPoly_take_drop b (k := k) (by omega), wordPoly_replicate_zero, ha, pow_add, C_neg, C_1]
    ring

/-- Lengths that halve evenly until they are multiplied row by row. -/
inductive Halves : Nat → Prop
  | rows {n : Nat} (h : n ≤ 32) : Halves n
  | double {k : Nat} (h : Halves k) : Halves (k + k)

theorem halves_power (m : Nat) : Halves (2 ^ m) := by
  induction m with
  | zero => exact .rows (by decide)
  | succ m ih =>
    rw [pow_succ, mul_two]
    exact .double ih

theorem karatsuba_multiplies {a b : List Int} (hlen : a.length = b.length)
    (hn : Halves a.length) : Multiplies a b := by
  obtain ⟨n, hna⟩ : ∃ n, n = a.length := ⟨_, rfl⟩
  rw [← hna] at hn
  induction hn generalizing a b with
  | rows h => exact karatsuba_short hlen (by omega)
  | @double k h ih =>
    by_cases hshort : a.length ≤ 32
    · exact karatsuba_short hlen hshort
    · exact karatsuba_halves hna.symm (by omega) (by omega)
        (fun hc hd => ih (hc.trans hd.symm) hc.symm)

/-- Lengths that halve evenly, and of which `n + n` is an `int`. -/
structure Splits (n : Nat) : Prop where
  halves : Halves n
  counted : n + n < 2147483648

/-- The product modulo a word is the product, when its coefficients fit. -/
theorem IsProduct.exact {a b res : List Int} (h : IsProduct a b res)
    (hfits : ∀ k, IsLong ((toPoly a * toPoly b).coeff k)) : toPoly res = toPoly a * toPoly b := by
  refine toPoly_eq_of_map (f := Int.castRingHom Word) (fun x y hx hy => eq_of_cast_eq hx hy) ?_
    hfits ?_
  · intro k
    by_cases hk : k < res.length
    · rw [List.getD_eq_getElem _ _ hk]
      exact h.long _ (List.getElem_mem hk)
    · rw [List.getD_eq_default _ _ (by omega)]
      exact ⟨by decide, by decide⟩
  · rw [Polynomial.map_mul, ← wordPoly_eq_map, ← wordPoly_eq_map, ← wordPoly_eq_map, h.poly]

/-- `karatsubaMultiply` computes the coefficients of the product of the polynomials, wherever
they fit in a `long long`. -/
theorem karatsubaMultiply_spec {a b : List Int} (hlen : a.length = b.length)
    (hn : Splits a.length) (hfits : ∀ k, IsLong ((toPoly a * toPoly b).coeff k)) :
    ∃ res, Returns (fun fuel => karatsubaMultiply fuel a b) res ∧
      res.length = a.length + b.length ∧ toPoly res = toPoly a * toPoly b := by
  obtain ⟨res, hres, hproduct⟩ := karatsuba_multiplies hlen hn.halves
  exact ⟨res, hres, hlen ▸ hproduct.length_eq, hproduct.exact hfits⟩

/-- Eighty limbs are halved twice before they are multiplied row by row. -/
theorem karatsubaMultiply_spec_halves : ∃ res,
    Returns (fun fuel => karatsubaMultiply fuel (List.replicate 80 999999)
      (List.replicate 80 999999)) res ∧ res.length = 160 ∧
      toPoly res = toPoly (List.replicate 80 999999) * toPoly (List.replicate 80 999999) := by
  have hdigits : Digits (999999 + 1) (List.replicate 80 (999999 : Int)) := by
    intro x hx
    rw [List.eq_of_mem_replicate hx]
    decide
  have hlong (k : Nat) : IsLong ((toPoly (List.replicate 80 (999999 : Int)) *
      toPoly (List.replicate 80 999999)).coeff k) := by
    obtain ⟨hlo, hhi⟩ := coeff_mul_le hdigits hdigits (by decide) (by decide) k
    rw [List.length_replicate] at hhi
    exact ⟨by omega, by omega⟩
  have hsplits : Splits (List.replicate 80 (999999 : Int)).length :=
    ⟨.double (.double (.rows (by decide : 20 ≤ 32))), by decide⟩
  exact karatsubaMultiply_spec rfl hsplits hlong

/-! ## Padding -/

theorem length_padTo (n : Nat) (a : List Int) : (padTo n a).length = max n a.length := by
  rw [padTo, List.length_append, List.length_replicate]
  omega

theorem toPoly_pad (a : List Int) (n : Nat) : toPoly (a ++ List.replicate n 0) = toPoly a := by
  rw [toPoly_append, toPoly_replicate_zero, mul_zero, add_zero]

theorem padPower_spec {m : Nat} {a b : List Int} (hlen : a.length = b.length)
    (hm : a.length ≤ 2 ^ m) : ∃ n, Halves (a.length + n) ∧
      Returns (fun fuel => padPower fuel a b)
        (a ++ List.replicate n 0, b ++ List.replicate n 0) := by
  obtain ⟨left, hleft⟩ : ∃ left, left = 2 ^ m - a.length := ⟨_, rfl⟩
  induction left generalizing a b with
  | zero =>
    have hpower : a.length &&& (a.length - 1) = 0 :=
      (Nat.ne_zero_and_sub_one_eq_zero_iff_isPowerOfTwo.mpr ⟨m, by omega⟩).2
    have hm' : a.length + 0 = 2 ^ m := by omega
    refine ⟨0, hm' ▸ halves_power m, Returns.of_succ ⟨0, ?_⟩⟩
    intro fuel _
    show padPower (fuel + 1) a b = _
    rw [padPower, if_neg (by simpa using hpower)]
    simp
  | succ left ih =>
    by_cases hpower : a.length &&& (a.length - 1) = 0
    · refine ⟨0, ?_, Returns.of_succ ⟨0, ?_⟩⟩
      · by_cases hzero : a.length = 0
        · exact .rows (by omega)
        · obtain ⟨i, hi⟩ := Nat.ne_zero_and_sub_one_eq_zero_iff_isPowerOfTwo.mp ⟨hzero, hpower⟩
          rw [Nat.add_zero, hi]
          exact halves_power i
      · intro fuel _
        show padPower (fuel + 1) a b = _
        rw [padPower, if_neg (by simpa using hpower)]
        simp
    · -- the next length is nearer to the power
      obtain ⟨n, hn, bound, hrun⟩ := @ih (a ++ [0]) (b ++ [0]) (by simp [hlen]) (by simp; omega)
        (by simp; omega)
      refine ⟨n + 1, ?_, Returns.of_succ ⟨bound, ?_⟩⟩
      · rw [List.length_append, List.length_singleton] at hn
        rwa [show a.length + (n + 1) = a.length + 1 + n from by omega]
      · intro fuel hfuel
        have hnext : padPower fuel (a ++ [0]) (b ++ [0]) = _ := hrun fuel hfuel
        show padPower (fuel + 1) a b = _
        rw [padPower, if_pos hpower, hnext, List.append_assoc, List.append_assoc,
          List.singleton_append, ← List.replicate_succ]

/-! ## Carries -/

/-- What the products of 2147 limbs sum up to is carried by an `int`. -/
theorem carryLimbs_spec {n : Int} (hn : n ≤ 2147) {cs : List Int} {carry : Int}
    (hcs : ∀ c ∈ cs, 0 ≤ c ∧ c ≤ n * (999999 * 999999)) (h0 : 0 ≤ carry)
    (hcarry : carry ≤ n * 999999) :
    Digits (10 ^ 6) (carryLimbs cs carry) ∧ (carryLimbs cs carry).length = cs.length ∧
      ∃ left, 0 ≤ left ∧ ofLimbs (10 ^ 6) cs + carry =
        ofLimbs (10 ^ 6) (carryLimbs cs carry) + (10 ^ 6) ^ cs.length * left := by
  induction cs generalizing carry with
  | nil => exact ⟨Digits.nil, rfl, carry, h0, by simp [carryLimbs]⟩
  | cons c cs ih =>
    obtain ⟨hc0, hc⟩ := hcs c List.mem_cons_self
    obtain ⟨cur, hcur⟩ : ∃ cur, cur = c + carry := ⟨_, rfl⟩
    have hdiv := Int.mul_ediv_add_emod cur 1000000
    have hmod0 := Int.emod_nonneg cur (by decide : (1000000 : Int) ≠ 0)
    have hmod := Int.emod_lt_of_pos cur (by decide : (0 : Int) < 1000000)
    obtain ⟨hdigits, hlen, left, hleft, hvalue⟩ := @ih (cur / 1000000)
      (fun d hd => hcs d (List.mem_cons_of_mem _ hd)) (by omega) (by omega)
    rw [carryLimbs, ← hcur, toLong_of_range (by omega) (by omega),
      Int.tmod_eq_emod_of_nonneg (by omega), Int.tdiv_eq_ediv_of_nonneg (by omega),
      toInt_of_range (n := cur % 1000000) (by omega) (by omega),
      toInt_of_range (by omega) (by omega)]
    refine ⟨hdigits.cons hmod0 (by omega), by rw [List.length_cons, hlen, List.length_cons], left,
      hleft, ?_⟩
    obtain ⟨p, hp⟩ : ∃ p : Int, p = 10 ^ 6 := ⟨_, rfl⟩
    have hpn : p = 1000000 := hp
    rw [← hp] at hvalue ⊢
    rw [← hpn] at hvalue hdiv ⊢
    rw [ofLimbs_cons, ofLimbs_cons, List.length_cons, pow_succ']
    linear_combination p * hvalue - hdiv - hcur

/-! ## The operator -/

theorem base_eq_pow : base = 10 ^ baseDigits := by decide

/-- The limbs of six digits of a number. -/
theorem sixDigits {b : Bigint} (hb : b.Signed) :
    Digits (10 ^ 6) (convertBase b.a baseDigits 6) ∧
      ofLimbs (10 ^ 6) (convertBase b.a baseDigits 6) = b.magnitude ∧
      (convertBase b.a baseDigits 6).getLast? ≠ some 0 := by
  have hdigits := hb.digits
  rw [base_eq_pow] at hdigits
  obtain ⟨hsix, hvalue, hlast⟩ :=
    @convertBase_digits baseDigits 6 (by decide) (by decide) (by decide) b.a hdigits
  exact ⟨hsix, by rw [hvalue, ← base_eq_pow]; rfl, hlast⟩

theorem toPoly_padTo (n : Nat) (a : List Int) : toPoly (padTo n a) = toPoly a :=
  toPoly_pad a _

/-- How `operator*` multiplies limbs: both are padded to one length, and the padded limbs are
multiplied modulo a word. -/
structure Multiplied (a b : List Int) (padded : List Int × List Int) (res : List Int) : Prop where
  pads : Returns (fun fuel => padPower fuel (padTo b.length a) (padTo (padTo b.length a).length b))
    padded
  multiplies : Returns (fun fuel => karatsubaMultiply fuel padded.1 padded.2) res
  product : IsProduct padded.1 padded.2 res
  same_length : padded.1.length = padded.2.length
  left : toPoly padded.1 = toPoly a
  right : toPoly padded.2 = toPoly b
  long_enough : a.length + b.length ≤ res.length

/-- Any limbs are multiplied. -/
theorem exists_multiplied (a b : List Int) : ∃ padded res, Multiplied a b padded res := by
  obtain ⟨c, hc⟩ : ∃ c, c = padTo b.length a := ⟨_, rfl⟩
  obtain ⟨d, hd⟩ : ∃ d, d = padTo c.length b := ⟨_, rfl⟩
  have hclen := length_padTo b.length a
  have hdlen := length_padTo c.length b
  have hcpoly := toPoly_padTo b.length a
  have hdpoly := toPoly_padTo c.length b
  rw [← hc] at hclen hcpoly
  rw [← hd] at hdlen hdpoly
  obtain ⟨n, hn, hpad⟩ := @padPower_spec c.length c d (by omega) Nat.lt_two_pow_self.le
  have hlen : (c ++ List.replicate n 0).length = (d ++ List.replicate n 0).length := by
    rw [List.length_append, List.length_append]
    omega
  obtain ⟨res, hres, hproduct⟩ := karatsuba_multiplies hlen (by simpa using hn)
  refine ⟨_, res, by rwa [← hc, ← hd], hres, hproduct, hlen, ?_, ?_, ?_⟩
  · rw [toPoly_pad, hcpoly]
  · rw [toPoly_pad, hdpoly]
  · rw [hproduct.length_eq, List.length_append]
    omega

theorem Multiplied.exact {a b res : List Int} {padded : List Int × List Int}
    (h : Multiplied a b padded res) (hfits : ∀ k, IsLong ((toPoly a * toPoly b).coeff k)) :
    toPoly res = toPoly a * toPoly b := by
  have hpoly := h.product.exact (by rw [h.left, h.right]; exact hfits)
  rwa [h.left, h.right] at hpoly

/-- The coefficients of a product of limbs, one of the factors 2147 limbs at most. -/
theorem coeff_le {a b : List Int} (ha : Digits (10 ^ 6) a) (hb : Digits (10 ^ 6) b)
    (hlen : a.length ≤ 2147 ∨ b.length ≤ 2147) (k : Nat) :
    0 ≤ (toPoly a * toPoly b).coeff k ∧
      (toPoly a * toPoly b).coeff k ≤ 2147 * (999999 * 999999) := by
  rcases hlen with hlen | hlen
  · have hcoeff := @coeff_mul_le 999999 999999 a b ha hb (by decide) (by decide) k
    omega
  · have hcoeff := @coeff_mul_le 999999 999999 b a hb ha (by decide) (by decide) k
    rw [mul_comm] at hcoeff
    omega

/-- The limbs that the carries leave denote the product. -/
theorem carryLimbs_product {a b res : List Int} (ha : Digits (10 ^ 6) a) (hb : Digits (10 ^ 6) b)
    (hlen : a.length ≤ 2147 ∨ b.length ≤ 2147) (hres : a.length + b.length ≤ res.length)
    (hpoly : toPoly res = toPoly a * toPoly b) :
    Digits (10 ^ 6) (carryLimbs res 0) ∧
      ofLimbs (10 ^ 6) (carryLimbs res 0) = ofLimbs (10 ^ 6) a * ofLimbs (10 ^ 6) b := by
  have hcs : ∀ c ∈ res, 0 ≤ c ∧ c ≤ 2147 * (999999 * 999999) := by
    intro c hc
    obtain ⟨k, hk, rfl⟩ := List.mem_iff_getElem.mp hc
    have hcoeff := coeff_le ha hb hlen k
    rwa [← hpoly, coeff_toPoly, List.getD_eq_getElem _ _ hk] at hcoeff
  obtain ⟨hdigits, -, left, hleft, hvalue⟩ :=
    carryLimbs_spec (le_refl 2147) hcs (le_refl 0) (by decide)
  have hproduct : ofLimbs (10 ^ 6) res = ofLimbs (10 ^ 6) a * ofLimbs (10 ^ 6) b := by
    rw [← eval_toPoly, hpoly, eval_mul, eval_toPoly, eval_toPoly]
  refine ⟨hdigits, ?_⟩
  -- nothing is left to carry: the product has no more limbs than the factors together
  obtain ⟨p, hp⟩ : ∃ p : Int, p = 10 ^ 6 := ⟨_, rfl⟩
  have hp0 : 1 ≤ p := by rw [hp]; decide
  rw [← hp] at ha hb hdigits hvalue hproduct ⊢
  have hnonneg := hdigits.nonneg (by omega)
  have hlt : ofLimbs p a * ofLimbs p b < p ^ res.length := by
    calc ofLimbs p a * ofLimbs p b
        < p ^ a.length * p ^ b.length :=
          mul_lt_mul'' ha.lt_pow hb.lt_pow (ha.nonneg (by omega)) (hb.nonneg (by omega))
      _ = p ^ (a.length + b.length) := (pow_add _ _ _).symm
      _ ≤ p ^ res.length := pow_le_pow_right₀ hp0 hres
  have hzero : left = 0 := by
    rcases hleft.eq_or_lt with hleft | hleft
    · exact hleft.symm
    · have hmul : p ^ res.length * 1 ≤ p ^ res.length * left :=
        mul_le_mul_of_nonneg_left (by omega) (by positivity)
      omega
  rw [hzero, mul_zero, add_zero, add_zero, hproduct] at hvalue
  exact hvalue.symm

/-- A number of 12882 decimal digits has 2147 limbs of six. -/
theorem sixDigits_length {b : Bigint} (hb : b.Normal) (hsmall : |b.value| < 10 ^ 12882) :
    (convertBase b.a baseDigits 6).length ≤ 2147 := by
  obtain ⟨hdigits, hvalue, hlast⟩ := sixDigits hb.toSigned
  refine hdigits.length_le_of_lt_pow (by decide) hlast ?_
  rw [hvalue, hb.toSigned.magnitude_eq, ← pow_mul]
  exact hsmall

/-- What `operator*` makes of the limbs that were multiplied. -/
def timesResult (b v : Bigint) (res : List Int) : Bigint :=
  trim ⟨convertBase (carryLimbs res 0) 6 baseDigits, b.sign * v.sign⟩

theorem times_multiplied {b v : Bigint} {padded : List Int × List Int} {res : List Int}
    (h : Multiplied (convertBase b.a baseDigits 6) (convertBase v.a baseDigits 6) padded res) :
    Returns (fun fuel => times fuel b v) (timesResult b v res) :=
  h.pads.bind (h.multiplies.bind (.const rfl))

/-- The product is exact when one of the factors has 12882 decimal digits at most. -/
theorem times_returns {b v : Bigint} (hb : b.Normal) (hv : v.Normal)
    (hsmall : |b.value| < 10 ^ 12882 ∨ |v.value| < 10 ^ 12882) :
    Returns (fun fuel => times fuel b v) (ofInt (b.value * v.value)) := by
  obtain ⟨hbdigits, hbvalue, -⟩ := sixDigits hb.toSigned
  obtain ⟨hvdigits, hvvalue, -⟩ := sixDigits hv.toSigned
  have hlen : (convertBase b.a baseDigits 6).length ≤ 2147 ∨
      (convertBase v.a baseDigits 6).length ≤ 2147 :=
    hsmall.imp (sixDigits_length hb) (sixDigits_length hv)
  obtain ⟨padded, res, hmultiplied⟩ :=
    exists_multiplied (convertBase b.a baseDigits 6) (convertBase v.a baseDigits 6)
  have hpoly := hmultiplied.exact fun k => by
    have hcoeff := coeff_le hbdigits hvdigits hlen k
    unfold IsLong
    omega
  obtain ⟨hdigits, hvalue⟩ :=
    carryLimbs_product hbdigits hvdigits hlen hmultiplied.long_enough hpoly
  obtain ⟨hnine, hninevalue, -⟩ :=
    @convertBase_digits 6 baseDigits (by decide) (by decide) (by decide) _ hdigits
  rw [← base_eq_pow] at hnine hninevalue
  have hnormal : (timesResult b v res).Normal := normal_trim (sign_mul hb.sign hv.sign) hnine
  have hproduct : (timesResult b v res).value = b.value * v.value := by
    rw [timesResult, value_trim, value_eq, value_eq, value_eq, magnitude, hninevalue, hvalue,
      hbvalue, hvvalue]
    ring
  rw [← hproduct, ← hnormal.eq_ofInt]
  exact times_multiplied hmultiplied

theorem times_ofInt {x y : Int} (hsmall : |x| < 10 ^ 12882 ∨ |y| < 10 ^ 12882) :
    Returns (fun fuel => times fuel (ofInt x) (ofInt y)) (ofInt (x * y)) := by
  have h := @times_returns (ofInt x) (ofInt y) (normal_ofInt x) (normal_ofInt y)
    (by rwa [value_ofInt, value_ofInt])
  rwa [value_ofInt, value_ofInt] at h

/-! ## The order of the factors -/

theorem padPower_swap {fuel : Nat} {a b : List Int} {padded : List Int × List Int}
    (hlen : a.length = b.length) (h : padPower fuel a b = .ok padded) :
    padPower fuel b a = .ok padded.swap := by
  induction fuel generalizing a b with
  | zero => cases h
  | succ fuel ih =>
    rw [padPower] at h ⊢
    rw [← hlen]
    by_cases hpower : a.length &&& (a.length - 1) ≠ 0
    · rw [if_pos hpower] at h ⊢
      exact ih (by simp [hlen]) h
    · rw [if_neg hpower] at h ⊢
      obtain rfl := Outcome.ok.inj h
      rfl

theorem padTo_swap (a b : List Int) :
    padTo (padTo a.length b).length a = padTo b.length a := by
  have hmax : max a.length b.length - a.length = b.length - a.length := by omega
  rw [length_padTo, padTo, padTo, hmax]

/-- Modulo a word there is one product, whatever the order of the factors. -/
theorem IsProduct.swap {a b res res' : List Int} (h : IsProduct a b res) (h' : IsProduct b a res')
    (hlen : a.length = b.length) : res = res' := by
  have hpoly : wordPoly res = wordPoly res' := by rw [h.poly, h'.poly, mul_comm]
  have hlength : res.length = res'.length := by rw [h.length_eq, h'.length_eq, hlen]
  refine List.ext_getElem hlength ?_
  intro k hk hk'
  refine eq_of_cast_eq (h.long _ (List.getElem_mem hk)) (h'.long _ (List.getElem_mem hk')) ?_
  have hcoeff := congrArg (fun p => p.coeff k) hpoly
  simp only [wordPoly, coeff_toPoly] at hcoeff
  rw [List.getD_eq_getElem _ _ (by simpa using hk), List.getD_eq_getElem _ _ (by simpa using hk')]
    at hcoeff
  simpa using hcoeff

theorem Multiplied.swap {a b res res' : List Int} {padded padded' : List Int × List Int}
    (h : Multiplied a b padded res) (h' : Multiplied b a padded' res') : res = res' := by
  obtain ⟨m, hpad⟩ := h.pads
  have hswap : Returns (fun fuel =>
      padPower fuel (padTo a.length b) (padTo (padTo a.length b).length a)) padded.swap := by
    refine ⟨m, ?_⟩
    intro fuel hfuel
    have hpadded : padPower fuel _ _ = _ := hpad fuel hfuel
    rw [padTo_swap, ← padTo_swap b a]
    refine padPower_swap ?_ hpadded
    rw [length_padTo, length_padTo]
    omega
  obtain rfl := h'.pads.unique hswap
  exact h.product.swap h'.product h.same_length

/-- A product ends and is the same in both orders, whatever the limbs are.  It is exact when
one of the factors has 12882 decimal digits at most. -/
theorem times_spec (b v : Bigint) :
    ∃ r, Returns (fun fuel => times fuel b v) r ∧ Returns (fun fuel => times fuel v b) r ∧
      (b.Normal → v.Normal → |b.value| < 10 ^ 12882 ∨ |v.value| < 10 ^ 12882 →
        r = ofInt (b.value * v.value)) := by
  obtain ⟨padded, res, h⟩ :=
    exists_multiplied (convertBase b.a baseDigits 6) (convertBase v.a baseDigits 6)
  obtain ⟨padded', res', h'⟩ :=
    exists_multiplied (convertBase v.a baseDigits 6) (convertBase b.a baseDigits 6)
  have hforth := times_multiplied h
  have hback := times_multiplied h'
  have hsame : timesResult v b res' = timesResult b v res := by
    rw [timesResult, timesResult, h.swap h', mul_comm v.sign]
  rw [hsame] at hback
  refine ⟨_, hforth, hback, ?_⟩
  intro hb hv hsmall
  exact hforth.unique (times_returns hb hv hsmall)

/-- Forty limbs of six digits: longer than what is multiplied row by row. -/
theorem times_spec_karatsuba :
    Returns (fun fuel => times fuel (ofInt (10 ^ 240 - 1)) (ofInt (1 - 10 ^ 240)))
      (ofInt ((10 ^ 240 - 1) * (1 - 10 ^ 240))) := by
  have hsmall : |(10 : Int) ^ 240 - 1| < 10 ^ 12882 := by
    have hle : (10 : Int) ^ 240 ≤ 10 ^ 12882 := pow_le_pow_right₀ (by decide) (by decide)
    have hpos : (0 : Int) < 10 ^ 240 := by positivity
    rw [abs_of_nonneg (by omega)]
    omega
  obtain ⟨r, hr, -, hexact⟩ := times_spec (ofInt (10 ^ 240 - 1)) (ofInt (1 - 10 ^ 240))
  have hvalue := hexact (normal_ofInt _) (normal_ofInt _)
    (Or.inl (by rw [value_ofInt]; exact hsmall))
  rw [value_ofInt, value_ofInt] at hvalue
  rwa [hvalue] at hr

end Bigint

end StateDb
