/-
  StateDb/Lib/Radix.lean
  ======================
  **Numbers as limbs in a base.**

  `ofLimbs` is the number that limbs denote, least significant first, over any
  commutative ring: over the integers it is the value of a numeral, over polynomials at
  `X` it is the polynomial with these coefficients.

  `Digits b a` says that the limbs are digits of the base.  Then the number lies between
  zero and `b ^ length`, equal numbers of equal length have the same limbs
  (`Digits.injective`), and the first limb from the top that differs decides which of two
  numbers is less (`lt_of_top_lt`).

  For long division: the quotient of the two top limbs of the dividend by the top limb of
  the divisor is never below the quotient digit, and at most two above it when the top limb
  is half the base at least (`estimate_bounds`).  Scaling both numbers makes it so
  (`scaled_top`).
-/
import Mathlib.Algebra.Order.Ring.Int
import Mathlib.Algebra.Ring.Hom.Defs
import Mathlib.Data.List.DropRight
import Mathlib.Tactic.Ring
import Mathlib.Tactic.Linarith
import Mathlib.Tactic.Positivity

namespace StateDb.Lib.Radix

/-! ## Values -/

section Values

variable {R : Type} [CommRing R]

/-- The number that limbs denote, least significant first. -/
def ofLimbs (b : R) (a : List R) : R := a.foldr (fun x v => x + b * v) 0

@[simp] theorem ofLimbs_nil (b : R) : ofLimbs b [] = 0 := rfl

@[simp] theorem ofLimbs_cons (b x : R) (a : List R) :
    ofLimbs b (x :: a) = x + b * ofLimbs b a := rfl

theorem ofLimbs_singleton (b x : R) : ofLimbs b [x] = x := by simp

theorem ofLimbs_append (b : R) (a c : List R) :
    ofLimbs b (a ++ c) = ofLimbs b a + b ^ a.length * ofLimbs b c := by
  induction a with
  | nil => simp
  | cons x a ih =>
    rw [List.cons_append, ofLimbs_cons, ih, ofLimbs_cons, List.length_cons]
    ring

@[simp] theorem ofLimbs_replicate_zero (b : R) (n : Nat) : ofLimbs b (List.replicate n 0) = 0 := by
  induction n with
  | zero => rfl
  | succ n ih => rw [List.replicate_succ, ofLimbs_cons, ih, mul_zero, add_zero]

theorem ofLimbs_rdropWhile_zero [DecidableEq R] (b : R) (a : List R) :
    ofLimbs b (a.rdropWhile fun x => decide (x = 0)) = ofLimbs b a := by
  induction a using List.reverseRecOn with
  | nil => rfl
  | append_singleton low top ih =>
    by_cases htop : top = 0
    · rw [List.rdropWhile_concat_pos _ _ _ (by simpa using htop), ih, ofLimbs_append, htop]
      simp
    · rw [List.rdropWhile_concat_neg _ _ _ (by simpa using htop)]

end Values

/-! ## Digits -/

/-- Every limb is a digit of the base. -/
def Digits (b : Int) (a : List Int) : Prop := ∀ x ∈ a, 0 ≤ x ∧ x < b

instance (b : Int) (a : List Int) : Decidable (Digits b a) :=
  inferInstanceAs (Decidable (∀ x ∈ a, 0 ≤ x ∧ x < b))

namespace Digits

variable {b : Int} {a c : List Int} {x : Int}

theorem nil : Digits b [] := by simp [Digits]

theorem cons_iff : Digits b (x :: a) ↔ (0 ≤ x ∧ x < b) ∧ Digits b a := by
  simp [Digits]

theorem cons (h0 : 0 ≤ x) (hlt : x < b) (h : Digits b a) : Digits b (x :: a) :=
  cons_iff.mpr ⟨⟨h0, hlt⟩, h⟩

theorem append_iff : Digits b (a ++ c) ↔ Digits b a ∧ Digits b c := by
  simp only [Digits, List.mem_append]
  constructor
  · intro h
    exact ⟨fun x hx => h x (Or.inl hx), fun x hx => h x (Or.inr hx)⟩
  · rintro ⟨ha, hc⟩ x (hx | hx)
    · exact ha x hx
    · exact hc x hx

theorem sublist (h : Digits b a) (hs : c.Sublist a) : Digits b c := fun x hx => h x (hs.subset hx)

theorem reverse (h : Digits b a) : Digits b a.reverse := fun x hx => h x (List.mem_reverse.mp hx)

theorem rdropWhile (h : Digits b a) (p : Int → Bool) : Digits b (a.rdropWhile p) :=
  h.sublist (List.rdropWhile_prefix p a).sublist

theorem nonneg (h : Digits b a) (hb : 0 ≤ b) : 0 ≤ ofLimbs b a := by
  induction a with
  | nil => simp
  | cons x a ih =>
    obtain ⟨⟨hx, -⟩, ha⟩ := cons_iff.mp h
    have := mul_nonneg hb (ih ha)
    rw [ofLimbs_cons]
    omega

theorem lt_pow (h : Digits b a) : ofLimbs b a < b ^ a.length := by
  induction a with
  | nil => simp
  | cons x a ih =>
    obtain ⟨⟨hx, hlt⟩, ha⟩ := cons_iff.mp h
    have hstep : b * (ofLimbs b a + 1) ≤ b * b ^ a.length :=
      mul_le_mul_of_nonneg_left (ih ha) (by omega)
    rw [ofLimbs_cons, List.length_cons, pow_succ']
    linarith

/-- A top limb that is not zero makes the number at least its weight. -/
theorem pow_le (h : Digits b (a ++ [x])) (hx : x ≠ 0) : b ^ a.length ≤ ofLimbs b (a ++ [x]) := by
  obtain ⟨ha, htop⟩ := append_iff.mp h
  obtain ⟨hx0, hxb⟩ := (cons_iff.mp htop).1
  have hb : 0 ≤ b := by omega
  have hlow := ha.nonneg hb
  have hweight : b ^ a.length * 1 ≤ b ^ a.length * x :=
    mul_le_mul_of_nonneg_left (by omega) (by positivity)
  rw [ofLimbs_append, ofLimbs_singleton]
  linarith

/-- Limbs of one length that denote one number are the same. -/
theorem injective (ha : Digits b a) (hc : Digits b c) (hlen : a.length = c.length)
    (h : ofLimbs b a = ofLimbs b c) : a = c := by
  induction a generalizing c with
  | nil => exact (List.length_eq_zero_iff.mp hlen.symm).symm
  | cons x a ih =>
    cases c with
    | nil => simp at hlen
    | cons y c =>
      obtain ⟨⟨hx, hxb⟩, ha⟩ := cons_iff.mp ha
      obtain ⟨⟨hy, hyb⟩, hc⟩ := cons_iff.mp hc
      simp only [ofLimbs_cons] at h
      -- the lowest limb is the remainder by the base
      have hxy : x = y := by
        have hmod := congrArg (· % b) h
        simp only [Int.add_mul_emod_self_left] at hmod
        rwa [Int.emod_eq_of_lt hx hxb, Int.emod_eq_of_lt hy hyb] at hmod
      have hrest : b * ofLimbs b a = b * ofLimbs b c := by omega
      have hb : b ≠ 0 := by omega
      rw [hxy, ih ha hc (by simpa using hlen) (mul_left_cancel₀ hb hrest)]

/-- Without a zero on top the length is bounded by the number. -/
theorem length_le_of_lt_pow (hb : 0 < b) (ha : Digits b a) (hlast : a.getLast? ≠ some 0) {n : Nat}
    (hlt : ofLimbs b a < b ^ n) : a.length ≤ n := by
  by_contra hlong
  have hne : a ≠ [] := List.ne_nil_of_length_pos (by omega)
  obtain ⟨low, top, rfl⟩ := (List.eq_nil_or_concat' a).resolve_left hne
  have hpow := ha.pow_le (by simpa using hlast)
  have hmono : b ^ n ≤ b ^ low.length := by
    rw [List.length_append, List.length_singleton] at hlong
    exact pow_le_pow_right₀ hb (by omega)
  omega

theorem length_le (hb : 0 < b) (ha : Digits b a) (hc : Digits b c) (hlast : a.getLast? ≠ some 0)
    (hle : ofLimbs b a ≤ ofLimbs b c) : a.length ≤ c.length :=
  length_le_of_lt_pow hb ha hlast (lt_of_le_of_lt hle hc.lt_pow)

/-- Without a zero on top the limbs of a number are unique. -/
theorem unique (hb : 0 < b) (ha : Digits b a) (hc : Digits b c) (hal : a.getLast? ≠ some 0)
    (hcl : c.getLast? ≠ some 0) (h : ofLimbs b a = ofLimbs b c) : a = c :=
  ha.injective hc
    (le_antisymm (length_le hb ha hc hal h.le) (length_le hb hc ha hcl h.ge)) h

end Digits

variable {b : Int}

/-- The first limb from the top that differs decides. -/
theorem lt_of_top_lt (hb : 0 < b) {a c : List Int} {x y : Int} (top : List Int) (ha : Digits b a)
    (hc : Digits b c) (hlen : a.length = c.length) (hxy : x < y) :
    ofLimbs b (a ++ x :: top) < ofLimbs b (c ++ y :: top) := by
  have hlow := ha.lt_pow
  have hlow' := hc.nonneg hb.le
  have hweight : b ^ c.length * (x + 1) ≤ b ^ c.length * y :=
    mul_le_mul_of_nonneg_left (by omega) (by positivity)
  rw [ofLimbs_append, ofLimbs_append, ofLimbs_cons, ofLimbs_cons, hlen]
  rw [hlen] at hlow
  linarith

/-- Cutting a number at a limb: what lies above is the quotient by the weight of the cut. -/
theorem ofLimbs_drop (hb : 0 < b) {a : List Int} (ha : Digits b a) {n : Nat} (hn : n ≤ a.length) :
    ofLimbs b (a.drop n) = ofLimbs b a / b ^ n := by
  have hsplit := ofLimbs_append b (a.take n) (a.drop n)
  rw [List.take_append_drop, List.length_take, Nat.min_eq_left hn] at hsplit
  have hlow : Digits b (a.take n) := ha.sublist (List.take_sublist n a)
  have hlt := hlow.lt_pow
  rw [List.length_take, Nat.min_eq_left hn] at hlt
  have hpow : b ^ n ≠ 0 := (pow_pos hb n).ne'
  rw [hsplit, Int.add_mul_ediv_left _ _ hpow, Int.ediv_eq_zero_of_lt (hlow.nonneg hb.le) hlt,
    zero_add]

/-! ## Long division -/

/-- The quotient of the top limbs is not below the quotient digit. -/
theorem le_estimate {u v t h w : Int} (ht : 0 < t) (hw : 0 < w) (hv : t * w ≤ v)
    (hu : u < (h + 1) * w) (hu0 : 0 ≤ u) : u / v ≤ h / t := by
  have hv0 : 0 < v := lt_of_lt_of_le (mul_pos ht hw) hv
  rw [Int.le_ediv_iff_mul_le ht]
  have hq : u / v * v ≤ u := Int.ediv_mul_le u (by omega)
  have hq0 : 0 ≤ u / v := Int.ediv_nonneg hu0 (by omega)
  have hqt : u / v * (t * w) ≤ u / v * v := mul_le_mul_of_nonneg_left hv hq0
  have hlt : u / v * t * w < (h + 1) * w := by linarith
  exact Int.lt_add_one_iff.mp (lt_of_mul_lt_mul_right hlt (by omega))

/-- It is at most two above the quotient digit, when the top limb of the divisor is half
the base at least. -/
theorem estimate_le {u v t h w : Int} (ht : 0 < t) (hw : 0 < w) (hv : v < (t + 1) * w)
    (hu : h * w ≤ u) (hv0 : 0 < v) (hu0 : 0 ≤ u) (hsmall : u < b * v) (hhalf : b ≤ 2 * t) :
    h / t ≤ u / v + 2 := by
  by_contra hnot
  have hq0 : 0 ≤ u / v := Int.ediv_nonneg hu0 (by omega)
  have hqb : u / v < b := Int.ediv_lt_of_lt_mul hv0 hsmall
  have hle : (u / v + 3) * t ≤ h := by
    have h3 : u / v + 3 ≤ h / t := by omega
    exact le_trans (mul_le_mul_of_nonneg_right h3 (by omega)) (Int.ediv_mul_le h (by omega))
  -- (q + 3) t w ≤ u < (q + 1) v < (q + 1) (t + 1) w
  have hlow : (u / v + 3) * t * w ≤ u := le_trans (mul_le_mul_of_nonneg_right hle (by omega)) hu
  have hu' : u < (u / v + 1) * v := Int.lt_ediv_add_one_mul_self u hv0
  have hup : (u / v + 1) * v ≤ (u / v + 1) * ((t + 1) * w) :=
    mul_le_mul_of_nonneg_left (by omega) (by omega)
  have hmul : (u / v + 3) * t * w < (u / v + 1) * (t + 1) * w := by linarith
  have hlt := lt_of_mul_lt_mul_right hmul (by omega)
  nlinarith

theorem estimate_bounds {u v t h w : Int} (ht : 0 < t) (hw : 0 < w) (hv : t * w ≤ v)
    (hv' : v < (t + 1) * w) (hu : h * w ≤ u) (hu' : u < (h + 1) * w) (hu0 : 0 ≤ u)
    (hsmall : u < b * v) (hhalf : b ≤ 2 * t) : u / v ≤ h / t ∧ h / t ≤ u / v + 2 := by
  have hv0 : 0 < v := lt_of_lt_of_le (mul_pos ht hw) hv
  exact ⟨le_estimate ht hw hv hu' hu0, estimate_le ht hw hv' hu hv0 hu0 hsmall hhalf⟩

/-- Scaled by `b / (t + 1)`, the top limb is half the base at least, for an even base. -/
theorem scaled_top {t : Int} (hb : 2 ∣ b) (ht : 0 < t) (htb : t < b) :
    b ≤ 2 * (t * (b / (t + 1))) := by
  obtain ⟨d, hd⟩ : ∃ d, d = b / (t + 1) := ⟨_, rfl⟩
  have hdiv := Int.mul_ediv_add_emod b (t + 1)
  have hrem := Int.emod_lt_of_pos b (by omega : 0 < t + 1)
  have hrem0 := Int.emod_nonneg b (by omega : t + 1 ≠ 0)
  have hd1 : 1 ≤ d := by
    rw [hd, Int.le_ediv_iff_mul_le (by omega)]
    omega
  rw [← hd] at hdiv ⊢
  -- it is not below b - 1, and b is even
  have hcross : 0 ≤ (d - 1) * (t - 1) := mul_nonneg (by omega) (by omega)
  have hge : b - 1 ≤ 2 * (t * d) := by nlinarith
  omega

/-- The scaled number keeps its length. -/
theorem scaled_lt {t v w : Int} (ht : 0 < t) (hw : 0 < w) (hb : 0 < b) (hv : v < (t + 1) * w) :
    v * (b / (t + 1)) < b * w := by
  obtain ⟨d, hd⟩ : ∃ d, d = b / (t + 1) := ⟨_, rfl⟩
  have hle : d * (t + 1) ≤ b := by
    rw [hd]
    exact Int.ediv_mul_le b (by omega)
  have hd0 : 0 ≤ d := by
    rw [hd]
    exact Int.ediv_nonneg (by omega) (by omega)
  rw [← hd]
  rcases hd0.eq_or_lt with hzero | hpos
  · rw [← hzero, mul_zero]
    positivity
  · have hlt : v * d < (t + 1) * w * d := mul_lt_mul_of_pos_right hv hpos
    have hwle : d * (t + 1) * w ≤ b * w := mul_le_mul_of_nonneg_right hle (by omega)
    linarith

end StateDb.Lib.Radix
