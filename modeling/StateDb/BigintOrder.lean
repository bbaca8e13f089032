/-
  StateDb/BigintOrder.lean
  ========================
  **What a bigint stands for, and how bigints are compared** (`bigint.h`: `operator<` and
  the comparisons made from it, `isZero`, `operator-()`, `abs`).

  A bigint is `Normal` when its sign is 1 or -1, its limbs are digits of the base, its last
  limb is not zero and zero has the sign 1: what `trim` makes of limbs that are digits.
  Every integer is the value of exactly one normal bigint (`Normal.eq_ofInt`).

  `operator<` compares the signs, then the lengths times the signs, then the limbs from the
  last one down.  The length is a `size_t`, so its product with -1 wraps, and the longer of
  two negative numbers gets the smaller product, as it must.  On normal bigints the six
  comparisons are those of the integers (`comparisons_spec`).  The negative of zero is not
  normal, and it differs from zero.

  The loops over the limbs have an index of type `int`, here and in the modules that follow.
  The definitions have no such index, so they say what the code does only while an `int`
  counts the limbs that a loop reaches.  The results ask for it: here for no more limbs than
  an `int` counts (`Counted`), and where a loop pushes limbs for a few to spare
  (`CountedWith`).
-/
import StateDb.Lib.Radix
import StateDb.Decoding

namespace StateDb

open Lib Lib.Radix

/-- Conversion to a 64-bit `long long`. -/
def toLong (n : Int) : Int := Int.bmod n 18446744073709551616

theorem toLong_of_range {n : Int} (hlo : -9223372036854775808 ≤ n) (hhi : n < 9223372036854775808) :
    toLong n = n := by
  unfold toLong
  rw [Int.bmod_def]
  split <;> omega

theorem toLong_add_left (n k : Int) : toLong (toLong n + k) = toLong (n + k) := Int.bmod_add_bmod

theorem toLong_mul_left (n m : Int) : toLong (toLong n * m) = toLong (n * m) := Int.bmod_mul_bmod

/-- Conversion to a 64-bit `size_t`. -/
def toSize (n : Int) : Nat := (n % 18446744073709551616).toNat

namespace Bigint

/-- `base`. -/
abbrev base : Int := 1000000000

/-- `base_digits`. -/
abbrev baseDigits : Nat := 9

/-- `operator-()`. -/
def negate (b : Bigint) : Bigint := { b with sign := -b.sign }

def abs (b : Bigint) : Bigint := { b with sign := b.sign * b.sign }

def isZero (b : Bigint) : Bool := b.a = [] || b.a = [0]

/-- The limb loop of `operator<`, from the last limbs down. -/
def lessLimbs (sign sign' : Int) : List Int → List Int → Bool
  | x :: xs, y :: ys =>
      if x ≠ y then toInt (x * sign) < toInt (y * sign') else lessLimbs sign sign' xs ys
  | _, _ => false

/-- `operator<`.  The lengths are of type `size_t`, and so are their products with the signs. -/
def less (b v : Bigint) : Bool :=
  if b.sign ≠ v.sign then b.sign < v.sign
  else if b.a.length ≠ v.a.length then
    toSize (b.a.length * b.sign) < toSize (v.a.length * v.sign)
  else lessLimbs b.sign v.sign b.a.reverse v.a.reverse

/-- `operator>`. -/
def greater (b v : Bigint) : Bool := less v b

/-- `operator<=`. -/
def lessEqual (b v : Bigint) : Bool := !less v b

/-- `operator>=`. -/
def greaterEqual (b v : Bigint) : Bool := !less b v

/-- `operator==`. -/
def equal (b v : Bigint) : Bool := !less b v && !less v b

/-- `operator!=`. -/
def notEqual (b v : Bigint) : Bool := less b v || less v b

/-! ## Normal bigints -/

/-- The sign is a sign, the limbs are digits and the last one is not zero. -/
structure Signed (b : Bigint) : Prop where
  sign : b.sign = 1 ∨ b.sign = -1
  digits : Digits base b.a
  last : b.a.getLast? ≠ some 0

/-- And zero has the sign 1. -/
structure Normal (b : Bigint) : Prop extends Signed b where
  zero : b.a = [] → b.sign = 1

theorem normal_iff {b : Bigint} : b.Normal ↔ (b.sign = 1 ∨ b.sign = -1) ∧ Digits base b.a ∧
    b.a.getLast? ≠ some 0 ∧ (b.a = [] → b.sign = 1) := by
  constructor
  · rintro ⟨⟨hsign, hdigits, hlast⟩, hzero⟩
    exact ⟨hsign, hdigits, hlast, hzero⟩
  · rintro ⟨hsign, hdigits, hlast, hzero⟩
    exact ⟨⟨hsign, hdigits, hlast⟩, hzero⟩

instance (b : Bigint) : Decidable b.Normal := decidable_of_iff _ normal_iff.symm

/-- The number of limbs is an `int`, as the loops over the limbs take it to be. -/
def Counted (b : Bigint) : Prop := b.a.length < 2147483648

instance (b : Bigint) : Decidable b.Counted := inferInstanceAs (Decidable (_ < _))

/-- A normal bigint, of which an `int` counts the limbs and `spare` more. -/
structure CountedWith (spare : Nat) (b : Bigint) : Prop extends Normal b where
  counted : b.a.length + spare < 2147483648

theorem countedWith_iff {spare : Nat} {b : Bigint} :
    b.CountedWith spare ↔ b.Normal ∧ b.a.length + spare < 2147483648 :=
  ⟨fun h => ⟨h.toNormal, h.counted⟩, fun h => ⟨h.1, h.2⟩⟩

instance (spare : Nat) (b : Bigint) : Decidable (b.CountedWith spare) :=
  decidable_of_iff _ countedWith_iff.symm

/-- What is spared need not be used. -/
theorem CountedWith.toCounted {spare : Nat} {b : Bigint} (h : b.CountedWith spare) : b.Counted :=
  lt_of_le_of_lt (Nat.le_add_right _ _) h.counted

/-- The number without its sign. -/
def magnitude (b : Bigint) : Int := ofLimbs base b.a

theorem value_eq (b : Bigint) : b.value = b.sign * b.magnitude := rfl

theorem base_eq : base = 1000000000 := rfl

theorem base_pos : 0 < base := by decide

theorem trim_a (b : Bigint) : (trim b).a = b.a.rdropWhile (· = 0) := rfl

/-- Limbs that are digits are made normal by `trim`. -/
theorem normal_trim {b : Bigint} (hsign : b.sign = 1 ∨ b.sign = -1) (h : Digits base b.a) :
    (trim b).Normal where
  sign := by
    unfold trim
    dsimp only
    split
    · exact Or.inl rfl
    · exact hsign
  digits := h.rdropWhile _
  last := by
    intro htop
    obtain ⟨low, heq⟩ := List.getLast?_eq_some_iff.mp htop
    rw [trim_a] at heq
    have hlast := List.rdropWhile_last_not (fun x : Int => decide (x = 0)) b.a
    rw [heq] at hlast
    simpa using hlast (by simp)
  zero hnil := by
    rw [trim_a] at hnil
    simp [trim, hnil]

namespace Signed

variable {b v : Bigint}

theorem magnitude_nonneg (h : b.Signed) : 0 ≤ b.magnitude := h.digits.nonneg base_pos.le

theorem magnitude_lt (h : b.Signed) : b.magnitude < base ^ b.a.length := h.digits.lt_pow

theorem pow_le_magnitude (h : b.Signed) (hne : b.a ≠ []) :
    base ^ (b.a.length - 1) ≤ b.magnitude := by
  obtain ⟨low, top, heq⟩ := (List.eq_nil_or_concat' b.a).resolve_left hne
  have htop : top ≠ 0 := by
    have hlast := h.last
    simpa [heq] using hlast
  have hdigits := h.digits
  rw [heq] at hdigits
  have hle := hdigits.pow_le htop
  simpa [magnitude, heq] using hle

theorem magnitude_pos (h : b.Signed) (hne : b.a ≠ []) : 0 < b.magnitude :=
  lt_of_lt_of_le (pow_pos base_pos _) (h.pow_le_magnitude hne)

theorem magnitude_eq_zero_iff (h : b.Signed) : b.magnitude = 0 ↔ b.a = [] := by
  constructor
  · intro hzero
    by_contra hne
    have := h.magnitude_pos hne
    omega
  · intro hnil
    rw [magnitude, hnil, ofLimbs_nil]

/-- A longer number is larger. -/
theorem magnitude_lt_of_length_lt (hb : b.Signed) (hv : v.Signed)
    (hlen : b.a.length < v.a.length) : b.magnitude < v.magnitude := by
  have hne : v.a ≠ [] := List.ne_nil_of_length_pos (by omega)
  calc b.magnitude < base ^ b.a.length := hb.magnitude_lt
    _ ≤ base ^ (v.a.length - 1) := pow_le_pow_right₀ (by decide) (by omega)
    _ ≤ v.magnitude := hv.pow_le_magnitude hne

theorem length_le_of_magnitude_le (hb : b.Signed) (hv : v.Signed)
    (hle : b.magnitude ≤ v.magnitude) : b.a.length ≤ v.a.length := by
  by_contra hlong
  have := hv.magnitude_lt_of_length_lt hb (by omega)
  omega

theorem abs_eq (h : b.Signed) : b.abs = ⟨b.a, 1⟩ := by
  rcases h.sign with hsign | hsign
  · simp [Bigint.abs, hsign]
  · simp [Bigint.abs, hsign]

protected theorem abs (h : b.Signed) : b.abs.Normal := by
  rw [h.abs_eq]
  exact ⟨⟨Or.inl rfl, h.digits, h.last⟩, fun _ => rfl⟩

theorem value_abs (h : b.Signed) : b.abs.value = b.magnitude := by
  rw [h.abs_eq, value_eq, one_mul]
  rfl

theorem magnitude_eq (h : b.Signed) : b.magnitude = |b.value| := by
  have hmag := h.magnitude_nonneg
  rw [value_eq, abs_mul, abs_of_nonneg hmag]
  rcases h.sign with hsign | hsign
  · simp [hsign]
  · simp [hsign]

protected theorem negate (h : b.Signed) : b.negate.Signed where
  sign := by
    rcases h.sign with hsign | hsign
    · exact Or.inr (by simp [Bigint.negate, hsign])
    · exact Or.inl (by simp [Bigint.negate, hsign])
  digits := h.digits
  last := h.last

/-- A number that is not zero is normal. -/
theorem normal_of_value_ne_zero (h : b.Signed) (hne : b.value ≠ 0) : b.Normal where
  toSigned := h
  zero hnil := by
    refine absurd ?_ hne
    rw [value_eq, h.magnitude_eq_zero_iff.mpr hnil, mul_zero]

end Signed

/-- The sign of a product. -/
theorem sign_mul {s t : Int} (hs : s = 1 ∨ s = -1) (ht : t = 1 ∨ t = -1) :
    s * t = 1 ∨ s * t = -1 := by
  rcases hs with rfl | rfl
  · simpa using ht
  · rcases ht with rfl | rfl
    · exact Or.inr rfl
    · exact Or.inl rfl

namespace Normal

variable {b v : Bigint}

/-- A negative number is not zero. -/
theorem ne_nil_of_negative (h : b.Normal) (hsign : b.sign = -1) : b.a ≠ [] := by
  intro hnil
  have hone := h.zero hnil
  omega

end Normal

@[simp] theorem value_negate (b : Bigint) : b.negate.value = -b.value := by
  simp [negate, value]

/-- Two normal bigints with one value are the same. -/
theorem Normal.ext {b v : Bigint} (hb : b.Normal) (hv : v.Normal) (h : b.value = v.value) :
    b = v := by
  have hmag : b.magnitude = v.magnitude := by rw [hb.magnitude_eq, hv.magnitude_eq, h]
  have hlen : b.a.length = v.a.length := by
    rcases Nat.lt_trichotomy b.a.length v.a.length with hlt | heq | hlt
    · have := hb.magnitude_lt_of_length_lt hv.toSigned hlt
      omega
    · exact heq
    · have := hv.magnitude_lt_of_length_lt hb.toSigned hlt
      omega
  have ha : b.a = v.a := hb.digits.injective hv.digits hlen hmag
  have hsign : b.sign = v.sign := by
    by_cases hnil : b.a = []
    · rw [hb.zero hnil, hv.zero (ha ▸ hnil)]
    · have hpos := hb.magnitude_pos hnil
      rw [value_eq, value_eq, ← hmag] at h
      exact mul_right_cancel₀ (by omega) h
  cases b
  cases v
  cases ha
  cases hsign
  rfl

/-! ## Every integer has one normal bigint -/

/-- The normal bigint of an integer. -/
def ofInt (z : Int) : Bigint :=
  ⟨(Nat.digits (10 ^ 9) z.natAbs).map Int.ofNat, if z < 0 then -1 else 1⟩

theorem magnitude_ofInt (z : Int) : (ofInt z).magnitude = z.natAbs := by
  have hvalue := limbsValue_ofNat (Nat.digits (10 ^ 9) z.natAbs)
  rw [Nat.ofDigits_digits] at hvalue
  exact hvalue

theorem magnitude_ofInt_of_nonneg {z : Int} (h0 : 0 ≤ z) : (ofInt z).magnitude = z := by
  rw [magnitude_ofInt, Int.natAbs_of_nonneg h0]

@[simp] theorem value_ofInt (z : Int) : (ofInt z).value = z := by
  rw [value_eq, magnitude_ofInt, ofInt]
  dsimp only
  split <;> omega

theorem normal_ofInt (z : Int) : (ofInt z).Normal where
  sign := by
    rw [ofInt]
    dsimp only
    split
    · exact Or.inr rfl
    · exact Or.inl rfl
  digits := by
    intro x hx
    obtain ⟨d, hd, rfl⟩ := List.mem_map.mp hx
    have hlt := Nat.digits_lt_base (by omega) hd
    have := base_eq
    simp only [Int.ofNat_eq_natCast]
    omega
  last := by
    intro hzero
    have hmap : (Nat.digits (10 ^ 9) z.natAbs).getLast?.map Int.ofNat = some 0 := by
      rw [← List.getLast?_map]
      exact hzero
    obtain ⟨d, hd, hd0⟩ := Option.map_eq_some_iff.mp hmap
    obtain ⟨low, heq⟩ := List.getLast?_eq_some_iff.mp hd
    have hne : z.natAbs ≠ 0 := Nat.digits_ne_nil_iff_ne_zero.mp (by rw [heq]; simp)
    have hlast := Nat.getLast_digit_ne_zero (10 ^ 9) hne
    simp only [heq, List.getLast_append_singleton] at hlast
    simp only [Int.ofNat_eq_natCast] at hd0
    omega
  zero hnil := by
    have hnat : Nat.digits (10 ^ 9) z.natAbs = [] := List.map_eq_nil_iff.mp hnil
    have hz := Nat.digits_eq_nil_iff_eq_zero.mp hnat
    rw [ofInt, if_neg (by omega)]

theorem Normal.eq_ofInt {b : Bigint} (h : b.Normal) : b = ofInt b.value :=
  h.ext (normal_ofInt _) (value_ofInt _).symm

/-- The number of limbs is bounded by the value. -/
theorem Normal.length_le {b : Bigint} (h : b.Normal) {n : Nat} (hlt : |b.value| < base ^ n) :
    b.a.length ≤ n := by
  refine h.digits.length_le_of_lt_pow base_pos h.last ?_
  rw [← h.magnitude_eq] at hlt
  exact hlt

theorem Normal.abs_value_lt {b : Bigint} (h : b.Normal) : |b.value| < base ^ b.a.length := by
  rw [← h.magnitude_eq]
  exact h.magnitude_lt

/-! ## Comparisons -/

theorem toInt_mul_sign {x sign : Int} (hsign : sign = 1 ∨ sign = -1) (h0 : 0 ≤ x) (hlt : x < base) :
    toInt (x * sign) = sign * x := by
  have := base_eq
  rw [mul_comm]
  rcases hsign with rfl | rfl
  · exact toInt_of_range (by omega) (by omega)
  · exact toInt_of_range (by omega) (by omega)

/-- The limb loop decides between numbers of one length and one sign. -/
theorem lessLimbs_iff {sign : Int} (hsign : sign = 1 ∨ sign = -1) {xs ys : List Int}
    (hxs : Digits base xs) (hys : Digits base ys) (hlen : xs.length = ys.length) :
    lessLimbs sign sign xs ys = true ↔
      sign * ofLimbs base xs.reverse < sign * ofLimbs base ys.reverse := by
  induction xs generalizing ys with
  | nil =>
    obtain rfl := List.length_eq_zero_iff.mp hlen.symm
    simp [lessLimbs]
  | cons x xs ih =>
    cases ys with
    | nil => simp at hlen
    | cons y ys =>
      obtain ⟨⟨hx, hxb⟩, hxs⟩ := Digits.cons_iff.mp hxs
      obtain ⟨⟨hy, hyb⟩, hys⟩ := Digits.cons_iff.mp hys
      have hlen' : xs.reverse.length = ys.reverse.length := by simpa using hlen
      rw [List.reverse_cons, List.reverse_cons]
      by_cases hxy : x = y
      · -- the limbs agree, and what lies below them decides
        have hskip : lessLimbs sign sign (x :: xs) (y :: ys) = lessLimbs sign sign xs ys := by
          rw [lessLimbs, if_neg (by simpa using hxy)]
        rw [hskip, ih hxs hys (by simpa using hlen), ofLimbs_append, ofLimbs_append, hlen', hxy,
          mul_add, mul_add, Int.add_lt_add_iff_right]
      · rw [lessLimbs, if_pos hxy, toInt_mul_sign hsign hx hxb, toInt_mul_sign hsign hy hyb,
          decide_eq_true_eq]
        have hdecide : ∀ {c d : List Int} {i j : Int}, Digits base c → Digits base d →
            c.length = d.length → i < j → ofLimbs base (c ++ [i]) < ofLimbs base (d ++ [j]) :=
          fun hc hd h hij => lt_of_top_lt base_pos [] hc hd h hij
        rcases Int.lt_or_gt_of_ne hxy with hlt | hgt
        · have := hdecide hxs.reverse hys.reverse hlen' hlt
          rcases hsign with rfl | rfl
          · omega
          · omega
        · have := hdecide hys.reverse hxs.reverse hlen'.symm hgt
          rcases hsign with rfl | rfl
          · omega
          · omega

/-- The product of a length and a sign, as a `size_t`. -/
theorem toSize_length {n : Nat} {sign : Int} (hsign : sign = 1 ∨ sign = -1)
    (hpos : sign = -1 → 0 < n) (h : n < 2147483648) :
    (toSize (n * sign) : Int) = if sign = 1 then (n : Int) else 18446744073709551616 - n := by
  rcases hsign with rfl | rfl
  · rw [if_pos rfl, toSize]
    omega
  · have := hpos rfl
    rw [if_neg (by decide), toSize]
    omega

/-- `operator<` is the order of the integers. -/
theorem less_iff {b v : Bigint} (hb : b.Normal) (hv : v.Normal) (hbn : b.Counted)
    (hvn : v.Counted) :
    less b v = true ↔ b.value < v.value := by
  have hbm := hb.magnitude_nonneg
  have hvm := hv.magnitude_nonneg
  rw [less, value_eq, value_eq]
  by_cases hsign : b.sign = v.sign
  · rw [if_neg (by simpa using hsign), ← hsign]
    by_cases hlen : b.a.length = v.a.length
    · rw [if_neg (by simpa using hlen), lessLimbs_iff hb.sign hb.digits.reverse hv.digits.reverse
        (by simpa using hlen), List.reverse_reverse, List.reverse_reverse]
      rfl
    · rw [if_pos hlen, decide_eq_true_eq, ← Int.ofNat_lt]
      have hlong : ∀ {c : Bigint}, c.Normal → c.sign = -1 → 0 < c.a.length :=
        fun hc hneg => List.length_pos_iff.mpr (hc.ne_nil_of_negative hneg)
      rw [toSize_length hb.sign (hlong hb) hbn,
        toSize_length hb.sign (fun hneg => hlong hv (hsign ▸ hneg)) hvn]
      rcases Nat.lt_or_gt_of_ne hlen with hlt | hgt
      · have := hb.magnitude_lt_of_length_lt hv.toSigned hlt
        rcases hb.sign with hs | hs
        · simp only [hs, if_true]
          omega
        · rw [hs, if_neg (by decide), if_neg (by decide)]
          omega
      · have := hv.magnitude_lt_of_length_lt hb.toSigned hgt
        rcases hb.sign with hs | hs
        · simp only [hs, if_true]
          omega
        · rw [hs, if_neg (by decide), if_neg (by decide)]
          omega
  · rw [if_pos hsign, decide_eq_true_eq]
    rcases hb.sign with hs | hs
    · have ht : v.sign = -1 := hv.sign.resolve_left fun h => hsign (hs.trans h.symm)
      have := hv.magnitude_pos (hv.ne_nil_of_negative ht)
      rw [hs, ht]
      omega
    · have ht : v.sign = 1 := hv.sign.resolve_right fun h => hsign (hs.trans h.symm)
      have := hb.magnitude_pos (hb.ne_nil_of_negative hs)
      rw [hs, ht]
      omega

/-- All six comparisons of normal bigints are those of the integers. -/
theorem comparisons_spec {b v : Bigint} (hb : b.Normal) (hv : v.Normal) (hbn : b.Counted)
    (hvn : v.Counted) : less b v = decide (b.value < v.value) ∧
      greater b v = decide (b.value > v.value) ∧ lessEqual b v = decide (b.value ≤ v.value) ∧
      greaterEqual b v = decide (b.value ≥ v.value) ∧ equal b v = decide (b.value = v.value) ∧
      notEqual b v = decide (b.value ≠ v.value) := by
  have hlt : less b v = decide (b.value < v.value) := by
    rw [Bool.eq_iff_iff, less_iff hb hv hbn hvn, decide_eq_true_eq]
  have hgt : less v b = decide (v.value < b.value) := by
    rw [Bool.eq_iff_iff, less_iff hv hb hvn hbn, decide_eq_true_eq]
  refine ⟨hlt, hgt, ?_, ?_, ?_, ?_⟩
  · rw [lessEqual, hgt, Bool.eq_iff_iff]
    simp only [Bool.not_eq_true', decide_eq_false_iff_not, decide_eq_true_eq]
    omega
  · rw [greaterEqual, hlt, Bool.eq_iff_iff]
    simp only [Bool.not_eq_true', decide_eq_false_iff_not, decide_eq_true_eq]
    omega
  · rw [equal, hlt, hgt, Bool.eq_iff_iff]
    simp only [Bool.and_eq_true, Bool.not_eq_true', decide_eq_false_iff_not, decide_eq_true_eq]
    omega
  · rw [notEqual, hlt, hgt, Bool.eq_iff_iff]
    simp only [Bool.or_eq_true, decide_eq_true_eq]
    omega

theorem comparisons_spec_long :
    less ⟨[0, 0, 7], -1⟩ ⟨[999999999, 5], -1⟩ = true ∧
      equal ⟨[0, 0, 7], -1⟩ ⟨[999999999, 5], -1⟩ = false := by
  obtain ⟨hless, -, -, -, hequal, -⟩ := comparisons_spec (b := ⟨[0, 0, 7], -1⟩)
    (v := ⟨[999999999, 5], -1⟩) (by decide) (by decide) (by decide) (by decide)
  exact ⟨by rw [hless]; decide, by rw [hequal]; decide⟩

/-- The negative of zero differs from zero. -/
example : equal (negate ⟨[], 1⟩) ⟨[], 1⟩ = false := by decide

end Bigint

end StateDb
