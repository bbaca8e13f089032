/-
  StateDb/Lib/Decimal.lean
  ==========================
  **Decimal numerals and limbs.**

  A number can be kept as limbs of a fixed number of decimal digits, least
  significant first.  Reading groups the digits from the right (`limbs`), writing
  prints the last limb and pads the others with zeros (`limbNumeral`).  Reading
  keeps the value (`ofDigits_limbs`), and what is written is the numeral without
  leading zeros, provided the last limb is not zero (`limbNumeral_eq`).
-/
import Mathlib.Data.Nat.Digits.Lemmas

namespace StateDb.Lib.Decimal

/-- The numeral of a number, most significant digit first. -/
def decimal (n : Nat) : List Nat := if n = 0 then [0] else (Nat.digits 10 n).reverse

/-- The numeral, filled with zeros on the left to at least `w` digits. -/
def padded (w n : Nat) : List Nat := List.replicate (w - (decimal n).length) 0 ++ decimal n

/-- Limbs of `w + 1` digits, from digits that come least significant first. -/
def limbs (w : Nat) : List Nat → List Nat
  | [] => []
  | d :: ds => Nat.ofDigits 10 (d :: ds.take w) :: limbs w (ds.drop w)
termination_by ds => ds.length
decreasing_by simp only [List.length_drop, List.length_cons]; omega

/-- The digits of limbs of `w` digits, most significant first. -/
def limbNumeral (w : Nat) (a : List Nat) : List Nat :=
  match a.reverse with
  | [] => decimal 0
  | top :: low => decimal top ++ low.flatMap (padded w)

theorem decimal_ne_nil (n : Nat) : decimal n ≠ [] := by
  unfold decimal
  split
  · simp
  · rename_i h
    simpa [Nat.digits_eq_nil_iff_eq_zero] using h

theorem ofDigits_decimal (n : Nat) : Nat.ofDigits 10 (decimal n).reverse = n := by
  unfold decimal
  split
  · rename_i h
    simp [h]
  · rw [List.reverse_reverse, Nat.ofDigits_digits]

theorem length_decimal_le {n k : Nat} (hk : 0 < k) (h : n < 10 ^ k) : (decimal n).length ≤ k := by
  unfold decimal
  split
  · exact hk
  · rw [List.length_reverse]
    exact (Nat.digits_length_le_iff (by omega) n).mpr h

theorem lt_ten_of_mem_decimal {n d : Nat} (h : d ∈ decimal n) : d < 10 := by
  unfold decimal at h
  split at h
  · rw [List.mem_singleton.mp h]
    omega
  · exact Nat.digits_lt_base (by omega) (List.mem_reverse.mp h)

/-- The numeral of a number that is not zero has no leading zero. -/
theorem decimal_head {n : Nat} (h : n ≠ 0) : ∃ d ds, decimal n = d :: ds ∧ d ≠ 0 := by
  have hnil : Nat.digits 10 n ≠ [] := by simpa [Nat.digits_eq_nil_iff_eq_zero] using h
  have hlast := Nat.getLast_digit_ne_zero 10 h
  obtain ⟨init, d, hdigits⟩ := (List.eq_nil_or_concat' (Nat.digits 10 n)).resolve_left hnil
  refine ⟨d, init.reverse, ?_, ?_⟩
  · rw [decimal, if_neg h, hdigits, List.reverse_append]
    rfl
  · simpa [hdigits] using hlast

/-- Digits without a leading zero are the numeral of their number. -/
theorem decimal_ofDigits {d : Nat} {ds : List Nat} (hlt : ∀ e ∈ d :: ds, e < 10) (hd : d ≠ 0) :
    decimal (Nat.ofDigits 10 (d :: ds).reverse) = d :: ds := by
  have hdigits : Nat.digits 10 (Nat.ofDigits 10 (d :: ds).reverse) = (d :: ds).reverse := by
    refine Nat.digits_ofDigits 10 (by omega) _ (fun e he => hlt e (List.mem_reverse.mp he)) ?_
    intro hne
    simpa using hd
  have hne : Nat.ofDigits 10 (d :: ds).reverse ≠ 0 := by
    intro hzero
    rw [hzero, Nat.digits_zero] at hdigits
    simp at hdigits
  rw [decimal, if_neg hne, hdigits, List.reverse_reverse]

theorem padded_reverse {w n : Nat} (hw : 0 < w) :
    (padded w n).reverse = Nat.digitsAppend 10 w n := by
  unfold padded decimal Nat.digitsAppend
  by_cases h : n = 0
  · subst h
    obtain ⟨v, rfl⟩ : ∃ v, w = v + 1 := ⟨w - 1, by omega⟩
    simp [List.replicate_succ]
  · simp [h]

/-! ## Writing -/

theorem ofDigits_flatMap_digitsAppend {w : Nat} (low : List Nat) (hlt : ∀ x ∈ low, x < 10 ^ w)
    (rest : List Nat) (top : Nat) (hrest : Nat.ofDigits 10 rest = top) :
    Nat.ofDigits 10 (low.flatMap (Nat.digitsAppend 10 w) ++ rest) =
      Nat.ofDigits (10 ^ w) (low ++ [top]) := by
  induction low with
  | nil => simp [hrest]
  | cons x low ih =>
    have hx := hlt x List.mem_cons_self
    rw [List.flatMap_cons, List.append_assoc, Nat.ofDigits_append,
      ih fun y hy => hlt y (List.mem_cons_of_mem _ hy),
      Nat.length_digitsAppend (by omega) w hx, List.cons_append, Nat.ofDigits_cons,
      Nat.digitsAppend, Nat.ofDigits_append_replicate_zero, Nat.ofDigits_digits]

theorem limbNumeral_append {w : Nat} (low : List Nat) (top : Nat) :
    limbNumeral w (low ++ [top]) = decimal top ++ low.reverse.flatMap (padded w) := by
  simp [limbNumeral]

/-- Limbs whose last is not zero are printed as the numeral of their value. -/
theorem limbNumeral_eq {w : Nat} (hw : 0 < w) {a : List Nat} (hlt : ∀ x ∈ a, x < 10 ^ w)
    (hlast : ∀ h : a ≠ [], a.getLast h ≠ 0) :
    limbNumeral w a = decimal (Nat.ofDigits (10 ^ w) a) := by
  rcases List.eq_nil_or_concat a with rfl | ⟨low, top, heq⟩
  · rfl
  · rw [List.concat_eq_append] at heq
    subst heq
    have htop : top ≠ 0 := by simpa using hlast (by simp)
    have hlow : ∀ x ∈ low, x < 10 ^ w := fun x hx => hlt x (by simp [hx])
    -- least significant first, the printed digits are the digits of the value
    have hrev : (limbNumeral w (low ++ [top])).reverse =
        low.flatMap (Nat.digitsAppend 10 w) ++ Nat.digits 10 top := by
      rw [limbNumeral_append, List.reverse_append]
      congr 1
      · rw [List.reverse_flatMap, List.reverse_reverse]
        exact List.flatMap_congr fun x _ => padded_reverse hw
      · simp [decimal, htop]
    have hvalue := ofDigits_flatMap_digitsAppend low hlow (Nat.digits 10 top) top
      (Nat.ofDigits_digits 10 top)
    have hdigits : Nat.digits 10 (Nat.ofDigits (10 ^ w) (low ++ [top])) =
        low.flatMap (Nat.digitsAppend 10 w) ++ Nat.digits 10 top := by
      rw [← hvalue]
      refine Nat.digits_ofDigits 10 (by omega) _ (?_) ?_
      · intro d hd
        rcases List.mem_append.mp hd with hd | hd
        · obtain ⟨x, -, hd⟩ := List.mem_flatMap.mp hd
          exact Nat.lt_of_mem_digitsAppend (by omega) w d hd
        · exact Nat.digits_lt_base (by omega) hd
      · intro hne
        have hnil : Nat.digits 10 top ≠ [] := by simpa [Nat.digits_eq_nil_iff_eq_zero] using htop
        rw [List.getLast_append_of_ne_nil _ hnil]
        exact Nat.getLast_digit_ne_zero 10 htop
    have hne : Nat.ofDigits (10 ^ w) (low ++ [top]) ≠ 0 := by
      intro hzero
      rw [hzero, Nat.digits_zero] at hdigits
      have hnil := (List.append_eq_nil_iff.mp hdigits.symm).2
      exact htop (Nat.digits_eq_nil_iff_eq_zero.mp hnil)
    rw [decimal, if_neg hne, hdigits, ← hrev, List.reverse_reverse]

/-! ## Reading -/

theorem ofDigits_limbs (w : Nat) (ds : List Nat) :
    Nat.ofDigits (10 ^ (w + 1)) (limbs w ds) = Nat.ofDigits 10 ds := by
  induction ds using limbs.induct w with
  | case1 => simp [limbs]
  | case2 d ds ih =>
    rw [limbs, Nat.ofDigits_cons, ih]
    have hcut : Nat.ofDigits 10 (d :: ds) =
        Nat.ofDigits 10 (d :: ds.take w) + 10 ^ (d :: ds.take w).length *
          Nat.ofDigits 10 (ds.drop w) := by
      rw [← Nat.ofDigits_append, List.cons_append, List.take_append_drop]
    rw [hcut]
    by_cases hlen : w ≤ ds.length
    · simp [Nat.min_eq_left hlen]
    · rw [List.drop_eq_nil_of_le (by omega)]
      simp

theorem limbs_lt {w : Nat} {ds : List Nat} (hds : ∀ d ∈ ds, d < 10) :
    ∀ x ∈ limbs w ds, x < 10 ^ (w + 1) := by
  induction ds using limbs.induct w with
  | case1 => simp [limbs]
  | case2 d ds ih =>
    intro x hx
    rw [limbs] at hx
    rcases List.mem_cons.mp hx with rfl | hx
    · have hmem : ∀ e ∈ d :: ds.take w, e < 10 := by
        intro e he
        rcases List.mem_cons.mp he with rfl | he
        · exact hds _ List.mem_cons_self
        · exact hds e (List.mem_cons_of_mem _ (List.mem_of_mem_take he))
      refine Nat.lt_of_lt_of_le (Nat.ofDigits_lt_base_pow_length (by omega) hmem) ?_
      refine Nat.pow_le_pow_right (by omega) ?_
      simp only [List.length_cons, List.length_take]
      omega
    · exact ih (fun e he => hds e (List.mem_cons_of_mem _ (List.mem_of_mem_drop he))) x hx

end StateDb.Lib.Decimal
