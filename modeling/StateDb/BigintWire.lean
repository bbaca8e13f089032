/-
  StateDb/BigintWire.lean
  =======================
  **A BIGINT on the wire** (`dtypes.cpp`: `bigint_implementor`; `bigint.h`: `read`,
  `operator<<`).

  `load_from` reads any bytes.  A group of nine characters is an `int` by the places of
  its characters, whatever they are (`readLimb_eq`), and `operator<<` prints the groups as
  if they were digits.  What is printed is a numeral, and stays the same when it is read
  again, just when no group but the first is negative, there are not two minus signs, the
  numeral is one that `read` can measure, and `read` does not leave the text it gets first
  (`numberOnWire_iff`).
-/
import StateDb.Decoding
import Mathlib.Algebra.Order.BigOperators.Group.List

namespace StateDb

open Lib.Decimal

namespace Bigint

/-! ## What is read -/

/-- Characters by their places; they need not be digits. -/
def weigh : List UInt8 → Int
  | [] => 0
  | c :: cs => (charVal c - 48) * 10 ^ cs.length + weigh cs

/-- Groups of nine characters from the right, the last group first. -/
def groups : List UInt8 → List (List UInt8)
  | [] => []
  | c :: cs => (c :: cs).rtake 9 :: groups ((c :: cs).rdrop 9)
termination_by cs => cs.length
decreasing_by simp only [List.rdrop, List.length_take, List.length_cons]; omega

/-- The signs in front of a text, as far as its length is a positive `int`. -/
def signs (s : List UInt8) : List UInt8 :=
  (s.take (toInt s.length).toNat).takeWhile fun c => c = 45 ∨ c = 43

/-- A minus sign was read. -/
def Minus (s : List UInt8) : Prop := ¬ Even ((signs s).count 45)

instance (s : List UInt8) : Decidable (Minus s) := inferInstanceAs (Decidable (¬ _))

/-- The characters behind the signs, as far as the last index is an `int`. -/
def unsigned (s : List UInt8) : List UInt8 :=
  (s.take (toInt ((s.length : Int) - 1) + 1).toNat).drop (signs s).length

/-- The integers of the groups, without the zeros in front. -/
def groupValues (s : List UInt8) : List Int :=
  ((groups (unsigned s)).map fun g => toInt (weigh g)).rdropWhile (· = 0)

theorem weigh_append_singleton (cs : List UInt8) (c : UInt8) :
    weigh (cs ++ [c]) = weigh cs * 10 + (charVal c - 48) := by
  induction cs with
  | nil => simp [weigh]
  | cons d cs ih =>
    rw [List.cons_append, weigh, ih, weigh, List.length_append, List.length_singleton]
    ring

/-- The limb of a group: overflow does not change the `int` at the end. -/
theorem readLimb_eq (cs : List UInt8) : readLimb cs = toInt (weigh cs) := by
  induction cs using List.reverseRecOn with
  | nil => rfl
  | append_singleton cs c ih =>
    have hstep : readLimb (cs ++ [c]) = toInt (readLimb cs * 10 + charVal c - 48) := by
      rw [readLimb, List.foldl_append]
      rfl
    rw [hstep, ih, weigh_append_singleton, Int.add_sub_assoc]
    unfold toInt
    rw [← Int.bmod_add_bmod, Int.bmod_mul_bmod, Int.bmod_add_bmod]

theorem readLimbs_eq {cs : List UInt8} {fuel : Nat} (h : cs.length ≤ fuel) :
    readLimbs fuel cs = (groups cs).map fun g => toInt (weigh g) := by
  induction fuel generalizing cs with
  | zero =>
    obtain rfl := List.length_eq_zero_iff.mp (Nat.le_zero.mp h)
    simp [readLimbs, groups]
  | succ fuel ih =>
    cases cs with
    | nil => simp [readLimbs, groups]
    | cons c cs =>
      have hshort : ((c :: cs).rdrop 9).length ≤ fuel := by
        rw [List.length_cons] at h
        simp only [List.rdrop, List.length_take, List.length_cons]
        omega
      rw [readLimbs, groups, List.map_cons, readLimb_eq, ih hshort]

/-- The sign loop, at a position in the text. -/
theorem readSign_eq (size : Int) (cs : List UInt8) (pos : Nat) (sign : Int) :
    ∃ front, front = (cs.take (size - pos).toNat).takeWhile (fun c => decide (c = 45 ∨ c = 43)) ∧
      readSign size cs pos sign = (pos + front.length, sign * (-1) ^ front.count 45) := by
  refine ⟨_, rfl, ?_⟩
  induction cs generalizing pos sign with
  | nil => simp [readSign]
  | cons c cs ih =>
    rw [readSign]
    by_cases hpos : (pos : Int) < size
    · obtain ⟨k, hk, hk'⟩ : ∃ k, (size - pos).toNat = k + 1 ∧ (size - (pos + 1 : Nat)).toNat = k :=
        ⟨(size - (pos + 1 : Nat)).toNat, by omega, rfl⟩
      by_cases hc : c = 45 ∨ c = 43
      · rw [if_pos ⟨hpos, hc⟩, ih, hk, hk', List.take_succ_cons,
          List.takeWhile_cons_of_pos (by simpa using hc)]
        by_cases hminus : c = 45
        · rw [if_pos hminus, hminus, List.count_cons_self, List.length_cons, pow_succ]
          refine Prod.ext ?_ ?_
          · show pos + 1 + _ = pos + (_ + 1)
            omega
          · show -sign * _ = sign * (_ * -1)
            ring
        · rw [if_neg hminus, List.count_cons_of_ne hminus, List.length_cons, Nat.add_assoc,
            Nat.add_comm 1]
      · rw [if_neg fun h => hc h.2, hk, List.take_succ_cons,
          List.takeWhile_cons_of_neg (by simpa using hc)]
        simp
    · have hzero : (size - pos).toNat = 0 := by omega
      rw [if_neg fun h => hpos h.1, hzero, List.take_zero]
      simp

/-- What is read, from the groups of the text. -/
theorem readText_eq (s : List UInt8) :
    readText s = ⟨groupValues s, if groupValues s = [] then 1 else if Minus s then -1 else 1⟩ := by
  obtain ⟨front, hfront, hsign⟩ := readSign_eq (toInt s.length) s 0 1
  have hsigns : front = signs s := by
    rw [hfront, signs, Int.ofNat_zero, Int.sub_zero]
  have hpow : (1 : Int) * (-1) ^ (signs s).count 45 = if Minus s then -1 else 1 := by
    rw [one_mul]
    by_cases hminus : Minus s
    · rw [if_pos hminus, (Nat.not_even_iff_odd.mp hminus).neg_one_pow]
    · rw [if_neg hminus, (not_not.mp hminus : Even _).neg_one_pow]
  have hstart : readSign (toInt s.length) s 0 1 =
      ((signs s).length, if Minus s then -1 else 1) := by
    rw [hsign, hsigns, Nat.zero_add, hpow]
  unfold readText
  rw [hstart]
  show trim ⟨readLimbs (unsigned s).length (unsigned s), _⟩ = _
  rw [readLimbs_eq (Nat.le_refl _), groupValues]
  simp only [trim]

/-! ## The limits of `int` -/

theorem toInt_bounds (n : Int) : -2147483648 ≤ toInt n ∧ toInt n < 2147483648 := by
  have hlo := @Int.le_bmod n 4294967296 (by decide)
  have hhi := @Int.bmod_lt n 4294967296 (by decide)
  unfold toInt
  omega

theorem length_groups (cs : List UInt8) : 9 * (groups cs).length ≤ cs.length + 8 := by
  induction cs using groups.induct with
  | case1 => simp [groups]
  | case2 c cs ih =>
    rw [groups, List.length_cons]
    simp only [List.rdrop, List.length_take, List.length_cons] at ih ⊢
    omega

theorem length_groupValues (s : List UInt8) : (groupValues s).length ≤ 238609295 := by
  have hcut : (groupValues s).length ≤ (groups (unsigned s)).length := by
    have hprefix := (List.rdropWhile_prefix (fun x : Int => decide (x = 0))
      ((groups (unsigned s)).map fun g => toInt (weigh g))).length_le
    rwa [List.length_map] at hprefix
  have hgroups := length_groups (unsigned s)
  have hlen : (unsigned s).length ≤ 2147483648 := by
    obtain ⟨-, hhi⟩ := toInt_bounds ((s.length : Int) - 1)
    rw [unsigned, List.length_drop, List.length_take]
    omega
  omega

theorem groupValues_bounds {s : List UInt8} {x : Int} (h : x ∈ groupValues s) :
    -2147483648 ≤ x ∧ x < 2147483648 := by
  have hmem := (List.rdropWhile_prefix _ _).subset h
  obtain ⟨g, -, rfl⟩ := List.mem_map.mp hmem
  exact toInt_bounds _

theorem top_ne_zero {a low : List Int} {top : Int}
    (h : a.rdropWhile (fun x => decide (x = 0)) = low ++ [top]) : top ≠ 0 := by
  have hne : a.rdropWhile (fun x => decide (x = 0)) ≠ [] := by simp [h]
  have hlast := List.rdropWhile_last_not (fun x : Int => decide (x = 0)) a hne
  simpa [h] using hlast

/-! ## What is written -/

theorem toString_append (low : List Int) (top sign : Int) :
    toString ⟨low ++ [top], sign⟩ =
      (if sign = -1 then [45] else []) ++ (showInt top ++ low.reverse.flatMap showLimb) := by
  simp [toString]

theorem showInt_ne_nil (x : Int) : showInt x ≠ [] := by
  unfold showInt
  split
  · simp
  · exact decimalText_ne_nil _

theorem isDigit_of_mem_showLimb {x : Int} (h : 0 ≤ x) {c : UInt8} (hc : c ∈ showLimb x) :
    IsDigit c := by
  rw [showLimb, showInt, if_neg (by omega)] at hc
  rcases List.mem_append.mp hc with hc | hc
  · rw [List.eq_of_mem_replicate hc]
    decide
  · exact isDigit_of_mem_decimalText hc

theorem minus_mem_showLimb {x : Int} (h : x < 0) : (45 : UInt8) ∈ showLimb x := by
  rw [showLimb, showInt, if_pos h]
  simp

theorem length_showLimb {x : Int} (h : 0 ≤ x) :
    (showLimb x).length = max 9 (decimal x.natAbs).length := by
  rw [showLimb, showInt, if_neg (by omega), List.length_append, List.length_replicate, decimalText,
    List.length_map]
  omega

/-- A minus sign or none, and digits. -/
def IsNumeral (text : List UInt8) : Prop :=
  ∃ sign ds, (sign = [] ∨ sign = [45]) ∧ ds ≠ [] ∧ (∀ c ∈ ds, IsDigit c) ∧ text = sign ++ ds

theorem IsNumeral.minus_notMem_tail {text : List UInt8} (h : IsNumeral text) :
    (45 : UInt8) ∉ text.tail := by
  obtain ⟨sign, ds, hsign, hne, hdigits, rfl⟩ := h
  intro hmem
  apply absurd (hdigits 45 _) (by decide)
  rcases hsign with rfl | rfl
  · exact List.mem_of_mem_tail hmem
  · exact hmem

/-- Limbs that are printed as digits: the ones behind the first are not negative, and the
first is not when there is a minus sign already. -/
def Digital (minus : Prop) (low : List Int) (top : Int) : Prop :=
  (∀ x ∈ low, 0 ≤ x) ∧ (top < 0 → ¬ minus)

/-- The digits that are printed. -/
def digitsText (low : List Int) (top : Int) : List UInt8 :=
  decimalText top.natAbs ++ low.reverse.flatMap showLimb

/-- How many there are. -/
def digitCount (low : List Int) (top : Int) : Nat :=
  (decimal top.natAbs).length + (low.map fun x => max 9 (decimal x.natAbs).length).sum

theorem digital_of_isNumeral {low : List Int} {top sign : Int}
    (h : IsNumeral (toString ⟨low ++ [top], sign⟩)) : Digital (sign = -1) low top := by
  have htail := h.minus_notMem_tail
  rw [toString_append, ← List.append_assoc] at htail
  have hne : (if sign = -1 then [45] else []) ++ showInt top ≠ [] := by
    simp [showInt_ne_nil]
  rw [List.tail_append_of_ne_nil hne, List.mem_append, not_or] at htail
  obtain ⟨hfront, hlow⟩ := htail
  refine ⟨?_, ?_⟩
  · intro x hx
    by_contra hneg
    exact hlow (List.mem_flatMap.mpr ⟨x, List.mem_reverse.mpr hx, minus_mem_showLimb (by omega)⟩)
  · intro hneg hsign
    rw [if_pos hsign, showInt, if_pos hneg] at hfront
    simp at hfront

section Digital

variable {low : List Int} {top sign : Int} (h : Digital (sign = -1) low top)

include h

theorem Digital.toString : toString ⟨low ++ [top], sign⟩ =
    (if sign = -1 ∨ top < 0 then [45] else []) ++ digitsText low top := by
  rw [toString_append, digitsText, ← List.append_assoc, ← List.append_assoc]
  congr 1
  rw [showInt]
  by_cases hneg : top < 0
  · rw [if_neg (h.2 hneg), if_pos hneg, if_pos (Or.inr hneg)]
    rfl
  · by_cases hsign : sign = -1
    · rw [if_pos hsign, if_neg hneg, if_pos (Or.inl hsign)]
    · rw [if_neg hsign, if_neg hneg, if_neg (not_or.mpr ⟨hsign, hneg⟩)]

theorem Digital.isDigit {c : UInt8} (hc : c ∈ digitsText low top) : IsDigit c := by
  rcases List.mem_append.mp hc with hc | hc
  · exact isDigit_of_mem_decimalText hc
  · obtain ⟨x, hx, hc⟩ := List.mem_flatMap.mp hc
    exact isDigit_of_mem_showLimb (h.1 x (List.mem_reverse.mp hx)) hc

theorem Digital.length : (digitsText low top).length = digitCount low top := by
  have hlow : (low.reverse.map fun x => (showLimb x).length) =
      low.reverse.map fun x => max 9 (decimal x.natAbs).length :=
    List.map_congr_left fun x hx => length_showLimb (h.1 x (List.mem_reverse.mp hx))
  rw [digitsText, List.length_append, List.length_flatMap, hlow, List.map_reverse, List.sum_reverse,
    decimalText, List.length_map]
  rfl

theorem Digital.isNumeral : IsNumeral (Bigint.toString ⟨low ++ [top], sign⟩) := by
  refine ⟨_, _, ?_, ?_, fun c hc => h.isDigit hc, h.toString⟩
  · split
    · exact Or.inr rfl
    · exact Or.inl rfl
  · intro hnil
    exact decimalText_ne_nil _ (List.append_eq_nil_iff.mp hnil).1

end Digital

/-- Digits without a leading zero are printed as they stand. -/
theorem decimalText_numVal {c : UInt8} {cs : List UInt8} (hds : ∀ d ∈ c :: cs, IsDigit d)
    (hc : c ≠ 48) : decimalText (numVal (c :: cs)) = c :: cs := by
  have hlead : digitVal c ≠ 0 := by
    intro hzero
    obtain ⟨hlo, -⟩ := hds c List.mem_cons_self
    apply hc
    rw [← UInt8.toNat_inj]
    show c.toNat = 48
    unfold digitVal at hzero
    omega
  have hlt : ∀ e ∈ digitVal c :: cs.map digitVal, e < 10 := by
    intro e he
    obtain ⟨d, hd, rfl⟩ := List.mem_map.mp (show e ∈ (c :: cs).map digitVal from he)
    exact digitVal_lt (hds d hd)
  have hdecimal := decimal_ofDigits hlt hlead
  have hback : ((c :: cs).map digitVal).map digitChar = c :: cs := by
    rw [List.map_map]
    refine List.map_congr_left (g := id) (fun d hd => ?_) |>.trans (List.map_id _)
    obtain ⟨hlo, hhi⟩ := hds d hd
    rw [← UInt8.toNat_inj]
    show (digitChar (digitVal d)).toNat = d.toNat
    rw [toNat_digitChar (digitVal_lt (hds d hd)), digitVal]
    omega
  rw [decimalText, numVal, List.map_reverse]
  exact (congrArg (List.map digitChar) hdecimal).trans hback

theorem canonicalNumeral_signedVal {c : UInt8} {cs : List UInt8} (hds : ∀ d ∈ c :: cs, IsDigit d)
    (hc : c ≠ 48) (minus : Prop) [Decidable minus] :
    canonicalNumeral (signedVal (if minus then [45] else []) (c :: cs)) =
      (if minus then [45] else []) ++ c :: cs := by
  have hpos : numVal (c :: cs) ≠ 0 := by
    intro hzero
    have htext := decimalText_numVal hds hc
    rw [hzero] at htext
    exact hc (List.cons.inj htext).1.symm
  by_cases hminus : minus
  · rw [if_pos hminus, signedVal, if_pos rfl, canonicalNumeral, showInt, if_pos (by omega),
      Int.natAbs_neg, Int.natAbs_natCast, decimalText_numVal hds hc]
    rfl
  · rw [if_neg hminus, signedVal, if_neg (by simp), canonicalNumeral, showInt, if_neg (by omega),
      Int.natAbs_natCast, decimalText_numVal hds hc]
    rfl

theorem digitsText_head (low : List Int) {top : Int} (h : top ≠ 0) :
    ∃ c cs, digitsText low top = c :: cs ∧ c ≠ 48 := by
  obtain ⟨d, ds, hdecimal, hd⟩ := decimal_head (n := top.natAbs) (by omega)
  have hlt : d < 10 := lt_ten_of_mem_decimal (hdecimal ▸ List.mem_cons_self)
  refine ⟨digitChar d, ds.map digitChar ++ low.reverse.flatMap showLimb, ?_, ?_⟩
  · rw [digitsText, decimalText, hdecimal]
    rfl
  · intro hzero
    have htoNat := congrArg UInt8.toNat hzero
    rw [toNat_digitChar hlt] at htoNat
    exact hd (by simpa using htoNat)

/-- A numeral without leading zeros that is not zero is printed as it was read just when its
text can be measured. -/
theorem read_back_iff {sign ds : List UInt8} (hsign : IsSign sign) (hne : ds ≠ [])
    (hdigits : ∀ c ∈ ds, IsDigit c) (hbound : (sign ++ ds).length < 4294967296)
    (hpos : numVal ds ≠ 0) (hcanonical : canonicalNumeral (signedVal sign ds) = sign ++ ds) :
    (∃ b, read (sign ++ ds) = some b ∧ Bigint.toString b = sign ++ ds) ↔
      (sign ++ ds).length < 2147483648 := by
  have hreadable : Readable sign ds ↔ (sign ++ ds).length < 2147483648 := by
    unfold Readable Measured
    exact or_iff_left fun hzero => hpos hzero.2
  rw [← hreadable]
  constructor
  · rintro ⟨b, hread, htoString⟩
    obtain ⟨hends, rfl⟩ := read_eq_some_iff.mp hread
    refine (toString_read_iff hsign hne hdigits hbound hends).mp ?_
    rw [htoString, hcanonical]
  · intro hmeasured
    have hends := hmeasured.not_overruns hbound
    refine ⟨_, read_of_not_overruns hends, ?_⟩
    rw [(toString_read_iff hsign hne hdigits hbound hends).mpr hmeasured, hcanonical]

/-- A numeral that was printed is read and printed again as it is, when `read` can measure
it. -/
theorem Digital.stable_iff {low : List Int} {top sign : Int} (h : Digital (sign = -1) low top)
    (htop : top ≠ 0) (hlen : digitCount low top + 1 < 4294967296) :
    (∃ b, read (Bigint.toString ⟨low ++ [top], sign⟩) = some b ∧
        Bigint.toString b = Bigint.toString ⟨low ++ [top], sign⟩) ↔
      digitCount low top + (if sign = -1 ∨ top < 0 then 1 else 0) < 2147483648 := by
  have hdigits : ∀ d ∈ digitsText low top, IsDigit d := fun _ hd => h.isDigit hd
  have hcount := h.length
  obtain ⟨c, cs, htext, hc⟩ := digitsText_head low htop
  rw [h.toString]
  rw [htext] at hdigits hcount ⊢
  obtain ⟨minus, hminus⟩ : ∃ m : Bool, m = true ↔ sign = -1 ∨ top < 0 :=
    ⟨decide (sign = -1 ∨ top < 0), decide_eq_true_iff⟩
  simp only [← hminus]
  have hcanonical := canonicalNumeral_signedVal hdigits hc (minus = true)
  have hsign : IsSign (if minus = true then [45] else []) := by
    split
    · exact Or.inr (Or.inr rfl)
    · exact Or.inl rfl
  have hbound : ((if minus = true then [45] else []) ++ c :: cs).length < 4294967296 := by
    rw [List.length_append]
    split
    · simp only [List.length_singleton]
      omega
    · simp only [List.length_nil]
      omega
  have hpos : numVal (c :: cs) ≠ 0 := by
    intro hzero
    have hdecimal := decimalText_numVal hdigits hc
    rw [hzero] at hdecimal
    exact hc (List.cons.inj hdecimal).1.symm
  rw [read_back_iff hsign (List.cons_ne_nil c cs) hdigits hbound hpos hcanonical,
    List.length_append, hcount]
  cases minus with
  | false => simp
  | true => simp [Nat.add_comm]

end Bigint

/-! ## A payload -/

theorem bigint_encodes_iff {b : Bigint} {text : List UInt8} :
    Encodes bigintImplementor (.bigint b) (text ++ [0]) ↔ b.toString = text := by
  constructor
  · intro h
    have hmine := bigint_encodes b
    obtain ⟨room, hroom⟩ : ∃ room, room = max (text ++ [0]).length (b.toString ++ [0]).length :=
      ⟨_, rfl⟩
    have heq := (hmine.loadTo room (by omega)).symm.trans (h.loadTo room (by omega))
    exact (List.append_left_inj [0]).mp (Except.ok.inj heq)
  · rintro rfl
    exact bigint_encodes b

theorem zero_notMem_isNumeral {text : List UInt8} (h : Bigint.IsNumeral text) :
    (0 : UInt8) ∉ text := by
  obtain ⟨sign, ds, hsign, -, hdigits, rfl⟩ := h
  apply zero_notMem_numeral _ hdigits
  rcases hsign with rfl | rfl
  · exact Or.inl rfl
  · exact Or.inr (Or.inr rfl)

/-- What is loaded from the payload is written as a numeral, and what is loaded from the
numeral is written as the same bytes, whatever the objects were before. -/
def NumberOnWire (payload : List UInt8) : Prop :=
  ∀ old old' : Bigint, ∃ b n text b' n',
    bigintImplementor.loadFrom payload (.bigint old) = .ok (.bigint b, n) ∧
    Encodes bigintImplementor (.bigint b) (text ++ [0]) ∧ Bigint.IsNumeral text ∧
    bigintImplementor.loadFrom (text ++ [0]) (.bigint old') = .ok (.bigint b', n') ∧
    Encodes bigintImplementor (.bigint b') (text ++ [0])

theorem numberOnWire_iff_read {payload : List UInt8} (h : 2 ≤ payload.length) :
    NumberOnWire payload ↔ ∃ b, Bigint.read (textOf payload) = some b ∧
      Bigint.IsNumeral b.toString ∧
      ∃ b', Bigint.read b.toString = some b' ∧ b'.toString = b.toString := by
  have hreload {text : List UInt8} (hnumeral : Bigint.IsNumeral text) (old : Bigint) :
      bigintImplementor.loadFrom (text ++ [0]) (.bigint old) =
        readBigint text >>= fun b => .ok (.bigint b, text.length) := by
    have hzero := zero_notMem_isNumeral hnumeral
    obtain ⟨sign, ds, -, hne, -, rfl⟩ := hnumeral
    exact bigint_loadFrom old hzero (by simp [hne])
  have hread {text : List UInt8} {b : Bigint} {n n₁ : Nat}
      (hok : (readBigint text >>= fun b => .ok (Stored.bigint b, n₁)) = .ok (Stored.bigint b, n)) :
      Bigint.read text = some b := by
    obtain ⟨b', hb', hok⟩ := bind_eq_ok.mp hok
    obtain rfl := Stored.bigint.inj (Prod.mk.inj (Except.ok.inj hok)).1
    exact readBigint_eq_ok.mp hb'
  constructor
  · intro hwire
    obtain ⟨b, n, text, b', n', hload, henc, hnumeral, hload', henc'⟩ := hwire {} {}
    rw [bigint_loadFrom_textOf h] at hload
    rw [hreload hnumeral] at hload'
    obtain rfl := bigint_encodes_iff.mp henc
    exact ⟨b, hread hload, hnumeral, b', hread hload', bigint_encodes_iff.mp henc'⟩
  · rintro ⟨b, hread, hnumeral, b', hread', hstable⟩ old old'
    have hload := bigint_loadFrom_textOf h old
    have hload' := hreload hnumeral old'
    rw [readBigint_eq_ok.mpr hread, bind_ok] at hload
    rw [readBigint_eq_ok.mpr hread', bind_ok] at hload'
    exact ⟨b, _, _, b', _, hload, bigint_encodes b, hnumeral, hload',
      bigint_encodes_iff.mpr hstable⟩

/-- `read` keeps to the text; its groups are printed as digits behind at most one minus sign, and
`read` can measure them. -/
def WireSafe (s : List UInt8) : Prop :=
  ¬ Bigint.Overruns s ∧
    ∀ low top, Bigint.groupValues s = low ++ [top] → Bigint.Digital (Bigint.Minus s) low top ∧
      Bigint.digitCount low top + (if Bigint.Minus s ∨ top < 0 then 1 else 0) < 2147483648

theorem digitCount_lt {s : List UInt8} {low : List Int} {top : Int}
    (h : Bigint.groupValues s = low ++ [top]) : Bigint.digitCount low top + 1 < 4294967296 := by
  have hten : ∀ x ∈ low ++ [top], (decimal x.natAbs).length ≤ 10 := by
    intro x hx
    obtain ⟨hlo, hhi⟩ := Bigint.groupValues_bounds (h ▸ hx)
    exact length_decimal_le (by omega) (by omega)
  have hsum : (low.map fun x => max 9 (decimal x.natAbs).length).sum ≤ low.length * 10 := by
    have hle := List.sum_le_card_nsmul (low.map fun x => max 9 (decimal x.natAbs).length) 10
      (by
        intro n hn
        obtain ⟨x, hx, rfl⟩ := List.mem_map.mp hn
        exact max_le (by omega) (hten x (List.mem_append_left _ hx)))
    simpa using hle
  have htop := hten top (by simp)
  have hlen := Bigint.length_groupValues s
  rw [h, List.length_append, List.length_singleton] at hlen
  unfold Bigint.digitCount
  omega

/-- A text without groups is the number zero. -/
theorem wireSafe_of_nil {s : List UInt8} (hends : ¬ Bigint.Overruns s)
    (h : Bigint.groupValues s = []) : WireSafe s := by
  refine ⟨hends, ?_⟩
  intro low top heq
  rw [h] at heq
  simp at heq

theorem wireSafe_iff {s : List UInt8} {low : List Int} {top : Int} (hends : ¬ Bigint.Overruns s)
    (h : Bigint.groupValues s = low ++ [top]) : WireSafe s ↔
      Bigint.Digital (Bigint.Minus s) low top ∧
        Bigint.digitCount low top + (if Bigint.Minus s ∨ top < 0 then 1 else 0) < 2147483648 := by
  constructor
  · exact fun hsafe => hsafe.2 low top h
  · intro hone
    refine ⟨hends, ?_⟩
    intro low' top' heq
    obtain ⟨rfl, htops⟩ := List.append_inj' (h.symm.trans heq) rfl
    obtain rfl := List.singleton_inj.mp htops
    exact hone

/-- The sign that is read. -/
theorem sign_eq_neg_one_iff (s : List UInt8) :
    (if Bigint.Minus s then (-1 : Int) else 1) = -1 ↔ Bigint.Minus s := by
  split
  · rename_i hodd
    exact iff_of_true rfl hodd
  · rename_i heven
    exact iff_of_false (by decide) heven

/-- A payload is a number on the wire just when its text is safe. -/
theorem numberOnWire_iff {payload : List UInt8} (h : 2 ≤ payload.length) :
    NumberOnWire payload ↔ WireSafe (textOf payload) := by
  rw [numberOnWire_iff_read h]
  generalize textOf payload = s
  by_cases hover : Bigint.Overruns s
  · refine iff_of_false ?_ fun hsafe => hsafe.1 hover
    rintro ⟨b, hread, -⟩
    exact (Bigint.read_eq_some_iff.mp hread).1 hover
  have hone : (∃ b, Bigint.read s = some b ∧ Bigint.IsNumeral b.toString ∧
      ∃ b', Bigint.read b.toString = some b' ∧ b'.toString = b.toString) ↔
      Bigint.IsNumeral (Bigint.readText s).toString ∧
        ∃ b', Bigint.read (Bigint.readText s).toString = some b' ∧
          b'.toString = (Bigint.readText s).toString := by
    rw [Bigint.read_of_not_overruns hover]
    simp
  rw [hone, Bigint.readText_eq]
  rcases List.eq_nil_or_concat' (Bigint.groupValues s) with hnil | ⟨low, top, hgroups⟩
  · -- zero
    have hzero : Bigint.IsNumeral [48] :=
      ⟨[], [48], Or.inl rfl, List.cons_ne_nil _ _, by simp [IsDigit], rfl⟩
    rw [hnil, if_pos rfl]
    exact iff_of_true ⟨hzero, ⟨[], 1⟩, by decide, by decide⟩ (wireSafe_of_nil hover hnil)
  · have htop : top ≠ 0 := Bigint.top_ne_zero hgroups
    have hcount := digitCount_lt hgroups
    have hminus := sign_eq_neg_one_iff s
    have hsafe := wireSafe_iff hover hgroups
    rw [hgroups, if_neg (by simp)]
    generalize (if Bigint.Minus s then (-1 : Int) else 1) = sign at hminus ⊢
    simp only [← hminus] at hsafe
    rw [hsafe]
    constructor
    · rintro ⟨hnumeral, hstable⟩
      have hdigital := Bigint.digital_of_isNumeral hnumeral
      exact ⟨hdigital, (hdigital.stable_iff htop hcount).mp hstable⟩
    · rintro ⟨hdigital, hmeasured⟩
      exact ⟨hdigital.isNumeral, (hdigital.stable_iff htop hcount).mpr hmeasured⟩

theorem numberOnWire_iff_seven : NumberOnWire [55, 0] := by
  apply (numberOnWire_iff (by decide)).mpr
  have htext : textOf [55, 0] = [55] := by decide
  have hread : (Bigint.readText [55]).a = [7] := by decide
  have hminus : ¬ Bigint.Minus [55] := by decide
  rw [Bigint.readText_eq] at hread
  rw [htext]
  refine ⟨by decide, ?_⟩
  intro low top hgroups
  obtain ⟨rfl, rfl⟩ : low = [] ∧ top = 7 := by
    rcases low with _ | ⟨x, low⟩
    · exact ⟨rfl, (List.cons.inj (hgroups.symm.trans hread)).1⟩
    · simpa using congrArg List.length (hgroups.symm.trans hread)
  have hcount : Bigint.digitCount [] 7 ≤ 1 := length_decimal_le (k := 1) (by omega) (by decide)
  refine ⟨⟨fun x hx => (by cases hx), fun hneg => absurd hneg (by decide)⟩, ?_⟩
  rw [if_neg (not_or.mpr ⟨hminus, by decide⟩)]
  omega

/-- A one and nine dots are printed as a one, a minus sign and nine digits. -/
theorem dots_not_numberOnWire :
    bigintImplementor.loadFrom [49, 46, 46, 46, 46, 46, 46, 46, 46, 46, 0] (.bigint {}) =
        .ok (.bigint ⟨[-222222222, 1], 1⟩, 10) ∧
      Bigint.toString ⟨[-222222222, 1], 1⟩ = [49, 45, 50, 50, 50, 50, 50, 50, 50, 50, 50] ∧
      ¬ NumberOnWire [49, 46, 46, 46, 46, 46, 46, 46, 46, 46, 0] := by
  refine ⟨by decide, ?_, ?_⟩
  · decide
  · rw [numberOnWire_iff (by decide)]
    intro hsafe
    have htext : textOf [49, 46, 46, 46, 46, 46, 46, 46, 46, 46, 0] =
        [49, 46, 46, 46, 46, 46, 46, 46, 46, 46] := by decide
    have hread : (Bigint.readText [49, 46, 46, 46, 46, 46, 46, 46, 46, 46]).a =
        [-222222222, 1] := by decide
    rw [Bigint.readText_eq] at hread
    rw [htext] at hsafe
    obtain ⟨⟨hlow, -⟩, -⟩ := hsafe.2 [-222222222] 1 hread
    exact absurd (hlow (-222222222) (List.mem_singleton.mpr rfl)) (by decide)

end StateDb
