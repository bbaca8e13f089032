/-
  StateDb/Bigint.lean
  ===================
  **The big integers of the database** (`bigint.h`: `read`, `trim`, `operator<<`).

  A bigint is a sign and limbs of nine decimal digits, least significant first.
  `read` takes the text in groups of nine characters from the right, each into an
  `int`; `operator<<` prints the last limb and the others padded to nine.

  The lengths of the text are `int`s in `read`.  Up to `2^31 - 1` characters, what
  is printed is the numeral of the integer that was read (`toString_read`).  With `2^31`
  characters the index of the limb loop runs past the largest `int` and out of the text
  (`Overruns`), and with more no digit is read (`toString_read_iff`).
-/
import StateDb.Lib.Decimal
import Mathlib.Data.List.DropRight

namespace StateDb

open Lib.Decimal

/-- A `char` as an `int`: `char` is signed. -/
def charVal (c : UInt8) : Int := if c.toNat < 128 then c.toNat else (c.toNat : Int) - 256

/-- Conversion to a 32-bit `int`. -/
def toInt (n : Int) : Int := Int.bmod n 4294967296

structure Bigint where
  a : List Int := []
  sign : Int := 1
deriving DecidableEq, Repr

namespace Bigint

/-- The sign loop of `read`, from `pos` on: where it stops, and the sign. -/
def readSign (size : Int) : List UInt8 → Nat → Int → Nat × Int
  | c :: rest, pos, sign =>
      if (pos : Int) < size ∧ (c = 45 ∨ c = 43) then
        readSign size rest (pos + 1) (if c = 45 then -sign else sign)
      else (pos, sign)
  | [], pos, sign => (pos, sign)

/-- `x = x * 10 + s[j] - '0'`, over the characters of one limb. -/
def readLimb (chars : List UInt8) : Int :=
  chars.foldl (fun x c => toInt (x * 10 + charVal c - 48)) 0

/-- The limb loop of `read` over the characters `s[pos..i]`, from the right. -/
def readLimbs : Nat → List UInt8 → List Int
  | 0, _ => []
  | _ + 1, [] => []
  | fuel + 1, c :: cs => readLimb ((c :: cs).rtake 9) :: readLimbs fuel ((c :: cs).rdrop 9)

def trim (b : Bigint) : Bigint :=
  let a := b.a.rdropWhile (· = 0)
  ⟨a, if a = [] then 1 else b.sign⟩

/-- What `read` makes of a text on which its limb loop ends. -/
def readText (s : List UInt8) : Bigint :=
  let (pos, sign) := readSign (toInt s.length) s 0 1
  let i := toInt ((s.length : Int) - 1)
  let chars := (s.take (i + 1).toNat).drop pos
  trim ⟨readLimbs chars.length chars, sign⟩

/-- The last index is the largest `int`.  Then `j <= i` holds for every `int` `j`, and `j++` leads
out of the `int`s and of the text. -/
def Overruns (s : List UInt8) : Prop := toInt ((s.length : Int) - 1) = 2147483647

instance (s : List UInt8) : Decidable (Overruns s) := inferInstanceAs (Decidable (_ = _))

def read (s : List UInt8) : Option Bigint := if Overruns s then none else some (readText s)

/-- A decimal digit as a character. -/
def digitChar (d : Nat) : UInt8 := UInt8.ofNat (48 + d)

def decimalText (n : Nat) : List UInt8 := (decimal n).map digitChar

/-- `stream << x` for an `int`. -/
def showInt (x : Int) : List UInt8 :=
  if x < 0 then 45 :: decimalText x.natAbs else decimalText x.natAbs

/-- `stream << std::setw(9) << std::setfill('0') << x`. -/
def showLimb (x : Int) : List UInt8 :=
  List.replicate (9 - (showInt x).length) 48 ++ showInt x

/-- `to_string`, through `operator<<`. -/
def toString (b : Bigint) : List UInt8 :=
  (if b.sign = -1 then [45] else []) ++
    match b.a.reverse with
    | [] => showInt 0
    | back :: low => showInt back ++ low.flatMap showLimb

end Bigint

/-! ## Numerals -/

def IsDigit (c : UInt8) : Prop := 48 ≤ c.toNat ∧ c.toNat ≤ 57

instance (c : UInt8) : Decidable (IsDigit c) := inferInstanceAs (Decidable (_ ∧ _))

def digitVal (c : UInt8) : Nat := c.toNat - 48

/-- The number that digits denote. -/
def numVal (ds : List UInt8) : Nat := Nat.ofDigits 10 (ds.reverse.map digitVal)

def IsSign (sign : List UInt8) : Prop := sign = [] ∨ sign = [43] ∨ sign = [45]

/-- The integer that a sign and digits denote. -/
def signedVal (sign ds : List UInt8) : Int := if sign = [45] then -(numVal ds : Int) else numVal ds

/-- The numeral of an integer, without leading zeros. -/
def canonicalNumeral (z : Int) : List UInt8 := Bigint.showInt z

theorem digitVal_lt {c : UInt8} (h : IsDigit c) : digitVal c < 10 := by
  obtain ⟨h1, h2⟩ := h
  unfold digitVal
  omega

theorem charVal_digit {c : UInt8} (h : IsDigit c) : charVal c = 48 + digitVal c := by
  obtain ⟨h1, h2⟩ := h
  unfold charVal digitVal
  rw [if_pos (by omega)]
  omega

theorem toInt_of_range {n : Int} (hlo : -2147483648 ≤ n) (hhi : n < 2147483648) : toInt n = n := by
  unfold toInt
  rw [Int.bmod_def]
  split <;> omega

namespace Bigint

theorem toNat_digitChar {d : Nat} (h : d < 10) : (digitChar d).toNat = 48 + d := by
  simp only [digitChar, UInt8.toNat_ofNat']
  omega

theorem isDigit_digitChar {d : Nat} (h : d < 10) : IsDigit (digitChar d) := by
  unfold IsDigit
  rw [toNat_digitChar h]
  omega

theorem digitVal_digitChar {d : Nat} (h : d < 10) : digitVal (digitChar d) = d := by
  rw [digitVal, toNat_digitChar h]
  omega

theorem isDigit_of_mem_decimalText {n : Nat} {c : UInt8} (h : c ∈ decimalText n) : IsDigit c := by
  obtain ⟨d, hd, rfl⟩ := List.mem_map.mp h
  exact isDigit_digitChar (lt_ten_of_mem_decimal hd)

theorem decimalText_ne_nil (n : Nat) : decimalText n ≠ [] := by
  simpa [decimalText] using decimal_ne_nil n

/-- A number can be read off its numeral. -/
theorem numVal_decimalText (n : Nat) : numVal (decimalText n) = n := by
  have hmap : (decimalText n).map digitVal = decimal n := by
    rw [decimalText, List.map_map]
    exact List.map_congr_left (g := id) (fun d hd => digitVal_digitChar (lt_ten_of_mem_decimal hd))
      |>.trans (List.map_id _)
  rw [numVal, List.map_reverse, hmap, ofDigits_decimal]

/-! ## Reading -/

theorem numVal_append_singleton (ds : List UInt8) (c : UInt8) :
    numVal (ds ++ [c]) = 10 * numVal ds + digitVal c := by
  simp only [numVal, List.reverse_append, List.reverse_singleton, List.singleton_append,
    List.map_cons, Nat.ofDigits_cons]
  omega

theorem numVal_lt {ds : List UInt8} (h : ∀ c ∈ ds, IsDigit c) : numVal ds < 10 ^ ds.length := by
  have hlt := Nat.ofDigits_lt_base_pow_length (b := 10) (l := ds.reverse.map digitVal) (by omega)
    (by
      intro d hd
      obtain ⟨c, hc, rfl⟩ := List.mem_map.mp hd
      exact digitVal_lt (h c (List.mem_reverse.mp hc)))
  simpa [numVal] using hlt

/-- A numeral without leading zeros is not longer. -/
theorem length_decimalText_le {ds : List UInt8} (hne : ds ≠ []) (h : ∀ c ∈ ds, IsDigit c) :
    (decimalText (numVal ds)).length ≤ ds.length := by
  rw [decimalText, List.length_map]
  exact length_decimal_le (List.length_pos_iff.mpr hne) (numVal_lt h)

/-- A limb of digits is their number: nine digits fit in an `int`. -/
theorem readLimb_digits {chars : List UInt8} (h : ∀ c ∈ chars, IsDigit c)
    (hlen : chars.length ≤ 9) : readLimb chars = numVal chars := by
  induction chars using List.reverseRecOn with
  | nil => rfl
  | append_singleton ds c ih =>
    have hds : ∀ d ∈ ds, IsDigit d := fun d hd => h d (List.mem_append_left _ hd)
    have hc : IsDigit c := h c (by simp)
    rw [List.length_append, List.length_singleton] at hlen
    have hbound : numVal ds < 10 ^ 8 :=
      Nat.lt_of_lt_of_le (numVal_lt hds) (Nat.pow_le_pow_right (by omega) (by omega))
    have hdigit := digitVal_lt hc
    have ih' : ds.foldl (fun x c => toInt (x * 10 + charVal c - 48)) 0 = (numVal ds : Int) :=
      ih hds (by omega)
    rw [readLimb, List.foldl_append, ih', List.foldl_cons, List.foldl_nil, charVal_digit hc,
      numVal_append_singleton, toInt_of_range (by omega) (by omega)]
    push_cast
    omega

/-- The limbs of digits. -/
theorem readLimbs_digits {chars : List UInt8} (h : ∀ c ∈ chars, IsDigit c) (fuel : Nat)
    (hfuel : chars.length ≤ fuel) :
    readLimbs fuel chars = (limbs 8 (chars.reverse.map digitVal)).map Int.ofNat := by
  induction fuel generalizing chars with
  | zero =>
    rw [List.length_eq_zero_iff.mp (Nat.le_zero.mp hfuel)]
    simp [readLimbs, limbs]
  | succ fuel ih =>
    rcases List.eq_nil_or_concat chars with rfl | ⟨ds, c, heq⟩
    · simp [readLimbs, limbs]
    · rw [List.concat_eq_append] at heq
      have hne : chars ≠ [] := by simp [heq]
      obtain ⟨d, rest, hcons⟩ := List.exists_cons_of_ne_nil hne
      have hstep : readLimbs (fuel + 1) chars =
          readLimb (chars.rtake 9) :: readLimbs fuel (chars.rdrop 9) := by
        rw [hcons]
        rfl
      have hrev : chars.reverse = c :: ds.reverse := by simp [heq]
      have htake : chars.rtake 9 = (c :: ds.reverse.take 8).reverse := by
        rw [List.rtake_eq_reverse_take_reverse, hrev, List.take_succ_cons]
      have hdrop : chars.rdrop 9 = (ds.reverse.drop 8).reverse := by
        rw [List.rdrop_eq_reverse_drop_reverse, hrev, List.drop_succ_cons]
      have hmem : ∀ e ∈ c :: ds.reverse, IsDigit e := fun e he => h e (by
        rw [← List.mem_reverse, hrev]
        exact he)
      rw [hstep, hrev, List.map_cons, limbs, List.map_cons]
      congr 1
      · rw [htake, readLimb_digits]
        · simp only [numVal, List.reverse_reverse, List.map_cons, List.map_take]
          rfl
        · intro e he
          refine hmem e ?_
          rcases List.mem_cons.mp (List.mem_reverse.mp he) with rfl | he
          · exact List.mem_cons_self
          · exact List.mem_cons_of_mem _ (List.mem_of_mem_take he)
        · simp only [List.length_reverse, List.length_cons, List.length_take]
          omega
      · rw [hdrop, ih]
        · rw [List.reverse_reverse, List.map_drop]
        · intro e he
          exact hmem e (List.mem_cons_of_mem _ (List.mem_of_mem_drop (List.mem_reverse.mp he)))
        · have hlen : chars.length = ds.length + 1 := by simp [heq]
          simp only [List.length_reverse, List.length_drop]
          omega

/-- `read` sees the sign when the length is a positive `int`. -/
theorem readSign_sign {size : Int} {sign ds : List UInt8} (hsign : IsSign sign) (hne : ds ≠ [])
    (hds : ∀ c ∈ ds, IsDigit c) (hpos : 0 < size) :
    readSign size (sign ++ ds) 0 1 = (sign.length, if sign = [45] then -1 else 1) := by
  obtain ⟨d, rest, rfl⟩ := List.exists_cons_of_ne_nil hne
  have hd : ¬ (d = 45 ∨ d = 43) := by
    have hdigit := hds d List.mem_cons_self
    rintro (rfl | rfl) <;> exact absurd hdigit (by decide)
  rcases hsign with rfl | rfl | rfl <;> simp [readSign, hd, hpos]

theorem toInt_wrap {n : Nat} (hlo : 2147483648 ≤ n) (hhi : n < 4294967296) :
    toInt n = (n : Int) - 4294967296 := by
  unfold toInt
  rw [Int.bmod_def]
  split <;> omega

/-- The text of a numeral within what `read` can measure. -/
def Measured (sign ds : List UInt8) : Prop := (sign ++ ds).length < 2147483648

theorem overruns_iff {s : List UInt8} : Overruns s ↔ s.length % 4294967296 = 2147483648 := by
  unfold Overruns toInt
  rw [Int.bmod_def]
  split <;> omega

theorem read_of_not_overruns {s : List UInt8} (h : ¬ Overruns s) : read s = some (readText s) :=
  if_neg h

theorem read_eq_some_iff {s : List UInt8} {b : Bigint} :
    read s = some b ↔ ¬ Overruns s ∧ readText s = b := by
  unfold read
  by_cases h : Overruns s
  · simp [h]
  · simp [h]

theorem not_overruns {s : List UInt8} (h : s.length < 2147483648) : ¬ Overruns s := by
  rw [overruns_iff]
  omega

theorem readText_measured {sign ds : List UInt8} (hsign : IsSign sign) (hne : ds ≠ [])
    (hds : ∀ c ∈ ds, IsDigit c) (hm : Measured sign ds) :
    readText (sign ++ ds) = trim ⟨(limbs 8 (ds.reverse.map digitVal)).map Int.ofNat,
      if sign = [45] then -1 else 1⟩ := by
  have hlen : 0 < ds.length := List.length_pos_iff.mpr hne
  have hshort : (sign ++ ds).length < 2147483648 := hm
  have hi : toInt (((sign ++ ds).length : Int) - 1) = ((sign ++ ds).length : Int) - 1 :=
    toInt_of_range (by omega) (by omega)
  have hstart : readSign (toInt (sign ++ ds).length) (sign ++ ds) 0 1 =
      (sign.length, if sign = [45] then -1 else 1) := by
    refine readSign_sign hsign hne hds ?_
    rw [toInt_of_range (by omega) (by omega), List.length_append]
    omega
  have hchars : ((sign ++ ds).take (((sign ++ ds).length : Int) - 1 + 1).toNat).drop sign.length =
      ds := by
    rw [List.take_of_length_le (by omega), List.drop_left]
  simp only [readText, hstart, hi, hchars]
  rw [readLimbs_digits hds ds.length (Nat.le_refl _)]

/-! ## Writing -/

theorem showInt_ofNat (n : Nat) : showInt (Int.ofNat n) = decimalText n := by
  have hnot : ¬ (Int.ofNat n) < 0 := by simp
  rw [showInt, if_neg hnot]
  rfl

theorem showLimb_ofNat (n : Nat) : showLimb (Int.ofNat n) = (padded 9 n).map digitChar := by
  simp only [showLimb, showInt_ofNat, padded, decimalText, List.length_map, List.map_append,
    List.map_replicate]
  rfl

/-- Limbs are printed as `limbNumeral` says. -/
theorem toString_ofNat (a : List Nat) (sign : Int) :
    toString ⟨a.map Int.ofNat, sign⟩ =
      (if sign = -1 then [45] else []) ++ (limbNumeral 9 a).map digitChar := by
  rcases List.eq_nil_or_concat a with rfl | ⟨low, top, heq⟩
  · rfl
  · rw [List.concat_eq_append] at heq
    subst heq
    rw [limbNumeral_append]
    simp only [toString, List.map_append, List.map_flatMap, List.map_cons, List.map_nil,
      List.reverse_append,
      List.reverse_singleton, List.singleton_append, showInt_ofNat]
    congr 2
    rw [← List.map_reverse, List.flatMap_map]
    exact List.flatMap_congr fun x _ => showLimb_ofNat x

theorem ofDigits_rdropWhile_zero (b : Nat) (a : List Nat) :
    Nat.ofDigits b (a.rdropWhile (· = 0)) = Nat.ofDigits b a := by
  induction a using List.reverseRecOn with
  | nil => rfl
  | append_singleton low top ih =>
    by_cases htop : top = 0
    · rw [List.rdropWhile_concat_pos _ _ _ (by simpa using htop), ih, htop,
        Nat.ofDigits_append_zero]
    · rw [List.rdropWhile_concat_neg _ _ _ (by simpa using htop)]

theorem rdropWhile_map_ofNat (a : List Nat) :
    (a.map Int.ofNat).rdropWhile (fun x => decide (x = 0)) =
      (a.rdropWhile (fun x => decide (x = 0))).map Int.ofNat := by
  induction a using List.reverseRecOn with
  | nil => rfl
  | append_singleton low top ih =>
    rw [List.map_append, List.map_singleton]
    by_cases htop : top = 0
    · rw [List.rdropWhile_concat_pos _ _ _ (by simpa using htop),
        List.rdropWhile_concat_pos _ _ _ (by simpa using htop), ih]
    · rw [List.rdropWhile_concat_neg _ _ _ (by simpa using htop),
        List.rdropWhile_concat_neg _ _ _ (by simpa using htop), List.map_append,
        List.map_singleton]

/-- Trimmed limbs are printed as the numeral of the integer they stand for. -/
theorem toString_trim {a : List Nat} (hlt : ∀ x ∈ a, x < 10 ^ 9) (negative : Prop)
    [Decidable negative] :
    toString (trim ⟨a.map Int.ofNat, if negative then -1 else 1⟩) =
      canonicalNumeral (if negative then -((Nat.ofDigits (10 ^ 9) a : Nat) : Int)
        else ((Nat.ofDigits (10 ^ 9) a : Nat) : Int)) := by
  obtain ⟨b, hb⟩ : ∃ b, b = a.rdropWhile (fun x => decide (x = 0)) := ⟨_, rfl⟩
  have hvalue : Nat.ofDigits (10 ^ 9) b = Nat.ofDigits (10 ^ 9) a := by
    rw [hb]
    exact ofDigits_rdropWhile_zero _ a
  have hbound : ∀ x ∈ b, x < 10 ^ 9 := fun x hx =>
    hlt x ((List.rdropWhile_prefix _ _).subset (hb ▸ hx))
  have hlast : ∀ h : b ≠ [], b.getLast h ≠ 0 := by
    subst hb
    intro h
    simpa using List.rdropWhile_last_not _ _ h
  have hnumeral := limbNumeral_eq (by omega) hbound hlast
  have hzero : b = [] ↔ Nat.ofDigits (10 ^ 9) b = 0 := by
    constructor
    · rintro rfl
      rfl
    · intro h
      by_contra hne
      obtain ⟨low, top, heq⟩ := (List.eq_nil_or_concat b).resolve_left hne
      have hzeros := Nat.digits_zero_of_eq_zero (by omega) h (b.getLast hne) (List.getLast_mem hne)
      exact hlast hne hzeros
  simp only [trim, rdropWhile_map_ofNat, ← hb, List.map_eq_nil_iff]
  rw [toString_ofNat, hnumeral, ← hvalue]
  have hchars : (decimal (Nat.ofDigits (10 ^ 9) b)).map digitChar =
      decimalText (Nat.ofDigits (10 ^ 9) b) := rfl
  rw [hchars]
  by_cases hnil : b = []
  · rw [hzero.mp hnil]
    simp [hnil, canonicalNumeral, showInt]
  · have hpos : 0 < Nat.ofDigits (10 ^ 9) b := Nat.pos_of_ne_zero fun h => hnil (hzero.mpr h)
    by_cases hneg : negative
    · have hlt0 : -((Nat.ofDigits (10 ^ 9) b : Nat) : Int) < 0 := by omega
      rw [if_neg hnil, if_pos hneg, if_pos hneg, canonicalNumeral, showInt, if_pos hlt0]
      simp
    · have hnot : ¬ ((Nat.ofDigits (10 ^ 9) b : Nat) : Int) < 0 := by omega
      rw [if_neg hnil, if_neg hneg, if_neg hneg, canonicalNumeral, showInt, if_neg hnot]
      simp

/-- What was read is printed as the numeral of the same integer. -/
theorem toString_read {sign ds : List UInt8} (hsign : IsSign sign) (hne : ds ≠ [])
    (hds : ∀ c ∈ ds, IsDigit c) (hm : Measured sign ds) :
    toString (readText (sign ++ ds)) = canonicalNumeral (signedVal sign ds) := by
  have hdigits : ∀ d ∈ ds.reverse.map digitVal, d < 10 := by
    intro d hd
    obtain ⟨c, hc, rfl⟩ := List.mem_map.mp hd
    exact digitVal_lt (hds c (List.mem_reverse.mp hc))
  rw [readText_measured hsign hne hds hm, toString_trim (limbs_lt hdigits), ofDigits_limbs]
  rfl

/-! ## Beyond `int` -/

theorem showInt_injective {x y : Int} (h : showInt x = showInt y) : x = y := by
  have hhead : ∀ n t, decimalText n ≠ 45 :: t := by
    intro n t heq
    have hdigit := isDigit_of_mem_decimalText (n := n) (c := 45) (heq ▸ List.mem_cons_self)
    exact absurd hdigit (by decide)
  unfold showInt at h
  split at h
  · rename_i hx
    split at h
    · rename_i hy
      have hnat := congrArg numVal (List.cons.inj h).2
      rw [numVal_decimalText, numVal_decimalText] at hnat
      omega
    · exact absurd h.symm (hhead _ _)
  · rename_i hx
    split at h
    · exact absurd h (hhead _ _)
    · rename_i hy
      have hnat := congrArg numVal h
      rw [numVal_decimalText, numVal_decimalText] at hnat
      omega

/-- From `2^31 + 1` characters on, no digit is read. -/
theorem readText_long {s : List UInt8} (hlo : 2147483648 < s.length) (hhi : s.length < 4294967296) :
    readText s = ⟨[], 1⟩ := by
  have hi : toInt ((s.length : Int) - 1) < -1 := by
    have hcast : (s.length : Int) - 1 = ((s.length - 1 : Nat) : Int) := by omega
    rw [hcast, toInt_wrap (by omega) (by omega)]
    omega
  have hzero : (toInt ((s.length : Int) - 1) + 1).toNat = 0 := by omega
  simp only [readText, hzero, List.take_zero, List.drop_nil]
  rfl

theorem numVal_cons (d : UInt8) (rest : List UInt8) :
    numVal (d :: rest) = numVal rest + 10 ^ rest.length * digitVal d := by
  simp [numVal, Nat.ofDigits_append]

/-- What `read` and `operator<<` do right: texts they can measure, and zero. -/
def Readable (sign ds : List UInt8) : Prop :=
  Measured sign ds ∨ (2147483648 < (sign ++ ds).length ∧ numVal ds = 0)

theorem Readable.not_overruns {sign ds : List UInt8} (h : Readable sign ds)
    (hlen : (sign ++ ds).length < 4294967296) : ¬ Overruns (sign ++ ds) := by
  rw [overruns_iff]
  rcases h with hm | ⟨hlong, -⟩
  · unfold Measured at hm
    omega
  · omega

/-- The exact domain on which a numeral is read and printed as the same integer. -/
theorem toString_read_iff {sign ds : List UInt8} (hsign : IsSign sign) (hne : ds ≠ [])
    (hds : ∀ c ∈ ds, IsDigit c) (hlen : (sign ++ ds).length < 4294967296)
    (hends : ¬ Overruns (sign ++ ds)) :
    toString (readText (sign ++ ds)) = canonicalNumeral (signedVal sign ds) ↔ Readable sign ds := by
  constructor
  · intro h
    by_cases hlong : 2147483648 < (sign ++ ds).length
    · -- nothing was read
      refine Or.inr ⟨hlong, ?_⟩
      rw [readText_long hlong hlen] at h
      have hzero : (0 : Int) = signedVal sign ds := showInt_injective h
      unfold signedVal at hzero
      split at hzero <;> omega
    · rw [overruns_iff] at hends
      exact Or.inl (show (sign ++ ds).length < 2147483648 by omega)
  · rintro (hm | ⟨hlong, hzero⟩)
    · exact toString_read hsign hne hds hm
    · rw [readText_long hlong hlen, signedVal, hzero]
      simp [canonicalNumeral, toString]

end Bigint

end StateDb
