/-
  StateDb/Decoding.lean
  =====================
  **What `load_from` keeps of its buffer, and what it says it took** (`dtypes.h`,
  `dtypes.cpp`, `dtypes_utils.h`).

  `get_string_mxsz` puts a missing zero byte over the last character.  So a text without
  a zero byte loses a character, and a number a digit (`keeps_iff`); on one of `2^31` digits
  more than that, `bigint::read` leaves the text.

  The count that `load_from` returns is the length of the encoding it read, but for a
  BIGINT, which does not count its zero byte (`reportsConsumed_iff`).
-/
import StateDb.Dtypes

namespace StateDb

open Lib.Decimal

/-! ## The integer of a bigint -/

namespace Bigint

/-- Limbs, least significant first. -/
def limbsValue (a : List Int) : Int := a.foldr (fun x v => x + 1000000000 * v) 0

/-- The integer that a bigint stands for. -/
def value (b : Bigint) : Int := b.sign * limbsValue b.a

theorem limbsValue_append (a b : List Int) :
    limbsValue (a ++ b) = limbsValue a + 1000000000 ^ a.length * limbsValue b := by
  induction a with
  | nil => simp [limbsValue]
  | cons x a ih =>
    have hstep : limbsValue (x :: a ++ b) = x + 1000000000 * limbsValue (a ++ b) := rfl
    have hcons : limbsValue (x :: a) = x + 1000000000 * limbsValue a := rfl
    rw [hstep, hcons, ih, List.length_cons]
    ring

theorem limbsValue_ofNat (a : List Nat) :
    limbsValue (a.map Int.ofNat) = (Nat.ofDigits (10 ^ 9) a : Nat) := by
  induction a with
  | nil => rfl
  | cons x a ih =>
    have hstep : limbsValue ((x :: a).map Int.ofNat) =
        Int.ofNat x + 1000000000 * limbsValue (a.map Int.ofNat) := rfl
    rw [hstep, ih, Nat.ofDigits_cons]
    simp

theorem limbsValue_rdropWhile (a : List Int) :
    limbsValue (a.rdropWhile fun x => decide (x = 0)) = limbsValue a := by
  induction a using List.reverseRecOn with
  | nil => rfl
  | append_singleton low top ih =>
    by_cases htop : top = 0
    · rw [List.rdropWhile_concat_pos _ _ _ (by simpa using htop), ih, limbsValue_append, htop]
      simp [limbsValue]
    · rw [List.rdropWhile_concat_neg _ _ _ (by simpa using htop)]

/-- The integer stays the same when zero limbs are cut off. -/
theorem value_trim (b : Bigint) : (trim b).value = b.value := by
  have hlimbs := limbsValue_rdropWhile b.a
  simp only [trim, value, hlimbs]
  by_cases hnil : b.a.rdropWhile (fun x => decide (x = 0)) = []
  · have hzero : limbsValue b.a = 0 := by
      rw [← hlimbs, hnil]
      rfl
    rw [hzero, mul_zero, mul_zero]
  · rw [if_neg hnil]

theorem readSign_digits (size : Int) {ds : List UInt8} (hds : ∀ c ∈ ds, IsDigit c) :
    readSign size ds 0 1 = (0, 1) := by
  cases ds with
  | nil => rfl
  | cons d ds =>
    have hd : ¬ (d = 45 ∨ d = 43) := by
      have hdigit := hds d List.mem_cons_self
      rintro (rfl | rfl)
      · exact absurd hdigit (by decide)
      · exact absurd hdigit (by decide)
    rw [readSign, if_neg fun h => hd h.2]

/-- Of digits `read` reads the number of a prefix, all of them if their count is an
`int`. -/
theorem readText_digits {ds : List UInt8} (hds : ∀ c ∈ ds, IsDigit c) :
    (readText ds).value = numVal (ds.take (toInt ((ds.length : Int) - 1) + 1).toNat) := by
  obtain ⟨k, hk⟩ : ∃ k, k = (toInt ((ds.length : Int) - 1) + 1).toNat := ⟨_, rfl⟩
  have hprefix : ∀ c ∈ ds.take k, IsDigit c := fun c hc => hds c (List.mem_of_mem_take hc)
  simp only [readText, readSign_digits _ hds, ← hk, List.drop_zero]
  rw [value_trim, readLimbs_digits hprefix _ (Nat.le_refl _)]
  simp only [value, one_mul, limbsValue_ofNat]
  rw [show (10 : Nat) ^ 9 = 10 ^ (8 + 1) from rfl, ofDigits_limbs]
  rfl

end Bigint

/-! ## What is kept -/

/-- The stored text is the text of the buffer. -/
def KeepsText (src : List UInt8) : Prop :=
  ∃ stored n, stringImplementor.loadFrom src stringImplementor.init = .ok (.memory stored, n) ∧
    cstr stored = cstr src

/-- The stored integer is the one that all characters of the buffer denote. -/
def KeepsNumber (src : List UInt8) : Prop :=
  ∃ b n, bigintImplementor.loadFrom src bigintImplementor.init = .ok (.bigint b, n) ∧
    b.value = numVal src

theorem keepsText_iff {src : List UInt8} (hne : src ≠ []) : KeepsText src ↔ (0 : UInt8) ∈ src := by
  constructor
  · rintro ⟨stored, n, hload, htext⟩
    by_contra hzero
    obtain ⟨init, c, rfl⟩ := (List.eq_nil_or_concat' src).resolve_left hne
    have hinit : (0 : UInt8) ∉ init := fun hin => hzero (List.mem_append_left _ hin)
    simp only [stringImplementor, getStringMxsz_unterminated hzero, bind_ok] at hload
    obtain ⟨hstored, -⟩ := Prod.mk.inj (Except.ok.inj hload)
    rw [List.take_of_length_le (by simp)] at hstored
    rw [← Stored.memory.inj hstored, cstr_append_zero [] hinit, cstr_of_notMem hzero] at htext
    simpa using congrArg List.length htext
  · intro hzero
    obtain ⟨rest, hsrc⟩ := eq_cstr_append (length_cstr_ne hzero)
    have htake : src.take ((cstr src).length + 1) = cstr src ++ [0] := calc
      src.take ((cstr src).length + 1) = (cstr src ++ 0 :: rest).take ((cstr src).length + 1) :=
        congrArg _ hsrc
      _ = cstr src ++ [0] := by simp [List.take_append]
    refine ⟨cstr src ++ [0], (cstr src).length + 1, ?_, cstr_append_zero [] (zero_notMem_cstr src)⟩
    simp only [stringImplementor, getStringMxsz_of_mem hzero, bind_ok, htake]

theorem zero_notMem_digits {ds : List UInt8} (hds : ∀ c ∈ ds, IsDigit c) : (0 : UInt8) ∉ ds := by
  intro hzero
  exact absurd (hds 0 hzero) (by decide)

theorem numVal_eq_zero_iff {ds : List UInt8} (hds : ∀ c ∈ ds, IsDigit c) :
    numVal ds = 0 ↔ ∀ c ∈ ds, c = 48 := by
  induction ds using List.reverseRecOn with
  | nil => simp [numVal]
  | append_singleton ds c ih =>
    have hc := hds c (by simp)
    have hdigit : digitVal c = 0 ↔ c = 48 := by
      rw [← UInt8.toNat_inj]
      obtain ⟨hlo, -⟩ := hc
      unfold digitVal
      show _ ↔ c.toNat = 48
      omega
    have ih' := ih fun d hd => hds d (List.mem_append_left _ hd)
    rw [Bigint.numVal_append_singleton]
    constructor
    · intro hzero d hd
      rcases List.mem_append.mp hd with hd | hd
      · exact ih'.mp (by omega) d hd
      · rw [List.mem_singleton.mp hd]
        exact hdigit.mp (by omega)
    · intro hall
      rw [ih'.mpr fun d hd => hall d (List.mem_append_left _ hd), hdigit.mpr (hall c (by simp))]

/-- The number of a prefix is not larger. -/
theorem numVal_take_le (ds : List UInt8) (k : Nat) : numVal (ds.take k) ≤ numVal ds := by
  induction ds generalizing k with
  | nil => simp
  | cons d ds ih =>
    cases k with
    | zero => exact Nat.zero_le _
    | succ k =>
      rw [List.take_succ_cons, Bigint.numVal_cons, Bigint.numVal_cons]
      have hpow : 10 ^ (ds.take k).length ≤ 10 ^ ds.length :=
        Nat.pow_le_pow_right (by omega) (by simp)
      exact Nat.add_le_add (ih k) (Nat.mul_le_mul_right _ hpow)

/-- A number loses its last digit, and more of them when their count is no `int`; with the count
`2^31` it is not read. -/
theorem keepsNumber_iff {src : List UInt8} (hlen : 2 ≤ src.length) (hds : ∀ c ∈ src, IsDigit c) :
    KeepsNumber src ↔ (∀ c ∈ src, c = 48) ∧ (src.length - 1) % 4294967296 ≠ 2147483648 := by
  have hne : src ≠ [] := by
    rintro rfl
    exact absurd hlen (by decide)
  obtain ⟨init, c, rfl⟩ := (List.eq_nil_or_concat' src).resolve_left hne
  have hinit : ∀ d ∈ init, IsDigit d := fun d hd => hds d (List.mem_append_left _ hd)
  have htext : textOf (init ++ [c]) = init := by
    rw [textOf, if_neg (zero_notMem_digits hds), List.dropLast_concat]
  have hcount : (init ++ [c]).length - 1 = init.length := by simp
  have hload : bigintImplementor.loadFrom (init ++ [c]) bigintImplementor.init =
      readBigint init >>= fun b => .ok (.bigint b, init.length) := by
    have h := bigint_loadFrom_textOf hlen {}
    rwa [htext] at h
  rw [← numVal_eq_zero_iff hds, hcount, ne_eq, ← Bigint.overruns_iff]
  by_cases hover : Bigint.Overruns init
  · refine iff_of_false ?_ fun h => h.2 hover
    rintro ⟨b, n, hb, -⟩
    rw [readBigint_error hover] at hload
    cases hload.symm.trans hb
  · rw [readBigint_ok hover, bind_ok] at hload
    obtain ⟨k, hk⟩ : ∃ k, (Bigint.readText init).value = numVal (init.take k) :=
      ⟨_, Bigint.readText_digits hinit⟩
    have hle := numVal_take_le init k
    have hsplit := Bigint.numVal_append_singleton init c
    constructor
    · rintro ⟨b, n, hb, hvalue⟩
      obtain ⟨hstored, -⟩ := Prod.mk.inj (Except.ok.inj (hload.symm.trans hb))
      rw [← Stored.bigint.inj hstored, hk] at hvalue
      exact ⟨by omega, hover⟩
    · rintro ⟨hzero, -⟩
      refine ⟨_, _, hload, ?_⟩
      rw [hk, hzero]
      omega

/-- A text is kept just when it has its zero byte.  A number of digits without one is kept just
when it is zero, but for one of `2^31 + 1` digits, which is not read. -/
theorem keeps_iff {text digits : List UInt8} (hne : text ≠ []) (hlen : 2 ≤ digits.length)
    (hds : ∀ c ∈ digits, IsDigit c) :
    (KeepsText text ↔ (0 : UInt8) ∈ text) ∧
      (KeepsNumber digits ↔
        (∀ c ∈ digits, c = 48) ∧ (digits.length - 1) % 4294967296 ≠ 2147483648) :=
  ⟨keepsText_iff hne, keepsNumber_iff hlen hds⟩

theorem keeps_iff_terminated : KeepsText [97, 0] ∧ KeepsNumber [48, 48] := by
  have hdigits : ∀ c ∈ ([48, 48] : List UInt8), IsDigit c := by simp [IsDigit]
  obtain ⟨htext, hnumber⟩ := @keeps_iff [97, 0] [48, 48] (by decide) (by decide) hdigits
  exact ⟨htext.mpr (by decide), hnumber.mpr ⟨by simp, by decide⟩⟩

/-- `12`, without a zero byte: a text and a number of one digit. -/
theorem twelve_not_kept :
    stringImplementor.loadFrom [49, 50] stringImplementor.init = .ok (.memory [49, 0], 2) ∧
      bigintImplementor.loadFrom [49, 50] bigintImplementor.init = .ok (.bigint ⟨[1], 1⟩, 1) ∧
      ¬ KeepsText [49, 50] ∧ ¬ KeepsNumber [49, 50] := by
  refine ⟨by decide, by decide, ?_, ?_⟩
  · rw [keepsText_iff (by decide)]
    decide
  · have hdigits : ∀ c ∈ ([49, 50] : List UInt8), IsDigit c := by simp [IsDigit]
    rw [keepsNumber_iff (by decide) hdigits]
    simp

/-! ## What is counted -/

/-- `load_from` of an encoding and what comes behind it returns the length of the
encoding. -/
def ReportsConsumed (dt : UInt8) (enc rest : List UInt8) : Prop :=
  ∃ impl s, getImplementor dt = some impl ∧
    impl.loadFrom (enc ++ rest) impl.init = .ok (s, enc.length)

/-- A text ends at its zero byte, whatever comes behind. -/
theorem getStringMxsz_append {text : List UInt8} (h : (0 : UInt8) ∉ text) (rest : List UInt8) :
    getStringMxsz (text ++ [0] ++ rest) = .ok (text ++ [0] ++ rest, text.length) := by
  have hcstr : cstr (text ++ [0] ++ rest) = text := by
    rw [List.append_assoc]
    exact cstr_append_zero rest h
  rw [getStringMxsz, hcstr]
  simp

/-- The count of a BLOB is its length as a `uint32_t`, and what it announces is copied. -/
theorem blob_count {len data : List UInt8} (width : len.length = 4)
    (length : leNat len = data.length) (rest : List UInt8) (ds : Stored) :
    (∃ s, blobImplementor.loadFrom (len ++ data ++ rest) ds = .ok (s, (len ++ data).length)) ↔
      (len ++ data).length < 4294967296 := by
  have htake : (len ++ data ++ rest).take 4 = len := by
    rw [List.append_assoc, List.take_append_of_le_length width.ge, List.take_of_length_le width.le]
  have hsize : (len ++ data).length = leNat len + 4 := by
    rw [List.length_append]
    omega
  have hfour : requireAtLeast (len ++ data ++ rest).length 4 = .ok () :=
    requireAtLeast_ok (by rw [List.length_append]; omega)
  have hall : requireAtLeast (len ++ data ++ rest).length ((leNat len + 4) % 4294967296) =
      .ok () := by
    apply requireAtLeast_ok
    have hmod := Nat.mod_le (leNat len + 4) 4294967296
    rw [List.length_append]
    omega
  rw [hsize]
  simp only [blobImplementor, htake, hfour, hall, bind_ok]
  constructor
  · rintro ⟨s, hload⟩
    by_contra hge
    have hlt : leNat len < 256 ^ 4 := width ▸ leNat_lt len
    rw [if_pos (by omega)] at hload
    cases hload
  · intro hlt
    rw [Nat.mod_eq_of_lt hlt, if_neg (Nat.lt_irrefl _)]
    exact ⟨_, rfl⟩

/-- The count is the length of the encoding, but for a BIGINT and for a BLOB whose length
is no `uint32_t`. -/
theorem reportsConsumed_iff {dt : UInt8} {enc : List UInt8} (henc : IsEncoding dt enc)
    (rest : List UInt8) : ReportsConsumed dt enc rest ↔
      dt ≠ dtypeBigint ∧ (dt = dtypeBlob → enc.length < 4294967296) := by
  cases henc with
  | none =>
    refine iff_of_true ⟨noneImplementor, _, rfl, rfl⟩ ⟨by decide, fun heq => absurd heq (by decide)⟩
  | fixed t bytes length =>
    obtain ⟨-, hblob, -, hbigint⟩ := t.id_ne
    refine iff_of_true ⟨_, .memory enc, getImplementor_fixed t, ?_⟩
      ⟨hbigint, fun heq => absurd heq hblob⟩
    have hreq : requireAtLeast (enc ++ rest).length t.size = .ok () :=
      requireAtLeast_ok (by rw [List.length_append]; omega)
    simp only [staticImplementor, hreq, bind_ok]
    rw [List.take_left' length, length]
  | blob len data width length =>
    have hcount := blob_count width length rest blobImplementor.init
    constructor
    · rintro ⟨impl, s, himpl, hload⟩
      obtain rfl : blobImplementor = impl := Option.some.inj himpl
      exact ⟨by decide, fun _ => hcount.mp ⟨s, hload⟩⟩
    · rintro ⟨-, hlt⟩
      obtain ⟨s, hload⟩ := hcount.mpr (hlt rfl)
      exact ⟨_, s, rfl, hload⟩
  | string text noZero =>
    refine iff_of_true ⟨_, .memory (text ++ [0]), rfl, ?_⟩
      ⟨by decide, fun heq => absurd heq (by decide)⟩
    simp only [stringImplementor, getStringMxsz_append noZero rest, bind_ok]
    rw [List.take_left' (by simp)]
    simp
  | bigint sign ds isSign ne digits =>
    refine iff_of_false ?_ fun h => h.1 rfl
    rintro ⟨impl, s, himpl, hload⟩
    obtain rfl : bigintImplementor = impl := Option.some.inj himpl
    have hlen : 2 ≤ (sign ++ ds ++ [0] ++ rest).length := by
      have := List.length_pos_iff.mpr ne
      simp
      omega
    simp only [bigintImplementor, Stored.bigintAt, requireAtLeast_ok hlen, bind_ok,
      getStringMxsz_append (zero_notMem_numeral isSign digits) rest] at hload
    obtain ⟨b, -, hload⟩ := bind_eq_ok.mp hload
    have hcount := (Prod.mk.inj (Except.ok.inj hload)).2
    simp at hcount

/-- A STRING, and a byte behind it. -/
theorem reportsConsumed_iff_string : ReportsConsumed dtypeString [97, 0] [98] :=
  (reportsConsumed_iff (.string [97] (by decide)) [98]).mpr
    ⟨by decide, fun heq => absurd heq (by decide)⟩

/-- The BIGINT `7`: of its two bytes one is counted. -/
theorem seven_not_reported :
    IsEncoding dtypeBigint [55, 0] ∧
      bigintImplementor.loadFrom [55, 0] bigintImplementor.init = .ok (.bigint ⟨[7], 1⟩, 1) ∧
      ¬ ReportsConsumed dtypeBigint [55, 0] [] := by
  have hdigits : ∀ c ∈ ([55] : List UInt8), IsDigit c := by simp [IsDigit]
  have henc : IsEncoding dtypeBigint [55, 0] := .bigint [] [55] (Or.inl rfl) (by decide) hdigits
  refine ⟨henc, by decide, ?_⟩
  rw [reportsConsumed_iff henc]
  exact fun h => h.1 rfl

end StateDb
